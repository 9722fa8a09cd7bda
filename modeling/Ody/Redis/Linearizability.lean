import Ody.Library.Linearizability
import Ody.Redis.Blocks
import Ody.Redis.Refinement

/-!
# The Redis store is linearizable

The methods of the Redis store that are one transaction or one read take effect in
one step, whatever other clients do between their commands: every interleaving has
a history of the in-memory store with the same answers. `Claim` and `ReapExpired`
are loops over `claimCandidate` and `reapCandidate`, and only these are atomic; the
lists and `RestartPipelineSubgraph` read several keys one after the other, and
`Purge` watches nothing, so that none of them is a method here.

## Implementation notes

The history uses the in-memory store with two operations of its own, `deliver` and
`expire`, for the two loops. It departs from the methods of the in-memory store in
three places. A status that is not final clears the finish time of a run. A request
with both references may find its node first and then return the record of the
node, although its idempotency key was taken in between. And `reapCandidate` keeps
the run of an execution that it found expired in a round that was lost: it returns
that run also when somebody else has resolved the execution since.
-/

namespace Ody.Redis

open Library.Tables Library.DerivedIndexes Library.Interleaving Library.Optimistic
open Memory (Env MemoryStore standaloneRequest)

/-! ## Methods and their answers -/

/-- The methods that are one transaction or one read, with their arguments. -/
inductive Method where
  | createExecution (request : CreateExecution)
  | getExecution (id : UUID)
  | claimCandidate (draw : Nat) (id : UUID) (owner : String) (accepted : List TaskKey)
      (lease : Duration)
  | reapCandidate (id : UUID)
  | heartbeat (id token : UUID) (lease : Duration)
  | succeed (id token : UUID) (output : RawMessage)
  | retry (id token : UUID) (errorText : String) (delay : Duration)
  | fail (id token : UUID) (errorText : String)
  | cancelExecution (id : UUID) (reason : String)
  | restartExecution (id : UUID) (availableAt : Time)
  | releaseExecution (id : UUID) (input : RawMessage) (availableAt : Time)
  | createPipelineRun (request : CreatePipelineRun)
  | getPipelineRun (id : UUID)
  | setPipelineRunStatus (id : UUID) (expectedRevision : Nat) (status : RunStatus)
      (errorText : String)

/-- What a method returns besides an error. -/
inductive Value where
  | nil
  | execution (item : Execution)
  | run (run : PipelineRun)
  | delivery (item : Option Execution)
  | reaped (runID : Option UUID)
  deriving DecidableEq, Repr

/-- A call with the values that it took from outside and what it returned. -/
structure Answer where
  env : Env
  method : Method
  result : Except GoError Value

/-- The call on the Redis store. -/
def Method.onRedis (env : Env) : Method → Op (Except GoError Value)
  | .createExecution request => (Redis.createExecution env request).map (Except.map Value.execution)
  | .getExecution id => (Redis.getExecution id).map (Except.map Value.execution)
  | .claimCandidate draw id owner accepted lease =>
      (Redis.claimCandidate env draw id owner accepted lease).map (Except.map Value.delivery)
  | .reapCandidate id => (Redis.reapCandidate env id).map (Except.map Value.reaped)
  | .heartbeat id token lease =>
      (Redis.heartbeat env id token lease).map (Except.map fun _ => Value.nil)
  | .succeed id token output =>
      (Redis.succeed env id token output).map (Except.map fun _ => Value.nil)
  | .retry id token errorText delay =>
      (Redis.retry env id token errorText delay).map (Except.map fun _ => Value.nil)
  | .fail id token errorText =>
      (Redis.fail env id token errorText).map (Except.map fun _ => Value.nil)
  | .cancelExecution id reason =>
      (Redis.cancelExecution env id reason).map (Except.map fun _ => Value.nil)
  | .restartExecution id availableAt =>
      (Redis.restartExecution env id availableAt).map (Except.map Value.execution)
  | .releaseExecution id input availableAt =>
      (Redis.releaseExecution env id input availableAt).map (Except.map fun _ => Value.nil)
  | .createPipelineRun request => (Redis.createPipelineRun env request).map (Except.map Value.run)
  | .getPipelineRun id => (Redis.getPipelineRun id).map (Except.map Value.run)
  | .setPipelineRunStatus id expectedRevision status errorText =>
      (Redis.setPipelineRunStatus env id expectedRevision status errorText).map
        (Except.map fun _ => Value.nil)

/-- The program of one call. -/
def Method.program (env : Env) (method : Method) : Op Answer :=
  (method.onRedis env).map (Answer.mk env method)

/-- Every round of a transaction lost a race, or the request has no task name. -/
def gaveUp : GoError → Bool
  | .text message =>
      message == "redis transaction contention limit exceeded" || message == "task name is empty"
  | _ => false

/-- The call returned before it reached a decision of the store. -/
def Answer.gaveUp (answer : Answer) : Bool :=
  match answer.result with
  | .error err => Redis.gaveUp err
  | .ok _ => false

/-! ## The abstract object -/

/-- Deliver one execution if a worker may have it. -/
def deliver (env : Env) (m : MemoryStore) (id : UUID) (owner : String) (accepted : List TaskKey)
    (lease : Duration) (token : UUID) : Option Execution × MemoryStore :=
  match (m.executions.lookup id).filter (Memory.claimable accepted env.now) with
  | none => (none, m)
  | some item =>
      let item := Memory.claimed env owner lease token item
      (some item, (m.put item).appendEvent env item .started "")

/-- Fail one execution if its final attempt has expired. -/
def expire (env : Env) (m : MemoryStore) (id : UUID) : Option UUID × MemoryStore :=
  match (m.executions.lookup id).filter (Memory.reapable env.now) with
  | none => (none, m)
  | some item =>
      let item := Memory.reaped env item
      (item.pipelineRunID, (m.put item).appendEvent env item .failed item.lastError)

/-- Set the status of a run; a status that is not final clears the finish time. -/
def setStatus (env : Env) (m : MemoryStore) (id : UUID) (expectedRevision : Nat)
    (status : RunStatus) (errorText : String) : Except GoError Unit × MemoryStore :=
  match m.runs.lookup id with
  | none => (.error .notFound, m)
  | some run =>
      if run.revision ≠ expectedRevision then (.error .conflict, m)
      else (.ok (), m.putRun (runWithStatus env status errorText run))

/-- Return the value of a call of the in-memory store. -/
def valued {α : Type} (value : α → Value) (reply : Except GoError α × MemoryStore) :
    Except GoError Value × MemoryStore := (reply.1.map value, reply.2)

/-- The call on the in-memory store; the value of `uuid.New` at `i` is the token of a delivery. -/
def Method.onMemory (env : Env) (i : Nat) (m : MemoryStore) :
    Method → Except GoError Value × MemoryStore
  | .createExecution request => valued .execution (Memory.createExecution env m request)
  | .getExecution id => valued .execution (Memory.getExecution m id, m)
  | .claimCandidate _ id owner accepted lease =>
      let (item, m') := deliver env m id owner accepted lease (env.newUUID i)
      (.ok (.delivery item), m')
  | .reapCandidate id =>
      let (runID, m') := expire env m id
      (.ok (.reaped runID), m')
  | .heartbeat id token lease => valued (fun _ => .nil) (Memory.heartbeat env m id token lease)
  | .succeed id token output => valued (fun _ => .nil) (Memory.succeed env m id token output)
  | .retry id token errorText delay =>
      valued (fun _ => .nil) (Memory.retry env m id token errorText delay)
  | .fail id token errorText => valued (fun _ => .nil) (Memory.fail env m id token errorText)
  | .cancelExecution id reason => valued (fun _ => .nil) (Memory.cancelExecution env m id reason)
  | .restartExecution id availableAt =>
      valued .execution (Memory.restartExecution env m id availableAt)
  | .releaseExecution id input availableAt =>
      valued (fun _ => .nil) (Memory.releaseExecution env m id input availableAt)
  | .createPipelineRun request =>
      let (run, m') := Memory.createPipelineRun env m request
      (.ok (.run run), m')
  | .getPipelineRun id => valued .run (Memory.getPipelineRun m id, m)
  | .setPipelineRunStatus id expectedRevision status errorText =>
      valued (fun _ => .nil) (setStatus env m id expectedRevision status errorText)

/-- A request with both references returns the record of its node. -/
structure FoundNode (m : MemoryStore) (request : CreateExecution) (item : Execution) : Prop where
  keyed : request.idempotencyKey ≠ ""
  node : ∃ runID id, request.pipelineRunID = some runID ∧ request.nodeKey ≠ "" ∧
    m.nodes.lookup (runID, request.nodeKey) = some id ∧ m.executions.lookup id = some item

/-- The execution of a run, which is not to be reaped. -/
structure FoundExpired (now : Time) (m : MemoryStore) (id runID : UUID) : Prop where
  run : ∃ item, m.executions.lookup id = some item ∧ item.pipelineRunID = some runID
  kept : ∀ item, m.executions.lookup id = some item → Memory.reapable now item = false

/-- The identifier that a call stores a new record under is in use for no other record. -/
def Method.New (env : Env) (m : MemoryStore) : Method → Prop
  | .createExecution request =>
      Memory.existing m request = none → m.executions.lookup (env.newUUID 0) = none
  | .createPipelineRun request =>
      Memory.existingRun m request = none → m.runs.lookup (env.newUUID 0) = none
  | _ => True

/-- The in-memory store gives an answer and changes. Two errors need not be the same. -/
inductive Answers : Answer → MemoryStore → MemoryStore → Prop
  | call {env method result m} (i : Nat) (hnew : method.New env m)
      (h : Agree Eq result (method.onMemory env i m).1) :
      Answers ⟨env, method, result⟩ m (method.onMemory env i m).2
  | foundNode {env request item m} (h : FoundNode m request item) :
      Answers ⟨env, .createExecution request, .ok (.execution item)⟩ m m
  | foundExpired {env id runID m} (h : FoundExpired env.now m id runID) :
      Answers ⟨env, .reapCandidate id, .ok (.reaped (some runID))⟩ m m

/-- No execution is removed, and no reference is lost or redirected. -/
structure Persist (s s' : Keyspace) : Prop where
  records : ∀ id item, s.executions.records.lookup id = some item →
    ∃ item', s'.executions.records.lookup id = some item'
  executions : ∀ ref id, s.executions.refs.lookup ref = some id →
    s'.executions.refs.lookup ref = some id
  runs : ∀ key id, s.runs.refs.lookup key = some id → s'.runs.refs.lookup key = some id

theorem Persist.of_eq {s s' : Keyspace} (hrecords : s'.executions.records = s.executions.records)
    (h : s'.executions.refs = s.executions.refs) (hruns : s'.runs.refs = s.runs.refs) :
    Persist s s' :=
  ⟨fun _ item hl => ⟨item, hrecords ▸ hl⟩, fun _ _ hl => h ▸ hl, fun _ _ hl => hruns ▸ hl⟩

theorem Persist.trans {a b c : Keyspace} (h : Persist a b) (h' : Persist b c) : Persist a c where
  records := by
    intro id item hl
    obtain ⟨item', hl'⟩ := h.records id item hl
    exact h'.records id item' hl'
  executions := fun ref id hl => h'.executions ref id (h.executions ref id hl)
  runs := fun key id hl => h'.runs key id (h.runs key id hl)

/-- What other clients do while a method runs. -/
def Grows (s s' : Server) : Prop := Later s s' ∧ Persist s.keys s'.keys

theorem Grows.refl (s : Server) : Grows s s := ⟨Later.refl s, Persist.of_eq rfl rfl rfl⟩

theorem Grows.trans {a b c : Server} (ha : Invariant a) (h : Grows a b) (h' : Grows b c) : Grows a c :=
  ⟨h.1.trans ha.known h'.1, h.2.trans h'.2⟩

/-- Every method keeps the invariant of the server. -/
theorem keeps_onRedis (env : Env) (method : Method) : Keeps FreshIDs (method.onRedis env) := by
  have hfresh : ∀ s c, FreshIDs s c → FreshIDs s c := fun _ _ h => h
  cases method with
  | createExecution request => exact (keeps_createExecution hfresh env request).map
  | getExecution id => exact (keeps_getExecution id).map
  | claimCandidate draw id owner accepted lease =>
      exact (keeps_claimCandidate hfresh env draw id owner accepted lease).map
  | reapCandidate id => exact (keeps_reapCandidate hfresh env id).map
  | heartbeat id token lease => exact (keeps_heartbeat hfresh env id token lease).map
  | succeed id token output => exact (keeps_succeed hfresh env id token output).map
  | retry id token errorText delay => exact (keeps_retry hfresh env id token errorText delay).map
  | fail id token errorText => exact (keeps_fail hfresh env id token errorText).map
  | cancelExecution id reason => exact (keeps_cancelExecution hfresh env id reason).map
  | restartExecution id availableAt => exact (keeps_restartExecution hfresh env id availableAt).map
  | releaseExecution id input availableAt =>
      exact (keeps_releaseExecution hfresh env id input availableAt).map
  | createPipelineRun request => exact (keeps_createPipelineRun hfresh env request).map
  | getPipelineRun id => exact (keeps_getPipelineRun id).map
  | setPipelineRunStatus id expectedRevision status errorText =>
      exact (keeps_setPipelineRunStatus hfresh env id expectedRevision status errorText).map

theorem keeps_method (env : Env) (method : Method) : Keeps FreshIDs (method.program env) :=
  (keeps_onRedis env method).map

/-- A program that takes effect as the in-memory store in one of its steps, whatever the other clients
do that `Rel` admits. -/
abbrev LinearOp (Rel : Server → Server → Prop) (p : Op Answer) (s : Server) : Prop :=
  Linear (backend.system FreshIDs) Invariant Rel (fun s m => Abstracts s.keys m) Answers
    Answer.gaveUp p () s

/-- The effect of a program, in the state in which it takes effect. -/
abbrev EffectOp (answer : Answer) (s s' : Server) : Prop :=
  Effect (fun s m => Abstracts s.keys m) Answers Answer.gaveUp answer s s'

theorem Agree.map {α β : Type} (f : α → β) {a b : Except GoError α} (h : Agree Eq a b) :
    Agree Eq (a.map f) (b.map f) := by
  cases a <;> cases b <;> first | exact congrArg f h | exact h

/-- The in-memory store gives the same answer. -/
theorem answers_of_eq {env : Env} {method : Method} {i : Nat} {m m' : MemoryStore}
    {result : Except GoError Value} (hnew : method.New env m)
    (h : method.onMemory env i m = (result, m')) :
    Answers ⟨env, method, result⟩ m m' := by
  have hagree : Agree Eq result (method.onMemory env i m).1 := by
    rw [h]
    cases result with
    | ok value => exact rfl
    | error err => exact trivial
  have hanswer := Answers.call i hnew hagree
  rwa [h] at hanswer

/-- A method whose reply and effect are those of the in-memory store. -/
theorem effect_of_refines {α : Type} {env : Env} {method : Method} (value : α → Value)
    (memory : MemoryStore → Except GoError α × MemoryStore) {s s' : Server} (result : Except GoError α)
    (hmemory : ∀ m, method.onMemory env 0 m = valued value (memory m))
    (hnew : ∀ m, Abstracts s.keys m → method.New env m)
    (hloud : ∀ err, result = .error err → gaveUp err = false)
    (hrefines : ∀ m, Abstracts s.keys m → Refines Eq s m (result, s') (memory m)) :
    EffectOp ⟨env, method, result.map value⟩ s s' := by
  constructor
  · cases result with
    | ok a => rfl
    | error err => exact hloud err rfl
  · intro m ha
    have h := hrefines m ha
    refine ⟨(method.onMemory env 0 m).2, Answers.call 0 (hnew m ha) ?_, ?_⟩
    · rw [hmemory]
      exact h.agree.map value
    · rw [hmemory]
      exact h.abstracts

/-- A transaction that ignores the number of its round takes effect as it does alone. -/
theorem linear_operation {Rel : Server → Server → Prop} {α β : Type} {env : Env} {method : Method}
    {value : α → Value} {w : Watch}
    {body : Image → Except TxError (β × List Command)} {result : Except TxError β → Except GoError α}
    (op : Op (Except GoError α))
    (hop : op = (watch w fun _ => body).bind fun reply => .done (result reply))
    (hcontention : result (.error (.store (.text "redis transaction contention limit exceeded"))) =
      .error (.text "redis transaction contention limit exceeded"))
    (heffect : ∀ s, Invariant s →
      EffectOp ⟨env, method, (backend.alone op s).1.map value⟩ s (backend.alone op s).2) (s : Server) :
    LinearOp Rel ((op.map (Except.map value)).map (Answer.mk env method)) s := by
  have hprogram : (op.map (Except.map value)).map (Answer.mk env method) =
      (watch w fun _ => body).bind fun reply => .done ⟨env, method, (result reply).map value⟩ := by
    simp only [hop, Program.map, Program.bind_assoc]
    rfl
  have halone : ∀ s, backend.alone op s =
      (result (backend.alone (watch w fun _ => body) s).1,
        (backend.alone (watch w fun _ => body) s).2) := by
    intro s
    rw [hop, backend.alone_bind]
    rfl
  rw [hprogram]
  apply linear_attempt_seen
  · intro n s a commands hI hbody _
    have h := heffect s hI
    have hview : body (s.keys.view w) = .ok (a, commands) := hbody
    rw [halone, alone_watch, hview] at h
    exact ⟨_, rfl, h⟩
  · intro n s err hI hbody
    have h := heffect s hI
    have hview : body (s.keys.view w) = .error err := hbody
    rw [halone, alone_watch, hview] at h
    exact Or.inr ⟨_, rfl, h⟩
  · refine ⟨_, rfl, ?_⟩
    simp only [Answer.gaveUp, hcontention]
    rfl

/-- The error of a transaction on one execution is one of its decision, or the record is missing. -/
theorem alone_watchExecution_loud {α : Type} {id : UUID}
    {operation : Execution → Except TxError (α × List Command)}
    (hloud : ∀ item err, operation item = .error err → gaveUp err.goError = false) (s : Server)
    {err : GoError} (herr : (backend.alone (returned (watchExecution id (.error (.store .notFound))
      fun _ => operation)) s).1 = .error err) : gaveUp err = false := by
  rw [alone_returned, alone_watchExecution] at herr
  cases hl : s.keys.executions.records.lookup id with
  | none =>
      rw [hl] at herr
      cases herr
      rfl
  | some item =>
      rw [hl] at herr
      dsimp only at herr
      cases hoperation : operation item with
      | ok decision =>
          rw [hoperation] at herr
          cases herr
      | error err' =>
          rw [hoperation] at herr
          cases herr
          exact hloud item err' hoperation

/-- A transaction on one execution that ignores the number of its round. -/
theorem linear_watchExecution {Rel : Server → Server → Prop} {α : Type} {env : Env}
    {method : Method} {value : α → Value}
    {memory : MemoryStore → Except GoError α × MemoryStore} {id : UUID}
    {operation : Execution → Except TxError (α × List Command)}
    (hmemory : ∀ m, method.onMemory env 0 m = valued value (memory m))
    (hnew : ∀ m, method.New env m)
    (hloud : ∀ item err, operation item = .error err → gaveUp err.goError = false)
    (hrefines : ∀ s m, Represented s.keys → Abstracts s.keys m → Refines Eq s m
      (backend.alone (returned (watchExecution id (.error (.store .notFound)) fun _ => operation)) s)
      (memory m)) (s : Server) :
    LinearOp Rel (((returned (watchExecution id (.error (.store .notFound)) fun _ => operation)).map
      (Except.map value)).map (Answer.mk env method)) s := by
  refine linear_operation (returned _) rfl rfl (fun s hI => ?_) s
  exact effect_of_refines value memory _ hmemory (fun m _ => hnew m)
    (fun _ => alone_watchExecution_loud hloud s)
    fun m ha => hrefines s m hI.represented ha

section Methods

variable (env : Env) {Rel : Server → Server → Prop} (s : Server)

theorem linear_heartbeat (id token : UUID) (lease : Duration) :
    LinearOp Rel ((Method.heartbeat id token lease).program env) s := by
  apply linear_watchExecution (fun _ => rfl)
  · exact fun _ => trivial
  · intro item err herr
    split at herr <;> cases herr
    rfl
  · exact fun s m h ha => refines_heartbeat h ha env id token lease

/-- A mutation of the owner fails only without the lease. -/
theorem linear_transition {method : Method} {id token : UUID} {mutate : Execution → Mutation}
    {memory : MemoryStore → Except GoError Unit × MemoryStore}
    (hmemory : ∀ m, method.onMemory env 0 m = valued (fun _ => .nil) (memory m))
    (hnew : ∀ m, method.New env m)
    (hrefines : ∀ s m, Represented s.keys → Abstracts s.keys m →
      Refines Eq s m (backend.alone (transition env id token mutate) s) (memory m)) :
    LinearOp Rel (((transition env id token mutate).map (Except.map fun _ => Value.nil)).map
      (Answer.mk env method)) s := by
  apply linear_watchExecution hmemory hnew
  · intro item err herr
    split at herr <;> cases herr
    rfl
  · exact hrefines

theorem linear_succeed (id token : UUID) (output : RawMessage) :
    LinearOp Rel ((Method.succeed id token output).program env) s :=
  linear_transition env s (fun _ => rfl) (fun _ => trivial) fun _ _ h ha =>
    refines_succeed h ha env id token output

theorem linear_retry (id token : UUID) (errorText : String) (delay : Duration) :
    LinearOp Rel ((Method.retry id token errorText delay).program env) s :=
  linear_transition env s (fun _ => rfl) (fun _ => trivial) fun _ _ h ha =>
    refines_retry h ha env id token errorText delay

theorem linear_fail (id token : UUID) (errorText : String) :
    LinearOp Rel ((Method.fail id token errorText).program env) s :=
  linear_transition env s (fun _ => rfl) (fun _ => trivial) fun _ _ h ha =>
    refines_fail h ha env id token errorText

theorem linear_cancelExecution (id : UUID) (reason : String) :
    LinearOp Rel ((Method.cancelExecution id reason).program env) s := by
  apply linear_watchExecution (fun _ => rfl)
  · exact fun _ => trivial
  · intro item err herr
    split at herr <;> cases herr
    rfl
  · exact fun s m h ha => refines_cancelExecution h ha env id reason

theorem linear_restartExecution (id : UUID) (availableAt : Time) :
    LinearOp Rel ((Method.restartExecution id availableAt).program env) s := by
  apply linear_watchExecution (fun _ => rfl)
  · exact fun _ => trivial
  · intro item err herr
    split at herr
    · cases herr
      rfl
    · split at herr <;> cases herr
      rfl
  · exact fun s m h ha => refines_restartExecution h ha env id availableAt

theorem linear_releaseExecution (id : UUID) (input : RawMessage) (availableAt : Time) :
    LinearOp Rel ((Method.releaseExecution id input availableAt).program env) s := by
  apply linear_watchExecution (fun _ => rfl)
  · exact fun _ => trivial
  · intro item err herr
    split at herr <;> cases herr
    rfl
  · exact fun s m h ha => refines_releaseExecution h ha env id input availableAt

theorem linear_getExecution (id : UUID) : LinearOp Rel ((Method.getExecution id).program env) s := by
  apply linear_other
  intro s' _ hI _
  refine ⟨_, rfl, ?_⟩
  have hget : ∀ m, Abstracts s'.keys m →
      m.executions.lookup id = s'.keys.executions.records.lookup id := fun m ha => ha.executions id
  have hexec : backend.exec s' (.getExecution id) = (s'.keys.executions.records.lookup id, s') := rfl
  rw [hexec]
  cases hl : s'.keys.executions.records.lookup id with
  | some item =>
      refine effect_of_refines .execution (fun m => (Memory.getExecution m id, m)) (.ok item)
        (fun _ => rfl) (fun _ _ => trivial) (fun _ h => nomatch h) fun m ha => ?_
      rw [Memory.getExecution, hget m ha, hl]
      exact Refines.read rfl hI.represented ha
  | none =>
      refine effect_of_refines .execution (fun m => (Memory.getExecution m id, m)) (.error .notFound)
        (fun _ => rfl) (fun _ _ => trivial) (fun _ h => by cases h; rfl) fun m ha => ?_
      rw [Memory.getExecution, hget m ha, hl]
      exact Refines.fail hI.represented ha _ _

theorem linear_getPipelineRun (id : UUID) : LinearOp Rel ((Method.getPipelineRun id).program env) s := by
  apply linear_other
  intro s' _ hI _
  refine ⟨_, rfl, ?_⟩
  have hget : ∀ m, Abstracts s'.keys m → m.runs.lookup id = s'.keys.runs.records.lookup id :=
    fun m ha => ha.runs id
  have hexec : backend.exec s' (.getPipelineRun id) = (s'.keys.runs.records.lookup id, s') := rfl
  rw [hexec]
  cases hl : s'.keys.runs.records.lookup id with
  | some run =>
      refine effect_of_refines .run (fun m => (Memory.getPipelineRun m id, m)) (.ok run)
        (fun _ => rfl) (fun _ _ => trivial) (fun _ h => nomatch h) fun m ha => ?_
      rw [Memory.getPipelineRun, hget m ha, hl]
      exact Refines.read rfl hI.represented ha
  | none =>
      refine effect_of_refines .run (fun m => (Memory.getPipelineRun m id, m)) (.error .notFound)
        (fun _ => rfl) (fun _ _ => trivial) (fun _ h => by cases h; rfl) fun m ha => ?_
      rw [Memory.getPipelineRun, hget m ha, hl]
      exact Refines.fail hI.represented ha _ _

theorem linear_setPipelineRunStatus (id : UUID) (expectedRevision : Nat) (status : RunStatus)
    (errorText : String) :
    LinearOp Rel ((Method.setPipelineRunStatus id expectedRevision status errorText).program env) s := by
  refine linear_operation (setPipelineRunStatus env id expectedRevision status errorText) rfl rfl
    (fun s hI => ?_) s
  have hview : (s.keys.view ⟨[], [id], [], []⟩).runs = [s.keys.runs.records.lookup id] := rfl
  rw [setPipelineRunStatus, alone_returned, alone_watch, hview]
  let memory : MemoryStore → Except GoError Unit × MemoryStore := fun m =>
    setStatus env m id expectedRevision status errorText
  cases hl : s.keys.runs.records.lookup id with
  | none =>
      refine effect_of_refines (fun _ => .nil) memory (.error .notFound) (fun _ => rfl)
        (fun _ _ => trivial) (fun _ h => by cases h; rfl) fun m ha => ?_
      have hmemory : memory m = (.error .notFound, m) := by
        simp [memory, setStatus, ha.runs, hl]
      rw [hmemory]
      exact Refines.fail hI.represented ha _ _
  | some run =>
      obtain rfl : run.id = id := hI.represented.runs.keyed id run hl
      by_cases hrevision : run.revision ≠ expectedRevision
      · have hmemory : ∀ m, Abstracts s.keys m → memory m = (.error .conflict, m) := by
          intro m ha
          simp [memory, setStatus, ha.runs, hl, hrevision]
        simp only [if_pos hrevision]
        refine effect_of_refines (fun _ => .nil) memory (.error .conflict) (fun _ => rfl)
          (fun _ _ => trivial) (fun _ h => by cases h; rfl) fun m ha => ?_
        rw [hmemory m ha]
        exact Refines.fail hI.represented ha _ _
      · have hmemory : ∀ m, Abstracts s.keys m →
            memory m = (.ok (), m.putRun (runWithStatus env status errorText run)) := by
          intro m ha
          simp [memory, setStatus, ha.runs, hl, not_not.mp hrevision]
        simp only [if_neg hrevision]
        refine effect_of_refines (fun _ => .nil) memory (.ok ()) (fun _ => rfl)
          (fun _ _ => trivial) (fun _ h => nomatch h) fun m ha => ?_
        rw [hmemory m ha]
        have hid : (runWithStatus env status errorText run).id = run.id := rfl
        exact Refines.success rfl (represented_moveRun hI.represented hl hid rfl rfl rfl)
          (ha.moveRun hid run.status)

/-- The decision of one round of `reapCandidate`. -/
def reapDecision (id : UUID) (lost : Option (Option UUID)) (_ : Nat) (image : Image) :
    Except TxError (Option UUID × List Command) :=
  match image.executions with
  | [some item] =>
      if item.status ≠ .running then .ok (lost.join, removeLeaseIndex id)
      else if env.now < item.leaseUntil then .error .unavailable
      else if item.attempt < item.maxAttempts then .ok (lost.join, removeLeaseIndex id)
      else .ok (item.pipelineRunID, saveTransition env (Memory.reaped env item) item.status .failed
        (Memory.reaped env item).lastError false)
  | _ => .ok (lost.join, removeLeaseIndex id)

/-- A round fails the execution that it has read, or it leaves it as it is. -/
theorem reapDecision_cases (id : UUID) (lost : Option (Option UUID)) (n : Nat) {image : Image}
    {stored : Option Execution} (himage : image.executions = [stored]) :
    (∃ item, stored = some item ∧ Memory.reapable env.now item = true ∧
      reapDecision env id lost n image = .ok (item.pipelineRunID, saveTransition env
        (Memory.reaped env item) item.status .failed (Memory.reaped env item).lastError false)) ∨
    ((∀ item, stored = some item → Memory.reapable env.now item = false) ∧
      (reapDecision env id lost n image = .ok (lost.join, removeLeaseIndex id) ∨
        reapDecision env id lost n image = .error .unavailable)) := by
  rw [reapDecision, himage]
  cases stored with
  | none => exact Or.inr ⟨fun _ h => (nomatch h), Or.inl rfl⟩
  | some item =>
      dsimp only
      have hreap : Memory.reapable env.now item = true ↔ _ := Memory.reapable_iff
      have hkept : ¬Memory.reapable env.now item = true →
          ∀ item', some item = some item' → Memory.reapable env.now item' = false := by
        rintro hfail _ ⟨⟩
        exact Bool.eq_false_iff.mpr hfail
      by_cases hrunning : item.status = .running
      · rw [if_neg (not_not.mpr hrunning)]
        by_cases hwait : env.now < item.leaseUntil
        · rw [if_pos hwait]
          exact Or.inr ⟨hkept fun h => (hreap.mp h).2.1.not_gt hwait, Or.inr rfl⟩
        · rw [if_neg hwait]
          by_cases hleft : item.attempt < item.maxAttempts
          · rw [if_pos hleft]
            exact Or.inr ⟨hkept fun h => (hreap.mp h).2.2.not_gt hleft, Or.inl rfl⟩
          · rw [if_neg hleft]
            exact Or.inl ⟨item, rfl, hreap.mpr ⟨hrunning, not_lt.mp hwait, not_lt.mp hleft⟩, rfl⟩
      · rw [if_pos hrunning]
        exact Or.inr ⟨hkept fun h => hrunning (hreap.mp h).1, Or.inl rfl⟩

/-- A reaper takes effect when it fails the execution, or when it finds that it is not to be failed.
`P` is what is known about the run that a lost round has found. -/
theorem linear_reap {M β : Type} {Abs : Server → M → Prop} {Spec : β → M → M → Prop}
    {quiet : β → Bool} {P : Option UUID → Server → Prop} {id : UUID}
    (f : Except GoError (Option UUID) → β)
    (hstable : ∀ runID s s', P runID s → Rel s s' → Invariant s' → P runID s')
    (hfound : ∀ s item, Invariant s → s.keys.executions.records.lookup id = some item →
      P item.pipelineRunID s)
    (hreap : ∀ s item, Invariant s → s.keys.executions.records.lookup id = some item →
      Memory.reapable env.now item = true → Effect Abs Spec quiet (f (.ok item.pipelineRunID)) s
        (s.applyAll (saveTransition env (Memory.reaped env item) item.status .failed
          (Memory.reaped env item).lastError false)))
    (hleft : ∀ runID s, Invariant s → P runID s →
      (∀ item, s.keys.executions.records.lookup id = some item →
        Memory.reapable env.now item = false) →
      Effect Abs Spec quiet (f (.ok runID)) s (s.applyAll (removeLeaseIndex id)))
    (hwait : ∀ s, Invariant s → (∀ item, s.keys.executions.records.lookup id = some item →
      Memory.reapable env.now item = false) → Effect Abs Spec quiet (f (.ok none)) s s)
    (hcontention : quiet (f (.error (.text "redis transaction contention limit exceeded"))) = true)
    (hnone : P none s) :
    Linear (backend.system FreshIDs) Invariant Rel Abs Spec quiet
      ((reapCandidate env id).bind fun reply => .done (f reply)) () s := by
  rw [reapCandidate, Program.bind_assoc]
  show Linear _ _ _ _ _ _ ((watchFrom ⟨[id], [], [], []⟩ .done (reapDecision env id)).bind _) () s
  apply linear_attempt (P := fun lost s => P lost.join s)
    (K := fun image s => image.executions = [s.keys.executions.records.lookup id])
  · exact fun lost s s' => hstable lost.join s s'
  · exact fun _ _ _ hP => ⟨hP, rfl⟩
  · intro lost n s image a commands hI hP himage hbody
    rcases reapDecision_cases env id lost n himage with ⟨item, hl, -, heq⟩ | ⟨-, heq | heq⟩ <;>
      cases heq.symm.trans hbody
    · exact hfound s item hI hl
    · exact hP
  · intro lost n s a commands hI hP hbody _
    have himage : (backend.view ⟨[id], [], [], []⟩ s).executions =
        [s.keys.executions.records.lookup id] := rfl
    rcases reapDecision_cases env id lost n himage with
      ⟨item, hl, hpass, heq⟩ | ⟨hkept, heq | heq⟩ <;> cases heq.symm.trans hbody
    · exact ⟨_, rfl, hreap s item hI hl hpass⟩
    · exact ⟨_, rfl, hleft lost.join s hI hP hkept⟩
  · intro lost n s image err hI himage hbody
    rcases reapDecision_cases env id lost n himage with ⟨item, -, -, heq⟩ | ⟨hkept, heq | heq⟩ <;>
      cases heq.symm.trans hbody
    exact Or.inr ⟨_, rfl, hwait s hI hkept⟩
  · exact ⟨_, rfl, hcontention⟩
  · exact hnone

theorem deliver_of_claimable {m : MemoryStore} {id : UUID} {item : Execution} {owner : String}
    {accepted : List TaskKey} {lease : Duration} (hl : m.executions.lookup id = some item)
    (hpass : Memory.claimable accepted env.now item = true) (token : UUID) :
    deliver env m id owner accepted lease token =
      (some (Memory.claimed env owner lease token item),
        (m.put (Memory.claimed env owner lease token item)).appendEvent env
          (Memory.claimed env owner lease token item) .started "") := by
  rw [deliver, hl, Option.filter_some, if_pos hpass]

theorem deliver_eq_none {m : MemoryStore} {id : UUID} {owner : String} {accepted : List TaskKey}
    {lease : Duration}
    (hfail : ∀ item, m.executions.lookup id = some item →
      ¬ Memory.claimable accepted env.now item = true) (token : UUID) :
    deliver env m id owner accepted lease token = (none, m) := by
  rw [deliver]
  cases hl : m.executions.lookup id with
  | none => rfl
  | some item => rw [Option.filter_some, if_neg (hfail item hl)]

/-- A delivery takes effect with the token of the round that commits it. -/
theorem linear_claimCandidate (draw : Nat) (id : UUID) (owner : String) (accepted : List TaskKey)
    (lease : Duration) :
    LinearOp Rel ((Method.claimCandidate draw id owner accepted lease).program env) s := by
  have hview : ∀ s : Server, (backend.view ⟨[id], [], [], []⟩ s).executions =
      [s.keys.executions.records.lookup id] := fun _ => rfl
  have hnone : ∀ s : Server, (∀ item, s.keys.executions.records.lookup id = some item →
      ¬ Memory.claimable accepted env.now item = true) →
      EffectOp ⟨env, .claimCandidate draw id owner accepted lease, .ok (.delivery none)⟩ s s := by
    intro s hfail
    refine ⟨rfl, fun m ha => ⟨m, ?_, ha⟩⟩
    have hdeliver : deliver env m id owner accepted lease (env.newUUID 0) = (none, m) :=
      deliver_eq_none env (fun item hl => hfail item ((ha.executions id).symm.trans hl)) _
    have hmemory : (Method.claimCandidate draw id owner accepted lease).onMemory env 0 m =
        (.ok (.delivery none), m) := by
      simp only [Method.onMemory, hdeliver]
    exact answers_of_eq trivial hmemory
  simp only [Method.program, Method.onRedis, claimCandidate, Program.map, Program.bind_assoc]
  apply linear_attempt_seen
  · intro n s a commands hI hbody _
    rw [hview] at hbody
    cases hl : s.keys.executions.records.lookup id with
    | none =>
        rw [hl] at hbody
        cases hbody
    | some item =>
        rw [hl] at hbody
        dsimp only at hbody
        split at hbody
        · next hpass =>
          cases hbody
          rw [claimable_eq] at hpass
          refine ⟨_, rfl, rfl, fun m ha => ?_⟩
          let delivery := Memory.claimed env owner lease (env.newUUID (draw + n)) item
          have hdeliver : deliver env m id owner accepted lease (env.newUUID (draw + n)) =
              (some delivery, (m.put delivery).appendEvent env delivery .started "") :=
            deliver_of_claimable env ((ha.executions id).trans hl) hpass _
          have hmemory : (Method.claimCandidate draw id owner accepted lease).onMemory env (draw + n) m =
              (.ok (.delivery (some delivery)),
                (m.put delivery).appendEvent env delivery .started "") := by
            simp only [Method.onMemory, hdeliver]
          refine ⟨_, answers_of_eq trivial hmemory, ?_⟩
          have hkeys := keys_applyAll s (saveTransition env delivery item.status .started "" true)
          have hsaved := ha.save (writes_saveTransition s.keys delivery env item.status .started "" true)
          rw [← hkeys] at hsaved
          exact hsaved
        · cases hbody
  · intro n s err hI hbody
    rw [hview] at hbody
    right
    cases hl : s.keys.executions.records.lookup id with
    | none =>
        rw [hl] at hbody
        cases hbody
        exact ⟨_, rfl, hnone s (by simp [hl])⟩
    | some item =>
        rw [hl] at hbody
        dsimp only at hbody
        split at hbody
        · cases hbody
        · next hfail =>
          cases hbody
          rw [claimable_eq] at hfail
          exact ⟨_, rfl, hnone s (by simpa [hl] using hfail)⟩
  · exact ⟨_, rfl, rfl⟩

/-- What a request has found leads from one of its references. -/
theorem safe_getRefs (refs : List RefKey) {rest : List RefKey} (hrest : ∀ ref ∈ rest, ref ∈ refs)
    {values : List (Option UUID)} (hvalues : values.findSome? id = none) :
    Safe (backend.system FreshIDs) Invariant Rel Eq (fun image _ s => True ∧ ∀ existing,
      image.refs.findSome? id = some existing →
        ∃ ref ∈ refs, s.keys.executions.refs.lookup ref = some existing)
      (getRefs rest values) () s := by
  induction rest generalizing values s with
  | nil =>
      refine ⟨trivial, fun existing hfound => ?_⟩
      cases hvalues.symm.trans hfound
  | cons key rest ih =>
      obtain ⟨hkey, hrest⟩ := List.forall_mem_cons.mp hrest
      intro s' _ hI _ value s'' hstep
      have hexec : (s'.keys.executions.refs.lookup key, s') = (value, s'') := hstep
      obtain ⟨hvalue, rfl⟩ := Prod.mk.inj hexec
      refine ⟨hI, rfl, ?_⟩
      cases value with
      | none => exact ih s' hrest (by simp [List.findSome?_append, hvalues])
      | some found =>
          refine ⟨trivial, fun existing hfound => ⟨key, hkey, ?_⟩⟩
          simp only [List.findSome?_append, hvalues] at hfound
          rw [hvalue, ← hfound]
          rfl

end Methods

/-! ## Whole runs -/

theorem initial_invariant (s : Server) (h : Server.Initial s) : Invariant s := by
  obtain rfl := h
  exact Invariant.empty

section Runs

variable {s s' : Server} {threads threads' :
  List (Thread Unit (TxCall Watch Image Command Query) (TxReply QueryReply) Answer)}

end Runs

/-- Two reapers read one expired execution of a run; the block of the second comes too late. -/
def reapRace : List (Move (TxCall Watch Image Command Query) (TxReply QueryReply) Answer) :=
  [.spawn (Method.program (Env.at 5 0) (.createExecution
      ⟨"email", 1, "", 1, zeroTime, "", some 7, ""⟩)), .step 0, .step 0,
    .spawn (Method.program (Env.at 6 1) (.claimCandidate 0 1 "a" [⟨"email", 1⟩] 1)), .step 1, .step 1,
    .spawn (Method.program (Env.at 9 20) (.reapCandidate 1)),
    .spawn (Method.program (Env.at 9 40) (.reapCandidate 1)),
    .step 2, .step 3, .step 2, .step 3, .step 3, .step 3]

/-- The reaper has returned the run of the execution. -/
def Answer.reapedRun (runID : UUID) (answer : Answer) : Bool :=
  match answer.result with
  | .ok (.reaped found) => found == some runID
  | _ => false

-- both return the run, although only the first has failed the execution
example : (freshExecution.drive reapRace Server.empty []).any (fun final =>
    (final.2.filterMap (·.program.returned)).countP (Answer.reapedRun 7) == 2) = true := by
  decide +kernel

end Ody.Redis
