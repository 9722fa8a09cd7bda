import Ody.Redis.Abstraction
import Ody.Redis.OperationRules

/-!
# The Redis store refines the in-memory store

An operation that no other client interrupts succeeds in the Redis store if and
only if it succeeds in the in-memory store that the keyspace stands for. It then
returns the same and leaves a keyspace that stands for the resulting store.

## Implementation notes

The two stores find executions in opposite ways. The in-memory store scans its
maps; the Redis store follows node references and the lease index, whose scores
are milliseconds. The representation invariant makes both find the same records.
-/

namespace Ody.Redis

open Library.Tables Library.DerivedIndexes Library.Optimistic
open Memory (Env MemoryStore standaloneRequest)

/-! ## Operations without interference -/

theorem alone_watchFrom {α : Type} {s : Server} {w : Watch} {read : Image → Op Image}
    {operation : Option α → Nat → Image → Except TxError (α × List Command)} {image : Image}
    (hread : backend.alone (read (s.keys.view w)) s = (image, s))
    (hsame : ∀ a commands, operation none 15 image = .ok (a, commands) → s.keys.view w = image) :
    backend.alone (watchFrom w read operation) s =
      match operation none 15 image with
      | .error err => (.error err, s)
      | .ok (a, commands) => (.ok a, s.applyAll commands) := by
  have hread' : backend.alone (read (backend.view w s)) s = (image, s) := hread
  refine Eq.trans (backend.alone_attempt hread' hsame) ?_
  cases operation none 15 image <;> rfl

theorem alone_watch {α : Type} (s : Server) (w : Watch)
    (operation : Nat → Image → Except TxError (α × List Command)) :
    backend.alone (watch w operation) s =
      match operation 15 (s.keys.view w) with
      | .error err => (.error err, s)
      | .ok (a, commands) => (.ok a, s.applyAll commands) :=
  alone_watchFrom rfl fun _ _ _ => rfl

theorem alone_watchExecutionFrom {α : Type} (s : Server) (id : UUID)
    (missing : Option α → Except TxError (α × List Command))
    (operation : Option α → Nat → Execution → Except TxError (α × List Command)) :
    backend.alone (watchExecutionFrom id missing operation) s =
      match (match s.keys.executions.records.lookup id with
        | some item => operation none 15 item
        | none => missing none) with
      | .error err => (.error err, s)
      | .ok (a, commands) => (.ok a, s.applyAll commands) := by
  have hread : backend.alone (.done (s.keys.view ⟨[id], [], [], []⟩) : Op Image) s =
      (s.keys.view ⟨[id], [], [], []⟩, s) := rfl
  have hview : (s.keys.view ⟨[id], [], [], []⟩).executions =
      [s.keys.executions.records.lookup id] := rfl
  rw [watchExecutionFrom, alone_watchFrom hread fun _ _ _ => rfl, hview]
  cases s.keys.executions.records.lookup id <;> rfl

theorem alone_watchExecution {α : Type} (s : Server) (id : UUID)
    (missing : Except TxError (α × List Command))
    (operation : Nat → Execution → Except TxError (α × List Command)) :
    backend.alone (watchExecution id missing operation) s =
      match (match s.keys.executions.records.lookup id with
        | some item => operation 15 item
        | none => missing) with
      | .error err => (.error err, s)
      | .ok (a, commands) => (.ok a, s.applyAll commands) :=
  alone_watchExecutionFrom s id _ _

theorem alone_returned {α : Type} (s : Server) (p : Op (Except TxError α)) :
    backend.alone (returned p) s =
      ((backend.alone p s).1.mapError TxError.goError, (backend.alone p s).2) :=
  backend.alone_bind p _ s

theorem alone_getExecution {s : Server} {id : UUID} {item : Execution}
    (hl : s.keys.executions.records.lookup id = some item) :
    backend.alone (getExecution id) s = (.ok item, s) := by
  simp [getExecution, Backend.alone, Backend.execCall, backend, Server.exec, hl]

theorem alone_getPipelineRun {s : Server} {id : UUID} {run : PipelineRun}
    (hl : s.keys.runs.records.lookup id = some run) :
    backend.alone (getPipelineRun id) s = (.ok run, s) := by
  simp [getPipelineRun, Backend.alone, Backend.execCall, backend, Server.exec, hl]

/-! ## Refinement of one call -/

/-- Both calls fail, or both succeed with replies that are the same. -/
def Agree {α : Type} (same : α → α → Prop) : Except GoError α → Except GoError α → Prop
  | .ok a, .ok b => same a b
  | .error _, .error _ => True
  | _, _ => False

/-- A call of the Redis store against a call of the in-memory store: the replies agree, the
keyspace stays represented and stands for the in-memory store, and a failed call changes nothing. -/
structure Refines {α : Type} (same : α → α → Prop) (s : Server) (m : MemoryStore)
    (redis : Except GoError α × Server) (memory : Except GoError α × MemoryStore) : Prop where
  agree : Agree same redis.1 memory.1
  represented : Represented redis.2.keys
  abstracts : Abstracts redis.2.keys memory.2
  failed : ∀ err, redis.1 = .error err → redis.2 = s ∧ memory.2 = m

section Calls

variable {α : Type} {same : α → α → Prop} {s : Server} {m : MemoryStore}

theorem Refines.fail (h : Represented s.keys) (ha : Abstracts s.keys m) (err err' : GoError) :
    Refines same s m (.error err, s) (.error err', m) :=
  ⟨trivial, h, ha, fun _ _ => ⟨rfl, rfl⟩⟩

theorem Refines.success {commands : List Command} {a b : α} {m' : MemoryStore} (hsame : same a b)
    (h : Represented (s.keys.applyAll commands)) (ha : Abstracts (s.keys.applyAll commands) m') :
    Refines same s m (.ok a, s.applyAll commands) (.ok b, m') where
  agree := hsame
  represented := keys_applyAll s commands ▸ h
  abstracts := keys_applyAll s commands ▸ ha
  failed := fun _ herr => nomatch herr

theorem Refines.read {a b : α} (hsame : same a b) (h : Represented s.keys)
    (ha : Abstracts s.keys m) : Refines same s m (.ok a, s) (.ok b, m) :=
  ⟨hsame, h, ha, fun _ herr => nomatch herr⟩

/-- A transaction that decides on the record of one execution. -/
theorem refines_watchExecution (h : Represented s.keys) (ha : Abstracts s.keys m) {id : UUID}
    {operation : Nat → Execution → Except TxError (α × List Command)}
    {call : Execution → Except GoError α × MemoryStore}
    (hitem : ∀ item, s.keys.executions.records.lookup item.id = some item → item.id = id →
      Refines same s m (match operation 15 item with
        | .error err => (.error err.goError, s)
        | .ok (a, commands) => (.ok a, s.applyAll commands)) (call item)) :
    Refines same s m
      (backend.alone (returned (watchExecution id (.error (.store .notFound)) operation)) s)
      (match m.executions.lookup id with
        | none => (.error .notFound, m)
        | some item => call item) := by
  rw [alone_returned, alone_watchExecution, ha.executions]
  cases hl : s.keys.executions.records.lookup id with
  | none => exact Refines.fail h ha _ _
  | some item =>
      have hid : item.id = id := h.executions.keyed id item hl
      have hcall := hitem item (hid.symm ▸ hl) hid
      dsimp only
      cases hbody : operation 15 item with
      | error err =>
          rw [hbody] at hcall
          exact hcall
      | ok decision =>
          rw [hbody] at hcall
          exact hcall

theorem owned_eq (m : MemoryStore) (id token : UUID) :
    Memory.owned m id token = match m.executions.lookup id with
      | none => .error .notFound
      | some item => if ownedBy token item then .ok item else .error .leaseLost := by
  unfold Memory.owned
  cases m.executions.lookup id with
  | none => rfl
  | some item =>
      by_cases howned : ownedBy token item = true
      · have hnot : ¬ (item.status ≠ .running ∨ token = nilUUID ∨ item.leaseToken ≠ token) := by
          simpa [ownedBy, and_assoc] using howned
        simp only [if_neg hnot, if_pos howned]
      · have hlost : item.status ≠ .running ∨ token = nilUUID ∨ item.leaseToken ≠ token := by
          by_contra hnot
          apply howned
          simpa [ownedBy, and_assoc] using hnot
        simp only [if_pos hlost, if_neg howned]

/-- A transaction of the owner of a lease. -/
theorem refines_owned (h : Represented s.keys) (ha : Abstracts s.keys m) {id token : UUID}
    {commands : Execution → List Command} {next : Execution → MemoryStore}
    (hitem : ∀ item, s.keys.executions.records.lookup item.id = some item → item.id = id →
      item.status = .running → Represented (s.keys.applyAll (commands item)) ∧
        Abstracts (s.keys.applyAll (commands item)) (next item)) :
    Refines Eq s m
      (backend.alone (returned (watchExecution id (.error (.store .notFound)) fun _ item =>
        if ownedBy token item then .ok ((), commands item) else .error (.store .leaseLost))) s)
      (match Memory.owned m id token with
        | .error err => (.error err, m)
        | .ok item => (.ok (), next item)) := by
  have hmemory : (match Memory.owned m id token with
      | .error err => ((.error err : Except GoError Unit), m)
      | .ok item => (.ok (), next item)) = match m.executions.lookup id with
        | none => (.error .notFound, m)
        | some item => if ownedBy token item then (.ok (), next item) else (.error .leaseLost, m) := by
    rw [owned_eq]
    cases m.executions.lookup id with
    | none => rfl
    | some item => by_cases howned : ownedBy token item = true <;> simp [howned]
  rw [hmemory]
  apply refines_watchExecution h ha
  intro item hl hid
  by_cases howned : ownedBy token item = true
  · have hrunning : item.status = .running := by
      simp only [ownedBy, Bool.and_eq_true, beq_iff_eq] at howned
      exact howned.1.1
    obtain ⟨hrepresented, habstracts⟩ := hitem item hl hid hrunning
    rw [if_pos howned, if_pos howned]
    exact Refines.success rfl hrepresented habstracts
  · rw [if_neg howned, if_neg howned]
    exact Refines.fail h ha _ _

theorem refines_heartbeat (h : Represented s.keys) (ha : Abstracts s.keys m) (env : Env)
    (id token : UUID) (lease : Duration) :
    Refines Eq s m (backend.alone (heartbeat env id token lease) s)
      (Memory.heartbeat env m id token lease) := by
  apply refines_owned h ha
  intro item hl hid hrunning
  subst hid
  let item' : Execution := { item with leaseUntil := env.now + lease }
  have hsame : SameIdentity item item' := ⟨rfl, rfl, rfl, rfl, rfl, rfl⟩
  exact ⟨represented_heartbeat h hl hsame hrunning hrunning, ha.put (writes_heartbeat s.keys item')⟩

/-- A mutation of the owner of a lease, against the same mutation in memory. -/
theorem refines_transition (h : Represented s.keys) (ha : Abstracts s.keys m) (env : Env)
    (id token : UUID) {mutate : Execution → Mutation}
    (hsame : ∀ item, SameIdentity item (mutate item).item)
    (hqueue : ∀ item, (mutate item).queued = (mutate item).item.status.isActive) :
    Refines Eq s m (backend.alone (transition env id token mutate) s)
      (match Memory.owned m id token with
        | .error err => (.error err, m)
        | .ok item => (.ok (), (m.put (mutate item).item).appendEvent env (mutate item).item
            (mutate item).eventType (mutate item).errorText)) := by
  apply refines_owned h ha
  intro item hl hid _
  constructor
  · exact represented_saveTransition h env hl (hsame item) _ _ (hqueue item)
  · exact ha.save (writes_saveTransition s.keys (mutate item).item env _ _ _ _)

theorem refines_succeed (h : Represented s.keys) (ha : Abstracts s.keys m) (env : Env)
    (id token : UUID) (output : RawMessage) :
    Refines Eq s m (backend.alone (succeed env id token output) s)
      (Memory.succeed env m id token output) :=
  refines_transition h ha env id token (fun _ => ⟨rfl, rfl, rfl, rfl, rfl, rfl⟩) fun _ => rfl

theorem refines_fail (h : Represented s.keys) (ha : Abstracts s.keys m) (env : Env)
    (id token : UUID) (errorText : String) :
    Refines Eq s m (backend.alone (fail env id token errorText) s)
      (Memory.fail env m id token errorText) :=
  refines_transition h ha env id token (fun _ => ⟨rfl, rfl, rfl, rfl, rfl, rfl⟩) fun _ => rfl

theorem refines_retry (h : Represented s.keys) (ha : Abstracts s.keys m) (env : Env)
    (id token : UUID) (errorText : String) (delay : Duration) :
    Refines Eq s m (backend.alone (retry env id token errorText delay) s)
      (Memory.retry env m id token errorText delay) := by
  have hmemory : Memory.retry env m id token errorText delay =
      match Memory.owned m id token with
      | .error err => (.error err, m)
      | .ok item =>
          let mutation := retryMutation env errorText delay item
          (.ok (), (m.put mutation.item).appendEvent env mutation.item mutation.eventType
            mutation.errorText) := by
    unfold Memory.retry
    cases Memory.owned m id token with
    | error err => rfl
    | ok item =>
        by_cases hlast : item.maxAttempts ≤ item.attempt
        · have hmutation : retryMutation env errorText delay item =
              ⟨Memory.exhausted env errorText item, .failed, errorText, false⟩ := if_pos hlast
          simp only [if_pos hlast, hmutation]
        · have hmutation : retryMutation env errorText delay item =
              ⟨Memory.retried env errorText delay item, .retried, errorText, true⟩ := if_neg hlast
          simp only [if_neg hlast, hmutation]
  rw [hmemory]
  apply refines_transition h ha
  · intro item
    unfold retryMutation
    dsimp only
    split <;> exact ⟨rfl, rfl, rfl, rfl, rfl, rfl⟩
  · intro item
    unfold retryMutation
    dsimp only
    split <;> rfl

theorem refines_cancelExecution (h : Represented s.keys) (ha : Abstracts s.keys m) (env : Env)
    (id : UUID) (reason : String) :
    Refines Eq s m (backend.alone (cancelExecution env id reason) s)
      (Memory.cancelExecution env m id reason) := by
  apply refines_watchExecution h ha
  intro item hl _
  by_cases hterminal : item.status.isTerminal = true
  · rw [if_pos hterminal, if_pos hterminal]
    exact Refines.fail h ha _ _
  · rw [if_neg hterminal, if_neg hterminal]
    have hsame : SameIdentity item (Memory.cancelled env reason item) :=
      ⟨rfl, rfl, rfl, rfl, rfl, rfl⟩
    exact Refines.success rfl (represented_saveTransition h env hl hsame _ _ rfl)
      (ha.save (writes_saveTransition s.keys (Memory.cancelled env reason item) env _ _ _ _))

theorem refines_restartExecution (h : Represented s.keys) (ha : Abstracts s.keys m) (env : Env)
    (id : UUID) (availableAt : Time) :
    Refines Eq s m (backend.alone (restartExecution env id availableAt) s)
      (Memory.restartExecution env m id availableAt) := by
  apply refines_watchExecution h ha
  intro item hl hid
  subst hid
  by_cases hactive : item.status.isActive = true
  · rw [if_pos hactive, if_pos hactive]
    by_cases hrun : item.pipelineRunID ≠ none
    · rw [if_pos hrun]
      exact Refines.fail h ha _ _
    · rw [if_neg hrun]
      exact Refines.fail h ha _ _
  · rw [if_neg hactive, if_neg hactive]
    by_cases hrun : item.pipelineRunID ≠ none
    · rw [if_pos hrun, if_pos hrun]
      exact Refines.fail h ha _ _
    · rw [if_neg hrun, if_neg hrun]
      have hsame : SameIdentity item (reset .pending
          (if availableAt = zeroTime then env.now else availableAt) item) :=
        ⟨rfl, rfl, rfl, rfl, rfl, rfl⟩
      have hidle : item.status.isActive = false := Bool.eq_false_iff.mpr hactive
      exact Refines.success rfl (represented_restart h env hl hsame hidle rfl)
        (ha.save (writes_restart s.keys (reset .pending _ item) env item.status))

theorem refines_releaseExecution (h : Represented s.keys) (ha : Abstracts s.keys m) (env : Env)
    (id : UUID) (input : RawMessage) (availableAt : Time) :
    Refines Eq s m (backend.alone (releaseExecution env id input availableAt) s)
      (Memory.releaseExecution env m id input availableAt) := by
  apply refines_watchExecution h ha
  intro item hl hid
  subst hid
  by_cases hblocked : item.status ≠ .blocked
  · rw [if_pos hblocked, if_pos hblocked]
    exact Refines.fail h ha _ _
  · rw [if_neg hblocked, if_neg hblocked]
    have hsame : SameIdentity item (Memory.released env input availableAt item) :=
      ⟨rfl, rfl, rfl, rfl, rfl, rfl⟩
    exact Refines.success rfl (represented_release h hl hsame (not_not.mp hblocked) rfl)
      (ha.put (writes_release s.keys (Memory.released env input availableAt item)))

/-! ## Creation -/

/-- Both stores look for the same references of a new execution, in the same order. -/
theorem existing_eq (ha : Abstracts s.keys m) (env : Env) (request : CreateExecution) :
    Memory.existing m request =
      ((references (newExecution env request)).map s.keys.executions.refs.lookup).findSome? id := by
  have hkey : (newExecution env request).idempotencyKey = request.idempotencyKey := rfl
  have hname : (newExecution env request).taskName = request.taskName := rfl
  have hrun : (newExecution env request).pipelineRunID = request.pipelineRunID := rfl
  have hnode : (newExecution env request).nodeKey = request.nodeKey := rfl
  unfold Memory.existing references
  rw [hkey, hname, hrun, hnode]
  by_cases hempty : request.idempotencyKey = ""
  · cases request.pipelineRunID with
    | none => simp [hempty]
    | some runID => by_cases hnodeEmpty : request.nodeKey = "" <;> simp [hempty, hnodeEmpty, ha.nodes]
  · cases hl : s.keys.executions.refs.lookup
        (.idempotency (idempotencyIndex request.taskName request.idempotencyKey)) with
    | some existing => simp [hempty, ha.idempotent, idempotencyKey, hl]
    | none =>
        cases request.pipelineRunID with
        | none => simp [hempty, ha.idempotent, idempotencyKey, hl]
        | some runID =>
            by_cases hnodeEmpty : request.nodeKey = "" <;>
              simp [hempty, hnodeEmpty, ha.idempotent, ha.nodes, idempotencyKey, hl]

/-- Reading stops at the first reference that is set. -/
theorem alone_getRefs (s : Server) (refs : List RefKey) (values : List (Option UUID)) :
    ∃ image, backend.alone (getRefs refs values) s = (image, s) ∧
      image.refs.findSome? id = (values ++ refs.map s.keys.executions.refs.lookup).findSome? id ∧
      ((refs.map s.keys.executions.refs.lookup).findSome? id = none →
        image = ⟨[], [], values ++ refs.map s.keys.executions.refs.lookup, []⟩) := by
  induction refs generalizing values with
  | nil => exact ⟨⟨[], [], values, []⟩, rfl, by simp, by simp⟩
  | cons key rest ih =>
      cases hl : s.keys.executions.refs.lookup key with
      | some existing =>
          refine ⟨⟨[], [], values ++ [some existing], []⟩, ?_, ?_, ?_⟩
          · simp [getRefs, Backend.alone, Backend.execCall, backend, Server.exec, hl]
          · simp [hl, List.findSome?_append]
          · simp [hl]
      | none =>
          obtain ⟨image, halone, hfirst, hsame⟩ := ih (values ++ [none])
          refine ⟨image, ?_, ?_, ?_⟩
          · simp only [getRefs, Backend.alone, Backend.execCall, backend, Server.exec, hl]
            exact halone
          · rw [hfirst, List.map_cons, hl, ← List.append_cons]
          · intro hnone
            rw [List.map_cons, hl, List.append_cons]
            rw [List.map_cons, hl] at hnone
            exact hsame hnone

/-- A request returns the execution that its first reference leads to, or stores a new one. -/
theorem alone_createExecution (h : Represented s.keys) (ha : Abstracts s.keys m) (env : Env)
    {request : CreateExecution} (hname : request.taskName ≠ "") :
    (∃ id item, Memory.existing m request = some id ∧
      s.keys.executions.records.lookup id = some item ∧
      backend.alone (createExecution env request) s = (.ok item, s)) ∨
    ((∀ ref ∈ references (newExecution env request), s.keys.executions.refs.lookup ref = none) ∧
      Memory.existing m request = none ∧
      backend.alone (createExecution env request) s =
        (.ok (newExecution env request),
          s.applyAll (createCommands env (newExecution env request)))) := by
  obtain ⟨image, hread, hfirst, hsame⟩ :=
    alone_getRefs s (references (newExecution env request)) []
  rw [List.nil_append] at hfirst
  unfold createExecution
  rw [if_neg hname, existing_eq ha env]
  dsimp only
  rw [backend.alone_bind, alone_watchFrom hread, hfirst]
  · cases hfound : ((references (newExecution env request)).map
        s.keys.executions.refs.lookup).findSome? id with
    | some existing =>
        obtain ⟨stored, hmem, hsome⟩ := List.exists_of_findSome?_eq_some hfound
        obtain ⟨ref, -, href⟩ := List.mem_map.mp hmem
        obtain ⟨item, hl, -⟩ := (h.executions.refs ref existing).mp (href.trans hsome)
        exact Or.inl ⟨existing, item, rfl, hl, alone_getExecution hl⟩
    | none =>
        refine Or.inr ⟨?_, rfl, rfl⟩
        intro ref href
        exact List.findSome?_eq_none_iff.mp hfound _ (List.mem_map_of_mem href)
  · -- a round commits only if no reference was found
    intro a commands hok
    split at hok
    · cases hok
    · next hnone => exact (hsame (hfirst.symm.trans hnone)).symm

theorem refines_createExecution (h : Represented s.keys) (ha : Abstracts s.keys m) (env : Env)
    (hnew : s.keys.executions.records.lookup (env.newUUID 0) = none) (request : CreateExecution) :
    Refines Eq s m (backend.alone (createExecution env request) s)
      (Memory.createExecution env m request) := by
  by_cases hname : request.taskName = ""
  · unfold createExecution Memory.createExecution
    rw [if_pos hname, if_pos hname]
    exact Refines.fail h ha _ _
  · rcases alone_createExecution h ha env hname with
      ⟨id, item, hfound, hl, halone⟩ | ⟨hrefs, hfound, halone⟩
    · have hmemory : (m.executions.lookup id).getD Memory.zeroExecution = item := by
        rw [ha.executions, hl, Option.getD_some]
      rw [halone, Memory.createExecution, if_neg hname, hfound]
      dsimp only
      rw [hmemory]
      exact Refines.read rfl h ha
    · rw [halone, Memory.createExecution, if_neg hname, hfound]
      exact Refines.success rfl (represented_create h env hnew rfl hrefs)
        (ha.create env (newExecution env request))

theorem refines_createPipelineRun (h : Represented s.keys) (ha : Abstracts s.keys m) (env : Env)
    (hnew : s.keys.runs.records.lookup (env.newUUID 0) = none) (request : CreatePipelineRun) :
    Refines Eq s m (backend.alone (createPipelineRun env request) s)
      (.ok (Memory.createPipelineRun env m request).1, (Memory.createPipelineRun env m request).2) := by
  have hexisting : Memory.existingRun m request =
      ((runReferences (newRun env request)).map s.keys.runs.refs.lookup).findSome? id := by
    have hkey : (newRun env request).idempotencyKey = request.idempotencyKey := rfl
    have hname : (newRun env request).pipelineName = request.pipelineName := rfl
    unfold Memory.existingRun runReferences
    rw [hkey, hname]
    by_cases hempty : request.idempotencyKey = "" <;>
      simp [hempty, ha.runIdempotent, pipelineIdempotencyKey]
  unfold createPipelineRun Memory.createPipelineRun
  dsimp only
  rw [backend.alone_bind, alone_watch, hexisting]
  have hview : (s.keys.view ⟨[], [], [], runReferences (newRun env request)⟩).runRefs =
      (runReferences (newRun env request)).map s.keys.runs.refs.lookup := rfl
  rw [hview]
  cases hfound : ((runReferences (newRun env request)).map s.keys.runs.refs.lookup).findSome? id with
  | some existing =>
      obtain ⟨stored, hmem, hsome⟩ := List.exists_of_findSome?_eq_some hfound
      obtain ⟨ref, -, href⟩ := List.mem_map.mp hmem
      obtain ⟨run, hl, -⟩ := (h.runs.refs ref existing).mp (href.trans hsome)
      have hmemory : (m.runs.lookup existing).getD Memory.zeroRun = run := by
        rw [ha.runs, hl, Option.getD_some]
      dsimp only
      rw [hmemory, alone_getPipelineRun hl]
      exact Refines.read rfl h ha
  | none =>
      have hrefs : ∀ ref ∈ runReferences (newRun env request),
          s.keys.runs.refs.lookup ref = none := fun ref href =>
        List.findSome?_eq_none_iff.mp hfound _ (List.mem_map_of_mem href)
      exact Refines.success rfl (represented_createRun h hnew hrefs)
        (ha.createRun (newRun env request))

/-! ## Expired leases -/

/-- The executions under the identifiers whose final attempt has expired. -/
def due (now : Time) (m : MemoryStore) (ids : List UUID) : List Execution :=
  ids.filterMap fun id => (m.executions.lookup id).filter (Memory.reapable now)

@[simp] theorem due_nil (now : Time) (m : MemoryStore) : due now m [] = [] := rfl

theorem due_cons (now : Time) (m : MemoryStore) (id : UUID) (rest : List UUID) :
    due now m (id :: rest) =
      ((m.executions.lookup id).filter (Memory.reapable now)).toList ++ due now m rest := by
  unfold due
  rw [List.filterMap_cons]
  cases (m.executions.lookup id).filter (Memory.reapable now) <;> rfl

/-- The removal of a lease entry that no execution on its last attempt needs. -/
theorem refines_removeLease (h : Represented s.keys) (ha : Abstracts s.keys m) {id : UUID}
    (hstale : ∀ item, s.keys.executions.records.lookup id = some item → item.status = .running →
      item.attempt < item.maxAttempts) :
    Represented (s.applyAll (removeLeaseIndex id)).keys ∧
      Abstracts (s.applyAll (removeLeaseIndex id)).keys m := by
  rw [keys_applyAll]
  exact ⟨represented_removeLease h id hstale, ha.removeLease id⟩

/-- One candidate of `ReapExpired` is failed in both stores, or in neither. -/
theorem alone_reapCandidate (h : Represented s.keys) (ha : Abstracts s.keys m) (env : Env)
    (id : UUID) : ∃ s', backend.alone (reapCandidate env id) s =
        (.ok (((m.executions.lookup id).filter (Memory.reapable env.now)).bind (·.pipelineRunID)), s') ∧
      Represented s'.keys ∧ Abstracts s'.keys (Memory.saveAll env .failed (·.lastError) m
        ((due env.now m [id]).map (Memory.reaped env))) := by
  have hleft : (m.executions.lookup id).filter (Memory.reapable env.now) = none →
      Memory.saveAll env .failed (·.lastError) m ((due env.now m [id]).map (Memory.reaped env)) = m := by
    intro hnone
    simp [due_cons, hnone, Memory.saveAll]
  unfold reapCandidate
  rw [backend.alone_bind, alone_watchExecutionFrom]
  cases hl : s.keys.executions.records.lookup id with
  | none =>
      have hmissing : m.executions.lookup id = none := (ha.executions id).trans hl
      rw [hleft (by simp [hmissing]), hmissing]
      exact ⟨_, rfl, refines_removeLease h ha (by simp [hl])⟩
  | some item =>
      have hstored : m.executions.lookup id = some item := (ha.executions id).trans hl
      obtain rfl : item.id = id := h.executions.keyed id item hl
      by_cases hreap : Memory.reapable env.now item = true
      · obtain ⟨hrunning, hexpired, hlast⟩ := Memory.reapable_iff.mp hreap
        have hdue : due env.now m [item.id] = [item] := by
          simp [due_cons, hstored, Option.filter_some, hreap]
        have hsame : SameIdentity item (Memory.reaped env item) := ⟨rfl, rfl, rfl, rfl, rfl, rfl⟩
        rw [hdue, hstored, Option.filter_some, if_pos hreap]
        dsimp only
        rw [if_neg (not_not.mpr hrunning), if_neg (not_lt.mpr hexpired), if_neg (not_lt.mpr hlast)]
        refine ⟨s.applyAll (saveTransition env (Memory.reaped env item) item.status .failed
          (Memory.reaped env item).lastError false), rfl, ?_, ?_⟩ <;> rw [keys_applyAll]
        · exact represented_saveTransition h env hl hsame _ _ rfl
        · exact ha.save (writes_saveTransition s.keys (Memory.reaped env item) env _ _ _ _)
      · rw [hleft (by simp [hstored, hreap]), hstored, Option.filter_some, if_neg hreap]
        dsimp only
        by_cases hrunning : item.status = .running
        · rw [if_neg (not_not.mpr hrunning)]
          by_cases hheld : env.now < item.leaseUntil
          · rw [if_pos hheld]
            exact ⟨s, rfl, h, ha⟩
          · have hattempts : item.attempt < item.maxAttempts := by
              by_contra hlast
              exact hreap (Memory.reapable_iff.mpr ⟨hrunning, not_lt.mp hheld, not_lt.mp hlast⟩)
            rw [if_neg hheld, if_pos hattempts]
            exact ⟨_, rfl, refines_removeLease h ha (by simp [hl, hattempts])⟩
        · rw [if_pos hrunning]
          exact ⟨_, rfl, refines_removeLease h ha (by simp [hl, hrunning])⟩

theorem mem_due {now : Time} {ids : List UUID} {item : Execution} :
    item ∈ due now m ids ↔ m.executions.lookup item.id = some item ∧ item.id ∈ ids ∧
      Memory.reapable now item = true := by
  simp only [due, List.mem_filterMap, Option.filter_eq_some_iff]
  constructor
  · rintro ⟨id, hid, hl, hreap⟩
    obtain rfl := m.executions_keyed id item hl
    exact ⟨hl, hid, hreap⟩
  · rintro ⟨hl, hid, hreap⟩
    exact ⟨item.id, hid, hl, hreap⟩

theorem due_ids (now : Time) (m : MemoryStore) (ids : List UUID) :
    ((due now m ids).map (·.id)).Sublist ids := by
  induction ids with
  | nil => exact List.Sublist.refl []
  | cons id rest ih =>
      rw [due_cons]
      cases hfound : (m.executions.lookup id).filter (Memory.reapable now) with
      | none => exact ih.cons id
      | some item =>
          obtain ⟨hl, -⟩ := Option.filter_eq_some_iff.mp hfound
          rw [Option.toList_some, List.cons_append, List.nil_append, List.map_cons,
            m.executions_keyed id item hl]
          exact ih.cons_cons id

/-- Failing one execution leaves the other candidates as they are. -/
theorem due_saveAll {env : Env} {id : UUID} {ids : List UUID} (hid : id ∉ ids) :
    due env.now (Memory.saveAll env .failed (·.lastError) m
      ((due env.now m [id]).map (Memory.reaped env))) ids = due env.now m ids := by
  apply List.filterMap_congr
  intro id' hid'
  have hother : id' ∉ ((due env.now m [id]).map (Memory.reaped env)).map (·.id) := by
    rw [List.map_map]
    intro hmem
    have hsub := (due_ids env.now m [id]).subset hmem
    rw [List.mem_singleton.mp hsub] at hid'
    exact hid hid'
  rw [(Memory.saveAll_other env .failed (·.lastError) m _ id' hother).1]

/-- The loop of `ReapExpired`. -/
theorem alone_reapLoop (h : Represented s.keys) (ha : Abstracts s.keys m) (env : Env)
    {ids : List UUID} (hids : ids.Nodup) (runs : List UUID) :
    ∃ runs' s', backend.alone (reapLoop env ids runs) s = (.ok runs', s') ∧
      (∀ id, id ∈ runs' ↔ id ∈ runs ∨ ∃ item ∈ due env.now m ids, item.pipelineRunID = some id) ∧
      Represented s'.keys ∧ Abstracts s'.keys (Memory.saveAll env .failed (·.lastError) m
        ((due env.now m ids).map (Memory.reaped env))) := by
  induction ids generalizing s m runs with
  | nil => exact ⟨runs, s, rfl, by simp, h, ha⟩
  | cons id rest ih =>
      obtain ⟨hnew, hrest⟩ := List.nodup_cons.mp hids
      obtain ⟨s', hstep, h', ha'⟩ := alone_reapCandidate h ha env id
      have hsaved : Memory.saveAll env .failed (·.lastError) m
          ((due env.now m (id :: rest)).map (Memory.reaped env)) =
          Memory.saveAll env .failed (·.lastError) (Memory.saveAll env .failed (·.lastError) m
            ((due env.now m [id]).map (Memory.reaped env)))
            ((due env.now m rest).map (Memory.reaped env)) := by
        simp [due_cons, Memory.saveAll, List.foldl_append]
      rw [reapLoop, backend.alone_bind, hstep, hsaved, due_cons]
      cases hfound : (m.executions.lookup id).filter (Memory.reapable env.now) with
      | none =>
          obtain ⟨runs', s'', hloop, hruns, hfinal⟩ := ih h' ha' hrest runs
          rw [due_saveAll hnew] at hruns hfinal
          exact ⟨runs', s'', hloop, by simpa using hruns, hfinal⟩
      | some item =>
          cases hrun : item.pipelineRunID with
          | none =>
              obtain ⟨runs', s'', hloop, hruns, hfinal⟩ := ih h' ha' hrest runs
              rw [due_saveAll hnew] at hruns hfinal
              refine ⟨runs', s'', ?_, by simpa [hrun] using hruns, hfinal⟩
              rw [Option.bind_some, hrun]
              exact hloop
          | some runID =>
              obtain ⟨runs', s'', hloop, hruns, hfinal⟩ := ih h' ha' hrest (runs.insert runID)
              rw [due_saveAll hnew] at hruns hfinal
              refine ⟨runs', s'', ?_, ?_, hfinal⟩
              · rw [Option.bind_some, hrun]
                exact hloop
              · intro id'
                rw [hruns id', List.mem_insert_iff]
                simp [hrun, eq_comm, or_assoc, or_left_comm]

/-- The lease index finds every execution whose final attempt has expired. -/
theorem mem_due_leases (h : Represented s.keys) (ha : Abstracts s.keys m) (env : Env) (i : Nat)
    (item : Execution) :
    item ∈ due env.now m (s.keys.zRangeByScore leasesKey (score env.now) none) ↔
      item ∈ (m.items env i).filter (Memory.reapable env.now) := by
  rw [mem_due, List.mem_filter, Memory.mem_items]
  constructor
  · rintro ⟨hl, -, hreap⟩
    exact ⟨hl, hreap⟩
  · rintro ⟨hl, hreap⟩
    obtain ⟨hrunning, hexpired, hlast⟩ := Memory.reapable_iff.mp hreap
    have hstored : s.keys.executions.records.lookup item.id = some item :=
      (ha.executions item.id).symm.trans hl
    have hlease := (h.leases item.id).final item hstored hrunning hlast
    exact ⟨hl, mem_zRangeByScore.mpr ⟨_, hlease, score_le hexpired⟩, hreap⟩

theorem refines_reapExpired (h : Represented s.keys) (ha : Abstracts s.keys m) (env : Env) :
    Refines (fun a b => ∀ id, id ∈ a ↔ id ∈ b) s m (backend.alone (reapExpired env) s)
      (.ok (Memory.reapExpired env m).1, (Memory.reapExpired env m).2) := by
  have hids := zRangeByScore_nodup s.keys leasesKey (score env.now)
  obtain ⟨runs, s', hloop, hruns, h', ha'⟩ := alone_reapLoop h ha env hids []
  have hredis : backend.alone (reapExpired env) s = (.ok runs, s') := hloop
  rw [hredis]
  have hdue := mem_due_leases h ha env 0
  refine ⟨?_, h', ?_, fun _ herr => nomatch herr⟩
  · intro id
    rw [hruns id, Memory.reapExpired, List.mem_dedup, List.mem_filterMap]
    simp only [List.not_mem_nil, false_or, hdue]
  · apply ha'.saveAll_congr
    · rw [List.map_map]
      exact hids.sublist (due_ids env.now m _)
    · rw [List.map_map]
      exact (Memory.items_ids_nodup m env 0).sublist (List.filter_sublist.map _)
    · intro item
      simp only [List.mem_map, hdue]

/-! ## Restart of a subgraph -/

theorem alone_lookupNodes (s : Server) (runID : UUID) (keys : List String) :
    backend.alone (lookupNodes runID keys) s =
      (keys.filterMap fun key => s.keys.executions.refs.lookup (nodeKey runID key), s) := by
  induction keys with
  | nil => rfl
  | cons key rest ih =>
      have hcall : ∀ next : Option UUID → Op (List UUID),
          backend.alone (.call (.other (.getRef (nodeKey runID key))) next) s =
            backend.alone (next (s.keys.executions.refs.lookup (nodeKey runID key))) s :=
        fun _ => rfl
      rw [lookupNodes, hcall, backend.alone_bind, ih, List.filterMap_cons]
      cases s.keys.executions.refs.lookup (nodeKey runID key) <;> rfl

/-- The executions that node keys lead to. -/
def nodesOf (s : Keyspace) (runID : UUID) (keys : List String) : List Execution :=
  keys.filterMap fun key =>
    (s.executions.refs.lookup (nodeKey runID key)).bind fun id => s.executions.records.lookup id

theorem lookup_nodesOf (h : Represented s.keys) (runID : UUID) (keys : List String) :
    (keys.filterMap fun key => s.keys.executions.refs.lookup (nodeKey runID key)).map
      s.keys.executions.records.lookup = (nodesOf s.keys runID keys).map some := by
  induction keys with
  | nil => rfl
  | cons key rest ih =>
      unfold nodesOf at ih ⊢
      rw [List.filterMap_cons, List.filterMap_cons]
      cases href : s.keys.executions.refs.lookup (nodeKey runID key) with
      | none => exact ih
      | some id =>
          obtain ⟨item, hl, -⟩ := (h.executions.refs (nodeKey runID key) id).mp href
          rw [Option.bind_some, hl]
          simp only [List.map_cons, hl, ih]

theorem mem_nodesOf (h : Represented s.keys) {runID : UUID} {keys : List String}
    {item : Execution} : item ∈ nodesOf s.keys runID keys ↔
      s.keys.executions.records.lookup item.id = some item ∧ item.pipelineRunID = some runID ∧
        item.nodeKey ∈ keys ∧ item.nodeKey ≠ "" := by
  simp only [nodesOf, List.mem_filterMap, Option.bind_eq_some_iff]
  constructor
  · rintro ⟨key, hkey, id, href, hl⟩
    obtain ⟨stored, hstored, hmem⟩ := (h.executions.refs (nodeKey runID key) id).mp href
    cases hl.symm.trans hstored
    obtain rfl : item.id = id := h.executions.keyed id item hl
    obtain ⟨hrun, hnode, hne⟩ := mem_references_node.mp hmem
    exact ⟨hl, hrun, hnode ▸ hkey, hnode ▸ hne⟩
  · rintro ⟨hl, hrun, hkey, hne⟩
    have hmem : RefKey.node runID item.nodeKey ∈ executionSchema.refs item :=
      mem_references_node.mpr ⟨hrun, rfl, hne⟩
    exact ⟨item.nodeKey, hkey, item.id, (h.executions.refs _ _).mpr ⟨item, hl, hmem⟩, hl⟩

theorem nodesOf_nodeKeys (h : Represented s.keys) (runID : UUID) (keys : List String) :
    ((nodesOf s.keys runID keys).map (·.nodeKey)).Sublist keys := by
  induction keys with
  | nil => exact List.Sublist.refl []
  | cons key rest ih =>
      unfold nodesOf at ih ⊢
      rw [List.filterMap_cons]
      cases href : s.keys.executions.refs.lookup (nodeKey runID key) with
      | none => exact ih.cons key
      | some id =>
          obtain ⟨item, hl, hmem⟩ := (h.executions.refs (nodeKey runID key) id).mp href
          rw [Option.bind_some, hl]
          rw [← (mem_references_node.mp hmem).2.1]
          exact ih.cons_cons _

/-- Both stores restart the same executions. -/
theorem mem_affected (h : Represented s.keys) (ha : Abstracts s.keys m) {request : RestartSubgraph}
    (hnonempty : "" ∉ request.rootNodeKey :: request.descendantKeys) (env : Env) (i : Nat)
    (item : Execution) : item ∈ (m.items env i).filter (Memory.affected request) ↔
      item ∈ nodesOf s.keys request.runID (request.rootNodeKey :: request.descendantKeys) := by
  rw [mem_nodesOf h, List.mem_filter, Memory.mem_items, ha.executions]
  have haffected : Memory.affected request item = true ↔ item.pipelineRunID = some request.runID ∧
      item.nodeKey ∈ request.rootNodeKey :: request.descendantKeys := by
    simp [Memory.affected]
  rw [haffected]
  constructor
  · rintro ⟨hl, hrun, hkey⟩
    exact ⟨hl, hrun, hkey, fun hempty => hnonempty (hempty ▸ hkey)⟩
  · rintro ⟨hl, hrun, hkey, -⟩
    exact ⟨hl, hrun, hkey⟩

theorem loadItems_some (items : List Execution) :
    loadItems (items.map some) =
      if items.any (·.status.isActive) then .error (.store .active) else .ok items := by
  induction items with
  | nil => rfl
  | cons item rest ih =>
      rw [List.map_cons, loadItems, ih, List.any_cons]
      by_cases hactive : item.status.isActive = true
      · simp [hactive]
      · by_cases hrest : rest.any (·.status.isActive) = true <;> simp [hactive, hrest]

/-- The last of the values that satisfy a test, if there is only one. -/
theorem getLast?_filter_eq_some {p : Execution → Bool} {items : List Execution}
    (hunique : ∀ a ∈ items, ∀ b ∈ items, p a = true → p b = true → a = b) {item : Execution} :
    (items.filter p).getLast? = some item ↔ item ∈ items ∧ p item = true := by
  constructor
  · intro hlast
    exact List.mem_filter.mp (List.mem_of_getLast? hlast)
  · rintro ⟨hmem, hp⟩
    cases hlast : (items.filter p).getLast? with
    | none =>
        have hempty := List.getLast?_eq_none_iff.mp hlast
        exact absurd (List.mem_filter.mpr ⟨hmem, hp⟩) (by simp [hempty])
    | some other =>
        obtain ⟨hother, hpother⟩ := List.mem_filter.mp (List.mem_of_getLast? hlast)
        rw [hunique other hother item hmem hpother hp]

/-- Both stores find the same root. -/
theorem root_eq (h : Represented s.keys) (ha : Abstracts s.keys m) {request : RestartSubgraph}
    (hnonempty : "" ∉ request.rootNodeKey :: request.descendantKeys) (env : Env) (i : Nat) :
    (((m.items env i).filter (Memory.affected request)).filter
      (·.nodeKey == request.rootNodeKey)).getLast? =
    ((nodesOf s.keys request.runID (request.rootNodeKey :: request.descendantKeys)).filter
      (·.nodeKey == request.rootNodeKey)).getLast? := by
  have hunique : ∀ a ∈ nodesOf s.keys request.runID
      (request.rootNodeKey :: request.descendantKeys), ∀ b ∈ nodesOf s.keys request.runID
      (request.rootNodeKey :: request.descendantKeys), (a.nodeKey == request.rootNodeKey) = true →
        (b.nodeKey == request.rootNodeKey) = true → a = b := by
    intro a ha b hb hroot hroot'
    obtain ⟨hl, hrun, -, hne⟩ := (mem_nodesOf h).mp ha
    obtain ⟨hl', hrun', -, -⟩ := (mem_nodesOf h).mp hb
    have hkey : b.nodeKey = a.nodeKey := (beq_iff_eq.mp hroot').trans (beq_iff_eq.mp hroot).symm
    have href : RefKey.node request.runID a.nodeKey ∈ executionSchema.refs a :=
      mem_references_node.mpr ⟨hrun, rfl, hne⟩
    have href' : RefKey.node request.runID a.nodeKey ∈ executionSchema.refs b :=
      mem_references_node.mpr ⟨hrun', hkey, hne⟩
    rw [h.executions.refs_unique hl' hl href' href, hl] at hl'
    exact Option.some.inj hl'
  have hmem := mem_affected h ha hnonempty env i
  apply Option.ext
  intro item
  rw [getLast?_filter_eq_some hunique, getLast?_filter_eq_some, hmem]
  intro a ha b hb
  exact hunique a ((hmem a).mp ha) b ((hmem b).mp hb)

/-- Every represented keyspace is the content of a server in its invariant. -/
theorem exists_invariant {keys : Keyspace} (h : Represented keys) :
    ∃ t : Server, t.keys = keys ∧ Invariant t := by
  refine ⟨⟨keys, keys.executions.records.keys ++ keys.runs.records.keys⟩, rfl, h, ?_⟩
  constructor
  · intro id item hl
    exact List.mem_append_left _ (AList.lookup_isSome.mp (by simp [hl]))
  · intro id run hl
    exact List.mem_append_right _ (AList.lookup_isSome.mp (by simp [hl]))

theorem any_affected (h : Represented s.keys) (ha : Abstracts s.keys m) {request : RestartSubgraph}
    (hnonempty : "" ∉ request.rootNodeKey :: request.descendantKeys) (env : Env) (i : Nat) :
    ((m.items env i).filter (Memory.affected request)).any (·.status.isActive) =
      (nodesOf s.keys request.runID (request.rootNodeKey :: request.descendantKeys)).any
        (·.status.isActive) := by
  rw [Bool.eq_iff_iff, List.any_eq_true, List.any_eq_true]
  simp only [mem_affected h ha hnonempty env i]

/-- The block of a restarted subgraph does what the loops of the in-memory store do. -/
theorem subgraph_block (h : Represented s.keys) (ha : Abstracts s.keys m) (env : Env)
    {request : RestartSubgraph} (hdistinct : (request.rootNodeKey :: request.descendantKeys).Nodup)
    (hnonempty : "" ∉ request.rootNodeKey :: request.descendantKeys) (run : PipelineRun)
    (hrun : s.keys.runs.records.lookup request.runID = some run) :
    Represented (s.keys.applyAll ((nodesOf s.keys request.runID
        (request.rootNodeKey :: request.descendantKeys)).flatMap (subgraphCommands env request) ++
          moveRun run.id (reopenedRun env run) run.status)) ∧
      Abstracts (s.keys.applyAll ((nodesOf s.keys request.runID
        (request.rootNodeKey :: request.descendantKeys)).flatMap (subgraphCommands env request) ++
          moveRun run.id (reopenedRun env run) run.status))
        ((Memory.saveAll env .restarted (fun _ => "") m
          (((m.items env 1).filter (Memory.affected request)).map
            (Memory.subgraphReset env request))).putRun (Memory.reopened env run)) := by
  have hmem := mem_affected h ha hnonempty env 1
  have hnodeKeys := nodesOf_nodeKeys h request.runID (request.rootNodeKey :: request.descendantKeys)
  have hstored : ∀ item ∈ nodesOf s.keys request.runID
      (request.rootNodeKey :: request.descendantKeys),
      s.keys.executions.records.lookup item.id = some item :=
    fun item hitem => ((mem_nodesOf h).mp hitem).1
  generalize nodesOf s.keys request.runID (request.rootNodeKey :: request.descendantKeys) = items
    at hmem hnodeKeys hstored
  have hpairwise := distinct_of_nodeKeys hstored (hdistinct.sublist hnodeKeys)
  have hid : run.id = request.runID := h.runs.keyed _ run hrun
  constructor
  · obtain ⟨t, hkeys, ht⟩ := exists_invariant h
    rw [← hkeys] at hstored hrun ⊢
    have hkept := kept_restartSubgraph ht env request hstored hpairwise (hid.symm ▸ hrun)
    rw [← keys_applyAll]
    exact hkept.invariant.represented
  · have hnodes : Abstracts (s.keys.applyAll (items.flatMap (subgraphCommands env request)))
        (Memory.saveAll env .restarted (fun _ => "") m
          (((m.items env 1).filter (Memory.affected request)).map
            (Memory.subgraphReset env request))) := by
      apply (ha.subgraph request items).saveAll_congr
      · rw [List.map_map]
        exact List.pairwise_map.mpr hpairwise
      · rw [List.map_map]
        exact (Memory.items_ids_nodup m env 1).sublist (List.filter_sublist.map _)
      · intro item
        simp only [List.mem_map, hmem]
        rfl
    have happend : s.keys.applyAll (items.flatMap (subgraphCommands env request) ++
        moveRun run.id (reopenedRun env run) run.status) =
        (s.keys.applyAll (items.flatMap (subgraphCommands env request))).applyAll
          (moveRun run.id (reopenedRun env run) run.status) := List.foldl_append
    have hreopened : (reopenedRun env run).id = run.id := rfl
    rw [happend]
    exact hnodes.moveRun hreopened run.status

theorem refines_restartPipelineSubgraph (h : Represented s.keys) (ha : Abstracts s.keys m)
    (env : Env) {request : RestartSubgraph}
    (hdistinct : (request.rootNodeKey :: request.descendantKeys).Nodup)
    (hnonempty : "" ∉ request.rootNodeKey :: request.descendantKeys) :
    Refines Eq s m (backend.alone (restartPipelineSubgraph env request) s)
      (Memory.restartPipelineSubgraph env m request) := by
  have hview : s.keys.view ⟨(request.rootNodeKey :: request.descendantKeys).filterMap fun key =>
      s.keys.executions.refs.lookup (nodeKey request.runID key), [request.runID], [], []⟩ =
      ⟨(nodesOf s.keys request.runID (request.rootNodeKey :: request.descendantKeys)).map some,
        [s.keys.runs.records.lookup request.runID], [], []⟩ := by
    rw [Keyspace.view, lookup_nodesOf h]
    rfl
  have hactive := any_affected h ha hnonempty env 0
  have hroot := root_eq h ha hnonempty env 0
  have hblock := subgraph_block h ha env hdistinct hnonempty
  unfold restartPipelineSubgraph
  rw [backend.alone_bind, alone_lookupNodes]
  dsimp only
  rw [alone_returned, alone_watch, hview]
  unfold restartTransaction Memory.restartPipelineSubgraph Memory.subgraphRoot
  rw [ha.runs, hroot, hactive]
  dsimp only
  rw [loadItems_some]
  generalize nodesOf s.keys request.runID (request.rootNodeKey :: request.descendantKeys) = items
    at hblock
  cases hrun : s.keys.runs.records.lookup request.runID with
  | none => exact Refines.fail h ha _ _
  | some run =>
      dsimp only
      by_cases hany : items.any (·.status.isActive) = true
      · rw [if_pos hany, if_pos hany]
        exact Refines.fail h ha _ _
      · rw [if_neg hany, if_neg hany]
        have hfilter : ((items.map (subgraphItem env request)).filter
            (·.nodeKey == request.rootNodeKey)).getLast? =
            ((items.filter (·.nodeKey == request.rootNodeKey)).getLast?).map
              (subgraphItem env request) := by
          rw [List.filter_map, List.getLast?_map]
          rfl
        dsimp only
        rw [hfilter]
        cases (items.filter (·.nodeKey == request.rootNodeKey)).getLast? with
        | none => exact Refines.fail h ha _ _
        | some root =>
            obtain ⟨hrepresented, habstracts⟩ := hblock run hrun
            exact Refines.success rfl hrepresented habstracts

end Calls

/-! ## Refinement of every call -/

/-- The calls that both stores answer alike. -/
inductive Request where
  | createExecution (request : CreateExecution)
  | heartbeat (id token : UUID) (lease : Duration)
  | succeed (id token : UUID) (output : RawMessage)
  | retry (id token : UUID) (errorText : String) (delay : Duration)
  | fail (id token : UUID) (errorText : String)
  | reapExpired
  | cancelExecution (id : UUID) (reason : String)
  | restartExecution (id : UUID) (availableAt : Time)
  | restartPipelineSubgraph (request : RestartSubgraph)
      (distinct : (request.rootNodeKey :: request.descendantKeys).Nodup)
      (nonempty : "" ∉ request.rootNodeKey :: request.descendantKeys)
  | releaseExecution (id : UUID) (input : RawMessage) (availableAt : Time)
  | createPipelineRun (request : CreatePipelineRun)

/-- What a call returns besides an error. -/
@[reducible] def Request.Result : Request → Type
  | .createExecution _ => Execution
  | .reapExpired => List UUID
  | .restartExecution _ _ => Execution
  | .restartPipelineSubgraph _ _ _ => Execution
  | .createPipelineRun _ => PipelineRun
  | _ => Unit

/-- The run identifiers of `ReapExpired` are a set; other results are compared as they are. -/
def Request.Same : (r : Request) → r.Result → r.Result → Prop
  | .createExecution _ => Eq
  | .heartbeat _ _ _ => Eq
  | .succeed _ _ _ => Eq
  | .retry _ _ _ _ => Eq
  | .fail _ _ _ => Eq
  | .reapExpired => fun a b => ∀ id, id ∈ a ↔ id ∈ b
  | .cancelExecution _ _ => Eq
  | .restartExecution _ _ => Eq
  | .restartPipelineSubgraph _ _ _ => Eq
  | .releaseExecution _ _ _ => Eq
  | .createPipelineRun _ => Eq

/-- The call on the Redis store. -/
def Request.onRedis (env : Env) : (r : Request) → Op (Except GoError r.Result)
  | .createExecution request => Redis.createExecution env request
  | .heartbeat id token lease => Redis.heartbeat env id token lease
  | .succeed id token output => Redis.succeed env id token output
  | .retry id token errorText delay => Redis.retry env id token errorText delay
  | .fail id token errorText => Redis.fail env id token errorText
  | .reapExpired => Redis.reapExpired env
  | .cancelExecution id reason => Redis.cancelExecution env id reason
  | .restartExecution id availableAt => Redis.restartExecution env id availableAt
  | .restartPipelineSubgraph request _ _ => Redis.restartPipelineSubgraph env request
  | .releaseExecution id input availableAt => Redis.releaseExecution env id input availableAt
  | .createPipelineRun request => Redis.createPipelineRun env request

/-- The call on the in-memory store. Two methods have no error to return. -/
def Request.onMemory (env : Env) (m : MemoryStore) :
    (r : Request) → Except GoError r.Result × MemoryStore
  | .createExecution request => Memory.createExecution env m request
  | .heartbeat id token lease => Memory.heartbeat env m id token lease
  | .succeed id token output => Memory.succeed env m id token output
  | .retry id token errorText delay => Memory.retry env m id token errorText delay
  | .fail id token errorText => Memory.fail env m id token errorText
  | .reapExpired => ((Memory.reapExpired env m).map .ok id)
  | .cancelExecution id reason => Memory.cancelExecution env m id reason
  | .restartExecution id availableAt => Memory.restartExecution env m id availableAt
  | .restartPipelineSubgraph request _ _ => Memory.restartPipelineSubgraph env m request
  | .releaseExecution id input availableAt => Memory.releaseExecution env m id input availableAt
  | .createPipelineRun request => ((Memory.createPipelineRun env m request).map .ok id)

/-- The Redis store refines the in-memory store. -/
theorem redis_refines_memory (s : Server) (h : Represented s.keys) (env : Env)
    (hnew : s.keys.executions.records.lookup (env.newUUID 0) = none)
    (hnewRun : s.keys.runs.records.lookup (env.newUUID 0) = none) (request : Request) :
    Refines request.Same s (abstraction s.keys h) (backend.alone (request.onRedis env) s)
      (request.onMemory env (abstraction s.keys h)) := by
  have ha := abstracts_abstraction h
  cases request with
  | createExecution request => exact refines_createExecution h ha env hnew request
  | heartbeat id token lease => exact refines_heartbeat h ha env id token lease
  | succeed id token output => exact refines_succeed h ha env id token output
  | retry id token errorText delay => exact refines_retry h ha env id token errorText delay
  | fail id token errorText => exact refines_fail h ha env id token errorText
  | reapExpired => exact refines_reapExpired h ha env
  | cancelExecution id reason => exact refines_cancelExecution h ha env id reason
  | restartExecution id availableAt => exact refines_restartExecution h ha env id availableAt
  | restartPipelineSubgraph request distinct nonempty =>
      exact refines_restartPipelineSubgraph h ha env distinct nonempty
  | releaseExecution id input availableAt =>
      exact refines_releaseExecution h ha env id input availableAt
  | createPipelineRun request => exact refines_createPipelineRun h ha env hnewRun request

/-- An execution as `CreateExecution` stores it. -/
def pendingItem : Execution := newExecution (Env.at 5 0) standaloneRequest

/-- The same execution as a worker holds it. -/
def heldItem : Execution := Memory.claimed (Env.at 6 1) "a" 10 17 pendingItem

/-- A server on which a worker holds the only execution. -/
def heldServer : Server where
  keys := (Keyspace.empty.applyAll (createCommands (Env.at 5 0) pendingItem)).applyAll
    (saveTransition (Env.at 6 1) heldItem .pending .started "" true)
  used := [1]

theorem heldServer_represented : Represented heldServer.keys := by
  have hcreated : Represented (Keyspace.empty.applyAll (createCommands (Env.at 5 0) pendingItem)) :=
    represented_create Represented.empty (Env.at 5 0) rfl rfl fun _ _ => rfl
  have hsame : SameIdentity pendingItem heldItem := ⟨rfl, rfl, rfl, rfl, rfl, rfl⟩
  exact represented_saveTransition hcreated (Env.at 6 1) rfl hsame .started "" rfl

theorem redis_refines_memory_of_held :
    Refines Eq heldServer (abstraction heldServer.keys heldServer_represented)
      (backend.alone (succeed (Env.at 7 20) 1 17 "2") heldServer)
      (Memory.succeed (Env.at 7 20) (abstraction heldServer.keys heldServer_represented) 1 17 "2") ∧
    (backend.alone (succeed (Env.at 7 20) 1 17 "2") heldServer).1 = .ok () :=
  ⟨redis_refines_memory heldServer heldServer_represented (Env.at 7 20) rfl rfl (.succeed 1 17 "2"),
    rfl⟩

end Ody.Redis
