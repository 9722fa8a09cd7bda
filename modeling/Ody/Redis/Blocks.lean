import Ody.Execution.Lifecycle
import Ody.Redis.Abstraction
import Ody.Redis.Claims
import Ody.Redis.Concurrency

/-!
# The blocks of the Redis store

Every block that a client commits on one record is one of a few: it creates the
record, it moves it as the in-memory store would and says so in the event list, or
it repairs an index. `Block` says what the block finds in the keyspace in which it
takes effect, so that an invariant of runs that speaks about records, references
and events is checked once for each kind of block. It also says which requests for
executions and which statuses of runs a client commits. The block of a restarted
subgraph writes several records and is not among them.
-/

namespace Ody.Redis

open Library.Tables Library.DerivedIndexes Library.Interleaving Library.Optimistic
open Memory (Env)

/-- The blocks of a transaction that watches `w`, in the keyspace in which they take effect. A
resolved execution of a run is not moved. -/
inductive Block (Creates : CreateExecution → Prop) (Sets : PipelineRun → RunStatus → Prop) (w : Watch)
    (s : Keyspace) : List Command → Prop
  | create {env : Env} {request : CreateExecution} (hcreates : Creates request)
      (hw : w.executions = [])
      (hfree : ∀ ref ∈ references (newExecution env request), s.executions.refs.lookup ref = none) :
      Block Creates Sets w s (createCommands env (newExecution env request))
  | move {item item' : Execution} {entry : Option Event} {commands : List Command}
      (hl : s.executions.records.lookup item.id = some item)
      (hopen : item.status.isTerminal = true → item.pipelineRunID = none)
      (hmoves : Memory.Moves item item' entry.toList)
      (hwrites : Writes s (s.applyAll commands) item' entry) : Block Creates Sets w s commands
  | unindex (id : UUID) : Block Creates Sets w s (removeLeaseIndex id)
  | createRun {env : Env} {request : CreatePipelineRun} (hw : w.runs = [])
      (hfree : ∀ ref ∈ runReferences (newRun env request), s.runs.refs.lookup ref = none) :
      Block Creates Sets w s (createRunCommands (newRun env request))
  | status {env : Env} {run : PipelineRun} {status : RunStatus} {errorText : String}
      (hsets : Sets run status) (hl : s.runs.records.lookup run.id = some run) :
      Block Creates Sets w s (moveRun run.id (runWithStatus env status errorText run) run.status)

/-- Only the sorted sets may differ. -/
structure Unindexed (s s' : Keyspace) : Prop where
  records : s'.executions.records = s.executions.records
  refs : s'.executions.refs = s.executions.refs
  runs : s'.runs = s.runs
  events : s'.events = s.events

/-- A call that changes records, references and events only by a block. -/
def BlockCall (Creates : CreateExecution → Prop) (Sets : PipelineRun → RunStatus → Prop) :
    TxCall Watch Image Command Query → Prop
  | .other c => ∀ s : Server, Unindexed s.keys (s.exec c).2.keys
  | .watch _ => True
  | .commit w image commands => ∀ s : Keyspace, Represented s → s.view w = image →
      Block Creates Sets w s commands

/-- A call that changes records, references and events only by a block, whatever it creates. -/
abbrev AnyBlockCall : TxCall Watch Image Command Query → Prop :=
  BlockCall (fun _ => True) fun _ _ => True

/-! ## Every operation commits blocks -/

/-- An execution that is not resolved may be moved. -/
theorem movable {item : Execution} (h : item.status.isTerminal = false) :
    item.status.isTerminal = true → item.pipelineRunID = none := by
  intro hterminal
  rw [h] at hterminal
  cases hterminal

theorem movable_of_owned {item : Execution} {token : UUID} (h : Memory.Owned item token) :
    item.status.isTerminal = true → item.pipelineRunID = none :=
  movable (by rw [h.1]; rfl)

theorem movable_of_claimable {item : Execution} {keys : List TaskKey} {now : Time}
    (h : Memory.claimable keys now item = true) :
    item.status.isTerminal = true → item.pipelineRunID = none := by
  apply movable
  simp only [Memory.claimable, Bool.and_eq_true, Bool.or_eq_true, beq_iff_eq] at h
  rcases h.1.2 with (hs | hs) | ⟨hs, -⟩ <;> rw [hs] <;> rfl

section Operations

variable {α : Type} {Creates : CreateExecution → Prop} {Sets : PipelineRun → RunStatus → Prop}

theorem blocks_watchFrom {keys : Watch} {read : Image → Op Image}
    {operation : Option α → Nat → Image → Except TxError (α × List Command)}
    (hread : ∀ seen, (read seen).Issues (BlockCall Creates Sets))
    (h : ∀ lost n s a commands, Represented s → operation lost n (s.view keys) = .ok (a, commands) →
      Block Creates Sets keys s commands) :
    (watchFrom keys read operation).Issues (BlockCall Creates Sets) := by
  refine issues_attempt trivial hread ?_ 16 none
  rintro lost n image a commands hok s hs rfl
  exact h lost n s a commands hs hok

theorem blocks_watch {keys : Watch} {operation : Nat → Image → Except TxError (α × List Command)}
    (h : ∀ n s a commands, Represented s → operation n (s.view keys) = .ok (a, commands) →
      Block Creates Sets keys s commands) : (watch keys operation).Issues (BlockCall Creates Sets) :=
  blocks_watchFrom (fun _ => trivial) fun _ => h

/-- A transaction on one execution. -/
theorem blocks_watchExecutionFrom {id : UUID}
    {missing : Option α → Except TxError (α × List Command)}
    {operation : Option α → Nat → Execution → Except TxError (α × List Command)}
    (hmissing : ∀ lost (w : Watch) (s : Keyspace) a commands, missing lost = .ok (a, commands) →
      Block Creates Sets w s commands)
    (h : ∀ lost n (w : Watch) (s : Keyspace) item a commands,
      s.executions.records.lookup item.id = some item → item.id = id →
      operation lost n item = .ok (a, commands) → Block Creates Sets w s commands) :
    (watchExecutionFrom id missing operation).Issues (BlockCall Creates Sets) := by
  refine blocks_watchFrom (fun _ => trivial) fun lost n s a commands hs hok => ?_
  have hview : (s.view ⟨[id], [], [], []⟩).executions = [s.executions.records.lookup id] := rfl
  rw [hview] at hok
  cases hl : s.executions.records.lookup id with
  | none =>
      rw [hl] at hok
      exact hmissing lost _ s a commands hok
  | some item =>
      rw [hl] at hok
      have hid : item.id = id := hs.executions.keyed id item hl
      exact h lost n _ s item a commands (hid.symm ▸ hl) hid hok

theorem blocks_watchExecution {id : UUID} {missing : Except TxError (α × List Command)}
    {operation : Nat → Execution → Except TxError (α × List Command)}
    (hmissing : ∀ (w : Watch) (s : Keyspace) a commands, missing = .ok (a, commands) →
      Block Creates Sets w s commands)
    (h : ∀ n (w : Watch) (s : Keyspace) item a commands,
      s.executions.records.lookup item.id = some item → item.id = id →
      operation n item = .ok (a, commands) → Block Creates Sets w s commands) :
    (watchExecution id missing operation).Issues (BlockCall Creates Sets) :=
  blocks_watchExecutionFrom (fun _ => hmissing) fun _ => h

theorem blocks_read {c : Query} {next : QueryReply c → Op α}
    (hread : ∀ s : Server, (s.exec c).2 = s) (h : ∀ r, (next r).Issues (BlockCall Creates Sets)) :
    (.call (.other c) next : Op α).Issues (BlockCall Creates Sets) := by
  refine ⟨fun s => ?_, h⟩
  rw [hread s]
  exact ⟨rfl, rfl, rfl, rfl⟩

theorem blocks_getExecution (id : UUID) : (getExecution id).Issues (BlockCall Creates Sets) :=
  blocks_read (fun _ => rfl) fun _ => trivial

theorem blocks_getPipelineRun (id : UUID) : (getPipelineRun id).Issues (BlockCall Creates Sets) :=
  blocks_read (fun _ => rfl) fun _ => trivial

theorem blocks_getRefs (refs : List RefKey) (values : List (Option UUID)) :
    (getRefs refs values).Issues (BlockCall Creates Sets) := by
  induction refs generalizing values with
  | nil => trivial
  | cons key rest ih =>
      refine blocks_read (fun _ => rfl) fun value => ?_
      cases value with
      | none => exact ih _
      | some existing => trivial

variable (env : Env)

theorem blocks_createExecution {request : CreateExecution} (hcreates : Creates request) :
    (createExecution env request).Issues (BlockCall Creates Sets) := by
  unfold createExecution
  split
  · trivial
  · refine Program.Issues.bind (blocks_watchFrom (fun _ => blocks_getRefs _ _) ?_) fun result => ?_
    · intro lost n s a commands _ hok
      split at hok
      · cases hok
      · next hfree =>
        cases hok
        refine Block.create hcreates rfl ?_
        intro ref href
        exact List.findSome?_eq_none_iff.mp hfree _ (List.mem_map_of_mem href)
    · split
      · trivial
      · exact blocks_getExecution _
      · trivial

theorem blocks_claimCandidate (draw : Nat) (id : UUID) (owner : String) (accepted : List TaskKey)
    (lease : Duration) : (claimCandidate env draw id owner accepted lease).Issues (BlockCall Creates Sets) := by
  refine Program.Issues.bind (blocks_watchExecution ?_ ?_) fun _ => trivial
  · exact fun _ _ _ _ hok => nomatch hok
  · intro n w s item a commands hl _ hok
    split at hok
    · next hpass =>
      cases hok
      rw [claimable_eq] at hpass
      refine Block.move hl (movable_of_claimable hpass) ?_ (writes_saveTransition s _ env _ _ _ _)
      exact Memory.moves_claimed hpass owner lease (draw + n)
    · cases hok

theorem blocks_reapCandidate (id : UUID) : (reapCandidate env id).Issues (BlockCall Creates Sets) := by
  refine Program.Issues.bind (blocks_watchExecutionFrom ?_ ?_) fun _ => trivial
  · intro lost w s a commands hok
    cases hok
    exact Block.unindex id
  · intro lost n w s item a commands hl _ hok
    split at hok
    · cases hok
      exact Block.unindex id
    · next hrunning =>
      split at hok
      · cases hok
      · next hexpired =>
        split at hok
        · cases hok
          exact Block.unindex id
        · next hlast =>
          cases hok
          have hreap : Memory.reapable env.now item = true :=
            Memory.reapable_iff.mpr ⟨not_not.mp hrunning, not_lt.mp hexpired, not_lt.mp hlast⟩
          refine Block.move hl ?_ ?_ (writes_saveTransition s _ env _ _ _ _)
          · exact movable (by rw [not_not.mp hrunning]; rfl)
          · exact ⟨env, Memory.newMemoryStore, _, Memory.Transition.reap hreap⟩

theorem owned_of_ownedBy {token : UUID} {item : Execution} (h : ownedBy token item = true) :
    Memory.Owned item token := by
  simpa [ownedBy, Memory.Owned, and_assoc] using h

theorem blocks_heartbeat (id token : UUID) (lease : Duration) :
    (heartbeat env id token lease).Issues (BlockCall Creates Sets) := by
  refine Program.Issues.bind (blocks_watchExecution ?_ ?_) fun _ => trivial
  · exact fun _ _ _ _ hok => nomatch hok
  · intro n w s item a commands hl hid hok
    subst hid
    split at hok
    · next howned =>
      cases hok
      have howned := owned_of_ownedBy howned
      refine Block.move hl (movable_of_owned howned) ?_
        (writes_heartbeat s { item with leaseUntil := env.now + lease })
      exact ⟨env, Memory.newMemoryStore, _, Memory.Transition.heartbeat howned⟩
    · cases hok

/-- A mutation of the owner that moves the record. -/
theorem blocks_transition (id token : UUID) {mutate : Execution → Mutation}
    (hmoves : ∀ item, Memory.Owned item token → Memory.Moves item (mutate item).item
      [encodeEvent env (mutate item).item (mutate item).eventType (mutate item).errorText]) :
    (transition env id token mutate).Issues (BlockCall Creates Sets) := by
  refine Program.Issues.bind (blocks_watchExecution ?_ ?_) fun _ => trivial
  · exact fun _ _ _ _ hok => nomatch hok
  · intro n w s item a commands hl _ hok
    split at hok
    · next howned =>
      cases hok
      have howned := owned_of_ownedBy howned
      refine Block.move hl (movable_of_owned howned) ?_ (writes_saveTransition s _ env _ _ _ _)
      exact hmoves item howned
    · cases hok

theorem blocks_succeed (id token : UUID) (output : RawMessage) :
    (succeed env id token output).Issues (BlockCall Creates Sets) := by
  apply blocks_transition
  intro item howned
  exact ⟨env, Memory.newMemoryStore, .succeed item.id token output, Memory.Transition.succeed howned⟩

theorem blocks_retry (id token : UUID) (errorText : String) (delay : Duration) :
    (retry env id token errorText delay).Issues (BlockCall Creates Sets) := by
  apply blocks_transition
  intro item howned
  refine ⟨env, Memory.newMemoryStore, .retry item.id token errorText delay, ?_⟩
  by_cases hlast : item.maxAttempts ≤ item.attempt
  · have hmutation : retryMutation env errorText delay item =
        ⟨Memory.exhausted env errorText item, .failed, errorText, false⟩ := if_pos hlast
    rw [hmutation]
    exact Memory.Transition.exhaust howned hlast
  · have hmutation : retryMutation env errorText delay item =
        ⟨Memory.retried env errorText delay item, .retried, errorText, true⟩ := if_neg hlast
    rw [hmutation]
    exact Memory.Transition.retry howned (not_le.mp hlast)

theorem blocks_fail (id token : UUID) (errorText : String) :
    (fail env id token errorText).Issues (BlockCall Creates Sets) := by
  apply blocks_transition
  intro item howned
  exact ⟨env, Memory.newMemoryStore, .fail item.id token errorText, Memory.Transition.fail howned⟩

theorem blocks_cancelExecution (id : UUID) (reason : String) :
    (cancelExecution env id reason).Issues (BlockCall Creates Sets) := by
  refine Program.Issues.bind (blocks_watchExecution ?_ ?_) fun _ => trivial
  · exact fun _ _ _ _ hok => nomatch hok
  · intro n w s item a commands hl _ hok
    split at hok
    · cases hok
    · next hopen =>
      cases hok
      have hopen := Bool.eq_false_iff.mpr hopen
      refine Block.move hl (movable hopen) ?_ (writes_saveTransition s _ env _ _ _ _)
      exact ⟨env, Memory.newMemoryStore, .cancelExecution item.id reason,
        Memory.Transition.cancel hopen⟩

theorem blocks_restartExecution (id : UUID) (availableAt : Time) :
    (restartExecution env id availableAt).Issues (BlockCall Creates Sets) := by
  refine Program.Issues.bind (blocks_watchExecution ?_ ?_) fun _ => trivial
  · exact fun _ _ _ _ hok => nomatch hok
  · intro n w s item a commands hl hid hok
    subst hid
    split at hok
    · cases hok
    · next hidle =>
      split at hok
      · cases hok
      · next hrun =>
        cases hok
        have hrun := not_not.mp hrun
        refine Block.move hl (fun _ => hrun) ?_
          (writes_restart s (reset .pending _ item) env item.status)
        exact ⟨env, Memory.newMemoryStore, .restartExecution item.id availableAt,
          Memory.Transition.restart hrun (Bool.eq_false_iff.mpr hidle)⟩

theorem blocks_releaseExecution (id : UUID) (input : RawMessage) (availableAt : Time) :
    (releaseExecution env id input availableAt).Issues (BlockCall Creates Sets) := by
  refine Program.Issues.bind (blocks_watchExecution ?_ ?_) fun _ => trivial
  · exact fun _ _ _ _ hok => nomatch hok
  · intro n w s item a commands hl hid hok
    subst hid
    split at hok
    · cases hok
    · next hblocked =>
      cases hok
      have hblocked := not_not.mp hblocked
      refine Block.move hl (movable (by rw [hblocked]; rfl)) ?_
        (writes_release s (Memory.released env input availableAt item))
      exact ⟨env, Memory.newMemoryStore, .releaseExecution item.id input availableAt,
        Memory.Transition.release hblocked⟩

theorem blocks_createPipelineRun (request : CreatePipelineRun) :
    (createPipelineRun env request).Issues (BlockCall Creates Sets) := by
  refine Program.Issues.bind (blocks_watch ?_) fun result => ?_
  · intro n s a commands _ hok
    split at hok
    · cases hok
    · next hfree =>
      cases hok
      refine Block.createRun rfl ?_
      intro ref href
      exact List.findSome?_eq_none_iff.mp hfree _ (List.mem_map_of_mem href)
  · split
    · trivial
    · exact blocks_getPipelineRun _
    · trivial

theorem blocks_setPipelineRunStatus {id : UUID} {expectedRevision : Nat} {status : RunStatus}
    (hsets : ∀ run, run.id = id → run.revision = expectedRevision → Sets run status)
    (errorText : String) :
    (setPipelineRunStatus env id expectedRevision status errorText).Issues (BlockCall Creates Sets) := by
  refine Program.Issues.bind (blocks_watch ?_) fun _ => trivial
  intro n s a commands hs hok
  have hview : (s.view ⟨[], [id], [], []⟩).runs = [s.runs.records.lookup id] := rfl
  rw [hview] at hok
  cases hl : s.runs.records.lookup id with
  | none =>
      rw [hl] at hok
      cases hok
  | some run =>
      rw [hl] at hok
      dsimp only at hok
      split at hok
      · cases hok
      · next hrevision =>
        cases hok
        obtain rfl : run.id = id := hs.runs.keyed id run hl
        exact Block.status (hsets run rfl (not_not.mp hrevision)) hl

/-- The discovery of candidates removes at most queue entries. -/
theorem blocks_loadDueCandidates (names : List String) (limit : Int) :
    (loadDueCandidates env names limit).Issues (BlockCall Creates Sets) := by
  have hrecords : ∀ name ids candidates, (loadRecords name ids candidates).Issues (BlockCall Creates Sets) := by
    intro name ids
    induction ids with
    | nil => exact fun _ => trivial
    | cons id rest ih =>
        refine fun candidates => blocks_read (fun _ => rfl) fun stored => ?_
        cases stored with
        | none => exact ⟨fun _ => ⟨rfl, rfl, rfl, rfl⟩, fun _ => ih candidates⟩
        | some item => exact ih _
  have hqueues : ∀ candidates, (loadQueues limit env.now names candidates).Issues (BlockCall Creates Sets) := by
    induction names with
    | nil => exact fun _ => trivial
    | cons name rest ih =>
        exact fun candidates =>
          blocks_read (fun _ => rfl) fun ids => (hrecords name ids candidates).bind ih
  exact (hqueues ∅).bind fun _ => trivial

theorem blocks_claim (owner : String) (keys : List TaskKey) (limit : Int) (lease : Duration) :
    (claim env owner keys limit lease).Issues (BlockCall Creates Sets) := by
  have hloop : ∀ limit candidates draw claimed,
      (claimLoop env owner keys limit lease candidates draw claimed).Issues (BlockCall Creates Sets) := by
    intro limit candidates
    induction candidates with
    | nil => exact fun _ _ => trivial
    | cons candidate rest ih =>
        intro draw claimed
        rw [claimLoop]
        split
        · trivial
        · refine (blocks_claimCandidate env draw candidate.id owner keys lease).bind fun result => ?_
          split
          · trivial
          · exact ih _ _
          · exact ih _ _
  exact (blocks_loadDueCandidates env _ _).bind fun ordered => hloop _ ordered 0 []

theorem blocks_reapExpired : (reapExpired env).Issues (BlockCall Creates Sets) := by
  refine blocks_read (fun _ => rfl) fun ids => ?_
  have hloop : ∀ runs, (reapLoop env ids runs).Issues (BlockCall Creates Sets) := by
    induction ids with
    | nil => exact fun _ => trivial
    | cons id rest ih =>
        intro runs
        refine (blocks_reapCandidate env id).bind fun result => ?_
        split
        · trivial
        · exact ih _
        · exact ih _
  exact hloop []

end Operations

/-- The operation writes at most one record. -/
def Operation.Single : Operation → Prop
  | .restartPipelineSubgraph _ _ _ => False
  | _ => True

theorem blocks_program {op : Operation} (hsingle : op.Single) : op.program.Issues AnyBlockCall := by
  have hdiscard : ∀ {β : Type} {p : Op β}, p.Issues AnyBlockCall → p.discard.Issues AnyBlockCall :=
    fun h => h.bind fun _ => trivial
  cases op with
  | createExecution env request => exact hdiscard (blocks_createExecution env trivial)
  | claim env owner keys limit lease => exact hdiscard (blocks_claim env owner keys limit lease)
  | claimCandidate env draw id owner accepted lease =>
      exact hdiscard (blocks_claimCandidate env draw id owner accepted lease)
  | reapExpired env => exact hdiscard (blocks_reapExpired env)
  | reapCandidate env id => exact hdiscard (blocks_reapCandidate env id)
  | heartbeat env id token lease => exact hdiscard (blocks_heartbeat env id token lease)
  | succeed env id token output => exact hdiscard (blocks_succeed env id token output)
  | retry env id token errorText delay => exact hdiscard (blocks_retry env id token errorText delay)
  | fail env id token errorText => exact hdiscard (blocks_fail env id token errorText)
  | cancelExecution env id reason => exact hdiscard (blocks_cancelExecution env id reason)
  | restartExecution env id availableAt => exact hdiscard (blocks_restartExecution env id availableAt)
  | restartPipelineSubgraph env request _ => exact hsingle.elim
  | releaseExecution env id input availableAt =>
      exact hdiscard (blocks_releaseExecution env id input availableAt)
  | createPipelineRun env request => exact hdiscard (blocks_createPipelineRun env request)
  | setPipelineRunStatus env id expectedRevision status errorText =>
      exact hdiscard (blocks_setPipelineRunStatus env (fun _ _ _ => trivial) errorText)

end Ody.Redis
