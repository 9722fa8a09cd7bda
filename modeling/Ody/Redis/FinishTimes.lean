import Ody.Execution.Retention
import Ody.Redis.Concurrency

/-!
# Finish times in both stores

Three operations write the status of a run. In Redis each of them also sets or
clears the finish time, so it is right after every block, in every interleaving.
The in-memory `SetPipelineRunStatus` sets the finish time but does not clear it.
-/

namespace Ody.Redis

open Library.Tables Library.DerivedIndexes Library.Interleaving Library.Optimistic
open Memory (Env FinishTime FinishTimes)

/-! ## The runs that a block writes -/

/-- The run record that the command writes. -/
def Command.writtenRun : Command → Option PipelineRun
  | .hSet _ run => some run
  | _ => none

/-- The commands write runs with the right finish time. -/
def Orderly (commands : List Command) : Prop := ∀ c ∈ commands, ∀ run ∈ c.writtenRun, FinishTime run

/-- The commands of a commit are orderly. -/
def OrderlyCall : TxCall Watch Image Command Query → Prop
  | .commit _ _ commands => Orderly commands
  | _ => True

@[simp] theorem orderly_nil : Orderly [] := by simp [Orderly]

@[simp] theorem orderly_cons {c : Command} {rest : List Command} :
    Orderly (c :: rest) ↔ (∀ run ∈ c.writtenRun, FinishTime run) ∧ Orderly rest := by
  simp [Orderly]

@[simp] theorem orderly_append {a b : List Command} : Orderly (a ++ b) ↔ Orderly a ∧ Orderly b := by
  simp [Orderly, or_imp, forall_and]

@[simp] theorem orderly_setRefs (refs : List RefKey) (id : UUID) :
    Orderly (refs.map fun key => .setRef key id) := by
  simp [Orderly, Command.writtenRun]

@[simp] theorem orderly_setRunRefs (refs : List String) (id : UUID) :
    Orderly (refs.map fun key => .setRunRef key id) := by
  simp [Orderly, Command.writtenRun]

theorem orderly_flatMap {β : Type} {items : List β} {f : β → List Command}
    (h : ∀ item, Orderly (f item)) : Orderly (items.flatMap f) := by
  intro c hc
  obtain ⟨item, -, hc⟩ := List.mem_flatMap.mp hc
  exact h item c hc

theorem orderly_createCommands (env : Env) (item : Execution) :
    Orderly (createCommands env item) := by
  unfold createCommands
  cases item.pipelineRunID <;> simp [Command.writtenRun]

theorem orderly_saveTransition (env : Env) (item : Execution) (previous : Status)
    (eventType : EventType) (errorText : String) (keepInQueue : Bool) :
    Orderly (saveTransition env item previous eventType errorText keepInQueue) := by
  unfold saveTransition
  split_ifs <;> simp [Command.writtenRun]

theorem orderly_subgraphCommands (env : Env) (request : RestartSubgraph) (item : Execution) :
    Orderly (subgraphCommands env request item) := by
  unfold subgraphCommands
  dsimp only
  split_ifs <;> simp [Command.writtenRun]

/-- Moving a run writes the record it is given. -/
theorem orderly_moveRun (id : UUID) {run : PipelineRun} (previous : RunStatus) (h : FinishTime run) :
    Orderly (moveRun id run previous) := by
  unfold moveRun
  split_ifs <;> simp [Command.writtenRun, h]

theorem orderly_purge (candidates : List Candidate) :
    Orderly (candidates.flatMap purgeCandidate) := by
  rw [purge_commands]
  apply orderly_flatMap
  intro r
  cases r with
  | inl item =>
      simp only [purgeRecord, purgeExecution]
      cases item.pipelineRunID <;> split_ifs <;> simp [Command.writtenRun]
  | inr run =>
      simp only [purgeRecord, purgeRun]
      split_ifs <;> simp [Command.writtenRun]

/-! ## Every operation -/

section Operations

variable {α : Type}

theorem orderly_watchFrom {keys : Watch} {read : Image → Op Image}
    {operation : Option α → Nat → Image → Except TxError (α × List Command)}
    (hread : ∀ seen, (read seen).Issues OrderlyCall)
    (h : ∀ lost n image a commands, operation lost n image = .ok (a, commands) → Orderly commands) :
    (watchFrom keys read operation).Issues OrderlyCall :=
  issues_attempt trivial hread h 16 none

theorem orderly_watch {keys : Watch} {operation : Nat → Image → Except TxError (α × List Command)}
    (h : ∀ n image a commands, operation n image = .ok (a, commands) → Orderly commands) :
    (watch keys operation).Issues OrderlyCall :=
  orderly_watchFrom (fun _ => trivial) fun _ => h

theorem orderly_watchExecutionFrom {id : UUID}
    {missing : Option α → Except TxError (α × List Command)}
    {operation : Option α → Nat → Execution → Except TxError (α × List Command)}
    (hmissing : ∀ lost a commands, missing lost = .ok (a, commands) → Orderly commands)
    (h : ∀ lost n item a commands, operation lost n item = .ok (a, commands) → Orderly commands) :
    (watchExecutionFrom id missing operation).Issues OrderlyCall := by
  refine orderly_watchFrom (fun _ => trivial) fun lost n image a commands hok => ?_
  split at hok
  · exact h lost n _ a commands hok
  · exact hmissing lost a commands hok

theorem orderly_watchExecution {id : UUID} {missing : Except TxError (α × List Command)}
    {operation : Nat → Execution → Except TxError (α × List Command)}
    (hmissing : ∀ a commands, missing = .ok (a, commands) → Orderly commands)
    (h : ∀ n item a commands, operation n item = .ok (a, commands) → Orderly commands) :
    (watchExecution id missing operation).Issues OrderlyCall :=
  orderly_watchExecutionFrom (fun _ => hmissing) fun _ => h

theorem orderly_returned {p : Op (Except TxError α)} (h : p.Issues OrderlyCall) :
    (returned p).Issues OrderlyCall := h.bind fun _ => trivial

theorem orderly_read {c : Query} {next : QueryReply c → Op α} (h : ∀ r, (next r).Issues OrderlyCall) :
    (.call (.other c) next : Op α).Issues OrderlyCall := ⟨trivial, h⟩

theorem orderly_getRefs (refs : List RefKey) (values : List (Option UUID)) :
    (getRefs refs values).Issues OrderlyCall := by
  induction refs generalizing values with
  | nil => trivial
  | cons key rest ih =>
      refine orderly_read fun value => ?_
      cases value with
      | none => exact ih _
      | some existing => trivial

variable (env : Env)

theorem orderly_createExecution (request : CreateExecution) :
    (createExecution env request).Issues OrderlyCall := by
  unfold createExecution
  split
  · trivial
  · refine Program.Issues.bind (orderly_watchFrom (fun _ => orderly_getRefs _ _) ?_) fun result => ?_
    · intro lost n image a commands hok
      split at hok
      · cases hok
      · cases hok
        exact orderly_createCommands env _
    · split
      · trivial
      · exact orderly_read fun _ => trivial
      · trivial

theorem orderly_claimCandidate (draw : Nat) (id : UUID) (owner : String) (accepted : List TaskKey)
    (lease : Duration) : (claimCandidate env draw id owner accepted lease).Issues OrderlyCall := by
  refine Program.Issues.bind (orderly_watchExecution (by simp) ?_) fun _ => trivial
  intro n item a commands hok
  split at hok
  · cases hok
    exact orderly_saveTransition env _ _ _ _ _
  · cases hok

theorem orderly_reapCandidate (id : UUID) : (reapCandidate env id).Issues OrderlyCall := by
  have hlease : Orderly (removeLeaseIndex id) := by simp [Orderly, removeLeaseIndex, Command.writtenRun]
  refine Program.Issues.bind (orderly_watchExecutionFrom ?_ ?_) fun _ => trivial
  · intro lost a commands hok
    cases hok
    exact hlease
  · intro lost n item a commands hok
    split at hok
    · cases hok
      exact hlease
    · split at hok
      · cases hok
      · split at hok
        · cases hok
          exact hlease
        · cases hok
          exact orderly_saveTransition env _ _ _ _ _

theorem orderly_heartbeat (id token : UUID) (lease : Duration) :
    (heartbeat env id token lease).Issues OrderlyCall := by
  apply orderly_returned
  refine orderly_watchExecution (by simp) fun n item a commands hok => ?_
  split at hok
  · cases hok
    simp [Orderly, heartbeatCommands, Command.writtenRun]
  · cases hok

theorem orderly_transition (id token : UUID) (mutate : Execution → Mutation) :
    (transition env id token mutate).Issues OrderlyCall := by
  apply orderly_returned
  refine orderly_watchExecution (by simp) fun n item a commands hok => ?_
  split at hok
  · cases hok
    exact orderly_saveTransition env _ _ _ _ _
  · cases hok

theorem orderly_cancelExecution (id : UUID) (reason : String) :
    (cancelExecution env id reason).Issues OrderlyCall := by
  apply orderly_returned
  refine orderly_watchExecution (by simp) fun n item a commands hok => ?_
  split at hok
  · cases hok
  · cases hok
    exact orderly_saveTransition env _ _ _ _ _

theorem orderly_restartExecution (id : UUID) (availableAt : Time) :
    (restartExecution env id availableAt).Issues OrderlyCall := by
  apply orderly_returned
  refine orderly_watchExecution (by simp) fun n item a commands hok => ?_
  split at hok
  · cases hok
  · split at hok
    · cases hok
    · cases hok
      simp [Orderly, restartCommands, Command.writtenRun]

theorem orderly_releaseExecution (id : UUID) (input : RawMessage) (availableAt : Time) :
    (releaseExecution env id input availableAt).Issues OrderlyCall := by
  apply orderly_returned
  refine orderly_watchExecution (by simp) fun n item a commands hok => ?_
  split at hok
  · cases hok
  · cases hok
    simp [Orderly, releaseCommands, Command.writtenRun]

theorem orderly_claim (owner : String) (keys : List TaskKey) (limit : Int) (lease : Duration) :
    (claim env owner keys limit lease).Issues OrderlyCall := by
  have hloop : ∀ limit candidates draw claimed,
      (claimLoop env owner keys limit lease candidates draw claimed).Issues OrderlyCall := by
    intro limit candidates
    induction candidates with
    | nil => exact fun _ _ => trivial
    | cons candidate rest ih =>
        intro draw claimed
        unfold claimLoop
        split
        · trivial
        · refine (orderly_claimCandidate env draw candidate.id owner keys lease).bind fun result => ?_
          split
          · trivial
          · exact ih _ _
          · exact ih _ _
  exact (issues_loadDueCandidates (fun _ => trivial) env _ _).bind fun ordered => hloop _ ordered 0 []

theorem orderly_reapExpired : (reapExpired env).Issues OrderlyCall := by
  have hloop : ∀ ids runs, (reapLoop env ids runs).Issues OrderlyCall := by
    intro ids
    induction ids with
    | nil => exact fun _ => trivial
    | cons id rest ih =>
        intro runs
        refine (orderly_reapCandidate env id).bind fun result => ?_
        split
        · trivial
        · exact ih _
        · exact ih _
  exact orderly_read fun ids => hloop ids []

theorem reopenedRun_finishTime (run : PipelineRun) : FinishTime (reopenedRun env run) := by
  simp [FinishTime, reopenedRun, RunStatus.isTerminal]

theorem orderly_restartPipelineSubgraph (request : RestartSubgraph) :
    (restartPipelineSubgraph env request).Issues OrderlyCall := by
  have hlookup : ∀ keys, (lookupNodes request.runID keys).Issues OrderlyCall := by
    intro keys
    induction keys with
    | nil => trivial
    | cons key rest ih => exact orderly_read fun ref => ih.bind fun _ => trivial
  refine (hlookup _).bind fun ids => orderly_returned (orderly_watch fun n image a commands hok => ?_)
  unfold restartTransaction at hok
  split at hok
  · split at hok
    · cases hok
    · split at hok
      · cases hok
      · next items _ _ _ =>
        cases hok
        refine orderly_append.mpr ⟨?_, orderly_moveRun _ _ (reopenedRun_finishTime env _)⟩
        exact orderly_flatMap (orderly_subgraphCommands env request)
  · cases hok

theorem orderly_createPipelineRun (request : CreatePipelineRun) :
    (createPipelineRun env request).Issues OrderlyCall := by
  refine Program.Issues.bind (orderly_watch fun n image a commands hok => ?_) fun result => ?_
  · split at hok
    · cases hok
    · cases hok
      have hnew : FinishTime (newRun env request) := by
        simp [FinishTime, newRun, RunStatus.isTerminal]
      simp [Orderly, createRunCommands, Command.writtenRun, hnew]
  · split
    · trivial
    · exact orderly_read fun _ => trivial
    · trivial

/-- The status write sets the finish time of a finished run and clears any other. -/
theorem runWithStatus_finishTime (status : RunStatus) (errorText : String) (run : PipelineRun) :
    FinishTime (runWithStatus env status errorText run) := by
  cases hs : status.isTerminal <;> simp [FinishTime, runWithStatus, hs]

theorem orderly_setPipelineRunStatus (id : UUID) (expectedRevision : Nat) (status : RunStatus)
    (errorText : String) :
    (setPipelineRunStatus env id expectedRevision status errorText).Issues OrderlyCall := by
  refine orderly_returned (orderly_watch fun n image a commands hok => ?_)
  split at hok
  · split at hok
    · cases hok
    · cases hok
      exact orderly_moveRun id _ (runWithStatus_finishTime env status errorText _)
  · cases hok

end Operations

theorem orderly_program (op : Operation) : op.program.Issues OrderlyCall := by
  have hdiscard : ∀ {α : Type} {p : Op α}, p.Issues OrderlyCall → p.discard.Issues OrderlyCall :=
    fun h => h.bind fun _ => trivial
  cases op with
  | createExecution env request => exact hdiscard (orderly_createExecution env request)
  | claim env owner keys limit lease => exact hdiscard (orderly_claim env owner keys limit lease)
  | claimCandidate env draw id owner accepted lease =>
      exact hdiscard (orderly_claimCandidate env draw id owner accepted lease)
  | reapExpired env => exact hdiscard (orderly_reapExpired env)
  | reapCandidate env id => exact hdiscard (orderly_reapCandidate env id)
  | heartbeat env id token lease => exact hdiscard (orderly_heartbeat env id token lease)
  | succeed env id token output => exact hdiscard (orderly_transition env id token _)
  | retry env id token errorText delay => exact hdiscard (orderly_transition env id token _)
  | fail env id token errorText => exact hdiscard (orderly_transition env id token _)
  | cancelExecution env id reason => exact hdiscard (orderly_cancelExecution env id reason)
  | restartExecution env id availableAt =>
      exact hdiscard (orderly_restartExecution env id availableAt)
  | restartPipelineSubgraph env request _ =>
      exact hdiscard (orderly_restartPipelineSubgraph env request)
  | releaseExecution env id input availableAt =>
      exact hdiscard (orderly_releaseExecution env id input availableAt)
  | createPipelineRun env request => exact hdiscard (orderly_createPipelineRun env request)
  | setPipelineRunStatus env id expectedRevision status errorText =>
      exact hdiscard (orderly_setPipelineRunStatus env id expectedRevision status errorText)

theorem orderly_uninterrupted {p : Op Unit} (h : Uninterrupted p) : p.Issues OrderlyCall := by
  cases h with
  | operation op => exact orderly_program op
  | purge before limit order => exact ⟨trivial, fun _ => trivial⟩

/-! ## Every interleaving -/

theorem finishTimes_apply {s : Keyspace} (h : FinishTimes s.runs.records) {c : Command}
    (hc : ∀ run ∈ c.writtenRun, FinishTime run) : FinishTimes (s.apply c).runs.records := by
  cases c with
  | hSet id' run' =>
      intro id run hl
      have hl' : (s.runs.records.insert id' run').lookup id = some run := hl
      rw [lookup_insert_ite] at hl'
      split at hl'
      · cases hl'
        exact hc run' rfl
      · exact h id run hl'
  | delRun id' =>
      intro id run hl
      have hl' : (s.runs.records.erase id').lookup id = some run := hl
      rw [lookup_erase_ite] at hl'
      split at hl'
      · cases hl'
      · exact h id run hl'
  | zAdd key value member => cases key <;> exact h
  | zRem key member => cases key <;> exact h
  | _ => exact h

theorem finishTimes_applyAll {s : Server} (h : FinishTimes s.keys.runs.records)
    {commands : List Command} (hc : Orderly commands) :
    FinishTimes (s.applyAll commands).keys.runs.records := by
  induction commands generalizing s with
  | nil => exact h
  | cons c rest ih =>
      obtain ⟨hfirst, hrest⟩ := orderly_cons.mp hc
      exact ih (finishTimes_apply h hfirst) hrest

theorem finishTimes_exec {s : Server} (h : FinishTimes s.keys.runs.records) (c : Query) :
    FinishTimes (s.exec c).2.keys.runs.records := by
  cases c with
  | zRem key member => exact finishTimes_apply h (by simp [Command.writtenRun])
  | execPurge candidates => exact finishTimes_applyAll h (orderly_purge candidates)
  | purge before limit order =>
      unfold Server.exec
      dsimp only
      split
      · exact h
      · exact finishTimes_applyAll h (orderly_purge _)
  | _ => exact h

/-- In every interleaving the stored runs have the right finish times. -/
theorem finishTimes_of_reach {allowed : Server → TxCall Watch Image Command Query → Prop}
    {s : Server}
    {threads : List (Thread Unit (TxCall Watch Image Command Query) (TxReply QueryReply) Unit)}
    (run : Reach (backend.system allowed) Server.Initial Uninterrupted s threads) :
    FinishTimes s.keys.runs.records := by
  refine (run.of_issues (I := fun s => FinishTimes s.keys.runs.records) ?_
    (fun p hp => orderly_uninterrupted hp) ?_).1
  · rintro s rfl
    simp [FinishTimes, Server.empty, Keyspace.empty, Indexed.empty]
  · intro s g c r s' h hc _ hstep
    cases c with
    | other c =>
        have hexec : s.exec c = (r, s') := hstep
        have hafter := finishTimes_exec h c
        rwa [hexec] at hafter
    | watch w =>
        obtain ⟨-, rfl⟩ := hstep
        exact h
    | commit w image commands =>
        rcases hstep with ⟨-, -, rfl⟩ | ⟨-, rfl⟩
        · exact finishTimes_applyAll h hc
        · exact h

/-! ## Runs that `Purge` removes -/

theorem runCandidates_finished {s : Keyspace} {before : Time} {runs : List PipelineRun}
    {candidates : List Candidate} (hok : runCandidates s before runs = .ok candidates) :
    ∀ candidate ∈ candidates, ∀ finished run nodes, candidate = .run finished run nodes →
      run.finishedAt ≠ none := by
  induction runs generalizing candidates with
  | nil =>
      cases hok
      simp
  | cons run rest ih =>
      unfold runCandidates at hok
      split at hok
      · exact ih hok
      · next finished hfinished =>
        split at hok
        · split at hok
          · cases hok
          · split at hok
            · cases hok
            · next tail htail =>
              cases hok
              intro candidate hmem finished' run' nodes' hrun'
              rcases List.mem_cons.mp hmem with rfl | hmem
              · cases hrun'
                simp [hfinished]
              · exact ih htail candidate hmem finished' run' nodes' hrun'
        · exact ih hok

theorem executionCandidates_execution {s : Keyspace} {before : Time} {statuses : List Status}
    {candidates : List Candidate} (hok : executionCandidates s before statuses = .ok candidates) :
    ∀ candidate ∈ candidates, ∀ finished run nodes, candidate ≠ .run finished run nodes := by
  induction statuses generalizing candidates with
  | nil =>
      cases hok
      simp
  | cons status rest ih =>
      unfold executionCandidates at hok
      split at hok
      · cases hok
      · next items _ =>
        split at hok
        · cases hok
        · next tail htail =>
          cases hok
          rintro candidate hmem finished run nodes rfl
          rcases List.mem_append.mp hmem with hmem | hmem
          · obtain ⟨item, -, hitem⟩ := List.mem_filterMap.mp hmem
            obtain ⟨-, finished', hexecution⟩ := executionCandidate_some hitem
            cases hexecution
          · exact ih htail _ hmem finished run nodes rfl

/-- The runs that `Purge` lists have finished. -/
theorem listPurge_finished {s : Keyspace} {before : Time} {limit : Int}
    {order : RangeOrder Candidate} {candidates : List Candidate}
    (hok : listPurge s before limit order = .ok candidates) {run : PipelineRun}
    (hrun : .inr run ∈ candidates.flatMap Candidate.removals) : run.finishedAt ≠ none := by
  obtain ⟨candidate, hmem, hremoved⟩ := List.mem_flatMap.mp hrun
  have hcandidate : ∃ finished nodes, candidate = .run finished run nodes := by
    cases candidate with
    | execution finished item => simp [Candidate.removals] at hremoved
    | run finished run' nodes =>
        obtain rfl : run = run' := by simpa [Candidate.removals] using hremoved
        exact ⟨finished, nodes, rfl⟩
  obtain ⟨finished, nodes, rfl⟩ := hcandidate
  unfold listPurge at hok
  split at hok
  · cases hok
  · split at hok
    · cases hok
    · next pipelines hpipelines =>
      split at hok
      · cases hok
      · next executions hexecutions =>
        cases hok
        have hsorted := List.mem_of_mem_take hmem
        rw [List.mem_insertionSort, (order.perm _).mem_iff, List.mem_append] at hsorted
        rcases hsorted with hmem | hmem
        · exact runCandidates_finished hpipelines _ hmem finished run nodes rfl
        · exact absurd rfl (executionCandidates_execution hexecutions _ hmem finished run nodes)

/-- A run that `Purge` removes had finished. -/
theorem purge_removed_run {s : Server} (h : Invariant s) {before : Time} {limit : Int}
    {order : RangeOrder Candidate} {id : UUID} {run : PipelineRun}
    (hrun : s.keys.runs.records.lookup id = some run)
    (hgone : (s.exec (.purge before limit order)).2.keys.runs.records.lookup id = none) :
    run.finishedAt ≠ none := by
  unfold Server.exec at hgone
  dsimp only at hgone
  split at hgone
  · exact absurd (hgone.symm.trans hrun) (by simp)
  · next candidates hlist =>
    by_contra hopen
    obtain ⟨hstored, -⟩ := listPurge_removals h.represented hlist
    rw [keys_applyAll, purge_commands] at hgone
    -- a command that changes this run would remove a finished run
    have hkept : ∀ c ∈ (candidates.flatMap Candidate.removals).flatMap purgeRecord,
        c.changedRun ≠ some id := by
      intro c hc hchanged
      obtain ⟨r, hr, hc⟩ := List.mem_flatMap.mp hc
      cases r with
      | inl item =>
          have hnone := (changed_purgeExecution item c hc).2.2
          exact absurd (hnone.symm.trans hchanged) (by simp)
      | inr removed =>
          have hid : id = removed.id := by
            by_contra hne
            exact (changed_purgeRun removed c hc).2.2 id hne hchanged
          have hl : s.keys.runs.records.lookup removed.id = some removed := hstored _ hr
          rw [← hid, hrun] at hl
          cases hl
          exact listPurge_finished hlist hr hopen
    rw [lookupRun_applyAll hkept] at hgone
    exact absurd (hgone.symm.trans hrun) (by simp)

/-! ## Both stores -/

open Memory (Trace NeverReopens newMemoryStore replay) in
/-- In the in-memory store finish times are right after every part of a sequence of calls exactly
when no `SetPipelineRunStatus` with an unfinished status finds a finish time, and then `Purge`
removes finished runs only. In the Redis store both hold in every interleaving. -/
theorem finish_times (trace : Trace) (s : Server)
    (threads : List (Thread Unit (TxCall Watch Image Command Query) (TxReply QueryReply) Unit)) :
    ((∀ done, done <+: trace → FinishTimes (replay done newMemoryStore).runs) ↔
      NeverReopens trace newMemoryStore) ∧
    (NeverReopens trace newMemoryStore → ∀ env before limit id run,
      (replay trace newMemoryStore).runs.lookup id = some run →
      (Memory.purge env (replay trace newMemoryStore) before limit).2.runs.lookup id = none →
      run.status.isTerminal = true) ∧
    (Reach (backend.system FreshIDs) Server.Initial Uninterrupted s threads →
      FinishTimes s.keys.runs.records ∧ ∀ before limit order id run,
        s.keys.runs.records.lookup id = some run →
        (s.exec (.purge before limit order)).2.keys.runs.records.lookup id = none →
        run.status.isTerminal = true) := by
  have hempty : FinishTimes newMemoryStore.runs := by simp [FinishTimes, newMemoryStore]
  have hmemory := Memory.replay_finishTimes trace hempty
  refine ⟨hmemory, ?_, ?_⟩
  · intro hnever env before limit id run hrun hgone
    have htimes := hmemory.mpr hnever trace (List.prefix_refl _)
    exact (htimes id run hrun).mp (Memory.purge_removed_run env _ hrun hgone)
  · intro run
    have htimes := finishTimes_of_reach run
    have hinvariant := invariant_of_reach (fun _ hp => keeps_uninterrupted hp) run
    refine ⟨htimes, ?_⟩
    intro before limit order id run hrun hgone
    exact (htimes id run hrun).mp (purge_removed_run hinvariant hrun hgone)

open Memory (Trace newMemoryStore replay)

/-- A run is created, starts and succeeds. -/
def succeededTrace : Trace :=
  [(.createPipelineRun ⟨"etl", 1, "1", ""⟩, Env.at 5 0),
    (.setPipelineRunStatus 1 0 .running "", Env.at 6 1),
    (.setPipelineRunStatus 1 1 .succeeded "", Env.at 7 1)]

theorem succeededTrace_neverReopens : Memory.NeverReopens succeededTrace newMemoryStore := by
  refine ⟨trivial, ?_, ?_, trivial⟩
  · rintro - run hrun -
    cases hrun
    rfl
  · intro hopen
    cases hopen

/-- The same run in Redis. -/
def succeededMoves : List (Move (TxCall Watch Image Command Query) (TxReply QueryReply) Unit) :=
  [.spawn (Operation.createPipelineRun (Env.at 5 0) ⟨"etl", 1, "1", ""⟩).program, .step 0, .step 0,
    .spawn (Operation.setPipelineRunStatus (Env.at 6 1) 1 0 .succeeded "").program, .step 1, .step 1]

/-- The run is stored as succeeded. -/
def storedSucceeded (s : Server) : Bool :=
  (s.keys.runs.records.lookup 1).any (·.status == .succeeded)

theorem finish_times_of_success :
    (∀ done, done <+: succeededTrace → FinishTimes (replay done newMemoryStore).runs) ∧
    (∀ env before limit id run, (replay succeededTrace newMemoryStore).runs.lookup id = some run →
      (Memory.purge env (replay succeededTrace newMemoryStore) before limit).2.runs.lookup id = none →
      run.status.isTerminal = true) ∧
    ∃ s threads, Reach (backend.system FreshIDs) Server.Initial Uninterrupted s threads ∧
      storedSucceeded s = true ∧ FinishTimes s.keys.runs.records := by
  have hmoves : ∀ m ∈ succeededMoves, m.Spawns Uninterrupted := by
    intro m hm
    simp only [succeededMoves, List.mem_cons, List.not_mem_nil, or_false] at hm
    rcases hm with rfl | rfl | rfl | rfl | rfl | rfl <;>
      first | exact trivial | exact Uninterrupted.operation _
  have hends : (freshExecution.drive succeededMoves Server.empty []).any
      (fun final => storedSucceeded final.1) = true := by decide
  have hinitial : Server.Initial Server.empty := rfl
  obtain ⟨s, threads, run, htest⟩ := freshExecution.drive_reaches hmoves hinitial hends
  obtain ⟨hmemory, hpurge, hredis⟩ := finish_times succeededTrace s threads
  exact ⟨hmemory.mpr succeededTrace_neverReopens, hpurge succeededTrace_neverReopens,
    s, threads, run, htest, (hredis run).1⟩

/-- A succeeded run is set back to running. -/
def reopenedTrace : Trace :=
  [(.createPipelineRun ⟨"etl", 1, "1", ""⟩, Env.at 5 0),
    (.setPipelineRunStatus 1 0 .succeeded "", Env.at 6 1),
    (.setPipelineRunStatus 1 1 .running "", Env.at 7 1)]

/-- The in-memory store keeps the finish time of the running run, and `Purge` removes it. -/
theorem running_run_purged :
    ∃ run, (replay reopenedTrace newMemoryStore).runs.lookup 1 = some run ∧
      run.status = .running ∧ run.finishedAt ≠ none ∧
      (Memory.purge (Env.at 9 1) (replay reopenedTrace newMemoryStore) 8 0).2.runs.lookup 1 =
        none := by
  have htest : ((replay reopenedTrace newMemoryStore).runs.lookup 1).any (fun run =>
      run.status == .running && run.finishedAt.isSome) = true := by decide
  have hgone : (Memory.purge (Env.at 9 1) (replay reopenedTrace newMemoryStore) 8 0).2.runs.lookup
      1 = none := by decide
  simp only [Option.any_eq_true, Bool.and_eq_true, beq_iff_eq, Option.isSome_iff_ne_none] at htest
  obtain ⟨run, hrun, hs, hfinished⟩ := htest
  exact ⟨run, hrun, hs, hfinished, hgone⟩

end Ody.Redis
