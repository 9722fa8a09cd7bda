import Ody.Execution.Retention
import Ody.Pipeline.Gating
import Ody.Pipeline.SuccessSoundness

/-!
# Work that `Purge` must keep

`Purge` removes a finished run with all its executions. A run can finish while
some of them are unresolved: `advanceOnce` marks a run failed as soon as one node
has failed, `Cancel` skips blocked nodes, and a stale `advanceOnce` creates a node
in a run that has finished. If no status write finishes a run before its
executions are resolved, and no execution is created in a finished run, `Purge`
keeps all unresolved work.
-/

namespace Ody.Pipeline

open Library.Tables Library.Interleaving Memory

/-- The run and the revision of a write that finishes a run. -/
def finishMark : Call → Option (UUID × Nat)
  | .setPipelineRunStatus id revision status _ =>
      if status.isTerminal then some (id, revision) else none
  | _ => none

/-- The run for which the call creates an execution. -/
def createdFor (s : MemoryStore) : Call → Option UUID
  | .createExecution request => if existing s request = none then request.pipelineRunID else none
  | _ => none

/-- If the call finishes a run, it finds the executions of the run resolved. -/
def FinishesResolved (s : MemoryStore) (c : Call) : Prop :=
  ∀ mark ∈ finishMark c, ∀ run ∈ s.runs.lookup mark.1, run.revision = mark.2 →
    ∀ item, Member s mark.1 item → item.status.isTerminal = true

/-- If the call creates an execution for a run, it finds no finish time. -/
def CreatesUnfinished (s : MemoryStore) (c : Call) : Prop :=
  ∀ runID ∈ createdFor s c, ∀ run ∈ s.runs.lookup runID, run.finishedAt = none

instance (s : MemoryStore) (c : Call) : Decidable (FinishesResolved s c) :=
  inferInstanceAs (Decidable (∀ mark ∈ finishMark c, ∀ run ∈ s.runs.lookup mark.1,
    run.revision = mark.2 → ∀ item, Member s mark.1 item → _))

instance (s : MemoryStore) (c : Call) : Decidable (CreatesUnfinished s c) :=
  inferInstanceAs (Decidable (∀ runID ∈ createdFor s c, _))

/-- The store, in the interleavings in which runs finish after their executions. -/
def retainedSystem : System World Unit Call Reply :=
  { storeSystem with
    allowed := fun w _ c => FinishesResolved w.store c ∧ CreatesUnfinished w.store c }

/-- The executions of a run with a finish time are resolved. -/
structure Retained (w : World) : Prop where
  known : w.Known
  records : ∀ id item, w.store.executions.lookup id = some item → RecordInvariant item
  resolved : ∀ id run, w.store.runs.lookup id = some run → run.finishedAt ≠ none →
    ∀ item, Member w.store id item → item.status.isTerminal = true

/-- A resolved execution stays resolved as long as its run keeps a finish time. -/
theorem resolved_of_origin {w : World} (hknown : w.Known) {env : Env} (hfresh : env.Fresh w)
    {c : Call} {id : UUID} {old item : Execution} (hold : Member w.store id old)
    (hterminal : old.status.isTerminal = true) (hm : Member (w.after env c).store id item)
    (hid : item.id = old.id) {run : PipelineRun}
    (hrun : (w.after env c).store.runs.lookup id = some run) (hfinished : run.finishedAt ≠ none) :
    item.status.isTerminal = true := by
  rcases resolved_after (c := c) hfresh hknown hold hterminal with
    hkept | ⟨request, -, rfl, hrestarts⟩ | ⟨-, hpurged⟩
  · have hl := hm.1
    rw [hid, hkept.1] at hl
    cases hl
    exact hterminal
  · obtain ⟨before, -, hreopened⟩ := hrestarts.run
    cases hreopened.symm.trans hrun
    exact absurd rfl hfinished
  · exact absurd (hpurged.1.symm.trans hrun) (by simp)

theorem Retained.after {w : World} (h : Retained w) {env : Env} (hfresh : env.Fresh w) {c : Call}
    (hfinishes : FinishesResolved w.store c) (hcreates : CreatesUnfinished w.store c) :
    Retained (w.after env c) := by
  refine ⟨h.known.after env c, exec_recordInvariant env w.store c h.records, ?_⟩
  intro id run' hrun' hfinished item hm
  have hlookup : (exec env w.store c).2.runs.lookup id = some run' := hrun'
  cases exec_runEffect env w.store c id with
  | same hsame =>
      have hrun : w.store.runs.lookup id = some run' := hsame ▸ hlookup
      cases member_origin hm with
      | kept hold => exact h.resolved id run' hrun hfinished _ hold
      | moved hold t =>
          have hterminal := h.resolved id run' hrun hfinished _ hold
          exact resolved_of_origin h.known hfresh hold hterminal hm t.id_eq hrun' hfinished
      | created _ hnew hrunID =>
          have hnone := hcreates id (by simp [createdFor, hnew, hrunID]) run' hrun
          exact absurd hnone hfinished
  | inserted _ hnew =>
      cases hnew.symm.trans hlookup
      exact absurd rfl hfinished
  | @status run status text hold hnew =>
      cases hnew.symm.trans hlookup
      have hmember : Member w.store run.id item := by
        cases member_origin hm with
        | kept hold => exact hold
        | moved _ t => cases t
      cases hs : status.isTerminal with
      | true =>
          have hmark : finishMark (.setPipelineRunStatus run.id run.revision status text) =
              some (run.id, run.revision) := if_pos hs
          exact hfinishes _ hmark run hold rfl item hmember
      | false =>
          have hbefore : run.finishedAt ≠ none := by simpa [withStatus, hs] using hfinished
          exact h.resolved _ run hold hbefore item hmember
  | reopened _ hnew =>
      cases hnew.symm.trans hlookup
      exact absurd rfl hfinished
  | deleted hgone => exact absurd (hgone.symm.trans hlookup) (by simp)

theorem retained_of_reach {Spawn : Program Call Reply Unit → Prop} {w : World}
    {threads : List (Thread Unit Call Reply Unit)}
    (h : Reach retainedSystem World.Initial Spawn w threads) : Retained w := by
  apply h.invariant
  · rintro w ⟨clock, rfl⟩
    exact ⟨World.init_known clock, by simp [World.init, newMemoryStore],
      by simp [World.init, newMemoryStore]⟩
  · rintro w g c r w' hretained ⟨hfinishes, hcreates⟩ ⟨env, hfresh, rfl, rfl⟩
    exact hretained.after hfresh hfinishes hcreates

/-- In every interleaving of any clients in which runs finish after their executions and get no
execution afterwards, no purge removes an unresolved execution. -/
theorem purge_keeps_unresolved {Spawn : Program Call Reply Unit → Prop} {w : World}
    {threads : List (Thread Unit Call Reply Unit)}
    (h : Reach retainedSystem World.Initial Spawn w threads) (env : Env) (before : Time)
    (limit : Int) {item : Execution} (hitem : w.store.executions.lookup item.id = some item)
    (hopen : item.status.isTerminal = false) :
    (purge env w.store before limit).2.executions.lookup item.id = some item := by
  have hretained := retained_of_reach h
  refine (purge_spares_iff hretained.records).mpr ?_ env before limit item hitem hopen
  intro id run hrun hfinished item hl hrunID
  exact hretained.resolved id run hrun hfinished item ⟨hl, hrunID⟩

/-! ## Two purges -/

/-- Execute the steps in which runs finish after their executions. -/
def retainedExecution : Library.Interleaving.Execution retainedSystem where
  exec := storeExecution.exec
  ready := fun w _ c => decide (FinishesResolved w.store c ∧ CreatesUnfinished w.store c)
  allowed := by
    intro w g c h
    have hallowed : FinishesResolved w.store c ∧ CreatesUnfinished w.store c := of_decide_eq_true h
    exact hallowed
  step := fun w g c _ => storeExecution.step w g c rfl

/-- A run fails with its only execution, and a standalone execution waits. -/
def waitingMoves : List (Move Call Reply Unit) :=
  .spawn (run etlRegistry etl (.ok "1") []).discard :: List.replicate 6 (.step 0) ++
  [.spawn (.single claimAny), .step 1, .spawn (.single (.fail 2 3 "no source")), .step 2,
    .spawn (advance etlRegistry 1).discard, .step 3, .step 3, .step 3,
    .spawn (.single (.createExecution standaloneRequest)), .step 4]

theorem purge_keeps_unresolved_of_waitingMoves :
    ∃ (w : World) (threads : List (Thread Unit Call Reply Unit)) (item : Execution),
      Reach retainedSystem World.Initial (Client etlRegistry 1) w threads ∧
      w.store.executions.lookup item.id = some item ∧ item.status = .pending ∧
      ∀ env before limit,
        (purge env w.store before limit).2.executions.lookup item.id = some item := by
  have hclaim : Client etlRegistry 1 (.single claimAny) := .call _ trivial
  have hextract : Client etlRegistry 1 (.single (.fail 2 3 "no source")) := .call _ trivial
  have hcreate : Client etlRegistry 1 (.single (.createExecution standaloneRequest)) :=
    .call _ (by simp [Outside, standaloneRequest])
  have hmoves : ∀ m ∈ waitingMoves, m.Spawns (Client etlRegistry 1) := by
    simp [waitingMoves, Move.Spawns, Client.run, Client.advance, hclaim, hextract, hcreate]
  have hends : (retainedExecution.drive waitingMoves (World.init 5) []).any (fun final =>
      (final.1.store.executions.lookup 4).any (·.status == .pending)) = true := by decide
  obtain ⟨w, threads, hreach, hwaiting⟩ :=
    retainedExecution.drive_configuration hmoves (World.init_initial 5) hends
  simp only [Option.any_eq_true, beq_iff_eq] at hwaiting
  obtain ⟨item, hl, hs⟩ := hwaiting
  have hitem : w.store.executions.lookup item.id = some item := by
    rw [w.store.executions_keyed 4 item hl]
    exact hl
  refine ⟨w, threads, item, hreach, hitem, hs, fun env before limit => ?_⟩
  exact purge_keeps_unresolved hreach env before limit hitem (by simp [hs, Status.isTerminal])

/-- One of two independent nodes fails, and an advance marks the run failed. -/
def failedFork : List (Move Call Reply Unit) :=
  .spawn (run forkRegistry fork (.ok "1") []).discard :: List.replicate 7 (.step 0) ++
  [.spawn (.single (claimTask "left")), .step 1, .spawn (.single (.fail 2 4 "no source")), .step 2,
    .spawn (advance forkRegistry 1).discard, .step 3, .step 3, .step 3]

/-- The other node is pending and the next purge removes it. -/
def pendingPurged (w : World) : Bool :=
  (w.store.executions.lookup 3).any (fun item =>
    item.pipelineRunID == some 1 && item.status == .pending) &&
  !(purge w.env w.store 8 0).2.executions.keys.contains 3

/-- A purge removes a pending node of a failed run. -/
theorem pending_node_purged :
    ∃ (w : World) (threads : List (Thread Unit Call Reply Unit)) (item : Execution),
      Reach storeSystem World.Initial (Client forkRegistry 1) w threads ∧
      Member w.store 1 item ∧ item.status = .pending ∧
      ∃ env before limit, (purge env w.store before limit).2.executions.lookup item.id = none := by
  have hclaim : Client forkRegistry 1 (.single (claimTask "left")) := .call _ trivial
  have hfail : Client forkRegistry 1 (.single (.fail 2 4 "no source")) := .call _ trivial
  have hmoves : ∀ m ∈ failedFork, m.Spawns (Client forkRegistry 1) := by
    simp [failedFork, Move.Spawns, Client.run, Client.advance, hclaim, hfail]
  have hends : (storeExecution.drive failedFork (World.init 5) []).any
      (fun final => pendingPurged final.1) = true := by decide +kernel
  obtain ⟨w, threads, hreach, hpurged⟩ :=
    storeExecution.drive_reaches hmoves (World.init_initial 5) hends
  simp only [pendingPurged, Bool.and_eq_true, Option.any_eq_true, beq_iff_eq, Bool.not_eq_true',
    List.contains_eq_mem, decide_eq_false_iff_not] at hpurged
  obtain ⟨⟨item, hl, hrunID, hs⟩, hgone⟩ := hpurged
  have hid := w.store.executions_keyed 3 item hl
  refine ⟨w, threads, item, hreach, ⟨hid ▸ hl, hrunID⟩, hs, w.env, 8, 0, ?_⟩
  rw [hid]
  exact AList.lookup_eq_none.mpr hgone

end Ody.Pipeline
