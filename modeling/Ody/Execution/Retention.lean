import Ody.Execution.RecordInvariant

/-!
# Finish times and retention

`Purge` looks at finish times only, of runs and of standalone executions. It
removes the executions of a run together with the run, whatever their status. So
what `Purge` spares depends on who writes finish times: every status write of a
run has to set or clear them, and a run must not finish before its executions.
-/

namespace Ody.Memory

open Library.Tables

/-! ## Finish times of runs -/

/-- The run has a finish time exactly when it is finished. -/
def FinishTime (run : PipelineRun) : Prop :=
  run.finishedAt ≠ none ↔ run.status.isTerminal = true

/-- Every stored run has the right finish time. -/
def FinishTimes (runs : Table UUID PipelineRun) : Prop :=
  ∀ id run, runs.lookup id = some run → FinishTime run

/-- If the call writes the status of an unfinished run, it finds no finish time. -/
def FindsNoFinish (s : MemoryStore) : Call → Prop
  | .setPipelineRunStatus id revision status _ => status.isTerminal = false →
      ∀ run, s.runs.lookup id = some run → run.revision = revision → run.finishedAt = none
  | _ => True

theorem withStatus_finishTime {env : Env} {status : RunStatus} {errorText : String}
    {run : PipelineRun} (h : status.isTerminal = false → run.finishedAt = none) :
    FinishTime (withStatus env status errorText run) := by
  cases hs : status.isTerminal with
  | true => simp [FinishTime, withStatus, hs]
  | false => simp [FinishTime, withStatus, hs, h hs]

/-- One call keeps the finish times exactly when it finds none to clear. -/
theorem exec_finishTimes (env : Env) {s : MemoryStore} (h : FinishTimes s.runs) (c : Call) :
    FinishTimes (exec env s c).2.runs ↔ FindsNoFinish s c := by
  constructor
  · intro hafter
    cases c with
    | setPipelineRunStatus id revision status errorText =>
        intro hopen run hrun hrevision
        have hstored : (exec env s (.setPipelineRunStatus id revision status errorText)).2.runs.lookup
            id = some (withStatus env status errorText run) := by
          simp only [exec, setPipelineRunStatus, hrun, hrevision, ne_eq, not_true_eq_false, if_false]
          rw [putRun_lookup]
          exact if_pos (s.runs_keyed id run hrun).symm
        have hnone := hafter id _ hstored
        by_contra hsome
        have hterminal : status.isTerminal = true := hnone.mp (by simp [withStatus, hopen, hsome])
        exact absurd (hopen.symm.trans hterminal) (by simp)
    | _ => trivial
  · intro hc id run' hrun'
    cases exec_runEffect env s c id with
    | same hsame => exact h id run' (hsame ▸ hrun')
    | inserted _ hnew =>
        cases hnew.symm.trans hrun'
        simp [FinishTime, createdRun, RunStatus.isTerminal]
    | status hold hnew =>
        cases hnew.symm.trans hrun'
        exact withStatus_finishTime fun hopen => hc hopen _ hold rfl
    | reopened _ hnew =>
        cases hnew.symm.trans hrun'
        simp [FinishTime, reopened, RunStatus.isTerminal]
    | deleted hgone => exact absurd (hgone.symm.trans hrun') (by simp)

/-- Every call of the sequence finds no finish time to clear. -/
def NeverReopens : Trace → MemoryStore → Prop
  | [], _ => True
  | step :: rest, s => FindsNoFinish s step.1 ∧ NeverReopens rest (exec step.2 s step.1).2

/-- The finish times are right after every part of a sequence exactly when no call of it finds a
finish time to clear. -/
theorem replay_finishTimes (trace : Trace) {s : MemoryStore} (h : FinishTimes s.runs) :
    (∀ done, done <+: trace → FinishTimes (replay done s).runs) ↔ NeverReopens trace s := by
  induction trace generalizing s with
  | nil =>
      refine ⟨fun _ => trivial, fun _ done hdone => ?_⟩
      rw [List.prefix_nil.mp hdone]
      exact h
  | cons step rest ih =>
      constructor
      · intro hall
        have hfirst : FinishTimes (exec step.2 s step.1).2.runs := hall [step] ⟨rest, rfl⟩
        refine ⟨(exec_finishTimes step.2 h step.1).mp hfirst, (ih hfirst).mp ?_⟩
        intro done hdone
        exact hall (step :: done) ((List.prefix_cons_inj step).mpr hdone)
      · rintro ⟨hstep, hrest⟩ done hdone
        rcases List.prefix_cons_iff.mp hdone with rfl | ⟨tail, rfl, htail⟩
        · exact h
        · exact (ih ((exec_finishTimes step.2 h step.1).mpr hstep)).mpr hrest tail htail

/-! ## What `Purge` removes -/

section Removal

variable (env : Env) (s : MemoryStore)

/-- A round removes the run of its candidate and no other. -/
theorem purgeOne_runs (i : Nat) (result : PurgeResult) (candidate : Candidate) (id : UUID) :
    (purgeOne env i s result candidate).2.runs.lookup id =
      if candidate.pipeline = true ∧ candidate.id = id then none else s.runs.lookup id := by
  cases hp : candidate.pipeline with
  | true =>
      rw [(purgeOne_pipeline env s i result hp).2.2.2, lookup_erase_ite]
      exact if_congr (by simp [eq_comm]) rfl rfl
  | false => simp [purgeOne, hp]

theorem purgeLoop_runs (candidates : List Candidate) (i : Nat) (result : PurgeResult) (id : UUID) :
    (purgeLoop env i candidates result s).2.runs.lookup id =
      if ∃ candidate ∈ candidates, candidate.pipeline = true ∧ candidate.id = id then none
      else s.runs.lookup id := by
  induction candidates generalizing i result s with
  | nil => simp [purgeLoop]
  | cons candidate rest ih =>
      have hround : (purgeLoop env i (candidate :: rest) result s).2.runs.lookup id = _ :=
        ih (purgeOne env i s result candidate).2 (i + 1) (purgeOne env i s result candidate).1
      rw [hround, purgeOne_runs]
      by_cases hrest : ∃ other ∈ rest, other.pipeline = true ∧ other.id = id
      · have hall : ∃ other ∈ candidate :: rest, other.pipeline = true ∧ other.id = id := by
          obtain ⟨other, hmem, h⟩ := hrest
          exact ⟨other, List.mem_cons_of_mem _ hmem, h⟩
        rw [if_pos hrest, if_pos hall]
      · rw [if_neg hrest]
        refine if_congr ?_ rfl rfl
        simp only [List.exists_mem_cons_iff, hrest, or_false]

/-- The candidates that are runs: those that finished before the bound. -/
theorem mem_purgeCandidates_run {before : Time} {limit : Int} {candidate : Candidate}
    (h : candidate ∈ purgeCandidates env s before limit) (hp : candidate.pipeline = true) :
    ∃ run, s.runs.lookup candidate.id = some run ∧ run.finishedAt = some candidate.finished ∧
      candidate.finished < before := by
  obtain ⟨hbefore, hstored⟩ := finished_of_mem env s h
  rw [hp] at hstored
  obtain ⟨run, hrun, hfinished⟩ := hstored
  exact ⟨run, hrun, hfinished, hbefore⟩

/-- The candidates that are executions: standalone ones that finished before the bound. -/
theorem mem_purgeCandidates_execution {before : Time} {limit : Int} {candidate : Candidate}
    (h : candidate ∈ purgeCandidates env s before limit) (hp : candidate.pipeline = false) :
    ∃ item, s.executions.lookup candidate.id = some item ∧ item.finishedAt ≠ none := by
  obtain ⟨-, hstored⟩ := finished_of_mem env s h
  rw [hp] at hstored
  obtain ⟨item, hitem, -, hfinished⟩ := hstored
  exact ⟨item, hitem, by simp [hfinished]⟩

/-- A removed run had finished. -/
theorem purge_removed_run {before : Time} {limit : Int} {id : UUID} {run : PipelineRun}
    (hrun : s.runs.lookup id = some run)
    (hgone : (purge env s before limit).2.runs.lookup id = none) : run.finishedAt ≠ none := by
  have hruns : (purge env s before limit).2.runs.lookup id = _ :=
    purgeLoop_runs env s (purgeCandidates env s before limit) 1 ⟨0, 0⟩ id
  rw [hgone, hrun] at hruns
  split at hruns
  · next hcandidate =>
    obtain ⟨candidate, hmem, hp, rfl⟩ := hcandidate
    obtain ⟨stored, hstored, hfinished, -⟩ := mem_purgeCandidates_run env s hmem hp
    cases hrun.symm.trans hstored
    simp [hfinished]
  · cases hruns

/-- A purge with a late bound and a large limit removes a finished run. -/
theorem purge_finished_run {id : UUID} {run : PipelineRun} {finished : Time}
    (hrun : s.runs.lookup id = some run) (hfinished : run.finishedAt = some finished) :
    ∃ limit, (purge env s (finished + 1) limit).2.runs.lookup id = none := by
  let sorted := ((s.runItems env 0).filterMap (runCandidate (finished + 1)) ++
    (s.items env 0).filterMap (executionCandidate (finished + 1))).insertionSort
      fun a b => a.finished ≤ b.finished
  have hmem : (⟨id, finished, true⟩ : Candidate) ∈ sorted := by
    rw [List.mem_insertionSort, mem_allCandidates]
    exact ⟨Int.lt_succ finished, run, hrun, hfinished⟩
  have hpos : 0 < (sorted.length : Int) := by
    have := List.length_pos_of_mem hmem
    omega
  refine ⟨sorted.length, ?_⟩
  have hcandidates : purgeCandidates env s (finished + 1) sorted.length = sorted := by
    change sorted.take _ = sorted
    rw [if_neg (by omega), Int.toNat_natCast, List.take_length]
  have hruns : (purge env s (finished + 1) sorted.length).2.runs.lookup id = _ :=
    purgeLoop_runs env s (purgeCandidates env s (finished + 1) sorted.length) 1 ⟨0, 0⟩ id
  rw [hruns, hcandidates, if_pos ⟨_, hmem, rfl, rfl⟩]

/-! ## Executions that `Purge` keeps -/

/-- The candidate takes the execution away, alone or with its run. -/
def Candidate.covers (candidate : Candidate) (item : Execution) : Prop :=
  if candidate.pipeline = true then item.pipelineRunID = some candidate.id
  else item.id = candidate.id

variable {s}

theorem deleteAll_kept {items : List Execution} {id : UUID} (h : id ∉ items.map (·.id))
    (s : MemoryStore) :
    (items.foldl (fun s item => s.deleteExecution item.id item) s).executions.lookup id =
      s.executions.lookup id := by
  induction items generalizing s with
  | nil => rfl
  | cons item rest ih =>
      rw [List.map_cons, List.mem_cons, not_or] at h
      rw [List.foldl_cons, ih h.2, deleteExecution_lookup, if_neg h.1]

theorem purgeOne_kept {i : Nat} {result : PurgeResult} {candidate : Candidate} {item : Execution}
    (hl : s.executions.lookup item.id = some item) (h : ¬ candidate.covers item) :
    (purgeOne env i s result candidate).2.executions.lookup item.id = some item := by
  unfold Candidate.covers at h
  cases hp : candidate.pipeline with
  | true =>
      simp only [hp, if_true] at h
      rw [(purgeOne_pipeline env s i result hp).1]
      refine (deleteAll_kept ?_ s).trans hl
      intro hmem
      obtain ⟨other, hother, hid⟩ := List.mem_map.mp hmem
      rw [List.mem_filter, mem_items, beq_iff_eq] at hother
      rw [hid, hl] at hother
      cases hother.1
      exact h hother.2
  | false =>
      simp only [hp, Bool.false_eq_true, if_false] at h
      simp only [purgeOne, hp, Bool.false_eq_true, if_false]
      rw [deleteExecution_lookup, if_neg h]
      exact hl

theorem purgeLoop_kept {candidates : List Candidate} {i : Nat} {result : PurgeResult}
    {item : Execution} (hl : s.executions.lookup item.id = some item)
    (h : ∀ candidate ∈ candidates, ¬ candidate.covers item) :
    (purgeLoop env i candidates result s).2.executions.lookup item.id = some item := by
  induction candidates generalizing i result s with
  | nil => exact hl
  | cons candidate rest ih =>
      exact ih (purgeOne_kept env hl (h candidate (by simp)))
        fun other hmem => h other (List.mem_cons_of_mem _ hmem)

/-- Every purge spares the unresolved executions exactly when every run with a finish time has
resolved executions only. -/
theorem purge_spares_iff (hrecords : ∀ id item, s.executions.lookup id = some item →
    RecordInvariant item) :
    (∀ env before limit item, s.executions.lookup item.id = some item →
      item.status.isTerminal = false →
      (purge env s before limit).2.executions.lookup item.id = some item) ↔
    ∀ id run, s.runs.lookup id = some run → run.finishedAt ≠ none →
      ∀ item, s.executions.lookup item.id = some item → item.pipelineRunID = some id →
        item.status.isTerminal = true := by
  constructor
  · intro hspares id run hrun hfinished item hl hrunID
    let env := Env.at zeroTime 0
    obtain ⟨finished, hfinished⟩ := Option.ne_none_iff_exists'.mp hfinished
    obtain ⟨limit, hgone⟩ := purge_finished_run env s hrun hfinished
    by_contra hopen
    have hkept := hspares env (finished + 1) limit item hl (Bool.eq_false_iff.mpr hopen)
    rcases purge_run env s (finished + 1) limit id with hpurged | hkeeps
    · exact hpurged.2 item.id item hkept hrunID
    · exact absurd (hgone.symm.trans (hkeeps.run.trans hrun)) (by simp)
  · intro hruns env before limit item hl hopen
    apply purgeLoop_kept env hl
    intro candidate hmem hcovers
    unfold Candidate.covers at hcovers
    cases hp : candidate.pipeline with
    | true =>
        simp only [hp, if_true] at hcovers
        obtain ⟨run, hrun, hfinished, -⟩ := mem_purgeCandidates_run env s hmem hp
        have hterminal := hruns candidate.id run hrun (by simp [hfinished]) item hl hcovers
        exact absurd (hopen.symm.trans hterminal) (by simp)
    | false =>
        simp only [hp, Bool.false_eq_true, if_false] at hcovers
        obtain ⟨stored, hstored, hfinished⟩ := mem_purgeCandidates_execution env s hmem hp
        rw [← hcovers, hl] at hstored
        cases hstored
        have hterminal := (hrecords item.id item hl).finished.mp hfinished
        exact absurd (hopen.symm.trans hterminal) (by simp)

end Removal

end Ody.Memory
