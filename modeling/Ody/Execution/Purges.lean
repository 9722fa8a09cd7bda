import Ody.Execution.ReferenceIndexes
import Ody.Execution.Retention
import Ody.Library.Removal
import Ody.Library.Selection

/-!
# What a purge removes

`Purge` sorts finished runs and finished standalone executions by their finish
times and removes the first ones up to a limit; a run takes its executions along.
The references of what goes are erased by keys that are computed again from the
records. The result is the store without these records, their histories and their
references, and nothing else changes.
-/

namespace Ody.Memory

open Library.Tables Library.DerivedIndexes Library.Removal Library.Selection

/-! ## Stores with records removed -/

/-- The second store is the first one without some executions and runs, the histories of the
executions and the references of both. -/
structure Removes (deleted : Set Execution) (forgotten : Set PipelineRun) (s s' : MemoryStore) :
    Prop where
  executions : Without {id | ∃ item ∈ deleted, item.id = id} s.executions s'.executions
  events : Without {id | ∃ item ∈ deleted, item.id = id} s.events s'.events
  runs : Without {id | ∃ run ∈ forgotten, run.id = id} s.runs s'.runs
  idempotent : Without {ref | ∃ item ∈ deleted, keyOf item = some ref} s.idempotent s'.idempotent
  nodes : Without {ref | ∃ item ∈ deleted, item.pipelineRunID = some ref.1 ∧ item.nodeKey = ref.2}
    s.nodes s'.nodes
  runIdempotent : Without {ref | ∃ run ∈ forgotten, runKeyOf run = some ref} s.runIdempotent
    s'.runIdempotent

section Removes

variable {deleted deleted' : Set Execution} {forgotten forgotten' : Set PipelineRun}
  {s s' s'' : MemoryStore}

theorem Removes.refl (s : MemoryStore) : Removes ∅ ∅ s s := by
  constructor <;> simpa using Without.refl _

theorem exists_mem_union {α β : Type} (a b : Set α) (p : α → β → Prop) :
    {y | ∃ x ∈ a ∪ b, p x y} = {y | ∃ x ∈ a, p x y} ∪ {y | ∃ x ∈ b, p x y} := by
  ext y
  simp [or_and_right, exists_or]

/-- Two removals remove what either of them does. -/
theorem Removes.trans (h : Removes deleted forgotten s s')
    (h' : Removes deleted' forgotten' s' s'') :
    Removes (deleted ∪ deleted') (forgotten ∪ forgotten') s s'' := by
  constructor <;> rw [exists_mem_union]
  · exact h.executions.union h'.executions
  · exact h.events.union h'.events
  · exact h.runs.union h'.runs
  · exact h.idempotent.union h'.idempotent
  · exact h.nodes.union h'.nodes
  · exact h.runIdempotent.union h'.runIdempotent

end Removes

section Records

variable (s : MemoryStore)

theorem deleteExecution_removes (item : Execution) :
    Removes {item} ∅ s (s.deleteExecution item.id item) := by
  have hruns : (s.deleteExecution item.id item).runIdempotent = s.runIdempotent := by
    unfold MemoryStore.deleteExecution
    repeat' split
    all_goals rfl
  constructor
  case executions =>
    rw [deleteExecution_executions]
    simpa [eq_comm] using Without.erase s.executions item.id
  case events =>
    rw [deleteExecution_events]
    simpa [eq_comm] using Without.erase s.events item.id
  case runs => simpa using Without.refl s.runs
  case idempotent => simpa using Without.of_ite fun ref => deleteExecution_idempotent item.id ref
  case nodes => simpa using Without.of_ite fun ref => deleteExecution_nodes_ite item.id ref
  case runIdempotent =>
    rw [hruns]
    simpa using Without.refl s.runIdempotent

theorem deleteAll_removes (items : List Execution) :
    Removes {item | item ∈ items} ∅ s
      (items.foldl (fun s item => s.deleteExecution item.id item) s) := by
  induction items generalizing s with
  | nil => simpa using Removes.refl s
  | cons item rest ih =>
      have hboth := (deleteExecution_removes s item).trans (ih (s.deleteExecution item.id item))
      rw [Set.union_empty] at hboth
      have hset : {item} ∪ {other | other ∈ rest} = {other | other ∈ item :: rest} := by
        ext other
        simp
      rw [← hset]
      exact hboth

theorem forgetRun_removes (run : PipelineRun) : Removes ∅ {run} s (forgetRun s run.id run) := by
  have hkept : (forgetRun s run.id run).executions = s.executions ∧
      (forgetRun s run.id run).events = s.events ∧
      (forgetRun s run.id run).idempotent = s.idempotent ∧
      (forgetRun s run.id run).nodes = s.nodes ∧
      (forgetRun s run.id run).runs = s.runs.erase run.id := by
    unfold forgetRun
    split <;> exact ⟨rfl, rfl, rfl, rfl, rfl⟩
  obtain ⟨hexecutions, hevents, hidempotent, hnodes, hruns⟩ := hkept
  constructor
  case executions =>
    rw [hexecutions]
    simpa using Without.refl s.executions
  case events =>
    rw [hevents]
    simpa using Without.refl s.events
  case runs =>
    rw [hruns]
    simpa [eq_comm] using Without.erase s.runs run.id
  case idempotent =>
    rw [hidempotent]
    simpa using Without.refl s.idempotent
  case nodes =>
    rw [hnodes]
    simpa using Without.refl s.nodes
  case runIdempotent =>
    simpa using Without.of_ite fun ref => forgetRun_runIdempotent s run.id run ref

end Records

/-! ## Rounds -/

/-- The record of a candidate is stored; a standalone one belongs to no run. -/
def StoredCandidate (s : MemoryStore) (candidate : Candidate) : Prop :=
  match candidate.pipeline with
  | true => ∃ run, s.runs.lookup candidate.id = some run
  | false => ∃ item, s.executions.lookup candidate.id = some item ∧ item.pipelineRunID = none

/-- The stored executions that some candidate takes away, alone or with its run. -/
def deletedBy (s : MemoryStore) (candidates : List Candidate) : Set Execution :=
  {item | s.executions.lookup item.id = some item ∧ ∃ candidate ∈ candidates, candidate.covers item}

/-- The stored runs among the candidates. -/
def forgottenBy (s : MemoryStore) (candidates : List Candidate) : Set PipelineRun :=
  {run | s.runs.lookup run.id = some run ∧
    ∃ candidate ∈ candidates, candidate.pipeline = true ∧ candidate.id = run.id}

/-- What was counted is what has left the store. -/
structure Counts (s s' : MemoryStore) (result result' : PurgeResult) : Prop where
  executions : result'.executions + size s'.executions = result.executions + size s.executions
  runs : result'.pipelineRuns + size s'.runs = result.pipelineRuns + size s.runs

theorem Counts.trans {s s' s'' : MemoryStore} {result result' result'' : PurgeResult}
    (h : Counts s s' result result') (h' : Counts s' s'' result' result'') :
    Counts s s'' result result'' where
  executions := h'.executions.trans h.executions
  runs := h'.runs.trans h.runs

section Rounds

variable (env : Env) {s : MemoryStore} (i : Nat) (result : PurgeResult) {candidate : Candidate}

theorem size_deleteAll {items : List Execution} (hids : (items.map (·.id)).Nodup)
    (hstored : ∀ item ∈ items, s.executions.lookup item.id = some item) :
    items.length + size (items.foldl (fun s item => s.deleteExecution item.id item) s).executions =
      size s.executions := by
  induction items generalizing s with
  | nil => simp
  | cons item rest ih =>
      obtain ⟨hnew, hrest⟩ := List.nodup_cons.mp hids
      have hothers : ∀ other ∈ rest,
          (s.deleteExecution item.id item).executions.lookup other.id = some other := by
        intro other hother
        have hne : other.id ≠ item.id := fun heq => hnew (List.mem_map.mpr ⟨other, hother, heq⟩)
        rw [deleteExecution_lookup, if_neg hne]
        exact hstored other (List.mem_cons_of_mem item hother)
      have hloop := ih hrest hothers
      have hmem : item.id ∈ s.executions := by
        rw [← AList.lookup_isSome, hstored item (List.mem_cons_self ..)]
        rfl
      have herase := size_erase hmem
      rw [deleteExecution_executions] at hloop
      rw [List.foldl_cons, List.length_cons]
      omega

/-- A round for a run removes the run and its executions. -/
theorem purgeOne_removes_run (hp : candidate.pipeline = true) (hc : StoredCandidate s candidate) :
    Removes (deletedBy s [candidate]) (forgottenBy s [candidate]) s
        (purgeOne env i s result candidate).2 ∧
      Counts s (purgeOne env i s result candidate).2 result
        (purgeOne env i s result candidate).1 := by
  rw [StoredCandidate, hp] at hc
  obtain ⟨run, hrun⟩ := hc
  have hid := s.runs_keyed _ _ hrun
  let nodes := (s.items env i).filter (·.pipelineRunID == some candidate.id)
  let s' := nodes.foldl (fun s item => s.deleteExecution item.id item) s
  have hmem : ∀ item, item ∈ nodes ↔
      s.executions.lookup item.id = some item ∧ item.pipelineRunID = some candidate.id := by
    intro item
    rw [List.mem_filter, mem_items, beq_iff_eq]
  have hnodes : (nodes.map (·.id)).Nodup :=
    (items_ids_nodup s env i).sublist (List.filter_sublist.map _)
  have hruns : s'.runs = s.runs := purgeNodes_runs env s i candidate.id
  have hround : purgeOne env i s result candidate =
      (⟨result.executions + nodes.length, result.pipelineRuns + 1⟩, forgetRun s' run.id run) := by
    simp only [purgeOne, hp, if_true, hrun, Option.getD_some, hid]
    rfl
  rw [hround]
  constructor
  · have hboth := (deleteAll_removes s nodes).trans (forgetRun_removes s' run)
    rw [Set.union_empty, Set.empty_union] at hboth
    have hdeleted : deletedBy s [candidate] = {item | item ∈ nodes} := by
      ext item
      simp [deletedBy, Candidate.covers, hp, hmem]
    have hforgotten : forgottenBy s [candidate] = {run} := by
      ext other
      simp only [forgottenBy, hp, List.mem_singleton, exists_eq_left, true_and, Set.mem_ofPred_eq,
        Set.mem_singleton_iff]
      constructor
      · rintro ⟨hother, hsame⟩
        rw [← hsame, hrun] at hother
        exact (Option.some.inj hother).symm
      · rintro rfl
        exact ⟨hid ▸ hrun, hid.symm⟩
    rw [hdeleted, hforgotten]
    exact hboth
  · have hforget : (forgetRun s' run.id run).executions = s'.executions ∧
        (forgetRun s' run.id run).runs = s.runs.erase run.id := by
      rw [← hruns]
      unfold forgetRun
      split <;> exact ⟨rfl, rfl⟩
    have hrunmem : run.id ∈ s.runs := by
      rw [← AList.lookup_isSome, hid, hrun]
      rfl
    have hsize := size_deleteAll hnodes fun item hitem => ((hmem item).mp hitem).1
    have herase := size_erase hrunmem
    constructor
    · rw [hforget.1]
      change result.executions + nodes.length + size s'.executions = _
      change nodes.length + size s'.executions = _ at hsize
      omega
    · rw [hforget.2]
      change result.pipelineRuns + 1 + _ = _
      omega

/-- A round for a standalone execution removes this execution. -/
theorem purgeOne_removes_execution (hp : candidate.pipeline = false)
    (hc : StoredCandidate s candidate) :
    Removes (deletedBy s [candidate]) (forgottenBy s [candidate]) s
        (purgeOne env i s result candidate).2 ∧
      Counts s (purgeOne env i s result candidate).2 result
        (purgeOne env i s result candidate).1 := by
  rw [StoredCandidate, hp] at hc
  obtain ⟨item, hl, hnone⟩ := hc
  have hid := s.executions_keyed _ _ hl
  have hround : purgeOne env i s result candidate =
      (⟨result.executions + 1, result.pipelineRuns⟩, s.deleteExecution item.id item) := by
    simp only [purgeOne, hp, Bool.false_eq_true, if_false, hl, Option.getD_some, hid]
  rw [hround]
  constructor
  · have hdeleted : deletedBy s [candidate] = {item} := by
      ext other
      simp only [deletedBy, Candidate.covers, hp, List.mem_singleton, exists_eq_left,
        Bool.false_eq_true, if_false, Set.mem_ofPred_eq, Set.mem_singleton_iff]
      constructor
      · rintro ⟨hother, hsame⟩
        rw [hsame, hl] at hother
        exact (Option.some.inj hother).symm
      · rintro rfl
        exact ⟨hid ▸ hl, hid⟩
    have hforgotten : forgottenBy s [candidate] = ∅ := by
      ext run
      simp [forgottenBy, hp]
    rw [hdeleted, hforgotten]
    exact deleteExecution_removes s item
  · have hmem : item.id ∈ s.executions := by
      rw [← AList.lookup_isSome, hid, hl]
      rfl
    have herase := size_erase hmem
    constructor
    · rw [deleteExecution_executions]
      change result.executions + 1 + _ = _
      omega
    · rw [deleteExecution_runs]

theorem purgeOne_removes (hc : StoredCandidate s candidate) :
    Removes (deletedBy s [candidate]) (forgottenBy s [candidate]) s
        (purgeOne env i s result candidate).2 ∧
      Counts s (purgeOne env i s result candidate).2 result
        (purgeOne env i s result candidate).1 := by
  cases hp : candidate.pipeline with
  | true => exact purgeOne_removes_run env i result hp hc
  | false => exact purgeOne_removes_execution env i result hp hc

end Rounds

/-! ## The loop -/

section Loop

variable {s t : MemoryStore} {candidate : Candidate} {rest : List Candidate}
  (h : Removes (deletedBy s [candidate]) (forgottenBy s [candidate]) s t)

include h

/-- An execution that the candidate does not take away is still stored. -/
theorem Removes.kept_execution {item : Execution} (hl : s.executions.lookup item.id = some item)
    (hcovers : ¬candidate.covers item) : t.executions.lookup item.id = some item := by
  rw [h.executions.kept item.id ?_, hl]
  rintro ⟨other, ⟨hother, candidate', hcandidate', hcovers'⟩, hid⟩
  rw [hid, hl] at hother
  cases hother
  rw [List.mem_singleton.mp hcandidate'] at hcovers'
  exact hcovers hcovers'

theorem Removes.kept_run {run : PipelineRun} (hrun : s.runs.lookup run.id = some run)
    (hother : ¬(candidate.pipeline = true ∧ candidate.id = run.id)) :
    t.runs.lookup run.id = some run := by
  rw [h.runs.kept run.id ?_, hrun]
  rintro ⟨run', ⟨-, candidate', hcandidate', hp, hid'⟩, hid⟩
  rw [List.mem_singleton.mp hcandidate'] at hp hid'
  exact hother ⟨hp, hid'.trans hid⟩

/-- A round leaves the records of the other candidates. -/
theorem StoredCandidate.later {other : Candidate} (hc : StoredCandidate s other)
    (hne : (other.pipeline, other.id) ≠ (candidate.pipeline, candidate.id)) :
    StoredCandidate t other := by
  unfold StoredCandidate at hc ⊢
  cases hp : other.pipeline with
  | true =>
      rw [hp] at hc hne
      obtain ⟨run, hrun⟩ := hc
      have hid := s.runs_keyed _ _ hrun
      refine ⟨run, hid ▸ h.kept_run (hid ▸ hrun) ?_⟩
      rintro ⟨hp', hid'⟩
      exact hne (by rw [hp', hid', hid])
  | false =>
      rw [hp] at hc hne
      obtain ⟨item, hl, hnone⟩ := hc
      have hid := s.executions_keyed _ _ hl
      refine ⟨item, hid ▸ h.kept_execution (hid ▸ hl) ?_, hnone⟩
      unfold Candidate.covers
      cases hp' : candidate.pipeline with
      | true => simp [hnone]
      | false =>
          rw [hp'] at hne
          simpa [hid] using hne

theorem deletedBy_cons :
    deletedBy s (candidate :: rest) = deletedBy s [candidate] ∪ deletedBy t rest := by
  ext item
  constructor
  · rintro ⟨hl, other, hother, hcovers⟩
    by_cases hfirst : candidate.covers item
    · exact Or.inl ⟨hl, candidate, List.mem_singleton_self _, hfirst⟩
    · rcases List.mem_cons.mp hother with rfl | hrest
      · exact absurd hcovers hfirst
      · exact Or.inr ⟨h.kept_execution hl hfirst, other, hrest, hcovers⟩
  · rintro (⟨hl, other, hother, hcovers⟩ | ⟨hl, other, hother, hcovers⟩)
    · rw [List.mem_singleton.mp hother] at hcovers
      exact ⟨hl, candidate, List.mem_cons_self .., hcovers⟩
    · exact ⟨h.executions.lookup hl, other, List.mem_cons_of_mem _ hother, hcovers⟩

theorem forgottenBy_cons :
    forgottenBy s (candidate :: rest) = forgottenBy s [candidate] ∪ forgottenBy t rest := by
  ext run
  constructor
  · rintro ⟨hrun, other, hother, hmatch⟩
    by_cases hfirst : candidate.pipeline = true ∧ candidate.id = run.id
    · exact Or.inl ⟨hrun, candidate, List.mem_singleton_self _, hfirst⟩
    · rcases List.mem_cons.mp hother with rfl | hrest
      · exact absurd hmatch hfirst
      · exact Or.inr ⟨h.kept_run hrun hfirst, other, hrest, hmatch⟩
  · rintro (⟨hrun, other, hother, hmatch⟩ | ⟨hrun, other, hother, hmatch⟩)
    · rw [List.mem_singleton.mp hother] at hmatch
      exact ⟨hrun, candidate, List.mem_cons_self .., hmatch⟩
    · exact ⟨h.runs.lookup hrun, other, List.mem_cons_of_mem _ hother, hmatch⟩

end Loop

/-- The loop removes what its candidates take away, and counts it. -/
theorem purgeLoop_removes (env : Env) {s : MemoryStore} {candidates : List Candidate} (i : Nat)
    (result : PurgeResult)
    (hnodup : (candidates.map fun candidate => (candidate.pipeline, candidate.id)).Nodup)
    (hstored : ∀ candidate ∈ candidates, StoredCandidate s candidate) :
    Removes (deletedBy s candidates) (forgottenBy s candidates) s
        (purgeLoop env i candidates result s).2 ∧
      Counts s (purgeLoop env i candidates result s).2 result
        (purgeLoop env i candidates result s).1 := by
  induction candidates generalizing i result s with
  | nil =>
      have hdeleted : deletedBy s [] = ∅ := by simp [deletedBy]
      have hforgotten : forgottenBy s [] = ∅ := by simp [forgottenBy]
      rw [hdeleted, hforgotten]
      exact ⟨Removes.refl s, rfl, rfl⟩
  | cons candidate rest ih =>
      obtain ⟨hnew, hrest⟩ := List.nodup_cons.mp hnodup
      obtain ⟨hround, hcounts⟩ :=
        purgeOne_removes env i result (hstored candidate (List.mem_cons_self ..))
      have hlater : ∀ other ∈ rest,
          StoredCandidate (purgeOne env i s result candidate).2 other := by
        intro other hother
        refine (hstored other (List.mem_cons_of_mem _ hother)).later hround fun heq => hnew ?_
        exact List.mem_map.mpr ⟨other, hother, heq⟩
      obtain ⟨htail, hcounts'⟩ := ih (i + 1) (purgeOne env i s result candidate).1 hrest hlater
      rw [deletedBy_cons hround, forgottenBy_cons hround]
      exact ⟨hround.trans htail, hcounts.trans hcounts'⟩

/-! ## The oldest candidates -/

instance : Std.Total fun a b : Candidate => a.finished ≤ b.finished where
  total a b := le_total a.finished b.finished

instance : IsTrans Candidate fun a b => a.finished ≤ b.finished where
  trans _ _ _ := le_trans

section Oldest

variable (env : Env) (s : MemoryStore) (before : Time) (limit : Int)

theorem Finished.stored {s : MemoryStore} {before : Time} {candidate : Candidate}
    (h : Finished s before candidate) : StoredCandidate s candidate := by
  obtain ⟨-, h⟩ := h
  unfold StoredCandidate
  cases hp : candidate.pipeline with
  | true =>
      rw [hp] at h
      obtain ⟨run, hrun, -⟩ := h
      exact ⟨run, hrun⟩
  | false =>
      rw [hp] at h
      obtain ⟨item, hl, hnone, -⟩ := h
      exact ⟨item, hl, hnone⟩

/-- No two candidates are one record. -/
theorem allCandidates_nodup :
    (((s.runItems env 0).filterMap (runCandidate before) ++
      (s.items env 0).filterMap (executionCandidate before)).map fun candidate =>
        (candidate.pipeline, candidate.id)).Nodup := by
  have hruns : (s.runItems env 0).Pairwise fun a b => a.id ≠ b.id :=
    List.pairwise_map.mp (range_values_nodup s.runs_keyed _)
  have hitems : (s.items env 0).Pairwise fun a b => a.id ≠ b.id :=
    List.pairwise_map.mp (items_ids_nodup s env 0)
  refine List.pairwise_map.mpr (List.pairwise_append.mpr ⟨?_, ?_, ?_⟩)
  · refine hruns.filterMap _ fun a a' hne b hb b' hb' heq => hne ?_
    have hid := (runCandidate_eq_some.mp hb).2.1
    have hid' := (runCandidate_eq_some.mp hb').2.1
    rw [← hid, ← hid', (Prod.mk.inj heq).2]
  · refine hitems.filterMap _ fun a a' hne b hb b' hb' heq => hne ?_
    have hid := (executionCandidate_eq_some.mp hb).2.1
    have hid' := (executionCandidate_eq_some.mp hb').2.1
    rw [← hid, ← hid', (Prod.mk.inj heq).2]
  · intro b hb b' hb' heq
    obtain ⟨run, -, hrun⟩ := List.mem_filterMap.mp hb
    obtain ⟨item, -, hitem⟩ := List.mem_filterMap.mp hb'
    have hp := (runCandidate_eq_some.mp hrun).1
    have hp' := (executionCandidate_eq_some.mp hitem).1
    rw [hp, hp'] at heq
    cases (Prod.mk.inj heq).1

theorem purgeCandidates_nodup :
    ((purgeCandidates env s before limit).map fun candidate =>
      (candidate.pipeline, candidate.id)).Nodup := by
  have hsorted := ((List.perm_insertionSort (fun a b : Candidate => a.finished ≤ b.finished)
    ((s.runItems env 0).filterMap (runCandidate before) ++
      (s.items env 0).filterMap (executionCandidate before))).map fun candidate =>
        (candidate.pipeline, candidate.id)).nodup_iff.mpr (allCandidates_nodup env s before)
  exact hsorted.sublist ((List.take_sublist _ _).map _)

/-- The candidates that are removed finished no later than those that are left. -/
theorem purgeCandidates_least :
    Least (fun a b => a.finished ≤ b.finished) {candidate | Finished s before candidate}
      (if limit ≤ 0 then 1000 else limit).toNat (purgeCandidates env s before limit) := by
  let sorted := ((s.runItems env 0).filterMap (runCandidate before) ++
    (s.items env 0).filterMap (executionCandidate before)).insertionSort
      fun a b => a.finished ≤ b.finished
  have hmem : ∀ candidate, candidate ∈ sorted ↔ Finished s before candidate := by
    intro candidate
    rw [List.mem_insertionSort, mem_allCandidates]
  have hnodup : sorted.Nodup := by
    rw [(List.perm_insertionSort _ _).nodup_iff]
    exact List.Nodup.of_map _ (allCandidates_nodup env s before)
  exact least_take (List.pairwise_insertionSort _ _) hnodup hmem

/-- A purge removes the oldest of the finished runs and standalone executions up to the limit, with
the executions of the runs, their histories and references, and nothing else. It counts what has
left, and in a store whose references are those of the records each one goes with its record. -/
theorem purge_removes_oldest :
    ∃ removed, Least (fun a b => a.finished ≤ b.finished) {candidate | Finished s before candidate}
        (if limit ≤ 0 then 1000 else limit).toNat removed ∧
      Removes (deletedBy s removed) (forgottenBy s removed) s (purge env s before limit).2 ∧
      (purge env s before limit).1.executions =
        {id | id ∈ s.executions ∧ id ∉ (purge env s before limit).2.executions}.ncard ∧
      (purge env s before limit).1.pipelineRuns =
        {id | id ∈ s.runs ∧ id ∉ (purge env s before limit).2.runs}.ncard ∧
      (Referenced s →
        (∀ ref id, s.idempotent.lookup ref = some id →
          ((purge env s before limit).2.idempotent.lookup ref = none ↔
            (purge env s before limit).2.executions.lookup id = none)) ∧
        (∀ ref id, s.nodes.lookup ref = some id →
          ((purge env s before limit).2.nodes.lookup ref = none ↔
            (purge env s before limit).2.executions.lookup id = none)) ∧
        ∀ ref id, s.runIdempotent.lookup ref = some id →
          ((purge env s before limit).2.runIdempotent.lookup ref = none ↔
            (purge env s before limit).2.runs.lookup id = none)) := by
  have hstored : ∀ candidate ∈ purgeCandidates env s before limit, StoredCandidate s candidate :=
    fun candidate hmem => (finished_of_mem env s hmem).stored
  obtain ⟨hremoves, hcounts⟩ := purgeLoop_removes env 1 ⟨0, 0⟩
    (purgeCandidates_nodup env s before limit) hstored
  refine ⟨purgeCandidates env s before limit, purgeCandidates_least env s before limit, hremoves,
    ?_, ?_, fun hs => ?_⟩
  · have hsize : _ + size (purge env s before limit).2.executions = _ :=
      hremoves.executions.ncard_removed
    have hcount : (purge env s before limit).1.executions +
        size (purge env s before limit).2.executions = 0 + size s.executions := hcounts.executions
    exact Nat.add_right_cancel (hcount.trans ((Nat.zero_add _).trans hsize.symm))
  · have hsize : _ + size (purge env s before limit).2.runs = _ := hremoves.runs.ncard_removed
    have hcount : (purge env s before limit).1.pipelineRuns +
        size (purge env s before limit).2.runs = 0 + size s.runs := hcounts.runs
    exact Nat.add_right_cancel (hcount.trans ((Nat.zero_add _).trans hsize.symm))
  · have hs' : Referenced (purge env s before limit).2 := Referenced.purgeLoop env _ 1 ⟨0, 0⟩ hs
    refine ⟨fun ref id => ?_, fun ref id => ?_, fun ref id => ?_⟩
    · exact hs.idempotent.dropped_iff hs'.idempotent (fun _ _ => hremoves.executions.lookup)
        fun _ _ => hremoves.idempotent.lookup
    · exact hs.nodes.dropped_iff hs'.nodes (fun _ _ => hremoves.executions.lookup)
        fun _ _ => hremoves.nodes.lookup
    · exact hs.runIdempotent.dropped_iff hs'.runIdempotent (fun _ _ => hremoves.runs.lookup)
        fun _ _ => hremoves.runIdempotent.lookup

end Oldest

end Ody.Memory
