import Ody.Redis.Interference

/-!
# What `Purge` lists and removes

The listing of `Purge` finds stored records, each of them once. The commands of
its block remove the listed records one after the other, and keep the invariant as
long as each record still has the status under which it was listed.
-/

namespace Ody.Redis

open Library.Tables Library.DerivedIndexes

/-! ## Lists -/

theorem getAll_ok {α : Type} {records : Table UUID α} {ids : List UUID} {items : List α}
    (h : getAll records ids = .ok items) : ids.map records.lookup = items.map some := by
  induction ids generalizing items with
  | nil =>
      cases h
      rfl
  | cons id rest ih =>
      rw [getAll] at h
      cases hl : records.lookup id with
      | none => simp [hl] at h
      | some record =>
          cases hrest : getAll records rest with
          | error err => simp [hl, hrest] at h
          | ok tail =>
              simp only [hl, hrest, Except.ok.injEq] at h
              rw [← h, List.map_cons, List.map_cons, hl, ih hrest]

/-- A list of stored records is read without an error. -/
theorem getAll_stored {α : Type} {records : Table UUID α} {ids : List UUID}
    (h : ∀ id ∈ ids, ∃ record, records.lookup id = some record) :
    ∃ items, getAll records ids = .ok items := by
  induction ids with
  | nil => exact ⟨[], rfl⟩
  | cons id rest ih =>
      obtain ⟨record, hl⟩ := h id (by simp)
      obtain ⟨tail, hrest⟩ := ih fun id' hid' => h id' (List.mem_cons_of_mem id hid')
      exact ⟨record :: tail, by simp [getAll, hl, hrest]⟩

/-- What the loop of `ListExecutions` adds are records of a part of the identifiers. -/
theorem listLoop_ok {records : Table UUID Execution} {filter : ListFilter} {ids : List UUID}
    {items result : List Execution} (h : listLoop records filter ids items = .ok result) :
    ∃ tail, result = items ++ tail ∧ (∀ item ∈ tail, matchesExecutionFilter item filter = true) ∧
      ∃ ids' : List UUID, ids'.Sublist ids ∧ ids'.map records.lookup = tail.map some := by
  induction ids generalizing items with
  | nil =>
      cases h
      exact ⟨[], by simp⟩
  | cons id rest ih =>
      rw [listLoop] at h
      cases hl : records.lookup id with
      | none => simp [hl] at h
      | some item =>
          simp only [hl] at h
          split at h
          · next hmatch =>
            split at h
            · cases h
              exact ⟨[item], rfl, by simpa using hmatch, [id], by simp, by simp [hl]⟩
            · obtain ⟨tail, hresult, hfilter, ids', hsub, hids⟩ := ih h
              refine ⟨item :: tail, by simp [hresult], ?_, id :: ids', hsub.cons_cons id, ?_⟩
              · simpa [hmatch] using hfilter
              · rw [List.map_cons, List.map_cons, hl, hids]
          · obtain ⟨tail, hresult, hfilter, ids', hsub, hids⟩ := ih h
            exact ⟨tail, hresult, hfilter, ids', hsub.cons id, hids⟩

theorem listLoop_stored {records : Table UUID Execution} {filter : ListFilter} {ids : List UUID}
    (h : ∀ id ∈ ids, ∃ item, records.lookup id = some item) (items : List Execution) :
    ∃ result, listLoop records filter ids items = .ok result := by
  induction ids generalizing items with
  | nil => exact ⟨items, rfl⟩
  | cons id rest ih =>
      obtain ⟨item, hl⟩ := h id (by simp)
      have hrest := ih fun id' hid' => h id' (List.mem_cons_of_mem id hid')
      rw [listLoop, hl]
      dsimp only
      split
      · split
        · exact ⟨_, rfl⟩
        · exact hrest _
      · exact hrest _

/-- Records read in the order of their identifiers, each under its own. -/
theorem ids_of_lookups {α : Type} {records : Table UUID α} {key : α → UUID}
    (hkeyed : ∀ id record, records.lookup id = some record → key record = id) {ids : List UUID}
    {items : List α} (h : ids.map records.lookup = items.map some) :
    items.map key = ids ∧ ∀ item ∈ items, records.lookup (key item) = some item := by
  induction ids generalizing items with
  | nil =>
      obtain rfl : items = [] := by simpa using h.symm
      simp
  | cons id rest ih =>
      cases items with
      | nil => cases h
      | cons item tail =>
          rw [List.map_cons, List.map_cons, List.cons.injEq] at h
          obtain ⟨hids, hstored⟩ := ih h.2
          have hid : key item = id := hkeyed id item h.1
          have hl : records.lookup (key item) = some item := hid.symm ▸ h.1
          exact ⟨by simp [hids, hid], by simpa [hl] using hstored⟩

section Represented

variable {s : Keyspace} (h : Represented s)
include h

theorem stored_of_mem_index {i : ExecutionIndex} {id : UUID}
    (hid : id ∈ s.zRange (.execution i)) : ∃ item, s.executions.records.lookup id = some item ∧
      (executionScore i item).isSome := by
  obtain ⟨value, hentry⟩ := mem_zRange.mp hid
  obtain ⟨item, hl, hscore⟩ := h.executions.mem_index hentry
  have hvalue : executionScore i item = some value := hscore
  exact ⟨item, hl, by rw [hvalue]; rfl⟩

theorem storedRun_of_mem_index {i : RunIndex} {id : UUID} (hid : id ∈ s.zRange (.run i)) :
    ∃ run, s.runs.records.lookup id = some run := by
  obtain ⟨value, hentry⟩ := mem_zRange.mp hid
  obtain ⟨run, hl, -⟩ := h.runs.mem_index hentry
  exact ⟨run, hl⟩

/-- Every list of executions is read without an error. -/
theorem listExecutions_stored (filter : ListFilter) :
    ∃ items, listExecutions s filter = .ok items := by
  apply listLoop_stored
  intro id hid
  have hmem := List.mem_reverse.mp hid
  have hindex : ∃ i, executionIndexFor filter = .execution i := by
    unfold executionIndexFor
    split <;> try split
    all_goals exact ⟨_, rfl⟩
  obtain ⟨i, hi⟩ := hindex
  rw [hi] at hmem
  obtain ⟨item, hl, -⟩ := stored_of_mem_index h hmem
  exact ⟨item, hl⟩

/-- Every list of runs is read without an error. -/
theorem listPipelineRuns_stored (filter : RunFilter) :
    ∃ runs, listPipelineRuns s filter = .ok runs := by
  have hids : ∀ id ∈ pipelineIDs s filter.statuses, ∃ run, s.runs.records.lookup id = some run := by
    intro id hid
    have hmem := List.mem_dedup.mp hid
    split at hmem
    · exact storedRun_of_mem_index h (List.mem_reverse.mp hmem)
    · obtain ⟨status, -, hmem⟩ := List.mem_flatMap.mp hmem
      exact storedRun_of_mem_index h (List.mem_reverse.mp hmem)
  obtain ⟨runs, hruns⟩ := getAll_stored hids
  unfold listPipelineRuns
  rw [hruns]
  exact ⟨_, rfl⟩

end Represented

/-! ## Removals -/

/-- The records that a candidate removes, in the order of its commands. -/
def Candidate.removals : Candidate → List (Execution ⊕ PipelineRun)
  | .execution _ item => [.inl item]
  | .run _ pipeline nodes => nodes.map .inl ++ [.inr pipeline]

/-- The commands that remove one record. -/
def purgeRecord : Execution ⊕ PipelineRun → List Command
  | .inl item => purgeExecution item
  | .inr run => purgeRun run

/-- The key of a record. -/
def recordKey : Execution ⊕ PipelineRun → UUID ⊕ UUID := Sum.map (·.id) (·.id)

/-- The record is stored. -/
def Stored (s : Keyspace) : Execution ⊕ PipelineRun → Prop
  | .inl item => s.executions.records.lookup item.id = some item
  | .inr run => s.runs.records.lookup run.id = some run

/-- The record is stored with the identity and the status under which it was listed. -/
def Removable (s : Keyspace) : Execution ⊕ PipelineRun → Prop
  | .inl item => ∃ now, s.executions.records.lookup item.id = some now ∧ SameIdentity item now ∧
      now.status = item.status
  | .inr run => s.runs.records.lookup run.id = some run

theorem purge_commands (candidates : List Candidate) :
    candidates.flatMap purgeCandidate = (candidates.flatMap Candidate.removals).flatMap purgeRecord := by
  rw [List.flatMap_assoc]
  apply List.flatMap_congr
  intro candidate _
  cases candidate with
  | execution finished item => simp [purgeCandidate, Candidate.removals, purgeRecord]
  | run finished run nodes =>
      simp [purgeCandidate, Candidate.removals, purgeRecord, List.flatMap_append, List.flatMap_map]

theorem changed_purgeExecution (item : Execution) : ∀ c ∈ purgeExecution item,
    c.WritesNone ∧ (∀ id, id ≠ item.id → c.changedExecution ≠ some id) ∧
      c.changedRun = none := by
  unfold purgeExecution
  split <;> cases item.pipelineRunID <;>
    simp [Command.WritesNone, Command.executionID, Command.runID, Command.changedExecution,
      Command.changedRun, eq_comm]

theorem changed_purgeRun (run : PipelineRun) : ∀ c ∈ purgeRun run,
    c.WritesNone ∧ c.changedExecution = none ∧
      ∀ id, id ≠ run.id → c.changedRun ≠ some id := by
  unfold purgeRun
  split <;>
    simp [Command.WritesNone, Command.executionID, Command.runID, Command.changedExecution,
      Command.changedRun, eq_comm]

theorem kept_purgeRecord {s : Server} (h : Invariant s) {r : Execution ⊕ PipelineRun}
    (hr : Removable s.keys r) : Kept s (purgeRecord r) := by
  cases r with
  | inl item =>
      obtain ⟨now, hl, hsame, hstatus⟩ := hr
      apply Kept.others h
      · exact fun c hc => (changed_purgeExecution item c hc).1
      · exact represented_purgeExecution h.represented hl hsame hstatus
  | inr run =>
      apply Kept.others h
      · exact fun c hc => (changed_purgeRun run c hc).1
      · exact represented_purgeRun h.represented hr

/-- The removal of one record leaves the others as they are. -/
theorem Removable.frame {s : Keyspace} {r r' : Execution ⊕ PipelineRun} (h : Removable s r')
    (hne : recordKey r ≠ recordKey r') : Removable (s.applyAll (purgeRecord r)) r' := by
  cases r with
  | inl item =>
      have hchanged := changed_purgeExecution item
      cases r' with
      | inl item' =>
          have hid : item'.id ≠ item.id := fun heq => hne (congrArg Sum.inl heq.symm)
          obtain ⟨now, hl, hrest⟩ := h
          refine ⟨now, ?_, hrest⟩
          exact (lookup_applyAll (fun c hc => (hchanged c hc).2.1 _ hid) s).trans hl
      | inr run' =>
          have hother : ∀ c ∈ purgeExecution item, c.changedRun ≠ some run'.id := by
            intro c hc
            rw [(hchanged c hc).2.2]
            exact fun heq => nomatch heq
          exact (lookupRun_applyAll hother s).trans h
  | inr run =>
      have hchanged := changed_purgeRun run
      cases r' with
      | inl item' =>
          have hother : ∀ c ∈ purgeRun run, c.changedExecution ≠ some item'.id := by
            intro c hc
            rw [(hchanged c hc).2.1]
            exact fun heq => nomatch heq
          obtain ⟨now, hl, hrest⟩ := h
          exact ⟨now, (lookup_applyAll hother s).trans hl, hrest⟩
      | inr run' =>
          have hid : run'.id ≠ run.id := fun heq => hne (congrArg Sum.inr heq.symm)
          exact (lookupRun_applyAll (fun c hc => (hchanged c hc).2.2 _ hid) s).trans h

/-- A block that removes different records, each still removable, keeps the invariant. -/
theorem kept_purge {s : Server} (h : Invariant s) {removals : List (Execution ⊕ PipelineRun)}
    (hremovable : ∀ r ∈ removals, Removable s.keys r)
    (hdistinct : removals.Pairwise fun r r' => recordKey r ≠ recordKey r') :
    Kept s (removals.flatMap purgeRecord) := by
  induction removals generalizing s with
  | nil => exact ⟨h, Later.refl s⟩
  | cons r rest ih =>
      obtain ⟨hother, hrest⟩ := List.pairwise_cons.mp hdistinct
      have hfirst := kept_purgeRecord h (hremovable r (by simp))
      rw [List.flatMap_cons]
      apply hfirst.append h
      apply ih hfirst.invariant _ hrest
      intro r' hr'
      rw [keys_applyAll]
      exact (hremovable r' (List.mem_cons_of_mem r hr')).frame (hother r' hr')

/-! ## The listing -/

/-- What the listing knows of a candidate. -/
def Candidate.Listed (s : Keyspace) : Candidate → Prop
  | .execution _ item => Stored s (.inl item) ∧ item.pipelineRunID = none
  | .run _ pipeline nodes => Stored s (.inr pipeline) ∧
      (∀ node ∈ nodes, Stored s (.inl node) ∧ node.pipelineRunID = some pipeline.id) ∧
      nodes.Pairwise fun a b => a.id ≠ b.id

/-- The record that a candidate stands for: a standalone execution or a run. -/
def Candidate.key : Candidate → UUID ⊕ UUID
  | .execution _ item => .inl item.id
  | .run _ pipeline _ => .inr pipeline.id

theorem Candidate.Listed.stored {s : Keyspace} {candidate : Candidate} (h : candidate.Listed s) :
    ∀ r ∈ candidate.removals, Stored s r := by
  intro r hr
  cases candidate with
  | execution finished item =>
      rw [List.mem_singleton.mp hr]
      exact h.1
  | run finished run nodes =>
      rcases List.mem_append.mp hr with hnode | hrun
      · obtain ⟨node, hmem, rfl⟩ := List.mem_map.mp hnode
        exact (h.2.1 node hmem).1
      · rw [List.mem_singleton.mp hrun]
        exact h.1

theorem Candidate.Listed.distinct {s : Keyspace} {candidate : Candidate} (h : candidate.Listed s) :
    candidate.removals.Pairwise fun r r' => recordKey r ≠ recordKey r' := by
  cases candidate with
  | execution finished item => exact List.pairwise_singleton _ _
  | run finished run nodes =>
      rw [Candidate.removals, List.pairwise_append]
      refine ⟨?_, List.pairwise_singleton _ _, ?_⟩
      · rw [List.pairwise_map]
        exact h.2.2.imp fun hne heq => hne (Sum.inl.inj heq)
      · intro r hr r' hr'
        obtain ⟨node, -, rfl⟩ := List.mem_map.mp hr
        rw [List.mem_singleton.mp hr']
        exact fun heq => nomatch heq

/-- An execution that a candidate removes says which candidate that is. -/
theorem Candidate.Listed.owner {s : Keyspace} {candidate : Candidate} (h : candidate.Listed s)
    {item : Execution} (hmem : .inl item ∈ candidate.removals) :
    candidate.key = match item.pipelineRunID with
      | some runID => .inr runID
      | none => .inl item.id := by
  cases candidate with
  | execution finished item' =>
      obtain rfl := Sum.inl.inj (List.mem_singleton.mp hmem)
      rw [h.2]
      rfl
  | run finished run nodes =>
      rcases List.mem_append.mp hmem with hnode | hrun
      · obtain ⟨node, hmem', heq⟩ := List.mem_map.mp hnode
        obtain rfl := Sum.inl.inj heq
        rw [(h.2.1 node hmem').2]
        rfl
      · cases List.mem_singleton.mp hrun

theorem Candidate.key_of_run {candidate : Candidate} {run : PipelineRun}
    (hmem : .inr run ∈ candidate.removals) : candidate.key = .inr run.id := by
  cases candidate with
  | execution finished item => cases List.mem_singleton.mp hmem
  | run finished run' nodes =>
      rcases List.mem_append.mp hmem with hnode | hrun
      · obtain ⟨node, -, heq⟩ := List.mem_map.mp hnode
        cases heq
      · obtain rfl := Sum.inr.inj (List.mem_singleton.mp hrun)
        rfl

/-- Different candidates remove different records. -/
theorem removals_disjoint {s : Keyspace} {a b : Candidate} (ha : a.Listed s) (hb : b.Listed s)
    (hne : a.key ≠ b.key) : ∀ r ∈ a.removals, ∀ r' ∈ b.removals, recordKey r ≠ recordKey r' := by
  intro r hr r' hr' heq
  apply hne
  cases r with
  | inl item =>
      cases r' with
      | inl item' =>
          have hid : item.id = item'.id := Sum.inl.inj heq
          have hl : s.executions.records.lookup item.id = some item := ha.stored _ hr
          have hl' : s.executions.records.lookup item'.id = some item' := hb.stored _ hr'
          rw [hid, hl'] at hl
          cases hl
          rw [ha.owner hr, hb.owner hr']
      | inr run' => cases heq
  | inr run =>
      cases r' with
      | inl item' => cases heq
      | inr run' =>
          have hid : run.id = run'.id := Sum.inr.inj heq
          rw [Candidate.key_of_run hr, Candidate.key_of_run hr', hid]

section Listing

variable {s : Keyspace} (h : Represented s)
include h

theorem listRunExecutions_listed {runID : UUID} {nodes : List Execution}
    (hok : listRunExecutions s runID = .ok nodes) :
    (∀ node ∈ nodes, Stored s (.inl node) ∧ node.pipelineRunID = some runID) ∧
      nodes.Pairwise fun a b => a.id ≠ b.id := by
  obtain ⟨hids, hstored⟩ := ids_of_lookups h.executions.keyed (getAll_ok hok)
  constructor
  · intro node hnode
    have hmem : node.id ∈ s.zRange (runExecutionsKey runID) := hids ▸ List.mem_map_of_mem hnode
    obtain ⟨item, hl, hscore⟩ := stored_of_mem_index h hmem
    cases (hstored node hnode).symm.trans hl
    refine ⟨hl, ?_⟩
    simpa [executionScore] using hscore
  · have hnodup := zRange_nodup s (runExecutionsKey runID)
    rw [← hids] at hnodup
    exact List.pairwise_map.mp hnodup

theorem runCandidates_listed {before : Time} {runs : List PipelineRun}
    {candidates : List Candidate} (hruns : ∀ run ∈ runs, Stored s (.inr run))
    (hok : runCandidates s before runs = .ok candidates) :
    (∀ c ∈ candidates, c.Listed s) ∧
      (candidates.map Candidate.key).Sublist (runs.map fun run => .inr run.id) := by
  induction runs generalizing candidates with
  | nil =>
      cases hok
      simp
  | cons run rest ih =>
      have hrest := fun run' hrun' => hruns run' (List.mem_cons_of_mem run hrun')
      rw [runCandidates] at hok
      split at hok
      · obtain ⟨hlisted, hkeys⟩ := ih hrest hok
        exact ⟨hlisted, hkeys.cons _⟩
      · split at hok
        · split at hok
          · cases hok
          · next nodes hnodes =>
            split at hok
            · cases hok
            · next tail htail =>
              cases hok
              obtain ⟨hlisted, hkeys⟩ := ih hrest htail
              have hfirst := listRunExecutions_listed h hnodes
              refine ⟨?_, hkeys.cons_cons _⟩
              rintro c (_ | ⟨_, hc⟩)
              · exact ⟨hruns run (by simp), hfirst⟩
              · exact hlisted c hc
        · obtain ⟨hlisted, hkeys⟩ := ih hrest hok
          exact ⟨hlisted, hkeys.cons _⟩

omit h in
theorem executionCandidate_some {before : Time} {item : Execution} {candidate : Candidate}
    (hsome : executionCandidate before item = some candidate) :
    item.pipelineRunID = none ∧ ∃ finished, candidate = .execution finished item := by
  unfold executionCandidate at hsome
  split at hsome
  · next finished hrun _ =>
    obtain ⟨-, heq⟩ := Option.ite_none_right_eq_some.mp hsome
    exact ⟨hrun, finished, (Option.some.inj heq).symm⟩
  · cases hsome

/-- The executions that are listed by status. -/
theorem listExecutions_status {status : Status} {items : List Execution}
    (hok : listExecutions s ⟨"", some status, none, 0, none⟩ = .ok items) :
    (∀ item ∈ items, Stored s (.inl item) ∧ item.status = status) ∧
      items.Pairwise fun a b => a.id ≠ b.id := by
  obtain ⟨tail, rfl, hfilter, ids, hsub, hlookups⟩ := listLoop_ok hok
  obtain ⟨hids, hstored⟩ := ids_of_lookups h.executions.keyed hlookups
  constructor
  · intro item hitem
    refine ⟨hstored item hitem, ?_⟩
    have hmatch := hfilter item hitem
    simpa [matchesExecutionFilter] using hmatch
  · have hnodup : ids.Nodup := (List.nodup_reverse.mpr (zRange_nodup s _)).sublist hsub
    rw [← hids] at hnodup
    exact List.pairwise_map.mp hnodup

/-- The candidates with one status. -/
theorem statusCandidates_listed (before : Time) {status : Status} {items : List Execution}
    (hok : listExecutions s ⟨"", some status, none, 0, none⟩ = .ok items) :
    (∀ c ∈ items.filterMap (executionCandidate before), c.Listed s ∧
        ∃ item finished, c = .execution finished item ∧ item.status = status) ∧
      (items.filterMap (executionCandidate before)).Pairwise fun a b => a.key ≠ b.key := by
  obtain ⟨hstored, hids⟩ := listExecutions_status h hok
  constructor
  · intro c hc
    obtain ⟨item, hitem, hsome⟩ := List.mem_filterMap.mp hc
    obtain ⟨hrun, finished, rfl⟩ := executionCandidate_some hsome
    exact ⟨⟨(hstored item hitem).1, hrun⟩, item, finished, rfl, (hstored item hitem).2⟩
  · rw [List.pairwise_filterMap]
    apply hids.imp
    intro a b hne c hc c' hc'
    obtain ⟨-, finished, rfl⟩ := executionCandidate_some hc
    obtain ⟨-, finished', rfl⟩ := executionCandidate_some hc'
    exact fun heq => hne (Sum.inl.inj heq)

theorem executionCandidates_listed {before : Time} {statuses : List Status}
    {candidates : List Candidate} (hstatuses : statuses.Nodup)
    (hok : executionCandidates s before statuses = .ok candidates) :
    (∀ c ∈ candidates, c.Listed s ∧ ∃ item finished, c = .execution finished item ∧
        item.status ∈ statuses) ∧
      candidates.Pairwise fun a b => a.key ≠ b.key := by
  induction statuses generalizing candidates with
  | nil =>
      cases hok
      simp
  | cons status rest ih =>
      obtain ⟨hnew, hrest⟩ := List.nodup_cons.mp hstatuses
      rw [executionCandidates] at hok
      split at hok
      · cases hok
      · next items hitems =>
        split at hok
        · cases hok
        · next tail htail =>
          cases hok
          obtain ⟨hlisted, hdistinct⟩ := ih hrest htail
          obtain ⟨hfirst, hfirstDistinct⟩ := statusCandidates_listed h before hitems
          constructor
          · intro c hc
            rcases List.mem_append.mp hc with hc | hc
            · obtain ⟨hc, item, finished, heq, hstatus⟩ := hfirst c hc
              exact ⟨hc, item, finished, heq, by simp [hstatus]⟩
            · obtain ⟨hc, item, finished, heq, hstatus⟩ := hlisted c hc
              exact ⟨hc, item, finished, heq, List.mem_cons_of_mem status hstatus⟩
          · -- one record has one status, so the lists of two statuses share none
            refine List.pairwise_append.mpr ⟨hfirstDistinct, hdistinct, ?_⟩
            intro c hc c' hc' heq
            obtain ⟨hstoredFirst, item, finished, rfl, hstatus⟩ := hfirst c hc
            obtain ⟨hstoredRest, item', finished', rfl, hstatus'⟩ := hlisted c' hc'
            have hid : item.id = item'.id := Sum.inl.inj heq
            have hl : s.executions.records.lookup item.id = some item := hstoredFirst.1
            have hl' : s.executions.records.lookup item'.id = some item' := hstoredRest.1
            rw [hid, hl'] at hl
            cases hl
            exact hnew (hstatus ▸ hstatus')

/-- The runs that are listed are stored, each of them once. -/
theorem listPipelineRuns_listed {filter : RunFilter} {runs : List PipelineRun}
    (hok : listPipelineRuns s filter = .ok runs) :
    (∀ run ∈ runs, Stored s (.inr run)) ∧ (runs.map (·.id)).Nodup := by
  unfold listPipelineRuns at hok
  split at hok
  · cases hok
  · next all hall =>
    cases hok
    obtain ⟨hids, hstored⟩ := ids_of_lookups h.runs.keyed (getAll_ok hall)
    have hnodup : (all.map (·.id)).Nodup := by
      have hdedup : (pipelineIDs s filter.statuses).Nodup := List.nodup_dedup _
      rw [← hids] at hdedup
      exact hdedup
    have hpage : ∀ (limit : Int) (l : List PipelineRun), (Memory.page limit l).Sublist l := by
      intro limit l
      unfold Memory.page
      split
      · exact List.take_sublist _ _
      · exact List.Sublist.refl l
    have hsub := hpage filter.limit (((all.filter fun run => filter.before.all fun cursor =>
      Memory.beforeCursor run.createdAt run.id cursor).insertionSort
        fun a b => Memory.newer b.createdAt b.id a.createdAt a.id = false))
    constructor
    · intro run hrun
      exact hstored run (List.mem_filter.mp ((List.mem_insertionSort _).mp (hsub.subset hrun))).1
    · apply List.Nodup.sublist (hsub.map _)
      refine (((List.perm_insertionSort _ _).map _).nodup_iff).mpr ?_
      exact hnodup.sublist (List.filter_sublist.map _)

/-- The candidates of `Purge` are stored records, each of them listed once. -/
theorem listPurge_listed {before : Time} {limit : Int} {order : RangeOrder Candidate}
    {candidates : List Candidate} (hok : listPurge s before limit order = .ok candidates) :
    (∀ c ∈ candidates, c.Listed s) ∧ candidates.Pairwise fun a b => a.key ≠ b.key := by
  unfold listPurge at hok
  split at hok
  · cases hok
  · next runs hruns =>
    split at hok
    · cases hok
    · next pipelines hpipelines =>
      split at hok
      · cases hok
      · next executions hexecutions =>
        cases hok
        obtain ⟨hstored, hrunIDs⟩ := listPipelineRuns_listed h hruns
        obtain ⟨hlistedRuns, hkeys⟩ := runCandidates_listed h hstored hpipelines
        obtain ⟨hlisted, hdistinct⟩ := executionCandidates_listed h (by decide) hexecutions
        have hall : ((pipelines ++ executions).map Candidate.key).Nodup := by
          rw [List.map_append, List.nodup_append]
          refine ⟨?_, List.pairwise_map.mpr hdistinct, ?_⟩
          · have hnodup : (runs.map fun run => (.inr run.id : UUID ⊕ UUID)).Nodup := by
              have hmap : (runs.map fun run => (.inr run.id : UUID ⊕ UUID)) =
                  (runs.map (·.id)).map .inr := by simp
              rw [hmap]
              exact hrunIDs.map Sum.inr_injective
            exact hnodup.sublist hkeys
          · intro k hk k' hk'
            obtain ⟨run, -, rfl⟩ := List.mem_map.mp (hkeys.subset hk)
            obtain ⟨c, hc, rfl⟩ := List.mem_map.mp hk'
            obtain ⟨-, item, finished, rfl, -⟩ := hlisted c hc
            exact fun heq => nomatch heq
        have hperm : ((order.order (pipelines ++ executions)).insertionSort
            fun a b => a.finished ≤ b.finished).Perm (pipelines ++ executions) :=
          (List.perm_insertionSort _ _).trans (order.perm _)
        constructor
        · intro c hc
          rcases List.mem_append.mp (hperm.subset (List.mem_of_mem_take hc)) with hc | hc
          · exact hlistedRuns c hc
          · exact (hlisted c hc).1
        · have hsorted := ((hperm.map Candidate.key).nodup_iff).mpr hall
          exact (List.pairwise_map.mp hsorted).sublist (List.take_sublist _ _)

/-- The records that `Purge` removes are stored at its listing and different. -/
theorem listPurge_removals {before : Time} {limit : Int} {order : RangeOrder Candidate}
    {candidates : List Candidate} (hok : listPurge s before limit order = .ok candidates) :
    (∀ r ∈ candidates.flatMap Candidate.removals, Stored s r) ∧
      (candidates.flatMap Candidate.removals).Pairwise fun r r' => recordKey r ≠ recordKey r' := by
  obtain ⟨hlisted, hkeys⟩ := listPurge_listed h hok
  constructor
  · intro r hr
    obtain ⟨c, hc, hmem⟩ := List.mem_flatMap.mp hr
    exact (hlisted c hc).stored r hmem
  · rw [List.pairwise_flatMap]
    refine ⟨fun c hc => (hlisted c hc).distinct, ?_⟩
    apply hkeys.imp_of_mem
    exact fun ha hb hne => removals_disjoint (hlisted _ ha) (hlisted _ hb) hne

end Listing

end Ody.Redis
