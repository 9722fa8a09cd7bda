import Ody.Execution.Pages
import Ody.Redis.Purge

/-!
# Pages of the Redis store

`ListExecutions` cuts a page in the order of a sorted set, which has milliseconds
and then identifiers, and the next page is everything before the last item in the
order of creation times. The two orders differ inside one millisecond.
-/

namespace Ody.Redis

open Library.Tables Library.DerivedIndexes Library.Pages
open Memory (Env)

/-! ## The order of an index -/

/-- The place of an execution in the indexes by creation time. -/
def indexKey (item : Execution) : Lex (Int × UUID) := toLex (score item.createdAt, item.id)

theorem indexKey_lt {a b : Execution} :
    indexKey a < indexKey b ↔ score a.createdAt < score b.createdAt ∨
      score a.createdAt = score b.createdAt ∧ a.id < b.id :=
  Prod.Lex.toLex_lt_toLex

/-- The executions of a sorted set, the latest first. -/
def indexed (s : Keyspace) (key : ZKey) : List Execution :=
  (s.zRevRange key).filterMap s.executions.records.lookup

theorem zsetOrder_iff {a b : Entry UUID Int} :
    zsetOrder a b ↔ toLex (a.2, a.1) ≤ toLex (b.2, b.1) := by
  rw [Prod.Lex.toLex_le_toLex]
  rfl

/-- Entries of distinct members are sorted into strict order. -/
theorem sortedEntries_pairwise {entries : List (Entry UUID Int)} (hkeys : (entries.map (·.1)).Nodup) :
    (entries.insertionSort zsetOrder).Pairwise fun a b => toLex (a.2, a.1) < toLex (b.2, b.1) := by
  have : Std.Total zsetOrder := ⟨fun a b => by
    simp only [zsetOrder_iff]
    exact le_total _ _⟩
  have : IsTrans (Entry UUID Int) zsetOrder := ⟨fun a b c hab hbc => by
    simp only [zsetOrder_iff] at hab hbc ⊢
    exact hab.trans hbc⟩
  have hsorted := List.pairwise_insertionSort zsetOrder entries
  have hdistinct : ((entries.insertionSort zsetOrder).map (·.1)).Nodup :=
    ((List.perm_insertionSort zsetOrder entries).map _).nodup_iff.mpr hkeys
  refine (hsorted.and (List.pairwise_map.mp hdistinct)).imp ?_
  rintro a b ⟨hle, hne⟩
  refine lt_of_le_of_ne (zsetOrder_iff.mp hle) fun heq => hne ?_
  exact congrArg (fun key => (ofLex key).2) heq

/-- The loop of `ListExecutions` takes what matches, up to the limit. -/
theorem listLoop_eq {records : Table UUID Execution} {filter : ListFilter} {ids : List UUID}
    (hstored : ∀ id ∈ ids, ∃ item, records.lookup id = some item) {items : List Execution}
    (hroom : items.length < filter.limit.toNat) :
    listLoop records filter ids items = .ok (items ++ ((ids.filterMap records.lookup).filter
      fun item => matchesExecutionFilter item filter).take (filter.limit.toNat - items.length)) := by
  induction ids generalizing items with
  | nil => simp [listLoop]
  | cons id rest ih =>
      obtain ⟨item, hl⟩ := hstored id (List.mem_cons_self ..)
      have hrest : ∀ id' ∈ rest, ∃ item, records.lookup id' = some item :=
        fun id' hid' => hstored id' (List.mem_cons_of_mem id hid')
      rw [listLoop, hl, List.filterMap_cons_some (f := fun id => records.lookup id) hl]
      dsimp only
      by_cases hmatch : matchesExecutionFilter item filter = true
      · rw [if_pos hmatch, List.filter_cons, if_pos hmatch]
        have hlength : (items ++ [item]).length = items.length + 1 := by simp
        split
        · next hfull =>
          have hone : filter.limit.toNat - items.length = 1 := by omega
          simp [hone]
        · next hmore =>
          rw [ih hrest (by omega), hlength, List.append_assoc]
          obtain ⟨room, hroom'⟩ : ∃ room, filter.limit.toNat - items.length = room + 1 :=
            ⟨filter.limit.toNat - items.length - 1, by omega⟩
          rw [hroom', List.take_succ_cons, Nat.sub_add_eq, hroom']
          rfl
      · rw [if_neg hmatch, List.filter_cons, if_neg hmatch]
        exact ih hrest hroom

/-- The filter selects an index of creation times that has all that matches. -/
theorem executionIndexFor_spec (filter : ListFilter) :
    ∃ i, executionIndexFor filter = .execution i ∧
      (∀ item value, executionScore i item = some value → value = score item.createdAt) ∧
      ∀ item, matchesExecutionFilter item filter = true → (executionScore i item).isSome := by
  cases hrun : filter.pipelineRunID with
  | some runID =>
      refine ⟨.run runID, by simp [executionIndexFor, hrun], by simp [executionScore], ?_⟩
      simp [matchesExecutionFilter, executionScore, hrun]
  | none =>
      by_cases htask : filter.taskName = ""
      · cases hstatus : filter.status with
        | some status =>
            refine ⟨.status status, by simp [executionIndexFor, hrun, hstatus, htask],
              by simp [executionScore], ?_⟩
            simp +contextual [matchesExecutionFilter, executionScore, hstatus]
        | none =>
            exact ⟨.all, by simp [executionIndexFor, hrun, hstatus, htask], by simp [executionScore],
              by simp [executionScore]⟩
      · refine ⟨.task filter.taskName, ?_, by simp [executionScore], ?_⟩
        · cases hstatus : filter.status <;> simp [executionIndexFor, hrun, hstatus, htask]
        · simp +contextual [matchesExecutionFilter, executionScore, htask]

theorem matchesExecutionFilter_iff (item : Execution) (filter : ListFilter) :
    matchesExecutionFilter item filter = true ↔
      matchesExecutionFilter item { filter with before := none } = true ∧
        Below filter.before item.cursor := by
  simp only [matchesExecutionFilter, Bool.and_eq_true, Memory.all_beforeCursor_iff, Option.all_none,
    and_true]
  exact and_right_comm

section Represented

variable {s : Keyspace} (h : Represented s)

include h

theorem indexed_stored {i : ExecutionIndex} {item : Execution}
    (hmem : item ∈ indexed s (.execution i)) : s.executions.records.lookup item.id = some item := by
  obtain ⟨id, -, hl⟩ := List.mem_filterMap.mp hmem
  have hid : item.id = id := h.executions.keyed id item hl
  rw [hid]
  exact hl

theorem mem_indexed {i : ExecutionIndex} {item : Execution}
    (hl : s.executions.records.lookup item.id = some item) (hscore : (executionScore i item).isSome) :
    item ∈ indexed s (.execution i) := by
  obtain ⟨value, hvalue⟩ := Option.isSome_iff_exists.mp hscore
  have hentry : s.executions.entry i item.id = some value := by
    rw [h.executions.index, hl]
    exact hvalue
  refine List.mem_filterMap.mpr ⟨item.id, ?_, hl⟩
  exact List.mem_reverse.mpr (mem_zRange.mpr ⟨value, hentry⟩)

/-- An index of creation times is in the order of milliseconds and identifiers. -/
theorem indexed_sorted {i : ExecutionIndex}
    (hi : ∀ item value, executionScore i item = some value → value = score item.createdAt) :
    (indexed s (.execution i)).Pairwise fun a b => indexKey b < indexKey a := by
  have hplace : ∀ entry ∈ (s.zset (.execution i)).entries.insertionSort zsetOrder, ∀ item,
      s.executions.records.lookup entry.1 = some item → toLex (entry.2, entry.1) = indexKey item := by
    rintro ⟨id, value⟩ hmem item hl
    have hentry : s.executions.entry i id = some value :=
      lookup_eq_some_iff.mpr ((List.mem_insertionSort zsetOrder).mp hmem)
    rw [h.executions.index, hl] at hentry
    have hid : item.id = id := h.executions.keyed id item hl
    rw [indexKey, hid, ← hi item value hentry]
  rw [indexed, List.pairwise_filterMap, Keyspace.zRevRange, List.pairwise_reverse, Keyspace.zRange,
    List.pairwise_map]
  refine (sortedEntries_pairwise (s.zset (.execution i)).keys_nodup).imp_of_mem ?_
  intro entry entry' hmem hmem' hlt item hl item' hl'
  rw [← hplace entry hmem item' hl', ← hplace entry' hmem' item hl]
  exact hlt

/-- What matches a filter, in the order of its index: a request takes the first of what its cursor
leaves. -/
theorem exists_matching {filter : ListFilter} (hlimit : 1 ≤ filter.limit) :
    ∃ l : List Execution, l.Pairwise (fun a b => indexKey b < indexKey a) ∧
      (∀ item, item ∈ l ↔ s.executions.records.lookup item.id = some item ∧
        matchesExecutionFilter item { filter with before := none } = true) ∧
      ∀ before : Option Cursor, listExecutions s { filter with before := before } =
        .ok ((l.filter fun item => before.all (item.cursor < ·)).take filter.limit.toNat) := by
  obtain ⟨i, hi, hscore, hmatch⟩ := executionIndexFor_spec { filter with before := none }
  refine ⟨(indexed s (.execution i)).filter fun item =>
    matchesExecutionFilter item { filter with before := none }, ?_, ?_, ?_⟩
  · exact (indexed_sorted h hscore).sublist List.filter_sublist
  · intro item
    rw [List.mem_filter]
    exact and_congr_left fun hmatches =>
      ⟨indexed_stored h, fun hl => mem_indexed h hl (hmatch item hmatches)⟩
  · intro before
    have hstored : ∀ id ∈ s.zRevRange (.execution i), ∃ item,
        s.executions.records.lookup id = some item := by
      intro id hid
      obtain ⟨item, hl, -⟩ := stored_of_mem_index h (List.mem_reverse.mp hid)
      exact ⟨item, hl⟩
    have hindex : executionIndexFor { filter with before := before } = .execution i := hi
    have hloop : listLoop s.executions.records { filter with before := before }
        (s.zRevRange (.execution i)) [] = _ :=
      listLoop_eq hstored (Int.lt_toNat.mpr (Int.lt_of_lt_of_le Int.one_pos hlimit))
    rw [listExecutions, hindex, hloop, List.nil_append, List.length_nil, Nat.sub_zero,
      List.filter_filter]
    congr 3
    funext item
    rw [Bool.eq_iff_iff, matchesExecutionFilter_iff, Bool.and_eq_true, all_lt_iff, and_comm]

end Represented

/-- Inside one millisecond, what was created later has the larger identifier. -/
def MillisecondsOrdered (S : Set Execution) : Prop :=
  ∀ a ∈ S, ∀ b ∈ S, score a.createdAt = score b.createdAt → a.createdAt < b.createdAt → a.id < b.id

/-- The two orders agree in such milliseconds. -/
theorem MillisecondsOrdered.cursor_lt {S : Set Execution} (hS : MillisecondsOrdered S)
    {a b : Execution} (ha : a ∈ S) (hb : b ∈ S) (hlt : indexKey b < indexKey a) :
    b.cursor < a.cursor := by
  rw [Cursor.lt_iff]
  rcases indexKey_lt.mp hlt with hscore | ⟨hscore, hid⟩
  · exact Or.inl (lt_of_not_ge fun hle => (score_le hle).not_gt hscore)
  · rcases lt_trichotomy b.createdAt a.createdAt with hless | hsame | hmore
    · exact Or.inl hless
    · exact Or.inr ⟨hsame, hid⟩
    · exact absurd (hS a ha b hb hscore.symm hmore) hid.not_gt

/-- Following the cursors of `ListExecutions` lists every matching execution once, in strictly
decreasing order, exactly if inside each millisecond the matching executions were created in the
order of their identifiers. -/
theorem redis_pages_iff {s : Keyspace} (h : Represented s) (filter : ListFilter)
    (hlimit : 1 ≤ filter.limit) :
    ∃ request : Option Cursor → List Execution,
      (∀ before, listExecutions s { filter with before := before } = .ok (request before)) ∧
      ((∃ n, ListsAll Execution.cursor (fun _ => request) none
          {item | s.executions.records.lookup item.id = some item ∧
            matchesExecutionFilter item { filter with before := none } = true} n) ↔
        MillisecondsOrdered {item | s.executions.records.lookup item.id = some item ∧
          matchesExecutionFilter item { filter with before := none } = true}) := by
  obtain ⟨l, hsorted, hmem, hrequest⟩ := exists_matching h hlimit
  refine ⟨_, hrequest, ?_, ?_⟩
  · rintro ⟨n, hall⟩ a ha b hb hscore htime
    by_contra hid
    have hless : a.cursor < b.cursor := Cursor.lt_iff.mpr (Or.inl htime)
    have hplace : indexKey b < indexKey a := by
      refine indexKey_lt.mpr (Or.inr ⟨hscore.symm, lt_of_le_of_ne (not_lt.mp hid) fun heq => ?_⟩)
      have hsame := ha.1.symm.trans (heq ▸ hb.1)
      exact htime.ne (congrArg Execution.createdAt (Option.some.inj hsame))
    -- the page that has `b` has `a` in front of it
    obtain ⟨i, hi, hpage⟩ := List.mem_flatMap.mp ((hall.mem_iff b).mpr hb)
    obtain ⟨hlisted, hbelow⟩ := List.mem_filter.mp (List.mem_of_mem_take hpage)
    have hdown := hall.sorted.sublist (List.sublist_flatten_of_mem (List.mem_map_of_mem hi))
    refine (lt_of_mem_take (hsorted.sublist List.filter_sublist) hdown ?_ hpage hplace).not_gt hless
    exact List.mem_filter.mpr ⟨(hmem a).mpr ha, all_lt_iff.mpr ((all_lt_iff.mp hbelow).lt hless)⟩
  · intro hordered
    have hpage : ∀ (_ : ℕ) (before : Option Cursor), IsPage Execution.cursor
        {item | s.executions.records.lookup item.cursor.id = some item ∧
          matchesExecutionFilter item { filter with before := none } = true} before
        ((l.filter fun item => before.all (item.cursor < ·)).take filter.limit.toNat) := by
      intro _ before
      refine IsPage.take ?_ (fun item => ?_) (Int.lt_toNat.mpr (Int.lt_of_lt_of_le Int.one_pos hlimit))
      · refine (hsorted.sublist List.filter_sublist).imp_of_mem fun ha hb hlt => ?_
        exact hordered.cursor_lt ((hmem _).mp (List.mem_of_mem_filter ha))
          ((hmem _).mp (List.mem_of_mem_filter hb)) hlt
      · rw [List.mem_filter, hmem, all_lt_iff]
        rfl
    exact Memory.exists_listsAll_stored hpage fun item => by simp [Below]

/-- An execution of a version of a task, created at a time under an identifier. -/
def createdJob (version : Int) (now : Time) (id : Nat) : Execution :=
  newExecution (Env.at now id) ⟨"job", version, "", 3, 0, "", none, ""⟩

/-- The keys after such an execution has been created. -/
def withJob (s : Keyspace) (version : Int) (now : Time) (id : Nat) : Keyspace :=
  s.applyAll (createCommands (Env.at now id) (createdJob version now id))

theorem withJob_represented {s : Keyspace} (h : Represented s) (version : Int) (now : Time) {id : Nat}
    (hnew : s.executions.records.lookup (id + 1) = none) : Represented (withJob s version now id) :=
  represented_create h (Env.at now id) hnew rfl (by simp [references, createdJob, newExecution])

/-- Three executions, two of them of one millisecond in the order of their identifiers. -/
def orderedJobs : Keyspace :=
  withJob (withJob (withJob Keyspace.empty 1 2000 8) 1 5000 11) 2 7000000 3

theorem orderedJobs_represented : Represented orderedJobs :=
  withJob_represented
    (withJob_represented (withJob_represented Represented.empty 1 2000 rfl) 1 5000 rfl) 2 7000000 rfl

theorem orderedJobs_stored {item : Execution}
    (hl : orderedJobs.executions.records.lookup item.id = some item) :
    item = createdJob 1 2000 8 ∨ item = createdJob 1 5000 11 ∨ item = createdJob 2 7000000 3 := by
  rw [show orderedJobs.executions.records = (((∅ : Table UUID Execution).insert 9
    (createdJob 1 2000 8)).insert 12 (createdJob 1 5000 11)).insert 4 (createdJob 2 7000000 3)
    from rfl] at hl
  simp only [lookup_insert_ite, AList.lookup_empty] at hl
  split_ifs at hl <;> cases hl <;> simp

theorem redis_pages_iff_of_job :
    ∃ request : Option Cursor → List Execution,
      (∀ before, listExecutions orderedJobs ⟨"job", none, none, 2, before⟩ =
        .ok (request before)) ∧
      ∃ n, ListsAll Execution.cursor (fun _ => request) none
        {item | orderedJobs.executions.records.lookup item.id = some item ∧
          matchesExecutionFilter item ⟨"job", none, none, 2, none⟩ = true} n := by
  obtain ⟨request, hrequest, hiff⟩ :=
    redis_pages_iff orderedJobs_represented ⟨"job", none, none, 2, none⟩ (by decide)
  refine ⟨request, hrequest, hiff.mpr ?_⟩
  intro a ha b hb
  rcases orderedJobs_stored ha.1 with rfl | rfl | rfl <;>
    rcases orderedJobs_stored hb.1 with rfl | rfl | rfl <;> decide

/-- Two executions of one millisecond, the earlier one with the larger identifier: pages of one lose
the other, and a page of two lists them in increasing order. -/
theorem later_execution_lost :
    Represented (withJob (withJob Keyspace.empty 1 2000 8) 1 5000 2) ∧
      listExecutions (withJob (withJob Keyspace.empty 1 2000 8) 1 5000 2) ⟨"", none, none, 1, none⟩ =
        .ok [createdJob 1 2000 8] ∧
      listExecutions (withJob (withJob Keyspace.empty 1 2000 8) 1 5000 2)
        ⟨"", none, none, 1, some (createdJob 1 2000 8).cursor⟩ = .ok [] ∧
      listExecutions (withJob (withJob Keyspace.empty 1 2000 8) 1 5000 2) ⟨"", none, none, 2, none⟩ =
        .ok [createdJob 1 2000 8, createdJob 1 5000 2] := by
  refine ⟨?_, by rfl, by rfl, by rfl⟩
  exact withJob_represented (withJob_represented Represented.empty 1 2000 rfl) 1 5000 rfl

end Ody.Redis
