import Mathlib.Data.List.Sort
import Mathlib.Data.Prod.Lex
import Ody.Execution.Retention
import Ody.Library.Pages

/-!
# Pages of the in-memory store

`newer`, by which a list is sorted, and `beforeCursor`, by which the next page is
cut, are the two sides of one linear order on cursors. A client that follows the
cursors lists every matching record once, also when records are created between
its requests.
-/

namespace Ody

open Library.Tables Library.Pages

/-! ## The order of cursors -/

theorem cursor_toLex_injective :
    Function.Injective fun c : Cursor => toLex (c.createdAt, c.id) := by
  rintro ⟨createdAt, id⟩ ⟨createdAt', id'⟩ h
  cases toLex.injective h
  rfl

instance : LinearOrder Cursor := LinearOrder.lift' _ cursor_toLex_injective

theorem Cursor.lt_iff {c c' : Cursor} :
    c < c' ↔ c.createdAt < c'.createdAt ∨ c.createdAt = c'.createdAt ∧ c.id < c'.id :=
  Prod.Lex.toLex_lt_toLex

/-- The cursor that continues after an execution. -/
def Execution.cursor (item : Execution) : Cursor := ⟨item.createdAt, item.id⟩

/-- The cursor that continues after a run. -/
def PipelineRun.cursor (run : PipelineRun) : Cursor := ⟨run.createdAt, run.id⟩

/-- Cursors with finitely many creation times have no infinite descent. -/
theorem isWF_cursors {T : Set Time} (hT : T.Finite) : {c : Cursor | c.createdAt ∈ T}.IsWF := by
  have htime : {c : Cursor | c.createdAt ∈ T}.WellFoundedOn
      (Function.onFun (· < ·) Cursor.createdAt) :=
    Set.WellFoundedOn.mapsTo Cursor.createdAt (fun c hc => hc) hT.isWF
  have hid : ∀ t, ({c : Cursor | c.createdAt ∈ T} ∩ Set.preimage Cursor.createdAt {t}).WellFoundedOn
      (Function.onFun (· < ·) Cursor.id) :=
    fun t => (wellFounded_lt.onFun (f := Cursor.id)).wellFoundedOn
  exact htime.prod_lex_of_wellFoundedOn_fiber hid

namespace Memory

theorem beforeCursor_iff {createdAt : Time} {id : UUID} {c : Cursor} :
    beforeCursor createdAt id c = true ↔ (⟨createdAt, id⟩ : Cursor) < c := by
  simp [beforeCursor, Cursor.lt_iff]

theorem all_beforeCursor_iff {before : Option Cursor} {createdAt : Time} {id : UUID} :
    (before.all fun c => beforeCursor createdAt id c) = true ↔ Below before ⟨createdAt, id⟩ := by
  cases before with
  | none => simp [Below]
  | some c => simp [Below, beforeCursor_iff]

theorem newer_iff {t t' : Time} {id id' : UUID} :
    newer t id t' id' = true ↔ (⟨t', id'⟩ : Cursor) < ⟨t, id⟩ := by
  unfold newer
  rw [Cursor.lt_iff]
  split
  · next heq => simp [heq]
  · next hne => simp [Ne.symm hne]

/-! ## One request -/

section Request

variable {R : Type} (cursorOf : R → Cursor)

/-- The order by which `sort.Slice` sorts a list, as "not the other way round". -/
def notNewer (a b : R) : Prop :=
  newer (cursorOf b).createdAt (cursorOf b).id (cursorOf a).createdAt (cursorOf a).id = false

instance (a b : R) : Decidable (notNewer cursorOf a b) := by
  unfold notNewer
  infer_instance

theorem notNewer_iff {a b : R} : notNewer cursorOf a b ↔ cursorOf b ≤ cursorOf a := by
  rw [notNewer, Bool.eq_false_iff, ne_eq, newer_iff, not_lt]

instance : Std.Total (notNewer cursorOf) where
  total := by
    intro a b
    simp only [notNewer_iff]
    exact le_total _ _

instance : IsTrans R (notNewer cursorOf) where
  trans := by
    intro a b c hab hbc
    simp only [notNewer_iff] at hab hbc ⊢
    exact hbc.trans hab

/-- The sorted list does not depend on the order in which the records are read. -/
theorem insertionSort_eq {l l' : List R} (hperm : l.Perm l')
    (hinj : ∀ a ∈ l, ∀ b ∈ l, cursorOf a = cursorOf b → a = b) :
    l.insertionSort (notNewer cursorOf) = l'.insertionSort (notNewer cursorOf) := by
  have hleft := List.perm_insertionSort (notNewer cursorOf) l
  have hright := List.perm_insertionSort (notNewer cursorOf) l'
  refine List.Perm.eq_of_pairwise ?_ (List.pairwise_insertionSort _ l)
    (List.pairwise_insertionSort _ l') (hleft.trans (hperm.trans hright.symm))
  intro a b ha hb hab hba
  have ha' : a ∈ l := hleft.mem_iff.mp ha
  have hb' : b ∈ l := hperm.mem_iff.mpr (hright.mem_iff.mp hb)
  rw [notNewer_iff] at hab hba
  exact hinj a ha' b hb' (le_antisymm hba hab)

/-- The cut of the sorted and filtered records is a page. -/
theorem isPage_sorted {items : List R} (hnodup : (items.map cursorOf).Nodup) {base test : R → Bool}
    {before : Option Cursor} (htest : ∀ a, test a = true ↔ base a = true ∧ Below before (cursorOf a))
    {limit : Int} (hlimit : 1 ≤ limit) :
    IsPage cursorOf {a | a ∈ items ∧ base a = true} before
      (page limit ((items.filter test).insertionSort (notNewer cursorOf))) := by
  have hperm := List.perm_insertionSort (notNewer cursorOf) (items.filter test)
  have hsorted := List.pairwise_insertionSort (notNewer cursorOf) (items.filter test)
  have hdistinct : (((items.filter test).insertionSort (notNewer cursorOf)).map cursorOf).Nodup :=
    (hperm.map cursorOf).nodup_iff.mpr (hnodup.sublist (List.filter_sublist.map cursorOf))
  rw [page, if_pos (Int.lt_of_lt_of_le Int.one_pos hlimit)]
  refine IsPage.take ?_ ?_ (Int.lt_toNat.mpr (Int.lt_of_lt_of_le Int.one_pos hlimit))
  · refine (hsorted.and (List.pairwise_map.mp hdistinct)).imp ?_
    rintro a b ⟨hle, hne⟩
    exact lt_of_le_of_ne ((notNewer_iff cursorOf).mp hle) hne.symm
  · intro a
    rw [hperm.mem_iff, List.mem_filter, htest, ← and_assoc]
    rfl

end Request

/-! ## Following the cursors -/

section Unchanged

variable {R : Type} {cursorOf : R → Cursor} {m : Table UUID R}
  {request : ℕ → Option Cursor → List R} {base test : R → Bool}

theorem finite_stored (m : Table UUID R) : {a | ∃ id, m.lookup id = some a}.Finite := by
  refine (m.entries.map (·.2)).finite_toSet.subset ?_
  rintro a ⟨id, ha⟩
  exact List.mem_map.mpr ⟨⟨id, a⟩, lookup_eq_some_iff.mp ha, rfl⟩

/-- Pages of a table that does not change list it all. -/
theorem exists_listsAll_stored (hpage : ∀ i before, IsPage cursorOf
      {a | m.lookup (cursorOf a).id = some a ∧ base a = true} before (request i before))
    {before : Option Cursor} (htest : ∀ a, test a = true ↔ base a = true ∧ Below before (cursorOf a)) :
    ∃ n, ListsAll cursorOf request before
      {a | m.lookup (cursorOf a).id = some a ∧ test a = true} n := by
  have hfinite : {a | m.lookup (cursorOf a).id = some a ∧ base a = true}.Finite :=
    (finite_stored m).subset fun a ha => ⟨_, ha.1⟩
  have hkey : {a | m.lookup (cursorOf a).id = some a ∧ base a = true}.InjOn cursorOf := by
    intro a ha b hb heq
    have hsame := ha.1.symm.trans (heq ▸ hb.1)
    exact Option.some.inj hsame
  obtain ⟨n, hall⟩ := exists_listsAll before hpage hfinite hkey
  refine ⟨n, hall.stops, hall.sorted, fun a => ?_⟩
  rw [hall.mem_iff, Set.mem_ofPred_eq, Set.mem_ofPred_eq, Set.mem_ofPred_eq, htest, and_assoc]

end Unchanged

/-- What may happen to the records between two requests: a creation time never changes, and a record
that is new has not been created before the creation time of the current cursor. -/
structure CreatedLater {R : Type} (cursorOf : R → Cursor) (records : ℕ → Table UUID R)
    (cursors : ℕ → Option Cursor) : Prop where
  kept : ∀ i j id a b, (records i).lookup id = some a → (records j).lookup id = some b →
    (cursorOf a).createdAt = (cursorOf b).createdAt
  added : ∀ i id b c, cursors (i + 1) = some c → (records i).lookup id = none →
    (records (i + 1)).lookup id = some b → c.createdAt ≤ (cursorOf b).createdAt

/-- The client stops after some requests. What it has collected is in strictly decreasing order and
matches the filter, no identifier comes twice, and every record that was there and matched at every
request has been collected. -/
structure StableListing {R : Type} (cursorOf : R → Cursor) (records : ℕ → Table UUID R) (test : R → Bool)
    (request : ℕ → Option Cursor → List R) (before : Option Cursor) (n : ℕ) : Prop where
  stops : StopsAt cursorOf request before n
  sorted : (collected cursorOf request before n).Pairwise fun a b => cursorOf b < cursorOf a
  once : ((collected cursorOf request before n).map fun a => (cursorOf a).id).Nodup
  sound : ∀ a ∈ collected cursorOf request before n,
    ∃ i < n, (records i).lookup (cursorOf a).id = some a ∧ test a = true
  complete : ∀ id, (∀ i ≤ n, ∃ a, (records i).lookup id = some a ∧ test a = true) →
    id ∈ (collected cursorOf request before n).map fun a => (cursorOf a).id

section Following

variable {R : Type} {cursorOf : R → Cursor} {records : ℕ → Table UUID R}
  {request : ℕ → Option Cursor → List R} {before : Option Cursor} {base test : R → Bool}
  (hkeyed : ∀ i id a, (records i).lookup id = some a → (cursorOf a).id = id)
  (hpage : ∀ i before, IsPage cursorOf
    {a | (records i).lookup (cursorOf a).id = some a ∧ base a = true} before (request i before))

include hkeyed

/-- An identifier has the same cursor in every request. -/
theorem CreatedLater.cursor_eq {cursors : ℕ → Option Cursor}
    (hlater : CreatedLater cursorOf records cursors) {i j : ℕ} {id : UUID} {a b : R}
    (ha : (records i).lookup id = some a) (hb : (records j).lookup id = some b) :
    cursorOf a = cursorOf b := by
  apply cursor_toLex_injective
  simp only [hlater.kept i j id a b ha hb, hkeyed i id a ha, hkeyed j id b hb]

include hpage

/-- While its pages are not empty, a client only sees creation times of the first request. -/
theorem createdAt_mem_first (hlater : CreatedLater cursorOf records (cursor cursorOf request before))
    (i : ℕ) (hgoing : ∀ j < i, Library.Pages.page cursorOf request before j ≠ []) {id : UUID} {a : R}
    (ha : (records i).lookup id = some a)
    (hbelow : Below (cursor cursorOf request before i) (cursorOf a)) :
    ∃ b, (∃ id', (records 0).lookup id' = some b) ∧
      (cursorOf b).createdAt = (cursorOf a).createdAt := by
  induction i generalizing id a with
  | zero => exact ⟨a, ⟨id, ha⟩, rfl⟩
  | succ i ih =>
      have hbefore : ∀ j < i, Library.Pages.page cursorOf request before j ≠ [] :=
        fun j hj => hgoing j (hj.trans i.lt_succ_self)
      cases hold : (records i).lookup id with
      | some old =>
          have hsame := hlater.cursor_eq hkeyed hold ha
          rw [← hsame] at hbelow ⊢
          exact ih hbefore hold (below_of_succ hpage hbelow)
      | none =>
          -- a new record below the cursor has the creation time of the cursor
          obtain ⟨last, hmem, -, hcursor⟩ := exists_last (hgoing i i.lt_succ_self)
          obtain ⟨⟨hstored, -⟩, hlast⟩ := (hpage i _).sound last hmem
          obtain ⟨b, hb, htime⟩ := ih hbefore hstored hlast
          have hle := hlater.added i id a _ hcursor hold ha
          have hlt := Cursor.lt_iff.mp (hbelow _ hcursor)
          have heq : (cursorOf a).createdAt = (cursorOf last).createdAt :=
            hlt.elim (fun h => absurd hle (not_le.mpr h)) (·.1)
          exact ⟨b, hb, htime.trans heq.symm⟩

/-- A client that follows the cursors of pages gets everything. -/
theorem exists_stableListing
    (hlater : CreatedLater cursorOf records (cursor cursorOf request before))
    (htest : ∀ a, test a = true ↔ base a = true ∧ Below before (cursorOf a)) :
    ∃ n, StableListing cursorOf records test request before n := by
  have hfinite := (finite_stored (records 0)).image fun b => (cursorOf b).createdAt
  obtain ⟨n, hstop⟩ := exists_stopsAt before hpage (isWF_cursors hfinite) fun i hgoing a ha => by
    obtain ⟨⟨hstored, -⟩, hbelow⟩ := (hpage i _).sound a ha
    exact createdAt_mem_first hkeyed hpage hlater i (fun j hj => hgoing j hj.le) hstored hbelow
  have hsorted := collected_sorted before hpage n
  have hsound : ∀ a ∈ collected cursorOf request before n,
      ∃ i < n, (records i).lookup (cursorOf a).id = some a ∧ test a = true := by
    intro a ha
    obtain ⟨i, hi, ⟨hstored, hbase⟩, hbelow⟩ := mem_of_collected hpage ha
    exact ⟨i, hi, hstored, (htest a).mpr ⟨hbase, hbelow⟩⟩
  refine ⟨n, hstop, hsorted, ?_, hsound, ?_⟩
  · refine List.pairwise_map.mpr (hsorted.imp_of_mem ?_)
    intro a b ha hb hlt hid
    obtain ⟨i, -, hstored, -⟩ := hsound a ha
    obtain ⟨j, -, hstored', -⟩ := hsound b hb
    exact hlt.ne (hlater.cursor_eq hkeyed (hid ▸ hstored') hstored)
  · intro id hthere
    obtain ⟨a, ha, hmatch⟩ := hthere 0 n.zero_le
    have hkey : ∀ i ≤ n, ∃ b, ((records i).lookup (cursorOf b).id = some b ∧ base b = true) ∧
        cursorOf b = cursorOf a := by
      intro i hi
      obtain ⟨b, hb, htested⟩ := hthere i hi
      have hstored : (records i).lookup (cursorOf b).id = some b := by rwa [hkeyed i id b hb]
      exact ⟨b, ⟨hstored, ((htest b).mp htested).1⟩, hlater.cursor_eq hkeyed hb ha⟩
    obtain ⟨b, hb, heq⟩ := exists_mem_collected hpage hstop hkey ((htest a).mp hmatch).2
    refine List.mem_map.mpr ⟨b, hb, ?_⟩
    rw [heq]
    exact hkeyed 0 id a ha

end Following

/-! ## The two lists -/

section Lists

variable (env : ℕ → Env)

/-- The requests of a client to `ListExecutions`, each to the store of its moment. -/
def executionRequest (s : ℕ → MemoryStore) (filter : ListFilter) (i : ℕ) (before : Option Cursor) :
    List Execution :=
  listExecutions (env i) (s i) { filter with before := before }

/-- The requests of a client to `ListPipelineRuns`. -/
def runRequest (s : ℕ → MemoryStore) (filter : RunFilter) (i : ℕ) (before : Option Cursor) :
    List PipelineRun :=
  listPipelineRuns (env i) (s i) { filter with before := before }

theorem matchesFilter_iff (filter : ListFilter) (item : Execution) :
    matchesFilter filter item = true ↔
      matchesFilter { filter with before := none } item = true ∧ Below filter.before item.cursor := by
  simp only [matchesFilter, Bool.and_eq_true, all_beforeCursor_iff, Option.all_none, and_true]
  rfl

theorem matchesRunFilter_iff (filter : RunFilter) (run : PipelineRun) :
    matchesRunFilter filter run = true ↔
      matchesRunFilter { filter with before := none } run = true ∧ Below filter.before run.cursor := by
  simp only [matchesRunFilter, Bool.and_eq_true, all_beforeCursor_iff, Option.all_none, and_true]
  rfl

theorem executionRequest_isPage (s : ℕ → MemoryStore) {filter : ListFilter} (hlimit : 1 ≤ filter.limit)
    (i : ℕ) (before : Option Cursor) :
    IsPage Execution.cursor
      {item | (s i).executions.lookup item.id = some item ∧
        matchesFilter { filter with before := none } item = true} before
      (executionRequest env s filter i before) := by
  have hnodup : (((s i).items (env i) 0).map Execution.cursor).Nodup := by
    refine List.Nodup.of_map Cursor.id ?_
    rw [List.map_map]
    exact items_ids_nodup (s i) (env i) 0
  simp only [← mem_items (s i) (env i) _ 0]
  exact isPage_sorted Execution.cursor hnodup (matchesFilter_iff { filter with before := before }) hlimit

theorem runRequest_isPage (s : ℕ → MemoryStore) {filter : RunFilter} (hlimit : 1 ≤ filter.limit)
    (i : ℕ) (before : Option Cursor) :
    IsPage PipelineRun.cursor
      {run | (s i).runs.lookup run.id = some run ∧
        matchesRunFilter { filter with before := none } run = true} before
      (runRequest env s filter i before) := by
  have hnodup : (((s i).runItems (env i) 0).map PipelineRun.cursor).Nodup := by
    refine List.Nodup.of_map Cursor.id ?_
    rw [List.map_map]
    exact range_values_nodup (s i).runs_keyed _
  simp only [← mem_runItems (s i) (env i) _ 0]
  exact isPage_sorted PipelineRun.cursor hnodup (matchesRunFilter_iff { filter with before := before })
    hlimit

end Lists

/-- A client that follows the cursors of `ListExecutions` or of `ListPipelineRuns` until a page is
empty gets every matching record once, in strictly decreasing order. If records are created between
its requests, not before the creation time of the current cursor, it still gets every record that is
there and matches throughout, and none twice. -/
theorem pages_complete (env : ℕ → Env) :
    (∀ (s : MemoryStore) (filter : ListFilter), 1 ≤ filter.limit →
      ∃ n, ListsAll Execution.cursor (executionRequest env (fun _ => s) filter) filter.before
        {item | s.executions.lookup item.id = some item ∧ matchesFilter filter item = true} n) ∧
    (∀ (s : MemoryStore) (filter : RunFilter), 1 ≤ filter.limit →
      ∃ n, ListsAll PipelineRun.cursor (runRequest env (fun _ => s) filter) filter.before
        {run | s.runs.lookup run.id = some run ∧ matchesRunFilter filter run = true} n) ∧
    (∀ (s : ℕ → MemoryStore) (filter : ListFilter), 1 ≤ filter.limit →
      CreatedLater Execution.cursor (fun i => (s i).executions)
        (cursor Execution.cursor (executionRequest env s filter) filter.before) →
      ∃ n, StableListing Execution.cursor (fun i => (s i).executions) (matchesFilter filter)
        (executionRequest env s filter) filter.before n) ∧
    ∀ (s : ℕ → MemoryStore) (filter : RunFilter), 1 ≤ filter.limit →
      CreatedLater PipelineRun.cursor (fun i => (s i).runs)
        (cursor PipelineRun.cursor (runRequest env s filter) filter.before) →
      ∃ n, StableListing PipelineRun.cursor (fun i => (s i).runs) (matchesRunFilter filter)
        (runRequest env s filter) filter.before n := by
  refine ⟨fun s filter hlimit => ?_, fun s filter hlimit => ?_, fun s filter hlimit hlater => ?_,
    fun s filter hlimit hlater => ?_⟩
  · exact exists_listsAll_stored (executionRequest_isPage env (fun _ => s) hlimit)
      (matchesFilter_iff filter)
  · exact exists_listsAll_stored (runRequest_isPage env (fun _ => s) hlimit)
      (matchesRunFilter_iff filter)
  · exact exists_stableListing (fun i => (s i).executions_keyed) (executionRequest_isPage env s hlimit)
      hlater (matchesFilter_iff filter)
  · exact exists_stableListing (fun i => (s i).runs_keyed) (runRequest_isPage env s hlimit)
      hlater (matchesRunFilter_iff filter)

/-- A request for an execution of no pipeline. -/
def jobRequest : CreateExecution := ⟨"job", 1, "", 3, 0, "", none, ""⟩

def firstStore : MemoryStore := (createExecution (Env.at 5 0) newMemoryStore jobRequest).2

/-- A second execution is created after the first request of a client. -/
def growingStore (i : ℕ) : MemoryStore :=
  if i = 0 then firstStore else (createExecution (Env.at 9 10) firstStore jobRequest).2

/-- Pages of one execution, and of one run. -/
def onePerPage : ListFilter := ⟨"job", none, none, 1, none⟩

def oneRunPerPage : RunFilter := ⟨[], 1, none⟩

theorem firstStore_lookup (id : UUID) :
    firstStore.executions.lookup id =
      if id = 1 then some (created (Env.at 5 0) jobRequest) else none := by
  rw [show firstStore.executions = (∅ : Table UUID Execution).insert 1
    (created (Env.at 5 0) jobRequest) from rfl, lookup_insert_ite, AList.lookup_empty]

theorem growingStore_lookup (i : ℕ) (id : UUID) :
    (growingStore i).executions.lookup id =
      if i ≠ 0 ∧ id = 11 then some (created (Env.at 9 10) jobRequest)
      else firstStore.executions.lookup id := by
  by_cases hi : i = 0
  · simp [growingStore, hi]
  · rw [growingStore, if_neg hi, show (createExecution (Env.at 9 10) firstStore jobRequest).2.executions =
      firstStore.executions.insert 11 (created (Env.at 9 10) jobRequest) from rfl, lookup_insert_ite]
    simp [hi]

/-- The second execution is created after the cursor of the first page. -/
theorem growingStore_createdLater :
    CreatedLater Execution.cursor (fun i => (growingStore i).executions)
      (cursor Execution.cursor (executionRequest (fun _ => Env.at 9 20) growingStore onePerPage)
        none) where
  kept := by
    intro i j id a b ha hb
    rw [growingStore_lookup, firstStore_lookup] at ha hb
    by_cases hfirst : id = 1
    · subst hfirst
      simp at ha hb
      rw [← ha, ← hb]
    · by_cases hsecond : id = 11
      · simp [hsecond] at ha hb
        rw [← ha.2, ← hb.2]
      · simp [hfirst, hsecond] at ha
  added := by
    intro i id b c hcursor hnone hb
    rw [growingStore_lookup] at hnone hb
    by_cases hi : i = 0
    · subst hi
      have hc : c = ⟨5, 1⟩ := Option.some.inj (hcursor.symm.trans (by decide))
      by_cases hsecond : id = 11
      · simp [hsecond] at hb
        rw [hc, ← hb]
        decide
      · simp [hsecond] at hnone hb
        rw [hnone] at hb
        cases hb
    · simp only [ne_eq, hi, not_false_eq_true, true_and, Nat.succ_ne_zero] at hnone hb
      rw [hnone] at hb
      cases hb

theorem pages_complete_of_growingStore :
    (∃ n, ListsAll Execution.cursor
      (executionRequest (fun _ => Env.at 9 20) (fun _ => growingStore 1) onePerPage) none
      {item | (growingStore 1).executions.lookup item.id = some item ∧
        matchesFilter onePerPage item = true} n) ∧
    (∃ n, StableListing Execution.cursor (fun i => (growingStore i).executions)
      (matchesFilter onePerPage)
      (executionRequest (fun _ => Env.at 9 20) growingStore onePerPage) none n) ∧
    ∃ n, StableListing PipelineRun.cursor (fun i => (growingStore i).runs)
      (matchesRunFilter oneRunPerPage)
      (runRequest (fun _ => Env.at 9 20) growingStore oneRunPerPage) none n := by
  obtain ⟨hexecutions, -, hgrowing, hruns⟩ := pages_complete fun _ => Env.at 9 20
  refine ⟨hexecutions (growingStore 1) onePerPage le_rfl,
    hgrowing growingStore onePerPage le_rfl growingStore_createdLater,
    hruns growingStore oneRunPerPage le_rfl ?_⟩
  have hempty : ∀ i id, (growingStore i).runs.lookup id = none := by
    intro i id
    unfold growingStore
    split <;> rfl
  constructor
  · intro i j id a b ha
    simp [hempty] at ha
  · intro i id b c _ _ hb
    simp [hempty] at hb

end Memory

end Ody
