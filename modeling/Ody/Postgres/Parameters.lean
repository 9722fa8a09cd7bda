import Ody.Library.Delimited
import Ody.Postgres.Queries

/-!
# Parameters of generated statements

Every placeholder of a generated statement stands for the argument that it was
written for. Each loop and each optional field appends arguments behind the ones
that earlier placeholders refer to, so earlier conditions keep their meaning; the
lists of conditions and arguments therefore grow together, one step at a time.
-/

namespace Ody.Postgres

open Library.Delimited Library.Placeholders Library.Tables

/-! ## Single conditions -/

theorem Value.order_eq_iff {a b : Value} : a.order b = some .eq ↔ a = b := by
  cases a <;> cases b <;> simp [Value.order]

section Tests

variable {row : Row} {args : List Value}

/-- An equation is accepted and holds if the column has the value of the placeholder. -/
theorem test_equal (row : Row) (column : Column) {n : Nat} {arg : Value}
    (harg : denoted args n = some arg)
    (htype : ∀ v, row.value column = some v → (v.order arg).isSome = true) :
    (row.test args (.equal column n)).isSome = true ∧
      (row.test args (.equal column n) = some .holds ↔ row.value column = some arg) := by
  cases hvalue : row.value column with
  | none =>
      have htest : row.test args (.equal column n) = some .unknown := equalTruth_missing harg hvalue
      rw [htest]
      simp
  | some v =>
      obtain ⟨o, ho⟩ := Option.isSome_iff_exists.mp (htype v hvalue)
      have htest : row.test args (.equal column n) = some (if o = .eq then .holds else .fails) :=
        equalTruth_eq harg hvalue ho
      have heq : o = .eq ↔ v = arg := by
        rw [← Value.order_eq_iff, ho, Option.some.injEq]
      rw [htest]
      refine ⟨rfl, ?_⟩
      by_cases hsame : o = .eq
      · simp [hsame, heq.mp hsame]
      · simp [hsame, mt heq.mpr hsame]

/-- The cursor condition is the cursor test of the in-memory store. -/
theorem test_before {n n' : Nat} {cursor : Cursor}
    (hcreated : denoted args n = some (.timestamp cursor.createdAt))
    (hid : denoted args n' = some (.uuid cursor.id)) :
    (row.test args (.before (.createdAt, .id) (n, n'))).isSome = true ∧
      (row.test args (.before (.createdAt, .id) (n, n')) = some .holds ↔
        Memory.beforeCursor row.createdAt row.id cursor = true) := by
  have hfirst : compared Value.order row.value args .createdAt n =
      some (some (compare row.createdAt cursor.createdAt)) := compared_eq hcreated rfl rfl
  have hsecond : compared Value.order row.value args .id n' =
      some (some (compare row.id cursor.id)) := compared_eq hid rfl rfl
  have htest : row.test args (.before (.createdAt, .id) (n, n')) =
      some (lexTruth (some (compare row.createdAt cursor.createdAt))
        (some (compare row.id cursor.id))) := by
    simp only [Row.test, Condition.eval, hfirst, hsecond]
  rw [htest]
  refine ⟨rfl, ?_⟩
  rw [Option.some.injEq, Memory.beforeCursor_iff, Cursor.lt_iff]
  rcases lt_trichotomy row.createdAt cursor.createdAt with hlt | heq | hgt
  · rw [compare_lt_iff_lt.mpr hlt]
    simp [lexTruth, hlt]
  · rw [compare_eq_iff_eq.mpr heq]
    simp [lexTruth, truth, heq, compare_lt_iff_lt]
  · rw [compare_gt_iff_gt.mpr hgt]
    simp [lexTruth, hgt.ne', not_lt.mpr hgt.le]

end Tests

/-! ## Claim -/

section Claim

variable {keys : List TaskKey} {acc : List (List (Condition Column)) × List Value}

/-- The routing conditions for the keys, with the arguments so far. -/
structure Routed (keys : List TaskKey) (acc : List (List (Condition Column)) × List Value) :
    Prop where
  numbered : Numbered (acc.1.flatMap (·.flatMap Condition.params)) acc.2
  accepted : ∀ row : Row, ∀ group ∈ acc.1,
    (conjunction Value.order row.value acc.2 group).isSome = true
  holds : ∀ row : Row,
    (∃ group ∈ acc.1, conjunction Value.order row.value acc.2 group = some .holds) ↔
      ⟨row.taskName, row.taskVersion⟩ ∈ keys

theorem Routed.bounded (h : Routed keys acc) :
    ∀ group ∈ acc.1, ∀ condition ∈ group, ∀ n ∈ condition.params, n ≤ acc.2.length := by
  intro group hgroup condition hcondition n hn
  refine ((h.numbered n).mp ?_).2
  exact List.mem_flatMap.mpr ⟨group, hgroup, List.mem_flatMap.mpr ⟨condition, hcondition, hn⟩⟩

/-- The condition for one key, behind the arguments of the others. -/
theorem route_spec (row : Row) (args : List Value) (key : TaskKey) :
    let group : List (Condition Column) :=
      [.equal .taskName (args.length + 1), .equal .taskVersion (args.length + 2)]
    let args' := args ++ [.text key.name, .integer key.version]
    (conjunction Value.order row.value args' group).isSome = true ∧
      (conjunction Value.order row.value args' group = some .holds ↔
        (⟨row.taskName, row.taskVersion⟩ : TaskKey) = key) := by
  intro group args'
  obtain ⟨hname, hnameHolds⟩ := test_equal row .taskName
    (denoted_appended args [.text key.name, .integer key.version] 0) (by rintro v ⟨⟩; rfl)
  obtain ⟨hversion, hversionHolds⟩ := test_equal row .taskVersion
    (denoted_appended args [.text key.name, .integer key.version] 1) (by rintro v ⟨⟩; rfl)
  have haccepted : ∀ condition ∈ group, (row.test args' condition).isSome = true := by
    intro condition hmem
    rcases List.mem_pair.mp hmem with rfl | rfl
    · exact hname
    · exact hversion
  obtain ⟨hsome, hholds⟩ := conjunction_spec (List.cons_ne_nil _ _) haccepted
  refine ⟨hsome, hholds.trans ?_⟩
  simp only [List.forall_mem_cons, List.not_mem_nil, false_imp_iff, implies_true, and_true]
  rw [hnameHolds, hversionHolds]
  obtain ⟨name, version⟩ := key
  simp [Row.value]

theorem Routed.route (h : Routed keys acc) (key : TaskKey) :
    Routed (keys ++ [key]) (route acc key) := by
  have hold : ∀ row : Row, ∀ group ∈ acc.1,
      conjunction Value.order row.value (Postgres.route acc key).2 group =
        conjunction Value.order row.value acc.2 group :=
    fun row group hmem => conjunction_append (h.bounded group hmem) _
  refine ⟨?_, ?_, ?_⟩
  · have hparams : (Postgres.route acc key).1.flatMap (·.flatMap Condition.params) =
        acc.1.flatMap (·.flatMap Condition.params) ++ [acc.2.length + 1, acc.2.length + 2] := by
      simp [Postgres.route, Condition.params]
    rw [hparams]
    apply h.numbered.append
    intro n
    simp only [List.mem_cons, List.not_mem_nil, or_false, List.length_cons, List.length_nil]
    omega
  · intro row group hmem
    rcases List.mem_append.mp hmem with hmem | hmem
    · rw [hold row group hmem]
      exact h.accepted row group hmem
    · obtain rfl := List.mem_singleton.mp hmem
      exact (route_spec row acc.2 key).1
  · intro row
    rw [List.mem_append, List.mem_singleton, ← h.holds row, ← (route_spec row acc.2 key).2]
    constructor
    · rintro ⟨group, hmem, hgroup⟩
      rcases List.mem_append.mp hmem with hmem | hmem
      · exact Or.inl ⟨group, hmem, (hold row group hmem).symm.trans hgroup⟩
      · obtain rfl := List.mem_singleton.mp hmem
        exact Or.inr hgroup
    · rintro (⟨group, hmem, hgroup⟩ | hgroup)
      · exact ⟨group, List.mem_append_left _ hmem, (hold row group hmem).trans hgroup⟩
      · exact ⟨_, List.mem_append_right _ (List.mem_singleton.mpr rfl), hgroup⟩

/-- The loop over the keys. -/
theorem Routed.foldl (h : Routed keys acc) (more : List TaskKey) :
    Routed (keys ++ more) (more.foldl Postgres.route acc) := by
  induction more generalizing keys acc with
  | nil =>
      rw [List.append_nil]
      exact h
  | cons key more ih =>
      rw [List.append_cons]
      exact ih (h.route key)

theorem routed (keys : List TaskKey) : Routed keys (keys.foldl route ([], [])) := by
  have hempty : Routed [] ([], []) := by
    constructor
    · intro n
      simp only [List.flatMap_nil, List.not_mem_nil, List.length_nil, false_iff]
      omega
    · simp
    · simp
  exact hempty.foldl keys

theorem length_foldl_route (keys : List TaskKey)
    (acc : List (List (Condition Column)) × List Value) :
    (keys.foldl route acc).1.length = acc.1.length + keys.length := by
  induction keys generalizing acc with
  | nil => rfl
  | cons key keys ih =>
      rw [List.foldl_cons, ih, route, List.length_append, List.length_singleton, List.length_cons]
      omega

theorem Column.piece (column : Column) : Piece column.name [] := by
  cases column <;> exact Piece.literal _ rfl

theorem piece_executionColumns : Piece executionColumns [] := by
  unfold executionColumns
  exact ((Piece.literal _ rfl).append (Piece.literal _ rfl)).append (Piece.literal _ rfl)

theorem dollar_notMem_columns : '$' ∉ executionColumns.toList := by
  unfold executionColumns
  simp only [String.toList_append, List.mem_append, not_or]
  refine ⟨⟨?_, ?_⟩, ?_⟩ <;> exact String.toList_ofList ▸ (by decide)

theorem dollar_notMem_split {part : List Char} (h : part ∈ executionColumns.toList.splitOn ',') :
    '$' ∉ part := by
  intro hmem
  have hcolumns := mem_intercalate [','] h hmem
  rw [List.intercalate_splitOn] at hcolumns
  exact dollar_notMem_columns hcolumns

theorem piece_prefixedColumn {part : List Char} (h : '$' ∉ part) :
    Piece ("e" ++ "." ++ trimSpace (String.ofList part)) [] := by
  have htable : ("e" ++ ".").toList = ['e', '.'] := by decide
  have hdollar : '$' ∉ (trimSpace (String.ofList part)).toList := by
    intro hmem
    have hpart := trimSpace_subset _ hmem
    rw [String.toList_ofList] at hpart
    exact h hpart
  apply Piece.plain
  · rw [String.toList_append, htable]
    rintro c ⟨⟩
    decide
  · rw [String.toList_append, htable, List.mem_append, not_or]
    exact ⟨by decide, hdollar⟩

theorem piece_prefixedColumns : Piece (prefixedColumns "e") [] := by
  have hcomma : Piece "," [] := Piece.literal _ rfl
  have hparts := Piece.join (executionColumns.toList.splitOn ',') hcomma
    fun part hpart => piece_prefixedColumn (dollar_notMem_split hpart)
  rwa [List.flatMap_eq_nil_iff.mpr fun _ _ => rfl] at hparts

theorem ClaimQuery.plain (q : ClaimQuery) : ∀ fragment ∈ q.fragments, fragment.Plain := by
  simp only [ClaimQuery.fragments, List.forall_mem_cons, List.not_mem_nil, false_imp_iff,
    implies_true, and_true, Fragment.Plain, true_and]
  refine ⟨Piece.literal _ rfl, Piece.literal _ rfl, Piece.literal _ rfl, Piece.literal _ rfl,
    Piece.literal _ rfl, Piece.literal _ rfl, Piece.literal _ rfl, Piece.literal _ rfl,
    Piece.literal _ rfl, Piece.literal _ rfl, piece_prefixedColumns⟩

theorem ClaimQuery.read (q : ClaimQuery) : placeholders (statement Column.name q.fragments) =
    q.routing.flatMap (·.flatMap Condition.params) ++
      [q.limitParam, q.ownerParam, q.leaseParam] := by
  rw [placeholders_statement Column.piece q.plain]
  simp [ClaimQuery.fragments, Fragment.params]

/-- The statement of `Claim`: its routing condition selects the keys, the last three placeholders of
the text stand for limit, owner and lease, and each argument has a placeholder. -/
structure ClaimParameters (owner : String) (keys : List TaskKey) (limit : Int) (lease : Duration)
    (q : ClaimQuery) : Prop where
  routes : ∀ row, (q.routes row).isSome = true ∧
    (q.routes row = some .holds ↔ ⟨row.taskName, row.taskVersion⟩ ∈ keys)
  read : ∃ routing, placeholders (statement Column.name q.fragments) =
    routing ++ [q.limitParam, q.ownerParam, q.leaseParam]
  denoted_limit : denoted q.args q.limitParam = some (.integer (if limit ≤ 0 then 1 else limit))
  denoted_owner : denoted q.args q.ownerParam = some (.text owner)
  denoted_lease : denoted q.args q.leaseParam = some (.integer (milliseconds lease))
  numbered : Numbered (placeholders (statement Column.name q.fragments)) q.args

theorem claimQuery_parameters (owner : String) (hkeys : keys ≠ []) (limit : Int)
    (lease : Duration) :
    ∃ q, claimQuery owner keys limit lease = some q ∧
      ClaimParameters owner keys limit lease q := by
  refine ⟨_, if_neg hkeys, ?_⟩
  have hrouted := routed keys
  have hgroups : (keys.foldl route ([], [])).1 ≠ [] := by
    intro hnil
    have hlength := length_foldl_route keys ([], [])
    rw [hnil, List.length_nil, Nat.zero_add] at hlength
    exact hkeys (List.length_eq_zero_iff.mp hlength.symm)
  generalize keys.foldl route ([], []) = acc at hrouted hgroups
  constructor
  · intro row
    obtain ⟨hsome, hholds⟩ := disjunction_spec hgroups (hrouted.accepted row)
    rw [ClaimQuery.routes, disjunction_append hrouted.bounded]
    exact ⟨hsome, hholds.trans (hrouted.holds row)⟩
  · exact ⟨_, ClaimQuery.read _⟩
  · exact denoted_appended acc.2 _ 0
  · exact denoted_appended acc.2 _ 1
  · exact denoted_appended acc.2 _ 2
  · rw [ClaimQuery.read]
    apply hrouted.numbered.append
    intro n
    simp only [List.mem_cons, List.not_mem_nil, or_false, List.length_cons, List.length_nil]
    omega

end Claim

/-! ## ListExecutions -/

section List

variable {P Q : Row → Prop} {acc : List (Condition Column) × List Value}

/-- The conditions so far select the rows with a property. -/
structure Selecting (P : Row → Prop) (acc : List (Condition Column) × List Value) : Prop where
  nonempty : acc.1 ≠ []
  numbered : Numbered (acc.1.flatMap Condition.params) acc.2
  accepted : ∀ row : Row, ∀ condition ∈ acc.1, (row.test acc.2 condition).isSome = true
  holds : ∀ row : Row, (∀ condition ∈ acc.1, row.test acc.2 condition = some .holds) ↔ P row

theorem Selecting.bounded (h : Selecting P acc) :
    ∀ condition ∈ acc.1, ∀ n ∈ condition.params, n ≤ acc.2.length := by
  intro condition hcondition n hn
  exact ((h.numbered n).mp (List.mem_flatMap.mpr ⟨condition, hcondition, hn⟩)).2

theorem Selecting.congr (h : Selecting P acc) (hPQ : ∀ row, P row ↔ Q row) : Selecting Q acc :=
  ⟨h.nonempty, h.numbered, h.accepted, fun row => (h.holds row).trans (hPQ row)⟩

/-- One more condition, with its own arguments. -/
theorem Selecting.add (h : Selecting P acc) {condition : Condition Column} {more : List Value}
    (hparams : ∀ n, n ∈ condition.params ↔
      acc.2.length < n ∧ n ≤ acc.2.length + more.length)
    (hspec : ∀ row : Row, (row.test (acc.2 ++ more) condition).isSome = true ∧
      (row.test (acc.2 ++ more) condition = some .holds ↔ Q row)) :
    Selecting (fun row => P row ∧ Q row) (acc.1 ++ [condition], acc.2 ++ more) := by
  have hold : ∀ row : Row, ∀ c ∈ acc.1, row.test (acc.2 ++ more) c = row.test acc.2 c :=
    fun row c hmem => Condition.eval_append (h.bounded c hmem) more
  refine ⟨by simp, ?_, ?_, ?_⟩
  · rw [List.flatMap_append, List.flatMap_singleton]
    exact h.numbered.append hparams
  · intro row c hmem
    rcases List.mem_append.mp hmem with hmem | hmem
    · rw [hold row c hmem]
      exact h.accepted row c hmem
    · obtain rfl := List.mem_singleton.mp hmem
      exact (hspec row).1
  · intro row
    rw [List.forall_mem_append, List.forall_mem_singleton, (hspec row).2, ← h.holds row]
    apply and_congr_left'
    exact forall₂_congr fun c hmem => by rw [hold row c hmem]

theorem Selecting.withEqual (h : Selecting P acc) (column : Column) (value : Option Value)
    (htype : ∀ v ∈ value, ∀ row : Row, ∀ w, row.value column = some w →
      (w.order v).isSome = true) :
    Selecting (fun row => P row ∧ ∀ v ∈ value, row.value column = some v)
      (withEqual column value acc) := by
  cases value with
  | none => simpa [Postgres.withEqual] using h
  | some v =>
      have hlength : (acc.2 ++ [v]).length = acc.2.length + 1 := List.length_append
      simp only [Postgres.withEqual, Option.mem_some_iff, forall_eq', hlength]
      apply h.add
      · intro n
        simp only [Condition.params, List.mem_singleton, List.length_singleton]
        omega
      · intro row
        exact test_equal row column (denoted_appended acc.2 [v] 0) (htype v rfl row)

theorem Selecting.withCursor (h : Selecting P acc) (before : Option Cursor) :
    Selecting (fun row => P row ∧
        (before.all fun cursor => Memory.beforeCursor row.createdAt row.id cursor) = true)
      (withCursor before acc) := by
  cases before with
  | none => simpa [Postgres.withCursor] using h
  | some cursor =>
      have hlength : (acc.2 ++ [Value.timestamp cursor.createdAt, .uuid cursor.id]).length =
          acc.2.length + 2 := List.length_append
      simp only [Postgres.withCursor, Option.all_some, hlength]
      apply h.add
      · intro n
        simp only [Condition.params, List.mem_cons, List.not_mem_nil, or_false, List.length_cons,
          List.length_nil]
        omega
      · intro row
        exact test_before (denoted_appended acc.2 _ 0) (denoted_appended acc.2 _ 1)

theorem nameTest_iff (row : Row) (name : String) :
    (∀ v ∈ (if name = "" then none else some (Value.text name)), row.value .taskName = some v) ↔
      (name == "" || row.taskName == name) = true := by
  by_cases hname : name = ""
  · simp [hname]
  · simp [hname, Row.value]

theorem statusTest_iff (row : Row) (status : Option Status) :
    (∀ v ∈ status.map (fun status => Value.text status.text), row.value .status = some v) ↔
      (status.all fun status => row.status == status) = true := by
  cases status with
  | none => simp
  | some status => simp [Row.value, Status.text_injective.eq_iff]

theorem runTest_iff (row : Row) (runID : Option UUID) :
    (∀ v ∈ runID.map Value.uuid, row.value .pipelineRunID = some v) ↔
      (runID.all fun runID => row.pipelineRunID == some runID) = true := by
  cases runID with
  | none => simp
  | some runID => simp [Row.value]

/-- The `WHERE` clause selects the rows that pass the tests of the in-memory store. -/
theorem selecting_listConditions (filter : ListFilter) :
    Selecting (fun row => Memory.matchesFilter filter (scanExecution row) = true)
      (listConditions filter) := by
  have halways : Selecting (fun _ => True) ([.always], []) := by
    refine ⟨by simp, ?_, ?_, ?_⟩
    · intro n
      simp only [List.flatMap_singleton, Condition.params, List.not_mem_nil, List.length_nil,
        false_iff]
      omega
    · simp [Row.test, Condition.eval]
    · simp [Row.test, Condition.eval]
  have hname : ∀ v ∈ (if filter.taskName = "" then none else some (Value.text filter.taskName)),
      ∀ row : Row, ∀ w, row.value .taskName = some w → (w.order v).isSome = true := by
    rintro v hv row w ⟨⟩
    obtain ⟨-, ⟨⟩⟩ := Option.ite_none_left_eq_some.mp hv
    rfl
  have hstatus : ∀ v ∈ filter.status.map (fun status => Value.text status.text),
      ∀ row : Row, ∀ w, row.value .status = some w → (w.order v).isSome = true := by
    rintro v hv row w ⟨⟩
    obtain ⟨status, -, rfl⟩ := Option.map_eq_some_iff.mp hv
    rfl
  have hrun : ∀ v ∈ filter.pipelineRunID.map Value.uuid,
      ∀ row : Row, ∀ w, row.value .pipelineRunID = some w → (w.order v).isSome = true := by
    intro v hv row w hw
    obtain ⟨runID, -, rfl⟩ := Option.map_eq_some_iff.mp hv
    obtain ⟨rowRun, -, rfl⟩ := Option.map_eq_some_iff.mp hw
    rfl
  have hall := (((halways.withEqual .taskName _ hname).withEqual .status _ hstatus).withEqual
    .pipelineRunID _ hrun).withCursor filter.before
  refine hall.congr fun row => ?_
  rw [true_and, nameTest_iff, statusTest_iff, runTest_iff, Memory.matchesFilter, Bool.and_eq_true,
    Bool.and_eq_true, Bool.and_eq_true]
  rfl

theorem ListQuery.plain (q : ListQuery) : ∀ fragment ∈ q.fragments, fragment.Plain := by
  obtain ⟨conditions, limitParam, args⟩ := q
  cases limitParam with
  | none =>
      simp only [ListQuery.fragments, List.append_nil, List.forall_mem_cons, List.not_mem_nil,
        false_imp_iff, implies_true, and_true, Fragment.Plain, true_and]
      exact ⟨Piece.literal _ rfl, piece_executionColumns, Piece.literal _ rfl,
        Piece.literal _ rfl⟩
  | some n =>
      simp only [ListQuery.fragments, List.cons_append, List.nil_append, List.forall_mem_cons,
        List.not_mem_nil, false_imp_iff, implies_true, and_true, Fragment.Plain, true_and]
      exact ⟨Piece.literal _ rfl, piece_executionColumns, Piece.literal _ rfl, Piece.literal _ rfl,
        Piece.literal _ rfl⟩

theorem ListQuery.read (q : ListQuery) : placeholders (statement Column.name q.fragments) =
    q.conditions.flatMap Condition.params ++ q.limitParam.toList := by
  rw [placeholders_statement Column.piece q.plain]
  obtain ⟨conditions, limitParam, args⟩ := q
  cases limitParam <;> simp [ListQuery.fragments, Fragment.params]

/-- The statement of `ListExecutions`: its `WHERE` clause has the meaning of the in-memory tests,
its limit is the filter's, each argument has a placeholder, and its result is the list that the
in-memory store returns for the same executions. -/
structure ListParameters (filter : ListFilter) : Prop where
  selects : ∀ row, ((listQuery filter).selects row).isSome = true ∧
    ((listQuery filter).selects row = some .holds ↔
      Memory.matchesFilter filter (scanExecution row) = true)
  limit : (listQuery filter).limitParam.map (denoted (listQuery filter).args) =
    if 0 < filter.limit then some (some (.integer filter.limit)) else none
  numbered : Numbered (placeholders (statement Column.name (listQuery filter).fragments))
    (listQuery filter).args
  lists : ∀ order env db (s : Memory.MemoryStore),
    (∀ id, s.executions.lookup id = (db.executions.lookup id).map scanExecution) →
    listExecutions order db filter = some (Memory.listExecutions env s filter)

theorem listQuery_limited {filter : ListFilter} (h : 0 < filter.limit) :
    listQuery filter = ⟨(listConditions filter).1, some ((listConditions filter).2.length + 1),
      (listConditions filter).2 ++ [.integer filter.limit]⟩ := by
  simp [listQuery, h]

theorem listQuery_all {filter : ListFilter} (h : ¬ 0 < filter.limit) :
    listQuery filter = ⟨(listConditions filter).1, none, (listConditions filter).2⟩ := by
  simp [listQuery, h]

theorem listQuery_selects (filter : ListFilter) (row : Row) :
    ((listQuery filter).selects row).isSome = true ∧
      ((listQuery filter).selects row = some .holds ↔
        Memory.matchesFilter filter (scanExecution row) = true) := by
  have hselecting := selecting_listConditions filter
  obtain ⟨hsome, hholds⟩ := conjunction_spec hselecting.nonempty (hselecting.accepted row)
  have hspec : (conjunction Value.order row.value (listConditions filter).2
      (listConditions filter).1).isSome = true ∧
      (conjunction Value.order row.value (listConditions filter).2 (listConditions filter).1 =
        some .holds ↔ Memory.matchesFilter filter (scanExecution row) = true) :=
    ⟨hsome, hholds.trans (hselecting.holds row)⟩
  by_cases hlimit : 0 < filter.limit
  · rw [listQuery_limited hlimit, ListQuery.selects, conjunction_append hselecting.bounded]
    exact hspec
  · rw [listQuery_all hlimit]
    exact hspec

theorem listQuery_numbered (filter : ListFilter) :
    Numbered (placeholders (statement Column.name (listQuery filter).fragments))
      (listQuery filter).args := by
  have hselecting := selecting_listConditions filter
  rw [ListQuery.read]
  by_cases hlimit : 0 < filter.limit
  · rw [listQuery_limited hlimit]
    apply hselecting.numbered.append
    intro n
    simp only [Option.toList_some, List.mem_singleton, List.length_singleton]
    omega
  · rw [listQuery_all hlimit, Option.toList_none, List.append_nil]
    exact hselecting.numbered

theorem listQuery_limit (filter : ListFilter) :
    (listQuery filter).limitParam.map (denoted (listQuery filter).args) =
      if 0 < filter.limit then some (some (.integer filter.limit)) else none := by
  by_cases hlimit : 0 < filter.limit
  · rw [listQuery_limited hlimit, if_pos hlimit, Option.map_some]
    exact congrArg some (denoted_appended _ _ 0)
  · rw [listQuery_all hlimit, if_neg hlimit, Option.map_none]

/-- The cut of the statement is the one of the in-memory store. -/
theorem listQuery_cut (filter : ListFilter) (rows : List Row) :
    (listQuery filter).cut rows = some (Memory.page filter.limit rows) := by
  have hparam := listQuery_limit filter
  by_cases hlimit : 0 < filter.limit
  · rw [if_pos hlimit] at hparam
    obtain ⟨n, hn, harg⟩ := Option.map_eq_some_iff.mp hparam
    rw [ListQuery.cut, hn, Memory.page, if_pos hlimit]
    simp only [harg]
  · rw [if_neg hlimit, Option.map_eq_none_iff] at hparam
    rw [ListQuery.cut, hparam, Memory.page, if_neg hlimit]

section Stores

variable (order : RangeOrder (Entry UUID Row)) (env : Memory.Env) {db : Database}
  {s : Memory.MemoryStore}

/-- The rows that the server reads are the executions of the store. -/
theorem rows_perm (h : ∀ id, s.executions.lookup id = (db.executions.lookup id).map scanExecution) :
    (((range order db.executions).map (·.2)).map scanExecution).Perm (s.items env 0) := by
  have hids : ((((range order db.executions).map (·.2)).map scanExecution).map (·.id)).Nodup := by
    rw [List.map_map]
    exact range_values_nodup db.executions_keyed order
  have hids' := Memory.items_ids_nodup s env 0
  refine (List.perm_ext_iff_of_nodup hids.of_map hids'.of_map).mpr ?_
  intro item
  rw [Memory.mem_items, h, Option.map_eq_some_iff, List.mem_map]
  constructor
  · rintro ⟨row, hrow, rfl⟩
    exact ⟨row, (mem_range_values db.executions_keyed).mp hrow, rfl⟩
  · rintro ⟨row, hl, rfl⟩
    exact ⟨row, (mem_range_values db.executions_keyed).mpr hl, rfl⟩

theorem map_page (f : Row → Execution) (limit : Int) (rows : List Row) :
    (Memory.page limit rows).map f = Memory.page limit (rows.map f) := by
  unfold Memory.page
  split
  · exact List.map_take
  · rfl

theorem listExecutions_eq
    (h : ∀ id, s.executions.lookup id = (db.executions.lookup id).map scanExecution)
    (filter : ListFilter) :
    listExecutions order db filter = some (Memory.listExecutions env s filter) := by
  have htest : (fun row => decide ((listQuery filter).selects row = some .holds)) =
      Memory.matchesFilter filter ∘ scanExecution := by
    funext row
    rw [Bool.eq_iff_iff, decide_eq_true_iff]
    exact (listQuery_selects filter row).2
  have hrows := (rows_perm order env h).filter (Memory.matchesFilter filter)
  rw [List.filter_map, ← htest] at hrows
  have hsorted := Memory.insertionSort_eq Execution.cursor hrows ?_
  · have hmap := List.map_insertionSort
      (fun a b : Row => Memory.newer b.createdAt b.id a.createdAt a.id = false)
      (Memory.notNewer Execution.cursor) scanExecution
      (((range order db.executions).map (·.2)).filter fun row =>
        (listQuery filter).selects row = some .holds) fun a _ b _ => Iff.rfl
    unfold listExecutions
    dsimp only
    rw [listQuery_cut, Option.map_some, map_page, hmap, hsorted]
    rfl
  · intro a ha b hb hcursor
    have hstored := (Memory.mem_items s env a 0).mp (List.mem_of_mem_filter (hrows.mem_iff.mp ha))
    have hstored' := (Memory.mem_items s env b 0).mp (List.mem_of_mem_filter (hrows.mem_iff.mp hb))
    have hid : a.id = b.id := congrArg Cursor.id hcursor
    rw [hid] at hstored
    exact Option.some.inj (hstored.symm.trans hstored')

end Stores

end List

/-! ## RestartPipelineSubgraph -/

section Restart

variable {keys : List String} {acc : List Nat × List Value}

/-- The placeholders of the node keys, with the arguments so far. The run has the first one. -/
structure Listed (runID : UUID) (keys : List String) (acc : List Nat × List Value) : Prop where
  args : acc.2 = .uuid runID :: keys.map .text
  params : acc.1.map (denoted acc.2) = (keys.map Value.text).map some
  numbered : Numbered (1 :: acc.1) acc.2

theorem Listed.params_append {runID : UUID} (h : Listed runID keys acc) (more : List Value) :
    acc.1.map (denoted (acc.2 ++ more)) = (keys.map Value.text).map some := by
  rw [← h.params]
  apply List.map_congr_left
  intro n hn
  exact denoted_append ((h.numbered n).mp (List.mem_cons_of_mem 1 hn)).2 more

theorem Listed.addKey {runID : UUID} (h : Listed runID keys acc) (key : String) :
    Listed runID (keys ++ [key]) (addKey acc key) := by
  have hlength : (acc.2 ++ [Value.text key]).length = acc.2.length + 1 := List.length_append
  refine ⟨?_, ?_, ?_⟩
  · simp [Postgres.addKey, h.args]
  · have hold := h.params_append [.text key]
    have hnew : denoted (acc.2 ++ [.text key]) (acc.2.length + 1) = some (.text key) :=
      denoted_appended acc.2 [.text key] 0
    simp only [Postgres.addKey, hlength, List.map_append, List.map_singleton, hold, hnew]
  · simp only [Postgres.addKey, hlength, ← List.cons_append]
    apply h.numbered.append
    intro n
    simp only [List.mem_singleton, List.length_singleton]
    omega

theorem Listed.foldl {runID : UUID} (h : Listed runID keys acc) (more : List String) :
    Listed runID (keys ++ more) (more.foldl Postgres.addKey acc) := by
  induction more generalizing keys acc with
  | nil =>
      rw [List.append_nil]
      exact h
  | cons key more ih =>
      rw [List.append_cons]
      exact ih (h.addKey key)

theorem listed (runID : UUID) (keys : List String) :
    Listed runID keys (keys.foldl addKey ([], [.uuid runID])) := by
  have hempty : Listed runID [] ([], [.uuid runID]) := by
    refine ⟨rfl, rfl, ?_⟩
    intro n
    simp only [List.mem_singleton, List.length_singleton]
    omega
  exact hempty.foldl keys

/-- The `WHERE` clause selects the nodes of the subgraph, with the arguments of both statements. -/
theorem selects_subgraph {runID : UUID} (h : Listed runID keys acc) (hkeys : keys ≠ [])
    (more : List Value) (row : Row) :
    let clause := conjunction Value.order row.value (acc.2 ++ more)
      [.equal .pipelineRunID 1, .oneOf .nodeKey acc.1]
    clause.isSome = true ∧
      (clause = some .holds ↔ row.pipelineRunID = some runID ∧ row.nodeKey ∈ keys) := by
  intro clause
  have hrunArg : denoted (acc.2 ++ more) 1 = some (.uuid runID) := by
    rw [h.args]
    rfl
  have hrunType : ∀ w, row.value .pipelineRunID = some w →
      (w.order (.uuid runID)).isSome = true := by
    intro w hw
    obtain ⟨rowRun, -, rfl⟩ := Option.map_eq_some_iff.mp hw
    rfl
  have hkeyType : ∀ a ∈ keys.map Value.text, ((Value.text row.nodeKey).order a).isSome = true :=
    List.forall_mem_map.mpr fun key _ => rfl
  have hvalues : keys.map Value.text ≠ [] := fun hnil => hkeys (List.map_eq_nil_iff.mp hnil)
  obtain ⟨hrun, hrunHolds⟩ := test_equal row .pipelineRunID hrunArg hrunType
  have hrow : row.value .nodeKey = some (.text row.nodeKey) := rfl
  obtain ⟨hnode, hnodeHolds⟩ := oneOf_spec (h.params_append more) hvalues hrow hkeyType
  obtain ⟨hsome, hholds⟩ := conjunction_spec (List.cons_ne_nil _ _)
    (List.forall_mem_cons.mpr ⟨hrun, List.forall_mem_singleton.mpr hnode⟩)
  refine ⟨hsome, hholds.trans ?_⟩
  rw [List.forall_mem_cons, List.forall_mem_singleton, hrunHolds, hnodeHolds]
  apply and_congr
  · simp [Row.value]
  · simp [Value.order_eq_iff]

theorem RestartQuery.read_select (q : RestartQuery) :
    placeholders (statement Column.name q.selectFragments) = 1 :: q.keyParams := by
  have hplain : ∀ fragment ∈ q.selectFragments, fragment.Plain := by
    simp only [RestartQuery.selectFragments, List.forall_mem_cons, List.not_mem_nil, false_imp_iff,
      implies_true, and_true, Fragment.Plain, true_and]
    exact ⟨Piece.literal _ rfl, piece_executionColumns, Piece.literal _ rfl,
      Piece.literal _ rfl⟩
  rw [placeholders_statement Column.piece hplain]
  simp [RestartQuery.selectFragments, RestartQuery.conditions, Fragment.params, Condition.params]

theorem RestartQuery.read_update (q : RestartQuery) :
    placeholders (statement Column.name q.updateFragments) =
      2 :: q.availableParam :: 1 :: q.keyParams := by
  have hplain : ∀ fragment ∈ q.updateFragments, fragment.Plain := by
    simp only [RestartQuery.updateFragments, List.forall_mem_cons, List.not_mem_nil, false_imp_iff,
      implies_true, and_true, Fragment.Plain, true_and]
    exact ⟨Piece.literal _ rfl, Piece.literal _ rfl, Piece.literal _ rfl, Piece.literal _ rfl,
      Piece.literal _ rfl, piece_executionColumns⟩
  rw [placeholders_statement Column.piece hplain]
  simp [RestartQuery.updateFragments, RestartQuery.conditions, Fragment.params, Condition.params]

/-- The row of a node after the restart of its subgraph. -/
def restarted (root : String) (availableAt : Time) (row : Row) : Row :=
  { row with
    status := if row.nodeKey = root then .pending else .blocked
    attempt := 0
    availableAt := availableAt
    output := none
    lastError := ""
    startedAt := none
    finishedAt := none
    leaseOwner := ""
    leaseToken := none
    leaseUntil := none }

/-- The time from which a restarted root may be claimed. -/
def availableFrom (now : Time) (request : RestartSubgraph) : Time :=
  if request.availableAt = zeroTime then now else request.availableAt

/-- The statements of `RestartPipelineSubgraph`: the list of node keys is the root and its
descendants, `$2` is the root, the last placeholder is the time, and each statement uses all of its
arguments. -/
structure RestartParameters (now : Time) (request : RestartSubgraph) (q : RestartQuery) : Prop where
  keys : q.keyParams.map (denoted q.args) =
    ((request.rootNodeKey :: request.descendantKeys).map Value.text).map some
  root : denoted q.args 2 = some (.text request.rootNodeKey)
  last : q.availableParam = q.args.length
  available : denoted q.args q.availableParam = some (.timestamp (availableFrom now request))
  selects : ∀ args, args = q.selectArgs ∨ args = q.args → ∀ row,
    (q.selects args row).isSome = true ∧
      (q.selects args row = some .holds ↔ row.pipelineRunID = some request.runID ∧
        row.nodeKey ∈ request.rootNodeKey :: request.descendantKeys)
  set : ∀ row, q.set row = some (restarted request.rootNodeKey (availableFrom now request) row)
  numbered_select : Numbered (placeholders (statement Column.name q.selectFragments)) q.selectArgs
  numbered_update : Numbered (placeholders (statement Column.name q.updateFragments)) q.args

theorem Listed.parameters {request : RestartSubgraph}
    (h : Listed request.runID (request.rootNodeKey :: request.descendantKeys) acc) (now : Time) :
    RestartParameters now request
      ⟨acc.1, acc.2.length + 1, acc.2 ++ [.timestamp (availableFrom now request)]⟩ := by
  have hlength : acc.2.length = request.descendantKeys.length + 2 := by
    rw [h.args]
    simp
  have hselect : RestartQuery.selectArgs ⟨acc.1, acc.2.length + 1,
      acc.2 ++ [.timestamp (availableFrom now request)]⟩ = acc.2 := by
    simp [RestartQuery.selectArgs]
  have hroot : denoted (acc.2 ++ [Value.timestamp (availableFrom now request)]) 2 =
      some (.text request.rootNodeKey) := by
    rw [h.args]
    rfl
  have havailable : denoted (acc.2 ++ [Value.timestamp (availableFrom now request)])
      (acc.2.length + 1) = some (.timestamp (availableFrom now request)) :=
    denoted_appended acc.2 _ 0
  have hlast : acc.2.length + 1 =
      (acc.2 ++ [Value.timestamp (availableFrom now request)]).length := by simp
  refine ⟨h.params_append _, hroot, hlast, havailable, ?_, ?_, ?_, ?_⟩
  · rintro args (rfl | rfl) row
    · have hspec := selects_subgraph h (List.cons_ne_nil _ _) [] row
      rw [List.append_nil] at hspec
      rw [hselect]
      exact hspec
    · exact selects_subgraph h (List.cons_ne_nil _ _) _ row
  · intro row
    obtain ⟨hsome, hholds⟩ := test_equal row .nodeKey hroot (by rintro w ⟨⟩; rfl)
    obtain ⟨isRoot, htest⟩ := Option.isSome_iff_exists.mp hsome
    have hstatus : isRoot = .holds ↔ row.nodeKey = request.rootNodeKey := by
      rw [htest, Option.some.injEq] at hholds
      simpa [Row.value] using hholds
    simp only [RestartQuery.set, havailable, htest, hstatus]
    rfl
  · rw [RestartQuery.read_select, hselect]
    exact h.numbered
  · rw [RestartQuery.read_update]
    intro n
    rw [List.mem_cons, List.mem_cons, h.numbered n]
    change n = 2 ∨ n = acc.2.length + 1 ∨ 0 < n ∧ n ≤ acc.2.length ↔ 0 < n ∧
      n ≤ (acc.2 ++ [Value.timestamp (availableFrom now request)]).length
    omega

theorem restartQuery_parameters (now : Time) (request : RestartSubgraph) :
    RestartParameters now request (restartQuery now request) :=
  (listed request.runID (request.rootNodeKey :: request.descendantKeys)).parameters now

end Restart

/-- The placeholders of every generated statement stand for the arguments they are meant for. -/
theorem generated_parameters_line_up :
    (∀ owner keys limit lease, keys ≠ [] → ∃ q, claimQuery owner keys limit lease = some q ∧
      ClaimParameters owner keys limit lease q) ∧
    (∀ filter, ListParameters filter) ∧
    (∀ now request, RestartParameters now request (restartQuery now request)) := by
  refine ⟨?_, ?_, restartQuery_parameters⟩
  · intro owner keys limit lease hkeys
    exact claimQuery_parameters owner hkeys limit lease
  · intro filter
    exact ⟨listQuery_selects filter, listQuery_limit filter, listQuery_numbered filter,
      fun order env _ _ h => listExecutions_eq order env h filter⟩

end Ody.Postgres
