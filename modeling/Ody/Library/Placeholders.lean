import Mathlib.Data.List.Basic

/-!
# Statements with positional placeholders

Conditions of an SQL statement whose constants are the placeholders `$1`, `$2` and
so on, together with the list of arguments they stand for. A condition is refused
if a placeholder has no argument or if the types of a comparison differ, and it is
unknown if it compares a missing value. The second half is about texts: the
placeholders of a text that is put together from pieces are those of the pieces.

## Implementation notes

Conditions are grouped as statements group them: a conjunction is a list of
conditions and a disjunction a list of conjunctions. An empty list is not a
condition in SQL and is refused.
-/

namespace Ody.Library.Placeholders

/-! ## Arguments -/

section Arguments

variable {V : Type*}

/-- The argument that `$n` stands for; placeholders count from one. -/
def denoted (args : List V) : Nat → Option V
  | 0 => none
  | n + 1 => args[n]?

/-- Later arguments do not change what a placeholder stands for. -/
theorem denoted_append {args : List V} {n : Nat} (h : n ≤ args.length) (more : List V) :
    denoted (args ++ more) n = denoted args n := by
  cases n with
  | zero => rfl
  | succ n => exact List.getElem?_append_left h

/-- The placeholders of the arguments that are appended. -/
theorem denoted_appended (args more : List V) (k : Nat) :
    denoted (args ++ more) (args.length + (k + 1)) = more[k]? := by
  rw [← Nat.add_assoc, denoted, List.getElem?_append_right (Nat.le_add_right _ _),
    Nat.add_sub_cancel_left]

/-- Every placeholder has an argument, and every argument has a placeholder. -/
def Numbered (params : List Nat) (args : List V) : Prop :=
  ∀ n, n ∈ params ↔ 0 < n ∧ n ≤ args.length

theorem Numbered.append {params : List Nat} {args : List V} (h : Numbered params args)
    {new : List Nat} {more : List V}
    (hnew : ∀ n, n ∈ new ↔ args.length < n ∧ n ≤ args.length + more.length) :
    Numbered (params ++ new) (args ++ more) := by
  intro n
  rw [List.mem_append, h n, hnew n, List.length_append]
  omega

end Arguments

/-! ## Truth -/

/-- The truth values of SQL. -/
inductive Truth where
  | holds
  | fails
  | unknown
  deriving DecidableEq, Repr

def Truth.and : Truth → Truth → Truth
  | .fails, _ => .fails
  | _, .fails => .fails
  | .holds, .holds => .holds
  | _, _ => .unknown

def Truth.or : Truth → Truth → Truth
  | .holds, _ => .holds
  | _, .holds => .holds
  | .fails, .fails => .fails
  | _, _ => .unknown

theorem Truth.and_holds {a b : Truth} : a.and b = .holds ↔ a = .holds ∧ b = .holds := by
  cases a <;> cases b <;> decide

theorem Truth.or_holds {a b : Truth} : a.or b = .holds ↔ a = .holds ∨ b = .holds := by
  cases a <;> cases b <;> decide

/-- Two conditions put together; refused if one of them is. -/
def both (op : Truth → Truth → Truth) : Option Truth → Option Truth → Option Truth
  | some a, some b => some (op a b)
  | _, _ => none

/-- Conditions put together with `AND` or `OR`. -/
def joined (op : Truth → Truth → Truth) : List (Option Truth) → Option Truth
  | [] => none
  | [t] => t
  | t :: u :: rest => both op t (joined op (u :: rest))

section Joined

variable {l : List (Option Truth)}

/-- Nothing is refused if no part is. -/
theorem joined_isSome (op : Truth → Truth → Truth) (hne : l ≠ [])
    (h : ∀ t ∈ l, t.isSome = true) : (joined op l).isSome = true := by
  induction l with
  | nil => exact absurd rfl hne
  | cons t rest ih =>
      cases rest with
      | nil => exact h t List.mem_cons_self
      | cons u rest =>
          obtain ⟨a, ha⟩ := Option.isSome_iff_exists.mp (h t List.mem_cons_self)
          obtain ⟨b, hb⟩ := Option.isSome_iff_exists.mp
            (ih (List.cons_ne_nil u rest) fun t ht => h t (List.mem_cons_of_mem _ ht))
          rw [joined, ha, hb]
          rfl

/-- A conjunction holds if all its parts do. -/
theorem joined_and_holds (hne : l ≠ []) :
    joined Truth.and l = some .holds ↔ ∀ t ∈ l, t = some .holds := by
  induction l with
  | nil => exact absurd rfl hne
  | cons t rest ih =>
      cases rest with
      | nil => simp [joined]
      | cons u rest =>
          rw [List.forall_mem_cons, ← ih (List.cons_ne_nil u rest), joined]
          cases t with
          | none => simp [both]
          | some a => cases joined Truth.and (u :: rest) <;> simp [both, Truth.and_holds]

/-- A disjunction that is not refused holds if one of its parts does. -/
theorem joined_or_holds (h : ∀ t ∈ l, t.isSome = true) :
    joined Truth.or l = some .holds ↔ some .holds ∈ l := by
  induction l with
  | nil => simp [joined]
  | cons t rest ih =>
      cases rest with
      | nil => simp [joined, eq_comm]
      | cons u rest =>
          have htail : ∀ t ∈ u :: rest, t.isSome = true :=
            fun t ht => h t (List.mem_cons_of_mem _ ht)
          obtain ⟨a, rfl⟩ := Option.isSome_iff_exists.mp (h t List.mem_cons_self)
          obtain ⟨b, hb⟩ := Option.isSome_iff_exists.mp
            (joined_isSome Truth.or (List.cons_ne_nil u rest) htail)
          rw [List.mem_cons, ← ih htail, joined, hb, both, Option.some.injEq, Truth.or_holds,
            Option.some.injEq, Option.some.injEq, eq_comm]

end Joined

/-! ## Conditions -/

/-- A condition on columns and placeholders; `before` compares two columns with two placeholders,
the first ones first. -/
inductive Condition (C : Type*) where
  | always
  | equal (column : C) (param : Nat)
  | before (columns : C × C) (params : Nat × Nat)
  | oneOf (column : C) (params : List Nat)

/-- The placeholders of a condition, from left to right. -/
def Condition.params {C : Type*} : Condition C → List Nat
  | .always => []
  | .equal _ param => [param]
  | .before _ params => [params.1, params.2]
  | .oneOf _ params => params

section Conditions

variable {C V : Type*} (order : V → V → Option Ordering) (row : C → Option V) (args : List V)

/-- The comparison of a column with a placeholder. -/
def compared (column : C) (param : Nat) : Option (Option Ordering) :=
  match denoted args param, row column with
  | none, _ => none
  | some _, none => some none
  | some arg, some v => (order v arg).map some

def truth (test : Ordering → Bool) : Option Ordering → Truth
  | none => .unknown
  | some o => if test o then .holds else .fails

/-- The comparison of two pairs: the second parts count if the first ones are equal. -/
def lexTruth : Option Ordering → Option Ordering → Truth
  | none, _ => .unknown
  | some .lt, _ => .holds
  | some .gt, _ => .fails
  | some .eq, second => truth (· == .lt) second

def equalTruth (column : C) (param : Nat) : Option Truth :=
  (compared order row args column param).map (truth (· == .eq))

def Condition.eval : Condition C → Option Truth
  | .always => some .holds
  | .equal column param => equalTruth order row args column param
  | .before columns params =>
      match compared order row args columns.1 params.1,
        compared order row args columns.2 params.2 with
      | some first, some second => some (lexTruth first second)
      | _, _ => none
  | .oneOf column params => joined Truth.or (params.map (equalTruth order row args column))

/-- Conditions joined with `AND`. -/
def conjunction (conditions : List (Condition C)) : Option Truth :=
  joined Truth.and (conditions.map (Condition.eval order row args))

/-- Groups of conditions joined with `OR`. -/
def disjunction (groups : List (List (Condition C))) : Option Truth :=
  joined Truth.or (groups.map (conjunction order row args))

variable {order row args} {column : C} {param : Nat} {v arg : V} {o : Ordering}

theorem compared_eq (harg : denoted args param = some arg) (hrow : row column = some v)
    (horder : order v arg = some o) : compared order row args column param = some (some o) := by
  rw [compared, harg, hrow]
  exact congrArg (Option.map some) horder

theorem compared_missing (harg : denoted args param = some arg) (hrow : row column = none) :
    compared order row args column param = some none := by
  rw [compared, harg, hrow]

theorem equalTruth_eq (harg : denoted args param = some arg) (hrow : row column = some v)
    (horder : order v arg = some o) :
    equalTruth order row args column param = some (if o = .eq then .holds else .fails) := by
  rw [equalTruth, compared_eq harg hrow horder, Option.map_some, truth]
  simp only [beq_iff_eq]

theorem equalTruth_missing (harg : denoted args param = some arg) (hrow : row column = none) :
    equalTruth order row args column param = some .unknown := by
  rw [equalTruth, compared_missing harg hrow]
  rfl

/-- The equations with a list of placeholders, in terms of their values. -/
theorem map_equalTruth {params : List Nat} {values : List V}
    (hparams : params.map (denoted args) = values.map some) (hrow : row column = some v)
    (htype : ∀ a ∈ values, (order v a).isSome = true) :
    params.map (equalTruth order row args column) =
      values.map fun a => some (if order v a = some .eq then .holds else .fails) := by
  induction params generalizing values with
  | nil =>
      rw [List.map_eq_nil_iff.mp hparams.symm]
      rfl
  | cons n params ih =>
      obtain ⟨a, rest, rfl, ha, hrest⟩ := List.map_eq_cons_iff.mp hparams.symm
      obtain ⟨o, ho⟩ := Option.isSome_iff_exists.mp (htype a List.mem_cons_self)
      rw [List.map_cons, List.map_cons, equalTruth_eq ha.symm hrow ho,
        ih hrest.symm fun b hb => htype b (List.mem_cons_of_mem a hb)]
      simp only [ho, Option.some.injEq]

/-- A list of placeholders is accepted and holds if the column has one of their values. -/
theorem oneOf_spec {params : List Nat} {values : List V}
    (hparams : params.map (denoted args) = values.map some) (hne : values ≠ [])
    (hrow : row column = some v) (htype : ∀ a ∈ values, (order v a).isSome = true) :
    ((Condition.oneOf column params).eval order row args).isSome = true ∧
      ((Condition.oneOf column params).eval order row args = some .holds ↔
        ∃ a ∈ values, order v a = some .eq) := by
  rw [Condition.eval, map_equalTruth hparams hrow htype]
  have hsome : ∀ t ∈ values.map (fun a =>
      some (if order v a = some .eq then Truth.holds else .fails)), t.isSome = true := List.forall_mem_map.mpr fun a _ => rfl
  constructor
  · exact joined_isSome Truth.or (fun hnil => hne (List.map_eq_nil_iff.mp hnil)) hsome
  · rw [joined_or_holds hsome, List.mem_map]
    apply exists_congr
    intro a
    apply and_congr_right
    intro _
    rw [Option.some.injEq]
    split <;> simp [*]

theorem compared_append (h : param ≤ args.length) (more : List V) :
    compared order row (args ++ more) column param = compared order row args column param := by
  rw [compared, compared, denoted_append h]

/-- Later arguments do not change a condition. -/
theorem Condition.eval_append {condition : Condition C}
    (h : ∀ n ∈ condition.params, n ≤ args.length) (more : List V) :
    condition.eval order row (args ++ more) = condition.eval order row args := by
  cases condition with
  | always => rfl
  | equal column param =>
      rw [eval, eval, equalTruth, equalTruth, compared_append (h param (by simp [params]))]
  | before columns params =>
      simp only [Condition.params, List.mem_cons, List.not_mem_nil, or_false] at h
      simp only [eval, compared_append (h params.1 (Or.inl rfl)),
        compared_append (h params.2 (Or.inr rfl))]
  | oneOf column params =>
      rw [eval, eval]
      congr 1
      apply List.map_congr_left
      intro n hn
      rw [equalTruth, equalTruth, compared_append (h n hn)]

theorem conjunction_append {conditions : List (Condition C)}
    (h : ∀ condition ∈ conditions, ∀ n ∈ condition.params, n ≤ args.length) (more : List V) :
    conjunction order row (args ++ more) conditions = conjunction order row args conditions := by
  rw [conjunction, conjunction]
  congr 1
  apply List.map_congr_left
  intro condition hmem
  exact Condition.eval_append (h condition hmem) more

theorem disjunction_append {groups : List (List (Condition C))}
    (h : ∀ group ∈ groups, ∀ condition ∈ group, ∀ n ∈ condition.params, n ≤ args.length)
    (more : List V) :
    disjunction order row (args ++ more) groups = disjunction order row args groups := by
  rw [disjunction, disjunction]
  congr 1
  apply List.map_congr_left
  intro group hmem
  exact conjunction_append (h group hmem) more

/-- A conjunction is accepted and holds as its parts are and do. -/
theorem conjunction_spec {conditions : List (Condition C)} (hne : conditions ≠ [])
    (h : ∀ condition ∈ conditions, (condition.eval order row args).isSome = true) :
    (conjunction order row args conditions).isSome = true ∧
      (conjunction order row args conditions = some .holds ↔
        ∀ condition ∈ conditions, condition.eval order row args = some .holds) := by
  have hmap : conditions.map (Condition.eval order row args) ≠ [] :=
    fun hnil => hne (List.map_eq_nil_iff.mp hnil)
  constructor
  · exact joined_isSome Truth.and hmap (List.forall_mem_map.mpr h)
  · rw [conjunction, joined_and_holds hmap, List.forall_mem_map]

theorem disjunction_spec {groups : List (List (Condition C))} (hne : groups ≠ [])
    (h : ∀ group ∈ groups, (conjunction order row args group).isSome = true) :
    (disjunction order row args groups).isSome = true ∧
      (disjunction order row args groups = some .holds ↔
        ∃ group ∈ groups, conjunction order row args group = some .holds) := by
  have hmap : groups.map (conjunction order row args) ≠ [] :=
    fun hnil => hne (List.map_eq_nil_iff.mp hnil)
  have hparts : ∀ t ∈ groups.map (conjunction order row args), t.isSome = true :=
    List.forall_mem_map.mpr h
  constructor
  · exact joined_isSome Truth.or hmap hparts
  · rw [disjunction, joined_or_holds hparts, List.mem_map]

end Conditions

/-! ## Texts -/

/-- The text of `$n`. -/
def placeholder (n : Nat) : String := "$" ++ toString n

/-- Texts with a separator between them. -/
def joinTexts (separator : String) : List String → String
  | [] => ""
  | [text] => text
  | text :: next :: rest => text ++ separator ++ joinTexts separator (next :: rest)

/-- The text of a condition, for the names of the columns. -/
def Condition.text {C : Type*} (name : C → String) : Condition C → String
  | .always => "TRUE"
  | .equal column param => name column ++ "=" ++ placeholder param
  | .before columns params =>
      "(" ++ name columns.1 ++ "," ++ name columns.2 ++ ")<(" ++ placeholder params.1 ++ "," ++
        placeholder params.2 ++ ")"
  | .oneOf column params => name column ++ " IN (" ++ joinTexts "," (params.map placeholder) ++ ")"

/-- The numbers behind dollar signs; the first argument is the number that is being read. -/
def scan : Option Nat → List Char → List Nat
  | none, [] => []
  | some n, [] => [n]
  | none, c :: rest => if c = '$' then scan (some 0) rest else scan none rest
  | some n, c :: rest =>
      if c.isDigit = true then scan (some (10 * n + (c.toNat - '0'.toNat))) rest
      else n :: if c = '$' then scan (some 0) rest else scan none rest

/-- The placeholders that a server reads in a text. -/
def placeholders (text : String) : List Nat := scan none text.toList

/-- The text does not begin with a digit. -/
def NoDigit (text : List Char) : Prop := ∀ c ∈ text.head?, c.isDigit = false

theorem NoDigit.append {a b : List Char} (ha : NoDigit a) (hb : NoDigit b) : NoDigit (a ++ b) := by
  cases a with
  | nil => exact hb
  | cons c rest => exact ha

/-- A number ends where no digit follows. -/
theorem scan_end {rest : List Char} (h : NoDigit rest) (n : Nat) :
    scan (some n) rest = n :: scan none rest := by
  cases rest with
  | nil => rfl
  | cons c rest =>
      have hc : ¬ c.isDigit = true := by
        rw [h c rfl]
        exact Bool.false_ne_true
      simp only [scan, if_neg hc]

theorem scan_digits {digits : List Char} (h : ∀ c ∈ digits, c.isDigit = true) (n : Nat)
    (rest : List Char) :
    scan (some n) (digits ++ rest) = scan (some (Nat.ofDigitChars 10 digits n)) rest := by
  induction digits generalizing n with
  | nil => rfl
  | cons c digits ih =>
      rw [List.cons_append, scan, if_pos (h c List.mem_cons_self),
        ih (fun d hd => h d (List.mem_cons_of_mem c hd)), Nat.ofDigitChars_cons]

theorem scan_plain {text : List Char} (h : '$' ∉ text) (rest : List Char) :
    scan none (text ++ rest) = scan none rest := by
  induction text with
  | nil => rfl
  | cons c text ih =>
      have hc : c ≠ '$' := fun heq => h (heq ▸ List.mem_cons_self)
      rw [List.cons_append, scan, if_neg hc, ih fun hmem => h (List.mem_cons_of_mem c hmem)]

/-- A piece of a text: its placeholders are read whatever stands around it. -/
structure Piece (text : String) (numbers : List Nat) : Prop where
  start : NoDigit text.toList
  reads : ∀ rest, NoDigit rest → scan none (text.toList ++ rest) = numbers ++ scan none rest

theorem Piece.plain {text : String} (hstart : NoDigit text.toList) (h : '$' ∉ text.toList) :
    Piece text [] :=
  ⟨hstart, fun rest _ => scan_plain h rest⟩

/-- Characters of which the first is no digit and none is a dollar sign. -/
def isPlain (chars : List Char) : Bool :=
  chars.head?.all (fun c => !c.isDigit) && !chars.contains '$'

/-- A literal text without placeholders. -/
theorem Piece.literal (chars : List Char) (h : isPlain chars = true) :
    Piece (String.ofList chars) [] := by
  rw [isPlain, Bool.and_eq_true, Bool.not_eq_true', List.contains_eq_mem,
    decide_eq_false_iff_not] at h
  obtain ⟨hhead, hdollar⟩ := h
  apply Piece.plain
  · rw [String.toList_ofList]
    intro c hc
    rw [Option.mem_def.mp hc, Option.all_some, Bool.not_eq_true'] at hhead
    exact hhead
  · rw [String.toList_ofList]
    exact hdollar

theorem Piece.placeholder (n : Nat) : Piece (placeholder n) [n] := by
  have htext : (Placeholders.placeholder n).toList = '$' :: Nat.toDigits 10 n := by
    rw [Placeholders.placeholder, String.toList_append, Nat.toString_eq_ofList_toDigits]
    simp
  have hdigits : ∀ c ∈ Nat.toDigits 10 n, c.isDigit = true :=
    fun c hc => Nat.isDigit_of_mem_toDigits (by decide) (by decide) hc
  constructor
  · rw [htext]
    rintro c ⟨⟩
    decide
  · intro rest hrest
    rw [htext, List.cons_append, scan, if_pos rfl, scan_digits hdigits,
      Nat.ofDigitChars_ten_toDigits, scan_end hrest]
    rfl

theorem Piece.append {a b : String} {ns ms : List Nat} (ha : Piece a ns) (hb : Piece b ms) :
    Piece (a ++ b) (ns ++ ms) where
  start := by
    rw [String.toList_append]
    exact ha.start.append hb.start
  reads := by
    intro rest hrest
    rw [String.toList_append, List.append_assoc, ha.reads _ (hb.start.append hrest),
      hb.reads rest hrest, List.append_assoc]

theorem Piece.join {α : Type*} (items : List α) {text : α → String} {numbers : α → List Nat}
    {separator : String} (hseparator : Piece separator [])
    (h : ∀ a ∈ items, Piece (text a) (numbers a)) :
    Piece (joinTexts separator (items.map text)) (items.flatMap numbers) := by
  induction items with
  | nil => exact ⟨by simp [NoDigit, joinTexts], fun rest _ => rfl⟩
  | cons a items ih =>
      have hfirst := h a List.mem_cons_self
      have hrest := ih fun b hb => h b (List.mem_cons_of_mem a hb)
      cases items with
      | nil => simpa [joinTexts] using hfirst
      | cons b items =>
          rw [List.map_cons, List.map_cons, joinTexts, List.flatMap_cons]
          have htexts := (hfirst.append hseparator).append hrest
          rwa [List.append_nil] at htexts

/-- The placeholders of a text are those of its pieces. -/
theorem Piece.placeholders_eq {text : String} {numbers : List Nat} (h : Piece text numbers) :
    placeholders text = numbers := by
  have hread := h.reads [] (by simp [NoDigit])
  simpa [placeholders, scan] using hread

/-- The text of a condition has its placeholders. -/
theorem Condition.piece {C : Type*} {name : C → String} (hname : ∀ c, Piece (name c) [])
    (condition : Condition C) : Piece (condition.text name) condition.params := by
  have hcomma : Piece "," [] := Piece.literal _ rfl
  have hclose : Piece ")" [] := Piece.literal _ rfl
  cases condition with
  | always => exact Piece.literal _ rfl
  | equal column param =>
      have hequals : Piece "=" [] := Piece.literal _ rfl
      exact ((hname column).append hequals).append (Piece.placeholder param)
  | before columns params =>
      have hopen : Piece "(" [] := Piece.literal _ rfl
      have hless : Piece ")<(" [] := Piece.literal _ rfl
      have hleft := (((hopen.append (hname columns.1)).append hcomma).append
        (hname columns.2)).append hless
      exact (((hleft.append (Piece.placeholder params.1)).append hcomma).append
        (Piece.placeholder params.2)).append hclose
  | oneOf column params =>
      have hin : Piece " IN (" [] := Piece.literal _ rfl
      have hlist := Piece.join params hcomma fun n _ => Piece.placeholder n
      rw [List.flatMap_singleton'] at hlist
      have htext := (((hname column).append hin).append hlist).append hclose
      rwa [List.append_nil] at htext

/-! ## Statements -/

section Statements

variable {C : Type*} {name : C → String}

/-- A fragment of a statement: a fixed text, a placeholder, conditions joined with `AND`, or groups
of conditions joined with `OR`. -/
inductive Fragment (C : Type*) where
  | text (value : String)
  | param (n : Nat)
  | all (conditions : List (Condition C))
  | any (groups : List (List (Condition C)))

def conjunctionText (name : C → String) (conditions : List (Condition C)) : String :=
  joinTexts " AND " (conditions.map (Condition.text name))

def Fragment.write (name : C → String) : Fragment C → String
  | .text value => value
  | .param n => placeholder n
  | .all conditions => conjunctionText name conditions
  | .any groups =>
      joinTexts " OR " (groups.map fun group => "(" ++ conjunctionText name group ++ ")")

/-- The placeholders of a fragment, from left to right. -/
def Fragment.params : Fragment C → List Nat
  | .text _ => []
  | .param n => [n]
  | .all conditions => conditions.flatMap Condition.params
  | .any groups => groups.flatMap (·.flatMap Condition.params)

/-- A fixed text has no placeholders. -/
def Fragment.Plain : Fragment C → Prop
  | .text value => Piece value []
  | _ => True

def statement (name : C → String) (fragments : List (Fragment C)) : String :=
  joinTexts "" (fragments.map (Fragment.write name))

theorem piece_conjunction (hname : ∀ c, Piece (name c) []) (conditions : List (Condition C)) :
    Piece (conjunctionText name conditions) (conditions.flatMap Condition.params) := by
  have hand : Piece " AND " [] := Piece.literal _ rfl
  exact Piece.join conditions hand fun condition _ => condition.piece hname

theorem Fragment.piece (hname : ∀ c, Piece (name c) []) {fragment : Fragment C}
    (h : fragment.Plain) : Piece (fragment.write name) fragment.params := by
  cases fragment with
  | text value => exact h
  | param n => exact Piece.placeholder n
  | all conditions => exact piece_conjunction hname conditions
  | any groups =>
      have hor : Piece " OR " [] := Piece.literal _ rfl
      have hopen : Piece "(" [] := Piece.literal _ rfl
      have hclose : Piece ")" [] := Piece.literal _ rfl
      refine Piece.join groups hor fun group _ => ?_
      have hgroup := (hopen.append (piece_conjunction hname group)).append hclose
      rwa [List.nil_append, List.append_nil] at hgroup

/-- A server reads the placeholders of the fragments. -/
theorem placeholders_statement (hname : ∀ c, Piece (name c) []) {fragments : List (Fragment C)}
    (h : ∀ fragment ∈ fragments, fragment.Plain) :
    placeholders (statement name fragments) = fragments.flatMap Fragment.params := by
  apply Piece.placeholders_eq
  have hempty : Piece "" [] := Piece.literal _ rfl
  exact Piece.join fragments hempty fun fragment hmem => Fragment.piece hname (h fragment hmem)

end Statements

end Ody.Library.Placeholders
