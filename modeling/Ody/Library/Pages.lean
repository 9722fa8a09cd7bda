import Mathlib.Data.List.Pairwise
import Mathlib.Order.WellFoundedSet

/-!
# Cursor pagination

Items are ordered by a key, and a client reads them page by page, greatest key
first. After a page it asks for the items below the last one of the page. `IsPage`
says what one reply has to be; the results are about everything that the client
collects, while the items may change from one request to the next.
-/

namespace Ody.Library.Pages

variable {α κ : Type*}

/-! ## Following the cursors -/

section Following

variable (key : α → κ) (request : ℕ → Option κ → List α) (before : Option κ)

/-- The cursor of the request with a number: the key of the last item so far. -/
def cursor : ℕ → Option κ
  | 0 => before
  | i + 1 => ((request i (cursor i)).getLast?.map key).or (cursor i)

def page (i : ℕ) : List α := request i (cursor key request before i)

/-- What the client has after a number of requests. -/
def collected (n : ℕ) : List α := (List.range n).flatMap (page key request before)

/-- The client stops at the first empty page. -/
structure StopsAt (n : ℕ) : Prop where
  last : page key request before n = []
  going : ∀ i < n, page key request before i ≠ []

theorem collected_succ (n : ℕ) :
    collected key request before (n + 1) =
      collected key request before n ++ page key request before n := by
  rw [collected, List.range_succ, List.flatMap_append, List.flatMap_singleton]
  rfl

variable {key request before}

theorem cursor_succ {i : ℕ} {last : α} (h : (page key request before i).getLast? = some last) :
    cursor key request before (i + 1) = some (key last) := by
  rw [cursor, show (request i (cursor key request before i)).getLast? = some last from h]
  rfl

theorem cursor_succ_nil {i : ℕ} (h : page key request before i = []) :
    cursor key request before (i + 1) = cursor key request before i := by
  rw [cursor, show request i (cursor key request before i) = [] from h]
  rfl

/-- A page that is not empty has a last item, which is the next cursor. -/
theorem exists_last {i : ℕ} (h : page key request before i ≠ []) :
    ∃ last ∈ page key request before i, (page key request before i).getLast? = some last ∧
      cursor key request before (i + 1) = some (key last) := by
  have hlast := List.getLast?_eq_some_getLast h
  exact ⟨_, List.getLast_mem h, hlast, cursor_succ hlast⟩

end Following

/-! ## What a page is -/

variable [LinearOrder κ]

/-- The keys that a cursor leaves; without a cursor, all. -/
def Below (before : Option κ) (k : κ) : Prop := ∀ c ∈ before, k < c

theorem all_lt_iff {before : Option κ} {k : κ} :
    (before.all fun c => k < c) = true ↔ Below before k := by
  cases before <;> simp [Below]

/-- The client stops, and it has listed the items of a set, each once and the greatest first. -/
structure ListsAll (key : α → κ) (request : ℕ → Option κ → List α) (before : Option κ) (S : Set α)
    (n : ℕ) : Prop where
  stops : StopsAt key request before n
  sorted : (collected key request before n).Pairwise fun a b => key b < key a
  mem_iff : ∀ a, a ∈ collected key request before n ↔ a ∈ S

theorem Below.lt {before : Option κ} {k k' : κ} (h : Below before k) (hlt : k' < k) :
    Below before k' :=
  fun c hc => hlt.trans (h c hc)

/-- A page has the greatest of the items that the cursor leaves, the greatest first. -/
structure IsPage (key : α → κ) (S : Set α) (before : Option κ) (l : List α) : Prop where
  sorted : l.Pairwise fun a b => key b < key a
  sound : ∀ a ∈ l, a ∈ S ∧ Below before (key a)
  greatest : ∀ a ∈ S, Below before (key a) → a ∉ l → l ≠ [] ∧ ∀ b ∈ l, key a < key b

section Page

variable {key : α → κ} {S : Set α} {before : Option κ} {l : List α}

/-- The first items of a sorted list are a page. -/
theorem IsPage.take (hsorted : l.Pairwise fun a b => key b < key a)
    (hmem : ∀ a, a ∈ l ↔ a ∈ S ∧ Below before (key a)) {n : ℕ} (hn : 0 < n) :
    IsPage key S before (l.take n) where
  sorted := hsorted.sublist (List.take_sublist n l)
  sound := fun a ha => (hmem a).mp (List.mem_of_mem_take ha)
  greatest := by
    intro a hS hbelow hrest
    have hl : a ∈ l := (hmem a).mpr ⟨hS, hbelow⟩
    have hdrop : a ∈ l.drop n := by
      rw [← List.take_append_drop n l, List.mem_append] at hl
      exact hl.resolve_left hrest
    rw [← List.take_append_drop n l, List.pairwise_append] at hsorted
    refine ⟨?_, fun b hb => hsorted.2.2 b hb a hdrop⟩
    rw [ne_eq, List.take_eq_nil_iff, not_or]
    exact ⟨hn.ne', List.ne_nil_of_mem hl⟩

/-- The last item of a page has its least key. -/
theorem IsPage.last_le (h : IsPage key S before l) {a last : α} (hlast : l.getLast? = some last)
    (ha : a ∈ l) : key last ≤ key a := by
  obtain ⟨rest, rfl⟩ := List.getLast?_eq_some_iff.mp hlast
  rcases List.mem_append.mp ha with hrest | htail
  · exact ((List.pairwise_append.mp h.sorted).2.2 a hrest last (List.mem_singleton.mpr rfl)).le
  · rw [List.mem_singleton.mp htail]

/-- If the first items of a list that is sorted by one key are also sorted by another, the second key
agrees with the first wherever it is below an item of them. -/
theorem lt_of_mem_take {κ' : Type*} [LinearOrder κ'] {key' : α → κ'}
    (hsorted : l.Pairwise fun a b => key' b < key' a) {n : ℕ}
    (htake : (l.take n).Pairwise fun a b => key b < key a) {a b : α} (ha : a ∈ l)
    (hb : b ∈ l.take n) (hlt : key' b < key' a) : key b < key a := by
  have hmem : a ∈ l.take n := by
    rw [← List.take_append_drop n l] at ha hsorted
    rcases List.mem_append.mp ha with hfirst | hrest
    · exact hfirst
    · exact absurd ((List.pairwise_append.mp hsorted).2.2 b hb a hrest) hlt.not_gt
  have hfirst : ∀ x ∈ l.take n, key' x < key' x → key x < key x :=
    fun x _ hx => absurd hx (lt_irrefl _)
  have hforward : (l.take n).Pairwise fun x y => key' y < key' x → key y < key x :=
    htake.imp_of_mem fun _ _ h _ => h
  have hbackward : (l.take n).Pairwise (flip fun x y => key' y < key' x → key y < key x) :=
    (hsorted.sublist (List.take_sublist n l)).imp_of_mem
      fun _ _ h h' => absurd h' h.not_gt
  exact List.Pairwise.forall_of_forall_of_flip hfirst hforward hbackward hmem hb hlt

end Page

/-! ## What a client collects -/

section Collecting

variable {key : α → κ} {request : ℕ → Option κ → List α} {before : Option κ}

variable {S : ℕ → Set α} (hpage : ∀ i before, IsPage key (S i) before (request i before))

include hpage

/-- Cursors only go down. -/
theorem below_of_succ {i : ℕ} {k : κ} (h : Below (cursor key request before (i + 1)) k) :
    Below (cursor key request before i) k := by
  by_cases hnil : page key request before i = []
  · rwa [cursor_succ_nil hnil] at h
  · obtain ⟨last, hmem, -, hcursor⟩ := exists_last hnil
    exact ((hpage i _).sound last hmem).2.lt (h _ hcursor)

/-- What a page has lies above everything that the next cursor leaves. -/
theorem lt_of_mem_page {i : ℕ} {a : α} (ha : a ∈ page key request before i) {k : κ}
    (h : Below (cursor key request before (i + 1)) k) : k < key a := by
  obtain ⟨last, -, hlast, hcursor⟩ := exists_last (List.ne_nil_of_mem ha)
  exact (h _ hcursor).trans_le ((hpage i _).last_le hlast ha)

theorem lt_of_mem_collected {n : ℕ} {a : α} (ha : a ∈ collected key request before n) {k : κ}
    (h : Below (cursor key request before n) k) : k < key a := by
  induction n with
  | zero => cases ha
  | succ n ih =>
      rw [collected_succ, List.mem_append] at ha
      rcases ha with hearlier | hnow
      · exact ih hearlier (below_of_succ hpage h)
      · exact lt_of_mem_page hpage hnow h

variable (before) in
/-- The collected keys decrease, so nothing is collected twice. -/
theorem collected_sorted (n : ℕ) :
    (collected key request before n).Pairwise fun a b => key b < key a := by
  induction n with
  | zero => exact List.Pairwise.nil
  | succ n ih =>
      rw [collected_succ, List.pairwise_append]
      refine ⟨ih, (hpage n _).sorted, fun a ha b hb => ?_⟩
      exact lt_of_mem_collected hpage ha ((hpage n _).sound b hb).2

theorem below_before {n : ℕ} {k : κ} (h : Below (cursor key request before n) k) :
    Below before k := by
  induction n with
  | zero => exact h
  | succ n ih => exact ih (below_of_succ hpage h)

/-- Every collected item was there when its page was read. -/
theorem mem_of_collected {n : ℕ} {a : α} (ha : a ∈ collected key request before n) :
    ∃ i < n, a ∈ S i ∧ Below before (key a) := by
  obtain ⟨i, hi, hmem⟩ := List.mem_flatMap.mp ha
  obtain ⟨hS, hbelow⟩ := (hpage i _).sound a hmem
  exact ⟨i, List.mem_range.mp hi, hS, below_before hpage hbelow⟩

/-- A key that is there at every request is collected, or the cursor still leaves it. -/
theorem collected_or_below {n : ℕ} {k : κ} (hthere : ∀ i < n, ∃ a ∈ S i, key a = k)
    (hbelow : Below before k) :
    (∃ a ∈ collected key request before n, key a = k) ∨ Below (cursor key request before n) k := by
  induction n with
  | zero => exact Or.inr hbelow
  | succ n ih =>
      rw [collected_succ]
      rcases ih fun i hi => hthere i (hi.trans n.lt_succ_self) with ⟨a, ha, hkey⟩ | hleft
      · exact Or.inl ⟨a, List.mem_append_left _ ha, hkey⟩
      · obtain ⟨a, hS, rfl⟩ := hthere n n.lt_succ_self
        by_cases hmem : a ∈ page key request before n
        · exact Or.inl ⟨a, List.mem_append_right _ hmem, rfl⟩
        · obtain ⟨hne, hlt⟩ := (hpage n _).greatest a hS hleft hmem
          obtain ⟨last, hlast, -, hcursor⟩ := exists_last hne
          refine Or.inr fun c hc => ?_
          rw [hcursor, Option.mem_some_iff] at hc
          exact hc ▸ hlt last hlast

/-- At the empty page, every key that was there at every request has been collected. -/
theorem exists_mem_collected {n : ℕ} (hstop : StopsAt key request before n) {k : κ}
    (hthere : ∀ i ≤ n, ∃ a ∈ S i, key a = k) (hbelow : Below before k) :
    ∃ a ∈ collected key request before n, key a = k := by
  rcases collected_or_below hpage (fun i hi => hthere i hi.le) hbelow with hdone | hleft
  · exact hdone
  · obtain ⟨a, hS, rfl⟩ := hthere n le_rfl
    have hnew : a ∉ request n (cursor key request before n) := by
      rw [show request n (cursor key request before n) = [] from hstop.last]
      exact List.not_mem_nil
    exact absurd hstop.last ((hpage n _).greatest a hS hleft hnew).1

variable (before) in
/-- The client stops if its keys stay in a well-founded set while its pages are not empty. -/
theorem exists_stopsAt {W : Set κ} (hW : W.IsWF)
    (hmem : ∀ i, (∀ j ≤ i, page key request before j ≠ []) →
      ∀ a ∈ page key request before i, key a ∈ W) :
    ∃ n, StopsAt key request before n := by
  have hsome : ∃ n, page key request before n = [] := by
    by_contra hnone
    have hne : ∀ i, page key request before i ≠ [] := fun i hnil => hnone ⟨i, hnil⟩
    choose last hlast _ hcursor using fun i => exists_last (hne i)
    have hdown : ∀ i, key (last (i + 1)) < key (last i) := by
      intro i
      exact ((hpage (i + 1) _).sound _ (hlast (i + 1))).2 _ (hcursor i)
    exact Set.isWF_iff_no_descending_seq.mp hW (fun i => key (last i))
      (strictAnti_nat_of_succ_lt hdown) fun i => hmem i (fun j _ => hne j) _ (hlast i)
  classical
  exact ⟨Nat.find hsome, Nat.find_spec hsome, fun i hi => Nat.find_min hsome hi⟩

omit hpage

variable (before) in
/-- If the items stay the same, the client lists them all. -/
theorem exists_listsAll {S : Set α} (hpage : ∀ i before, IsPage key S before (request i before))
    (hfinite : S.Finite) (hkey : S.InjOn key) :
    ∃ n, ListsAll key request before {a | a ∈ S ∧ Below before (key a)} n := by
  obtain ⟨n, hstop⟩ := exists_stopsAt before hpage (hfinite.image key).isWF
    fun i _ a ha => Set.mem_image_of_mem key ((hpage i _).sound a ha).1
  refine ⟨n, hstop, collected_sorted before hpage n, fun a => ⟨fun ha => ?_, fun ha => ?_⟩⟩
  · obtain ⟨i, -, h⟩ := mem_of_collected hpage ha
    exact h
  · obtain ⟨b, hb, heq⟩ := exists_mem_collected hpage hstop (fun i _ => ⟨a, ha.1, rfl⟩) ha.2
    obtain ⟨i, -, hS, -⟩ := mem_of_collected hpage hb
    exact hkey hS ha.1 heq ▸ hb

end Collecting

end Ody.Library.Pages
