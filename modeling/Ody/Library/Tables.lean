import Mathlib.Data.List.AList
import Mathlib.Tactic.Ring

/-!
# Finite tables with an unspecified iteration order

A `Table` is a finite map with at most one entry for each key. Loops over a
table visit its entries in an order chosen by the caller through `RangeOrder`,
so a result proved for every `RangeOrder` holds whatever order the loop takes.
-/

namespace Ody.Library.Tables

/-- A finite map from `K` to `V`. -/
abbrev Table (K V : Type) := AList (fun _ : K => V)

/-- One key with its value. -/
abbrev Entry (K V : Type) := Σ _ : K, V

/-- The order in which one loop visits the entries of a table. -/
structure RangeOrder (α : Type) where
  order : List α → List α
  perm : ∀ l, (order l).Perm l

/-- The order in which the entries are stored. -/
def RangeOrder.stored (α : Type) : RangeOrder α where
  order := id
  perm := List.Perm.refl

variable {K V : Type} [DecidableEq K]

/-- The entries of a table in the order of one loop. -/
def range (o : RangeOrder (Entry K V)) (m : Table K V) : List (Entry K V) :=
  o.order m.entries

omit [DecidableEq K] in
theorem range_perm (o : RangeOrder (Entry K V)) (m : Table K V) :
    (range o m).Perm m.entries := o.perm _

omit [DecidableEq K] in
theorem range_nodupKeys (o : RangeOrder (Entry K V)) (m : Table K V) :
    (range o m).NodupKeys :=
  (List.perm_nodupKeys (range_perm o m)).mpr m.nodupKeys

theorem lookup_eq_some_iff {m : Table K V} {k : K} {v : V} :
    m.lookup k = some v ↔ (⟨k, v⟩ : Entry K V) ∈ m.entries :=
  AList.mem_lookup_iff

theorem mem_range {o : RangeOrder (Entry K V)} {m : Table K V} {k : K} {v : V} :
    (⟨k, v⟩ : Entry K V) ∈ range o m ↔ m.lookup k = some v := by
  rw [(range_perm o m).mem_iff, lookup_eq_some_iff]

section Keyed

variable {ident : V → K} {m : Table K V} (hkeyed : ∀ k v, m.lookup k = some v → ident v = k)

include hkeyed

/-- The values that a loop visits, if each is stored under its own identifier. -/
theorem mem_range_values {o : RangeOrder (Entry K V)} {v : V} :
    v ∈ (range o m).map (·.2) ↔ m.lookup (ident v) = some v := by
  rw [List.mem_map]
  constructor
  · rintro ⟨⟨key, stored⟩, hmem, rfl⟩
    have hlookup := mem_range.mp hmem
    rw [hkeyed key stored hlookup]
    exact hlookup
  · intro h
    exact ⟨⟨ident v, v⟩, mem_range.mpr h, rfl⟩

theorem range_values_nodup (o : RangeOrder (Entry K V)) :
    (((range o m).map (·.2)).map ident).Nodup := by
  have hkeys : ((range o m).map (·.2)).map ident = (range o m).keys := by
    rw [List.map_map, List.keys]
    apply List.map_congr_left
    rintro ⟨key, stored⟩ hmem
    exact hkeyed key stored (mem_range.mp hmem)
  rw [hkeys]
  exact range_nodupKeys o m

end Keyed

theorem lookup_insert_ite (m : Table K V) (k k' : K) (v : V) :
    (m.insert k v).lookup k' = if k' = k then some v else m.lookup k' := by
  by_cases h : k' = k
  · subst h
    simp
  · rw [if_neg h, AList.lookup_insert_ne h]

theorem lookup_erase_ite (m : Table K V) (k k' : K) :
    (m.erase k).lookup k' = if k' = k then none else m.lookup k' := by
  by_cases h : k' = k
  · subst h
    simp
  · rw [if_neg h, AList.lookup_erase_ne h]

/-! ## Setting and counting entries -/

/-- The table with a new value, or no value, at one key. -/
def set (m : Table K V) (k : K) : Option V → Table K V
  | some v => m.insert k v
  | none => m.erase k

theorem lookup_set (m : Table K V) (k k' : K) (o : Option V) :
    (set m k o).lookup k' = if k' = k then o else m.lookup k' := by
  cases o with
  | none => exact lookup_erase_ite m k k'
  | some v => exact lookup_insert_ite m k k' v

/-- One if the value is there and satisfies the test. -/
def weight (p : V → Bool) (o : Option V) : Int := if o.any p then 1 else 0

/-- The number of values that satisfy a test. -/
def tally (p : V → Bool) (m : Table K V) : Int := m.entries.countP fun entry => p entry.2

theorem countP_kerase (p : V → Bool) (k : K) (l : List (Entry K V)) :
    (l.countP (fun entry => p entry.2) : Int) =
      (l.kerase k).countP (fun entry => p entry.2) + weight p (l.dlookup k) := by
  induction l with
  | nil => simp [weight]
  | cons entry rest ih =>
      by_cases h : k = entry.1
      · subst h
        rw [List.kerase_cons_eq rfl, List.dlookup_cons_eq, List.countP_cons]
        by_cases hp : p entry.2 <;> simp [weight, hp]
      · rw [List.kerase_cons_ne h, List.dlookup_cons_ne _ _ h, List.countP_cons, List.countP_cons]
        push_cast
        rw [ih]
        ring

theorem tally_erase (p : V → Bool) (m : Table K V) (k : K) :
    tally p (m.erase k) = tally p m - weight p (m.lookup k) := by
  have hcount := countP_kerase p k m.entries
  rw [tally, tally, hcount]
  exact (add_sub_cancel_right _ _).symm

theorem tally_set (p : V → Bool) (m : Table K V) (k : K) (o : Option V) :
    tally p (set m k o) = tally p m - weight p (m.lookup k) + weight p o := by
  rw [← tally_erase]
  cases o with
  | none => simp [set, weight]
  | some v =>
      have hentries : (m.insert k v).entries = ⟨k, v⟩ :: (m.erase k).entries := AList.entries_insert
      rw [set, tally, hentries, List.countP_cons, tally]
      by_cases hp : p v <;> simp [weight, hp]

/-! ## Parts of a table -/

section Parts

variable {K' : Type} [DecidableEq K']

/-- The part of a table whose keys are those of another type. -/
def part (view : K → Option K') (m : Table K V) : Table K' V :=
  (m.entries.filterMap fun entry =>
    (view entry.1).map fun k => (⟨k, entry.2⟩ : Entry K' V)).toAList

theorem lookup_part {view : K → Option K'} {key : K' → K}
    (hview : ∀ k k', view k = some k' ↔ k = key k') (m : Table K V) (k' : K') :
    (part view m).lookup k' = m.lookup (key k') := by
  unfold part
  rw [AList.lookup_to_alist, AList.lookup]
  induction m.entries with
  | nil => rfl
  | cons entry rest ih =>
      obtain ⟨k, v⟩ := entry
      by_cases hk : k = key k'
      · have hsome : view k = some k' := (hview k k').mpr hk
        rw [List.filterMap_cons, hsome, hk]
        simp
      · have hne : view k ≠ some k' := fun h => hk ((hview k k').mp h)
        rw [List.dlookup_cons_ne _ _ (Ne.symm hk), ← ih, List.filterMap_cons]
        cases hsome : view k with
        | none => rfl
        | some other =>
            have hother : k' ≠ other := by
              rintro rfl
              exact hne hsome
            exact List.dlookup_cons_ne _ _ hother

end Parts

/-! ## Loops -/

section Loops

variable {S O : Type}

omit [DecidableEq K] in
/-- A component that no round of a loop changes is unchanged after the loop. -/
theorem foldl_frame_of_mem {A : Type} (f : S → A → S) (π : S → O) {l : List A}
    (hf : ∀ a ∈ l, ∀ s, π (f s a) = π s) (s : S) : π (l.foldl f s) = π s := by
  induction l generalizing s with
  | nil => rfl
  | cons a rest ih =>
      rw [List.foldl_cons, ih (fun b hb => hf b (List.mem_cons_of_mem a hb)),
        hf a (List.mem_cons_self ..)]

omit [DecidableEq K] in
theorem foldl_frame {A : Type} (f : S → A → S) (π : S → O)
    (hf : ∀ s a, π (f s a) = π s) (l : List A) (s : S) : π (l.foldl f s) = π s :=
  foldl_frame_of_mem f π (fun a _ s => hf s a) s

end Loops

end Ody.Library.Tables
