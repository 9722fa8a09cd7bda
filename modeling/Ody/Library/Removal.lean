import Mathlib.Data.Set.Card
import Ody.Library.Tables

/-!
# Tables with keys removed

`Without gone m m'` says that `m'` is `m` without the keys of a set. Removals of one
key after the other compose to the removal of the union, and the number of keys
that disappeared is the difference of the sizes.
-/

namespace Ody.Library.Removal

open Tables

variable {K V : Type} [DecidableEq K] {gone gone' : Set K} {m m' m'' : Table K V}

/-- The second table is the first one without the keys of the set. -/
structure Without (gone : Set K) (m m' : Table K V) : Prop where
  removed : ∀ k ∈ gone, m'.lookup k = none
  kept : ∀ k ∉ gone, m'.lookup k = m.lookup k

theorem Without.refl (m : Table K V) : Without ∅ m m where
  removed := by simp
  kept := fun _ _ => rfl

theorem Without.erase (m : Table K V) (k : K) : Without {k} m (m.erase k) where
  removed := by
    rintro key rfl
    exact AList.lookup_erase key m
  kept := fun _ hkey => AList.lookup_erase_ne hkey

/-- A table that is described key by key. -/
theorem Without.of_ite {p : K → Prop} [DecidablePred p]
    (h : ∀ k, m'.lookup k = if p k then none else m.lookup k) : Without {k | p k} m m' where
  removed := fun k hk => (h k).trans (if_pos hk)
  kept := fun k hk => (h k).trans (if_neg hk)

theorem Without.union (h : Without gone m m') (h' : Without gone' m' m'') :
    Without (gone ∪ gone') m m'' where
  removed := by
    intro k hk
    by_cases hlater : k ∈ gone'
    · exact h'.removed k hlater
    · rw [h'.kept k hlater]
      exact h.removed k (hk.resolve_right hlater)
  kept := by
    intro k hk
    rw [Set.mem_union, not_or] at hk
    rw [h'.kept k hk.2, h.kept k hk.1]

/-- What is left was there. -/
theorem Without.lookup {k : K} {v : V} (h : Without gone m m') (hk : m'.lookup k = some v) :
    m.lookup k = some v := by
  by_cases hgone : k ∈ gone
  · cases (h.removed k hgone).symm.trans hk
  · exact (h.kept k hgone).symm.trans hk

/-! ## Sizes -/

/-- The number of entries. -/
def size (m : Table K V) : Nat := m.keys.length

theorem size_erase {k : K} (h : k ∈ m) : size (m.erase k) + 1 = size m := by
  have hkeys : (m.erase k).keys = m.keys.erase k := AList.keys_erase k m
  have hpos : 0 < m.keys.length := List.length_pos_of_mem h
  rw [size, size, hkeys, List.length_erase_of_mem h]
  omega

theorem Without.ncard_removed (h : Without gone m m') :
    {k | k ∈ m ∧ k ∉ m'}.ncard + size m' = size m := by
  have hset : {k | k ∈ m ∧ k ∉ m'} = ↑(m.keys.toFinset \ m'.keys.toFinset) := by
    ext k
    simp [AList.mem_keys]
  have hsub : m'.keys.toFinset ⊆ m.keys.toFinset := by
    intro k hk
    rw [List.mem_toFinset, ← AList.mem_keys, ← AList.lookup_isSome,
      Option.isSome_iff_exists] at hk ⊢
    obtain ⟨v, hv⟩ := hk
    exact ⟨v, h.lookup hv⟩
  rw [hset, Set.ncard_coe_finset, size, size, ← List.toFinset_card_of_nodup m.keys_nodup,
    ← List.toFinset_card_of_nodup m'.keys_nodup]
  exact Finset.card_sdiff_add_card_eq_card hsub

end Ody.Library.Removal
