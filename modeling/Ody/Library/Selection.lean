import Mathlib.Data.List.Pairwise
import Mathlib.Data.Set.Card

/-!
# Taking the least elements of a set

A bounded selection of a set is `Least` if it is as large as the bound and the set
allow and nothing that was left comes before something that was taken. The first
elements of a sorted list are least among the listed ones; they are least in a
larger set exactly if enough listed ones come before each of the others.
-/

namespace Ody.Library.Selection

open Set

variable {α : Type*} {r : α → α → Prop} {E : Set α} {k : ℕ} {l : List α}

/-- A selection of at most `k` elements of a set, as large as possible and taken from the front of
an order with ties. -/
structure Least (r : α → α → Prop) (E : Set α) (k : ℕ) (l : List α) : Prop where
  nodup : l.Nodup
  sound : ∀ a ∈ l, a ∈ E
  count : l.length = min k E.ncard
  least : ∀ a ∈ l, ∀ b ∈ E, b ∉ l → r a b

theorem ncard_setOf_mem (h : l.Nodup) : {a | a ∈ l}.ncard = l.length := by
  classical
  have hset : {a | a ∈ l} = ↑l.toFinset := by
    ext a
    simp
  rw [hset, ncard_coe_finset, List.toFinset_card_of_nodup h]

theorem length_le_ncard (h : l.Nodup) (hsub : ∀ a ∈ l, a ∈ E) (hE : E.Finite) :
    l.length ≤ E.ncard :=
  ncard_setOf_mem h ▸ ncard_le_ncard hsub hE

/-- The listed elements before an element are at most those that are taken, if one of the taken ones
is not before it. -/
theorem ncard_before_lt [IsTrans α r] (hsorted : l.Pairwise r) (hnodup : l.Nodup) {a b : α}
    (ha : a ∈ l.take k) (hab : ¬r a b) : {x | x ∈ l ∧ r x b}.ncard < k := by
  have hsub : {x | x ∈ l ∧ r x b} ⊆ {x | x ∈ l.take k} \ {a} := by
    rintro x ⟨hx, hxb⟩
    refine ⟨?_, fun heq => hab (heq ▸ hxb)⟩
    by_contra hrest
    rw [← List.take_append_drop k l] at hx hsorted
    have hdrop := (List.mem_append.mp hx).resolve_left hrest
    have hax := (List.pairwise_append.mp hsorted).2.2 a ha x hdrop
    exact hab (IsTrans.trans a x b hax hxb)
  have hfinite : {x | x ∈ l.take k}.Finite := (l.take k).finite_toSet
  calc {x | x ∈ l ∧ r x b}.ncard
      ≤ ({x | x ∈ l.take k} \ {a}).ncard := ncard_le_ncard hsub hfinite.sdiff
    _ < {x | x ∈ l.take k}.ncard := ncard_sdiff_singleton_lt_of_mem ha hfinite
    _ = (l.take k).length := ncard_setOf_mem (hnodup.sublist (List.take_sublist k l))
    _ ≤ k := List.length_take_le k l

/-- The first elements of a sorted part of a set are least in the set exactly if, for each element
outside of the part, as many of the part come before it. -/
theorem least_take_iff [IsTrans α r] (hE : E.Finite) (hsorted : l.Pairwise r) (hnodup : l.Nodup)
    (hsub : ∀ a ∈ l, a ∈ E) :
    Least r E k (l.take k) ↔ ∀ b ∈ E, b ∉ l → k ≤ {a | a ∈ l ∧ r a b}.ncard := by
  have htaken : (l.take k).Nodup := hnodup.sublist (List.take_sublist k l)
  constructor
  · intro hleast b hb hout
    have hfewer : (l.take k).length < E.ncard := by
      have hrest : b ∉ l.take k := fun hmem => hout (List.mem_of_mem_take hmem)
      have hcons := length_le_ncard (List.nodup_cons.mpr ⟨hrest, htaken⟩)
        (List.forall_mem_cons.mpr ⟨hb, hleast.sound⟩) hE
      exact hcons
    have hfull : (l.take k).length = k := by
      have hcount := hleast.count
      omega
    have hbefore : ∀ a ∈ l.take k, a ∈ {a | a ∈ l ∧ r a b} := fun a ha =>
      ⟨List.mem_of_mem_take ha, hleast.least a ha b hb fun hmem => hout (List.mem_of_mem_take hmem)⟩
    exact hfull ▸ length_le_ncard htaken hbefore (hE.subset fun a ha => hsub a ha.1)
  · intro henough
    refine ⟨htaken, fun a ha => hsub a (List.mem_of_mem_take ha), ?_, ?_⟩
    · have hlength := length_le_ncard hnodup hsub hE
      rw [List.length_take]
      by_cases hall : ∀ b ∈ E, b ∈ l
      · have hsame : E = {a | a ∈ l} := Set.ext fun a => ⟨hall a, hsub a⟩
        rw [hsame, ncard_setOf_mem hnodup]
      · push Not at hall
        obtain ⟨b, hb, hout⟩ := hall
        have hk : k ≤ l.length := (henough b hb hout).trans
          (ncard_setOf_mem hnodup ▸ ncard_le_ncard (fun a ha => ha.1) l.finite_toSet)
        omega
    · intro a ha b hb hrest
      by_cases hmem : b ∈ l
      · rw [← List.take_append_drop k l] at hmem hsorted
        have hdrop := (List.mem_append.mp hmem).resolve_left hrest
        exact (List.pairwise_append.mp hsorted).2.2 a ha b hdrop
      · by_contra hab
        exact (ncard_before_lt hsorted hnodup ha hab).not_ge (henough b hb hmem)

/-- The first elements of a sorted list are least among the listed ones. -/
theorem least_take [IsTrans α r] (hsorted : l.Pairwise r) (hnodup : l.Nodup)
    (hmem : ∀ a, a ∈ l ↔ a ∈ E) : Least r E k (l.take k) := by
  have hfinite : E.Finite := l.finite_toSet.subset fun a ha => (hmem a).mpr ha
  apply (least_take_iff hfinite hsorted hnodup fun a ha => (hmem a).mp ha).mpr
  intro b hb hout
  exact absurd ((hmem b).mpr hb) hout

end Ody.Library.Selection
