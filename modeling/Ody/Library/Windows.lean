import Mathlib.Data.List.Pairwise
import Mathlib.Data.Set.Card
import Mathlib.Order.Bounds.Basic
import Mathlib.Order.Interval.Set.LinearOrder

/-!
# Enumerations of a set by windows

A set of instants is listed window by window. `Enumerates` says that a list is
the elements of the set in one window, each once and in increasing order, and
adjacent windows are joined by `append`. A `Successor` function gives the next
element after any point, whether or not the point is in the set.
-/

namespace Ody.Library.Windows

open Set

variable {α : Type*} [LinearOrder α] {S : Set α}

/-- The list of the elements of `S` in a window, in increasing order. -/
structure Enumerates (S window : Set α) (l : List α) : Prop where
  sorted : l.Pairwise (· < ·)
  mem_iff : ∀ x, x ∈ l ↔ x ∈ S ∧ x ∈ window

theorem Enumerates.nil {window : Set α} (h : ∀ x ∈ S, x ∉ window) : Enumerates S window [] where
  sorted := List.Pairwise.nil
  mem_iff := by simpa using h

/-- Windows with the same elements of `S` have the same enumerations. -/
theorem Enumerates.congr {window window' : Set α} {l : List α} (h : Enumerates S window l)
    (heq : ∀ x ∈ S, x ∈ window' ↔ x ∈ window) : Enumerates S window' l where
  sorted := h.sorted
  mem_iff := by
    intro x
    rw [h.mem_iff]
    exact and_congr_right fun hx => (heq x hx).symm

/-- Adjacent windows are enumerated one after the other. -/
theorem Enumerates.append {a b c : α} {l l' : List α} (h : Enumerates S (Ioc a b) l)
    (h' : Enumerates S (Ioc b c) l') (hab : a ≤ b) (hbc : b ≤ c) :
    Enumerates S (Ioc a c) (l ++ l') where
  sorted := by
    refine List.pairwise_append.mpr ⟨h.sorted, h'.sorted, ?_⟩
    intro x hx y hy
    have hxb : x ≤ b := ((h.mem_iff x).mp hx).2.2
    have hby : b < y := ((h'.mem_iff y).mp hy).2.1
    exact hxb.trans_lt hby
  mem_iff := by
    intro x
    rw [List.mem_append, h.mem_iff, h'.mem_iff, ← and_or_left, ← mem_union,
      Ioc_union_Ioc_eq_Ioc hab hbc]

/-- An enumeration from a point does not end before it. -/
theorem Enumerates.le_getLastD {window : Set α} {a : α} {l : List α} (h : Enumerates S window l)
    (hwindow : ∀ x ∈ window, a ≤ x) : a ≤ l.getLastD a := by
  cases hlast : l.getLast? with
  | none =>
      rw [List.getLastD_eq_getLast?, hlast]
      exact le_rfl
  | some x =>
      rw [List.getLastD_eq_getLast?, hlast]
      exact hwindow x ((h.mem_iff x).mp (List.mem_of_getLast? hlast)).2

/-- An enumeration counts the elements of the window. -/
theorem Enumerates.ncard {window : Set α} {l : List α} (h : Enumerates S window l) :
    (S ∩ window).ncard = l.length := by
  have hset : S ∩ window = ↑l.toFinset := by
    ext x
    simp [h.mem_iff]
  have hnodup : l.Nodup := h.sorted.imp ne_of_lt
  rw [hset, ncard_coe_finset, List.toFinset_card_of_nodup hnodup]

/-- The last element of an enumeration is the greatest one in the window. -/
theorem Enumerates.isGreatest {window : Set α} {l : List α} (h : Enumerates S window l)
    (hne : l ≠ []) : IsGreatest (S ∩ window) (l.getLast hne) := by
  refine ⟨(h.mem_iff _).mp (List.getLast_mem hne), fun x hx => ?_⟩
  have hmem := (h.mem_iff x).mpr hx
  rw [← List.dropLast_append_getLast hne, List.mem_append, List.mem_singleton] at hmem
  rcases hmem with hbefore | rfl
  · have hsorted := h.sorted
    rw [← List.dropLast_append_getLast hne, List.pairwise_append] at hsorted
    exact (hsorted.2.2 x hbefore _ (List.mem_singleton.mpr rfl)).le
  · exact le_rfl

/-- An enumeration that stops at one of its elements ends with the greatest element of a longer
window exactly if it has as many elements as that window. -/
theorem Enumerates.isGreatest_iff {a c : α} {l : List α} (hne : l ≠ [])
    (h : Enumerates S (Ioc a (l.getLast hne)) l) (hc : l.getLast hne ≤ c)
    (hfinite : (S ∩ Ioc a c).Finite) :
    IsGreatest (S ∩ Ioc a c) (l.getLast hne) ↔ (S ∩ Ioc a c).ncard ≤ l.length := by
  have hsub : S ∩ Ioc a (l.getLast hne) ⊆ S ∩ Ioc a c :=
    inter_subset_inter_right S (Ioc_subset_Ioc_right hc)
  constructor
  · intro hgreatest
    have hsame : S ∩ Ioc a c ⊆ S ∩ Ioc a (l.getLast hne) :=
      fun x hx => ⟨hx.1, hx.2.1, hgreatest.2 hx⟩
    exact (ncard_le_ncard hsame (hfinite.subset hsub)).trans h.ncard.le
  · intro hcard
    rw [← h.ncard] at hcard
    rw [← eq_of_subset_of_ncard_le hsub hcard hfinite]
    exact h.isGreatest hne

/-- The function gives the least element of `S` after any point. -/
def Successor (S : Set α) (next : α → α) : Prop := ∀ t, IsLeast {x | x ∈ S ∧ t < x} (next t)

namespace Successor

variable {next : α → α} {t u v : α}

theorem mem (h : Successor S next) (t : α) : next t ∈ S := (h t).1.1

theorem lt (h : Successor S next) (t : α) : t < next t := (h t).1.2

theorem le (h : Successor S next) {x : α} (hx : x ∈ S) (ht : t < x) : next t ≤ x := (h t).2 ⟨hx, ht⟩

/-- There is nothing before the next element. -/
theorem empty (h : Successor S next) (hu : u < next t) : Enumerates S (Ioc t u) [] := by
  refine Enumerates.nil fun x hx hwindow => ?_
  exact absurd (h.le hx hwindow.1) (not_le.mpr (hwindow.2.trans_lt hu))

/-- The window up to the next element has only that element. -/
theorem single (h : Successor S next) (t : α) : Enumerates S (Ioc t (next t)) [next t] where
  sorted := List.pairwise_singleton _ _
  mem_iff := by
    intro x
    rw [List.mem_singleton]
    constructor
    · rintro rfl
      exact ⟨h.mem t, h.lt t, le_rfl⟩
    · rintro ⟨hx, hlt, hle⟩
      exact le_antisymm hle (h.le hx hlt)

/-- Between a point and its next element the next element is the same. -/
theorem eq_of_lt (h : Successor S next) (htu : t ≤ u) (hu : u < next t) : next u = next t :=
  le_antisymm (h.le (h.mem t) hu) (h.le (h.mem u) (htu.trans_lt (h.lt u)))

/-- A window may start anywhere before the next element. -/
theorem window (h : Successor S next) (htv : t ≤ v) (hv : v < next t) {l : List α}
    (hl : Enumerates S (Ioc v u) l) : Enumerates S (Ioc t u) l := by
  refine hl.congr fun x hx => ⟨?_, ?_⟩
  · rintro ⟨hlt, hle⟩
    exact ⟨hv.trans_le (h.le hx hlt), hle⟩
  · rintro ⟨hlt, hle⟩
    exact ⟨htv.trans_lt hlt, hle⟩

end Successor

end Ody.Library.Windows
