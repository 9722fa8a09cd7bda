import Mathlib.Data.List.Basic
import Mathlib.Data.List.Infix

/-!
# Texts with delimiters

A text that is put together from parts with delimiters between them can be taken
apart again if the parts do not contain the delimiters. The last part may
contain anything, and the first one anything but the tag that follows it.
-/

namespace Ody.Library.Delimited

variable {α : Type*} {opening closing : α}

/-- The part before the first delimiter. -/
theorem split_unique {l l' r r' : List α} (hl : closing ∉ l) (hl' : closing ∉ l')
    (h : l ++ closing :: r = l' ++ closing :: r') : l = l' ∧ r = r' := by
  rcases List.append_eq_append_iff.mp h with ⟨a, rfl, ha⟩ | ⟨a, rfl, ha⟩
  · cases a with
    | nil => exact ⟨(List.append_nil l).symm, (List.cons.inj ha).2⟩
    | cons x rest =>
        obtain ⟨rfl, -⟩ := List.cons.inj ha
        exact absurd (by simp) hl'
  · cases a with
    | nil => exact ⟨List.append_nil l', (List.cons.inj ha).2.symm⟩
    | cons x rest =>
        obtain ⟨rfl, -⟩ := List.cons.inj ha
        exact absurd (by simp) hl

/-- The part after the last delimiter. -/
theorem split_last_unique {l l' r r' : List α} (hr : closing ∉ r) (hr' : closing ∉ r')
    (h : l ++ closing :: r = l' ++ closing :: r') : l = l' ∧ r = r' := by
  have hreverse : r.reverse ++ closing :: l.reverse = r'.reverse ++ closing :: l'.reverse := by
    simpa using congrArg List.reverse h
  have hmem : closing ∉ r.reverse := fun hin => hr (List.mem_reverse.mp hin)
  have hmem' : closing ∉ r'.reverse := fun hin => hr' (List.mem_reverse.mp hin)
  obtain ⟨hright, hleft⟩ := split_unique hmem hmem' hreverse
  exact ⟨List.reverse_injective hleft, List.reverse_injective hright⟩

/-- A part that reaches beyond the opening delimiter of a tag contains the tag. -/
theorem tag_contained {first tag last extra rest : List α} (hopen : opening ∉ tag)
    (hne : opening ≠ closing)
    (h : tag ++ closing :: last = extra ++ opening :: rest) :
    opening :: (tag ++ [closing]) <:+: first ++ opening :: extra := by
  have hsplit : tag ++ [closing] ++ last = extra ++ opening :: rest := by simpa using h
  suffices hextra : ∃ more, extra = tag ++ [closing] ++ more by
    obtain ⟨more, rfl⟩ := hextra
    exact ⟨first, more, by simp⟩
  rcases List.append_eq_append_iff.mp hsplit with ⟨a, ha, -⟩ | ⟨a, ha, hrest⟩
  · exact ⟨a, ha⟩
  · cases a with
    | nil => exact ⟨[], by simpa using ha.symm⟩
    | cons x more =>
        obtain ⟨rfl, -⟩ := List.cons.inj hrest
        have hmem : opening ∈ tag ++ [closing] := by
          rw [ha]
          simp
        simp [hopen, hne] at hmem

/-- A first part, a tag between two delimiters and a last part determine each other, if no first
part contains the other tag. -/
theorem tagged_unique {first first' tag tag' last last' : List α} (hne : opening ≠ closing)
    (hopen : opening ∉ tag) (hopening : opening ∉ tag') (hclose : closing ∉ tag)
    (hclose' : closing ∉ tag')
    (hfirst : ¬ opening :: (tag' ++ [closing]) <:+: first)
    (hfirst' : ¬ opening :: (tag ++ [closing]) <:+: first')
    (h : first ++ opening :: (tag ++ closing :: last) =
      first' ++ opening :: (tag' ++ closing :: last')) :
    first = first' ∧ tag = tag' ∧ last = last' := by
  rcases List.append_eq_append_iff.mp h with ⟨a, rfl, ha⟩ | ⟨a, rfl, ha⟩
  · cases a with
    | nil =>
        obtain ⟨htag, hlast⟩ := split_unique hclose hclose' (List.cons.inj ha).2
        exact ⟨(List.append_nil first).symm, htag, hlast⟩
    | cons x extra =>
        obtain ⟨rfl, hrest⟩ := List.cons.inj ha
        exact absurd (tag_contained hopen hne hrest) hfirst'
  · cases a with
    | nil =>
        obtain ⟨htag, hlast⟩ := split_unique hclose' hclose (List.cons.inj ha).2
        exact ⟨List.append_nil first', htag.symm, hlast.symm⟩
    | cons x extra =>
        obtain ⟨rfl, hrest⟩ := List.cons.inj ha
        exact absurd (tag_contained hopening hne hrest) hfirst

/-! ## Numbers as parts -/

theorem isDigit_of_mem_repr {n : Nat} {c : Char} (h : c ∈ n.repr.toList) : c.isDigit = true :=
  Nat.isDigit_of_mem_toDigits (by decide) (by decide) (Nat.toList_repr ▸ h)

/-- A number can stand before every delimiter that is no digit. -/
theorem notMem_repr (n : Nat) {c : Char} (h : c.isDigit = false) : c ∉ n.repr.toList := by
  intro hmem
  rw [isDigit_of_mem_repr hmem] at h
  cases h

/-! ## Joined parts -/

/-- What stands in a part stands in the text. -/
theorem mem_intercalate (separator : List α) {part : List α}
    {parts : List (List α)} {a : α} (hpart : part ∈ parts) (ha : a ∈ part) :
    a ∈ separator.intercalate parts := by
  induction parts with
  | nil => cases hpart
  | cons first rest ih =>
      rcases List.mem_cons.mp hpart with rfl | hrest
      · cases rest with
        | nil => simpa [List.intercalate] using ha
        | cons next rest => simp [List.intercalate, List.intersperse, ha]
      · cases rest with
        | nil => cases hrest
        | cons next rest =>
            have hmem := ih hrest
            simp only [List.intercalate, List.intersperse, List.flatten_cons, List.mem_append]
              at hmem ⊢
            exact Or.inr (Or.inr hmem)

end Ody.Library.Delimited
