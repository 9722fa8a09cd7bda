import Mathlib
import Ody.Execution.Model
import Ody.Library.Timestamps

/-!
# Instants as texts

`Time.Format` and `time.Parse` with the layout `time.RFC3339Nano`, which the store of
pipeline hashes and the scheduler use. From the year 1 to the year 9999 an instant is
read back from its text.
-/

namespace Ody

open Library

/-- `Time.Format` with `time.RFC3339Nano`, from the year 1 on. -/
def formatTime (t : Time) : String := String.ofList (Timestamps.format t.toNat)

/-- `time.Parse` with `time.RFC3339Nano`. -/
def parseTime (text : String) : Except GoError Time :=
  match Timestamps.parse text.toList with
  | some t => .ok t
  | none => .error (.text ("parsing time " ++ text))

/-- The instants with a year of at most four digits. -/
def Dated (t : Time) : Prop := 0 ≤ t ∧ t < Timestamps.limit

instance (t : Time) : Decidable (Dated t) := inferInstanceAs (Decidable (_ ∧ _))

theorem Dated.toNat_lt {t : Time} (h : Dated t) : t.toNat < Timestamps.limit :=
  (Int.toNat_lt h.1).mpr h.2

theorem parseTime_formatTime {t : Time} (h : Dated t) : parseTime (formatTime t) = .ok t := by
  rw [parseTime, formatTime, String.toList_ofList, Timestamps.parse_format h.toNat_lt,
    Int.toNat_of_nonneg h.1]

/-- No instant has the empty text. -/
theorem formatTime_ne_empty {t : Time} (h : Dated t) : formatTime t ≠ "" := by
  intro hempty
  have hparse := parseTime_formatTime h
  rw [hempty] at hparse
  cases hparse

/-- A text that is followed by a colon and an instant can be read off, and so can the instant. -/
theorem append_formatTime_inj {a b : String} {s t : Time} (hs : Dated s) (ht : Dated t)
    (h : a ++ ":" ++ formatTime s = b ++ ":" ++ formatTime t) : a = b ∧ s = t := by
  have hlists : a.toList ++ ':' :: Timestamps.format s.toNat =
      b.toList ++ ':' :: Timestamps.format t.toNat := by
    have htexts := congrArg String.toList h
    simp only [String.toList_append, formatTime, String.toList_ofList, List.append_assoc] at htexts
    exact htexts
  obtain ⟨hab, hst⟩ := Timestamps.append_format_inj hs.toNat_lt ht.toNat_lt hlists
  refine ⟨String.toList_inj.mp hab, ?_⟩
  rw [← Int.toNat_of_nonneg hs.1, hst, Int.toNat_of_nonneg ht.1]

end Ody
