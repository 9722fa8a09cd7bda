import Ody.Execution.Model
import Mathlib.Data.List.DropRight

/-!
# Task definitions

The contract of a task as pipelines see it: its durable identity, its attempts
and the checks of `Validate`. The typed input and output are erased to their
stored text.
-/

namespace Ody

/-- `unicode.IsSpace`. -/
def isSpace (c : Char) : Bool :=
  c == '\t' || c == '\n' || c == '\x0b' || c == '\x0c' || c == '\r' || c == ' ' ||
  c == '\u0085' || c == '\u00a0' || c == '\u1680' ||
  (decide ('\u2000' ≤ c) && decide (c ≤ '\u200a')) ||
  c == '\u2028' || c == '\u2029' || c == '\u202f' || c == '\u205f' || c == '\u3000'

/-- `strings.TrimSpace`. -/
def trimSpace (text : String) : String :=
  String.ofList (((text.toList.dropWhile isSpace).reverse.dropWhile isSpace).reverse)

theorem trimSpace_toList (text : String) :
    (trimSpace text).toList = (text.toList.dropWhile isSpace).rdropWhile isSpace := by
  rw [trimSpace, String.toList_ofList, List.rdropWhile]

theorem trimSpace_subset (text : String) : (trimSpace text).toList ⊆ text.toList := by
  rw [trimSpace_toList]
  exact List.Subset.trans (List.rdropWhile_prefix _ _).subset (List.dropWhile_suffix _).subset

/-- Trimming on the right leaves the first character alone. -/
theorem trimSpace_trimSpace (text : String) : trimSpace (trimSpace text) = trimSpace text := by
  apply String.toList_inj.mp
  rw [trimSpace_toList (trimSpace text), trimSpace_toList text]
  have hleft : ((text.toList.dropWhile isSpace).rdropWhile isSpace).dropWhile isSpace =
      (text.toList.dropWhile isSpace).rdropWhile isSpace := by
    have hkept := List.rdropWhile_prefix isSpace (text.toList.dropWhile isSpace)
    cases hright : (text.toList.dropWhile isSpace).rdropWhile isSpace with
    | nil => rfl
    | cons c kept =>
        rw [hright] at hkept
        have hne := hkept.ne_nil (List.cons_ne_nil c kept)
        have hfirst := List.head_dropWhile_not isSpace hne
        rw [← hkept.head (List.cons_ne_nil c kept), List.head_cons] at hfirst
        rw [List.dropWhile_cons_of_neg (by simp [hfirst])]
  rw [hleft]
  exact List.rdropWhile_idempotent _ _

/-- One character of the verb `%q`; characters outside ASCII are printed as they are. -/
def quoteChar (c : Char) : String :=
  if c == '"' then "\\\""
  else if c == '\\' then "\\\\"
  else if c == '\n' then "\\n"
  else if c == '\t' then "\\t"
  else if c == '\r' then "\\r"
  else String.singleton c

/-- The verb `%q` for texts without further control characters and unprintable ones, which Go would
escape too. -/
def quoted (text : String) : String :=
  "\"" ++ String.join (text.toList.map quoteChar) ++ "\""

namespace Task

/-- The delay after a completed attempt. -/
abbrev RetryPolicy := Int → Duration

structure Specification where
  name : String
  version : Int
  maxAttempts : Int
  timeout : Duration
  retry : Option RetryPolicy

/-- A versioned task whose input and output types are erased. -/
structure Definition where
  spec : Specification

/-- `Definition.Validate`; no error stands for nil. -/
def Definition.validate (d : Definition) : Option GoError :=
  if d.spec.name = "" then some (.text "task name is empty")
  else if d.spec.version ≤ 0 then
    some (.text ("task " ++ quoted d.spec.name ++ " version must be positive"))
  else if d.spec.maxAttempts ≤ 0 then
    some (.text ("task " ++ quoted d.spec.name ++ " max attempts must be positive"))
  else if d.spec.retry.isNone then
    some (.text ("task " ++ quoted d.spec.name ++ " retry policy is nil"))
  else none

end Task

end Ody
