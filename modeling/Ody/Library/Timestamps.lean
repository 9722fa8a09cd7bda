import Mathlib

/-!
# Timestamps as text

An instant is a number of nanoseconds since the first of January of the year 1. It
is written as a date and a time of day of the Gregorian calendar, with the fraction
of a second cut after its last digit that is not zero, and read back from that text.
The reader also accepts other texts: more digits of the fraction, and an offset in
place of `Z`.
-/

namespace Ody.Library.Timestamps

/-! ## Dates -/

structure Date where
  year : Nat
  month : Nat
  day : Nat
  deriving DecidableEq, Repr

def isLeap (year : Nat) : Bool := year % 4 == 0 && (year % 100 != 0 || year % 400 == 0)

def monthLengths (leap : Bool) : List Nat :=
  [31, if leap then 29 else 28, 31, 30, 31, 30, 31, 31, 30, 31, 30, 31]

def daysIn (year month : Nat) : Nat := (monthLengths (isLeap year)).getD (month - 1) 0

/-- The days from the first day of the year 1 to the first day of a year. -/
def daysBefore (year : Nat) : Int :=
  365 * (year - 1 : Int) + (year - 1 : Int) / 4 - (year - 1 : Int) / 100 + (year - 1 : Int) / 400

/-- The days from the first day of the year 1 to the date. -/
def Date.days (d : Date) : Int :=
  daysBefore d.year + ((monthLengths (isLeap d.year)).take (d.month - 1)).sum + (d.day - 1 : Int)

/-- The year of a day and the days of it that have passed. -/
def yearAndDay (days : Nat) : Nat × Nat :=
  let fourHundreds := days / 146097
  let days := days % 146097
  let hundreds := min (days / 36524) 3
  let days := days - 36524 * hundreds
  let fours := days / 1461
  let days := days % 1461
  let ones := min (days / 365) 3
  (400 * fourHundreds + 100 * hundreds + 4 * fours + ones + 1, days - 365 * ones)

/-- The number of passed months and the days of the current one that have passed. -/
def monthAndDay : List Nat → Nat → Nat × Nat
  | [], days => (0, days)
  | length :: rest, days =>
      if days < length then (0, days)
      else ((monthAndDay rest (days - length)).1 + 1, (monthAndDay rest (days - length)).2)

def dateOf (days : Nat) : Date :=
  let year := (yearAndDay days).1
  let month := monthAndDay (monthLengths (isLeap year)) (yearAndDay days).2
  ⟨year, month.1 + 1, month.2 + 1⟩

/-- The days before a year, counted in cycles of 400, 100, 4 years and one year. -/
theorem daysBefore_cycles (a : Nat) {b c d : Nat} (hb : b ≤ 3) (hc : c ≤ 24) (hd : d ≤ 3) :
    daysBefore (400 * a + 100 * b + 4 * c + d + 1) = 146097 * a + 36524 * b + 1461 * c + 365 * d := by
  have hyear : ((400 * a + 100 * b + 4 * c + d + 1 : Nat) : Int) - 1 =
      400 * a + 100 * b + 4 * c + d := by push_cast; ring
  have hfours : (400 * a + 100 * b + 4 * c + d : Int) / 4 = 100 * a + 25 * b + c := by omega
  have hhundreds : (400 * a + 100 * b + 4 * c + d : Int) / 100 = 4 * a + b := by omega
  have hfourHundreds : (400 * a + 100 * b + 4 * c + d : Int) / 400 = a := by omega
  rw [daysBefore, hyear, hfours, hhundreds, hfourHundreds]
  ring

/-- The day of the year counts from the first day of the year. -/
theorem yearAndDay_days (days : Nat) :
    daysBefore (yearAndDay days).1 + (yearAndDay days).2 = days := by
  simp only [yearAndDay]
  rw [daysBefore_cycles] <;> omega

theorem yearAndDay_lt (days : Nat) :
    (yearAndDay days).2 < 365 + if isLeap (yearAndDay days).1 then 1 else 0 := by
  simp only [yearAndDay, isLeap, Bool.and_eq_true, Bool.or_eq_true, beq_iff_eq, bne_iff_ne]
  split <;> omega

/-- A day of the year is split into whole months and the rest. -/
theorem monthAndDay_spec {lengths : List Nat} {days : Nat} (h : days < lengths.sum) :
    (monthAndDay lengths days).1 < lengths.length ∧
      (monthAndDay lengths days).2 < lengths.getD (monthAndDay lengths days).1 0 ∧
      (lengths.take (monthAndDay lengths days).1).sum + (monthAndDay lengths days).2 = days := by
  induction lengths generalizing days with
  | nil => cases h
  | cons length rest ih =>
      rw [monthAndDay]
      split
      · next hlt => simpa using hlt
      · next hge =>
        rw [List.sum_cons] at h
        obtain ⟨hmonth, hday, hsum⟩ := ih (show days - length < rest.sum by omega)
        refine ⟨by simpa using hmonth, by simpa using hday, ?_⟩
        rw [List.take_succ_cons, List.sum_cons]
        omega

theorem sum_monthLengths (leap : Bool) : (monthLengths leap).sum = 365 + if leap then 1 else 0 := by
  cases leap <;> rfl

section DateOf

variable (days : Nat)

theorem monthAndDay_dateOf :
    (dateOf days).month - 1 < 12 ∧ (dateOf days).day - 1 < daysIn (dateOf days).year (dateOf days).month ∧
      ((monthLengths (isLeap (dateOf days).year)).take ((dateOf days).month - 1)).sum +
        ((dateOf days).day - 1) = (yearAndDay days).2 := by
  have hlt : (yearAndDay days).2 < (monthLengths (isLeap (yearAndDay days).1)).sum := by
    rw [sum_monthLengths]
    exact yearAndDay_lt days
  exact monthAndDay_spec hlt

theorem days_dateOf : (dateOf days).days = days := by
  obtain ⟨-, -, hsum⟩ := monthAndDay_dateOf days
  have hyear := yearAndDay_days days
  have hday : 1 ≤ (dateOf days).day := Nat.le_add_left _ _
  have hfields : (dateOf days).year = (yearAndDay days).1 := rfl
  rw [Date.days, hfields]
  rw [hfields] at hsum
  omega

theorem month_dateOf : 1 ≤ (dateOf days).month ∧ (dateOf days).month ≤ 12 := by
  have hmonth := (monthAndDay_dateOf days).1
  have hpos : 1 ≤ (dateOf days).month := Nat.le_add_left _ _
  omega

theorem day_dateOf : 1 ≤ (dateOf days).day ∧
    (dateOf days).day ≤ daysIn (dateOf days).year (dateOf days).month := by
  have hday := (monthAndDay_dateOf days).2.1
  have hpos : 1 ≤ (dateOf days).day := Nat.le_add_left _ _
  omega

/-- The years with at most four digits. -/
theorem year_dateOf_lt {days : Nat} (h : days < 3652059) : (dateOf days).year < 10000 := by
  have hyear : (dateOf days).year = (yearAndDay days).1 := rfl
  rw [hyear]
  simp only [yearAndDay]
  omega

theorem daysIn_le (year month : Nat) : daysIn year month ≤ 31 := by
  have hall : ∀ length ∈ monthLengths (isLeap year), length ≤ 31 := by
    cases isLeap year <;> decide
  rw [daysIn, List.getD_eq_getElem?_getD]
  cases hl : (monthLengths (isLeap year))[month - 1]? with
  | none => exact Nat.zero_le _
  | some length => exact hall length (List.mem_of_getElem? hl)

end DateOf

/-! ## Numbers -/

def digit (n : Nat) : Char := Char.ofNat (48 + n)

/-- The last digits of a number. -/
def digits : Nat → Nat → List Char
  | 0, _ => []
  | width + 1, n => digits width (n / 10) ++ [digit (n % 10)]

/-- A number with at least this many digits. -/
def padded (width n : Nat) : List Char :=
  if n < 10 ^ width then digits width n else Nat.toDigits 10 n

/-- The number that digits stand for. -/
def valueOf (text : List Char) : Nat := text.foldl (fun n c => 10 * n + (c.toNat - 48)) 0

/-- Read a number of this many digits within bounds. -/
def readNumber (width low high : Nat) (text : List Char) : Option (Nat × List Char) :=
  let number := text.take width
  if number.length = width ∧ number.all Char.isDigit = true ∧ low ≤ valueOf number ∧
      valueOf number ≤ high then
    some (valueOf number, text.drop width)
  else none

/-- Read one character. -/
def readChar (c : Char) : List Char → Option (List Char)
  | [] => none
  | first :: rest => if first = c then some rest else none

theorem digit_spec {n : Nat} (h : n < 10) : (digit n).isDigit = true ∧ (digit n).toNat - 48 = n := by
  interval_cases n <;> decide

@[simp] theorem length_digits (width n : Nat) : (digits width n).length = width := by
  induction width generalizing n with
  | zero => rfl
  | succ width ih => simp [digits, ih]

theorem isDigit_digits (width n : Nat) : ∀ c ∈ digits width n, c.isDigit = true := by
  induction width generalizing n with
  | zero => exact fun _ h => nomatch h
  | succ width ih =>
      intro c hc
      rcases List.mem_append.mp hc with hc | hc
      · exact ih (n / 10) c hc
      · rw [List.mem_singleton.mp hc]
        exact (digit_spec (Nat.mod_lt n (by decide))).1

theorem valueOf_concat (text : List Char) (c : Char) :
    valueOf (text ++ [c]) = 10 * valueOf text + (c.toNat - 48) := by
  rw [valueOf, List.foldl_append]
  rfl

theorem valueOf_digits {width n : Nat} (h : n < 10 ^ width) : valueOf (digits width n) = n := by
  induction width generalizing n with
  | zero =>
      rw [Nat.lt_one_iff.mp h]
      rfl
  | succ width ih =>
      rw [pow_succ] at h
      rw [digits, valueOf_concat, ih (by omega), (digit_spec (Nat.mod_lt n (by decide))).2]
      omega

/-- A number is read back, whatever follows it. -/
theorem readNumber_digits {width n low high : Nat} (h : n < 10 ^ width) (hlow : low ≤ n)
    (hhigh : n ≤ high) (rest : List Char) :
    readNumber width low high (digits width n ++ rest) = some (n, rest) := by
  have htake : (digits width n ++ rest).take width = digits width n :=
    List.take_left' (length_digits width n)
  have hdrop : (digits width n ++ rest).drop width = rest := List.drop_left' (length_digits width n)
  have hall : (digits width n).all Char.isDigit = true := List.all_eq_true.mpr (isDigit_digits width n)
  rw [readNumber]
  simp only [htake, hdrop, length_digits, hall, valueOf_digits h, hlow, hhigh, and_self, if_true]

theorem readChar_cons (c : Char) (rest : List Char) : readChar c (c :: rest) = some rest := if_pos rfl

/-! ## Fractions of a second -/

/-- The fraction of a second without its last zeros. -/
def fraction (nanoseconds : Nat) : List Char :=
  if nanoseconds = 0 then [] else '.' :: (digits 9 nanoseconds).rdropWhile (· == '0')

/-- The nanoseconds of the digits of a fraction. -/
def nanosecondsOf (number : List Char) : Nat :=
  valueOf (number.take 9) * 10 ^ (9 - (number.take 9).length)

/-- Read a fraction, if there is one. -/
def readFraction (text : List Char) : Nat × List Char :=
  match text with
  | '.' :: rest =>
      if (rest.takeWhile Char.isDigit).isEmpty then (0, text)
      else (nanosecondsOf (rest.takeWhile Char.isDigit), rest.dropWhile Char.isDigit)
  | _ => (0, text)

theorem valueOf_zeros (text : List Char) (n : Nat) :
    valueOf (text ++ List.replicate n '0') = valueOf text * 10 ^ n := by
  induction n with
  | zero => simp
  | succ n ih =>
      rw [List.replicate_succ', ← List.append_assoc, valueOf_concat, ih, pow_succ]
      simp only [Char.reduceToNat, Nat.sub_self]
      ring

/-- The cut digits are zeros. -/
theorem exists_zeros (text : List Char) :
    ∃ n, text = text.rdropWhile (· == '0') ++ List.replicate n '0' := by
  have hzeros : ∀ c ∈ (text.reverse.takeWhile (· == '0')).reverse, c = '0' := by
    intro c hc
    have hzero := List.mem_takeWhile_imp (List.mem_reverse.mp hc)
    exact beq_iff_eq.mp hzero
  use (text.reverse.takeWhile (· == '0')).reverse.length
  rw [← List.eq_replicate_of_mem hzeros, List.rdropWhile, ← List.reverse_append,
    List.takeWhile_append_dropWhile, List.reverse_reverse]

/-- What is left of the digits of a fraction. -/
structure Cut (nanoseconds : Nat) (kept : List Char) : Prop where
  digits : ∀ c ∈ kept, c.isDigit = true
  length : kept.length ≤ 9
  value : nanosecondsOf kept = nanoseconds

theorem cut_digits {nanoseconds : Nat} (h : nanoseconds < 10 ^ 9) :
    Cut nanoseconds ((digits 9 nanoseconds).rdropWhile (· == '0')) := by
  obtain ⟨n, hn⟩ := exists_zeros (digits 9 nanoseconds)
  have hvalue := valueOf_digits h
  have hlength := length_digits 9 nanoseconds
  have hdigits := isDigit_digits 9 nanoseconds
  generalize (digits 9 nanoseconds).rdropWhile (· == '0') = kept at hn ⊢
  rw [hn] at hvalue hlength hdigits
  rw [List.length_append, List.length_replicate] at hlength
  have htake : kept.take 9 = kept := List.take_of_length_le (by omega)
  refine ⟨fun c hc => hdigits c (List.mem_append_left _ hc), by omega, ?_⟩
  rw [nanosecondsOf, htake, ← hvalue, valueOf_zeros]
  congr 2
  omega

theorem readFraction_fraction {nanoseconds : Nat} (h : nanoseconds < 10 ^ 9) (rest : List Char) :
    readFraction (fraction nanoseconds ++ 'Z' :: rest) = (nanoseconds, 'Z' :: rest) := by
  by_cases hzero : nanoseconds = 0
  · rw [fraction, if_pos hzero, hzero]
    rfl
  · have hcut := cut_digits h
    rw [fraction, if_neg hzero]
    generalize (digits 9 nanoseconds).rdropWhile (· == '0') = kept at hcut ⊢
    have hkept : kept ≠ [] := by
      rintro rfl
      exact hzero hcut.value.symm
    have htake : (kept ++ 'Z' :: rest).takeWhile Char.isDigit = kept := by
      rw [List.takeWhile_append_of_pos hcut.digits]
      exact List.append_nil kept
    have hdrop : (kept ++ 'Z' :: rest).dropWhile Char.isDigit = 'Z' :: rest :=
      List.dropWhile_append_of_pos hcut.digits
    rw [List.cons_append, readFraction, htake, hdrop, hcut.value]
    exact if_neg (by simpa using hkept)

/-! ## Instants -/

/-- The nanoseconds of a second, a minute, an hour and a day. -/
def second : Nat := 1000000000
def minute : Nat := 60 * second
def hour : Nat := 60 * minute
def day : Nat := 24 * hour

/-- The text of an instant. -/
def format (t : Nat) : List Char :=
  let date := dateOf (t / day)
  padded 4 date.year ++ '-' :: digits 2 date.month ++ '-' :: digits 2 date.day ++
    'T' :: digits 2 (t % day / hour) ++ ':' :: digits 2 (t % hour / minute) ++
    ':' :: digits 2 (t % minute / second) ++ fraction (t % second) ++ ['Z']

/-- Read an offset from universal time in minutes. -/
def readOffset : List Char → Option Int
  | ['Z'] => some 0
  | sign :: rest => do
      let (hours, rest) ← readNumber 2 0 23 rest
      let rest ← readChar ':' rest
      let (minutes, rest) ← readNumber 2 0 59 rest
      if rest ≠ [] then none
      else if sign = '+' then some (hours * 60 + minutes)
      else if sign = '-' then some (-(hours * 60 + minutes))
      else none
  | [] => none

/-- The instant of a text. -/
def parse (text : List Char) : Option Int := do
  let (years, text) ← readNumber 4 0 9999 text
  let text ← readChar '-' text
  let (months, text) ← readNumber 2 1 12 text
  let text ← readChar '-' text
  let (days, text) ← readNumber 2 1 (daysIn years months) text
  let text ← readChar 'T' text
  let (hours, text) ← readNumber 2 0 23 text
  let text ← readChar ':' text
  let (minutes, text) ← readNumber 2 0 59 text
  let text ← readChar ':' text
  let (seconds, text) ← readNumber 2 0 59 text
  let (nanoseconds, text) := readFraction text
  let offset ← readOffset text
  some ((Date.mk years months days).days * day + hours * hour + minutes * minute + seconds * second +
    nanoseconds - offset * minute)

/-- The first instant whose year has five digits. -/
def limit : Nat := 3652059 * day

/-- An instant is read back from its text. -/
theorem parse_format {t : Nat} (h : t < limit) : parse (format t) = some (t : Int) := by
  have hdays : t / day < 3652059 := Nat.div_lt_of_lt_mul (by rw [mul_comm]; exact h)
  have hyear := year_dateOf_lt hdays
  obtain ⟨hmonth, hmonth'⟩ := month_dateOf (t / day)
  obtain ⟨hday, hday'⟩ := day_dateOf (t / day)
  have hlast := daysIn_le (dateOf (t / day)).year (dateOf (t / day)).month
  have hhour : t % day / hour < 24 := by simp only [day, hour, minute, second]; omega
  have hminute : t % hour / minute < 60 := by simp only [hour, minute, second]; omega
  have hsecond : t % minute / second < 60 := by simp only [minute, second]; omega
  have hfraction : t % second < 10 ^ 9 := Nat.mod_lt t (by decide)
  have htotal : (dateOf (t / day)).days * day + (t % day / hour : Nat) * hour +
      (t % hour / minute : Nat) * minute + (t % minute / second : Nat) * second +
      (t % second : Nat) - 0 * minute = (t : Int) := by
    rw [days_dateOf]
    simp only [day, hour, minute, second]
    omega
  have hpadded : padded 4 (dateOf (t / day)).year = digits 4 (dateOf (t / day)).year := if_pos hyear
  have htwo : ∀ {n low high}, low ≤ n → n ≤ high → n < 10 ^ 2 → ∀ rest,
      readNumber 2 low high (digits 2 n ++ rest) = some (n, rest) :=
    fun hlow hhigh h => readNumber_digits h hlow hhigh
  have hfour : (dateOf (t / day)).year < 10 ^ 4 := hyear
  simp only [parse, format, hpadded, List.append_assoc, List.cons_append,
    Option.bind_eq_bind, Option.bind_some, readChar_cons,
    readNumber_digits hfour (Nat.zero_le _) (Nat.le_of_lt_succ hyear),
    htwo hmonth hmonth' (by omega), htwo hday hday' (by omega),
    htwo (Nat.zero_le _) (Nat.le_of_lt_succ hhour) (by omega),
    htwo (Nat.zero_le _) (Nat.le_of_lt_succ hminute) (by omega),
    htwo (Nat.zero_le _) (Nat.le_of_lt_succ hsecond) (by omega),
    readFraction_fraction hfraction]
  exact congrArg some htotal

/-- The characters of the date, none of which is a colon, and how many follow. -/
theorem format_date {t : Nat} (h : t < limit) :
    ∃ date rest, format t = date ++ rest ∧ date.length = 10 ∧ ':' ∉ date ∧ 10 ≤ rest.length ∧
      rest.length ≤ 20 := by
  have hyear := year_dateOf_lt (Nat.div_lt_of_lt_mul (by rw [mul_comm]; exact h) : t / day < 3652059)
  have hpadded : padded 4 (dateOf (t / day)).year = digits 4 (dateOf (t / day)).year := if_pos hyear
  have hdigits : ∀ width n, ':' ∉ digits width n := fun width n hmem =>
    absurd (isDigit_digits width n ':' hmem) (by decide)
  have hfraction : (fraction (t % second)).length ≤ 10 := by
    rw [fraction]
    split
    · exact Nat.zero_le 10
    · exact Nat.succ_le_succ (cut_digits (Nat.mod_lt t (by decide))).length
  refine ⟨digits 4 (dateOf (t / day)).year ++ '-' :: digits 2 (dateOf (t / day)).month ++
    '-' :: digits 2 (dateOf (t / day)).day, 'T' :: digits 2 (t % day / hour) ++
    ':' :: digits 2 (t % hour / minute) ++ ':' :: digits 2 (t % minute / second) ++
    fraction (t % second) ++ ['Z'], ?_, ?_, ?_, ?_, ?_⟩
  · simp only [format, hpadded, List.append_assoc, List.cons_append]
  · simp
  · simp [hdigits]
  · simp only [List.length_append, List.length_cons, length_digits, List.length_nil]
    omega
  · simp only [List.length_append, List.length_cons, length_digits, List.length_nil]
    omega

/-- Two instants with one text are the same. -/
theorem format_injective {s t : Nat} (hs : s < limit) (ht : t < limit) (h : format s = format t) :
    s = t := by
  have hparse : some (s : Int) = some (t : Int) := by
    rw [← parse_format hs, h, parse_format ht]
  exact Int.ofNat.inj (Option.some.inj hparse)

/-- A text of one instant does not end with a colon and the text of another. -/
theorem not_suffix_format {s t : Nat} (hs : s < limit) (ht : t < limit) :
    ¬ ':' :: format s <:+ format t := by
  rintro ⟨before, hbefore⟩
  obtain ⟨date, rest, hformat, hdate, hcolon, -, hrest⟩ := format_date ht
  obtain ⟨date', rest', hformat', hdate', -, hrest', -⟩ := format_date hs
  -- What precedes the colon is shorter than the date, so the colon would stand in it.
  have hshort : before.length < date.length := by
    have hlength := congrArg List.length hbefore
    rw [hformat, hformat'] at hlength
    simp only [List.length_append, List.length_cons] at hlength
    omega
  have hat : (format t)[before.length]? = some ':' := by
    rw [← hbefore, List.getElem?_append_right le_rfl, Nat.sub_self]
    rfl
  rw [hformat, List.getElem?_append_left hshort] at hat
  exact hcolon (List.mem_of_getElem? hat)

/-- A text that is followed by a colon and an instant can be read off, and so can the instant. -/
theorem append_format_inj {a b : List Char} {s t : Nat} (hs : s < limit) (ht : t < limit)
    (h : a ++ ':' :: format s = b ++ ':' :: format t) : a = b ∧ s = t := by
  have hsuffix : ∀ {a b : List Char} {s t : Nat}, s < limit → t < limit →
      a ++ ':' :: format s = b ++ ':' :: format t → ¬ (format s).length < (format t).length := by
    intro a b s t hs ht h hlt
    have hleft : ':' :: format s <:+ b ++ ':' :: format t := ⟨a, h⟩
    have hright : format t <:+ b ++ ':' :: format t := ⟨b ++ [':'], by simp⟩
    exact not_suffix_format hs ht (List.suffix_of_suffix_length_le hleft hright hlt)
  have hlength : (format s).length = (format t).length :=
    Nat.le_antisymm (not_lt.mp (hsuffix ht hs h.symm)) (not_lt.mp (hsuffix hs ht h))
  obtain ⟨hab, hst⟩ := List.append_inj' h (congrArg (· + 1) hlength)
  exact ⟨hab, format_injective hs ht (List.cons.inj hst).2⟩

end Ody.Library.Timestamps
