import Mathlib
import Ody.Task.Definition

/-!
# Capped exponential backoff

The retry policy that a task has by default. The loop doubles the delay as long as
it is less than half of the maximum, in 64-bit arithmetic. The test keeps the
doubling below the maximum, so nothing overflows; it also ends the loop one
doubling before the exponential passes the maximum.
-/

namespace Ody.Task

/-! ## The policy -/

/-- The loop of the policy with at most `rounds` rounds. -/
def doubled (maximum : Int64) : Nat → Int64 → Int64
  | 0, delay => delay
  | rounds + 1, delay =>
      if delay < maximum / 2 then doubled maximum rounds (delay * 2) else delay

/-- The delays that the loop doubles. -/
def operands (maximum : Int64) : Nat → Int64 → List Int64
  | 0, _ => []
  | rounds + 1, delay =>
      if delay < maximum / 2 then delay :: operands maximum rounds (delay * 2) else []

/-- The number of rounds that an attempt allows; values below one count as one. -/
def roundsOf (attempt : Int64) : Nat := ((if attempt < 1 then 1 else attempt).toInt - 1).toNat

def exponentialBackoff (base maximum attempt : Int64) : Int64 :=
  let delay := doubled maximum (roundsOf attempt) base
  if maximum < delay then maximum else delay

/-! ## Half of the maximum -/

section Half

variable {maximum delay : Int64}

/-- Division by two rounds towards zero. -/
theorem tdiv_two_cases (value : Int) :
    (0 ≤ value ∧ value.tdiv 2 = value / 2) ∨
      (value < 0 ∧ value ≤ value.tdiv 2 ∧ value.tdiv 2 ≤ 0) := by
  rcases lt_or_ge value 0 with hneg | hpos
  · have hopposite : value.tdiv 2 = -(-value / 2) := by
      rw [← Int.tdiv_eq_ediv_of_nonneg (by omega), Int.neg_tdiv, neg_neg]
    exact Or.inr ⟨hneg, by omega, by omega⟩
  · exact Or.inl ⟨hpos, Int.tdiv_eq_ediv_of_nonneg hpos⟩

theorem toInt_half (maximum : Int64) : (maximum / 2).toInt = maximum.toInt.tdiv 2 := by
  have hlow := maximum.le_toInt
  have hhigh := maximum.toInt_lt
  have hcases := tdiv_two_cases maximum.toInt
  have htwo : (2 : Int64).toInt = 2 := by decide
  rw [Int64.toInt_div, htwo]
  apply Int.bmod_eq_of_le <;> omega

theorem lt_half_iff : delay < maximum / 2 ↔ delay.toInt < maximum.toInt.tdiv 2 := by
  rw [Int64.lt_iff_toInt_lt, toInt_half]

/-- A delay below half of the maximum is doubled exactly, and stays below the maximum. -/
theorem toInt_double (hdelay : 0 ≤ delay.toInt) (h : delay < maximum / 2) :
    (delay * 2).toInt = delay.toInt * 2 ∧ delay.toInt * 2 < maximum.toInt := by
  have hsmaller := lt_half_iff.mp h
  have hhigh := maximum.toInt_lt
  have hcases := tdiv_two_cases maximum.toInt
  have hbelow : delay.toInt * 2 < maximum.toInt := by omega
  have htwo : (2 : Int64).toInt = 2 := by decide
  refine ⟨?_, hbelow⟩
  rw [Int64.toInt_mul, htwo]
  apply Int.bmod_eq_of_le <;> omega

end Half

/-! ## The loop -/

section Loop

variable {maximum delay : Int64}

/-- What the loop returns: the delay after some exact doublings, each of a delay below half of the
maximum, with no round left or the next delay not below it. -/
theorem doubled_spec (maximum : Int64) (rounds : Nat) (hdelay : 0 ≤ delay.toInt) :
    ∃ k ≤ rounds, (doubled maximum rounds delay).toInt = delay.toInt * 2 ^ k ∧
      (k = 0 ∨ delay.toInt * 2 ^ k < maximum.toInt) ∧
      (∀ j < k, delay.toInt * 2 ^ j < maximum.toInt.tdiv 2) ∧
      (k = rounds ∨ maximum.toInt.tdiv 2 ≤ delay.toInt * 2 ^ k) := by
  induction rounds generalizing delay with
  | zero => exact ⟨0, le_rfl, by simp [doubled], Or.inl rfl, by simp, Or.inl rfl⟩
  | succ rounds ih =>
      rw [doubled]
      split
      · next hhalf =>
        obtain ⟨hexact, hbelow⟩ := toInt_double hdelay hhalf
        obtain ⟨k, hk, hvalue, hcap, hearlier, hend⟩ := ih (show 0 ≤ (delay * 2).toInt by omega)
        have hpow : ∀ j, (delay * 2).toInt * 2 ^ j = delay.toInt * 2 ^ (j + 1) := by
          intro j
          rw [hexact]
          ring
        refine ⟨k + 1, by omega, by rw [hvalue, hpow], Or.inr ?_, ?_, ?_⟩
        · rcases hcap with rfl | hcap
          · simpa using hbelow
          · rw [← hpow]
            exact hcap
        · intro j hj
          cases j with
          | zero => simpa using lt_half_iff.mp hhalf
          | succ j =>
              rw [← hpow]
              exact hearlier j (by omega)
        · rw [← hpow]
          exact hend.imp (congrArg (· + 1)) id
      · next hhalf =>
        refine ⟨0, Nat.zero_le _, by simp, Or.inl rfl, by simp, Or.inr ?_⟩
        rw [lt_half_iff] at hhalf
        simpa using hhalf

theorem operands_exact (rounds : Nat) (hdelay : 0 ≤ delay.toInt) :
    ∀ operand ∈ operands maximum rounds delay, (operand * 2).toInt = operand.toInt * 2 := by
  induction rounds generalizing delay with
  | zero => simp [operands]
  | succ rounds ih =>
      rw [operands]
      split
      · next hhalf =>
        obtain ⟨hexact, -⟩ := toInt_double hdelay hhalf
        rw [List.forall_mem_cons]
        exact ⟨hexact, ih (by omega)⟩
      · simp

/-- One more round does not shorten the delay. -/
theorem doubled_le_succ (rounds : Nat) (hdelay : 0 ≤ delay.toInt) :
    (doubled maximum rounds delay).toInt ≤ (doubled maximum (rounds + 1) delay).toInt := by
  induction rounds generalizing delay with
  | zero =>
      rw [doubled, doubled]
      split
      · next hhalf =>
        rw [doubled, (toInt_double hdelay hhalf).1]
        omega
      · exact le_rfl
  | succ rounds ih =>
      rw [doubled, doubled]
      split
      · next hhalf =>
        have hexact := (toInt_double hdelay hhalf).1
        exact ih (by omega)
      · exact le_rfl

theorem doubled_mono (hdelay : 0 ≤ delay.toInt) :
    Monotone fun rounds => (doubled maximum rounds delay).toInt :=
  monotone_nat_of_le_succ fun rounds => doubled_le_succ rounds hdelay

end Loop

/-! ## The delays -/

theorem toInt_exponentialBackoff (base maximum attempt : Int64) :
    (exponentialBackoff base maximum attempt).toInt =
      min maximum.toInt (doubled maximum (roundsOf attempt) base).toInt := by
  rw [exponentialBackoff]
  split
  · next hover =>
    rw [Int64.lt_iff_toInt_lt] at hover
    omega
  · next hunder =>
    rw [Int64.lt_iff_toInt_lt] at hunder
    omega

theorem roundsOf_eq (attempt : Int64) : roundsOf attempt = (max attempt.toInt 1 - 1).toNat := by
  have hone : (1 : Int64).toInt = 1 := by decide
  rw [roundsOf]
  split
  · next hlow =>
    rw [Int64.lt_iff_toInt_lt] at hlow
    omega
  · next hhigh =>
    rw [Int64.lt_iff_toInt_lt] at hhigh
    omega

/-- No doubling overflows, and the delay stays between the smaller of base and maximum and the
maximum and does not fall from one attempt to a later one. -/
theorem exponentialBackoff_never_wraps {base : Int64} (hbase : 0 ≤ base) (maximum : Int64) :
    (∀ attempt, ∀ operand ∈ operands maximum (roundsOf attempt) base,
        (operand * 2).toInt = operand.toInt * 2) ∧
      (∀ attempt, exponentialBackoff base maximum attempt ≤ maximum) ∧
      (∀ attempt, min base.toInt maximum.toInt ≤ (exponentialBackoff base maximum attempt).toInt) ∧
      ∀ attempt later, attempt ≤ later →
        exponentialBackoff base maximum attempt ≤ exponentialBackoff base maximum later := by
  have hzero : 0 ≤ base.toInt := Int64.le_iff_toInt_le.mp hbase
  refine ⟨fun attempt => operands_exact _ hzero, fun attempt => ?_, fun attempt => ?_,
    fun attempt later hlater => ?_⟩
  · rw [Int64.le_iff_toInt_le, toInt_exponentialBackoff]
    exact min_le_left _ _
  · have hfirst : base.toInt ≤ (doubled maximum (roundsOf attempt) base).toInt :=
      doubled_mono hzero (Nat.zero_le (roundsOf attempt))
    rw [toInt_exponentialBackoff]
    omega
  · have hrounds : roundsOf attempt ≤ roundsOf later := by
      rw [Int64.le_iff_toInt_le] at hlater
      rw [roundsOf_eq, roundsOf_eq]
      omega
    have hdelays : (doubled maximum (roundsOf attempt) base).toInt ≤
        (doubled maximum (roundsOf later) base).toInt := doubled_mono hzero hrounds
    rw [Int64.le_iff_toInt_le, toInt_exponentialBackoff, toInt_exponentialBackoff]
    omega

/-- The largest maximum: the delay after many attempts. -/
theorem exponentialBackoff_never_wraps_of_maxValue :
    (0 : Int64) ≤ 3 ∧
      exponentialBackoff 3 Int64.maxValue 7 ≤ exponentialBackoff 3 Int64.maxValue 80 :=
  ⟨by decide, (exponentialBackoff_never_wraps (by decide) Int64.maxValue).2.2.2 7 80 (by decide)⟩

/-! ## The closed form -/

theorem strictMono_pow {base : Int} (h : 0 < base) : StrictMono fun k : Nat => base * 2 ^ k := by
  apply strictMono_nat_of_lt_succ
  intro k
  have hpos : 0 < base * 2 ^ k := by positivity
  rw [pow_succ, ← mul_assoc]
  omega

/-- The delay is the capped exponential exactly in the first attempt, if the base is not below the
maximum, and as long as the delay before the last doubling is below half of the maximum. -/
theorem exponentialBackoff_exact_iff {base maximum : Int64} (hbase : 0 < base)
    (hmaximum : 0 < maximum) (attempt : Int64) :
    (exponentialBackoff base maximum attempt).toInt =
        min maximum.toInt (base.toInt * 2 ^ (max attempt.toInt 1 - 1).toNat) ↔
      attempt ≤ 1 ∨ maximum ≤ base ∨
        base.toInt * 2 ^ (attempt.toInt - 2).toNat < maximum.toInt / 2 := by
  have hbase' : 0 < base.toInt := Int64.lt_iff_toInt_lt.mp hbase
  have hmaximum' : 0 < maximum.toInt := Int64.lt_iff_toInt_lt.mp hmaximum
  have hone : (1 : Int64).toInt = 1 := by decide
  have hpow := strictMono_pow hbase'
  obtain ⟨k, hk, hvalue, hcap, hearlier, hend⟩ :=
    doubled_spec maximum (roundsOf attempt) hbase'.le
  rw [Int.tdiv_eq_ediv_of_nonneg hmaximum'.le] at hearlier hend
  rw [toInt_exponentialBackoff, hvalue, ← roundsOf_eq, Int64.le_iff_toInt_le, Int64.le_iff_toInt_le,
    hone]
  have hrounds := roundsOf_eq attempt
  constructor
  · intro hexact
    by_contra hnot
    push Not at hnot
    obtain ⟨hlater, hbelow, hhalf⟩ := hnot
    -- the loop has stopped before the last round the attempt allows
    have hstopped : k < roundsOf attempt := by
      refine lt_of_le_of_ne hk fun heq => ?_
      have hlast := hearlier (attempt.toInt - 2).toNat (by omega)
      omega
    have hshort : base.toInt * 2 ^ k < maximum.toInt := by
      rcases hcap with rfl | hcap
      · simpa using hbelow
      · exact hcap
    have hgrows : base.toInt * 2 ^ k < base.toInt * 2 ^ roundsOf attempt := hpow hstopped
    omega
  · rintro (hfirst | hover | hhalf)
    · have hzero : roundsOf attempt = 0 := by omega
      obtain rfl : k = 0 := by omega
      rw [hzero]
    · have hleast : ∀ j : Nat, base.toInt ≤ base.toInt * 2 ^ j := by
        intro j
        simpa using hpow.monotone (Nat.zero_le j)
      have hdelay := hleast k
      have hexact := hleast (roundsOf attempt)
      omega
    · suffices hall : k = roundsOf attempt by rw [hall]
      by_contra hne
      have hstopped := hend.resolve_left hne
      have hmono : base.toInt * 2 ^ k ≤ base.toInt * 2 ^ (attempt.toInt - 2).toNat :=
        hpow.monotone (by omega)
      omega

/-- Backoff from a second to a minute: the third delay. -/
theorem exponentialBackoff_exact_of_minute :
    (0 : Int64) < 1000000000 ∧ (0 : Int64) < 60000000000 ∧
      (exponentialBackoff 1000000000 60000000000 3).toInt = 4000000000 :=
  ⟨by decide, by decide,
    ((exponentialBackoff_exact_iff (by decide) (by decide) 3).mpr
      (Or.inr (Or.inr (by decide)))).trans (by decide)⟩

/-- The tenth delay from a tenth of a second to half a minute: the exponential is past the maximum,
and the delay is not there. -/
theorem delay_stays_below_maximum :
    (0 : Int64) < 100000000 ∧ (0 : Int64) < 30000000000 ∧
      (exponentialBackoff 100000000 30000000000 10).toInt = 25600000000 ∧
      min (30000000000 : Int64).toInt ((100000000 : Int64).toInt *
        2 ^ (max (10 : Int64).toInt 1 - 1).toNat) = 30000000000 := by
  decide

end Ody.Task
