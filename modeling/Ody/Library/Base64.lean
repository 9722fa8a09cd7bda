import Mathlib.Data.List.Basic

/-!
# Base64 without padding

Groups of three bytes become four symbols of the alphabet for URLs; one or two
bytes at the end become two or three symbols. Different byte strings have
different encodings.
-/

namespace Ody.Library.Base64

/-- The symbols in the order of their values. -/
def alphabet : List Char :=
  "ABCDEFGHIJKLMNOPQRSTUVWXYZabcdefghijklmnopqrstuvwxyz0123456789-_".toList

/-- The symbol of a value below 64. -/
def symbol (value : Nat) : Char := alphabet.getD value 'A'

/-- The encoding of a byte string. -/
def encode : List UInt8 → List Char
  | [] => []
  | [a] => [symbol (a.toNat / 4), symbol (a.toNat % 4 * 16)]
  | [a, b] =>
      [symbol (a.toNat / 4), symbol (a.toNat % 4 * 16 + b.toNat / 16), symbol (b.toNat % 16 * 4)]
  | a :: b :: c :: rest =>
      symbol (a.toNat / 4) :: symbol (a.toNat % 4 * 16 + b.toNat / 16) ::
        symbol (b.toNat % 16 * 4 + c.toNat / 64) :: symbol (c.toNat % 64) :: encode rest

theorem idxOf_symbol : ∀ value < 64, alphabet.idxOf (symbol value) = value := by decide

theorem symbol_inj {m n : Nat} (hm : m < 64) (hn : n < 64) (h : symbol m = symbol n) : m = n := by
  rw [← idxOf_symbol m hm, h, idxOf_symbol n hn]

theorem byte_ext {a b : UInt8} {m : Nat} (hhigh : a.toNat / m = b.toNat / m)
    (hlow : a.toNat % m = b.toNat % m) : a = b := by
  apply UInt8.toNat_inj.mp
  rw [← Nat.div_add_mod a.toNat m, hhigh, hlow, Nat.div_add_mod]

/-- The first symbol and the high bits of the second determine the first byte of a group. -/
theorem first_byte {a a' : UInt8} {x x' : Nat} (hx : x < 16) (hx' : x' < 16)
    (hone : symbol (a.toNat / 4) = symbol (a'.toNat / 4))
    (htwo : symbol (a.toNat % 4 * 16 + x) = symbol (a'.toNat % 4 * 16 + x')) :
    a = a' ∧ x = x' := by
  have ha := a.toNat_lt
  have ha' := a'.toNat_lt
  have hhigh := symbol_inj (by omega) (by omega) hone
  have hlow := symbol_inj (by omega) (by omega) htwo
  exact ⟨byte_ext hhigh (by omega), by omega⟩

/-- The low bits of the second symbol and the high bits of the third determine the second byte. -/
theorem second_byte {b b' : UInt8} {x x' : Nat} (hx : x < 4) (hx' : x' < 4)
    (hhigh : b.toNat / 16 = b'.toNat / 16)
    (hthree : symbol (b.toNat % 16 * 4 + x) = symbol (b'.toNat % 16 * 4 + x')) :
    b = b' ∧ x = x' := by
  have hlow := symbol_inj (by omega) (by omega) hthree
  exact ⟨byte_ext hhigh (by omega), by omega⟩

theorem encode_injective : Function.Injective encode := by
  intro bytes
  induction bytes using encode.induct with
  | case1 =>
      intro bytes' h
      rcases bytes' with _ | ⟨a', _ | ⟨b', _ | ⟨c', rest'⟩⟩⟩
      · rfl
      all_goals simp [encode] at h
  | case2 a =>
      intro bytes' h
      rcases bytes' with _ | ⟨a', _ | ⟨b', _ | ⟨c', rest'⟩⟩⟩ <;>
        simp only [encode, List.cons.injEq, List.nil_eq, reduceCtorEq, and_false, and_true] at h
      obtain ⟨rfl, -⟩ := first_byte (Nat.zero_lt_succ 15) (Nat.zero_lt_succ 15) h.1 h.2
      rfl
  | case3 a b =>
      intro bytes' h
      rcases bytes' with _ | ⟨a', _ | ⟨b', _ | ⟨c', rest'⟩⟩⟩ <;>
        simp only [encode, List.cons.injEq, List.nil_eq, reduceCtorEq, and_false, and_true] at h
      obtain ⟨hone, htwo, hthree⟩ := h
      obtain ⟨rfl, hhigh⟩ := first_byte (by have := b.toNat_lt; omega)
        (by have := b'.toNat_lt; omega) hone htwo
      obtain ⟨rfl, -⟩ := second_byte (Nat.zero_lt_succ 3) (Nat.zero_lt_succ 3) hhigh hthree
      rfl
  | case4 a b c rest ih =>
      intro bytes' h
      rcases bytes' with _ | ⟨a', _ | ⟨b', _ | ⟨c', rest'⟩⟩⟩ <;>
        simp only [encode, List.cons.injEq, reduceCtorEq, and_false] at h
      obtain ⟨hone, htwo, hthree, hfour, hrest⟩ := h
      obtain ⟨rfl, hsecond⟩ := first_byte (by have := b.toNat_lt; omega)
        (by have := b'.toNat_lt; omega) hone htwo
      obtain ⟨rfl, hthird⟩ := second_byte (by have := c.toNat_lt; omega)
        (by have := c'.toNat_lt; omega) hsecond hthree
      obtain rfl : c = c' :=
        byte_ext hthird (symbol_inj (Nat.mod_lt _ (by decide)) (Nat.mod_lt _ (by decide)) hfour)
      rw [ih hrest]

end Ody.Library.Base64
