import Mathlib

/-!
Fixed-width integers read in two's complement.

A C `int` is 32 bits wide, and the conversions the kernel makes between its integer
types keep the low bits of a value. Both are described here by one operation on `ℤ`:
the integer of `[-2^w, 2^w)` that agrees with `x` modulo `2^(w+1)`. Arithmetic on a
fixed-width type is then arithmetic on `ℤ` followed by this reduction.

A word that packs a field above a `k`-bit field is read as `2 ^ k * a + f`: masking such
words is done field by field.
-/

namespace Xv6.Lib.Word

/-- The low `w + 1` bits of `x`, read as a two's complement number. -/
def toSigned (w : ℕ) (x : ℤ) : ℤ := (x + 2 ^ w) % 2 ^ (w + 1) - 2 ^ w

variable (w : ℕ)

lemma two_pow_succ_eq : (2 : ℤ) ^ (w + 1) = 2 ^ w + 2 ^ w := by
  rw [pow_succ]; ring

/-- A value that fits is unchanged. -/
lemma toSigned_of_mem {x : ℤ} (h₁ : -2 ^ w ≤ x) (h₂ : x < 2 ^ w) : toSigned w x = x := by
  unfold toSigned
  rw [Int.emod_eq_of_lt (by omega) (by rw [two_pow_succ_eq]; omega)]
  omega

/-- Reducing an operand first does not change the reduced sum. -/
lemma toSigned_add_left (x y : ℤ) : toSigned w (toSigned w x + y) = toSigned w (x + y) := by
  unfold toSigned
  have e : (x + 2 ^ w) % 2 ^ (w + 1) - 2 ^ w + y + 2 ^ w = (x + 2 ^ w) % 2 ^ (w + 1) + y := by
    ring
  rw [e, Int.emod_add_emod]
  ring_nf

/-- Masking two words that each pack a field above a `k`-bit field masks the fields
separately. -/
lemma and_two_pow_mul_add (a b : ℕ) {f g k : ℕ} (hf : f < 2 ^ k) (hg : g < 2 ^ k) :
    (2 ^ k * a + f) &&& (2 ^ k * b + g) = 2 ^ k * (a &&& b) + (f &&& g) := by
  apply Nat.eq_of_testBit_eq
  intro j
  rw [Nat.testBit_and, Nat.testBit_two_pow_mul_add _ hf, Nat.testBit_two_pow_mul_add _ hg,
    Nat.testBit_two_pow_mul_add _ (Nat.and_lt_two_pow f hg)]
  split <;> rw [Nat.testBit_and]

end Xv6.Lib.Word
