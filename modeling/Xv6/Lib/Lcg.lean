import Mathlib

/-!
Linear congruential generators `x ↦ a x + c` over a commutative ring, and their full period
modulo a power of two. When `a ≡ 1 (mod 4)` and `c` is odd, the conditions of Hull and Dobell
for such a modulus, the generator modulo `2^k` comes back to a state only after `2^k` steps,
so any `2^k` consecutive states take every value once.

The argument doubles the number of steps: `2^j` steps are again an affine map, whose
multiplier is `1` modulo `2^(j+2)` and whose increment is `2^j` times an odd number.
-/

namespace Xv6.Lib.Lcg

open Function

def affine {R : Type*} [CommRing R] (a c : R) (x : R) : R := a * x + c

variable {R : Type*} [CommRing R] {a c : R}

/-- **`2^j` steps.** With `a = 1 + 4t` and `c = 2s + 1`, `2^j` steps are
`x ↦ (1 + 2^(j+2) t') x + 2^j (2 s' + 1)` for some `t'` and `s'`. -/
lemma iterate_two_pow (ha : ∃ t, a = 1 + 4 * t) (hc : ∃ s, c = 2 * s + 1) (j : ℕ) :
    ∃ t s : R, ∀ x, (affine a c)^[2 ^ j] x = (1 + 2 ^ (j + 2) * t) * x + 2 ^ j * (2 * s + 1) := by
  induction j with
  | zero =>
    obtain ⟨t, rfl⟩ := ha
    obtain ⟨s, rfl⟩ := hc
    exact ⟨t, s, fun x => by simp only [pow_zero, iterate_one, affine]; ring⟩
  | succ j ih =>
    obtain ⟨t, s, h⟩ := ih
    refine ⟨t + 2 ^ (j + 1) * t ^ 2, s + 2 ^ j * t * (2 * s + 1), fun x => ?_⟩
    rw [pow_succ, mul_two, iterate_add_apply, h, h]
    ring

/-- **Full period modulo `2^k`.** Every state comes back after `2^k` steps and not before. -/
theorem minimalPeriod_affine {k : ℕ} {a c : ZMod (2 ^ k)} (ha : ∃ t, a = 1 + 4 * t)
    (hc : ∃ s, c = 2 * s + 1) (x : ZMod (2 ^ k)) : minimalPeriod (affine a c) x = 2 ^ k := by
  cases k with
  | zero =>
    -- a single state
    show minimalPeriod (affine a c) x = 1
    rw [minimalPeriod_eq_one_iff_isFixedPt]
    exact @Subsingleton.elim (ZMod 1) inferInstance (affine a c x) x
  | succ k =>
    have : Fact (Nat.Prime 2) := ⟨Nat.prime_two⟩
    have h0 : (2 : ZMod (2 ^ (k + 1))) ^ (k + 1) = 0 := by
      exact_mod_cast ZMod.natCast_self (2 ^ (k + 1))
    apply minimalPeriod_eq_prime_pow
    · -- `2^k` steps add `2^k`, which is not zero modulo `2^(k+1)`
      intro hp
      obtain ⟨t, s, h⟩ := iterate_two_pow ha hc k
      have e := h x
      rw [hp.eq] at e
      have hk : ((2 ^ k : ℕ) : ZMod (2 ^ (k + 1))) = 0 := by
        push_cast
        linear_combination -e - (2 * t * x + s) * h0
      rw [ZMod.natCast_eq_zero_iff, Nat.pow_dvd_pow_iff_le_right (by norm_num)] at hk
      omega
    · obtain ⟨t, s, h⟩ := iterate_two_pow ha hc (k + 1)
      show (affine a c)^[2 ^ (k + 1)] x = x
      rw [h x]
      linear_combination (4 * t * x + 2 * s + 1) * h0

/-- Any `2^k` consecutive states of a full-period generator modulo `2^k` take every value. -/
theorem exists_iterate_eq {k : ℕ} {a c : ZMod (2 ^ k)} (ha : ∃ t, a = 1 + 4 * t)
    (hc : ∃ s, c = 2 * s + 1) (x y : ZMod (2 ^ k)) : ∃ n < 2 ^ k, (affine a c)^[n] x = y := by
  classical
  have hinj : Set.InjOn (fun n => (affine a c)^[n] x) (Finset.range (2 ^ k) : Set ℕ) := by
    have h := iterate_injOn_Iio_minimalPeriod (f := affine a c) (x := x)
    rwa [minimalPeriod_affine ha hc x, ← Finset.coe_range] at h
  have hcard : ((Finset.range (2 ^ k)).image fun n => (affine a c)^[n] x).card =
      Fintype.card (ZMod (2 ^ k)) := by
    rw [Finset.card_image_of_injOn hinj, Finset.card_range, ZMod.card]
  have hy : y ∈ (Finset.range (2 ^ k)).image fun n => (affine a c)^[n] x := by
    rw [Finset.eq_univ_of_card _ hcard]
    exact Finset.mem_univ y
  obtain ⟨n, hn, rfl⟩ := Finset.mem_image.mp hy
  exact ⟨n, Finset.mem_range.mp hn, rfl⟩

lemma cast_mod_of_dvd {m n : ℕ} (h : m ∣ n) (x : ℕ) : ((x % n : ℕ) : ZMod m) = x := by
  rw [← ZMod.natCast_mod (x % n) m, Nat.mod_mod_of_dvd _ h, ZMod.natCast_mod]

end Xv6.Lib.Lcg
