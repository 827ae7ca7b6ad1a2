import Mathlib

/-!
A memory as a function from addresses, changed over an interval of addresses at a time.

`setRange f lo n g` agrees with `g` on `[lo, lo + n)` and with `f` elsewhere. Filling or
copying a region of memory, and changing a run of consecutive keys of a map, are all of this
form. Regions here are usually aligned blocks: an address lies in the block that starts at
an aligned `lo` exactly when rounding it down to the block size gives `lo`.
-/

namespace Xv6.Lib.Region

variable {β : Type*}

/-- `f` with the addresses of `[lo, lo + n)` sent through `g` instead. -/
def setRange (f : ℕ → β) (lo n : ℕ) (g : ℕ → β) : ℕ → β :=
  fun a => if lo ≤ a ∧ a < lo + n then g a else f a

variable {f : ℕ → β} {lo n a : ℕ} {g : ℕ → β}

@[simp] lemma setRange_of_mem (h : lo ≤ a ∧ a < lo + n) : setRange f lo n g a = g a := if_pos h

@[simp] lemma setRange_of_not_mem (h : ¬(lo ≤ a ∧ a < lo + n)) : setRange f lo n g a = f a :=
  if_neg h

@[simp] lemma setRange_zero (f : ℕ → β) (lo : ℕ) (g : ℕ → β) : setRange f lo 0 g = f := by
  funext a
  exact setRange_of_not_mem (by omega)

lemma setRange_succ [DecidableEq β] (f : ℕ → β) (lo n : ℕ) (g : ℕ → β) :
    setRange f lo (n + 1) g = setRange (Function.update f lo (g lo)) (lo + 1) n g := by
  funext a
  by_cases ha : a = lo
  · subst ha
    simp
  · unfold setRange
    rw [Function.update_of_ne ha]
    congr 1
    apply propext
    omega

lemma setRange_congr {g' : ℕ → β} (h : ∀ a, lo ≤ a → a < lo + n → g a = g' a) :
    setRange f lo n g = setRange f lo n g' := by
  funext a
  unfold setRange
  split
  · rename_i ha
    exact h a ha.1 ha.2
  · rfl

/-! ## Aligned blocks -/

/-- An address lies in the block of size `N` at an aligned `lo` exactly when rounding it down
to a multiple of `N` gives `lo`. -/
lemma mem_block_iff {N : ℕ} (hN : 0 < N) (hlo : lo % N = 0) :
    (lo ≤ a ∧ a < lo + N) ↔ a / N * N = lo := by
  obtain ⟨k, rfl⟩ := Nat.dvd_of_mod_eq_zero hlo
  constructor
  · rintro ⟨h₁, h₂⟩
    have hk : a / N = k := by
      apply Nat.div_eq_of_lt_le
      · rw [Nat.mul_comm]; exact h₁
      · rw [Nat.add_mul, Nat.one_mul, Nat.mul_comm]; exact h₂
    rw [hk, Nat.mul_comm]
  · intro h
    have h₁ := Nat.div_mul_le_self a N
    have h₂ := Nat.lt_div_mul_add (a := a) hN
    rw [h] at h₁ h₂
    exact ⟨h₁, h₂⟩

/-- A change to an aligned block leaves every address of every other block as it was. -/
lemma setRange_block_of_ne {N : ℕ} (hN : 0 < N) (hlo : lo % N = 0) (h : a / N * N ≠ lo) :
    setRange f lo N g a = f a :=
  setRange_of_not_mem fun hmem => h ((mem_block_iff hN hlo).1 hmem)

lemma setRange_block_of_eq {N : ℕ} (hN : 0 < N) (hlo : lo % N = 0) (h : a / N * N = lo) :
    setRange f lo N g a = g a :=
  setRange_of_mem ((mem_block_iff hN hlo).2 h)

lemma setRange_part_of_ne {N : ℕ} (hN : 0 < N) (hlo : lo % N = 0) (hn : n ≤ N)
    (h : a / N * N ≠ lo) : setRange f lo n g a = f a :=
  setRange_of_not_mem fun hmem => h ((mem_block_iff hN hlo).1 ⟨hmem.1, by omega⟩)

lemma setRange_within_of_ne {N x : ℕ} (hN : 0 < N) (hlo : lo % N = 0) (hn : x + n ≤ N)
    (h : a / N * N ≠ lo) : setRange f (lo + x) n g a = f a :=
  setRange_of_not_mem fun hmem => h ((mem_block_iff hN hlo).1 ⟨by omega, by omega⟩)

lemma block_add {N t x : ℕ} (hN : 0 < N) (ht : t % N = 0) (hx : x < N) : (t + x) / N * N = t :=
  (mem_block_iff hN ht).1 ⟨by omega, by omega⟩

end Xv6.Lib.Region
