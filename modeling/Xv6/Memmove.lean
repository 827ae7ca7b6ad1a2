import Xv6.Param

/-!
`memmove` of the kernel (`string.c`) and of user space (`ulib.c`), over a byte memory read as
a function of the address.

Both copy `n` bytes from `src` to `dst` one at a time, upwards (`copyUp`) or downwards
(`copyDown`), and pick the direction by different tests: the kernel copies downwards when
`src` lies below `dst` and the regions overlap, user space copies upwards when `src` lies above
`dst`. What each must leave is `moved`: the destination holds the source as it was, and nothing
else changed. A direction is safe when no byte it writes is a source byte it has still to read
(`copyUp_eq_moved`, `copyDown_eq_moved`); each test picks a safe one.
-/

namespace Xv6.Memmove

open Xv6.Param Xv6.Lib.Word

variable {α : Type*}

/-! ### What a move leaves -/

/-- The memory `m` with the `n` bytes at `src` copied to `dst`, as they were before the copy. -/
def moved (m : ℕ → α) (dst src n : ℕ) : ℕ → α :=
  fun a => if dst ≤ a ∧ a < dst + n then m (src + (a - dst)) else m a

@[simp] lemma moved_inside (m : ℕ → α) {dst src n i : ℕ} (hi : i < n) :
    moved m dst src n (dst + i) = m (src + i) := by
  simp [moved, hi]

@[simp] lemma moved_outside (m : ℕ → α) {dst src n a : ℕ} (ha : a < dst ∨ dst + n ≤ a) :
    moved m dst src n a = m a := by
  unfold moved
  rw [if_neg (by omega)]

@[simp] lemma moved_zero (m : ℕ → α) (dst src : ℕ) : moved m dst src 0 = m := by
  funext a
  simp [moved]

/-! ### The two loops -/

def copyUp (m : ℕ → α) (d s : ℕ) : ℕ → ℕ → α
  | 0 => m
  | n + 1 => copyUp (Function.update m d (m s)) (d + 1) (s + 1) n

def copyDown (m : ℕ → α) (d s : ℕ) : ℕ → ℕ → α
  | 0 => m
  | n + 1 => copyDown (Function.update m (d + n) (m (s + n))) d s n

/-- **Copying upwards moves the bytes** when no byte it writes is a source byte still to read:
the write at index `i` misses the source at every later index `j`. -/
theorem copyUp_eq_moved (n : ℕ) :
    ∀ (m : ℕ → α) (d s : ℕ), (∀ i j, i < j → j < n → d + i ≠ s + j) →
      copyUp m d s n = moved m d s n := by
  -- induction on the bytes left; the first byte is written, then the rest is a move from one up
  induction n with
  | zero => intro m d s _; simp [copyUp]
  | succ n ih =>
    intro m d s hsafe
    rw [copyUp, ih _ (d + 1) (s + 1) fun i j hij hj => by
      have := hsafe (i + 1) (j + 1) (by omega) (by omega)
      omega]
    funext a
    by_cases hlo : d + 1 ≤ a ∧ a < d + 1 + n
    · -- a later byte: its source was not the first byte written
      have hne : s + 1 + (a - (d + 1)) ≠ d := by
        have := hsafe 0 (a - d) (by omega) (by omega)
        omega
      simp only [moved, if_pos hlo, Function.update_of_ne hne]
      rw [if_pos (by omega)]
      congr 1
      omega
    · by_cases had : a = d
      · subst had
        simp [moved]
      · simp only [moved, if_neg hlo, Function.update_of_ne had]
        rw [if_neg (by omega)]

/-- **Copying downwards moves the bytes** when no byte it writes is a source byte still to
read: the write at index `i` misses the source at every earlier index `j`. -/
theorem copyDown_eq_moved (n : ℕ) :
    ∀ (m : ℕ → α) (d s : ℕ), (∀ i j, j < i → i < n → d + i ≠ s + j) →
      copyDown m d s n = moved m d s n := by
  -- induction on the bytes left; the last byte is written, then the rest is a shorter move
  induction n with
  | zero => intro m d s _; simp [copyDown]
  | succ n ih =>
    intro m d s hsafe
    rw [copyDown, ih _ d s fun i j hji hi => hsafe i j hji (by omega)]
    funext a
    by_cases hlo : d ≤ a ∧ a < d + n
    · -- an earlier byte: its source is not the last byte, written first
      have hne : s + (a - d) ≠ d + n := fun he => hsafe n (a - d) (by omega) (by omega) he.symm
      simp only [moved, if_pos hlo, Function.update_of_ne hne]
      rw [if_pos (by omega)]
    · by_cases had : a = d + n
      · subst had
        simp [moved]
      · simp only [moved, if_neg hlo, Function.update_of_ne had]
        rw [if_neg (by omega)]

lemma up_safe {d s n : ℕ} (h : ¬(s < d ∧ d < s + n)) :
    ∀ i j, i < j → j < n → d + i ≠ s + j := by
  intro i j hij hj
  omega

lemma down_safe {d s n : ℕ} (h : ¬(d < s ∧ s < d + n)) :
    ∀ i j, j < i → i < n → d + i ≠ s + j := by
  intro i j hji hi
  omega

/-! ### The kernel's `memmove` -/

namespace Kernel

def memmove (m : ℕ → α) (dst src n : ℕ) : ℕ → α :=
  if n = 0 then m
  else if src < dst ∧ src + n > dst then copyDown m dst src n
  else copyUp m dst src n

def memcpy (m : ℕ → α) (dst src n : ℕ) : ℕ → α := memmove m dst src n

lemma memmove_eq_moved (m : ℕ → α) (dst src n : ℕ) :
    memmove m dst src n = moved m dst src n := by
  unfold memmove
  split_ifs with hn hover
  · subst hn
    exact (moved_zero m dst src).symm
  · exact copyDown_eq_moved n m dst src (down_safe (by omega))
  · exact copyUp_eq_moved n m dst src (up_safe (by omega))

end Kernel

/-! ### The user's `memmove` -/

namespace User

/-- `memmove(vdst, vsrc, n)` of `ulib.c`, for an `int` `n`: nothing is copied for `n ≤ 0`. -/
def memmove (m : ℕ → α) (dst src : ℕ) (n : ℤ) : ℕ → α :=
  if src > dst then copyUp m dst src n.toNat
  else copyDown m dst src n.toNat

/-- `memcpy(dst, src, n)` of `ulib.c`: the `uint` `n` is passed to `memmove` as an `int`. -/
def memcpy (m : ℕ → α) (dst src n : ℕ) : ℕ → α := memmove m dst src (i32 n)

lemma memmove_eq_moved (m : ℕ → α) (dst src : ℕ) (n : ℤ) :
    memmove m dst src n = moved m dst src n.toNat := by
  unfold memmove
  split_ifs with hgt
  · exact copyUp_eq_moved _ m dst src (up_safe (by omega))
  · exact copyDown_eq_moved _ m dst src (down_safe (by omega))

/-- The user's `memcpy` copies its `uint` count below `2^31`, and nothing from `2^31` on, where
the `int` that `memmove` receives is negative. -/
lemma memcpy_eq (m : ℕ → α) (dst src : ℕ) {n : ℕ} (hn : n < 2 ^ 32) :
    memcpy m dst src n = if n < 2 ^ 31 then moved m dst src n else m := by
  unfold memcpy
  rw [memmove_eq_moved]
  have hi : (i32 n).toNat = if n < 2 ^ 31 then n else 0 := by
    unfold i32 toSigned
    split_ifs <;> omega
  rw [hi]
  split_ifs
  · rfl
  · exact moved_zero m dst src

end User

/-- **Both `memmove`s are correct for every overlap**: for every memory, every source and
destination and every length, the destination ends up holding the source's bytes as they
were, and no other byte changes; the user's does nothing for `n ≤ 0`. -/
theorem memmove_correct (m : ℕ → α) (dst src : ℕ) :
    (∀ n : ℕ, (∀ i < n, Kernel.memmove m dst src n (dst + i) = m (src + i)) ∧
      ∀ a, (a < dst ∨ dst + n ≤ a) → Kernel.memmove m dst src n a = m a) ∧
    (∀ n : ℤ, (∀ i : ℕ, (i : ℤ) < n → User.memmove m dst src n (dst + i) = m (src + i)) ∧
      ∀ a, (a < dst ∨ (dst : ℤ) + n ≤ a) → User.memmove m dst src n a = m a) := by
  refine ⟨fun n => ⟨fun i hi => ?_, fun a ha => ?_⟩, fun n => ⟨fun i hi => ?_, fun a ha => ?_⟩⟩
  · rw [Kernel.memmove_eq_moved, moved_inside m hi]
  · rw [Kernel.memmove_eq_moved, moved_outside m ha]
  · rw [User.memmove_eq_moved, moved_inside m (by omega)]
  · rw [User.memmove_eq_moved, moved_outside m (by omega)]

end Xv6.Memmove
