import Mathlib

/-!
C strings in a buffer: the characters a pointer reads up to the first terminator `z`, and a
buffer with `z` written at some of its positions.

A string read at `q` is the run of characters from `q` to a position `eq` when none of them is
`z` and `z`, or the end of the buffer, stands at `eq` (`cstr_eq`).
-/

namespace Xv6.Lib.CString

variable {α : Type} [DecidableEq α] (z : α)

/-- The string a pointer `q` into `b` reads: its characters up to the first `z`. -/
def cstr (b : List α) (q : ℕ) : List α := (b.drop q).takeWhile fun c => decide (c ≠ z)

/-- `b` with `z` written at each position of `E` that lies in it. -/
def terminate (E : List ℕ) (b : List α) : List α := E.foldl (fun b e => b.set e z) b

omit [DecidableEq α] in
@[simp] lemma length_terminate (E : List ℕ) (b : List α) : (terminate z E b).length = b.length := by
  induction E generalizing b with
  | nil => rfl
  | cons e E ih =>
    simp only [terminate, List.foldl_cons] at ih ⊢
    rw [ih, List.length_set]

omit [DecidableEq α] in
lemma getElem?_terminate (E : List ℕ) (b : List α) (k : ℕ) :
    (terminate z E b)[k]? = if k ∈ E ∧ k < b.length then some z else b[k]? := by
  induction E generalizing b with
  | nil => simp [terminate]
  | cons e E ih =>
    simp only [terminate, List.foldl_cons] at ih ⊢
    rw [ih, List.getElem?_set, List.length_set]
    simp only [List.mem_cons]
    by_cases hk : k = e
    · subst hk
      by_cases hlt : k < b.length <;> simp [hlt]
    · simp [hk, Ne.symm hk]

lemma takeWhile_ne_eq_take (m : ℕ) :
    ∀ l : List α, (∀ j < m, ∃ x, l[j]? = some x ∧ x ≠ z) → (l[m]? = none ∨ l[m]? = some z) →
      l.takeWhile (fun c => decide (c ≠ z)) = l.take m := by
  induction m with
  | zero =>
    intro l _ hend
    cases l with
    | nil => rfl
    | cons x t =>
      rcases hend with h | h
      · cases h
      · simp only [List.getElem?_cons_zero, Option.some.injEq] at h
        simp [h]
  | succ m ih =>
    intro l hin hend
    obtain ⟨x, hx, hxz⟩ := hin 0 (Nat.succ_pos m)
    cases l with
    | nil => cases hx
    | cons y t =>
      simp only [List.getElem?_cons_zero, Option.some.injEq] at hx
      subst hx
      rw [List.takeWhile_cons, if_pos (by simpa using hxz), List.take_succ_cons,
        ih t (fun j hj => by simpa using hin (j + 1) (by omega)) (by simpa using hend)]

/-- **The string at `q` is the run up to its terminator.** -/
lemma cstr_eq (b : List α) {q eq : ℕ} (hle : q ≤ eq)
    (hin : ∀ k, q ≤ k → k < eq → ∃ x, b[k]? = some x ∧ x ≠ z)
    (hend : b[eq]? = none ∨ b[eq]? = some z) : cstr z b q = (b.drop q).take (eq - q) := by
  refine takeWhile_ne_eq_take z (eq - q) _ (fun j hj => ?_) ?_
  · simpa [List.getElem?_drop] using hin (q + j) (by omega) (by omega)
  · simpa [List.getElem?_drop, Nat.add_sub_cancel' hle] using hend

end Xv6.Lib.CString
