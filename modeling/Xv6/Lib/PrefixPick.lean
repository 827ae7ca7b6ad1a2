import Mathlib

/-!
Choosing an item of a list by a number below the total weight.

The items share `[0, Σ w)` in order, each an interval as long as its weight; a number
picks the item whose interval holds it, that is the first item at which the running total
of the weights passes the number. An item with weight `w x` is then picked by exactly
`w x` of the numbers below the total, and, since any run of as many consecutive numbers
has each residue once, by `w x` of the residues of any such run.
-/

namespace Xv6.Lib.PrefixPick

variable {α : Type*} (w : α → ℕ)

/-- The item whose share of `[0, Σ w)` holds `r`. -/
def pick : ℕ → List α → Option α
  | _, [] => none
  | r, x :: xs => if r < w x then some x else pick (r - w x) xs

/-- The total weight of the items. -/
def total (xs : List α) : ℕ := (xs.map w).sum

variable {w}

@[simp] lemma pick_nil (r : ℕ) : pick w r [] = none := rfl

lemma pick_cons (r : ℕ) (x : α) (xs : List α) :
    pick w r (x :: xs) = if r < w x then some x else pick w (r - w x) xs := rfl

@[simp] lemma total_nil : total w ([] : List α) = 0 := rfl

@[simp] lemma total_cons (x : α) (xs : List α) : total w (x :: xs) = w x + total w xs := by
  simp [total]

lemma total_take_succ (xs : List α) (k : ℕ) (h : k < xs.length) :
    total w (xs.take (k + 1)) = total w (xs.take k) + w xs[k] := by
  rw [List.take_add_one, List.getElem?_eq_getElem h]
  simp only [total, List.map_append, List.sum_append, Option.toList_some, List.map_cons,
    List.map_nil, List.sum_cons, List.sum_nil, add_zero]

/-- A number below the total picks an item, and only such a number does. -/
theorem pick_isSome_iff (r : ℕ) (xs : List α) : (pick w r xs).isSome ↔ r < total w xs := by
  induction xs generalizing r with
  | nil => simp
  | cons x xs ih =>
    rw [pick_cons, total_cons]
    by_cases h : r < w x
    · simp only [h, if_true, Option.isSome_some, true_iff]; omega
    · simp only [h, if_false, ih]; omega

/-- **The picked item is the one whose interval holds the number**: the `k`-th, where
the total of the items before it is at most `r` and the total up to it exceeds `r`. -/
theorem pick_eq_some_iff (r : ℕ) (xs : List α) (x : α) :
    pick w r xs = some x ↔ ∃ k, ∃ h : k < xs.length, xs[k] = x ∧
      total w (xs.take k) ≤ r ∧ r < total w (xs.take (k + 1)) := by
  induction xs generalizing r with
  | nil => simp
  | cons y xs ih =>
    rw [pick_cons]
    constructor
    · intro hp
      by_cases h : r < w y
      · rw [if_pos h, Option.some.injEq] at hp
        exact ⟨0, by simp, by simpa using hp, by simp, by simpa [total] using h⟩
      · rw [if_neg h] at hp
        obtain ⟨k, hk, hx, hlo, hhi⟩ := (ih _).mp hp
        refine ⟨k + 1, by simpa using hk, by simpa using hx, ?_, ?_⟩
        · simp only [List.take_succ_cons, total_cons]; omega
        · simp only [List.take_succ_cons, total_cons]; omega
    · rintro ⟨k, hk, hx, hlo, hhi⟩
      cases k with
      | zero =>
        have h : r < w y := by simpa [total] using hhi
        rw [if_pos h]
        simpa using hx
      | succ k =>
        simp only [List.take_succ_cons, total_cons] at hlo hhi
        rw [if_neg (by omega)]
        exact (ih _).mpr ⟨k, by simpa using hk, by simpa using hx, by omega, by omega⟩

/-- The numbers at or past the first item's weight pick from the rest. -/
lemma pick_add_cons (r : ℕ) (y : α) (xs : List α) :
    pick w (w y + r) (y :: xs) = pick w r xs := by
  rw [pick_cons, if_neg (by omega), Nat.add_sub_cancel_left]

variable [DecidableEq α]

/-- **Each item is picked by as many numbers below the total as its weight.** -/
theorem count_pick (xs : List α) (hxs : xs.Nodup) (x : α) :
    (List.range (total w xs)).countP (fun r => decide (pick w r xs = some x)) =
      if x ∈ xs then w x else 0 := by
  induction xs with
  | nil => simp
  | cons y xs ih =>
    obtain ⟨hy, hxs⟩ := List.nodup_cons.mp hxs
    rw [total_cons, List.range_add, List.countP_append, List.countP_map]
    -- past the first item's share the rest of the list decides
    have hhigh : (fun r => decide (pick w r (y :: xs) = some x)) ∘ (w y + ·) =
        fun r => decide (pick w r xs = some x) := by
      funext r
      simp [pick_add_cons]
    rw [hhigh, ih hxs]
    -- within it every number picks `y`
    by_cases hxy : x = y
    · subst hxy
      have hall : (List.range (w x)).countP (fun r => decide (pick w r (x :: xs) = some x)) =
          w x := by
        rw [List.countP_eq_length.mpr fun r hr => by
          simp [pick_cons, List.mem_range.mp hr], List.length_range]
      simp [hall, hy]
    · have hnone : (List.range (w y)).countP (fun r => decide (pick w r (y :: xs) = some x)) =
          0 := by
        rw [List.countP_eq_zero]
        intro r hr
        simp [pick_cons, List.mem_range.mp hr, Ne.symm hxy]
      simp [hnone, hxy]

/-- The residues of `T` consecutive numbers are the numbers below `T`, in some order. -/
lemma map_mod_range_perm (n T : ℕ) :
    ((List.range T).map fun j => (n + j) % T).Perm (List.range T) := by
  rcases Nat.eq_zero_or_pos T with rfl | hT
  · simp
  have hnd : ((List.range T).map fun j => (n + j) % T).Nodup := by
    refine List.Nodup.map_on (fun i hi j hj hij => ?_) List.nodup_range
    exact (Nat.ModEq.add_left_cancel' n hij).eq_of_lt_of_lt (List.mem_range.mp hi)
      (List.mem_range.mp hj)
  have hsub : ((List.range T).map fun j => (n + j) % T) ⊆ List.range T := by
    intro a ha
    obtain ⟨j, -, rfl⟩ := List.mem_map.mp ha
    exact List.mem_range.mpr (Nat.mod_lt _ hT)
  exact (hnd.subperm hsub).perm_of_length_le (by simp)

/-- **Each item is picked by as many residues of any run of `total` consecutive numbers as
its weight.** -/
theorem count_pick_window (xs : List α) (hxs : xs.Nodup) (x : α) (n : ℕ) :
    (List.range (total w xs)).countP
        (fun j => decide (pick w ((n + j) % total w xs) xs = some x)) =
      if x ∈ xs then w x else 0 := by
  have h := (map_mod_range_perm n (total w xs)).countP_eq
    (fun r => decide (pick w r xs = some x))
  rw [List.countP_map] at h
  rw [← count_pick xs hxs x, ← h]
  rfl

end Xv6.Lib.PrefixPick
