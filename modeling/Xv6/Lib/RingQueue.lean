import Mathlib

/-!
A bounded FIFO queue kept in a circular array.

An array of `N` cells holds a queue from a read position `out`: item `k` of the queue is
in cell `(out + k) % N`. Appending writes the cell just past the last item; removing reads
cell `out` and moves the read position on by one, modulo `N`.
-/

namespace Xv6.Lib.RingQueue

variable {α : Type*}

/-- The array `buf` of `N` cells holds the queue `q` from position `out`. -/
structure Holds (N : ℕ) (buf : List α) (out : ℕ) (q : List α) : Prop where
  length : buf.length = N
  out_lt : out < N
  le : q.length ≤ N
  cell : ∀ k (h : k < q.length), buf[(out + k) % N]? = some q[k]

variable {N : ℕ} {buf : List α} {out : ℕ} {q : List α}

lemma mod_add_inj {i j : ℕ} (hi : i < N) (hj : j < N) (h : (out + i) % N = (out + j) % N) :
    i = j :=
  (Nat.ModEq.add_left_cancel' out h).eq_of_lt_of_lt hi hj

lemma holds_nil (hb : buf.length = N) (ho : out < N) : Holds N buf out [] :=
  ⟨hb, ho, by simp, fun k h => absurd h (by simp)⟩

/-- Writing the cell past the last item appends to the queue. -/
theorem Holds.push (h : Holds N buf out q) (hq : q.length < N) (x : α) :
    Holds N (buf.set ((out + q.length) % N) x) out (q ++ [x]) := by
  have hN : 0 < N := by omega
  refine ⟨by simp [h.length], h.out_lt, by simp; omega, fun k hk => ?_⟩
  simp only [List.length_append, List.length_singleton] at hk
  rcases Nat.lt_or_ge k q.length with hlt | hge
  · have hne : (out + q.length) % N ≠ (out + k) % N := fun he =>
      absurd (mod_add_inj (by omega) (by omega) he) (by omega)
    rw [List.getElem?_set_ne hne, h.cell k hlt, List.getElem_append_left hlt]
  · have hk' : k = q.length := by omega
    subst hk'
    rw [List.getElem?_set_self (by rw [h.length]; exact Nat.mod_lt _ hN)]
    simp

/-- Reading cell `out` yields the head, and the tail is held from the next position. -/
theorem Holds.pop {y : α} (h : Holds N buf out (y :: q)) :
    buf[out]? = some y ∧ Holds N buf ((out + 1) % N) q := by
  have hN : 0 < N := by have := h.out_lt; omega
  refine ⟨?_, ⟨h.length, Nat.mod_lt _ hN, ?_, fun k hk => ?_⟩⟩
  · have h0 := h.cell 0 (by simp)
    rwa [Nat.add_zero, Nat.mod_eq_of_lt h.out_lt] at h0
  · have := h.le; simp at this; omega
  · have hk' := h.cell (k + 1) (by simp; omega)
    rw [Nat.mod_add_mod, show out + 1 + k = out + (k + 1) by omega, hk']
    simp

lemma Holds.prefix {q' : List α} (h : Holds N buf out q) (hp : q' <+: q) : Holds N buf out q' := by
  obtain ⟨t, rfl⟩ := hp
  refine ⟨h.length, h.out_lt, le_trans (by simp) h.le, fun k hk => ?_⟩
  rw [h.cell k (by simp; omega), List.getElem_append_left hk]

/-! ### The items read off the array -/

/-- The `n` items of the array `buf` of `N` cells from position `out`. -/
def items [Inhabited α] (N : ℕ) (buf : List α) (out n : ℕ) : List α :=
  (List.range n).map fun k => buf.getD ((out + k) % N) default

section Items

variable [Inhabited α]

@[simp] lemma length_items (out n : ℕ) : (items N buf out n).length = n := by
  simp [items]

@[simp] lemma items_zero (out : ℕ) : items N buf out 0 = [] := rfl

lemma items_succ (out n : ℕ) :
    items N buf out (n + 1) = buf.getD (out % N) default :: items N buf ((out + 1) % N) n := by
  rw [items, List.range_succ_eq_map, List.map_cons, List.map_map, Nat.add_zero]
  congr 1
  refine List.map_congr_left fun k _ => ?_
  simp only [Function.comp_apply]
  rw [Nat.mod_add_mod, Nat.add_right_comm, Nat.add_assoc]

lemma items_set (hb : buf.length = N) (hn : n < N) (out : ℕ) (x : α) :
    items N (buf.set ((out + n) % N) x) out (n + 1) = items N buf out n ++ [x] := by
  have hN : 0 < N := by omega
  rw [items, List.range_succ, List.map_append, List.map_singleton]
  congr 1
  · refine List.map_congr_left fun k hk => ?_
    have hk' : k < n := List.mem_range.1 hk
    have hne : (out + n) % N ≠ (out + k) % N := fun he =>
      absurd (mod_add_inj (by omega) (by omega) he) (by omega)
    rw [List.getD_eq_getElem?_getD, List.getElem?_set_ne hne, ← List.getD_eq_getElem?_getD]
  · rw [List.getD_eq_getElem?_getD, List.getElem?_set_self (by rw [hb]; exact Nat.mod_lt _ hN),
      Option.getD_some]

end Items

end Xv6.Lib.RingQueue
