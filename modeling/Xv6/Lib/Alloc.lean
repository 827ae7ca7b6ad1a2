import Mathlib

/-!
An allocator of fixed-size blocks named by their addresses, as an interface: `alloc` hands
out a block or fails, `free` takes a block back, and `Free s` is the set of blocks the
allocator may hand out in state `s`. Code that calls the allocator is verified against every
allocator that keeps the laws of `Pool.Lawful`, so an allocation may fail at any call.

A property that every free block has, and that freed blocks have, holds of every free block
after any sequence of calls: `Lawful.forall_free_alloc` and `Lawful.forall_free_free` are
the two halves of that rule.
-/

namespace Xv6.Lib.Alloc

/-- An allocator: its operations and the blocks it may hand out. -/
structure Pool (σ : Type*) where
  alloc : σ → Option ℕ × σ
  free : ℕ → σ → σ
  Free : σ → Set ℕ

variable {σ : Type*}

/-- An allocator hands out only free blocks, each at most once until it is freed again, and
makes no block free other than those it is given back. -/
structure Pool.Lawful (P : Pool σ) : Prop where
  alloc_some : ∀ {s s' : σ} {p : ℕ}, P.alloc s = (some p, s') → p ∈ P.Free s ∧ P.Free s' ⊆ P.Free s \ {p}
  alloc_none : ∀ {s s' : σ}, P.alloc s = (none, s') → P.Free s' ⊆ P.Free s
  free_sub : ∀ (p : ℕ) (s : σ), P.Free (P.free p s) ⊆ insert p (P.Free s)

namespace Pool.Lawful

variable {P : Pool σ} (hP : P.Lawful)
include hP

/-- Allocating, whether it succeeds or not, makes no block free. -/
lemma free_alloc_sub {s s' : σ} {r : Option ℕ} (h : P.alloc s = (r, s')) :
    P.Free s' ⊆ P.Free s := by
  cases r with
  | none => exact hP.alloc_none h
  | some p => exact (hP.alloc_some h).2.trans Set.sdiff_subset

lemma not_free_alloc {s s' : σ} {p : ℕ} (h : P.alloc s = (some p, s')) : p ∉ P.Free s' :=
  fun hp => ((hP.alloc_some h).2 hp).2 rfl

lemma forall_free_alloc {Q : ℕ → Prop} {s s' : σ} {r : Option ℕ} (h : P.alloc s = (r, s'))
    (hQ : ∀ q ∈ P.Free s, Q q) : ∀ q ∈ P.Free s', Q q :=
  fun q hq => hQ q (hP.free_alloc_sub h hq)

lemma forall_free_free {Q : ℕ → Prop} {s : σ} {p : ℕ} (hQ : ∀ q ∈ P.Free s, Q q) (hp : Q p) :
    ∀ q ∈ P.Free (P.free p s), Q q := by
  intro q hq
  rcases hP.free_sub p s hq with rfl | hq
  · exact hp
  · exact hQ q hq

end Pool.Lawful

/-! ## A free list -/

/-- The allocator that keeps its free blocks in a list and hands out the first; a block given
back goes to the front. -/
def listPool : Pool (List ℕ) where
  alloc
    | [] => (none, [])
    | p :: ps => (some p, ps.filter (· ≠ p))
  free p ps := p :: ps
  Free ps := {p | p ∈ ps}

lemma listPool_lawful : listPool.Lawful where
  alloc_some := by
    intro s s' p h
    cases s with
    | nil => cases h
    | cons q qs =>
      simp only [listPool, Prod.mk.injEq, Option.some.injEq] at h
      obtain ⟨rfl, rfl⟩ := h
      refine ⟨List.mem_cons_self, fun x hx => ?_⟩
      simp only [listPool, Set.mem_ofPred_eq, List.mem_filter, decide_eq_true_eq] at hx
      exact ⟨List.mem_cons_of_mem _ hx.1, hx.2⟩
  alloc_none := by
    intro s s' h
    cases s with
    | nil =>
      simp only [listPool, Prod.mk.injEq] at h
      rw [← h.2]
    | cons q qs => cases h
  free_sub := by
    intro p s x hx
    simpa [listPool] using hx

end Xv6.Lib.Alloc
