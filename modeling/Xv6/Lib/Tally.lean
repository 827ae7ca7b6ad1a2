import Mathlib

/-!
Sums over a finite table of entries, such as the states of a set of processes, when one
entry changes: the sum changes by what that entry contributes before and after, and by
nothing else. Counting the entries in some state is the sum of an indicator.
-/

namespace Xv6.Lib.Tally

open Finset

variable {ι β : Type*} [DecidableEq ι]

lemma comp_update_apply (g : β → ℕ) (f : ι → β) (i : ι) (b : β) (j : ι) :
    g (Function.update f i b j) = Function.update (g ∘ f) i (g b) j := by
  by_cases h : j = i
  · subst h; simp
  · simp [h]

variable [Fintype ι]

/-- **One entry changed.** The sum over the table gains the new entry's contribution and
loses the old one's. -/
lemma sum_update_add (g : β → ℕ) (f : ι → β) (i : ι) (b : β) :
    ∑ j, g (Function.update f i b j) + g (f i) = ∑ j, g (f j) + g b := by
  have hnew : ∑ j, g (Function.update f i b j) = g b + ∑ j ∈ univ \ {i}, g (f j) := by
    simp only [comp_update_apply]
    exact sum_update_of_mem (mem_univ i) (g ∘ f) (g b)
  have hold : ∑ j ∈ univ \ {i}, g (f j) + g (f i) = ∑ j, g (f j) := by
    simpa using sum_sdiff (f := fun j => g (f j)) (subset_univ {i})
  rw [hnew, ← hold]
  ring

/-- An entry changed to one that contributes the same leaves the sum as it was. -/
lemma sum_update_of_eq (g : β → ℕ) (f : ι → β) (i : ι) (b : β) (h : g b = g (f i)) :
    ∑ j, g (Function.update f i b j) = ∑ j, g (f j) := by
  have := sum_update_add g f i b
  omega

end Xv6.Lib.Tally
