import Mathlib

/-!
Computations that may fail or run out of fuel: `ExceptT ε Option`, where `none` is a run whose
fuel was spent and `.error e` a failure.

Three judgements are proved over binds, one step of the computation at a time: `Holds P x`,
that every result `x` returns satisfies `P` (whether it returns at all is left open);
`Returns x`, that `x` does not run out of fuel; and `FailsWith E x`, that every failure of `x`
satisfies `E`. A recursion on fuel gets its invariant from the first and its totality from the
second.
-/

namespace Xv6.Lib.Partial

variable {ε α β : Type} {x : ExceptT ε Option α} {f : α → ExceptT ε Option β} {a : α}

/-- Every result the computation returns satisfies `P`. -/
def Holds (P : α → Prop) (x : ExceptT ε Option α) : Prop := ∀ a, x.run = some (.ok a) → P a

/-- The computation does not run out of fuel: it returns or fails. -/
def Returns (x : ExceptT ε Option α) : Prop := x.run ≠ none

/-- Every failure of the computation satisfies `E`. -/
def FailsWith (E : ε → Prop) (x : ExceptT ε Option α) : Prop :=
  ∀ e, x.run = some (.error e) → E e

/-! ## Binds -/

@[simp] lemma run_pure (a : α) : (pure a : ExceptT ε Option α).run = some (.ok a) := rfl

@[simp] lemma run_throw (e : ε) : (throw e : ExceptT ε Option α).run = some (.error e) := rfl

@[simp] lemma run_mk_none : (ExceptT.mk none : ExceptT ε Option α).run = none := rfl

lemma run_bind_of_ok (h : x.run = some (.ok a)) : (x >>= f).run = (f a).run := by
  simp [ExceptT.run_bind, h]

lemma run_bind_of_error {e : ε} (h : x.run = some (.error e)) :
    (x >>= f).run = some (.error e) := by
  simp [ExceptT.run_bind, h]

lemma run_bind_of_none (h : x.run = none) : (x >>= f).run = none := by
  simp [ExceptT.run_bind, h]

/-! ## Every result -/

namespace Holds

variable {P Q : α → Prop} {R : β → Prop}

lemma pure (h : P a) : Holds P (Pure.pure a : ExceptT ε Option α) := fun _ he => by
  cases he
  exact h

lemma throw (e : ε) : Holds P (MonadExcept.throw e : ExceptT ε Option α) := fun _ he => by
  cases he

lemma spent : Holds P (ExceptT.mk none : ExceptT ε Option α) := fun _ he => by
  cases he

/-- **The rule of binds**: what the first computation's results satisfy is what the second
may assume. -/
lemma bind (hx : Holds Q x) (hf : ∀ a, Q a → Holds R (f a)) : Holds R (x >>= f) := by
  intro b hb
  rcases hrun : x.run with _ | _ | a
  · rw [run_bind_of_none hrun] at hb
    cases hb
  · rw [run_bind_of_error hrun] at hb
    cases hb
  · rw [run_bind_of_ok hrun] at hb
    exact hf a (hx a hrun) b hb

lemma mono (h : Holds P x) (hPQ : ∀ a, P a → Q a) : Holds Q x := fun a ha => hPQ a (h a ha)

end Holds

/-! ## Not running out of fuel -/

namespace Returns

variable {Q : α → Prop}

lemma pure : Returns (Pure.pure a : ExceptT ε Option α) := by
  simp [Returns]

lemma throw (e : ε) : Returns (MonadExcept.throw e : ExceptT ε Option α) := by
  simp [Returns]

/-- **The rule of binds**: the first computation returns, and the second does from each of
its results, which satisfy what `Holds` proved of them. -/
lemma bind (hx : Returns x) (hQ : Holds Q x) (hf : ∀ a, Q a → Returns (f a)) :
    Returns (x >>= f) := by
  rcases hrun : x.run with _ | _ | a
  · exact absurd hrun hx
  · simp [Returns, run_bind_of_error hrun]
  · rw [Returns, run_bind_of_ok hrun]
    exact hf a (hQ a hrun)

/-- A bind that returns has a first computation that returns. -/
lemma of_bind (h : Returns (x >>= f)) : Returns x := fun hn =>
  h (run_bind_of_none hn)

/-- A bind that returns, after a first computation that returned `a`, returns from `a`. -/
lemma of_bind_ok (h : Returns (x >>= f)) (hx : x.run = some (.ok a)) : Returns (f a) := by
  rwa [Returns, ← run_bind_of_ok hx]

end Returns

/-! ## Failures -/

namespace FailsWith

variable {E : ε → Prop} {Q : α → Prop}

lemma pure : FailsWith E (Pure.pure a : ExceptT ε Option α) := fun _ he => by
  cases he

lemma throw {e : ε} (h : E e) : FailsWith E (MonadExcept.throw e : ExceptT ε Option α) :=
  fun _ he => by
    cases he
    exact h

lemma spent : FailsWith E (ExceptT.mk none : ExceptT ε Option α) := fun _ he => by
  cases he

/-- **The rule of binds**: a failure is one of the first computation's, or one of the
second's from a result of the first. -/
lemma bind (hx : FailsWith E x) (hQ : Holds Q x) (hf : ∀ a, Q a → FailsWith E (f a)) :
    FailsWith E (x >>= f) := by
  intro e he
  rcases hrun : x.run with _ | _ | a
  · rw [run_bind_of_none hrun] at he
    cases he
  · rw [run_bind_of_error hrun] at he
    cases he
    exact hx _ hrun
  · rw [run_bind_of_ok hrun] at he
    exact hf a (hQ a hrun) e he

/-- The rule of binds when the second computation's failures do not depend on the first's
result. -/
lemma bind' (hx : FailsWith E x) (hf : ∀ a, FailsWith E (f a)) : FailsWith E (x >>= f) :=
  bind hx (Q := fun _ => True) (fun _ _ => trivial) fun a _ => hf a

end FailsWith

end Xv6.Lib.Partial
