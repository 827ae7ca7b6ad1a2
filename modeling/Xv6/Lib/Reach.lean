import Mathlib

/-!
Reachable states of a transition system, and the rule that proves a property of all of
them: it holds initially, and every step keeps it.
-/

namespace Xv6.Lib.Reach

variable {σ : Type*} (init : σ → Prop) (step : σ → σ → Prop)

/-- The states a system can be in after any number of steps from an initial state. -/
inductive Reachable : σ → Prop
  | init {s : σ} : init s → Reachable s
  | step {s s' : σ} : Reachable s → step s s' → Reachable s'

variable {init step}

/-- **The invariant rule.** A property that holds initially and that every step from a
reachable state keeps holds of every reachable state. -/
theorem Reachable.induct {P : σ → Prop} (h₀ : ∀ s, init s → P s)
    (h₁ : ∀ s s', Reachable init step s → P s → step s s' → P s') {s : σ}
    (h : Reachable init step s) : P s := by
  induction h with
  | init hs => exact h₀ _ hs
  | step hr hs ih => exact h₁ _ _ hr ih hs

lemma Reachable.steps {s s' : σ} (h : Reachable init step s)
    (hs : Relation.ReflTransGen step s s') : Reachable init step s' := by
  induction hs with
  | refl => exact h
  | tail _ hst ih => exact ih.step hst

lemma Reachable.mono {step' : σ → σ → Prop} (hs : ∀ s s', step s s' → step' s s') {s : σ}
    (h : Reachable init step s) : Reachable init step' s := by
  induction h with
  | init h₀ => exact .init h₀
  | step _ hst ih => exact ih.step (hs _ _ hst)

/-- Calls run one after the other by a function that runs one; `none` when a call cannot
run. -/
def runAll {γ : Type*} (exec : σ → γ → Option σ) : σ → List γ → Option σ
  | s, [] => some s
  | s, c :: cs => (exec s c).bind fun s => runAll exec s cs

/-- When every call that runs is a step, a run of calls is a run of steps. -/
lemma runAll_steps {γ : Type*} {exec : σ → γ → Option σ}
    (hexec : ∀ s c s', exec s c = some s' → step s s') {s s' : σ} {cs : List γ}
    (h : runAll exec s cs = some s') : Relation.ReflTransGen step s s' := by
  induction cs generalizing s with
  | nil =>
    cases h
    exact .refl
  | cons c cs ih =>
    obtain ⟨s₁, h₁, h₂⟩ := Option.bind_eq_some_iff.mp h
    exact .head (hexec _ _ _ h₁) (ih h₂)

end Xv6.Lib.Reach
