import Mathlib

/-!
A device that applies writes one at a time, in the order they are issued, each atomically:
a crash keeps a prefix of the writes issued. Recovery reads the device and issues writes
of its own, and can itself crash after any prefix of them and be started again. What holds
after any number of such crashes is proved by one rule: an invariant that every prefix of
recovery keeps and whose completed recovery establishes the goal.
-/

namespace Xv6.Lib.Crash

variable {σ ω : Type*} (apply : ω → σ → σ)

/-- The state after the writes of a list, in issue order. -/
def run : List ω → σ → σ
  | [], s => s
  | w :: ws, s => run ws (apply w s)

/-- The states recovery can leave: it may crash after any prefix of its writes and restart,
any number of times, before it completes once. -/
inductive Recovers (recover : σ → List ω) : σ → σ → Prop
  | done (s : σ) : Recovers recover s (run apply (recover s) s)
  | crash (s : σ) (k : ℕ) {s' : σ} :
      Recovers recover (run apply ((recover s).take k) s) s' → Recovers recover s s'

variable {apply}

@[simp] lemma run_nil (s : σ) : run apply [] s = s := rfl

@[simp] lemma run_cons (w : ω) (ws : List ω) (s : σ) :
    run apply (w :: ws) s = run apply ws (apply w s) := rfl

@[simp] lemma run_append (ws vs : List ω) (s : σ) :
    run apply (ws ++ vs) s = run apply vs (run apply ws s) := by
  induction ws generalizing s with
  | nil => rfl
  | cons w ws ih => exact ih (apply w s)

/-- A crash in the second of two phases of writes: all of the first, a prefix of the second. -/
lemma run_take_append (ws vs : List ω) (k : ℕ) (s : σ) :
    run apply ((ws ++ vs).take k) s =
      run apply (vs.take (k - ws.length)) (run apply (ws.take k) s) := by
  rw [List.take_append, run_append]

/-- **The recovery rule.** If every prefix of recovery from a state satisfying `I` leaves a
state satisfying `I`, and completed recovery from such a state establishes `Q`, then
recovery with any number of crashes from a state satisfying `I` ends in `Q`. -/
theorem Recovers.inv {recover : σ → List ω} {I Q : σ → Prop}
    (hpre : ∀ s k, I s → I (run apply ((recover s).take k) s))
    (hdone : ∀ s, I s → Q (run apply (recover s) s)) {s s' : σ}
    (h : Recovers apply recover s s') (hs : I s) : Q s' := by
  induction h with
  | done s => exact hdone s hs
  | crash s k _ ih => exact ih (hpre s k hs)

end Xv6.Lib.Crash
