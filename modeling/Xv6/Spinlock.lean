import Mathlib

/-!
`push_off` and `pop_off` of `spinlock.c`, on the fields of `struct cpu` they read and write,
with `sched`'s saving of `intena` across `swtch` (`proc.c`).

`noff` counts the `push_off`s not yet undone, `intena` says whether interrupts were on before
the first of them, and `intr` is the interrupt-enable bit of `sstatus` (`intr_get`). `acquire`
and `release` change these fields only through `push_off` and `pop_off`. `noff` is an `int` in
the source and a count here: each level of nesting but a few holds a different lock, so it
stays far below `INT_MAX`.

Every sequence of `push_off`s and `pop_off`s in which each `pop_off` undoes an earlier
`push_off` runs without a panic, keeps `noff` at the number of `push_off`s not undone and
interrupts off while it is positive, and gives back at the last `pop_off` the interrupt state
from before the first `push_off` (`run_nested`). Context switches keep the count and the
panics away (`run_safe`), and `sched` gives the process that calls it its own interrupt state
back (`sched_restores`). The scheduler's own `acquire` and `release` of `p->lock` around
`swtch` do not get theirs: the `release` turns interrupts on when the process that switched
back had them on before its `acquire`.
-/

namespace Xv6.Spinlock

/-- The fields of `struct cpu` that `push_off` and `pop_off` use, with the interrupt-enable
bit. -/
structure Cpu where
  /-- `noff`: the depth of `push_off` nesting. -/
  noff : ℕ
  /-- `intena`: were interrupts enabled before `push_off`? -/
  intena : Bool
  /-- `intr_get()`. -/
  intr : Bool
  deriving DecidableEq, Repr

def push_off (c : Cpu) : Cpu :=
  let old := c.intr
  let c := { c with intr := false }
  let c := if c.noff = 0 then { c with intena := old } else c
  { c with noff := c.noff + 1 }

def pop_off (c : Cpu) : Except String Cpu :=
  if c.intr then .error "pop_off - interruptible"
  else if c.noff < 1 then .error "pop_off"
  else
    let c := { c with noff := c.noff - 1 }
    .ok (if c.noff = 0 ∧ c.intena then { c with intr := true } else c)

def acquire (c : Cpu) : Cpu := push_off c

def release (c : Cpu) : Except String Cpu := pop_off c

/-- `sched()` before `swtch`: its checks of the CPU, and the `intena` it saves. -/
def sched (c : Cpu) : Except String Bool :=
  if c.noff ≠ 1 then .error "sched locks"
  else if c.intr then .error "sched interruptible"
  else .ok c.intena

/-- What the kernel threads running on a CPU do to its fields: `push_off` and `pop_off`,
directly or through `acquire` and `release`; `sched` before its `swtch`; and, when a thread's
`swtch` returns in `sched`, `mycpu()->intena = intena` with the value that thread saved. -/
inductive Ev
  | push_off
  | pop_off
  | sched
  | resume (intena : Bool)
  deriving DecidableEq, Repr

def step (c : Cpu) : Ev → Except String Cpu
  | .push_off => .ok (acquire c)
  | .pop_off => release c
  | .sched => (sched c).map fun _ => c
  | .resume intena => .ok { c with intena := intena }

def run (c : Cpu) : List Ev → Except String Cpu
  | [] => .ok c
  | e :: es =>
    match step c e with
    | .error msg => .error msg
    | .ok c => run c es

/-- The nesting depth after the events, from depth `d`: `none` if some `pop_off` undoes no
earlier `push_off`. -/
def nest : ℕ → List Ev → Option ℕ
  | d, [] => some d
  | d, .push_off :: es => nest (d + 1) es
  | 0, .pop_off :: _ => none
  | d + 1, .pop_off :: es => nest d es
  | d, .sched :: es => nest d es
  | d, .resume _ :: es => nest d es

@[simp] lemma run_nil (c : Cpu) : run c [] = .ok c := rfl

lemma nest_pop {d d' : ℕ} {es : List Ev} (h : nest d (.pop_off :: es) = some d') :
    ∃ n, d = n + 1 ∧ nest n es = some d' := by
  cases d with
  | zero => cases h
  | succ n => exact ⟨n, rfl, h⟩

lemma run_cons_ok {c c' : Cpu} {e : Ev} (h : step c e = .ok c') (es : List Ev) :
    run c (e :: es) = run c' es := by
  rw [run, h]

/-! ### One call -/

section Calls

variable {c : Cpu}

@[simp] lemma push_off_noff (c : Cpu) : (push_off c).noff = c.noff + 1 := by
  unfold push_off
  dsimp only
  split_ifs <;> rfl

@[simp] lemma push_off_intr (c : Cpu) : (push_off c).intr = false := by
  unfold push_off
  dsimp only
  split_ifs <;> rfl

lemma push_off_intena (c : Cpu) :
    (push_off c).intena = if c.noff = 0 then c.intr else c.intena := by
  unfold push_off
  dsimp only
  split_ifs <;> rfl

lemma pop_off_ok (hi : c.intr = false) (h0 : 0 < c.noff) :
    pop_off c = .ok ⟨c.noff - 1, c.intena, c.noff - 1 = 0 && c.intena⟩ := by
  unfold pop_off
  rw [if_neg (by simp [hi]), if_neg (by omega)]
  dsimp only
  by_cases hl : c.noff - 1 = 0 ∧ c.intena = true
  · rw [if_pos hl]
    simp [hl.1, hl.2]
  · rw [if_neg hl, hi]
    have hf : (decide (c.noff - 1 = 0) && c.intena) = false :=
      Bool.eq_false_iff.2 fun h => hl (by simpa using h)
    rw [hf]

lemma sched_ok (h1 : c.noff = 1) (hi : c.intr = false) : sched c = .ok c.intena := by
  unfold sched
  rw [if_neg (by omega), if_neg (by simp [hi])]

end Calls

/-! ### Nesting within one thread -/

/-- The invariant of a thread's nesting that started with interrupts `e`: at depth `0` the
interrupt state is `e` again; deeper, interrupts are off and `intena` holds `e`. -/
def Nested (e : Bool) (c : Cpu) : Prop :=
  if c.noff = 0 then c.intr = e else c.intr = false ∧ c.intena = e

section Nested

variable {e : Bool} {c : Cpu}

lemma Nested.push (h : Nested e c) : Nested e (push_off c) := by
  unfold Nested at h ⊢
  rw [if_neg (by simp), push_off_intr, push_off_intena]
  split_ifs at h ⊢ with h0
  · exact ⟨rfl, h⟩
  · exact ⟨rfl, h.2⟩

lemma Nested.pop (h : Nested e c) (h0 : 0 < c.noff) :
    ∃ c', pop_off c = .ok c' ∧ c'.noff = c.noff - 1 ∧ Nested e c' := by
  unfold Nested at h
  rw [if_neg (by omega)] at h
  refine ⟨_, pop_off_ok h.1 h0, rfl, ?_⟩
  unfold Nested
  dsimp only
  split_ifs with h1
  · simp [h1, h.2]
  · exact ⟨by simp [h1], h.2⟩

end Nested

/-- **`push_off` and `pop_off` nest**: a sequence of them in which each `pop_off` undoes an
earlier `push_off` runs without a panic from any CPU state the thread's nesting keeps, and ends
at the depth `nest` counts, with the invariant kept. By induction on the sequence, one case per
call. -/
theorem run_nested (es : List Ev) (hes : ∀ x ∈ es, x = .push_off ∨ x = .pop_off) :
    ∀ (c : Cpu) (e : Bool) (d : ℕ), Nested e c → nest c.noff es = some d →
      ∃ c', run c es = .ok c' ∧ c'.noff = d ∧ Nested e c' := by
  induction es with
  | nil =>
    intro c e d hc hd
    exact ⟨c, rfl, Option.some.inj hd, hc⟩
  | cons x es ih =>
    intro c e d hc hd
    have hes' : ∀ y ∈ es, y = .push_off ∨ y = .pop_off := fun y hy => hes y (.tail _ hy)
    rcases hes x (.head _) with rfl | rfl
    · rw [nest] at hd
      rw [run_cons_ok (rfl : step c .push_off = .ok (push_off c))]
      exact ih hes' _ e d hc.push (by simpa only [acquire, push_off_noff] using hd)
    · obtain ⟨n, hn, hd⟩ := nest_pop hd
      obtain ⟨c', hpop, hnoff, hc'⟩ := hc.pop (by omega)
      rw [run_cons_ok (show step c .pop_off = .ok _ from hpop)]
      exact ih hes' c' e d hc' (by rw [hnoff, hn]; exact hd)

/-! ### Across context switches -/

/-- What holds on the CPU whatever thread runs: interrupts are off while `noff` is positive. -/
def Safe (c : Cpu) : Prop := 0 < c.noff → c.intr = false

/-- **No `pop_off` panic across context switches**: with each `pop_off` undoing an earlier
`push_off`, the events run to the depth `nest` counts with interrupts off while it is
positive, or stop at one of `sched`'s own checks. By induction on the events. -/
theorem run_safe : ∀ (es : List Ev) (c : Cpu) (d : ℕ), Safe c → nest c.noff es = some d →
    (∃ c', run c es = .ok c' ∧ c'.noff = d ∧ Safe c') ∨
      run c es = .error "sched locks" ∨ run c es = .error "sched interruptible" := by
  intro es
  induction es with
  | nil =>
    intro c d hc hd
    exact .inl ⟨c, rfl, Option.some.inj hd, hc⟩
  | cons x es ih =>
    intro c d hc hd
    cases x with
    | push_off =>
      rw [nest] at hd
      rw [run_cons_ok (rfl : step c .push_off = .ok (push_off c))]
      exact ih _ d (fun _ => push_off_intr c) (by simpa only [acquire, push_off_noff] using hd)
    | pop_off =>
      obtain ⟨n, hn, hd⟩ := nest_pop hd
      have hpop := pop_off_ok (hc (by omega)) (by omega)
      rw [run_cons_ok (show step c .pop_off = .ok _ from hpop)]
      refine ih _ d (fun h => ?_) (by rw [hn]; exact hd)
      -- `intr_on` only at depth `0`
      simp only at h ⊢
      simp only [Bool.and_eq_false_iff, decide_eq_false_iff_not]
      exact .inl (by omega)
    | sched =>
      rw [nest] at hd
      by_cases h1 : c.noff = 1
      · by_cases hi : c.intr = true
        · right; right
          rw [run, step, sched, if_neg (by omega), if_pos hi]
          rfl
        · rw [run_cons_ok (by rw [step, sched_ok h1 (by simpa using hi)]; rfl)]
          exact ih c d hc hd
      · right; left
        rw [run, step, sched, if_pos h1]
        rfl
    | resume e =>
      rw [nest] at hd
      rw [run_cons_ok (rfl : step c (.resume e) = .ok { c with intena := e })]
      exact ih _ d hc hd

/-- **`sched` gives the process its own interrupt state back**: a process whose nesting started
with interrupts `e` calls `sched` holding only `p->lock`; whatever runs meanwhile, the scheduler
switches back to it holding `p->lock` with interrupts off, `sched` restores the `intena` it
saved, and the `release` that follows leaves interrupts as `e`. -/
theorem sched_restores {e i : Bool} {c c' : Cpu} (hc : Nested e c) (hs : sched c = .ok i)
    (h1 : c'.noff = 1) (hi : c'.intr = false) :
    release { c' with intena := i } = .ok ⟨0, e, e⟩ := by
  -- `sched` ran at depth `1`, where `intena` is the process's `e`
  have hc1 : c.noff = 1 := by
    by_contra h
    rw [sched, if_pos h] at hs
    cases hs
  have hie : i = e := by
    rw [sched, if_neg (by omega)] at hs
    unfold Nested at hc
    rw [if_neg (by omega)] at hc
    rw [if_neg (by simp [hc.1])] at hs
    exact (Except.ok.inj hs).symm.trans hc.2
  rw [release, pop_off_ok (c := { c' with intena := i }) hi (by simp [h1])]
  simp [h1, hie]

/-! ### The scheduler's `acquire` and `release` -/

/-- A round of `scheduler` on one CPU, with interrupts off (`intr_off`): it acquires `p->lock`
and switches to `p`, which returns from an earlier `sched` that saved `intena = 1`; `p`
releases its lock with interrupts turning on, acquires it again to give up the CPU, calls
`sched`, and the scheduler releases `p->lock`. -/
def schedulerRound : List Ev := [.push_off, .resume true, .pop_off, .push_off, .sched, .pop_off]

/-- **The scheduler's `release` turns interrupts on.** Every `pop_off` of the round undoes an
earlier `push_off`, and interrupts are off before the scheduler's `acquire`, its outermost
`push_off`; after the `pop_off` that undoes it, and again after the scheduler's own `release`,
interrupts are on. -/
theorem scheduler_release_enables :
    nest 0 schedulerRound = some 0 ∧
      run ⟨0, false, false⟩ (schedulerRound.take 3) = .ok ⟨0, true, true⟩ ∧
      run ⟨0, false, false⟩ schedulerRound = .ok ⟨0, true, true⟩ :=
  ⟨rfl, rfl, rfl⟩

/-- **`push_off` and `pop_off` nest, per thread**: within a thread, every sequence of them in
which each `pop_off` undoes an earlier `push_off`, from depth `0`, runs without a panic, leaves
`noff` at the number of `push_off`s not undone, keeps interrupts off while that is positive, and
gives back at depth `0` the interrupt state from before the first `push_off`. Across context
switches no `pop_off` panics and interrupts stay off at positive depth. A process that calls
`sched` gets its own interrupt state back at its `release`. -/
theorem push_off_pop_off_nest :
    (∀ (c : Cpu) (es : List Ev) (d : ℕ), c.noff = 0 →
      (∀ x ∈ es, x = .push_off ∨ x = .pop_off) → nest 0 es = some d →
        ∃ c', run c es = .ok c' ∧ c'.noff = d ∧ (0 < d → c'.intr = false) ∧
          (d = 0 → c'.intr = c.intr)) ∧
    (∀ (c : Cpu) (es : List Ev) (d : ℕ), c.noff = 0 → nest 0 es = some d →
      (∃ c', run c es = .ok c' ∧ c'.noff = d ∧ (0 < d → c'.intr = false)) ∨
        run c es = .error "sched locks" ∨ run c es = .error "sched interruptible") ∧
    (∀ (e i : Bool) (c c' : Cpu), Nested e c → sched c = .ok i → c'.noff = 1 →
      c'.intr = false → release { c' with intena := i } = .ok ⟨0, e, e⟩) := by
  refine ⟨fun c es d h0 hes hd => ?_, fun c es d h0 hd => ?_,
    fun e i c c' hc hs h1 hi => sched_restores hc hs h1 hi⟩
  · have hc : Nested c.intr c := by
      unfold Nested
      rw [if_pos h0]
    obtain ⟨c', hrun, hnoff, hc'⟩ := run_nested es hes c c.intr d hc (by rw [h0]; exact hd)
    refine ⟨c', hrun, hnoff, fun hd0 => ?_, fun hd0 => ?_⟩
    · unfold Nested at hc'
      rw [if_neg (by omega)] at hc'
      exact hc'.1
    · unfold Nested at hc'
      rw [if_pos (by omega)] at hc'
      exact hc'
  · rcases run_safe es c d (fun h => absurd h (by omega)) (by rw [h0]; exact hd) with
      ⟨c', hrun, hnoff, hsafe⟩ | h | h
    · exact .inl ⟨c', hrun, hnoff, fun hd0 => hsafe (hnoff ▸ hd0)⟩
    · exact .inr (.inl h)
    · exact .inr (.inr h)

end Xv6.Spinlock
