import Xv6.Fork

/-!
Which process runs on which CPU.

A slot is `RUNNING` while a CPU runs it: `scheduler` sets `p->state = RUNNING` and
`c->proc = p` under `p->lock`, and `yield`, `sleep` and `kexit` set another state and return
to the scheduler, which clears `c->proc` before it releases the lock. Every other operation
leaves both alone. `Runs` is the invariant: `RUNNING` exactly when on a CPU, and on at most
one. `RunStep` says once what a step can do to the running processes, and each operation of
`ProcTable` is shown to be one of its cases.

In the source the two passes of a lottery round take and drop each slot's lock in turn,
so the table changes between them. `Machine` models that: each CPU's scheduler is at a slot
of pass 1 or pass 2, and its steps, one slot each, interleave with the other CPUs' steps
and with the calls of the processes they run. Run with nothing in between, the steps of one
round reach the state of the atomic round `Sched.scheduler`.
-/

namespace Xv6.Running

open Xv6.Param Xv6.Lib.Reach Xv6.ProcTable Xv6.Sched Xv6.Fork

/-! ## The running processes of a table -/

/-- Two states run the same processes: the CPUs hold the same ones and the same slots are
`RUNNING`. -/
structure SameRun (s s' : Sys) : Prop where
  cpus : s'.cpus = s.cpus
  running : ∀ p, (s'.proc p).state = .RUNNING ↔ (s.proc p).state = .RUNNING

namespace SameRun

@[refl] lemma refl (s : Sys) : SameRun s s := ⟨rfl, fun _ => Iff.rfl⟩

lemma trans {s t u : Sys} (h₁ : SameRun s t) (h₂ : SameRun t u) : SameRun s u :=
  ⟨h₂.cpus.trans h₁.cpus, fun p => (h₂.running p).trans (h₁.running p)⟩

lemma of_eq {s s' : Sys} (hp : s'.proc = s.proc) (hc : s'.cpus = s.cpus) : SameRun s s' :=
  ⟨hc, fun p => by rw [hp]⟩

lemma sameRun_rand_state (s : Sys) (r : ℕ) : SameRun s { s with rand_state := r } :=
  of_eq rfl rfl

lemma setProc {s : Sys} {i : Fin NPROC} {q : Proc}
    (h : q.state = .RUNNING ↔ (s.proc i).state = .RUNNING) : SameRun s (s.setProc i q) := by
  refine ⟨rfl, fun p => ?_⟩
  by_cases hp : p = i
  · subst hp
    simpa using h
  · simp [hp]

lemma setProc_of_ne {s : Sys} {i : Fin NPROC} {q : Proc} (h : (s.proc i).state ≠ .RUNNING)
    (hq : q.state ≠ .RUNNING) : SameRun s (s.setProc i q) :=
  setProc ⟨fun h' => absurd h' hq, fun h' => absurd h' h⟩

end SameRun

/-! ### The operations that start and stop nothing -/

lemma sameRun_wakeup (s : Sys) (me : Option (Fin NPROC)) (chan : Chan) :
    SameRun s (wakeup s me chan) := by
  refine ⟨rfl, fun p => ?_⟩
  simp only [wakeup]
  split_ifs with h
  · simp [h.2.1]
  · rfl

lemma sameRun_reparentAt (p : Fin NPROC) (s : Sys) (pp : Fin NPROC) :
    SameRun s (reparentAt p s pp) := by
  unfold reparentAt
  split_ifs
  · have h₁ : SameRun s (s.setProc pp { s.proc pp with parent := s.initproc }) :=
      SameRun.setProc Iff.rfl
    exact h₁.trans (sameRun_wakeup _ _ _)
  · exact SameRun.refl s

lemma sameRun_reparent (s : Sys) (p : Fin NPROC) : SameRun s (reparent s p) := by
  -- the loop over the slots keeps the running processes at every iteration
  suffices h : ∀ (l : List (Fin NPROC)) (t : Sys), SameRun s t →
      SameRun s (l.foldl (reparentAt p) t) from h _ s (SameRun.refl s)
  intro l
  induction l with
  | nil => exact fun _ ht => ht
  | cons pp l ih => exact fun t ht => ih _ (ht.trans (sameRun_reparentAt p t pp))

/-- `allocproc` takes an `UNUSED` slot, and leaves the one it returns `USED`. -/
lemma allocproc_cases (s : Sys) (ok : Bool) :
    SameRun s (allocproc s ok).2 ∧
      ∀ i, (allocproc s ok).1 = some i → ((allocproc s ok).2.proc i).state = .USED := by
  unfold allocproc allocpid
  split
  · exact ⟨SameRun.refl s, fun _ h => by cases h⟩
  · rename_i i hi
    have hU := firstUnused_state hi
    dsimp only
    -- slot `i` goes from `UNUSED` to `USED`, and back to `UNUSED` when an allocation fails
    set s₀ : Sys := { s with nextpid := i32 (s.nextpid + 1) }
    set s₁ := s₀.setProc i { s.proc i with pid := s.nextpid, tickets := 10, state := .USED }
    have h₀ : SameRun s s₀ := SameRun.of_eq rfl rfl
    have h₁ : SameRun s s₁ := h₀.trans (SameRun.setProc_of_ne (by simp [s₀, hU]) (by simp))
    have hi₁ : (s₁.proc i).state = .USED := by simp [s₁]
    cases ok
    · have h₂ : SameRun s₁ (s₁.setProc i (freeproc (s₁.proc i))) :=
        SameRun.setProc_of_ne (by simp [hi₁]) (by simp [freeproc])
      exact ⟨h₁.trans h₂, fun _ h => by cases h⟩
    · exact ⟨h₁, fun j hj => by cases hj; exact hi₁⟩

lemma sameRun_userinit {s s' : Sys} (h : userinit s = some s') : SameRun s s' := by
  unfold userinit at h
  obtain ⟨hrun, hused⟩ := allocproc_cases s true
  rcases ha : allocproc s true with ⟨_ | i, s₁⟩ <;> rw [ha] at h hrun hused <;>
    dsimp only at hrun hused
  · cases h
  · cases h
    have h₂ : SameRun s₁ (s₁.setProc i { s₁.proc i with state := .RUNNABLE }) :=
      SameRun.setProc_of_ne (by simp [hused i rfl]) (by simp)
    -- setting `initproc` touches neither the slots nor the CPUs
    exact hrun.trans (h₂.trans (SameRun.of_eq rfl rfl))

lemma sameRun_kforkAlloc (s : Sys) (p : Fin NPROC) (ok copyok : Bool) :
    SameRun s (kforkAlloc s p ok copyok).2 := by
  unfold kforkAlloc
  obtain ⟨hrun, hused⟩ := allocproc_cases s ok
  rcases ha : allocproc s ok with ⟨_ | np, s₁⟩ <;> rw [ha] at hrun hused <;>
    dsimp only at hrun hused
  · exact hrun
  · have hnp : (s₁.proc np).state ≠ .RUNNING := by simp [hused np rfl]
    -- the child stays `USED`, or is freed when `uvmcopy` fails
    cases copyok
    · have h₂ : SameRun s₁ (s₁.setProc np (freeproc (s₁.proc np))) :=
        SameRun.setProc_of_ne hnp (by simp [freeproc])
      exact hrun.trans h₂
    · have h₂ : SameRun s₁ (s₁.setProc np { s₁.proc np with tickets := (s₁.proc p).tickets }) :=
        SameRun.setProc Iff.rfl
      exact hrun.trans (h₂.trans (SameRun.of_eq rfl rfl))

lemma sameRun_kforkParent (s : Sys) (p np : Fin NPROC) : SameRun s (kforkParent s p np) :=
  (SameRun.setProc (q := { s.proc np with parent := some p }) Iff.rfl).trans
    (SameRun.of_eq rfl rfl)

lemma sameRun_kforkRun {s : Sys} {p np : Fin NPROC} (hn : (s.proc np).state ≠ .RUNNING) :
    SameRun s (kforkRun s p np) :=
  (SameRun.setProc_of_ne hn (by simp)).trans (SameRun.of_eq rfl rfl)

lemma sameRun_kkill (s : Sys) (pid : ℤ) : SameRun s (kkill s pid).2 := by
  unfold kkill
  split
  · exact SameRun.refl s
  · rename_i i _
    refine SameRun.setProc ?_
    split_ifs with h <;> simp [h]

lemma sameRun_setkilled (s : Sys) (p : Fin NPROC) : SameRun s (setkilled s p) :=
  SameRun.setProc Iff.rfl

lemma sameRun_settickets (s : Sys) (p : Fin NPROC) (n : ℤ) :
    SameRun s (sys_settickets s p n) :=
  SameRun.setProc Iff.rfl

/-! ## What a step does to the running processes -/

/-- What one step does to the running processes: nothing; or it takes process `p` off the
CPU `c` that runs it, leaving `p` in a state other than `RUNNING`; or it puts a `RUNNABLE`
process `p` on the idle CPU `c` and makes it `RUNNING`. The operations around these (the
reparenting and wakeups of `kexit`, a new `rand_state`) are steps of the first kind. -/
inductive RunStep (s s' : Sys) : Prop
  | keep : SameRun s s' → RunStep s s'
  | stop {t : Sys} {c : Fin NCPU} {p : Fin NPROC} {q : Proc} :
      SameRun s t → t.cpus c = some p → q.state ≠ .RUNNING →
      s' = (t.setProc p q).setCpu c none → RunStep s s'
  | start {c : Fin NCPU} {p : Fin NPROC} {q : Proc} :
      s.cpus c = none → (s.proc p).state = .RUNNABLE → q.state = .RUNNING →
      SameRun ((s.setProc p q).setCpu c (some p)) s' → RunStep s s'

lemma kexit_eq {s s' : Sys} {c : Fin NCPU} {p : Fin NPROC} {status : ℤ}
    (h : kexit s c p status = some s') :
    ∃ t, SameRun s t ∧
      s' = (t.setProc p { t.proc p with xstate := status, state := .ZOMBIE }).setCpu c none := by
  unfold kexit at h
  split_ifs at h
  cases h
  exact ⟨_, (sameRun_reparent s p).trans
    (sameRun_wakeup _ (some p) (chanOf ((reparent s p).proc p).parent)), rfl⟩

lemma runStep_kexit {s s' : Sys} {c : Fin NCPU} {p : Fin NPROC} {status : ℤ}
    (hc : s.cpus c = some p) (h : kexit s c p status = some s') : RunStep s s' := by
  obtain ⟨t, ht, rfl⟩ := kexit_eq h
  exact .stop ht (by rw [ht.cpus]; exact hc) (by simp) rfl

lemma kwait_cases (s : Sys) (c : Fin NCPU) (p : Fin NPROC) (copyfail : Bool) :
    SameRun s (kwait s c p copyfail).2 ∨ (kwait s c p copyfail).2 = sleep s c p (.proc p) := by
  unfold kwait
  split
  · rename_i pp hpp
    have hz : (s.proc pp).state = .ZOMBIE := by simpa using List.find?_some hpp
    split_ifs
    · exact .inl (SameRun.refl s)
    · exact .inl (SameRun.setProc_of_ne (by simp [hz]) (by simp [freeproc]))
  · split_ifs
    · exact .inl (SameRun.refl s)
    · exact .inr rfl

lemma runStep_kwait {s : Sys} {c : Fin NCPU} {p : Fin NPROC} {copyfail : Bool}
    (hc : s.cpus c = some p) : RunStep s (kwait s c p copyfail).2 := by
  rcases kwait_cases s c p copyfail with h | h
  · exact .keep h
  · rw [h]
    exact .stop (SameRun.refl s) hc (by simp) rfl

lemma runStep_scheduler {s : Sys} {c : Fin NCPU} (hc : s.cpus c = none) :
    RunStep s (scheduler s c) := by
  unfold scheduler
  split
  · exact .keep (SameRun.of_eq rfl rfl)
  · rename_i p rs hround
    exact .start hc (schedulerRound_runnable hround) (q := { s.proc p with state := .RUNNING })
      rfl (SameRun.of_eq rfl rfl)

/-- **Every step of the process subsystem is one of the three kinds**, where the `kfork`s in
progress are in order: the child a third section makes `RUNNABLE` is `USED`. -/
theorem runStep_of_step {s s' : Sys} (hf : ForkOK s) (h : ProcStep.Step s s') : RunStep s s' := by
  cases h with
  | userinit _ h => exact .keep (sameRun_userinit h)
  | scheduler c hc => exact runStep_scheduler hc
  | forkAlloc c p ok copyok _ _ => exact .keep (sameRun_kforkAlloc s p ok copyok)
  | forkParent c p np _ _ => exact .keep (sameRun_kforkParent s p np)
  | forkRun c p np _ hrn => exact .keep (sameRun_kforkRun (by simp [(hf.run p np hrn).1]))
  | settickets c p n _ _ _ => exact .keep (sameRun_settickets s p n)
  | yield c p hc => exact .stop (SameRun.refl s) hc (by simp) rfl
  | sleep c p chan hc _ _ => exact .stop (SameRun.refl s) hc (by simp) rfl
  | wakeup c chan => exact .keep (sameRun_wakeup s _ chan)
  | kill c p pid _ _ _ => exact .keep (sameRun_kkill s pid)
  | setkilled c p _ _ => exact .keep (sameRun_setkilled s p)
  | exit c p status hc _ h => exact runStep_kexit hc h
  | wait c p copyfail hc _ => exact runStep_kwait hc

/-! ## The invariant -/

/-- The processes the CPUs run: a slot is `RUNNING` exactly when some CPU runs it, and no
process is on two CPUs. -/
structure Runs (s : Sys) : Prop where
  running : ∀ p, (s.proc p).state = .RUNNING ↔ ∃ c, s.cpus c = some p
  unique : ∀ c d p, s.cpus c = some p → s.cpus d = some p → c = d

lemma runs_boot : Runs boot :=
  ⟨fun p => by simp [boot, Proc.zero], fun c _ _ h => by simp [boot] at h⟩

lemma setCpu_none_eq_some {s : Sys} {c d : Fin NCPU} {r : Fin NPROC} :
    (s.setCpu c none).cpus d = some r ↔ d ≠ c ∧ s.cpus d = some r := by
  by_cases hd : d = c <;> simp [hd]

lemma setCpu_some_eq_some {s : Sys} {c d : Fin NCPU} {p r : Fin NPROC} :
    (s.setCpu c (some p)).cpus d = some r ↔ d = c ∧ p = r ∨ d ≠ c ∧ s.cpus d = some r := by
  by_cases hd : d = c <;> simp [hd]

namespace Runs

variable {s t : Sys} {c : Fin NCPU} {p : Fin NPROC} {q : Proc}

lemma congr (h : Runs s) (hs : SameRun s t) : Runs t :=
  ⟨fun r => by rw [hs.running, h.running, hs.cpus], fun c d r => by
    rw [hs.cpus]; exact h.unique c d r⟩

lemma stop (h : Runs s) (hc : s.cpus c = some p) (hq : q.state ≠ .RUNNING) :
    Runs ((s.setProc p q).setCpu c none) := by
  constructor
  · intro r
    simp only [Sys.setCpu_proc, Sys.setProc_proc, setCpu_none_eq_some, Sys.setProc_cpus]
    by_cases hr : r = p
    · -- no other CPU runs `p`
      subst hr
      rw [if_pos rfl]
      exact ⟨fun h' => absurd h' hq, fun ⟨d, hdc, hd⟩ => absurd (h.unique d c r hd hc) hdc⟩
    · -- `c` does not run `r`
      rw [if_neg hr, h.running r]
      refine ⟨fun ⟨d, hd⟩ => ⟨d, fun hdc => ?_, hd⟩, fun ⟨d, _, hd⟩ => ⟨d, hd⟩⟩
      subst hdc
      exact hr (Option.some_inj.1 (hd.symm.trans hc))
  · intro d e r hd he
    simp only [setCpu_none_eq_some, Sys.setProc_cpus] at hd he
    exact h.unique d e r hd.2 he.2

lemma start (h : Runs s) (hc : s.cpus c = none) (hp : (s.proc p).state ≠ .RUNNING)
    (hq : q.state = .RUNNING) : Runs ((s.setProc p q).setCpu c (some p)) := by
  -- a process some CPU ran before was `RUNNING`, so it is not `p`
  have hne : ∀ d r, s.cpus d = some r → r ≠ p := fun d r hd hr =>
    hp (hr ▸ (h.running r).2 ⟨d, hd⟩)
  constructor
  · intro r
    simp only [Sys.setCpu_proc, Sys.setProc_proc, setCpu_some_eq_some, Sys.setProc_cpus]
    by_cases hr : r = p
    · subst hr
      rw [if_pos rfl]
      exact ⟨fun _ => ⟨c, .inl ⟨rfl, rfl⟩⟩, fun _ => hq⟩
    · rw [if_neg hr, h.running r]
      refine ⟨fun ⟨d, hd⟩ => ⟨d, .inr ⟨fun hdc => ?_, hd⟩⟩, ?_⟩
      · subst hdc
        rw [hc] at hd
        cases hd
      · rintro ⟨d, ⟨-, rfl⟩ | ⟨-, hd⟩⟩
        · exact absurd rfl hr
        · exact ⟨d, hd⟩
  · intro d e r hd he
    simp only [setCpu_some_eq_some, Sys.setProc_cpus] at hd he
    rcases hd with ⟨rfl, rfl⟩ | ⟨-, hd⟩ <;> rcases he with ⟨rfl, he⟩ | ⟨-, he⟩
    · rfl
    · exact absurd rfl (hne e _ he)
    · exact absurd he.symm (hne d _ hd)
    · exact h.unique d e r hd he

/-- **Every kind of step keeps the invariant.** -/
lemma runStep (h : Runs s) (hs : RunStep s t) : Runs t := by
  cases hs with
  | keep hs => exact h.congr hs
  | stop ht hc hq he =>
    subst he
    exact (h.congr ht).stop hc hq
  | start hc hp hq hs => exact (h.start hc (by simp [hp]) hq).congr hs

end Runs

/-- A CPU that a step gives a new process was idle, and the process was `RUNNABLE` and is
now `RUNNING`. -/
lemma RunStep.new_cpu {s s' : Sys} {c : Fin NCPU} {p : Fin NPROC} (hs : RunStep s s')
    (hc : s'.cpus c = some p) (hne : s.cpus c ≠ some p) :
    s.cpus c = none ∧ (s.proc p).state = .RUNNABLE ∧ (s'.proc p).state = .RUNNING := by
  cases hs with
  | keep hs =>
    rw [hs.cpus] at hc
    exact absurd hc hne
  | stop ht _ _ he =>
    subst he
    rw [setCpu_none_eq_some, Sys.setProc_cpus, ht.cpus] at hc
    exact absurd hc.2 hne
  | start hd hp hq hs =>
    rw [hs.cpus, setCpu_some_eq_some, Sys.setProc_cpus] at hc
    rcases hc with ⟨rfl, rfl⟩ | ⟨-, hc⟩
    · exact ⟨hd, hp, (hs.running _).2 (by simp [hq])⟩
    · exact absurd hc hne

/-! ## The scheduler loop, one slot at a time -/

/-- Where the loop of `scheduler` on a CPU is: in pass 1 before slot `k`, with the tickets
counted so far, or in pass 2 before slot `k`, with the winning number and the running count.
`pass1 0 0` is the top of `for(;;)`. -/
inductive SchedAt
  | pass1 (k : ℕ) (total_tickets : ℤ)
  | pass2 (k : ℕ) (winner counter : ℤ)
  deriving DecidableEq, Repr

/-- One step of `scheduler` on CPU `c`: a visit to one slot under its lock, or the end of a
pass. Pass 1 adds the tickets of a `RUNNABLE` slot; at its end the loop draws the winner if
the total is positive, and goes back to the top if not. Pass 2 adds the tickets of a
`RUNNABLE` slot and, once the count exceeds the winner, makes it `RUNNING` on `c` and switches
to it. The loop starts again at the top after the process gives the CPU back (its `yield`,
`sleep` or `kexit` clears `c->proc`), and after a pass 2 that found nothing (`wfi`). -/
def schedStep (s : Sys) (c : Fin NCPU) : SchedAt → Sys × SchedAt
  | .pass1 k total_tickets =>
    if h : k < NPROC then
      let p : Fin NPROC := ⟨k, h⟩
      (s, .pass1 (k + 1) (if (s.proc p).state = .RUNNABLE
        then i32 (total_tickets + (s.proc p).tickets) else total_tickets))
    else if total_tickets > 0 then
      let (r, rand_state) := random s.rand_state
      ({ s with rand_state := rand_state }, .pass2 0 (r.tmod total_tickets) 0)
    else (s, .pass1 0 0)
  | .pass2 k winner counter =>
    if h : k < NPROC then
      let p : Fin NPROC := ⟨k, h⟩
      if (s.proc p).state = .RUNNABLE then
        if i32 (counter + (s.proc p).tickets) > winner then
          ((s.setProc p { s.proc p with state := .RUNNING }).setCpu c (some p), .pass1 0 0)
        else (s, .pass2 (k + 1) winner (i32 (counter + (s.proc p).tickets)))
      else (s, .pass2 (k + 1) winner counter)
    else (s, .pass1 0 0)

/-- The process subsystem with the position of each CPU's scheduler loop. -/
structure Machine where
  sys : Sys
  pc : Fin NCPU → SchedAt

def Machine.boot : Machine := ⟨ProcTable.boot, fun _ => .pass1 0 0⟩

/-- The steps of the machine: a step of the scheduler loop of an idle CPU, or any step of
`ProcStep.Step` that gives no idle CPU a process. That leaves out exactly the atomic rounds
of the scheduler that start a process; the loop's own steps do that here. -/
inductive Step : Machine → Machine → Prop
  | sched {m : Machine} (c : Fin NCPU) : m.sys.cpus c = none →
      Step m ⟨(schedStep m.sys c (m.pc c)).1,
        Function.update m.pc c (schedStep m.sys c (m.pc c)).2⟩
  | call {m : Machine} {s' : Sys} : ProcStep.Step m.sys s' →
      (∀ c, m.sys.cpus c = none → s'.cpus c = none) → Step m ⟨s', m.pc⟩

/-- A step of the loop is a step of one of the three kinds: only the switch of pass 2
changes who runs. -/
lemma schedStep_runStep {s : Sys} {c : Fin NCPU} (hc : s.cpus c = none) (a : SchedAt) :
    RunStep s (schedStep s c a).1 := by
  cases a with
  | pass1 k total_tickets =>
    -- pass 1 changes nothing but the generator state
    dsimp only [schedStep]
    split_ifs
    · exact .keep (SameRun.refl s)
    · exact .keep (SameRun.refl s)
    · exact .keep (SameRun.sameRun_rand_state s _)
    · exact .keep (SameRun.refl s)
  | pass2 k winner counter =>
    simp only [schedStep]
    split_ifs with h hr
    · exact .start hc hr (q := { s.proc ⟨k, h⟩ with state := .RUNNING }) rfl (SameRun.refl _)
    all_goals exact .keep (SameRun.refl s)

lemma schedStep_new_cpu {s : Sys} {c d : Fin NCPU} {p : Fin NPROC} {a : SchedAt}
    (hd : (schedStep s c a).1.cpus d = some p) (hne : s.cpus d ≠ some p) :
    d = c ∧ ∃ winner counter, a = .pass2 p winner counter := by
  cases a with
  | pass1 k total_tickets =>
    simp only [schedStep] at hd
    split_ifs at hd <;> exact absurd hd hne
  | pass2 k winner counter =>
    simp only [schedStep] at hd
    split_ifs at hd
    · rw [setCpu_some_eq_some, Sys.setProc_cpus] at hd
      rcases hd with ⟨rfl, rfl⟩ | ⟨-, hd⟩
      · exact ⟨rfl, winner, counter, rfl⟩
      · exact absurd hd hne
    all_goals exact absurd hd hne

lemma Step.runStep {m m' : Machine} (hf : ForkOK m.sys) (h : Step m m') :
    RunStep m.sys m'.sys := by
  cases h with
  | sched c hc => exact schedStep_runStep hc _
  | call h _ => exact runStep_of_step hf h

lemma schedStep_forkOK {s : Sys} (hf : ForkOK s) (c : Fin NCPU) (a : SchedAt) :
    ForkOK (schedStep s c a).1 := by
  cases a with
  | pass1 k total_tickets =>
    -- pass 1 writes only the generator state
    dsimp only [schedStep]
    split_ifs <;> exact hf.rand_state _
  | pass2 k winner counter =>
    simp only [schedStep]
    split_ifs with h hr
    · exact (hf.setRunning hr).setCpu c _
    all_goals exact hf

lemma Runs.onCpu {s : Sys} (h : Runs s) : OnCpu s := fun _ p hc => (h.running p).2 ⟨_, hc⟩

/-- The steps of the machine keep both invariants: the running processes need the `kfork`s
in progress in order, and these need the CPUs to run `RUNNING` processes. -/
lemma Step.inv {m m' : Machine} (h : Step m m') (hr : Runs m.sys) (hf : ForkOK m.sys) :
    Runs m'.sys ∧ ForkOK m'.sys := by
  refine ⟨hr.runStep (h.runStep hf), ?_⟩
  cases h with
  | sched c _ => exact schedStep_forkOK hf c _
  | call hs _ => exact hf.step hr.onCpu hs

/-- **A step that gives CPU `c` the process `p` is a step of `c`'s pass 2 at slot `p`**, which
finds `p` `RUNNABLE` and leaves it `RUNNING`. -/
lemma Step.new_cpu {m m' : Machine} (h : Step m m') (hf : ForkOK m.sys) {c : Fin NCPU}
    {p : Fin NPROC} (hc : m'.sys.cpus c = some p) (hne : m.sys.cpus c ≠ some p) :
    (∃ winner counter, m.pc c = .pass2 p winner counter) ∧
      (m.sys.proc p).state = .RUNNABLE ∧ (m'.sys.proc p).state = .RUNNING := by
  obtain ⟨-, hr, hR⟩ := (h.runStep hf).new_cpu hc hne
  refine ⟨?_, hr, hR⟩
  cases h with
  | sched d hd =>
    obtain ⟨rfl, hpc⟩ := schedStep_new_cpu hc hne
    exact hpc
  | call hs hidle =>
    -- a call gives no idle CPU a process
    obtain ⟨hnone, -, -⟩ := (runStep_of_step hf hs).new_cpu hc hne
    rw [hidle c hnone] at hc
    cases hc

lemma inv_of_machine {m : Machine} (hr : Reachable (· = Machine.boot) Step m) :
    Runs m.sys ∧ ForkOK m.sys :=
  hr.induct (P := fun m => Runs m.sys ∧ ForkOK m.sys)
    (fun _ he => by subst he; exact ⟨runs_boot, forkOK_boot⟩) fun _ _ _ h hs => hs.inv h.1 h.2

/-- **The lottery scheduler never runs one process on two CPUs.** In every state of the
machine, however the steps of the CPUs' scheduler loops interleave with each other and with
the processes' calls, a slot is `RUNNING` exactly when one CPU runs it, and no two CPUs run
the same process. A step that gives a CPU a process is a step of that CPU's pass 2 visiting
the process's slot, which finds it `RUNNABLE` and makes it `RUNNING` in the same visit. -/
theorem lottery_runs_once {m : Machine} (hr : Reachable (· = Machine.boot) Step m) :
    (∀ p, (m.sys.proc p).state = .RUNNING ↔ ∃! c, m.sys.cpus c = some p) ∧
      (∀ c d p, m.sys.cpus c = some p → m.sys.cpus d = some p → c = d) ∧
      ∀ m', Step m m' → ∀ c p, m'.sys.cpus c = some p → m.sys.cpus c ≠ some p →
        (∃ winner counter, m.pc c = .pass2 p winner counter) ∧
          (m.sys.proc p).state = .RUNNABLE ∧ (m'.sys.proc p).state = .RUNNING := by
  obtain ⟨h, hf⟩ := inv_of_machine hr
  refine ⟨fun p => ?_, h.unique, fun m' hs c p hc hne => hs.new_cpu hf hc hne⟩
  rw [h.running p]
  exact ⟨fun ⟨c, hc⟩ => ⟨c, hc, fun d hd => h.unique d c p hd hc⟩, fun ⟨c, hc, _⟩ => ⟨c, hc⟩⟩

/-! ## A round run alone is the atomic round -/

open Relation

lemma slots_drop {k : ℕ} (hk : k < NPROC) : slots.drop k = ⟨k, hk⟩ :: slots.drop (k + 1) := by
  rw [List.drop_eq_getElem_cons (by simpa [slots] using hk)]
  simp [slots]

lemma slots_drop_of_le {k : ℕ} (hk : NPROC ≤ k) : slots.drop k = [] :=
  List.drop_eq_nil_of_le (by simpa [slots] using hk)

lemma Step.sched_at {s s' : Sys} {pc : Fin NCPU → SchedAt} {c : Fin NCPU} {a a' : SchedAt}
    (hc : s.cpus c = none) (h : schedStep s c a = (s', a')) :
    Step ⟨s, Function.update pc c a⟩ ⟨s', Function.update pc c a'⟩ := by
  have := Step.sched (m := ⟨s, Function.update pc c a⟩) c hc
  simpa [h] using this

/-- Pass 1 from slot `k`, with no other step in between, adds up the tickets as `ticketSum`
does over the slots from `k` on. -/
lemma pass1_run {s : Sys} {c : Fin NCPU} (hc : s.cpus c = none) (pc : Fin NCPU → SchedAt) :
    ∀ n k total_tickets, k + n = NPROC →
      ReflTransGen Step ⟨s, Function.update pc c (.pass1 k total_tickets)⟩
        ⟨s, Function.update pc c
          (.pass1 NPROC (ticketSum s.proc total_tickets (slots.drop k)))⟩ := by
  intro n
  induction n with
  | zero =>
    intro k total_tickets hk
    rw [slots_drop_of_le (by omega), ticketSum, show k = NPROC by omega]
  | succ n ih =>
    intro k total_tickets hk
    have hk' : k < NPROC := by omega
    rw [slots_drop hk', ticketSum]
    exact .head (Step.sched_at hc (by simp [schedStep, hk'])) (ih (k + 1) _ (by omega))

/-- The state after a round that picked `r`: `r` runs on CPU `c`. -/
def switchTo (s : Sys) (c : Fin NCPU) : Option (Fin NPROC) → Sys
  | none => s
  | some p => (s.setProc p { s.proc p with state := .RUNNING }).setCpu c (some p)

/-- Pass 2 from slot `k`, with no other step in between, switches to the slot `lotteryScan`
picks among the slots from `k` on, and goes back to the top of the loop. -/
lemma pass2_run {s : Sys} {c : Fin NCPU} (hc : s.cpus c = none) (pc : Fin NCPU → SchedAt)
    (winner : ℤ) : ∀ n k counter, k + n = NPROC →
      ReflTransGen Step ⟨s, Function.update pc c (.pass2 k winner counter)⟩
        ⟨switchTo s c (lotteryScan s.proc winner counter (slots.drop k)),
          Function.update pc c (.pass1 0 0)⟩ := by
  intro n
  induction n with
  | zero =>
    intro k counter hk
    rw [slots_drop_of_le (by omega), lotteryScan]
    exact .single (Step.sched_at hc (by simp [schedStep, show ¬k < NPROC by omega, switchTo]))
  | succ n ih =>
    intro k counter hk
    have hk' : k < NPROC := by omega
    rw [slots_drop hk', lotteryScan]
    by_cases hr : (s.proc ⟨k, hk'⟩).state = .RUNNABLE
    · by_cases hwin : i32 (counter + (s.proc ⟨k, hk'⟩).tickets) > winner
      · -- the winner: switch to it
        rw [if_pos hr, if_pos hwin]
        exact .single (Step.sched_at hc (by simp [schedStep, hk', hr, hwin, switchTo]))
      · rw [if_pos hr, if_neg hwin]
        exact .head (Step.sched_at hc (by simp [schedStep, hk', hr, hwin]))
          (ih (k + 1) _ (by omega))
    · rw [if_neg hr]
      exact .head (Step.sched_at hc (by simp [schedStep, hk', hr])) (ih (k + 1) _ (by omega))

lemma scheduler_eq (s : Sys) (c : Fin NCPU) :
    scheduler s c = switchTo { s with rand_state := (schedulerRound s.proc s.rand_state).2 } c
      (schedulerRound s.proc s.rand_state).1 := by
  unfold scheduler
  rcases schedulerRound s.proc s.rand_state with ⟨_ | p, rs⟩ <;> rfl

/-- **Run alone, a round of the loop is the atomic round.** From the top of its loop, the
steps of an idle CPU's scheduler, with no step of another CPU in between, reach the state
`Sched.scheduler` computes, back at the top of the loop. -/
theorem scheduler_refines {s : Sys} {c : Fin NCPU} (hc : s.cpus c = none)
    {pc : Fin NCPU → SchedAt} (hpc : pc c = .pass1 0 0) :
    ReflTransGen Step ⟨s, pc⟩ ⟨scheduler s c, pc⟩ := by
  have hpc' : Function.update pc c (.pass1 0 0) = pc := by rw [← hpc, Function.update_eq_self]
  rw [← hpc']
  -- pass 1 counts the tickets as `ticketSum` does
  have h₁ := pass1_run hc pc NPROC 0 0 (by omega)
  rw [List.drop_zero] at h₁
  refine h₁.trans ?_
  rw [scheduler_eq]
  unfold schedulerRound
  dsimp only
  by_cases hT : ticketSum s.proc 0 slots > 0
  · -- the draw, then pass 2 over the same table
    rw [if_pos hT]
    have h₂ := pass2_run (s := { s with rand_state := (random s.rand_state).2 })
      (by simpa using hc) pc ((random s.rand_state).1.tmod (ticketSum s.proc 0 slots)) NPROC 0 0
      (by omega)
    rw [List.drop_zero] at h₂
    dsimp only at h₂
    exact .head (Step.sched_at hc (by simp [schedStep, hT])) h₂
  · rw [if_neg hT]
    exact .single (Step.sched_at hc (by simp [schedStep, hT, switchTo]))

lemma idle_or_scheduler {s s' : Sys} (h : ProcStep.Step s s') :
    (∀ c, s.cpus c = none → s'.cpus c = none) ∨ ∃ c, s.cpus c = none ∧ s' = scheduler s c := by
  -- the other calls keep the CPUs, or take the caller off its own CPU
  have keep : ∀ {t : Sys}, t.cpus = s.cpus → ∀ c, s.cpus c = none → t.cpus c = none :=
    fun ht c hc => ht ▸ hc
  have stop : ∀ {t : Sys} (d : Fin NCPU) (p : Fin NPROC) (q : Proc), SameRun s t →
      ∀ c, s.cpus c = none → ((t.setProc p q).setCpu d none).cpus c = none := by
    intro t d p q ht c hc
    by_cases hcd : c = d <;> simp [hcd, ht.cpus, hc]
  cases h with
  | scheduler c hc => exact .inr ⟨c, hc, rfl⟩
  | userinit _ h => exact .inl (keep (sameRun_userinit h).cpus)
  | forkAlloc c p ok copyok _ _ => exact .inl (keep (kforkAlloc_cpus s p ok copyok))
  | forkParent c p np _ _ => exact .inl (keep rfl)
  | forkRun c p np _ _ => exact .inl (keep rfl)
  | settickets c p n _ _ _ => exact .inl (keep rfl)
  | yield c p _ => exact .inl (stop c p _ (SameRun.refl s))
  | sleep c p chan _ _ _ => exact .inl (stop c p _ (SameRun.refl s))
  | wakeup c chan => exact .inl (keep rfl)
  | kill c p pid _ _ _ => exact .inl (keep (sameRun_kkill s pid).cpus)
  | setkilled c p _ _ => exact .inl (keep rfl)
  | exit c p status _ _ h =>
    obtain ⟨t, ht, rfl⟩ := kexit_eq h
    exact .inl (stop c p _ ht)
  | wait c p copyfail _ _ =>
    rcases kwait_cases s c p copyfail with h | h
    · exact .inl (keep h.cpus)
    · rw [h]
      exact .inl (stop c p _ (SameRun.refl s))

/-- **The atomic model is one schedule of the machine.** Every state that the process
subsystem reaches with atomic scheduler rounds, the machine reaches with every CPU at the
top of its loop: each atomic round is the loop's steps run with nothing in between. -/
theorem machine_of_reach {s : Sys} (hr : ProcStep.Reach s) :
    Reachable (· = Machine.boot) Step ⟨s, fun _ => .pass1 0 0⟩ := by
  induction hr with
  | init he =>
    subst he
    exact .init rfl
  | step _ hs ih =>
    rcases idle_or_scheduler hs with hidle | ⟨c, hc, rfl⟩
    · exact ih.step (Step.call hs hidle)
    · exact ih.steps (scheduler_refines hc rfl)

/-- In every state the atomic model reaches, a process is `RUNNING` exactly when a CPU runs
it, and no process runs on two CPUs. -/
theorem runs_of_reach {s : Sys} (hr : ProcStep.Reach s) : Runs s :=
  (inv_of_machine (machine_of_reach hr)).1

/-- In every state the atomic model reaches, the `kfork`s in progress are in order. -/
theorem forkOK_of_reach {s : Sys} (hr : ProcStep.Reach s) : ForkOK s :=
  (inv_of_machine (machine_of_reach hr)).2

/-- `init` running on CPU 0, every other CPU at the top of its loop. -/
def initMachine : Machine := ⟨ProcStep.initRunning, fun _ => .pass1 0 0⟩

theorem lottery_runs_once_init :
    (∀ p, (initMachine.sys.proc p).state = .RUNNING ↔ ∃! c, initMachine.sys.cpus c = some p) ∧
      (∀ c d p, initMachine.sys.cpus c = some p → initMachine.sys.cpus d = some p → c = d) ∧
      ∀ m', Step initMachine m' → ∀ c p, m'.sys.cpus c = some p →
        initMachine.sys.cpus c ≠ some p →
        (∃ winner counter, initMachine.pc c = .pass2 p winner counter) ∧
          (initMachine.sys.proc p).state = .RUNNABLE ∧ (m'.sys.proc p).state = .RUNNING :=
  lottery_runs_once (machine_of_reach ProcStep.reach_initRunning)

end Xv6.Running
