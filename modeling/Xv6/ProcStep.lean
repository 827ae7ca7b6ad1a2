import Xv6.Sched
import Xv6.Lib.Reach

/-!
The process subsystem as a transition system.

A step is one operation of `proc.c` or `sysproc.c`, run atomically by a CPU: the
scheduler of an idle CPU, or the process a CPU runs taking a section of `kfork` or calling
`sys_settickets`, `yield`, `sleep`, `wakeup`, `kkill`, `setkilled`, `kexit` or `kwait`. The
first step is `userinit`. A process inside `kfork` takes only its next section, or the `yield`
of a timer interrupt in `kerneltrap`; interrupt handlers call `wakeup` at any time. Integer
arguments that come from user space are C `int`s.
-/

namespace Xv6.ProcStep

open Xv6.Param Xv6.Lib.Word Xv6.Lib.Reach Xv6.ProcTable Xv6.Sched

/-- An integer argument fetched by `argint`. -/
def IsInt (n : ℤ) : Prop := -2 ^ 31 ≤ n ∧ n ≤ INT_MAX

/-- The steps of the process subsystem. -/
inductive Step : Sys → Sys → Prop
  | userinit {s s' : Sys} : s.initproc = none → userinit s = some s' → Step s s'
  | scheduler {s : Sys} (c : Fin NCPU) : s.cpus c = none → Step s (scheduler s c)
  | forkAlloc {s : Sys} (c : Fin NCPU) (p : Fin NPROC) (ok copyok : Bool) :
      s.cpus c = some p → s.forking p = .idle → Step s (kforkAlloc s p ok copyok).2
  | forkParent {s : Sys} (c : Fin NCPU) (p np : Fin NPROC) :
      s.cpus c = some p → s.forking p = .parent np → Step s (kforkParent s p np)
  | forkRun {s : Sys} (c : Fin NCPU) (p np : Fin NPROC) :
      s.cpus c = some p → s.forking p = .run np → Step s (kforkRun s p np)
  | settickets {s : Sys} (c : Fin NCPU) (p : Fin NPROC) (n : ℤ) :
      s.cpus c = some p → s.forking p = .idle → IsInt n → Step s (sys_settickets s p n)
  | yield {s : Sys} (c : Fin NCPU) (p : Fin NPROC) : s.cpus c = some p → Step s (yield s c p)
  | sleep {s : Sys} (c : Fin NCPU) (p : Fin NPROC) (chan : Chan) :
      s.cpus c = some p → s.forking p = .idle → chan ≠ .null → Step s (sleep s c p chan)
  | wakeup {s : Sys} (c : Fin NCPU) (chan : Chan) : Step s (wakeup s (s.cpus c) chan)
  | kill {s : Sys} (c : Fin NCPU) (p : Fin NPROC) (pid : ℤ) :
      s.cpus c = some p → s.forking p = .idle → IsInt pid → Step s (kkill s pid).2
  | setkilled {s : Sys} (c : Fin NCPU) (p : Fin NPROC) :
      s.cpus c = some p → s.forking p = .idle → Step s (setkilled s p)
  | exit {s s' : Sys} (c : Fin NCPU) (p : Fin NPROC) (status : ℤ) :
      s.cpus c = some p → s.forking p = .idle → kexit s c p status = some s' → Step s s'
  | wait {s : Sys} (c : Fin NCPU) (p : Fin NPROC) (copyfail : Bool) :
      s.cpus c = some p → s.forking p = .idle → Step s (kwait s c p copyfail).2

abbrev Reach : Sys → Prop := Reachable (· = boot) Step

/-! ### `kfork` run through -/

/-- A `kfork` whose three sections run one after another, by the process on CPU `c`, reaches
the state `kfork` computes. -/
lemma reach_kfork {s : Sys} (hr : Reach s) {c : Fin NCPU} {p : Fin NPROC}
    (hc : s.cpus c = some p) (hf : s.forking p = .idle) (ok copyok : Bool) :
    Reach (kfork s p ok copyok).2 := by
  have h₁ := hr.step (Step.forkAlloc c p ok copyok hc hf)
  have hc₁ := kforkAlloc_cpus s p ok copyok
  unfold kfork
  rcases ha : kforkAlloc s p ok copyok with ⟨_ | np, s₁⟩ <;> rw [ha] at h₁ hc₁ <;>
    dsimp only at h₁ hc₁ ⊢
  · exact h₁
  · -- the second and the third section, by the same process on the same CPU
    have h₂ := h₁.step (Step.forkParent c p np (by rw [hc₁]; exact hc) (kforkAlloc_forking ha))
    exact h₂.step (Step.forkRun c p np (by simp [kforkParent, hc₁, hc]) (by simp [kforkParent]))

/-! ### After boot: the first process running -/

def afterUserinit : Sys := (userinit boot).getD boot

def initRunning : Sys := scheduler afterUserinit 0

lemma reach_initRunning : Reach initRunning := by
  have h0 : Reach boot := Reachable.init rfl
  have h1 : Reach afterUserinit := h0.step (Step.userinit rfl rfl)
  exact h1.step (Step.scheduler 0 rfl)

lemma initRunning_cpu : initRunning.cpus 0 = some 0 := by decide

lemma initRunning_forking : initRunning.forking 0 = .idle := by decide

/-! ### The ticket sum overflows -/

/-- `init` takes `INT_MAX` tickets, forks a child that inherits them, and yields. -/
def twoMax : Sys :=
  yield (kfork (sys_settickets initRunning 0 INT_MAX) 0 true true).2 0 0

lemma reach_twoMax : Reach twoMax := by
  have h1 := reach_initRunning.step (Step.settickets 0 0 INT_MAX initRunning_cpu
    initRunning_forking (by unfold IsInt INT_MAX; omega))
  have h2 := reach_kfork h1 (c := 0) initRunning_cpu initRunning_forking true true
  exact h2.step (Step.yield 0 0 (by decide))

/-- **Two `RUNNABLE` processes with `INT_MAX` tickets idle the CPU.** The state is
reachable; slots 0 and 1 are `RUNNABLE` with `INT_MAX` tickets each; their sum does not fit
in an `int`, pass 1 computes `-2`, and the round runs nothing. -/
theorem ticketSum_overflow_idles :
    Reach twoMax ∧
    (twoMax.proc 0).state = .RUNNABLE ∧ (twoMax.proc 0).tickets = INT_MAX ∧
    (twoMax.proc 1).state = .RUNNABLE ∧ (twoMax.proc 1).tickets = INT_MAX ∧
    INT_MAX < (twoMax.proc 0).tickets + (twoMax.proc 1).tickets ∧
    ticketSum twoMax.proc 0 slots = -2 ∧
    (schedulerRound twoMax.proc twoMax.rand_state).1 = none := by
  refine ⟨reach_twoMax, by decide, by decide, by decide, by decide, by decide, by decide,
    by decide⟩

/-! ### `kkill(0)` kills an unused slot -/

/-- `init` calls `kill(0)`: the first slot with pid 0 is the unused slot 1. -/
def killedUnused : Sys := (kkill initRunning 0).2

/-- **A fork child can start life killed.** From a reachable state, `kkill(0)` succeeds
by marking the `UNUSED` slot 1 killed; the next `kfork` puts its child, pid 2, in that
slot, `RUNNABLE` and already killed. -/
theorem kill_zero_kills_child :
    (kkill initRunning 0).1 = 0 ∧ Reach killedUnused ∧
    (killedUnused.proc 1).state = .UNUSED ∧ (killedUnused.proc 1).killed = 1 ∧
    (kfork killedUnused 0 true true).1 = 2 ∧
    ((kfork killedUnused 0 true true).2.proc 1).state = .RUNNABLE ∧
    ((kfork killedUnused 0 true true).2.proc 1).killed = 1 := by
  refine ⟨by decide, reach_initRunning.step (Step.kill 0 0 0 initRunning_cpu initRunning_forking
    (by unfold IsInt INT_MAX; omega)), by decide, by decide, by decide, by decide, by decide⟩

/-! ### `nextpid` wraps -/

/-- The table after a `kfork` by `init` whose `allocproc` failed: slot 1 is given back with the
pid spent, and `nextpid` is `n`. -/
def spent (n : ℤ) : Sys := { (kfork initRunning 0 false true).2 with nextpid := n }

lemma kfork_spent (n : ℤ) : (kfork (spent n) 0 false true).2 = spent (i32 (n + 1)) := by
  have h1 : firstUnused (spent n).proc = some 1 := by
    show firstUnused (spent 0).proc = some 1
    decide
  have hslot : (spent 0).proc 1 = { Proc.zero with tickets := 10 } := by decide
  unfold kfork kforkAlloc allocproc
  rw [h1]
  simp only [allocpid, Bool.false_eq_true, if_false]
  simp only [Sys.setProc, spent, Function.update_idem]
  -- `freeproc` gives slot 1 back as it was, whatever pid it was handed
  congr 1
  rw [Function.update_eq_self_iff]
  exact hslot.symm ▸ rfl

lemma spent_cpu (n : ℤ) : (spent n).cpus 0 = some 0 := by
  show (spent 0).cpus 0 = some 0
  decide

lemma spent_forking (n : ℤ) : (spent n).forking 0 = .idle := by
  show (spent 0).forking 0 = .idle
  decide

/-- Each failed `kfork` is a step, so `nextpid` runs through every `int` value. By induction on
the number of failed forks. -/
lemma reach_spent (k : ℕ) : Reach (spent (i32 (3 + k))) := by
  induction k with
  | zero => exact reach_kfork reach_initRunning initRunning_cpu initRunning_forking false true
  | succ k ih =>
    have he : i32 (i32 (3 + k) + 1) = i32 (3 + ((k + 1 : ℕ) : ℤ)) := by
      unfold i32
      rw [toSigned_add_left, Nat.cast_add, Nat.cast_one, add_assoc]
    have h := reach_kfork ih (spent_cpu _) (spent_forking _) false true
    rwa [kfork_spent, he] at h

/-- **Live pids go negative and repeat.** After `2^31 - 3` failed forks of `init` `nextpid` has
wrapped to `-2^31`, and the next `kfork` makes a `RUNNABLE` child of that pid; after `2^32 - 2`
it is back at `1`, and the next child has the pid `1` of `init`, which is still running. -/
theorem pids_wrap :
    (∃ s, Reach s ∧ (s.proc 1).state = .RUNNABLE ∧ (s.proc 1).pid = -2 ^ 31) ∧
    ∃ s, Reach s ∧ s.initproc = some 0 ∧ (s.proc 0).state = .RUNNING ∧
      (s.proc 1).state = .RUNNABLE ∧ (s.proc 0).pid = 1 ∧ (s.proc 1).pid = 1 := by
  have hneg : i32 (3 + ((2 ^ 31 - 3 : ℕ) : ℤ)) = -2 ^ 31 := by decide
  have hone : i32 (3 + ((2 ^ 32 - 2 : ℕ) : ℤ)) = 1 := by decide
  have r₁ := reach_spent (2 ^ 31 - 3)
  have r₂ := reach_spent (2 ^ 32 - 2)
  rw [hneg] at r₁
  rw [hone] at r₂
  refine ⟨⟨_, reach_kfork r₁ (spent_cpu _) (spent_forking _) true true, by decide, by decide⟩,
    ⟨_, reach_kfork r₂ (spent_cpu _) (spent_forking _) true true, by decide, by decide, by decide,
      by decide, by decide⟩⟩

end Xv6.ProcStep
