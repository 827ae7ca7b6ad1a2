import Xv6.Running
import Xv6.Lib.Lcg

/-!
The lottery over many rounds.

A `RUNNABLE` process of a table that stays the same wins within any `2^32` consecutive
draws. The draw is the low 32 bits of the generator's 64-bit state, read as an `int`, and
those bits follow the generator modulo `2^32`: its multiplier `1664525` is `1` modulo `4` and
its increment `1013904223` is odd, so `Lib.Lcg` gives them every value within `2^32` draws,
among them the start of the process's ticket interval, which is below `INT_MAX`.
-/

namespace Xv6.Lottery

open Xv6.Param Xv6.Lib.Word Xv6.Lib.Lcg Xv6.Lib.Reach Xv6.Lib.PrefixPick Xv6.ProcTable
  Xv6.Sched Xv6.Fork Xv6.Running

/-! ## No process starves -/

/-- The generator state after `n` draws from `rs`. -/
def stateAfter (rs n : ℕ) : ℕ := (fun r => (random r).2)^[n] rs

lemma stateAfter_succ (rs n : ℕ) : stateAfter rs (n + 1) = (random (stateAfter rs n)).2 :=
  Function.iterate_succ_apply' _ n rs

/-- The low 32 bits of the state follow the generator modulo `2^32`. -/
lemma random_low (rs : ℕ) :
    (((random rs).2 : ℕ) : ZMod (2 ^ 32)) = affine 1664525 1013904223 (rs : ZMod (2 ^ 32)) := by
  simp only [random, affine]
  rw [cast_mod_of_dvd (pow_dvd_pow 2 (by norm_num))]
  push_cast
  ring

lemma stateAfter_low (rs n : ℕ) :
    ((stateAfter rs n : ℕ) : ZMod (2 ^ 32)) =
      (affine 1664525 1013904223)^[n] (rs : ZMod (2 ^ 32)) := by
  induction n with
  | zero => rfl
  | succ n ih => rw [stateAfter_succ, random_low, ih, Function.iterate_succ_apply']

/-- A draw whose state has low bits `v < 2^31` is `v`. -/
lemma random_draw_of_low {rs v : ℕ} (h : (((random rs).2 : ℕ) : ZMod (2 ^ 32)) = v)
    (hv : v < 2 ^ 31) : (random rs).1 = v := by
  have hm : (random rs).2 % 2 ^ 32 = v := by
    rw [ZMod.natCast_eq_natCast_iff'] at h
    rw [h, Nat.mod_eq_of_lt (by omega)]
  have hd : (random rs).1 = i32 ((random rs).2 : ℤ) := rfl
  rw [hd, i32, toSigned]
  omega

/-- The generator's constants meet the conditions of full period modulo `2^32`. -/
lemma multiplier_mod_four : ∃ t : ZMod (2 ^ 32), (1664525 : ZMod (2 ^ 32)) = 1 + 4 * t :=
  ⟨416131, by norm_num⟩

lemma increment_odd : ∃ s : ZMod (2 ^ 32), (1013904223 : ZMod (2 ^ 32)) = 2 * s + 1 :=
  ⟨506952111, by norm_num⟩

variable {t : Fin NPROC → Proc}

lemma total_take_le (xs : List (Fin NPROC)) (k : ℕ) :
    total (fun i => share (t i)) (xs.take k) ≤ total (fun i => share (t i)) xs := by
  conv_rhs => rw [← List.take_append_drop k xs]
  simp only [total, List.map_append, List.sum_append]
  omega

/-- The start of the ticket interval of slot `p`: the shares of the slots before it. -/
def start (t : Fin NPROC → Proc) (p : Fin NPROC) : ℕ :=
  total (fun i => share (t i)) (slots.take p)

/-- A draw at the start of a slot's interval picks the slot, if it has a share. -/
lemma pick_start {p : Fin NPROC} (hp : 1 ≤ share (t p)) :
    pick (fun i => share (t i)) (start t p) slots = some p := by
  have hlen : (p : ℕ) < slots.length := by simp [slots]
  have hget : slots[(p : ℕ)] = p := by simp [slots]
  rw [pick_eq_some_iff]
  refine ⟨p, hlen, hget, le_rfl, ?_⟩
  rw [total_take_succ _ _ hlen, hget, start]
  omega

lemma start_add_share_le (p : Fin NPROC) : start t p + share (t p) ≤ totalTickets t := by
  have hlen : (p : ℕ) < slots.length := by simp [slots]
  have hget : slots[(p : ℕ)] = p := by simp [slots]
  have h := total_take_le (t := t) slots (p + 1)
  rw [total_take_succ _ _ hlen, hget] at h
  exact h

theorem lottery_no_starvation (hf : Fair t) (rs n : ℕ) {p : Fin NPROC}
    (hp : (t p).state = .RUNNABLE) :
    ∃ k < 2 ^ 32, (schedulerRound t (stateAfter rs (n + k))).1 = some p := by
  have hsh : 1 ≤ share (t p) := by
    have := hf.pos p hp
    simp only [share, hp, if_true]
    omega
  have hle := start_add_share_le (t := t) p
  have hT : 0 < totalTickets t := by omega
  have hlo : start t p < 2 ^ 31 := by
    have := hf.le
    unfold INT_MAX at this
    omega
  -- the states after draws `n + 1`, ..., `n + 2^32` take every value of their low bits
  obtain ⟨k, hk, hx⟩ := exists_iterate_eq multiplier_mod_four increment_odd
    ((stateAfter rs (n + 1) : ℕ) : ZMod (2 ^ 32)) (start t p : ZMod (2 ^ 32))
  refine ⟨k, hk, ?_⟩
  have hlow : (((random (stateAfter rs (n + k))).2 : ℕ) : ZMod (2 ^ 32)) = start t p := by
    rw [← stateAfter_succ, stateAfter_low, show n + k + 1 = k + (n + 1) by omega,
      Function.iterate_add_apply, ← stateAfter_low, hx]
  have hdraw := random_draw_of_low hlow hlo
  obtain ⟨hround, -⟩ := schedulerRound_of_draw_nonneg hf hT (stateAfter rs (n + k))
    (by rw [hdraw]; exact Int.natCast_nonneg _)
  rw [hround, hdraw]
  have hmod : ((start t p : ℤ) % (totalTickets t : ℤ)).toNat = start t p := by
    rw [Int.emod_eq_of_lt (Int.natCast_nonneg _) (by omega)]
    simp
  rw [hmod]
  exact pick_start hsh

/-- At the table of two `RUNNABLE` slots with one and two tickets, slot 0 wins within
`2^32` draws from state `1`. -/
theorem lottery_no_starvation_tableNegDraw :
    Fair tableNegDraw ∧ (tableNegDraw 0).state = .RUNNABLE ∧
      ∃ k < 2 ^ 32, (schedulerRound tableNegDraw (stateAfter 1 (0 + k))).1 = some 0 :=
  ⟨⟨by decide, by decide⟩, rfl,
    lottery_no_starvation ⟨by decide, by decide⟩ 1 0 (p := 0) rfl⟩

/-! ## Every slot in use holds a ticket -/

/-- A slot in use holds at least one ticket. -/
def Holds (p : Proc) : Prop := p.state ≠ .UNUSED → 1 ≤ p.tickets

/-- Every slot in use holds at least one ticket. -/
def TicketsOK (s : Sys) : Prop := ∀ i, Holds (s.proc i)

lemma holds_of_unused {q : Proc} (h : q.state = .UNUSED) : Holds q := fun hq => absurd h hq

lemma holds_of_le {q : Proc} (h : 1 ≤ q.tickets) : Holds q := fun _ => h

/-- A slot that keeps its tickets and is in use only if it was. -/
lemma Holds.keep {p q : Proc} (h : Holds p) (ht : q.tickets = p.tickets)
    (hs : q.state ≠ .UNUSED → p.state ≠ .UNUSED) : Holds q :=
  fun hq => ht ▸ h (hs hq)

namespace TicketsOK

variable {s : Sys}

lemma setProc (h : TicketsOK s) {i : Fin NPROC} {q : Proc} (hq : Holds q) :
    TicketsOK (s.setProc i q) := by
  intro j
  by_cases hj : j = i
  · subst hj
    simpa using hq
  · simpa [hj] using h j

/-- Writing a slot in use with one that keeps its tickets. -/
lemma setProc_of_used (h : TicketsOK s) {i : Fin NPROC} {q : Proc}
    (hi : (s.proc i).state ≠ .UNUSED) (hq : q.tickets = (s.proc i).tickets) :
    TicketsOK (s.setProc i q) :=
  h.setProc (holds_of_le (hq ▸ h i hi))

end TicketsOK

variable {s : Sys}

lemma ticketsOK_boot : TicketsOK boot := fun _ => holds_of_unused rfl

lemma ticketsOK_toScheduler (h : TicketsOK s) (c : Fin NCPU) : TicketsOK (toScheduler s c) := h

lemma ticketsOK_wakeup (h : TicketsOK s) (me : Option (Fin NPROC)) (chan : Chan) :
    TicketsOK (wakeup s me chan) := by
  intro i
  simp only [wakeup]
  split_ifs with hw
  · exact (h i).keep rfl fun _ => by simp [hw.2.1]
  · exact h i

lemma ticketsOK_reparentAt (h : TicketsOK s) (p pp : Fin NPROC) :
    TicketsOK (reparentAt p s pp) := by
  unfold reparentAt
  split_ifs
  · refine ticketsOK_wakeup (h.setProc ?_) _ _
    exact (h pp).keep rfl id
  · exact h

lemma ticketsOK_reparent (h : TicketsOK s) (p : Fin NPROC) : TicketsOK (reparent s p) := by
  suffices h' : ∀ (l : List (Fin NPROC)) (t : Sys), TicketsOK t →
      TicketsOK (l.foldl (reparentAt p) t) from h' _ s h
  intro l
  induction l with
  | nil => exact fun _ ht => ht
  | cons pp l ih => exact fun t ht => ih _ (ticketsOK_reparentAt ht p pp)

/-- `allocproc` gives the slot it takes ten tickets, and frees it again when it fails. -/
lemma ticketsOK_allocproc (h : TicketsOK s) (ok : Bool) : TicketsOK (allocproc s ok).2 := by
  unfold allocproc allocpid
  split
  · exact h
  · rename_i i _
    dsimp only
    have h₁ : TicketsOK (({ s with nextpid := i32 (s.nextpid + 1) } : Sys).setProc i
        { s.proc i with pid := s.nextpid, tickets := 10, state := .USED }) :=
      TicketsOK.setProc h (holds_of_le (by norm_num))
    cases ok
    · exact h₁.setProc (holds_of_unused rfl)
    · exact h₁

lemma ticketsOK_userinit {s' : Sys} (h : TicketsOK s) (hs : userinit s = some s') :
    TicketsOK s' := by
  unfold userinit at hs
  have h₁ := ticketsOK_allocproc h true
  have hused := (allocproc_cases s true).2
  rcases ha : allocproc s true with ⟨_ | i, s₁⟩ <;> rw [ha] at hs h₁ hused <;>
    dsimp only at hs h₁ hused
  · cases hs
  · cases hs
    have h₂ : TicketsOK (s₁.setProc i { s₁.proc i with state := .RUNNABLE }) :=
      h₁.setProc_of_used (by simp [hused i rfl]) rfl
    exact h₂

/-- The child of `kfork` inherits the tickets of its parent, which is running. -/
lemma ticketsOK_kforkAlloc (h : TicketsOK s) {p : Fin NPROC} (hp : (s.proc p).state = .RUNNING)
    (ok copyok : Bool) : TicketsOK (kforkAlloc s p ok copyok).2 := by
  unfold kforkAlloc
  have h₁ := ticketsOK_allocproc h ok
  have hrun := (allocproc_cases s ok).1
  rcases ha : allocproc s ok with ⟨_ | np, s₁⟩ <;> rw [ha] at h₁ hrun <;> dsimp only at h₁ hrun ⊢
  · exact h₁
  · have hp₁ : (s₁.proc p).state ≠ .UNUSED := by simp [(hrun.running p).2 hp]
    cases copyok
    · rw [if_neg Bool.false_ne_true]
      exact h₁.setProc (holds_of_unused rfl)
    · rw [if_pos rfl]
      exact h₁.setProc (holds_of_le (h₁ p hp₁))

lemma ticketsOK_kforkParent (h : TicketsOK s) (p np : Fin NPROC) :
    TicketsOK (kforkParent s p np) :=
  h.setProc ((h np).keep rfl id)

/-- The child the third section makes `RUNNABLE` is `USED`, so it holds a ticket. -/
lemma ticketsOK_kforkRun (h : TicketsOK s) (hf : ForkOK s) {p np : Fin NPROC}
    (hrn : s.forking p = .run np) : TicketsOK (kforkRun s p np) :=
  h.setProc_of_used (by simp [(hf.run p np hrn).1]) rfl

lemma ticketsOK_scheduler (h : TicketsOK s) (c : Fin NCPU) : TicketsOK (scheduler s c) := by
  unfold scheduler
  split
  · exact h
  · rename_i p rs hround
    -- the winner is `RUNNABLE`, so it holds a ticket
    have h₁ : TicketsOK (s.setProc p { s.proc p with state := .RUNNING }) :=
      h.setProc_of_used (by simp [schedulerRound_runnable hround]) rfl
    exact h₁

lemma ticketsOK_yield (h : TicketsOK s) {p : Fin NPROC} (hp : (s.proc p).state ≠ .UNUSED)
    (c : Fin NCPU) : TicketsOK (yield s c p) := by
  refine ticketsOK_toScheduler (h.setProc_of_used hp ?_) c
  rfl

lemma ticketsOK_sleep (h : TicketsOK s) {p : Fin NPROC} (hp : (s.proc p).state ≠ .UNUSED)
    (c : Fin NCPU) (chan : Chan) : TicketsOK (sleep s c p chan) := by
  refine ticketsOK_toScheduler (h.setProc_of_used hp ?_) c
  rfl

lemma ticketsOK_kexit {s' : Sys} (h : TicketsOK s) {c : Fin NCPU} {p : Fin NPROC} {status : ℤ}
    (hp : (s.proc p).state = .RUNNING) (hs : kexit s c p status = some s') : TicketsOK s' := by
  unfold kexit at hs
  split_ifs at hs
  cases hs
  set s₁ := wakeup (reparent s p) (some p) (chanOf ((reparent s p).proc p).parent)
  have h₁ : TicketsOK s₁ := ticketsOK_wakeup (ticketsOK_reparent h p) _ _
  -- `p` is still running when it becomes a `ZOMBIE`
  have hrun : (s₁.proc p).state = .RUNNING :=
    (((sameRun_reparent s p).trans (sameRun_wakeup _ _ _)).running p).2 hp
  have h₂ : TicketsOK (s₁.setProc p { s₁.proc p with xstate := status, state := .ZOMBIE }) :=
    h₁.setProc_of_used (by simp [hrun]) rfl
  exact ticketsOK_toScheduler h₂ c

lemma ticketsOK_kwait (h : TicketsOK s) {c : Fin NCPU} {p : Fin NPROC}
    (hp : (s.proc p).state ≠ .UNUSED) (copyfail : Bool) : TicketsOK (kwait s c p copyfail).2 := by
  unfold kwait
  split
  · split_ifs
    · exact h
    · exact h.setProc (holds_of_unused rfl)
  · split_ifs
    · exact h
    · exact ticketsOK_sleep h hp c _

lemma ticketsOK_kkill (h : TicketsOK s) (pid : ℤ) : TicketsOK (kkill s pid).2 := by
  unfold kkill
  split
  · exact h
  · rename_i i _
    refine h.setProc ((h i).keep rfl ?_)
    dsimp only
    split_ifs with hs <;> simp [hs]

lemma ticketsOK_setkilled (h : TicketsOK s) (p : Fin NPROC) : TicketsOK (setkilled s p) :=
  h.setProc ((h p).keep rfl id)

/-- `sys_settickets` counts an argument below one as one ticket. -/
lemma ticketsOK_settickets (h : TicketsOK s) (p : Fin NPROC) (n : ℤ) :
    TicketsOK (sys_settickets s p n) :=
  h.setProc (holds_of_le (by dsimp only; split_ifs <;> omega))

/-- **Every step keeps a ticket in every slot in use.** The callers of `kfork`, `yield`,
`sleep`, `kexit` and `kwait` are `RUNNING`, by `Runs`, and the child a third section of
`kfork` makes `RUNNABLE` is `USED`, by `ForkOK`. -/
theorem ticketsOK_step {s' : Sys} (hr : Runs s) (hf : ForkOK s) (h : TicketsOK s)
    (hs : ProcStep.Step s s') : TicketsOK s' := by
  have hrun : ∀ {c p}, s.cpus c = some p → (s.proc p).state = .RUNNING :=
    fun hc => (hr.running _).2 ⟨_, hc⟩
  have hused : ∀ {c p}, s.cpus c = some p → (s.proc p).state ≠ .UNUSED :=
    fun hc => by simp [hrun hc]
  cases hs with
  | userinit _ h' => exact ticketsOK_userinit h h'
  | scheduler c _ => exact ticketsOK_scheduler h c
  | forkAlloc c p ok copyok hc _ => exact ticketsOK_kforkAlloc h (hrun hc) ok copyok
  | forkParent c p np _ _ => exact ticketsOK_kforkParent h p np
  | forkRun c p np _ hrn => exact ticketsOK_kforkRun h hf hrn
  | settickets c p n _ _ _ => exact ticketsOK_settickets h p n
  | yield c p hc => exact ticketsOK_yield h (hused hc) c
  | sleep c p chan hc _ _ => exact ticketsOK_sleep h (hused hc) c chan
  | wakeup c chan => exact ticketsOK_wakeup h _ chan
  | kill c p pid _ _ _ => exact ticketsOK_kkill h pid
  | setkilled c p _ _ => exact ticketsOK_setkilled h p
  | exit c p status hc _ h' => exact ticketsOK_kexit h (hrun hc) h'
  | wait c p copyfail hc _ => exact ticketsOK_kwait h (hused hc) copyfail

theorem ticketsOK_of_reach (hr : ProcStep.Reach s) : TicketsOK s :=
  hr.induct (P := TicketsOK) (fun _ he => by subst he; exact ticketsOK_boot)
    fun _ _ hr h hs => ticketsOK_step (runs_of_reach hr) (forkOK_of_reach hr) h hs

/-- **Every slot in use holds a ticket.** In every reachable state each slot that is not
`UNUSED` has at least one ticket, so each `RUNNABLE` slot has a share of at least one in the
lottery, and the draw at the start of its interval, below the total of the shares, picks it. -/
theorem live_tickets_pos (hr : ProcStep.Reach s) :
    (∀ i, (s.proc i).state ≠ .UNUSED → 1 ≤ (s.proc i).tickets) ∧
    ∀ i, (s.proc i).state = .RUNNABLE → 1 ≤ share (s.proc i) ∧
      ∃ r < totalTickets s.proc, pick (fun j => share (s.proc j)) r slots = some i := by
  have h := ticketsOK_of_reach hr
  refine ⟨h, fun i hi => ?_⟩
  have hsh : 1 ≤ share (s.proc i) := by
    have := h i (by simp [hi])
    simp only [share, hi, if_true]
    omega
  refine ⟨hsh, start s.proc i, ?_, pick_start hsh⟩
  have := start_add_share_le (t := s.proc) i
  omega

theorem live_tickets_pos_initRunning :
    (∀ i, (ProcStep.initRunning.proc i).state ≠ .UNUSED →
      1 ≤ (ProcStep.initRunning.proc i).tickets) ∧
    ∀ i, (ProcStep.initRunning.proc i).state = .RUNNABLE →
      1 ≤ share (ProcStep.initRunning.proc i) ∧
      ∃ r < totalTickets ProcStep.initRunning.proc,
        pick (fun j => share (ProcStep.initRunning.proc j)) r slots = some i :=
  live_tickets_pos ProcStep.reach_initRunning

end Xv6.Lottery
