import Xv6.ProcTable
import Xv6.Lib.PrefixPick

/-!
The lottery scheduler of `proc.c`.

A round of `scheduler` makes two passes over the table. The first adds up the tickets of
the `RUNNABLE` slots in `int`; if the sum is positive, a number is drawn from the
generator `random`, reduced with C's `%` by the sum, and the second pass walks the slots
again, adding up the tickets of the `RUNNABLE` ones until the running sum exceeds the draw.
The table is taken to be the same in both passes, as each round's two loops see it when
no other CPU changes it in between.

The generator keeps 64 bits of state and returns them as an `int`, so a draw is negative
whenever bit 31 of the state is set; C's `%` then gives a negative winner, and the first
`RUNNABLE` slot wins whatever its tickets. For a non-negative draw the round is the
prefix-sum choice of `Lib.PrefixPick`, with each slot's share its tickets.
-/

namespace Xv6.Sched

open Xv6.Param Xv6.Lib.Word Xv6.Lib.PrefixPick Xv6.ProcTable

/-- `random`: one step of the 64-bit linear congruential generator; the result is the new
state converted to `int`. -/
def random (rand_state : ℕ) : ℤ × ℕ :=
  let rand_state : ℕ := (rand_state * 1664525 + 1013904223) % 2 ^ 64
  (i32 (rand_state : ℤ), rand_state)

/-- The loop of pass 1: the tickets of the `RUNNABLE` slots of `is` added to `total`. -/
def ticketSum (t : Fin NPROC → Proc) : ℤ → List (Fin NPROC) → ℤ
  | total, [] => total
  | total, i :: is =>
    ticketSum t (if (t i).state = .RUNNABLE then i32 (total + (t i).tickets) else total) is

/-- The loop of pass 2: the first `RUNNABLE` slot of `is` at which the running sum of
tickets, started at `counter`, exceeds `winner`. -/
def lotteryScan (t : Fin NPROC → Proc) (winner : ℤ) : ℤ → List (Fin NPROC) → Option (Fin NPROC)
  | _, [] => none
  | counter, i :: is =>
    if (t i).state = .RUNNABLE then
      if i32 (counter + (t i).tickets) > winner then some i
      else lotteryScan t winner (i32 (counter + (t i).tickets)) is
    else lotteryScan t winner counter is

def slots : List (Fin NPROC) := List.finRange NPROC

/-- One round of `scheduler` over table `t`: the slot it runs, if any, and the generator
state after it. `random` is called only when the ticket sum is positive. -/
def schedulerRound (t : Fin NPROC → Proc) (rand_state : ℕ) : Option (Fin NPROC) × ℕ :=
  let total_tickets := ticketSum t 0 slots
  if total_tickets > 0 then
    let (r, rand_state) := random rand_state
    (lotteryScan t (r.tmod total_tickets) 0 slots, rand_state)
  else (none, rand_state)

/-- A round of `scheduler` on CPU `c`: the winner becomes `RUNNING` on `c`. A round with
no winner leaves the table as it was and the CPU waits (`wfi`). -/
def scheduler (s : Sys) (c : Fin NCPU) : Sys :=
  match schedulerRound s.proc s.rand_state with
  | (none, rand_state) => { s with rand_state := rand_state }
  | (some p, rand_state) =>
    { (s.setProc p { s.proc p with state := .RUNNING }).setCpu c (some p) with
      rand_state := rand_state }

lemma lotteryScan_runnable (t : Fin NPROC → Proc) (winner : ℤ) (is : List (Fin NPROC)) :
    ∀ counter p, lotteryScan t winner counter is = some p → (t p).state = .RUNNABLE := by
  induction is with
  | nil => intro _ _ h; simp [lotteryScan] at h
  | cons i is ih =>
    intro counter p h
    simp only [lotteryScan] at h
    split_ifs at h with hr
    · cases h
      exact hr
    · exact ih _ _ h
    · exact ih _ _ h

lemma schedulerRound_runnable {t : Fin NPROC → Proc} {rs rs' : ℕ} {p : Fin NPROC}
    (h : schedulerRound t rs = (some p, rs')) : (t p).state = .RUNNABLE := by
  unfold schedulerRound at h
  dsimp only at h
  split_ifs at h
  · exact lotteryScan_runnable t _ slots 0 p (Prod.mk.inj h).1
  · simp at h

/-! ### The round as a prefix-sum choice -/

def share (p : Proc) : ℕ := if p.state = .RUNNABLE then p.tickets.toNat else 0

def totalTickets (t : Fin NPROC → Proc) : ℕ := total (fun i => share (t i)) slots

/-- Every `RUNNABLE` slot holds a ticket, and the ticket total fits in an `int`. On such a
table pass 1 computes the total, and each `RUNNABLE` slot wins for the draws of an interval
as long as its tickets. -/
structure Fair (t : Fin NPROC → Proc) : Prop where
  pos : ∀ i, (t i).state = .RUNNABLE → 1 ≤ (t i).tickets
  le : (totalTickets t : ℤ) ≤ INT_MAX

lemma share_of_runnable {p : Proc} (h : p.state = .RUNNABLE) (ht : 0 ≤ p.tickets) :
    (share p : ℤ) = p.tickets := by
  simp [share, h, ht]

lemma share_of_not_runnable {p : Proc} (h : p.state ≠ .RUNNABLE) : share p = 0 := by
  simp [share, h]

variable {t : Fin NPROC → Proc}

lemma ticketSum_eq (is : List (Fin NPROC)) (total0 : ℤ) (h0 : 0 ≤ total0)
    (hnn : ∀ i ∈ is, (t i).state = .RUNNABLE → 0 ≤ (t i).tickets)
    (hle : total0 + total (fun i => share (t i)) is ≤ INT_MAX) :
    ticketSum t total0 is = total0 + total (fun i => share (t i)) is := by
  induction is generalizing total0 with
  | nil => simp [ticketSum]
  | cons i is ih =>
    rw [total_cons] at hle ⊢
    simp only [ticketSum]
    have hrest : ∀ j ∈ is, (t j).state = .RUNNABLE → 0 ≤ (t j).tickets :=
      fun j hj => hnn j (List.mem_cons_of_mem i hj)
    by_cases hr : (t i).state = .RUNNABLE
    · have hti := share_of_runnable hr (hnn i (by simp) hr)
      rw [if_pos hr, i32_of_mem (by omega) (by push_cast at hle; omega),
        ih _ (by omega) hrest (by push_cast at hle; omega)]
      push_cast; omega
    · rw [if_neg hr, share_of_not_runnable hr,
        ih _ h0 hrest (by simpa [share_of_not_runnable hr] using hle)]
      simp

/-- Without overflow, pass 2 from a running sum at most the winner picks the slot whose
share holds the rest of the winner. -/
lemma lotteryScan_eq_pick (is : List (Fin NPROC)) (winner counter : ℤ) (h0 : 0 ≤ counter)
    (hw : counter ≤ winner)
    (hnn : ∀ i ∈ is, (t i).state = .RUNNABLE → 0 ≤ (t i).tickets)
    (hle : counter + total (fun i => share (t i)) is ≤ INT_MAX) :
    lotteryScan t winner counter is = pick (fun i => share (t i)) (winner - counter).toNat is := by
  induction is generalizing counter with
  | nil => simp [lotteryScan]
  | cons i is ih =>
    rw [total_cons] at hle
    rw [pick_cons]
    simp only [lotteryScan]
    have hrest : ∀ j ∈ is, (t j).state = .RUNNABLE → 0 ≤ (t j).tickets :=
      fun j hj => hnn j (List.mem_cons_of_mem i hj)
    by_cases hr : (t i).state = .RUNNABLE
    · have hti := share_of_runnable hr (hnn i (by simp) hr)
      rw [if_pos hr, i32_of_mem (by omega) (by push_cast at hle; omega)]
      by_cases hwin : counter + (t i).tickets > winner
      · rw [if_pos hwin, if_pos (by omega)]
      · rw [if_neg hwin, if_neg (by omega), ih _ (by omega) (by omega) hrest
          (by push_cast at hle; omega)]
        congr 1
        omega
    · rw [if_neg hr, share_of_not_runnable hr, if_neg (by omega), Nat.sub_zero]
      exact ih _ h0 hw hrest (by simpa [share_of_not_runnable hr] using hle)

lemma lotteryScan_of_neg (is : List (Fin NPROC)) (winner : ℤ) (hw : winner < 0)
    (hnn : ∀ i ∈ is, (t i).state = .RUNNABLE → 0 ≤ (t i).tickets ∧ (t i).tickets ≤ INT_MAX) :
    lotteryScan t winner 0 is = is.find? fun i => decide ((t i).state = .RUNNABLE) := by
  induction is with
  | nil => simp [lotteryScan]
  | cons i is ih =>
    simp only [lotteryScan, List.find?_cons]
    by_cases hr : (t i).state = .RUNNABLE
    · obtain ⟨h1, h2⟩ := hnn i (by simp) hr
      rw [if_pos hr, zero_add, i32_of_mem (by omega) h2, if_pos (by omega)]
      simp [hr]
    · rw [if_neg hr, ih fun j hj => hnn j (List.mem_cons_of_mem i hj)]
      simp [hr]

/-! ### A round of the scheduler -/

lemma share_le_total (i : Fin NPROC) : share (t i) ≤ totalTickets t :=
  List.le_sum_of_mem (List.mem_map_of_mem (List.mem_finRange i))

lemma ticketSum_of_fair (hf : Fair t) : ticketSum t 0 slots = totalTickets t := by
  have h := ticketSum_eq slots 0 le_rfl (fun i _ hr => by have := hf.pos i hr; omega)
    (by rw [zero_add]; exact hf.le)
  rw [zero_add] at h
  exact h

lemma schedulerRound_of_fair (hf : Fair t) (hT : 0 < totalTickets t) (rs : ℕ) :
    schedulerRound t rs =
      (lotteryScan t ((random rs).1.tmod (totalTickets t)) 0 slots, (random rs).2) := by
  unfold schedulerRound
  rw [ticketSum_of_fair hf, if_pos (by exact_mod_cast hT)]

/-- **A non-negative draw is a prefix-sum choice.** On a fair table with tickets, a round
whose draw `x` is non-negative runs the slot whose share of `[0, T)` holds the residue of
`x` modulo `T`; there is such a slot. -/
theorem schedulerRound_of_draw_nonneg (hf : Fair t) (hT : 0 < totalTickets t) (rs : ℕ)
    (hx : 0 ≤ (random rs).1) :
    schedulerRound t rs =
      (pick (fun i => share (t i)) ((random rs).1 % totalTickets t).toNat slots, (random rs).2) ∧
    (pick (fun i => share (t i)) ((random rs).1 % totalTickets t).toNat slots).isSome := by
  have hr0 : 0 ≤ (random rs).1 % (totalTickets t : ℤ) := Int.emod_nonneg _ (by omega)
  have hrT : (random rs).1 % (totalTickets t : ℤ) < totalTickets t :=
    Int.emod_lt_of_pos _ (by omega)
  have hlt : ((random rs).1 % (totalTickets t : ℤ)).toNat < totalTickets t := by omega
  refine ⟨?_, (pick_isSome_iff _ _).mpr hlt⟩
  rw [schedulerRound_of_fair hf hT, Int.tmod_eq_emod_of_nonneg hx,
    lotteryScan_eq_pick slots _ 0 le_rfl hr0 (fun i _ hr => by have := hf.pos i hr; omega)
      (by rw [zero_add]; exact hf.le), Int.sub_zero]

/-- **A negative winner runs the first `RUNNABLE` slot.** When C's `%` turns a negative draw
into a negative winner, pass 2 stops at the first `RUNNABLE` slot, whatever its tickets. -/
theorem schedulerRound_of_winner_neg (hf : Fair t) (hT : 0 < totalTickets t) (rs : ℕ)
    (hw : (random rs).1.tmod (totalTickets t) < 0) :
    schedulerRound t rs =
      (slots.find? fun i => decide ((t i).state = .RUNNABLE), (random rs).2) := by
  rw [schedulerRound_of_fair hf hT, lotteryScan_of_neg slots _ hw fun i _ hr => ?_]
  have h1 := hf.pos i hr
  have h2 := share_le_total (t := t) i
  have h3 := share_of_runnable hr (by omega)
  have h4 := hf.le
  omega

/-- **Each slot is run for as many residues as it has tickets**, among the residues of any
`T` consecutive draws. -/
theorem count_residues (i : Fin NPROC) (n : ℕ) :
    (List.range (totalTickets t)).countP (fun j =>
      decide (pick (fun i => share (t i)) ((n + j) % totalTickets t) slots = some i)) =
    share (t i) := by
  rw [totalTickets, count_pick_window slots (List.nodup_finRange NPROC) i n]
  exact if_pos (List.mem_finRange i)

/-- The failing input of proportional selection: slots 0 and 1 are `RUNNABLE` with one
and two tickets, the others unused. -/
def tableNegDraw : Fin NPROC → Proc := fun i =>
  if i = 0 then { Proc.zero with state := .RUNNABLE, tickets := 1 }
  else if i = 1 then { Proc.zero with state := .RUNNABLE, tickets := 2 }
  else Proc.zero

/-- From generator state `1690440584168923` (the state after two draws from boot) the
draw is `-2129264258`, whose residue modulo `T = 3` is `1`, in slot 1's share `[1, 3)`; the
round runs slot 0. -/
theorem schedulerRound_negative_draw :
    Fair tableNegDraw ∧ totalTickets tableNegDraw = 3 ∧
    (random 1690440584168923).1 = -2129264258 ∧
    pick (fun i => share (tableNegDraw i)) ((random 1690440584168923).1 % 3).toNat slots =
      some 1 ∧
    (schedulerRound tableNegDraw 1690440584168923).1 = some 0 := by
  refine ⟨⟨by decide, by decide⟩, by decide, by decide, by decide, by decide⟩

end Xv6.Sched
