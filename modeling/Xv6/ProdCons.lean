import Xv6.Param
import Xv6.Lib.RingQueue

/-!
The kernel's producer-consumer buffer (`sysproc.c`, phase 3).

`sharedbuf` is a circular array of `BUFFER_SIZE` ints with a write position `in`, a read
position `out`, a `count` and two running totals. Each system call does its work in one
critical section under `sharedbuf.lock`, so any interleaving of calls from any processes is
a sequence of whole calls; `sys_consume` copies the item out after the lock is released,
but the item is fixed inside the critical section.

The buffer refines a bounded FIFO queue that is absent until the first `buffer_init`: the
simulation relation says where the queue's items sit in the array (`Lib.RingQueue`).
-/

namespace Xv6.ProdCons

open Xv6.Param Xv6.Lib.Word Xv6.Lib.RingQueue

def BUFFER_SIZE : ℕ := 10

/-- The data of `sharedbuf`; the array has `BUFFER_SIZE` cells. -/
structure Sharedbuf where
  buffer : List ℤ
  size : buffer.length = BUFFER_SIZE
  count : ℤ
  in_ : ℤ
  out : ℤ
  initialized : ℤ
  produced_total : ℤ
  consumed_total : ℤ

def Sharedbuf.zero : Sharedbuf := ⟨List.replicate BUFFER_SIZE 0, by simp, 0, 0, 0, 0, 0, 0⟩

/-- `sys_buffer_init`: the array cleared, the positions and totals zeroed, and the buffer
marked initialized. -/
def sys_buffer_init : Sharedbuf :=
  { buffer := List.replicate BUFFER_SIZE 0, size := by simp, count := 0, in_ := 0, out := 0,
    produced_total := 0, consumed_total := 0, initialized := 1 }

/-- `sys_produce(item)`: `-2` before initialization, `-1` when full, else the item is
written at `in` and `0` returned. -/
def sys_produce (s : Sharedbuf) (item : ℤ) : ℤ × Sharedbuf :=
  if s.initialized = 0 then (-2, s)
  else if s.count ≥ BUFFER_SIZE then (-1, s)
  else
    (0, { s with buffer := s.buffer.set s.in_.toNat item, size := by simp [s.size],
                 in_ := (i32 (s.in_ + 1)).tmod BUFFER_SIZE, count := i32 (s.count + 1),
                 produced_total := i32 (s.produced_total + 1) })

/-- `sys_consume`: `-2` before initialization, `-1` when empty; else the item at `out` is
removed, and the call returns `0` with the item when `copyout` succeeds (`copyok`), `-3`
when it fails. -/
def sys_consume (s : Sharedbuf) (copyok : Bool) : ℤ × Option ℤ × Sharedbuf :=
  if s.initialized = 0 then (-2, none, s)
  else if s.count ≤ 0 then (-1, none, s)
  else
    let item := s.buffer.getD s.out.toNat 0
    let s := { s with out := (i32 (s.out + 1)).tmod BUFFER_SIZE, count := i32 (s.count - 1),
                      consumed_total := i32 (s.consumed_total + 1) }
    if copyok then (0, some item, s) else (-3, none, s)

def sys_buffer_status (s : Sharedbuf) : ℤ × ℤ × ℤ :=
  (s.count, s.produced_total, s.consumed_total)

inductive Call
  | buffer_init
  | produce (item : ℤ)
  | consume
  | buffer_status
  deriving DecidableEq, Repr

/-- What a call gives its caller: the return value, and the value stored at the user
address (the item for `consume`, the count for `buffer_status`). -/
structure Ret where
  ret : ℤ
  val : Option ℤ
  deriving DecidableEq, Repr

def step (s : Sharedbuf) : Call → Ret × Sharedbuf
  | .buffer_init => (⟨0, none⟩, sys_buffer_init)
  | .produce x => (⟨(sys_produce s x).1, none⟩, (sys_produce s x).2)
  | .consume => (⟨(sys_consume s true).1, (sys_consume s true).2.1⟩, (sys_consume s true).2.2)
  | .buffer_status => (⟨0, some (sys_buffer_status s).1⟩, s)

def run (s : Sharedbuf) (calls : List Call) : Sharedbuf := calls.foldl (fun s c => (step s c).2) s

/-! ### The bounded queue -/

/-- A call on the abstract queue; `none` is the queue before the first `buffer_init`. -/
def absStep : Option (List ℤ) → Call → Ret × Option (List ℤ)
  | _, .buffer_init => (⟨0, none⟩, some [])
  | none, .produce _ => (⟨-2, none⟩, none)
  | some q, .produce x =>
    if q.length < BUFFER_SIZE then (⟨0, none⟩, some (q ++ [x])) else (⟨-1, none⟩, some q)
  | none, .consume => (⟨-2, none⟩, none)
  | some [], .consume => (⟨-1, none⟩, some [])
  | some (y :: q), .consume => (⟨0, some y⟩, some q)
  | Q, .buffer_status => (⟨0, some (Q.getD []).length⟩, Q)

def absRun (Q : Option (List ℤ)) (calls : List Call) : Option (List ℤ) :=
  calls.foldl (fun Q c => (absStep Q c).2) Q

/-- **The simulation relation.** The buffer is initialized exactly when the queue exists;
both positions are in range; `count` is the queue's length and `in` is `count` cells past
`out`; and the array holds the queue from `out`. -/
structure Sim (s : Sharedbuf) (Q : Option (List ℤ)) : Prop where
  init_iff : s.initialized = 0 ↔ Q = none
  in_lt : 0 ≤ s.in_ ∧ s.in_ < BUFFER_SIZE
  out_lt : 0 ≤ s.out ∧ s.out < BUFFER_SIZE
  count_eq : s.count = (Q.getD []).length
  in_eq : s.in_ = (s.out + s.count) % BUFFER_SIZE
  holds : Holds BUFFER_SIZE s.buffer s.out.toNat (Q.getD [])

lemma sim_zero : Sim Sharedbuf.zero none :=
  ⟨by simp [Sharedbuf.zero], by simp [Sharedbuf.zero, BUFFER_SIZE],
    by simp [Sharedbuf.zero, BUFFER_SIZE], rfl, rfl,
    holds_nil (by simp [Sharedbuf.zero]) (by simp [Sharedbuf.zero, BUFFER_SIZE])⟩

lemma sim_init : Sim sys_buffer_init (some []) :=
  ⟨by simp [sys_buffer_init], by simp [sys_buffer_init, BUFFER_SIZE],
    by simp [sys_buffer_init, BUFFER_SIZE], rfl, rfl,
    holds_nil (by simp [sys_buffer_init]) (by simp [sys_buffer_init, BUFFER_SIZE])⟩

lemma next_pos {i : ℤ} (h0 : 0 ≤ i) (h1 : i < BUFFER_SIZE) :
    (i32 (i + 1)).tmod BUFFER_SIZE = (i + 1) % BUFFER_SIZE := by
  rw [i32_of_mem (by omega) (by unfold INT_MAX BUFFER_SIZE at *; omega),
    Int.tmod_eq_emod_of_nonneg (by omega)]

lemma count_succ {c : ℤ} (h0 : 0 ≤ c) (h1 : c < BUFFER_SIZE) : i32 (c + 1) = c + 1 :=
  i32_of_mem (by omega) (by unfold INT_MAX BUFFER_SIZE at *; omega)

lemma count_pred {c : ℤ} (h0 : 0 < c) (h1 : c ≤ BUFFER_SIZE) : i32 (c - 1) = c - 1 :=
  i32_of_mem (by omega) (by unfold INT_MAX BUFFER_SIZE at *; omega)

lemma sim_produce {s : Sharedbuf} {Q : Option (List ℤ)} (h : Sim s Q) (x : ℤ) :
    (sys_produce s x).1 = (absStep Q (.produce x)).1.ret ∧
      Sim (sys_produce s x).2 (absStep Q (.produce x)).2 := by
  rcases Q with _ | q
  · -- before the first `buffer_init`
    have e : sys_produce s x = (-2, s) := by simp [sys_produce, h.init_iff.mpr rfl]
    rw [e]
    exact ⟨rfl, h⟩
  have h0 : s.initialized ≠ 0 := fun he => by simpa using h.init_iff.mp he
  have hcount : s.count = q.length := h.count_eq
  by_cases hq : q.length < BUFFER_SIZE
  swap
  · -- the buffer is full
    have e : sys_produce s x = (-1, s) := by
      rw [sys_produce, if_neg h0, if_pos (by omega)]
    rw [e]
    exact ⟨by simp [absStep, hq], by simpa [absStep, hq] using h⟩
  obtain ⟨-, ⟨hi0, hi1⟩, ⟨ho0, ho1⟩, -, hin, hholds⟩ := h
  simp only [Option.getD_some] at hholds
  have ea : absStep (some q) (.produce x) = (⟨0, none⟩, some (q ++ [x])) := by
    simp [absStep, hq]
  rw [sys_produce, if_neg h0, if_neg (by omega), ea]
  refine ⟨rfl, ⟨by simpa using h0, ?_, ⟨ho0, ho1⟩, ?_, ?_, ?_⟩⟩ <;> dsimp only
  · rw [next_pos hi0 hi1]
    unfold BUFFER_SIZE; omega
  · rw [count_succ (by omega) (by omega)]
    simp [hcount]
  · rw [next_pos hi0 hi1, count_succ (by omega) (by omega)]
    unfold BUFFER_SIZE at *; omega
  · -- the write position is the cell past the last item
    have hpos : s.in_.toNat = (s.out.toNat + q.length) % BUFFER_SIZE := by
      unfold BUFFER_SIZE at *; omega
    simpa [hpos] using hholds.push hq x

lemma sim_consume {s : Sharedbuf} {Q : Option (List ℤ)} (h : Sim s Q) :
    ((sys_consume s true).1, (sys_consume s true).2.1) =
        ((absStep Q .consume).1.ret, (absStep Q .consume).1.val) ∧
      Sim (sys_consume s true).2.2 (absStep Q .consume).2 := by
  rcases Q with _ | _ | ⟨y, q⟩
  · -- before the first `buffer_init`
    have e : sys_consume s true = (-2, none, s) := by simp [sys_consume, h.init_iff.mpr rfl]
    rw [e]
    exact ⟨rfl, h⟩
  · -- the buffer is empty
    have h0 : s.initialized ≠ 0 := fun he => by simpa using h.init_iff.mp he
    have e : sys_consume s true = (-1, none, s) := by
      have hc : s.count = 0 := by simpa using h.count_eq
      rw [sys_consume, if_neg h0, if_pos (by omega)]
    rw [e]
    exact ⟨rfl, h⟩
  have h0 : s.initialized ≠ 0 := fun he => by simpa using h.init_iff.mp he
  obtain ⟨-, ⟨hi0, hi1⟩, ⟨ho0, ho1⟩, hcount, hin, hholds⟩ := h
  simp only [Option.getD_some, List.length_cons] at hcount hholds
  have hle : q.length + 1 ≤ BUFFER_SIZE := by simpa using hholds.le
  obtain ⟨hy, hrest⟩ := hholds.pop
  have hitem : s.buffer.getD s.out.toNat 0 = y := by simp [List.getD_eq_getElem?_getD, hy]
  have ea : absStep (some (y :: q)) .consume = (⟨0, some y⟩, some q) := rfl
  rw [sys_consume, if_neg h0, if_neg (by omega), if_pos rfl, hitem, ea]
  refine ⟨rfl, ⟨by simpa using h0, ⟨hi0, hi1⟩, ?_, ?_, ?_, ?_⟩⟩ <;> dsimp only
  · rw [next_pos ho0 ho1]
    unfold BUFFER_SIZE; omega
  · rw [count_pred (by omega) (by omega)]
    simp [hcount]
  · rw [next_pos ho0 ho1, count_pred (by omega) (by omega)]
    unfold BUFFER_SIZE at *; omega
  · -- the read position moves one cell on
    have hpos : ((s.out + 1) % (BUFFER_SIZE : ℤ)).toNat = (s.out.toNat + 1) % BUFFER_SIZE := by
      unfold BUFFER_SIZE; omega
    simpa [next_pos ho0 ho1, hpos] using hrest

/-- **One call of the buffer is one call of the queue**: the same results, and the
simulation relation kept. -/
theorem sim_step {s : Sharedbuf} {Q : Option (List ℤ)} (h : Sim s Q) (c : Call) :
    (step s c).1 = (absStep Q c).1 ∧ Sim (step s c).2 (absStep Q c).2 := by
  cases c with
  | buffer_init => exact ⟨rfl, sim_init⟩
  | produce x =>
    obtain ⟨hr, hs⟩ := sim_produce h x
    refine ⟨?_, hs⟩
    rcases Q with _ | q
    · simp [step, hr, absStep]
    · simp only [step, hr, absStep]
      split <;> rfl
  | consume =>
    obtain ⟨hr, hs⟩ := sim_consume h
    simp only [Prod.mk.injEq] at hr
    exact ⟨by simp only [step, hr.1, hr.2], hs⟩
  | buffer_status => exact ⟨by simp [step, absStep, sys_buffer_status, h.count_eq], h⟩

lemma sim_run (calls : List Call) {s : Sharedbuf} {Q : Option (List ℤ)} (h : Sim s Q) :
    Sim (run s calls) (absRun Q calls) := by
  induction calls generalizing s Q with
  | nil => exact h
  | cons c cs ih => exact ih (sim_step h c).2

/-! ### No item lost or duplicated -/

def trace (s : Sharedbuf) : List Call → List (Call × Ret)
  | [] => []
  | c :: cs => (c, (step s c).1) :: trace (step s c).2 cs

/-- One entry of the ledger: the items accepted by successful `produce` calls and those
delivered by successful `consume` calls, both since the last `buffer_init`. -/
def ledgerStep (a : List ℤ × List ℤ) : Call × Ret → List ℤ × List ℤ
  | (.buffer_init, _) => ([], [])
  | (.produce x, r) => if r.ret = 0 then (a.1 ++ [x], a.2) else a
  | (.consume, r) => if r.ret = 0 then (a.1, a.2 ++ r.val.toList) else a
  | (.buffer_status, _) => a

def ledger (tr : List (Call × Ret)) : List ℤ × List ℤ := tr.foldl ledgerStep ([], [])

lemma ledgerStep_abs (Q : Option (List ℤ)) (c : Call) (a : List ℤ × List ℤ)
    (ha : a.1 = a.2 ++ Q.getD []) :
    (ledgerStep a (c, (absStep Q c).1)).1 =
      (ledgerStep a (c, (absStep Q c).1)).2 ++ ((absStep Q c).2).getD [] := by
  obtain ⟨acc, del⟩ := a
  cases c with
  | buffer_init => rfl
  | produce x =>
    rcases Q with _ | q
    · simpa [ledgerStep, absStep] using ha
    · by_cases hq : q.length < BUFFER_SIZE
      · simp only [ledgerStep, absStep, hq, if_true, Option.getD_some] at ha ⊢
        rw [ha, List.append_assoc]
      · simpa [ledgerStep, absStep, hq] using ha
  | consume =>
    rcases Q with _ | _ | ⟨y, q⟩
    · simpa [ledgerStep, absStep] using ha
    · simpa [ledgerStep, absStep] using ha
    · simpa [ledgerStep, absStep] using ha
  | buffer_status => simpa [ledgerStep, absStep] using ha

lemma ledger_trace (calls : List Call) {s : Sharedbuf} {Q : Option (List ℤ)} (h : Sim s Q)
    (a : List ℤ × List ℤ) (ha : a.1 = a.2 ++ Q.getD []) :
    ((trace s calls).foldl ledgerStep a).1 =
      ((trace s calls).foldl ledgerStep a).2 ++ (absRun Q calls).getD [] := by
  induction calls generalizing s Q a with
  | nil => exact ha
  | cons c cs ih =>
    obtain ⟨hret, hsim⟩ := sim_step h c
    simp only [trace, List.foldl_cons, hret]
    exact ih hsim _ (ledgerStep_abs Q c a ha)

/-- **No item is lost or duplicated.** In any run from boot, the items accepted since the
last `buffer_init` are the items delivered since then, in the order they were produced,
followed by the items the buffer still holds. -/
theorem accepted_eq_delivered_append (calls : List Call) :
    (ledger (trace Sharedbuf.zero calls)).1 =
      (ledger (trace Sharedbuf.zero calls)).2 ++ (absRun none calls).getD [] :=
  ledger_trace calls sim_zero ([], []) rfl

/-- **The buffer refines a bounded FIFO queue of capacity `BUFFER_SIZE`.** After any
sequence of calls from boot, the buffer and the queue the same calls build are related by
`Sim`; the next call returns on the buffer what it returns on the queue; and the items
accepted since the last `buffer_init` are those delivered since then, in order, followed by
those still queued. -/
theorem sharedbuf_refines_queue (calls : List Call) (c : Call) :
    Sim (run Sharedbuf.zero calls) (absRun none calls) ∧
      (step (run Sharedbuf.zero calls) c).1 = (absStep (absRun none calls) c).1 ∧
      (ledger (trace Sharedbuf.zero calls)).1 =
        (ledger (trace Sharedbuf.zero calls)).2 ++ (absRun none calls).getD [] := by
  have h := sim_run calls sim_zero
  exact ⟨h, (sim_step h c).1, accepted_eq_delivered_append calls⟩

/-! ### Failed calls -/

lemma produce_fail_unchanged (s : Sharedbuf) (x : ℤ) (h : (sys_produce s x).1 ≠ 0) :
    (sys_produce s x).2 = s := by
  unfold sys_produce at h ⊢
  split_ifs at h ⊢
  · rfl
  · rfl
  · exact absurd rfl h

lemma consume_state_copyok (s : Sharedbuf) (copyok : Bool) :
    (sys_consume s copyok).2.2 = (sys_consume s true).2.2 := by
  unfold sys_consume
  split_ifs <;> rfl

lemma consume_fail_cases (s : Sharedbuf) (copyok : Bool) (h : (sys_consume s copyok).1 ≠ 0) :
    (sys_consume s copyok).2.2 = s ∨ (sys_consume s copyok).1 = -3 ∧ copyok = false := by
  unfold sys_consume at h ⊢
  split_ifs at h ⊢ with h₁ h₂ h₃
  · exact .inl rfl
  · exact .inl rfl
  · exact absurd rfl h
  · exact .inr ⟨rfl, by simpa using h₃⟩

/-- **A failed `copyout` loses the item.** `sys_consume` takes the head of the queue and counts
it as consumed inside the critical section, before it copies the item out; when the copy
fails the call returns `-3`, delivers nothing, and the queue has lost its head. -/
lemma consume_copyout_fail {s : Sharedbuf} {y : ℤ} {q : List ℤ} (h : Sim s (some (y :: q))) :
    (sys_consume s false).1 = -3 ∧ (sys_consume s false).2.1 = none ∧
      Sim (sys_consume s false).2.2 (some q) ∧
      (sys_consume s false).2.2.consumed_total = i32 (s.consumed_total + 1) := by
  have h0 : s.initialized ≠ 0 := fun he => by simpa using h.init_iff.mp he
  have hc : ¬s.count ≤ 0 := by
    have := h.count_eq
    simp only [Option.getD_some, List.length_cons] at this
    omega
  refine ⟨?_, ?_, ?_, ?_⟩
  · rw [sys_consume, if_neg h0, if_neg hc]
    rfl
  · rw [sys_consume, if_neg h0, if_neg hc]
    rfl
  · rw [consume_state_copyok]
    exact (sim_consume h).2
  · rw [sys_consume, if_neg h0, if_neg hc]
    rfl

def holdsSeven : Sharedbuf := (sys_produce sys_buffer_init 7).2

lemma sim_holdsSeven : Sim holdsSeven (some [7]) := by
  have h : Sim holdsSeven (absStep (some []) (.produce 7)).2 := (sim_produce sim_init 7).2
  simpa [absStep, BUFFER_SIZE] using h

/-- **An invalid `item_addr` loses the oldest item.** The buffer holds one item, `7`, which a
`consume` whose `copyout` succeeds delivers. A `consume` whose `copyout` fails returns `-3`,
and the buffer it leaves is empty, with one item counted as consumed: the next `consume`
finds nothing. -/
theorem consume_copyout_fail_loses_item :
    holdsSeven.count = 1 ∧ (sys_consume holdsSeven true).2.1 = some 7 ∧
      (sys_consume holdsSeven false).1 = -3 ∧ (sys_consume holdsSeven false).2.2.count = 0 ∧
      (sys_consume holdsSeven false).2.2.consumed_total = 1 ∧
      (sys_consume (sys_consume holdsSeven false).2.2 true).1 = -1 := by
  obtain ⟨hr, -, hs, ht⟩ := consume_copyout_fail sim_holdsSeven
  refine ⟨by simpa using sim_holdsSeven.count_eq, (Prod.mk.inj (sim_consume sim_holdsSeven).1).2,
    hr, by simpa using hs.count_eq, ?_, (Prod.mk.inj (sim_consume hs).1).1⟩
  rw [ht]
  decide

/-! ### The running totals -/

/-- The totals of a buffer are the numbers of items accepted and delivered since the last
`buffer_init`, as `int`s. -/
structure Totals (s : Sharedbuf) (a : List ℤ × List ℤ) : Prop where
  produced : s.produced_total = i32 a.1.length
  consumed : s.consumed_total = i32 a.2.length

lemma produce_ok_totals {s : Sharedbuf} {x : ℤ} (h : (sys_produce s x).1 = 0) :
    (sys_produce s x).2.produced_total = i32 (s.produced_total + 1) ∧
      (sys_produce s x).2.consumed_total = s.consumed_total := by
  unfold sys_produce at h ⊢
  split_ifs at h ⊢
  · simp at h
  · simp at h
  · exact ⟨rfl, rfl⟩

lemma consume_ok_totals {s : Sharedbuf} (h : (sys_consume s true).1 = 0) :
    (sys_consume s true).2.2.produced_total = s.produced_total ∧
      (sys_consume s true).2.2.consumed_total = i32 (s.consumed_total + 1) ∧
      ∃ y, (sys_consume s true).2.1 = some y := by
  unfold sys_consume at h ⊢
  split_ifs at h ⊢ with h₁ h₂ h₃
  · simp at h
  · simp at h
  · exact ⟨rfl, rfl, _, rfl⟩
  · exact absurd rfl h₃

lemma i32_zero : i32 0 = 0 := i32_of_mem (by norm_num) (by norm_num [INT_MAX])

lemma i32_length_succ (n : ℕ) : i32 (i32 n + 1) = i32 ((n + 1 : ℕ) : ℤ) := by
  rw [i32, i32, toSigned_add_left]
  push_cast
  rfl

lemma totals_step {s : Sharedbuf} {a : List ℤ × List ℤ} (h : Totals s a) (c : Call) :
    Totals (step s c).2 (ledgerStep a (c, (step s c).1)) := by
  cases c with
  | buffer_init => exact ⟨i32_zero.symm, i32_zero.symm⟩
  | produce x =>
    have e : step s (.produce x) = (⟨(sys_produce s x).1, none⟩, (sys_produce s x).2) := rfl
    rw [e]
    by_cases hr : (sys_produce s x).1 = 0
    · obtain ⟨hp, hc⟩ := produce_ok_totals hr
      simp only [ledgerStep, if_pos hr]
      refine ⟨?_, hc.trans h.consumed⟩
      rw [hp, h.produced, i32_length_succ, List.length_append, List.length_singleton]
    · simp only [ledgerStep, if_neg hr]
      rw [produce_fail_unchanged s x hr]
      exact h
  | consume =>
    have e : step s .consume =
        (⟨(sys_consume s true).1, (sys_consume s true).2.1⟩, (sys_consume s true).2.2) := rfl
    rw [e]
    by_cases hr : (sys_consume s true).1 = 0
    · obtain ⟨hp, hc, y, hy⟩ := consume_ok_totals hr
      simp only [ledgerStep, if_pos hr, hy]
      refine ⟨hp.trans h.produced, ?_⟩
      rw [hc, h.consumed, i32_length_succ, List.length_append]
      rfl
    · -- with a successful `copyout`, a failed `consume` changed nothing
      obtain he | ⟨-, hf⟩ := consume_fail_cases s true hr
      · simp only [ledgerStep, if_neg hr]
        rw [he]
        exact h
      · cases hf
  | buffer_status => exact h

lemma totals_run (calls : List Call) {s : Sharedbuf} {a : List ℤ × List ℤ} (h : Totals s a) :
    Totals (run s calls) ((trace s calls).foldl ledgerStep a) := by
  induction calls generalizing s a with
  | nil => exact h
  | cons c cs ih => exact ih (totals_step h c)

/-- **The totals count modulo `2^32`.** After any run from boot, `produced_total` and
`consumed_total` are the numbers of items accepted and delivered since the last
`buffer_init`, wrapped to `int`, and `count` is the difference of the two numbers. -/
theorem totals_of_run (calls : List Call) :
    (run Sharedbuf.zero calls).produced_total =
        i32 (ledger (trace Sharedbuf.zero calls)).1.length ∧
      (run Sharedbuf.zero calls).consumed_total =
        i32 (ledger (trace Sharedbuf.zero calls)).2.length ∧
      (run Sharedbuf.zero calls).count =
        (ledger (trace Sharedbuf.zero calls)).1.length -
          (ledger (trace Sharedbuf.zero calls)).2.length := by
  have ht := totals_run calls (s := Sharedbuf.zero) (a := ([], [])) ⟨i32_zero.symm, i32_zero.symm⟩
  have hq := congrArg List.length (accepted_eq_delivered_append calls)
  have hc := (sim_run calls sim_zero).count_eq
  rw [List.length_append] at hq
  refine ⟨ht.produced, ht.consumed, ?_⟩
  rw [hc, hq]
  push_cast
  ring

/-! ### A run that wraps the totals -/

def absTrace (Q : Option (List ℤ)) : List Call → List (Call × Ret)
  | [] => []
  | c :: cs => (c, (absStep Q c).1) :: absTrace (absStep Q c).2 cs

lemma trace_eq_absTrace (calls : List Call) {s : Sharedbuf} {Q : Option (List ℤ)}
    (h : Sim s Q) : trace s calls = absTrace Q calls := by
  induction calls generalizing s Q with
  | nil => rfl
  | cons c cs ih =>
    obtain ⟨hr, hs⟩ := sim_step h c
    rw [trace, absTrace, hr, ih hs]

lemma absTrace_append (Q : Option (List ℤ)) (l₁ l₂ : List Call) :
    absTrace Q (l₁ ++ l₂) = absTrace Q l₁ ++ absTrace (absRun Q l₁) l₂ := by
  induction l₁ generalizing Q with
  | nil => rfl
  | cons c cs ih =>
    rw [List.cons_append, absTrace, absTrace, ih]
    rfl

def pairs (n : ℕ) : List Call := (List.replicate n [Call.produce 0, Call.consume]).flatten

lemma pairs_succ (n : ℕ) : pairs (n + 1) = [Call.produce 0, Call.consume] ++ pairs n := by
  simp [pairs, List.replicate_succ]

lemma absRun_pairs (n : ℕ) : absRun (some []) (pairs n) = some [] := by
  induction n with
  | zero => rfl
  | succ n ih =>
    rw [pairs_succ, absRun, List.foldl_append]
    exact ih

lemma ret_pairs (n : ℕ) : ∀ e ∈ absTrace (some []) (pairs n), e.2.ret = 0 := by
  induction n with
  | zero => simp [pairs, absTrace]
  | succ n ih =>
    have hr : absRun (some []) [Call.produce 0, Call.consume] = some [] := rfl
    rw [pairs_succ, absTrace_append, hr]
    intro e he
    rcases List.mem_append.mp he with he | he
    · simp only [absTrace, List.mem_cons, List.not_mem_nil, or_false] at he
      rcases he with rfl | rfl <;> rfl
    · exact ih e he

lemma ledger_pairs (n : ℕ) (a : List ℤ × List ℤ) :
    (absTrace (some []) (pairs n)).foldl ledgerStep a =
      (a.1 ++ List.replicate n 0, a.2 ++ List.replicate n 0) := by
  induction n generalizing a with
  | zero => simp [pairs, absTrace]
  | succ n ih =>
    rw [pairs_succ, absTrace_append, List.foldl_append]
    have hr : absRun (some []) [Call.produce 0, Call.consume] = some [] := rfl
    rw [hr, ih]
    simp [absTrace, absStep, ledgerStep, BUFFER_SIZE, List.replicate_succ]

/-- `buffer_init`, then `2^31 - 1` rounds, then one more `produce(0)`: `2^31` successful
produces and `2^31 - 1` successful consumes. -/
def overflowRun : List Call := Call.buffer_init :: (pairs (2 ^ 31 - 1) ++ [Call.produce 0])

lemma trace_overflowRun : trace Sharedbuf.zero overflowRun =
    (Call.buffer_init, ⟨0, none⟩) ::
      (absTrace (some []) (pairs (2 ^ 31 - 1)) ++ [(Call.produce 0, ⟨0, none⟩)]) := by
  have h : step Sharedbuf.zero .buffer_init = (⟨0, none⟩, sys_buffer_init) := rfl
  rw [overflowRun, trace, h, trace_eq_absTrace _ sim_init, absTrace_append, absRun_pairs]
  rfl

/-- **`produced_total` wraps after `2^31` produces.** Every call of `overflowRun` succeeds, and
afterwards `produced_total` is negative and `produced_total - consumed_total` is not
`count`. -/
theorem produced_total_overflows :
    (∀ e ∈ trace Sharedbuf.zero overflowRun, e.2.ret = 0) ∧
      (run Sharedbuf.zero overflowRun).produced_total = -2 ^ 31 ∧
      (run Sharedbuf.zero overflowRun).consumed_total = 2 ^ 31 - 1 ∧
      (run Sharedbuf.zero overflowRun).count = 1 := by
  have hl : ledger (trace Sharedbuf.zero overflowRun) =
      (List.replicate (2 ^ 31 - 1) 0 ++ [0], List.replicate (2 ^ 31 - 1) 0) := by
    have h0 : ledgerStep ([], []) (Call.buffer_init, ⟨0, none⟩) = ([], []) := rfl
    have h1 : ∀ a : List ℤ × List ℤ, ledgerStep a (Call.produce 0, ⟨0, none⟩) = (a.1 ++ [0], a.2) :=
      fun _ => rfl
    rw [trace_overflowRun, ledger, List.foldl_cons, List.foldl_append, ledger_pairs, h0,
      List.foldl_cons, List.foldl_nil, h1, List.nil_append]
  obtain ⟨hp, hc, hn⟩ := totals_of_run overflowRun
  rw [hl] at hp hc hn
  refine ⟨?_, ?_, ?_, ?_⟩
  · rw [trace_overflowRun]
    simp only [List.mem_cons, List.mem_append, List.not_mem_nil, or_false]
    rintro e (rfl | he | rfl)
    · rfl
    · exact ret_pairs _ e he
    · rfl
  · rw [hp]
    norm_num [i32, toSigned]
  · rw [hc]
    norm_num [i32, toSigned]
  · rw [hn, List.length_append, List.length_replicate, List.length_singleton, Nat.cast_add,
      Nat.cast_one]
    ring

end Xv6.ProdCons
