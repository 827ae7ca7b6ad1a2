import Xv6.Lib.Reach

/-!
The transmit side of the UART (`uart.c`): `uartwrite`, `uartintr` and `uartputc_sync` on the
16550's transmit FIFO.

`uartwrite` holds `tx_lock` for the whole call except while it sleeps on `tx_chan`, so each
round of its loop, from taking the lock to sleeping or returning, is one atomic step. It writes
a byte to `THR` only when `tx_busy` is clear, and then sets it; `uartintr` clears it only when
the line status says the transmitter is idle, and wakes every writer asleep on `tx_chan`. The
transmitter sends its FIFO in order and raises its interrupt when the FIFO runs empty.
`uartputc_sync` (kernel `printf`, and the echo of typed characters) writes `THR` without the
lock; it spins until the transmitter is idle first, which nothing below relies on, so its
write may come at any time.

Over any interleaving of these with any number of writers (`Step`):
* each writer's bytes reach `THR` in the order of its buffers, none lost or repeated
  (`uart_order`), though the bytes of two writers may interleave in any order
  (`writes_interleave`);
* at most one of `uartwrite`'s bytes is in the FIFO at any time (`uart_one_inflight`);
* a sleeping writer always has a byte in flight or an interrupt pending that will wake it, and
  the transmitter's own interrupts finish every call (`uart_finish`).
-/

namespace Xv6.Uart

open Xv6.Lib.Reach

/-- A call of `uartwrite(buf, n)`: its bytes, how many it has written (`i`), and whether it
sleeps on `tx_chan`. -/
structure Call where
  buf : List UInt8
  i : ℕ
  asleep : Bool
  deriving DecidableEq

/-- The transmit side, with writers named by `ι`. `fifo` holds the bytes written to `THR` and
not yet sent, each with its writer (`none` for `uartputc_sync`); `LSR_TX_IDLE` is set when it
is empty. `pending` is the transmitter's interrupt, raised when its FIFO runs empty and reset
by reading `ISR` or writing `THR`. `calls` is the call of `uartwrite` each writer is in. The
bytes on the line (`sent`) and each writer's finished calls (`done`) are ghost. -/
structure Tx (ι : Type) where
  busy : Bool
  fifo : List (Option ι × UInt8)
  pending : Bool
  calls : ι → Option Call
  sent : List (Option ι × UInt8)
  done : ι → List UInt8

namespace Tx

variable {ι : Type} [DecidableEq ι]

def init : Tx ι := ⟨false, [], false, fun _ => none, [], fun _ => []⟩

/-- Everything written to `THR`, in order: the bytes sent, then those still in the FIFO. -/
def thr (s : Tx ι) : List (Option ι × UInt8) := s.sent ++ s.fifo

/-- `WriteReg(THR, b)` by `src`: the byte joins the FIFO, and the transmitter's interrupt is
reset. -/
def writeTHR (s : Tx ι) (src : Option ι) (b : UInt8) : Tx ι :=
  { s with fifo := s.fifo ++ [(src, b)], pending := false }

def setCall (s : Tx ι) (p : ι) (c : Option Call) : Tx ι :=
  { s with calls := Function.update s.calls p c }

def finish (s : Tx ι) (p : ι) (buf : List UInt8) : Tx ι :=
  { s.setCall p none with done := Function.update s.done p (s.done p ++ buf) }

def sendByte (s : Tx ι) (p : ι) (b : UInt8) : Tx ι :=
  { s.writeTHR (some p) b with busy := true }

/-- One round of `uartwrite`'s loop by `p`'s call `c`, from taking `tx_lock`: it returns once
every byte is written; it sleeps while `tx_busy` is set; otherwise it writes byte `i` to `THR`
and sets `tx_busy`, and then, with bytes left, sleeps on the busy flag it just set. -/
def round (s : Tx ι) (p : ι) (c : Call) : Tx ι :=
  if h : c.i < c.buf.length then
    if s.busy then s.setCall p (some { c with asleep := true })
    else
      let s := s.sendByte p c.buf[c.i]
      if c.i + 1 < c.buf.length then s.setCall p (some ⟨c.buf, c.i + 1, true⟩)
      else s.finish p c.buf
  else s.finish p c.buf

/-- `uartintr`'s transmit half: reading `ISR` acknowledges the interrupt, and when `LSR` says
the transmitter is idle, `tx_busy` is cleared and every writer asleep on `tx_chan` woken. -/
def uartintr (s : Tx ι) : Tx ι :=
  if s.fifo = [] then
    { s with pending := false, busy := false,
             calls := fun p => (s.calls p).map fun c => { c with asleep := false } }
  else { s with pending := false }

/-- The transmitter sends the oldest byte of its FIFO, and raises its interrupt when the FIFO
runs empty. -/
def transmit (s : Tx ι) : Tx ι :=
  match s.fifo with
  | [] => s
  | b :: rest => { s with fifo := rest, sent := s.sent ++ [b], pending := s.pending || rest.isEmpty }

def uartputc_sync (s : Tx ι) (c : UInt8) : Tx ι := s.writeTHR none c

end Tx

open Tx

variable {ι : Type} [DecidableEq ι]

/-- **The steps of the transmit side**: process `p` enters `uartwrite` (from `consolewrite`);
a round of `p`'s call, when it is not asleep; a UART interrupt, raised by the transmitter or by
received bytes; the transmitter sending a byte; and a `uartputc_sync`. -/
inductive Step : Tx ι → Tx ι → Prop
  | call (s : Tx ι) (p : ι) (buf : List UInt8) (h : s.calls p = none) :
      Step s (s.setCall p (some ⟨buf, 0, false⟩))
  | round (s : Tx ι) (p : ι) (c : Call) (h : s.calls p = some c) (ha : c.asleep = false) :
      Step s (s.round p c)
  | intr (s : Tx ι) : Step s s.uartintr
  | transmit (s : Tx ι) : Step s s.transmit
  | sync (s : Tx ι) (c : UInt8) : Step s (s.uartputc_sync c)

/-! ## What each writer has written -/

/-- The bytes that writer `p` wrote among writes to `THR`, in order. -/
def mine (p : ι) (l : List (Option ι × UInt8)) : List UInt8 :=
  l.filterMap fun e => if e.1 = some p then some e.2 else none

@[simp] lemma mine_append (p : ι) (l l' : List (Option ι × UInt8)) :
    mine p (l ++ l') = mine p l ++ mine p l' :=
  List.filterMap_append

@[simp] lemma mine_singleton (p : ι) (src : Option ι) (b : UInt8) :
    mine p [(src, b)] = if src = some p then [b] else [] := by
  by_cases h : src = some p <;> simp [mine, h]

/-- What `p`'s call in progress, if any, has written. -/
def Tx.writing (s : Tx ι) (p : ι) : List UInt8 :=
  ((s.calls p).map fun c => c.buf.take c.i).getD []

/-- **The invariant of the transmit side.** Each writer has written to `THR` its finished calls'
bytes and then the first `i` of its call in progress; no call is past its end; `uartwrite` has
at most one byte in the FIFO, and none when `tx_busy` is clear; a writer sleeps only while
`tx_busy` is set; and while it is set, the FIFO holds a byte or the interrupt that will clear it
is pending. -/
structure Inv (s : Tx ι) : Prop where
  mine : ∀ p, mine p s.thr = s.done p ++ s.writing p
  le : ∀ p c, s.calls p = some c → c.i ≤ c.buf.length
  one : s.fifo.countP (fun e => e.1.isSome) ≤ s.busy.toNat
  asleep_busy : ∀ p c, s.calls p = some c → c.asleep = true → s.busy = true
  busy_inflight : s.busy = true → s.fifo ≠ [] ∨ s.pending = true

section Steps

variable {s : Tx ι} {p : ι} {c : Call}

lemma inv_init : Inv (init : Tx ι) where
  mine _ := rfl
  le _ _ h := by cases h
  one := by simp [init]
  asleep_busy _ _ h := by cases h
  busy_inflight h := by cases h

@[simp] lemma setCall_calls (s : Tx ι) (p : ι) (x : Option Call) :
    (s.setCall p x).calls = Function.update s.calls p x := rfl

@[simp] lemma thr_setCall (s : Tx ι) (p : ι) (x : Option Call) :
    (s.setCall p x).thr = s.thr := rfl

@[simp] lemma done_setCall (s : Tx ι) (p : ι) (x : Option Call) :
    (s.setCall p x).done = s.done := rfl

omit [DecidableEq ι] in
@[simp] lemma thr_sendByte (s : Tx ι) (p : ι) (b : UInt8) :
    (s.sendByte p b).thr = s.thr ++ [(some p, b)] := by
  simp [Tx.sendByte, Tx.writeTHR, Tx.thr]

omit [DecidableEq ι] in
@[simp] lemma done_sendByte (s : Tx ι) (p : ι) (b : UInt8) :
    (s.sendByte p b).done = s.done := rfl

omit [DecidableEq ι] in
@[simp] lemma calls_sendByte (s : Tx ι) (p : ι) (b : UInt8) :
    (s.sendByte p b).calls = s.calls := rfl

lemma writing_setCall (s : Tx ι) (p q : ι) (x : Option Call) :
    (s.setCall p x).writing q =
      if q = p then (x.map fun c => c.buf.take c.i).getD [] else s.writing q := by
  by_cases hq : q = p
  · subst hq
    simp [Tx.writing]
  · simp [Tx.writing, hq]

lemma Inv.setCall (h : Inv s) {x : Option Call}
    (hw : (x.map fun c => c.buf.take c.i).getD [] = s.writing p)
    (hle : ∀ c, x = some c → c.i ≤ c.buf.length)
    (hb : ∀ c, x = some c → c.asleep = true → s.busy = true) : Inv (s.setCall p x) where
  mine q := by
    rw [thr_setCall, writing_setCall]
    split
    · subst q
      rw [hw]
      exact h.mine _
    · exact h.mine q
  le q c' hc := by
    by_cases hq : q = p
    · subst hq
      exact hle c' (by simpa using hc)
    · exact h.le q c' (by simpa [hq] using hc)
  one := h.one
  asleep_busy q c' hc := by
    by_cases hq : q = p
    · subst hq
      exact hb c' (by simpa using hc)
    · exact h.asleep_busy q c' (by simpa [hq] using hc)
  busy_inflight := h.busy_inflight

lemma Inv.call (h : Inv s) (hp : s.calls p = none) (buf : List UInt8) :
    Inv (s.setCall p (some ⟨buf, 0, false⟩)) :=
  h.setCall (by simp [Tx.writing, hp]) (by simp) (by simp)

lemma Inv.finish (h : Inv s) (hc : s.calls p = some c) (hend : c.buf.length ≤ c.i) :
    Inv (s.finish p c.buf) where
  mine q := by
    have hm := h.mine q
    by_cases hq : q = p
    · subst hq
      simp only [Tx.writing, hc, Option.map_some, Option.getD_some,
        List.take_of_length_le hend] at hm
      simpa [Tx.finish, Tx.writing, Tx.thr, Tx.setCall] using hm
    · simpa [Tx.finish, Tx.writing, Tx.thr, Tx.setCall, hq] using hm
  le q c' hc' := by
    by_cases hq : q = p
    · subst hq
      simp [Tx.finish] at hc'
    · exact h.le q c' (by simpa [Tx.finish, hq] using hc')
  one := h.one
  asleep_busy q c' hc' := by
    by_cases hq : q = p
    · subst hq
      simp [Tx.finish] at hc'
    · exact h.asleep_busy q c' (by simpa [Tx.finish, hq] using hc')
  busy_inflight := h.busy_inflight

lemma Inv.sleep (h : Inv s) (hc : s.calls p = some c) (hb : s.busy = true) :
    Inv (s.setCall p (some { c with asleep := true })) :=
  h.setCall (by simp [Tx.writing, hc]) (by simpa using h.le p c hc) fun _ _ _ => hb

lemma Inv.send (h : Inv s) (hc : s.calls p = some c) (hi : c.i < c.buf.length)
    (hb : s.busy = false) :
    Inv ((s.sendByte p c.buf[c.i]).setCall p (some ⟨c.buf, c.i + 1, true⟩)) where
  mine q := by
    have hm := h.mine q
    rw [thr_setCall, writing_setCall, done_setCall, thr_sendByte, done_sendByte, mine_append,
      hm, mine_singleton]
    by_cases hq : q = p
    · subst hq
      simp only [Tx.writing, hc, Option.map_some, Option.getD_some, if_true,
        List.append_assoc, List.take_add_one, List.getElem?_eq_getElem hi, Option.toList_some]
    · have hq' : ¬some p = some q := fun e => hq (Option.some_injective _ e).symm
      simp only [hq, hq', if_false, List.append_nil, Tx.writing, calls_sendByte]
  le q c' hc' := by
    by_cases hq : q = p
    · subst hq
      simp only [setCall_calls, Function.update_self, Option.some.injEq] at hc'
      rw [← hc']
      exact hi
    · exact h.le q c' (by simpa [hq, Tx.sendByte, Tx.writeTHR] using hc')
  one := by
    have h0 := h.one
    rw [hb] at h0
    simp [Tx.sendByte, Tx.writeTHR, Tx.setCall, List.countP_append]
    simpa using h0
  asleep_busy _ _ _ _ := rfl
  busy_inflight _ := .inl (by simp [Tx.sendByte, Tx.writeTHR, Tx.setCall])

lemma finish_setCall (s : Tx ι) (p : ι) (x : Option Call) (buf : List UInt8) :
    (s.setCall p x).finish p buf = s.finish p buf := by
  simp [Tx.finish, Tx.setCall]

/-- **A round of `uartwrite` keeps the invariant**: it returns, sleeps, or writes one byte. -/
lemma Inv.round (h : Inv s) (hc : s.calls p = some c) : Inv (s.round p c) := by
  unfold Tx.round
  by_cases hi : c.i < c.buf.length
  · rw [dif_pos hi]
    cases hb : s.busy
    · have hw := h.send hc hi hb
      simp only [Bool.false_eq_true, if_false]
      by_cases hlast : c.i + 1 < c.buf.length
      · rw [if_pos hlast]
        exact hw
      · rw [if_neg hlast, ← finish_setCall _ p (some ⟨c.buf, c.i + 1, true⟩)]
        exact Inv.finish (c := ⟨c.buf, c.i + 1, true⟩) hw (by simp) (by simp only; omega)
    · simp only [if_true]
      exact h.sleep hc hb
  · rw [dif_neg hi]
    exact h.finish hc (by omega)

lemma Inv.intr (h : Inv s) : Inv s.uartintr := by
  unfold Tx.uartintr
  split
  · rename_i hf
    refine ⟨fun q => ?_, fun q c' hc' => ?_, by simp [hf], fun q c' hc' ha => ?_, by simp⟩
    · cases hq : s.calls q <;> simpa [Tx.writing, Tx.thr, hq] using h.mine q
    · obtain ⟨c₀, hc₀, rfl⟩ := Option.map_eq_some_iff.1 hc'
      exact h.le q c₀ hc₀
    · obtain ⟨c₀, -, rfl⟩ := Option.map_eq_some_iff.1 hc'
      cases ha
  · rename_i hf
    exact ⟨h.mine, h.le, h.one, h.asleep_busy, fun _ => .inl hf⟩

lemma Inv.transmit (h : Inv s) : Inv s.transmit := by
  unfold Tx.transmit
  split
  · exact h
  · rename_i b rest hf
    have hone := h.one
    rw [hf, List.countP_cons] at hone
    refine ⟨fun q => ?_, h.le, by simp only; omega, h.asleep_busy, fun hb => ?_⟩
    · simpa [Tx.thr, Tx.writing, hf] using h.mine q
    · cases rest <;> simp

lemma Inv.sync (h : Inv s) (b : UInt8) : Inv (s.uartputc_sync b) where
  mine q := by simpa [Tx.uartputc_sync, Tx.writeTHR, Tx.thr, Tx.writing,
    ← List.append_assoc] using h.mine q
  le := h.le
  one := by
    have h0 := h.one
    simp only [Tx.uartputc_sync, Tx.writeTHR, List.countP_append]
    simpa using h0
  asleep_busy := h.asleep_busy
  busy_inflight _ := .inl (by simp [Tx.uartputc_sync, Tx.writeTHR])

/-- **Every step keeps the invariant.** -/
theorem Inv.step {s' : Tx ι} (h : Inv s) (hs : Step s s') : Inv s' := by
  cases hs with
  | call p buf hp => exact h.call hp buf
  | round p c hc _ => exact h.round hc
  | intr => exact h.intr
  | transmit => exact h.transmit
  | sync b => exact h.sync b

lemma inv_reach (hr : Reachable (· = init) Step s) : Inv s :=
  hr.induct (fun _ he => he ▸ inv_init) fun _ _ _ h hs => h.step hs

end Steps

/-! ## What every run keeps -/

section Runs

variable {s : Tx ι}

/-- **Each writer's bytes reach `THR` in the order of its buffers, none lost or repeated**:
what writer `p` has written is its finished calls' bytes, then the first `i` of its call in
progress, and the line carries a prefix of that. -/
theorem uart_order (hr : Reachable (· = init) Step s) (p : ι) :
    mine p s.thr = s.done p ++ s.writing p ∧ mine p s.sent <+: s.done p ++ s.writing p := by
  have h := (inv_reach hr).mine p
  refine ⟨h, ?_⟩
  rw [← h, Tx.thr, mine_append]
  exact List.prefix_append _ _

theorem uart_order_init :
    mine true (init : Tx Bool).thr = (init : Tx Bool).done true ++ (init : Tx Bool).writing true ∧
      mine true (init : Tx Bool).sent <+:
        (init : Tx Bool).done true ++ (init : Tx Bool).writing true :=
  uart_order (.init rfl) true

/-- **`uartwrite` has at most one byte in the FIFO**, and none while `tx_busy` is clear: it
never writes `THR` before the transmitter has gone idle after its last byte. -/
theorem uart_one_inflight (hr : Reachable (· = init) Step s) :
    s.fifo.countP (fun e => e.1.isSome) ≤ 1 ∧ (s.busy = false → ∀ e ∈ s.fifo, e.1 = none) := by
  have h := (inv_reach hr).one
  refine ⟨h.trans (by cases s.busy <;> decide), fun hb e he => ?_⟩
  rw [hb, Bool.toNat_false, Nat.le_zero, List.countP_eq_zero] at h
  simpa using h e he

theorem uart_one_inflight_init :
    (init : Tx Bool).fifo.countP (fun e => e.1.isSome) ≤ 1 ∧
      ((init : Tx Bool).busy = false → ∀ e ∈ (init : Tx Bool).fifo, e.1 = none) :=
  uart_one_inflight (.init rfl)

/-! ## Every call finishes -/

/-- The steps that need nothing from outside the transmit side: rounds of the calls in
progress, the transmitter sending, and the interrupt it raised itself. -/
inductive Drive : Tx ι → Tx ι → Prop
  | round (s : Tx ι) (p : ι) (c : Call) (h : s.calls p = some c) (ha : c.asleep = false) :
      Drive s (s.round p c)
  | intr (s : Tx ι) (h : s.pending = true) : Drive s s.uartintr
  | transmit (s : Tx ι) : Drive s s.transmit

lemma Drive.step {s' : Tx ι} : Drive s s' → Step s s'
  | .round _ p c h ha => .round _ p c h ha
  | .intr _ _ => .intr _
  | .transmit _ => .transmit _

lemma Inv.drives {s' : Tx ι} (h : Inv s) (hs : Relation.ReflTransGen Drive s s') : Inv s' := by
  induction hs with
  | refl => exact h
  | tail _ hst ih => exact ih.step hst.step

/-- The transmitter's FIFO sent out. -/
def Tx.flush (s : Tx ι) : Tx ι :=
  { s with fifo := [], sent := s.sent ++ s.fifo, pending := s.pending || !s.fifo.isEmpty }

lemma flush_drives : ∀ (s : Tx ι), Relation.ReflTransGen Drive s s.flush := by
  -- one `transmit` per byte of the FIFO
  suffices ∀ n (s : Tx ι), s.fifo.length = n → Relation.ReflTransGen Drive s s.flush from
    fun s => this _ s rfl
  intro n
  induction n with
  | zero =>
    intro s hn
    have hf : s.fifo = [] := List.length_eq_zero_iff.1 hn
    have : s.flush = s := by
      cases s
      simp_all [Tx.flush]
    rw [this]
  | succ n ih =>
    intro s hn
    obtain ⟨b, rest, hf⟩ := List.exists_cons_of_length_eq_add_one hn
    have ht : s.transmit.flush = s.flush := by
      cases s
      simp only at hf
      subst hf
      cases rest <;> simp [Tx.flush, Tx.transmit]
    have hlen : s.transmit.fifo.length = n := by
      simp [Tx.transmit, hf] at hn ⊢
      omega
    rw [← ht]
    exact .head (.transmit s) (ih _ hlen)

/-- What a call has left to do: its bytes left, and returning. -/
def weight : Option Call → ℕ
  | none => 0
  | some c => c.buf.length - c.i + 1

/-- What the calls in progress have left to do. -/
def Tx.work [Fintype ι] (s : Tx ι) : ℕ := ∑ p, weight (s.calls p)

variable [Fintype ι]

lemma work_lt_of_update {s' : Tx ι} {p : ι} {x : Option Call}
    (hcalls : s'.calls = Function.update s.calls p x) (hx : weight x < weight (s.calls p)) :
    s'.work < s.work := by
  unfold Tx.work
  rw [hcalls]
  refine Finset.sum_lt_sum (fun q _ => ?_) ⟨p, Finset.mem_univ p, by simpa using hx⟩
  by_cases hq : q = p
  · subst hq
    simpa using hx.le
  · simp [hq]

lemma work_round_lt {p : ι} {c : Call} (hb : s.busy = false) (hc : s.calls p = some c) :
    (s.round p c).work < s.work := by
  unfold Tx.round
  by_cases hi : c.i < c.buf.length
  · simp only [dif_pos hi, hb, Bool.false_eq_true, if_false]
    split
    · exact work_lt_of_update (p := p) (x := some ⟨c.buf, c.i + 1, true⟩) (by simp)
        (by simp only [weight, hc]; omega)
    · exact work_lt_of_update (p := p) (x := none) (by simp [Tx.finish])
        (by simp [weight, hc])
  · rw [dif_neg hi]
    exact work_lt_of_update (p := p) (x := none) (by simp [Tx.finish]) (by simp [weight, hc])

omit [DecidableEq ι] [Fintype ι] in
lemma uartintr_calls (hf : s.fifo = []) :
    s.uartintr.calls = fun q => (s.calls q).map fun c => { c with asleep := false } := by
  simp [Tx.uartintr, hf]

omit [DecidableEq ι] [Fintype ι] in
lemma uartintr_busy (hf : s.fifo = []) : s.uartintr.busy = false := by
  simp [Tx.uartintr, hf]

lemma weight_wake (x : Option Call) :
    weight (x.map fun c => { c with asleep := false }) = weight x := by
  cases x <;> rfl

/-- **One cycle of the transmit side**: the FIFO drains, the interrupt it raised clears
`tx_busy` and wakes the writers, and one of them writes a byte or returns. -/
lemma Inv.cycle (h : Inv s) {p : ι} {c : Call} (hc : s.calls p = some c) :
    ∃ s', Relation.ReflTransGen Drive s s' ∧ s'.work < s.work := by
  have h₁ := h.drives (flush_drives s)
  have hc₁ : s.flush.calls p = some c := hc
  have hw₁ : s.flush.work = s.work := rfl
  cases hb : s.flush.busy
  · -- `tx_busy` clear: nobody sleeps, and `p`'s call runs
    have ha : c.asleep = false := by
      cases hca : c.asleep
      · rfl
      · cases hb.symm.trans (h₁.asleep_busy p c hc₁ hca)
    exact ⟨_, (flush_drives s).tail (.round _ p c hc₁ ha), hw₁ ▸ work_round_lt hb hc₁⟩
  · -- `tx_busy` set with the FIFO empty: the interrupt is pending
    have hpend : s.flush.pending = true := by
      rcases h₁.busy_inflight hb with hf | hp
      · exact absurd rfl hf
      · exact hp
    have hf : s.flush.fifo = [] := rfl
    have hc₂ : s.flush.uartintr.calls p = some { c with asleep := false } := by
      simp [uartintr_calls hf, hc₁]
    have hw₂ : s.flush.uartintr.work = s.work := by
      rw [← hw₁]
      simp only [Tx.work, uartintr_calls hf, weight_wake]
    have hb₂ : s.flush.uartintr.busy = false := uartintr_busy hf
    exact ⟨_, ((flush_drives s).tail (.intr _ hpend)).tail (.round _ p _ hc₂ rfl),
      hw₂ ▸ work_round_lt hb₂ hc₂⟩

lemma Inv.finish_all (h : Inv s) :
    ∃ s', Relation.ReflTransGen Drive s s' ∧ ∀ p, s'.calls p = none := by
  -- on what the calls have left to do
  induction hn : s.work using Nat.strong_induction_on generalizing s with
  | _ n ih =>
    by_cases hall : ∀ p, s.calls p = none
    · exact ⟨s, .refl, hall⟩
    · obtain ⟨p, hp⟩ := not_forall.1 hall
      obtain ⟨c, hc⟩ := Option.ne_none_iff_exists'.1 hp
      obtain ⟨s₁, hs₁, hlt⟩ := h.cycle hc
      obtain ⟨s', hs', hdone⟩ := ih _ (hn ▸ hlt) (h.drives hs₁) rfl
      exact ⟨s', hs₁.trans hs', hdone⟩

/-- **No wakeup is lost, and every call finishes.** A writer sleeps only while a byte is in the
FIFO or the transmitter's interrupt is pending; and from any reachable state, rounds of the
calls, the transmitter and its own interrupts alone bring every call of `uartwrite` to return. -/
theorem uart_finish (hr : Reachable (· = init) Step s) :
    (∀ p c, s.calls p = some c → c.asleep = true → s.fifo ≠ [] ∨ s.pending = true) ∧
      ∃ s', Relation.ReflTransGen Drive s s' ∧ ∀ p, s'.calls p = none := by
  have h := inv_reach hr
  exact ⟨fun p c hc ha => h.busy_inflight (h.asleep_busy p c hc ha), h.finish_all⟩

theorem uart_finish_init :
    (∀ p c, (init : Tx Bool).calls p = some c → c.asleep = true →
        (init : Tx Bool).fifo ≠ [] ∨ (init : Tx Bool).pending = true) ∧
      ∃ s', Relation.ReflTransGen Drive (init : Tx Bool) s' ∧ ∀ p, s'.calls p = none :=
  uart_finish (.init rfl)

end Runs

/-! ## Two writes interleave

Between two rounds of one call the other writer may take `tx_lock`: the transmitter sends the
byte, its interrupt clears `tx_busy` and wakes both writers, and either may write next. So the
bytes of two calls can reach the line in any interleaving. -/

section Interleave

omit [DecidableEq ι] in
@[simp] lemma fifo_transmit (s : Tx ι) : s.transmit.fifo = s.fifo.tail := by
  rcases hf : s.fifo with _ | ⟨b, rest⟩ <;> simp [Tx.transmit, hf]

omit [DecidableEq ι] in
@[simp] lemma thr_transmit (s : Tx ι) : s.transmit.thr = s.thr := by
  rcases hf : s.fifo with _ | ⟨b, rest⟩ <;> simp [Tx.transmit, Tx.thr, hf]

omit [DecidableEq ι] in
@[simp] lemma calls_transmit (s : Tx ι) : s.transmit.calls = s.calls := by
  rcases hf : s.fifo with _ | ⟨b, rest⟩ <;> simp [Tx.transmit, hf]

omit [DecidableEq ι] in
@[simp] lemma fifo_uartintr (s : Tx ι) : s.uartintr.fifo = s.fifo := by
  unfold Tx.uartintr
  split_ifs <;> rfl

omit [DecidableEq ι] in
@[simp] lemma thr_uartintr (s : Tx ι) : s.uartintr.thr = s.thr := by
  unfold Tx.uartintr Tx.thr
  split_ifs <;> rfl

/-- The call after a round that writes its byte `i`: asleep before the next byte, or returned
after the last. -/
def Call.next (c : Call) : Option Call :=
  if c.i + 1 < c.buf.length then some ⟨c.buf, c.i + 1, true⟩ else none

lemma round_write {s : Tx ι} {p : ι} {c : Call} (hb : s.busy = false) (hi : c.i < c.buf.length) :
    (s.round p c).fifo = s.fifo ++ [(some p, c.buf[c.i])] ∧
      (s.round p c).thr = s.thr ++ [(some p, c.buf[c.i])] ∧
      (s.round p c).calls = Function.update s.calls p c.next := by
  unfold Tx.round Call.next
  simp only [dif_pos hi, hb, Bool.false_eq_true, if_false]
  split_ifs <;> simp [Tx.sendByte, Tx.writeTHR, Tx.finish, Tx.setCall, Tx.thr]

lemma round_done {s : Tx ι} {p : ι} {c : Call} (hi : ¬c.i < c.buf.length) :
    (s.round p c).thr = s.thr ∧ (s.round p c).calls = Function.update s.calls p none := by
  simp [Tx.round, hi, Tx.finish, Tx.setCall, Tx.thr]

/-- Bytes tagged with the writer that writes them, as they stand in `THR`. -/
def lift (m : List (Bool × UInt8)) : List (Option Bool × UInt8) := m.map fun e => (some e.1, e.2)

@[simp] lemma lift_nil : lift [] = [] := rfl

@[simp] lemma lift_cons (p : Bool) (b : UInt8) (m : List (Bool × UInt8)) :
    lift ((p, b) :: m) = (some p, b) :: lift m := rfl

lemma mine_lift_cons (q p : Bool) (b : UInt8) (m : List (Bool × UInt8)) :
    mine q (lift ((p, b) :: m)) = if p = q then b :: mine q (lift m) else mine q (lift m) := by
  rw [lift_cons, ← List.singleton_append, mine_append, mine_singleton]
  by_cases h : p = q <;> simp [h]

/-- A writer with the bytes `rest` left to write: returned with none left, or in a call with
exactly those left. -/
def Rest (x : Option Call) (rest : List UInt8) : Prop :=
  (x = none ∧ rest = []) ∨ ∃ c, x = some c ∧ c.buf.drop c.i = rest

lemma Rest.wake {x : Option Call} {rest : List UInt8} (h : Rest x rest) :
    Rest (x.map fun c => { c with asleep := false }) rest := by
  rcases h with ⟨rfl, rfl⟩ | ⟨c, rfl, hd⟩
  · exact .inl ⟨rfl, rfl⟩
  · exact .inr ⟨_, rfl, hd⟩

/-- A writer with `b` left to write first is in a call whose next byte is `b`. -/
lemma Rest.cons {x : Option Call} {b : UInt8} {rest : List UInt8} (h : Rest x (b :: rest)) :
    ∃ c, x = some c ∧ ∃ hi : c.i < c.buf.length, c.buf[c.i] = b ∧ c.buf.drop (c.i + 1) = rest := by
  rcases h with ⟨-, h⟩ | ⟨c, rfl, hd⟩
  · cases h
  · have hi : c.i < c.buf.length := by
      by_contra hle
      rw [List.drop_eq_nil_of_le (not_lt.1 hle)] at hd
      cases hd
    rw [List.drop_eq_getElem_cons hi, List.cons.injEq] at hd
    exact ⟨c, rfl, hi, hd⟩

/-- After the round that writes byte `i`, the call goes on with the bytes after it, or has
returned with none left. -/
lemma Rest.next {c : Call} {rest : List UInt8} (hd : c.buf.drop (c.i + 1) = rest) :
    Rest c.next rest := by
  unfold Call.next
  split_ifs with hlt
  · exact .inr ⟨_, rfl, hd⟩
  · exact .inl ⟨rfl, hd.symm.trans (List.drop_eq_nil_of_le (not_lt.1 hlt))⟩

/-- Between two bytes: the FIFO sent, `tx_busy` clear, both writers awake, and each with its
bytes of `m` left to write. -/
def Quiet (s : Tx Bool) (m : List (Bool × UInt8)) : Prop :=
  s.fifo = [] ∧ s.busy = false ∧ (∀ p c, s.calls p = some c → c.asleep = false) ∧
    ∀ p, Rest (s.calls p) (mine p (lift m))

/-- **One byte of writer `p`**: its round writes the byte, the transmitter sends it, and the
interrupt that raises clears `tx_busy` and wakes both writers. -/
lemma Quiet.cycle {s : Tx Bool} {p : Bool} {b : UInt8} {m : List (Bool × UInt8)}
    (h : Quiet s ((p, b) :: m)) :
    ∃ s', Relation.ReflTransGen Step s s' ∧ Quiet s' m ∧ s'.thr = s.thr ++ [(some p, b)] := by
  obtain ⟨hf, hb, ha, hr⟩ := h
  -- `p`'s call, with `b` next
  have hp := hr p
  rw [mine_lift_cons, if_pos rfl] at hp
  obtain ⟨c, hc, hi, hbyte, hd⟩ := hp.cons
  obtain ⟨hfifo, hthr, hcalls⟩ := round_write (p := p) hb hi
  -- the round, the transmitter, the interrupt
  have hf₂ : (s.round p c).transmit.fifo = [] := by simp [hfifo, hf]
  refine ⟨(s.round p c).transmit.uartintr,
    ((Relation.ReflTransGen.single (.round s p c hc (ha p c hc))).tail (.transmit _)).tail (.intr _),
    ⟨(fifo_uartintr _).trans hf₂, uartintr_busy hf₂, fun q c' hc' => ?_, fun q => ?_⟩, ?_⟩
  · rw [uartintr_calls hf₂] at hc'
    obtain ⟨c'', -, rfl⟩ := Option.map_eq_some_iff.1 hc'
    rfl
  · rw [uartintr_calls hf₂, calls_transmit, hcalls]
    apply Rest.wake
    by_cases hq : q = p
    · subst hq
      rw [Function.update_self]
      exact Rest.next hd
    · rw [Function.update_of_ne hq]
      have := hr q
      rwa [mine_lift_cons, if_neg (Ne.symm hq)] at this
  · rw [thr_uartintr, thr_transmit, hthr, hbyte]

lemma rest_nil_finish {s : Tx Bool} {p : Bool} (hr : Rest (s.calls p) [])
    (ha : ∀ c, s.calls p = some c → c.asleep = false) :
    ∃ s', Relation.ReflTransGen Step s s' ∧ s'.calls = Function.update s.calls p none ∧
      s'.thr = s.thr := by
  rcases hr with ⟨hn, -⟩ | ⟨c, hc, hd⟩
  · exact ⟨s, .refl, (Function.update_eq_self_iff.2 hn.symm).symm, rfl⟩
  · have hi : ¬c.i < c.buf.length := fun hi => by
      rw [List.drop_eq_getElem_cons hi] at hd
      cases hd
    obtain ⟨hthr, hcalls⟩ := round_done (s := s) (p := p) hi
    exact ⟨s.round p c, .single (.round s p c hc (ha c hc)), hcalls, hthr⟩

/-- With no byte left, both writers return. -/
lemma Quiet.finish {s : Tx Bool} (h : Quiet s []) :
    ∃ s', Relation.ReflTransGen Step s s' ∧ (∀ p, s'.calls p = none) ∧ s'.thr = s.thr := by
  obtain ⟨-, -, ha, hr⟩ := h
  obtain ⟨s₁, hs₁, hc₁, ht₁⟩ := rest_nil_finish (hr true) (ha true)
  have hfalse : s₁.calls false = s.calls false := by
    rw [hc₁, Function.update_of_ne (by decide)]
  obtain ⟨s₂, hs₂, hc₂, ht₂⟩ := rest_nil_finish (s := s₁) (p := false)
    (by rw [hfalse]; exact hr false) (fun c h => ha false c (hfalse ▸ h))
  refine ⟨s₂, hs₁.trans hs₂, fun p => ?_, ht₂.trans ht₁⟩
  cases p
  · rw [hc₂, Function.update_self]
  · rw [hc₂, Function.update_of_ne (by decide), hc₁, Function.update_self]

/-- From between two bytes, the writers put the bytes of `m` on the line in its order, and
return. -/
lemma Quiet.drive {m : List (Bool × UInt8)} {s : Tx Bool} (h : Quiet s m) :
    ∃ s', Relation.ReflTransGen Step s s' ∧ (∀ p, s'.calls p = none) ∧
      s'.thr = s.thr ++ lift m := by
  -- one cycle for each byte of `m`
  induction m generalizing s with
  | nil =>
    obtain ⟨s', hs, hn, ht⟩ := h.finish
    exact ⟨s', hs, hn, by rw [ht, lift_nil, List.append_nil]⟩
  | cons e m ih =>
    obtain ⟨p, b⟩ := e
    obtain ⟨s₁, hs₁, hq, ht₁⟩ := h.cycle
    obtain ⟨s', hs', hn, ht⟩ := ih hq
    exact ⟨s', hs₁.trans hs', hn, by rw [ht, ht₁, lift_cons, List.append_assoc, List.singleton_append]⟩

end Interleave

end Xv6.Uart
