import Xv6.Param
import Xv6.Lib.Reach
import Xv6.Lib.Tally

/-!
The admission protocol of the log (`begin_op`, `log_write` and `end_op` of `log.c`), run
by any number of processes at once.

Each critical section under `log.lock` is one step. A process is outside any file-system
call, asleep in `begin_op` on `&log`, woken there and about to check again, running an
operation between `begin_op` and `end_op`, or in the commit its `end_op` started: first
`commit()` itself, then the section that clears `log.committing`. `commit()` runs without
the lock; no other process touches the log meanwhile, so it is one step too. Its disk
writes are `Xv6.LogCommit.commit`; here it only empties the in-memory header.

A running operation writes at most `MAXOPBLOCKS` distinct blocks, any of them again. Beside
its program counter the model keeps, as ghost state, the blocks it has written and the
number of header slots its writes added.
-/

namespace Xv6.LogAdmission

open Xv6.Param Xv6.Lib.Reach Xv6.Lib.Tally

/-- The fields of `struct log` that the protocol uses; `lh` is `lh.block[0..lh.n)`. -/
structure Log where
  outstanding : ℤ
  committing : Bool
  lh : List ℕ
  deriving DecidableEq, Repr

/-- One pass of the loop of `begin_op`: `none` when it sleeps on `&log`. -/
def begin_op (l : Log) : Option Log :=
  if l.committing then none
  else if (LOGBLOCKS : ℤ) < l.lh.length + (l.outstanding + 1) * MAXOPBLOCKS then none
  else some { l with outstanding := l.outstanding + 1 }

/-- `log_write` of block `b`: an error is the `panic` with its message. -/
def log_write (l : Log) (b : ℕ) : Except String Log :=
  if LOGBLOCKS ≤ l.lh.length then .error "too big a transaction"
  else if l.outstanding < 1 then .error "log_write outside of trans"
  -- the scan stops at the slot holding `b`, or at `lh.n`: then `b` takes a new slot
  else if l.lh.idxOf b = l.lh.length then .ok { l with lh := l.lh ++ [b] }
  else .ok l

/-- The first critical section of `end_op`, and whether its caller is to commit. -/
def end_op (l : Log) : Except String (Bool × Log) :=
  let l := { l with outstanding := l.outstanding - 1 }
  if l.committing then .error "log.committing"
  else if l.outstanding = 0 then .ok (true, { l with committing := true })
  else .ok (false, l)

/-- `commit()` on the in-memory log. -/
def commit (l : Log) : Log := if 0 < l.lh.length then { l with lh := [] } else l

/-! ### What each critical section does -/

lemma begin_op_eq_some {l l' : Log} (h : begin_op l = some l') :
    l.committing = false ∧ (l.lh.length : ℤ) + (l.outstanding + 1) * MAXOPBLOCKS ≤ LOGBLOCKS ∧
      l' = { l with outstanding := l.outstanding + 1 } := by
  unfold begin_op at h
  split_ifs at h with hc hfull
  cases h
  exact ⟨by simpa using hc, by omega, rfl⟩

lemma log_write_eq_ok {l l' : Log} {b : ℕ} (h : log_write l b = .ok l') :
    l.lh.length < LOGBLOCKS ∧ 1 ≤ l.outstanding ∧
      ((b ∈ l.lh ∧ l' = l) ∨ (b ∉ l.lh ∧ l' = { l with lh := l.lh ++ [b] })) := by
  unfold log_write at h
  split_ifs at h with hfull hout hnew <;> cases h
  · exact ⟨by omega, by omega, .inr ⟨List.idxOf_eq_length_iff.mp hnew, rfl⟩⟩
  · refine ⟨by omega, by omega, .inl ⟨?_, rfl⟩⟩
    exact List.idxOf_lt_length_iff.mp (lt_of_le_of_ne (List.idxOf_le_length) hnew)

lemma end_op_eq_ok {l l' : Log} {c : Bool} (h : end_op l = .ok (c, l')) :
    l.committing = false ∧ (c = true ↔ l.outstanding - 1 = 0) ∧
      l' = { l with outstanding := l.outstanding - 1, committing := c } := by
  unfold end_op at h
  dsimp only at h
  split_ifs at h with hc hz <;> cases h
  · exact ⟨by simpa using hc, by simpa using hz, rfl⟩
  · exact ⟨by simpa using hc, by simpa using hz, by simpa using hc⟩

@[simp] lemma commit_lh (l : Log) : (commit l).lh = [] := by
  unfold commit
  split_ifs with h
  · rfl
  · exact List.eq_nil_of_length_eq_zero (by omega)

@[simp] lemma commit_outstanding (l : Log) : (commit l).outstanding = l.outstanding := by
  unfold commit; split_ifs <;> rfl

@[simp] lemma commit_committing (l : Log) : (commit l).committing = l.committing := by
  unfold commit; split_ifs <;> rfl

/-- Where a process is in the protocol. -/
inductive Pc
  | idle
  | asleep
  | woken
  | running (ws : List ℕ) (added : ℕ)
  | committing
  | committed
  deriving DecidableEq, Repr

/-- Operations running: `log.outstanding` counts them. -/
def Pc.active : Pc → ℕ
  | .running _ _ => 1
  | _ => 0

/-- The header slots a running operation may still take. -/
def Pc.need : Pc → ℕ
  | .running _ added => MAXOPBLOCKS - added
  | _ => 0

/-- Holding the commit: `log.committing` is set for it. -/
def Pc.inCommit : Pc → ℕ
  | .committing | .committed => 1
  | _ => 0

@[simp] lemma Pc.active_running (ws : List ℕ) (added : ℕ) : (Pc.running ws added).active = 1 :=
  rfl

@[simp] lemma Pc.need_running (ws : List ℕ) (added : ℕ) :
    (Pc.running ws added).need = MAXOPBLOCKS - added := rfl

@[simp] lemma Pc.inCommit_running (ws : List ℕ) (added : ℕ) :
    (Pc.running ws added).inCommit = 0 := rfl

lemma Pc.need_le (c : Pc) : c.need ≤ MAXOPBLOCKS * c.active := by
  cases c <;> simp [Pc.need, Pc.active]

/-- The log and every process. -/
structure Sys (ι : Type*) where
  log : Log
  pc : ι → Pc

variable {ι : Type*}

/-- `wakeup(&log)`. -/
def wakeup (pc : ι → Pc) (q : ι) : Pc := if pc q = .asleep then .woken else pc q

/-- After `initlog`: the header recovered and empty, every process outside the file system. -/
def boot : Sys ι := ⟨⟨0, false, []⟩, fun _ => .idle⟩

lemma wakeup_of_ne {pc : ι → Pc} {q : ι} (h : pc q ≠ .asleep) : wakeup pc q = pc q := by
  rw [wakeup, if_neg h]

lemma wakeup_eq_running {pc : ι → Pc} {q : ι} {ws : List ℕ} {added : ℕ} :
    wakeup pc q = .running ws added ↔ pc q = .running ws added := by
  unfold wakeup
  split_ifs with h <;> simp [h]

/-! ### The invariant -/

section Inv

variable [Fintype ι] {s : Sys ι}

/-- A count that does not tell an asleep process from a woken one ignores `wakeup`. -/
lemma sum_wakeup (g : Pc → ℕ) (hg : g .woken = g .asleep) (pc : ι → Pc) :
    ∑ q, g (wakeup pc q) = ∑ q, g (pc q) := by
  refine Finset.sum_congr rfl fun q _ => ?_
  unfold wakeup
  split_ifs with h
  · rw [hg, h]
  · rfl

lemma sum_need_le (pc : ι → Pc) : ∑ q, (pc q).need ≤ MAXOPBLOCKS * ∑ q, (pc q).active := by
  rw [Finset.mul_sum]
  exact Finset.sum_le_sum fun q _ => (pc q).need_le

/-- What holds in every reachable state: `log.outstanding` counts the running operations,
`log.committing` is set for exactly one process in the commit and only when none runs, the
header names distinct blocks and leaves a slot for every block the running operations may
still add, and each operation has written at most `MAXOPBLOCKS` distinct blocks, all in the
header, and added no more slots than blocks. -/
structure Inv (s : Sys ι) : Prop where
  outstanding_eq : s.log.outstanding = ∑ q, (s.pc q).active
  inCommit_eq : ∑ q, (s.pc q).inCommit = if s.log.committing then 1 else 0
  quiet : s.log.committing = true → s.log.outstanding = 0
  nodup : s.log.lh.Nodup
  budget : s.log.lh.length + ∑ q, (s.pc q).need ≤ LOGBLOCKS
  running : ∀ q ws added, s.pc q = .running ws added →
    ws.Nodup ∧ ws ⊆ s.log.lh ∧ added ≤ ws.length ∧ ws.length ≤ MAXOPBLOCKS

lemma Inv.active_eq_zero (h : Inv s) (hc : s.log.committing = true) (q : ι) :
    (s.pc q).active = 0 := by
  have hsum : ∑ q, (s.pc q).active = 0 := by
    have := h.quiet hc
    rw [h.outstanding_eq] at this
    exact_mod_cast this
  exact Finset.sum_eq_zero_iff.mp hsum q (Finset.mem_univ q)

lemma Inv.committing_of (h : Inv s) {q : ι} (hq : (s.pc q).inCommit = 1) :
    s.log.committing = true := by
  have hle : (s.pc q).inCommit ≤ ∑ q, (s.pc q).inCommit :=
    Finset.single_le_sum (f := fun q => (s.pc q).inCommit) (fun _ _ => Nat.zero_le _)
      (Finset.mem_univ q)
  rw [h.inCommit_eq, hq] at hle
  by_contra hc
  simp [hc] at hle

lemma Inv.not_committing (h : Inv s) {ws : List ℕ} {added : ℕ}
    (hp : s.pc p = .running ws added) : s.log.committing = false := by
  by_contra hc
  have := h.active_eq_zero (by simpa using hc) p
  rw [hp, Pc.active_running] at this
  exact one_ne_zero this

lemma inv_boot : Inv (boot : Sys ι) := by
  refine ⟨?_, ?_, ?_, List.nodup_nil, ?_, ?_⟩ <;> simp [boot, Pc.active, Pc.inCommit, Pc.need]

end Inv

variable [DecidableEq ι]

/-- The steps of the protocol. -/
inductive Step : Sys ι → Sys ι → Prop
  | begin_ok (s : Sys ι) (p : ι) (l : Log) : s.pc p = .idle ∨ s.pc p = .woken →
      begin_op s.log = some l → Step s ⟨l, Function.update s.pc p (.running [] 0)⟩
  | begin_sleep (s : Sys ι) (p : ι) : s.pc p = .idle ∨ s.pc p = .woken →
      begin_op s.log = none → Step s ⟨s.log, Function.update s.pc p .asleep⟩
  | write (s : Sys ι) (p : ι) (ws : List ℕ) (added b : ℕ) (l : Log) :
      s.pc p = .running ws added → b ∈ ws ∨ ws.length < MAXOPBLOCKS →
      log_write s.log b = .ok l →
      Step s ⟨l, Function.update s.pc p
        (.running (if b ∈ ws then ws else b :: ws) (added + (l.lh.length - s.log.lh.length)))⟩
  | end_ok (s : Sys ι) (p : ι) (ws : List ℕ) (added : ℕ) (c : Bool) (l : Log) :
      s.pc p = .running ws added → end_op s.log = .ok (c, l) →
      Step s ⟨l, if c then Function.update s.pc p .committing
        else Function.update (wakeup s.pc) p .idle⟩
  | commit_write (s : Sys ι) (p : ι) : s.pc p = .committing →
      Step s ⟨commit s.log, Function.update s.pc p .committed⟩
  | commit_end (s : Sys ι) (p : ι) : s.pc p = .committed →
      Step s ⟨{ s.log with committing := false }, Function.update (wakeup s.pc) p .idle⟩

/-- The states the protocol reaches. -/
abbrev Reach : Sys ι → Prop := Reachable (· = boot) Step

/-! ### Every step keeps the invariant -/

section Steps

variable [Fintype ι] {s : Sys ι} {p : ι}

lemma inv_begin_ok {l : Log} (h : Inv s) (hp : s.pc p = .idle ∨ s.pc p = .woken)
    (hb : begin_op s.log = some l) : Inv ⟨l, Function.update s.pc p (.running [] 0)⟩ := by
  obtain ⟨hc, hroom, rfl⟩ := begin_op_eq_some hb
  -- the caller held nothing, and now holds one operation with all its slots to take
  have h0 : ∀ g : Pc → ℕ, g .idle = 0 → g .woken = 0 → g (s.pc p) = 0 := by
    intro g hi hw
    rcases hp with hp | hp <;> rw [hp] <;> assumption
  have ha := sum_update_add Pc.active s.pc p (.running [] 0)
  have hn := sum_update_add Pc.need s.pc p (.running [] 0)
  have hi := sum_update_add Pc.inCommit s.pc p (.running [] 0)
  rw [h0 Pc.active rfl rfl, Pc.active_running] at ha
  rw [h0 Pc.need rfl rfl, Pc.need_running] at hn
  rw [h0 Pc.inCommit rfl rfl, Pc.inCommit_running] at hi
  have hneed := sum_need_le s.pc
  have hout := h.outstanding_eq
  have hbud := h.budget
  have hcom := h.inCommit_eq
  have hM : MAXOPBLOCKS = 10 := rfl
  have hL : LOGBLOCKS = 30 := rfl
  rw [hM] at hneed hn hroom
  refine ⟨?_, ?_, ?_, h.nodup, ?_, ?_⟩ <;> dsimp only
  · omega
  · simp only [hc, Bool.false_eq_true, if_false] at hcom ⊢; omega
  · simp [hc]
  · omega
  · intro q ws added hq
    by_cases hqp : q = p
    · subst hqp
      simp only [Function.update_self, Pc.running.injEq] at hq
      obtain ⟨rfl, rfl⟩ := hq
      simp
    · rw [Function.update_of_ne hqp] at hq
      exact h.running q ws added hq

lemma inv_begin_sleep (h : Inv s) (hp : s.pc p = .idle ∨ s.pc p = .woken) :
    Inv ⟨s.log, Function.update s.pc p .asleep⟩ := by
  -- asleep, idle and woken all count for nothing
  have h0 : ∀ g : Pc → ℕ, g .asleep = 0 → g .idle = 0 → g .woken = 0 →
      ∑ q, g (Function.update s.pc p .asleep q) = ∑ q, g (s.pc q) := by
    intro g ha hi hw
    apply sum_update_of_eq
    rcases hp with hp | hp <;> rw [hp, ha] <;> simp [hi, hw]
  refine ⟨?_, ?_, h.quiet, h.nodup, ?_, ?_⟩ <;> dsimp only
  · rw [h0 Pc.active rfl rfl rfl]; exact h.outstanding_eq
  · rw [h0 Pc.inCommit rfl rfl rfl]; exact h.inCommit_eq
  · rw [h0 Pc.need rfl rfl rfl]; exact h.budget
  · intro q ws added hq
    by_cases hqp : q = p
    · subst hqp; simp at hq
    · rw [Function.update_of_ne hqp] at hq
      exact h.running q ws added hq

/-- A running process that writes a block keeps running and counting as one operation. -/
lemma sum_write (ws' : List ℕ) (added' : ℕ) {ws : List ℕ} {added : ℕ}
    (hp : s.pc p = .running ws added) :
    ∑ q, (Function.update s.pc p (.running ws' added') q).active = ∑ q, (s.pc q).active ∧
    ∑ q, (Function.update s.pc p (.running ws' added') q).inCommit = ∑ q, (s.pc q).inCommit :=
  ⟨sum_update_of_eq _ _ _ _ (by rw [hp]; rfl), sum_update_of_eq _ _ _ _ (by rw [hp]; rfl)⟩

lemma inv_write {ws : List ℕ} {added b : ℕ} {l : Log} (h : Inv s)
    (hp : s.pc p = .running ws added) (hb : b ∈ ws ∨ ws.length < MAXOPBLOCKS)
    (hl : log_write s.log b = .ok l) :
    Inv ⟨l, Function.update s.pc p
      (.running (if b ∈ ws then ws else b :: ws) (added + (l.lh.length - s.log.lh.length)))⟩ := by
  obtain ⟨-, -, hcase⟩ := log_write_eq_ok hl
  obtain ⟨hnd, hsub, hadd, hmax⟩ := h.running p ws added hp
  obtain ⟨ha, hi⟩ := sum_write (if b ∈ ws then ws else b :: ws)
    (added + (l.lh.length - s.log.lh.length)) hp
  -- the other operations are untouched, and keep their blocks in a header that only grows
  have hothers : ∀ q ws' added', q ≠ p → s.pc q = .running ws' added' →
      ws'.Nodup ∧ ws' ⊆ l.lh ∧ added' ≤ ws'.length ∧ ws'.length ≤ MAXOPBLOCKS := by
    intro q ws' added' _ hq
    obtain ⟨h₁, h₂, h₃, h₄⟩ := h.running q ws' added' hq
    refine ⟨h₁, fun x hx => ?_, h₃, h₄⟩
    rcases hcase with ⟨-, rfl⟩ | ⟨-, rfl⟩
    · exact h₂ hx
    · exact List.mem_append_left _ (h₂ hx)
  rcases hcase with ⟨hmem, rfl⟩ | ⟨hnew, rfl⟩
  · -- absorbed: no slot is taken
    rw [Nat.sub_self, Nat.add_zero] at ha hi ⊢
    have hn : ∑ q, (Function.update s.pc p
        (.running (if b ∈ ws then ws else b :: ws) added) q).need = ∑ q, (s.pc q).need :=
      sum_update_of_eq _ _ _ _ (by rw [hp]; rfl)
    refine ⟨?_, ?_, h.quiet, h.nodup, ?_, ?_⟩ <;> dsimp only
    · rw [ha]; exact h.outstanding_eq
    · rw [hi]; exact h.inCommit_eq
    · rw [hn]; exact h.budget
    · intro q ws' added' hq
      by_cases hqp : q = p
      · subst hqp
        simp only [Function.update_self, Pc.running.injEq] at hq
        obtain ⟨rfl, rfl⟩ := hq
        by_cases hbw : b ∈ ws
        · simpa [hbw] using h.running _ ws added hp
        · have hlt := hb.resolve_left hbw
          simp only [hbw, if_false]
          refine ⟨List.nodup_cons.mpr ⟨hbw, hnd⟩, List.cons_subset.mpr ⟨hmem, hsub⟩, ?_, ?_⟩ <;>
            simp only [List.length_cons] <;> omega
      · rw [Function.update_of_ne hqp] at hq
        exact hothers q ws' added' hqp hq
  · -- a new slot: the header grows by one, and so does what the operation has taken
    have hbws : b ∉ ws := fun hb' => hnew (hsub hb')
    have hlt : ws.length < MAXOPBLOCKS := hb.resolve_left hbws
    have hone : (s.log.lh ++ [b]).length - s.log.lh.length = 1 := by simp
    rw [hone] at ha hi ⊢
    simp only [hbws, if_false] at ha hi ⊢
    have hn := sum_update_add Pc.need s.pc p (.running (b :: ws) (added + 1))
    rw [hp, Pc.need_running, Pc.need_running] at hn
    have hbud := h.budget
    refine ⟨?_, ?_, h.quiet, ?_, ?_, ?_⟩ <;> dsimp only
    · rw [ha]; exact h.outstanding_eq
    · rw [hi]; exact h.inCommit_eq
    · refine List.nodup_append.mpr ⟨h.nodup, List.nodup_singleton b, fun x hx y hy => ?_⟩
      rw [List.mem_singleton] at hy
      subst hy
      rintro rfl
      exact hnew hx
    · rw [List.length_append, List.length_singleton]; omega
    · intro q ws' added' hq
      by_cases hqp : q = p
      · subst hqp
        simp only [Function.update_self, Pc.running.injEq] at hq
        obtain ⟨rfl, rfl⟩ := hq
        refine ⟨List.nodup_cons.mpr ⟨hbws, hnd⟩, ?_, by simp; omega, by simp; omega⟩
        exact List.cons_subset.mpr ⟨by simp, fun x hx => List.mem_append_left _ (hsub hx)⟩
      · rw [Function.update_of_ne hqp] at hq
        exact hothers q ws' added' hqp hq

/-- An operation that ends gives up its blocks' claim: the other operations keep theirs. -/
lemma running_of_update {c : Pc} (h : Inv s) (hc : ∀ ws added, c ≠ .running ws added)
    {pc : ι → Pc} (hpc : ∀ q ws added, pc q = .running ws added ↔ s.pc q = .running ws added)
    (q : ι) (ws : List ℕ) (added : ℕ) (hq : Function.update pc p c q = .running ws added) :
    ws.Nodup ∧ ws ⊆ s.log.lh ∧ added ≤ ws.length ∧ ws.length ≤ MAXOPBLOCKS := by
  by_cases hqp : q = p
  · subst hqp
    rw [Function.update_self] at hq
    exact absurd hq (hc ws added)
  · rw [Function.update_of_ne hqp, hpc] at hq
    exact h.running q ws added hq

lemma inv_end_ok {ws : List ℕ} {added : ℕ} {c : Bool} {l : Log} (h : Inv s)
    (hp : s.pc p = .running ws added) (he : end_op s.log = .ok (c, l)) :
    Inv ⟨l, if c then Function.update s.pc p .committing
      else Function.update (wakeup s.pc) p .idle⟩ := by
  obtain ⟨hc, hz, rfl⟩ := end_op_eq_ok he
  have hcom := h.inCommit_eq
  simp only [hc, Bool.false_eq_true, if_false] at hcom
  have hout := h.outstanding_eq
  have hbud := h.budget
  cases c with
  | true =>
    -- the last operation ended: its caller takes the commit
    have ha := sum_update_add Pc.active s.pc p .committing
    have hn := sum_update_add Pc.need s.pc p .committing
    have hi := sum_update_add Pc.inCommit s.pc p .committing
    rw [hp, Pc.active_running] at ha
    rw [hp, Pc.need_running] at hn
    rw [hp, Pc.inCommit_running] at hi
    refine ⟨?_, ?_, fun _ => hz.mp rfl, h.nodup, ?_,
      running_of_update h (fun _ _ => by simp) (fun _ _ _ => Iff.rfl)⟩ <;> simp only [if_true]
    · have : (Pc.committing).active = 0 := rfl
      omega
    · have : (Pc.committing).inCommit = 1 := rfl
      omega
    · have : (Pc.committing).need = 0 := rfl
      omega
  | false =>
    -- others still run: the caller leaves, and the sleepers are woken
    have hwp : wakeup s.pc p = s.pc p := wakeup_of_ne (by rw [hp]; simp)
    have ha := sum_update_add Pc.active (wakeup s.pc) p .idle
    have hn := sum_update_add Pc.need (wakeup s.pc) p .idle
    have hi := sum_update_add Pc.inCommit (wakeup s.pc) p .idle
    rw [hwp, hp, Pc.active_running, sum_wakeup _ rfl] at ha
    rw [hwp, hp, Pc.need_running, sum_wakeup _ rfl] at hn
    rw [hwp, hp, Pc.inCommit_running, sum_wakeup _ rfl] at hi
    refine ⟨?_, ?_, fun hf => absurd hf Bool.false_ne_true, h.nodup, ?_,
      running_of_update h (fun _ _ => by simp) (fun _ _ _ => wakeup_eq_running)⟩ <;>
      simp only [Bool.false_eq_true, if_false]
    · have : (Pc.idle).active = 0 := rfl
      omega
    · have : (Pc.idle).inCommit = 0 := rfl
      omega
    · have : (Pc.idle).need = 0 := rfl
      omega

lemma inv_commit_write (h : Inv s) (hp : s.pc p = .committing) :
    Inv ⟨commit s.log, Function.update s.pc p .committed⟩ := by
  have hc : s.log.committing = true := h.committing_of (q := p) (by rw [hp]; rfl)
  -- no operation runs, so none has a slot to take
  have hidle := h.active_eq_zero hc
  have hneed : ∑ q, (Function.update s.pc p .committed q).need = 0 := by
    refine Finset.sum_eq_zero fun q _ => ?_
    by_cases hqp : q = p
    · subst hqp; rw [Function.update_self]; rfl
    · rw [Function.update_of_ne hqp]
      have := (s.pc q).need_le
      rw [hidle q] at this
      omega
  refine ⟨?_, ?_, ?_, ?_, ?_, ?_⟩ <;>
    simp only [commit_outstanding, commit_committing, commit_lh]
  · rw [sum_update_of_eq _ _ _ _ (by rw [hp]; rfl)]; exact h.outstanding_eq
  · rw [sum_update_of_eq _ _ _ _ (by rw [hp]; rfl)]; exact h.inCommit_eq
  · exact h.quiet
  · exact List.nodup_nil
  · rw [hneed]; simp
  · intro q ws added hq
    have hact := hidle q
    by_cases hqp : q = p
    · subst hqp; simp at hq
    · rw [Function.update_of_ne hqp] at hq
      rw [hq, Pc.active_running] at hact
      exact absurd hact one_ne_zero

lemma inv_commit_end (h : Inv s) (hp : s.pc p = .committed) :
    Inv ⟨{ s.log with committing := false }, Function.update (wakeup s.pc) p .idle⟩ := by
  have hc : s.log.committing = true := h.committing_of (q := p) (by rw [hp]; rfl)
  have hwp : wakeup s.pc p = .committed := by rw [wakeup_of_ne (by rw [hp]; simp), hp]
  have hcom := h.inCommit_eq
  rw [hc, if_pos rfl] at hcom
  -- the committer lets go of the commit; nothing else changes but the sleepers, woken
  have hi := sum_update_add Pc.inCommit (wakeup s.pc) p .idle
  rw [hwp, sum_wakeup _ rfl] at hi
  have hsame : ∀ g : Pc → ℕ, g .woken = g .asleep → g .idle = g .committed →
      ∑ q, g (Function.update (wakeup s.pc) p .idle q) = ∑ q, g (s.pc q) := by
    intro g hg hic
    rw [sum_update_of_eq _ _ _ _ (by rw [hwp, hic]), sum_wakeup _ hg]
  refine ⟨?_, ?_, fun hf => absurd hf Bool.false_ne_true, h.nodup, ?_,
    running_of_update h (fun _ _ => by simp) (fun _ _ _ => wakeup_eq_running)⟩ <;> dsimp only
  · rw [hsame _ rfl rfl]; exact h.outstanding_eq
  · have : (Pc.idle).inCommit = 0 := rfl
    have : (Pc.committed).inCommit = 1 := rfl
    simp only [Bool.false_eq_true, if_false]
    omega
  · rw [hsame _ rfl rfl]; exact h.budget

lemma inv_step {s' : Sys ι} (h : Inv s) (hs : Step s s') : Inv s' := by
  cases hs with
  | begin_ok p l hp hb => exact inv_begin_ok h hp hb
  | begin_sleep p hp _ => exact inv_begin_sleep h hp
  | write p ws added b l hp hb hl => exact inv_write h hp hb hl
  | end_ok p ws added c l hp he => exact inv_end_ok h hp he
  | commit_write p hp => exact inv_commit_write h hp
  | commit_end p hp => exact inv_commit_end h hp

/-- Every reachable state keeps the invariant. -/
theorem inv_reach (h : Reach s) : Inv s := by
  induction h with
  | init h₀ => rw [h₀]; exact inv_boot
  | step _ hs ih => exact inv_step ih hs

end Steps

/-! ### What the invariant rules out, and what it does not -/

section Safety

variable [Fintype ι] {s : Sys ι} {p : ι}

/-- **The reservation invariant.** In every reachable state a commit runs only with no
operation outstanding, the header names distinct blocks, and the header and the slots the
running operations may still take fit in the log. -/
theorem reach_reservation (h : Reach s) :
    (s.log.committing = true → s.log.outstanding = 0) ∧ s.log.lh.Nodup ∧
      s.log.lh.length + ∑ q, (s.pc q).need ≤ LOGBLOCKS :=
  have hi := inv_reach h
  ⟨hi.quiet, hi.nodup, hi.budget⟩

/-- `end_op` of a running operation does not reach the panic `log.committing`. -/
theorem end_op_ok (h : Reach s) {ws : List ℕ} {added : ℕ} (hp : s.pc p = .running ws added) :
    ∃ c l, end_op s.log = .ok (c, l) := by
  have hc := (inv_reach h).not_committing hp
  unfold end_op
  dsimp only
  rw [if_neg (by simp [hc])]
  split_ifs
  · exact ⟨_, _, rfl⟩
  · exact ⟨_, _, rfl⟩

/-- While a process commits, no operation runs: `commit()` copies only blocks of operations
that have called `end_op`. -/
theorem commit_after_end (h : Reach s) (hp : s.pc p = .committing ∨ s.pc p = .committed)
    (q : ι) (ws : List ℕ) (added : ℕ) : s.pc q ≠ .running ws added := by
  have hi := inv_reach h
  have hc : s.log.committing = true := by
    apply hi.committing_of (q := p)
    rcases hp with hp | hp <;> rw [hp] <;> rfl
  intro hq
  have := hi.active_eq_zero hc q
  rw [hq, Pc.active_running] at this
  exact one_ne_zero this

/-- `log_write` of a block that takes a new header slot does not panic. -/
theorem log_write_new_ok (h : Reach s) {ws : List ℕ} {added b : ℕ}
    (hp : s.pc p = .running ws added) (hb : b ∈ ws ∨ ws.length < MAXOPBLOCKS)
    (hnew : b ∉ s.log.lh) : log_write s.log b = .ok { s.log with lh := s.log.lh ++ [b] } := by
  have hi := inv_reach h
  obtain ⟨-, hsub, hadd, -⟩ := hi.running p ws added hp
  have hlt : ws.length < MAXOPBLOCKS := hb.resolve_left fun hbw => hnew (hsub hbw)
  -- the operation still has a slot to take, and it is counted in the budget
  have hneed : (s.pc p).need ≤ ∑ q, (s.pc q).need :=
    Finset.single_le_sum (f := fun q => (s.pc q).need) (fun _ _ => Nat.zero_le _)
      (Finset.mem_univ p)
  have hact : (s.pc p).active ≤ ∑ q, (s.pc q).active :=
    Finset.single_le_sum (f := fun q => (s.pc q).active) (fun _ _ => Nat.zero_le _)
      (Finset.mem_univ p)
  rw [hp, Pc.need_running] at hneed
  rw [hp, Pc.active_running] at hact
  have hbud := hi.budget
  have hout := hi.outstanding_eq
  unfold log_write
  rw [if_neg (by omega), if_neg (by omega), if_pos (List.idxOf_eq_length_iff.mpr hnew)]

end Safety

/-- A running operation writing, one after another, blocks that are new to the header. -/
lemma reach_writes {s : Sys ι} (h : Reach s) (p : ι) {ws : List ℕ} {added : ℕ}
    (hp : s.pc p = .running ws added) (bs : List ℕ) (hnd : bs.Nodup)
    (hnew : ∀ b ∈ bs, b ∉ s.log.lh ∧ b ∉ ws) (hmax : ws.length + bs.length ≤ MAXOPBLOCKS)
    (hroom : s.log.lh.length + bs.length ≤ LOGBLOCKS) (hout : 1 ≤ s.log.outstanding) :
    ∃ s', Reach s' ∧ s'.log = { s.log with lh := s.log.lh ++ bs } ∧
      s'.pc = Function.update s.pc p (.running (bs.reverse ++ ws) (added + bs.length)) := by
  induction bs generalizing s ws added with
  | nil => exact ⟨s, h, by simp, by simp [← hp]⟩
  | cons b bs ih =>
    obtain ⟨hb, hbs⟩ := List.nodup_cons.mp hnd
    obtain ⟨hbl, hbw⟩ := hnew b List.mem_cons_self
    simp only [List.length_cons] at hmax hroom
    have hl : log_write s.log b = .ok { s.log with lh := s.log.lh ++ [b] } := by
      unfold log_write
      rw [if_neg (by omega), if_neg (by omega), if_pos (List.idxOf_eq_length_iff.mpr hbl)]
    have h₁ := h.step (Step.write s p ws added b _ hp (.inr (by omega)) hl)
    simp only [hbw, if_false, List.length_append, List.length_singleton,
      Nat.add_sub_cancel_left] at h₁
    -- the rest of the blocks are new to the longer header and to the longer list of writes
    have hnew' : ∀ c ∈ bs, c ∉ s.log.lh ++ [b] ∧ c ∉ b :: ws := by
      intro c hc
      have hcb : c ≠ b := fun e => hb (e ▸ hc)
      obtain ⟨hcl, hcw⟩ := hnew c (List.mem_cons_of_mem b hc)
      simp [hcl, hcw, hcb]
    obtain ⟨s', h', hl', hp'⟩ := ih h₁ (Function.update_self p _ s.pc) hbs hnew' (by simp; omega) (by simp; omega) hout
    refine ⟨s', h', ?_, ?_⟩
    · rw [hl']
      simp
    · rw [hp', Function.update_idem]
      simp only [List.reverse_cons, List.append_assoc, List.singleton_append, List.length_cons]
      rw [show added + 1 + bs.length = added + (bs.length + 1) by omega]

/-- Three operations begin at once, each writes ten new blocks, and the first writes its
first block again: `log_write` panics although that write needs no new slot. -/
theorem log_write_absorbed_panics :
    ∃ s : Sys (Fin 3), Reach s ∧ s.log = ⟨3, false, List.range' 100 30⟩ ∧
      s.pc 0 = .running (List.range' 100 10).reverse 10 ∧ 100 ∈ (List.range' 100 10).reverse ∧
      log_write s.log 100 = .error "too big a transaction" := by
  have r₀ : Reach (boot : Sys (Fin 3)) := Reachable.init rfl
  have r₁ := r₀.step (Step.begin_ok _ 0 ⟨1, false, []⟩ (.inl rfl) (by decide))
  have r₂ := r₁.step (Step.begin_ok _ 1 ⟨2, false, []⟩ (.inl rfl) (by decide))
  have r₃ := r₂.step (Step.begin_ok _ 2 ⟨3, false, []⟩ (.inl rfl) (by decide))
  obtain ⟨s₄, r₄, hl₄, hp₄⟩ := reach_writes r₃ 0 rfl (List.range' 100 10) List.nodup_range'
    (by simp) (by decide) (by decide) (by decide)
  obtain ⟨s₅, r₅, hl₅, hp₅⟩ := reach_writes r₄ 1 (by rw [hp₄]; rfl) (List.range' 110 10)
    List.nodup_range' (by rw [hl₄]; decide) (by decide) (by rw [hl₄]; decide) (by rw [hl₄]; decide)
  obtain ⟨s₆, r₆, hl₆, hp₆⟩ := reach_writes r₅ 2 (by rw [hp₅, hp₄]; rfl) (List.range' 120 10)
    List.nodup_range' (by rw [hl₅, hl₄]; decide) (by decide) (by rw [hl₅, hl₄]; decide)
    (by rw [hl₅, hl₄]; decide)
  refine ⟨s₆, r₆, ?_, ?_, by decide, ?_⟩
  · rw [hl₆, hl₅, hl₄]; decide
  · rw [hp₆, hp₅, hp₄]; decide
  · rw [hl₆, hl₅, hl₄]; rfl

end Xv6.LogAdmission
