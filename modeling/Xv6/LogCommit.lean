import Xv6.Param
import Xv6.Lib.Crash

/-!
The on-disk side of the write-ahead log of `log.c`: the block writes `commit` issues, the
ones `recover_from_log` issues, and what a crash between any two of them leaves.

The disk is the log header at block `log.start`, kept decoded as the `n` and
`block[0..n)` it holds (`read_head` reads no more of it and `write_head` writes no more),
and every other block, with data of any type. Log slot `tail` is block
`log.start + tail + 1`. One `bwrite` is one write; `install_trans` reads a log block
through the cache while committing and from the disk while recovering, and both hold what
`write_log` wrote, so it copies one block of the disk to another. The printing and the
`bunpin` that its `recovering` flag selects write nothing.
-/

namespace Xv6.LogCommit

open Xv6.Param Xv6.Lib.Crash

variable {α : Type*}

/-- The disk: the decoded log header, and every other block. -/
structure Disk (α : Type*) where
  head : List ℕ
  blk : ℕ → α

inductive Write (α : Type*)
  /-- a buffer holding `v` written to block `b` -/
  | blk (b : ℕ) (v : α)
  /-- the data of block `src` written to block `dst` -/
  | copy (src dst : ℕ)
  /-- `write_head` of an in-memory header naming `lh` -/
  | head (lh : List ℕ)

def Write.apply : Write α → Disk α → Disk α
  | .blk b v, d => ⟨d.head, Function.update d.blk b v⟩
  | .copy src dst, d => ⟨d.head, Function.update d.blk dst (d.blk src)⟩
  | .head lh, d => ⟨lh, d.blk⟩

/-- `write_log` from slot `tail` on: the cached data of each logged block to its slot. -/
def write_log (start : ℕ) (cache : ℕ → α) : ℕ → List ℕ → List (Write α)
  | _, [] => []
  | tail, b :: bs => .blk (start + tail + 1) (cache b) :: write_log start cache (tail + 1) bs

/-- `install_trans` from slot `tail` on: each slot copied to the block it logs. -/
def install_trans (start : ℕ) : ℕ → List ℕ → List (Write α)
  | _, [] => []
  | tail, b :: bs => .copy (start + tail + 1) b :: install_trans start (tail + 1) bs

/-- `commit` of the in-memory header `lh`, the pinned blocks holding `cache`: the log, the
header (the commit point), the installation, and the header cleared. -/
def commit (start : ℕ) (cache : ℕ → α) (lh : List ℕ) : List (Write α) :=
  if 0 < lh.length then
    (write_log start cache 0 lh ++ [.head lh]) ++ (install_trans start 0 lh ++ [.head []])
  else []

/-- `recover_from_log`: `read_head`, `install_trans(1)`, and the header cleared. -/
def recover_from_log (start : ℕ) (d : Disk α) : List (Write α) :=
  install_trans start 0 d.head ++ [.head []]

def recovered (start : ℕ) (d : Disk α) : Disk α := run Write.apply (recover_from_log start d) d

/-- A block outside the log: neither the header nor one of the `LOGBLOCKS` slots. -/
def NonLog (start b : ℕ) : Prop := b < start ∨ start + LOGBLOCKS < b

@[simp] lemma apply_blk (b : ℕ) (v : α) (d : Disk α) :
    Write.apply (.blk b v) d = ⟨d.head, Function.update d.blk b v⟩ := rfl

@[simp] lemma apply_copy (src dst : ℕ) (d : Disk α) :
    Write.apply (.copy src dst) d = ⟨d.head, Function.update d.blk dst (d.blk src)⟩ := rfl

@[simp] lemma apply_head (lh : List ℕ) (d : Disk α) :
    Write.apply (.head lh) d = ⟨lh, d.blk⟩ := rfl

lemma NonLog.ne_slot {start b i : ℕ} (hb : NonLog start b) (hi : i < LOGBLOCKS) :
    start + i + 1 ≠ b := by
  unfold NonLog at hb; omega

section Phases

variable {start : ℕ} {cache : ℕ → α}

lemma write_log_take (t k : ℕ) (bs : List ℕ) :
    (write_log start cache t bs).take k = write_log start cache t (bs.take k) := by
  induction bs generalizing t k with
  | nil => simp [write_log]
  | cons b bs ih =>
    cases k with
    | zero => simp [write_log]
    | succ k => simp [write_log, ih]

@[simp] lemma write_log_length (t : ℕ) (bs : List ℕ) :
    (write_log start cache t bs).length = bs.length := by
  induction bs generalizing t with
  | nil => rfl
  | cons b bs ih => simp [write_log, ih]

lemma write_log_head (t : ℕ) (bs : List ℕ) (d : Disk α) :
    (run Write.apply (write_log start cache t bs) d).head = d.head := by
  induction bs generalizing t d with
  | nil => rfl
  | cons b bs ih => exact ih (t + 1) _

lemma write_log_other (t : ℕ) (bs : List ℕ) (d : Disk α) {a : ℕ}
    (ha : a ≤ start + t ∨ start + t + bs.length < a) :
    (run Write.apply (write_log start cache t bs) d).blk a = d.blk a := by
  induction bs generalizing t d with
  | nil => rfl
  | cons b bs ih =>
    simp only [write_log, run_cons, apply_blk, List.length_cons] at ha ⊢
    rw [ih (t + 1) _ (by omega)]
    exact Function.update_of_ne (by omega) _ _

lemma write_log_slot (t : ℕ) (bs : List ℕ) (d : Disk α) (i : ℕ) (hi : i < bs.length) :
    (run Write.apply (write_log start cache t bs) d).blk (start + t + i + 1) = cache bs[i] := by
  induction bs generalizing t d i with
  | nil => simp at hi
  | cons b bs ih =>
    simp only [write_log, run_cons, apply_blk]
    cases i with
    | zero =>
      -- the first slot is written first, and no later write of this `write_log` touches it
      rw [write_log_other (t + 1) bs _ (by omega)]
      simp
    | succ i =>
      have h := ih (t + 1) ⟨d.head, Function.update d.blk (start + t + 1) (cache b)⟩ i
        (by simpa using hi)
      rwa [show start + (t + 1) + i + 1 = start + t + (i + 1) + 1 by omega] at h

lemma install_trans_take (t k : ℕ) (bs : List ℕ) :
    (install_trans start t bs : List (Write α)).take k = install_trans start t (bs.take k) := by
  induction bs generalizing t k with
  | nil => simp [install_trans]
  | cons b bs ih =>
    cases k with
    | zero => simp [install_trans]
    | succ k => simp [install_trans, ih]

@[simp] lemma install_trans_length (t : ℕ) (bs : List ℕ) :
    (install_trans start t bs : List (Write α)).length = bs.length := by
  induction bs generalizing t with
  | nil => rfl
  | cons b bs ih => simp [install_trans, ih]

lemma install_trans_head (t : ℕ) (bs : List ℕ) (d : Disk α) :
    (run Write.apply (install_trans start t bs) d).head = d.head := by
  induction bs generalizing t d with
  | nil => rfl
  | cons b bs ih => exact ih (t + 1) _

/-- **What `install_trans` does.** When each slot from `t` on holds `v` of the block it logs,
and the blocks lie outside the log, installing leaves each logged block holding `v` and
every other block as it was. -/
lemma install_trans_blk (v : ℕ → α) (t : ℕ) (bs : List ℕ) (d : Disk α)
    (hnl : ∀ b ∈ bs, NonLog start b) (hlen : t + bs.length ≤ LOGBLOCKS)
    (hslot : ∀ i (h : i < bs.length), d.blk (start + t + i + 1) = v bs[i]) (a : ℕ) :
    (run Write.apply (install_trans start t bs) d).blk a = if a ∈ bs then v a else d.blk a := by
  induction bs generalizing t d with
  | nil => simp [install_trans]
  | cons b bs ih =>
    simp only [install_trans, run_cons, apply_copy]
    have hb : NonLog start b := hnl b List.mem_cons_self
    have hfirst : d.blk (start + t + 1) = v b := by
      have h0 := hslot 0 (by simp)
      simp only [Nat.add_zero, List.getElem_cons_zero] at h0
      exact h0
    -- the copy into `b` leaves the later slots as they were
    have hrest : ∀ i (h : i < bs.length),
        Function.update d.blk b (d.blk (start + t + 1)) (start + (t + 1) + i + 1) = v bs[i] := by
      intro i h
      have hne : start + (t + 1) + i + 1 ≠ b := by
        have := hb.ne_slot (i := t + 1 + i) (by simp at hlen; omega)
        omega
      rw [Function.update_of_ne hne]
      have hs := hslot (i + 1) (by simpa using h)
      rwa [show start + t + (i + 1) + 1 = start + (t + 1) + i + 1 by omega,
        List.getElem_cons_succ] at hs
    rw [ih (t + 1) _ (fun c hc => hnl c (List.mem_cons_of_mem b hc)) (by simp at hlen; omega)
      hrest, hfirst]
    by_cases hab : a = b
    · subst hab; simp
    · by_cases ha : a ∈ bs <;> simp [ha, hab]

end Phases

/-- The blocks after the group `lh` is installed over `old`: the group's cached data in the
blocks it names, the old data elsewhere. -/
def overlay (lh : List ℕ) (cache old : ℕ → α) (b : ℕ) : α := if b ∈ lh then cache b else old b

/-- No transaction in the header, and the blocks outside the log holding `v`. -/
structure Clean (start : ℕ) (v : ℕ → α) (d : Disk α) : Prop where
  head : d.head = []
  home : ∀ b, NonLog start b → d.blk b = v b

/-- The header names `lh`, each of its slots holds `v` of the block it logs, and the blocks
outside the log that `lh` does not name hold `v`. -/
structure Committed (start : ℕ) (lh : List ℕ) (v : ℕ → α) (d : Disk α) : Prop where
  head : d.head = lh
  slot : ∀ i (h : i < lh.length), d.blk (start + i + 1) = v lh[i]
  home : ∀ b, NonLog start b → b ∉ lh → d.blk b = v b

section Recovery

variable {start : ℕ} {lh : List ℕ} {v : ℕ → α} {d : Disk α}
  (hnl : ∀ b ∈ lh, NonLog start b) (hlen : lh.length ≤ LOGBLOCKS)

include hnl hlen in
lemma Committed.install_take (h : Committed start lh v d) (k : ℕ) :
    Committed start lh v (run Write.apply (install_trans start 0 (lh.take k)) d) := by
  have hslot : ∀ i (hi : i < (lh.take k).length),
      d.blk (start + 0 + i + 1) = v (lh.take k)[i] := by
    intro i hi
    rw [Nat.add_zero, List.getElem_take]
    exact h.slot i (by simp at hi; omega)
  have hblk := install_trans_blk v 0 (lh.take k) d
    (fun b hb => hnl b (List.mem_of_mem_take hb)) (by simp; omega) hslot
  refine ⟨by rw [install_trans_head, h.head], fun i hi => ?_, fun b hb hnot => ?_⟩
  · -- a slot is not a block of the transaction
    have hns : start + i + 1 ∉ lh.take k := fun hm =>
      (hnl _ (List.mem_of_mem_take hm)).ne_slot (i := i) (by omega) rfl
    rw [hblk, if_neg hns, h.slot i hi]
  · rw [hblk, if_neg (fun hm => hnot (List.mem_of_mem_take hm)), h.home b hb hnot]

include hnl hlen in
/-- Installing all of a committed transaction and clearing the header leaves the log clean. -/
lemma Committed.install (h : Committed start lh v d) :
    Clean start v (run Write.apply (install_trans start 0 lh ++ [Write.head []]) d) := by
  have hblk := install_trans_blk v 0 lh d hnl (by omega)
    (fun i hi => by rw [Nat.add_zero]; exact h.slot i hi)
  simp only [run_append, run_cons, run_nil, apply_head]
  refine ⟨rfl, fun b hb => ?_⟩
  dsimp only
  rw [hblk]
  split_ifs with hm
  · rfl
  · exact h.home b hb hm

include hnl hlen in
lemma Committed.run_take (h : Committed start lh v d) (k : ℕ) :
    Committed start lh v
        (run Write.apply ((install_trans start 0 lh ++ [Write.head []]).take k) d) ∨
      Clean start v (run Write.apply ((install_trans start 0 lh ++ [Write.head []]).take k) d) := by
  by_cases hk : k ≤ lh.length
  · left
    rw [List.take_append_of_le_length (by simpa using hk), install_trans_take]
    exact h.install_take hnl hlen k
  · right
    rw [List.take_of_length_le (by simp; omega)]
    exact h.install hnl hlen

lemma Clean.run_take (h : Clean start v d) (k : ℕ) :
    Clean start v (run Write.apply ((recover_from_log start d).take k) d) := by
  rw [recover_from_log, h.head]
  cases k with
  | zero => exact h
  | succ k =>
    simp only [install_trans, List.nil_append, List.take_succ_cons, List.take_nil, run_cons,
      run_nil, apply_head]
    exact ⟨rfl, h.home⟩

include hnl hlen in
/-- Recovery, stopped after any prefix of its writes, keeps the disk committed or clean. -/
lemma recover_take (h : Committed start lh v d ∨ Clean start v d) (k : ℕ) :
    Committed start lh v (run Write.apply ((recover_from_log start d).take k) d) ∨
    Clean start v (run Write.apply ((recover_from_log start d).take k) d) := by
  rcases h with h | h
  · rw [recover_from_log, h.head]
    exact h.run_take hnl hlen k
  · exact Or.inr (h.run_take k)

include hnl hlen in
lemma recovered_clean (h : Committed start lh v d ∨ Clean start v d) :
    Clean start v (recovered start d) := by
  rcases h with h | h
  · rw [recovered, recover_from_log, h.head]
    exact h.install hnl hlen
  · have hc := h.run_take (recover_from_log start d).length
    rwa [List.take_length] at hc

include hnl hlen in
/-- **Recovery with crashes.** From a committed or a clean disk, recovery that crashes any
number of times before it completes leaves the log clean and the blocks holding `v`. -/
theorem recovers_clean (h : Committed start lh v d ∨ Clean start v d) {d' : Disk α}
    (hr : Recovers Write.apply (recover_from_log start) d d') : Clean start v d' :=
  Recovers.inv (I := fun s => Committed start lh v s ∨ Clean start v s) (Q := Clean start v)
    (fun _ k hs => recover_take hnl hlen hs k) (fun _ hs => recovered_clean hnl hlen hs) hr h

end Recovery

lemma recovered_of_head {start : ℕ} {d : Disk α} (h : d.head = []) : recovered start d = d := by
  obtain ⟨head, blk⟩ := d
  dsimp only at h
  subst h
  rfl

section CommitCrash

variable {start : ℕ} {lh : List ℕ} {cache old : ℕ → α} {d₀ : Disk α}
  (hnl : ∀ b ∈ lh, NonLog start b) (hlen : lh.length ≤ LOGBLOCKS)

include hlen in
lemma committed_after_write_head (hd : Clean start old d₀) :
    Committed start lh (overlay lh cache old)
      (run Write.apply (write_log start cache 0 lh ++ [Write.head lh]) d₀) := by
  simp only [run_append, run_cons, run_nil, apply_head]
  refine ⟨rfl, fun i hi => ?_, fun b hb hnot => ?_⟩
  · have h : (run Write.apply (write_log start cache 0 lh) d₀).blk (start + i + 1) =
        cache lh[i] := write_log_slot 0 lh d₀ i hi
    dsimp only
    rw [h, overlay, if_pos (List.getElem_mem hi)]
  · have hout : b ≤ start + 0 ∨ start + 0 + lh.length < b := by unfold NonLog at hb; omega
    rw [write_log_other 0 lh d₀ hout, hd.home b hb, overlay, if_neg hnot]

include hnl hlen in
/-- **Where a crash during `commit` leaves the disk.** From a clean log, after any prefix of
the writes of `commit`, the log is clean with the old data, or holds the committed group,
or is clean with the group installed. -/
lemma commit_take (hd : Clean start old d₀) (k : ℕ) :
    Clean start old (run Write.apply ((commit start cache lh).take k) d₀) ∨
    Committed start lh (overlay lh cache old) (run Write.apply ((commit start cache lh).take k) d₀) ∨
    Clean start (overlay lh cache old) (run Write.apply ((commit start cache lh).take k) d₀) := by
  unfold commit
  split_ifs with hpos
  · rw [run_take_append]
    by_cases hk : k ≤ lh.length
    · -- the crash came while the log was written: the header is still clean
      left
      have h0 : k - (write_log start cache 0 lh ++ [Write.head lh]).length = 0 := by simp; omega
      rw [h0, List.take_zero, run_nil, List.take_append_of_le_length (by simpa using hk),
        write_log_take]
      refine ⟨by rw [write_log_head, hd.head], fun b hb => ?_⟩
      have hout : b ≤ start + 0 ∨ start + 0 + (lh.take k).length < b := by
        have := List.length_take_le k lh
        unfold NonLog at hb; omega
      rw [write_log_other 0 _ d₀ hout, hd.home b hb]
    · -- past the header write the group is committed, and installing keeps it so
      right
      have hall : (write_log start cache 0 lh ++ [Write.head lh]).take k =
          write_log start cache 0 lh ++ [Write.head lh] := List.take_of_length_le (by simp; omega)
      rw [hall]
      exact (committed_after_write_head hlen hd).run_take hnl hlen _
  · left
    simpa using hd

include hnl hlen in
/-- **The log makes a commit group crash-atomic.** A group's in-memory header `lh` names at
most `LOGBLOCKS` blocks outside the log, whose cached data is `cache`, and the disk `d₀`
before it has a clean header. Crash after any prefix of the writes of `commit`, then recover,
with any number of crashes during recovery: the header is clean, and either every block
outside the log holds its data from before the group or every one holds the group's data.
Recovering once more changes nothing. -/
theorem commit_crash_atomic (hd₀ : d₀.head = []) (k : ℕ) {d : Disk α}
    (hr : Recovers Write.apply (recover_from_log start)
      (run Write.apply ((commit start cache lh).take k) d₀) d) :
    d.head = [] ∧
    ((∀ b, NonLog start b → d.blk b = d₀.blk b) ∨
      (∀ b, NonLog start b → d.blk b = if b ∈ lh then cache b else d₀.blk b)) ∧
    recovered start d = d := by
  have hclean : Clean start d₀.blk d₀ := ⟨hd₀, fun _ _ => rfl⟩
  rcases commit_take hnl hlen hclean k with h | h | h
  · have hc := recovers_clean hnl hlen (Or.inr h) hr
    exact ⟨hc.head, Or.inl hc.home, recovered_of_head hc.head⟩
  · have hc := recovers_clean hnl hlen (Or.inl h) hr
    exact ⟨hc.head, Or.inr hc.home, recovered_of_head hc.head⟩
  · have hc := recovers_clean hnl hlen (Or.inr h) hr
    exact ⟨hc.head, Or.inr hc.home, recovered_of_head hc.head⟩

end CommitCrash

theorem commit_crash_atomic_two_blocks :
    let d₀ : Disk ℕ := ⟨[], fun _ => 0⟩
    let d := recovered 2 (run Write.apply ((commit 2 (fun b => b + 1) [40, 41]).take 3) d₀)
    d.head = [] ∧
    ((∀ b, NonLog 2 b → d.blk b = d₀.blk b) ∨
      (∀ b, NonLog 2 b → d.blk b = if b ∈ [40, 41] then b + 1 else d₀.blk b)) ∧
    recovered 2 d = d :=
  commit_crash_atomic (by simp [NonLog, LOGBLOCKS, MAXOPBLOCKS]) (by decide) rfl 3 (Recovers.done _)

end Xv6.LogCommit
