import Xv6.Fs.Content
import Xv6.LogAdmission

/-!
The transactions of `filewrite` (`file.c`) on an inode: each is `begin_op`, one `writei` of at
most `((MAXOPBLOCKS-1-1-2)/2)*BSIZE` bytes, and `end_op`.

`writei` gives `log_write` the blocks it copies into, the bitmap block and the zeroed block of
each block `balloc` takes, the indirect block when it sets an entry of it, and the inode's
block. On an image of at most `BPB` blocks every bit of the bitmap is in its first block, so a
chunk of `filewrite` that spans at most four blocks names at most seven distinct blocks. In the
protocol of `Xv6.LogAdmission`, an operation that has written fewer than `MAXOPBLOCKS`
distinct blocks still holds a slot of the log, so no `log_write` of it reaches the panic
`too big a transaction`.
-/

namespace Xv6.Fs.Transaction

open Xv6.Param Xv6.Fs.Content

/-! ### The blocks given to `log_write` -/

/-- From `fs` to `fs'`, `log_write` was given blocks of `S` only. -/
def Logs (fs fs' : Disk) (S : Finset ℕ) : Prop :=
  ∃ L, fs'.logged = fs.logged ++ L ∧ ∀ b ∈ L, b ∈ S

namespace Logs

variable {fs fs₁ fs₂ : Disk} {S T : Finset ℕ}

lemma refl (fs : Disk) (S : Finset ℕ) : Logs fs fs S := ⟨[], by simp, by simp⟩

lemma of_logged (h : fs₁.logged = fs.logged) (S : Finset ℕ) : Logs fs fs₁ S :=
  ⟨[], by simp [h], by simp⟩

lemma mono (h : Logs fs fs₁ S) (hST : S ⊆ T) : Logs fs fs₁ T := by
  obtain ⟨L, hL, hS⟩ := h
  exact ⟨L, hL, fun b hb => hST (hS b hb)⟩

lemma trans (h₁ : Logs fs fs₁ S) (h₂ : Logs fs₁ fs₂ T) : Logs fs fs₂ (S ∪ T) := by
  obtain ⟨L₁, hL₁, hS⟩ := h₁
  obtain ⟨L₂, hL₂, hT⟩ := h₂
  refine ⟨L₁ ++ L₂, by rw [hL₂, hL₁, List.append_assoc], fun b hb => ?_⟩
  rcases List.mem_append.mp hb with hb | hb
  · exact Finset.mem_union_left _ (hS b hb)
  · exact Finset.mem_union_right _ (hT b hb)

lemma card (h : Logs fs fs₁ S) :
    ∃ L, fs₁.logged = fs.logged ++ L ∧ (∀ b ∈ L, b ∈ S) ∧ L.toFinset.card ≤ S.card := by
  obtain ⟨L, hL, hS⟩ := h
  exact ⟨L, hL, hS, Finset.card_le_card fun b hb => hS b (List.mem_toFinset.mp hb)⟩

end Logs

lemma logs_log_write (fs : Disk) (b : ℕ) : Logs fs (log_write fs b) {b} :=
  ⟨[b], rfl, by simp⟩

/-! ### What `balloc`, `bmap` and the loop of `writei` log

No lemma here assumes the file good: the count holds of any inode. -/

lemma balloc_logs {sb : SB} (hsb : sb.size ≤ BPB) (fs : Disk) :
    Logs fs (balloc sb fs).2 {sb.bmapstart, (balloc sb fs).1} := by
  rcases balloc_cases sb fs with ⟨he, -⟩ | ⟨b, hbs, -, he⟩
  · rw [he]
    exact Logs.refl fs _
  · have hb : b / BPB = 0 := Nat.div_eq_of_lt (lt_of_lt_of_le hbs hsb)
    rw [he]
    refine ⟨[BBLOCK b sb, b], take_logged fs sb b, fun x hx => ?_⟩
    simpa [BBLOCK, hb] using hx

lemma loadIndirect_logs {sb : SB} (hsb : sb.size ≤ BPB) (fs : Disk) (ip : Inode) :
    (∃ fs₁, loadIndirect sb fs ip = (fs₁, none) ∧ Logs fs fs₁ {sb.bmapstart, 0}) ∨
    ∃ fs₁ ip₁, loadIndirect sb fs ip = (fs₁, some ip₁) ∧ ip₁.addrs NDIRECT ≠ 0 ∧
      (ip.addrs NDIRECT ≠ 0 → ip₁.addrs NDIRECT = ip.addrs NDIRECT) ∧ ip₁.iblock = ip.iblock ∧
      Logs fs fs₁ {sb.bmapstart, ip₁.addrs NDIRECT} := by
  by_cases hind : ip.addrs NDIRECT = 0
  · have hl := balloc_logs hsb fs
    rcases h : balloc sb fs with ⟨_ | a, fs₁⟩ <;> rw [h] at hl
    · exact .inl ⟨fs₁, by simp only [loadIndirect, if_pos hind, h], hl⟩
    · refine .inr ⟨fs₁, ip.setAddr NDIRECT (a + 1), by simp only [loadIndirect, if_pos hind, h],
        by simp, fun h' => absurd hind h', rfl, by simpa using hl⟩
  · exact .inr ⟨fs, ip, by simp only [loadIndirect, if_neg hind], hind, fun _ => rfl, rfl,
      Logs.refl fs _⟩

/-- What `bmap` of a block below `MAXFILE` logs: the block it returns, the bitmap block, and
the indirect block when the file has one after it. An indirect block, once there, stays. -/
lemma bmap_logs {sb : SB} (hsb : sb.size ≤ BPB) (fs : Disk) (ip : Inode) {bn : ℕ}
    (hbn : bn < MAXFILE) :
    ∃ addr fs₁ ip₁, bmap sb fs ip bn = .ok (addr, fs₁, ip₁) ∧
      (∀ ind, (ip₁.addrs NDIRECT ≠ 0 → ind = ip₁.addrs NDIRECT) →
        Logs fs fs₁ {addr, sb.bmapstart, ind}) ∧
      (ip.addrs NDIRECT ≠ 0 → ip₁.addrs NDIRECT = ip.addrs NDIRECT) ∧ ip₁.iblock = ip.iblock := by
  by_cases hd : bn < NDIRECT
  · by_cases h0 : ip.addrs bn = 0
    · have hl := balloc_logs hsb fs
      rcases h : balloc sb fs with ⟨_ | a, fs₁⟩ <;> rw [h] at hl
      · exact ⟨0, fs₁, ip, by simp only [bmap, if_pos hd, if_pos h0, h],
          fun _ _ => hl.mono (by intro x; simp; tauto), fun _ => rfl, rfl⟩
      · have hne : NDIRECT ≠ bn := by omega
        exact ⟨a + 1, fs₁, ip.setAddr bn (a + 1), by simp only [bmap, if_pos hd, if_pos h0, h],
          fun _ _ => hl.mono (by intro x; simp; tauto), fun _ => by simp [Function.update_of_ne hne], rfl⟩
    · exact ⟨ip.addrs bn, fs, ip, by simp only [bmap, if_pos hd, if_neg h0],
        fun _ _ => Logs.refl fs _, fun _ => rfl, rfl⟩
  have hk : bn - NDIRECT < NINDIRECT := by unfold MAXFILE at hbn; omega
  rcases loadIndirect_logs hsb fs ip with ⟨fs₁, hl, hlog⟩ |
    ⟨fs₁, ip₁, hl, hind, hstay, hib, hlog⟩
  · exact ⟨0, fs₁, ip, by simp only [bmap, if_neg hd, if_pos hk, hl],
      fun _ _ => hlog.mono (by intro x; simp; tauto), fun _ => rfl, rfl⟩
  -- past `loadIndirect` every block logged is the bitmap block, the indirect one, or new
  have hlog' : ∀ ind, (ip₁.addrs NDIRECT ≠ 0 → ind = ip₁.addrs NDIRECT) →
      Logs fs fs₁ {sb.bmapstart, ind} := fun ind h => by rw [h hind]; exact hlog
  by_cases he0 : getU32 (fs₁.blocks (ip₁.addrs NDIRECT)) (bn - NDIRECT) = 0
  · have hb := balloc_logs hsb fs₁
    rcases h : balloc sb fs₁ with ⟨_ | a, fs₂⟩ <;> rw [h] at hb
    · exact ⟨0, fs₂, ip₁, by simp only [bmap, if_neg hd, if_pos hk, hl, if_pos he0, h],
        fun ind h => ((hlog' ind h).trans hb).mono (by intro x; simp; tauto), hstay, hib⟩
    · refine ⟨a + 1, log_write (fs₂.setEntry (ip₁.addrs NDIRECT) (bn - NDIRECT) (a + 1))
        (ip₁.addrs NDIRECT), ip₁, by simp only [bmap, if_neg hd, if_pos hk, hl, if_pos he0, h],
        fun ind h' => ?_, hstay, hib⟩
      have hset := Logs.of_logged (setEntry_logged fs₂ (ip₁.addrs NDIRECT) (bn - NDIRECT)
        (a + 1)) ∅
      have hw := (logs_log_write (fs₂.setEntry (ip₁.addrs NDIRECT) (bn - NDIRECT) (a + 1))
        (ip₁.addrs NDIRECT)).mono (show ({ip₁.addrs NDIRECT} : Finset ℕ) ⊆ {ind} by rw [h' hind])
      exact ((((hlog' ind h').trans hb).trans hset).trans hw).mono (by intro x; simp; tauto)
  · exact ⟨getU32 (fs₁.blocks (ip₁.addrs NDIRECT)) (bn - NDIRECT), fs₁, ip₁,
      by simp only [bmap, if_neg hd, if_pos hk, hl, if_neg he0],
      fun ind h => (hlog' ind h).mono (by intro x; simp; tauto), hstay, hib⟩

lemma lt_bEnd {off r : ℕ} (hr : 0 < r) : off / BSIZE < bEnd off r := by
  unfold bEnd BSIZE
  split_ifs <;> omega

lemma span_step {off r m : ℕ} (hr : 0 < r) (hm : m = min r (BSIZE - off % BSIZE)) :
    bEnd (off + m) (r - m) - (off + m) / BSIZE + 1 ≤ bEnd off r - off / BSIZE := by
  have hlt := @lt_bEnd off r hr
  subst hm
  rcases bEnd_step hr with ⟨h0, hE⟩ | ⟨-, hdiv, hE⟩
  · rw [h0, hE]
    simp [bEnd]
  · rw [hE, hdiv]
    omega

/-- What the loop of `writei` logs: a block for each block of its range at most (the one it
copied into, or stopped at), the bitmap block, and the indirect block the file ends with. -/
lemma writeLoop_logs {sb : SB} (hsb : sb.size ≤ BPB) (src : ℕ → Option UInt8) (n r : ℕ) :
    ∀ fs ip off tot, n - tot = r → off + (n - tot) ≤ MAXFILE * BSIZE →
      ∃ (fs' : Disk) (ip' : Inode) (off' : ℕ) (A : List ℕ), writeLoop sb src n fs ip off tot = .ok (fs', ip', off') ∧
        A.length ≤ bEnd off (n - tot) - off / BSIZE ∧
        Logs fs fs' (A.toFinset ∪ {sb.bmapstart, ip'.addrs NDIRECT}) ∧
        (ip.addrs NDIRECT ≠ 0 → ip'.addrs NDIRECT = ip.addrs NDIRECT) ∧
        ip'.iblock = ip.iblock := by
  induction r using Nat.strong_induction_on with
  | _ r ih =>
  intro fs ip off tot hr hend
  by_cases htot : tot < n
  swap
  · exact ⟨fs, ip, off, [], by rw [writeLoop, dif_neg htot], by simp, Logs.refl fs _,
      fun _ => rfl, rfl⟩
  have hbn : off / BSIZE < MAXFILE :=
    lt_MAXFILE_of_mul (lt_of_le_of_lt (Nat.div_mul_le_self off BSIZE) (by omega)) hend
  have hspan := @lt_bEnd off (n - tot) (by omega)
  obtain ⟨addr, fs₁, ip₁, hb, hlog, hstay, hib⟩ := bmap_logs hsb fs ip hbn
  by_cases ha : addr = 0
  · subst ha
    refine ⟨fs₁, ip₁, off, [0], ?_, by simp; omega, (hlog _ fun _ => rfl).mono (by intro x; simp; tauto),
      hstay, hib⟩
    rw [writeLoop, dif_pos htot, hb]
    rfl
  obtain ⟨m, hmdef⟩ : ∃ m, m = min (n - tot) (BSIZE - off % BSIZE) := ⟨_, rfl⟩
  have hm0 : 0 < m := hmdef ▸ chunk_pos htot
  have hcm : copied src tot m ≤ m := List.findIdx_le_length.trans (List.length_range).le
  by_cases hc : copied src tot m < m
  · -- `copyin` failed: the loop stops, with no more blocks logged
    refine ⟨fs₁.copyin addr (off % BSIZE) src tot (copied src tot m), ip₁, off, [addr], ?_,
      by simp; omega, ((hlog _ fun _ => rfl).trans (Logs.of_logged (copyin_logged ..) ∅)).mono
        (by intro x; simp; tauto), hstay, hib⟩
    rw [writeLoop, dif_pos htot, hb]
    simp only [if_neg ha, ← hmdef, if_pos hc]
  have hcm : copied src tot m = m := by omega
  obtain ⟨fs', ip', off', A, he, hA, hlog', hstay', hib'⟩ :=
    ih (n - (tot + m)) (by omega) (log_write (fs₁.copyin addr (off % BSIZE) src tot m) addr) ip₁
      (off + m) (tot + m) rfl (by omega)
  -- the indirect block `bmap` logged, if any, is the one the file ends with
  have hind : ip₁.addrs NDIRECT ≠ 0 → ip'.addrs NDIRECT = ip₁.addrs NDIRECT := hstay'
  have hcopy := Logs.of_logged (copyin_logged fs₁ addr (off % BSIZE) src tot m) ∅
  refine ⟨fs', ip', off', addr :: A, ?_, ?_,
    ((((hlog _ hind).trans hcopy).trans (logs_log_write _ addr)).trans hlog').mono (by intro x; simp; tauto),
    fun h => by rw [hind (by rw [hstay h]; exact h), hstay h], hib'.trans hib⟩
  · rw [writeLoop, dif_pos htot, hb]
    simp only [if_neg ha, ← hmdef, hcm, lt_irrefl, if_false]
    exact he
  · have hstep := span_step (show 0 < n - tot by omega) hmdef
    rw [show n - (tot + m) = n - tot - m by omega] at hA
    simp only [List.length_cons]
    omega

/-- What `writei` logs: a block for each block of its range at most, the bitmap block, the
indirect block the file ends with, and the inode's block. -/
lemma writei_logs {sb : SB} (hsb : sb.size ≤ BPB) (fs : Disk) (ip : Inode)
    (src : ℕ → Option UInt8) (off n : ℕ) :
    ∃ (fs' : Disk) (ip' : Inode) (r : ℤ) (A : List ℕ), writei sb fs ip src off n = .ok (fs', ip', r) ∧
      A.length ≤ bEnd off n - off / BSIZE ∧
      Logs fs fs' (A.toFinset ∪ {sb.bmapstart, ip'.addrs NDIRECT, ip.iblock}) := by
  unfold writei
  by_cases hov : ip.size < off ∨ 2 ^ 32 ≤ off + n
  · exact ⟨fs, ip, -1, [], by rw [if_pos hov], by simp, Logs.refl fs _⟩
  by_cases hmax : MAXFILE * BSIZE < off + n
  · exact ⟨fs, ip, -1, [], by rw [if_neg hov, if_pos hmax], by simp, Logs.refl fs _⟩
  obtain ⟨fs₁, ip₁, off', A, he, hA, hlog, -, hib⟩ :=
    writeLoop_logs hsb src n (n - 0) fs ip off 0 rfl (by omega)
  have hind : (if ip₁.size < off' then { ip₁ with size := off' } else ip₁).addrs NDIRECT =
      ip₁.addrs NDIRECT := by
    split_ifs <;> rfl
  have hib' : (if ip₁.size < off' then { ip₁ with size := off' } else ip₁).iblock = ip.iblock := by
    split_ifs <;> exact hib
  refine ⟨log_write fs₁ (if ip₁.size < off' then { ip₁ with size := off' } else ip₁).iblock,
    if ip₁.size < off' then { ip₁ with size := off' } else ip₁, _, A,
    by rw [if_neg hov, if_neg hmax, he], by simpa using hA, ?_⟩
  rw [hind, hib']
  exact (hlog.trans (logs_log_write fs₁ ip.iblock)).mono (by intro x; simp)

/-! ### One transaction of `filewrite` -/

/-- `max` of `filewrite`: the bytes of one transaction's `writei`, leaving room for the inode,
the indirect block, the allocation blocks and two blocks of slop for writes not aligned. -/
def filewriteMax : ℕ := ((MAXOPBLOCKS - 1 - 1 - 2) / 2) * BSIZE

lemma filewriteMax_pos : 0 < filewriteMax := by
  unfold filewriteMax MAXOPBLOCKS BSIZE
  omega

lemma span_le_four (off : ℕ) {n : ℕ} (hn : n ≤ filewriteMax) : bEnd off n - off / BSIZE ≤ 4 := by
  unfold filewriteMax MAXOPBLOCKS at hn
  unfold bEnd
  unfold BSIZE at *
  split_ifs <;> omega

/-- **The blocks of one transaction.** On an image of at most `BPB` blocks, `writei` of at
most `filewriteMax` bytes logs the blocks of at most four blocks of its range, the bitmap
block, the indirect block and the inode's block: fewer than `MAXOPBLOCKS` distinct blocks. -/
lemma writei_few {sb : SB} (hsb : sb.size ≤ BPB) (fs : Disk) (ip : Inode)
    (src : ℕ → Option UInt8) (off : ℕ) {n : ℕ} (hn : n ≤ filewriteMax) :
    ∃ (fs' : Disk) (ip' : Inode) (r : ℤ) (L A : List ℕ),
      writei sb fs ip src off n = .ok (fs', ip', r) ∧ fs'.logged = fs.logged ++ L ∧
      A.length ≤ 4 ∧ (∀ b ∈ L, b ∈ A ∨ b = sb.bmapstart ∨ b = ip'.addrs NDIRECT ∨ b = ip.iblock) ∧
      L.toFinset.card < MAXOPBLOCKS := by
  obtain ⟨fs', ip', r, A, he, hA, hlog⟩ := writei_logs hsb fs ip src off n
  obtain ⟨L, hL, hmem, hcard⟩ := hlog.card
  have hA4 := hA.trans (span_le_four off hn)
  refine ⟨fs', ip', r, L, A, he, hL, hA4, fun b hb => ?_, ?_⟩
  · have := hmem b hb
    simp only [Finset.mem_union, List.mem_toFinset, Finset.mem_insert, Finset.mem_singleton]
      at this
    tauto
  calc L.toFinset.card
      ≤ (A.toFinset ∪ {sb.bmapstart, ip'.addrs NDIRECT, ip.iblock}).card := hcard
    _ ≤ A.toFinset.card + ({sb.bmapstart, ip'.addrs NDIRECT, ip.iblock} : Finset ℕ).card :=
        Finset.card_union_le _ _
    _ ≤ A.length + 3 := add_le_add A.toFinset_card_le Finset.card_le_three
    _ < MAXOPBLOCKS := by unfold MAXOPBLOCKS; omega

/-! ### The transaction in the log protocol -/

section Protocol

open Xv6.LogAdmission

/-- An operation that has written fewer than `MAXOPBLOCKS` distinct blocks still holds a slot:
the header is short of `LOGBLOCKS`, and its `log_write` of any block does not panic. -/
lemma log_write_ok_of_short {ι : Type*} [Fintype ι] [DecidableEq ι] {s : Sys ι} {p : ι}
    (h : Reach s) {ws : List ℕ} {added : ℕ} (hp : s.pc p = .running ws added)
    (hws : ws.length < MAXOPBLOCKS) (b : ℕ) : ∃ l, LogAdmission.log_write s.log b = .ok l := by
  have hi := inv_reach h
  obtain ⟨-, -, hadd, -⟩ := hi.running p ws added hp
  have hneed : (s.pc p).need ≤ ∑ q, (s.pc q).need :=
    Finset.single_le_sum (f := fun q => (s.pc q).need) (fun _ _ => Nat.zero_le _)
      (Finset.mem_univ p)
  have hact : (s.pc p).active ≤ ∑ q, (s.pc q).active :=
    Finset.single_le_sum (f := fun q => (s.pc q).active) (fun _ _ => Nat.zero_le _)
      (Finset.mem_univ p)
  rw [hp, Pc.need_running] at hneed
  rw [hp, Pc.active_running] at hact
  have hbud := hi.budget
  have hout := hi.outstanding_eq
  unfold LogAdmission.log_write
  rw [if_neg (by omega), if_neg (by omega)]
  split_ifs
  · exact ⟨_, rfl⟩
  · exact ⟨_, rfl⟩

/-- The blocks `L` of a transaction fit the log: fewer than `MAXOPBLOCKS` of them are distinct,
and in every reachable state of the protocol, an operation that has written blocks of `L`
only takes the step of its `log_write` of any block of `L`, not the panic, and still has
written blocks of `L` only. -/
def Fits (L : List ℕ) : Prop :=
  L.toFinset.card < MAXOPBLOCKS ∧
    ∀ {ι : Type} [Fintype ι] [DecidableEq ι] (s : Sys ι) (p : ι) (ws : List ℕ) (added : ℕ),
      Reach s → s.pc p = .running ws added → ws ⊆ L → ∀ b ∈ L,
        ∃ l, LogAdmission.log_write s.log b = .ok l ∧
          Step s ⟨l, Function.update s.pc p
            (.running (if b ∈ ws then ws else b :: ws) (added + (l.lh.length - s.log.lh.length)))⟩ ∧
          (if b ∈ ws then ws else b :: ws) ⊆ L

lemma fits_of_card {L : List ℕ} (hL : L.toFinset.card < MAXOPBLOCKS) : Fits L := by
  refine ⟨hL, fun s p ws added h hp hws b hb => ?_⟩
  have hnd := ((inv_reach h).running p ws added hp).1
  -- the operation's blocks are distinct blocks of `L`
  have hlen : ws.length < MAXOPBLOCKS := by
    calc ws.length = ws.toFinset.card := (List.toFinset_card_of_nodup hnd).symm
      _ ≤ L.toFinset.card := Finset.card_le_card fun x hx =>
          List.mem_toFinset.mpr (hws (List.mem_toFinset.mp hx))
      _ < MAXOPBLOCKS := hL
  obtain ⟨l, hl⟩ := log_write_ok_of_short h hp hlen b
  refine ⟨l, hl, Step.write s p ws added b l hp (.inr hlen) hl, ?_⟩
  split_ifs
  · exact hws
  · exact List.cons_subset.mpr ⟨hb, hws⟩

end Protocol

/-! ### `filewrite` -/

/-- The loop of `filewrite` on an inode, `f->off` at `off` and `i` of its `n` bytes written:
a transaction of at most `filewriteMax` bytes at a time, until one writes fewer than it asked
for. The disk, the inode, `f->off` and how far it got. -/
def filewriteLoop (sb : SB) (src : ℕ → Option UInt8) (n : ℕ) (fs : Disk) (ip : Inode)
    (off i : ℕ) : Except String (Disk × Inode × ℕ × ℕ) :=
  if h : i < n then
    let n1 := min (n - i) filewriteMax
    match writei sb fs ip (fun j => src (i + j)) off n1 with
    | .error e => .error e
    | .ok (fs, ip, r) =>
      let off := if 0 < r then off + r.toNat else off
      if r ≠ (n1 : ℤ) then .ok (fs, ip, off, i)
      else filewriteLoop sb src n fs ip off (i + n1)
  else .ok (fs, ip, off, i)
termination_by n - i
decreasing_by have := filewriteMax_pos; omega

/-- `filewrite(f, addr, n)` of a writable inode file: the disk, the inode, `f->off`, and what
it returns. -/
def filewrite (sb : SB) (src : ℕ → Option UInt8) (n : ℤ) (fs : Disk) (ip : Inode) (off : ℕ) :
    Except String (Disk × Inode × ℕ × ℤ) :=
  match filewriteLoop sb src n.toNat fs ip off 0 with
  | .error e => .error e
  | .ok (fs, ip, off, i) => .ok (fs, ip, off, if (i : ℤ) = n then n else -1)

lemma filewriteLoop_fits {sb : SB} (hsb : sb.size ≤ BPB) (src : ℕ → Option UInt8) (n r : ℕ) :
    ∀ fs ip off i, n - i = r →
      ∃ (fs' : Disk) (ip' : Inode) (off' i' : ℕ) (txs : List (List ℕ)),
        filewriteLoop sb src n fs ip off i = .ok (fs', ip', off', i') ∧
        fs'.logged = fs.logged ++ txs.flatten ∧ ∀ L ∈ txs, Fits L := by
  induction r using Nat.strong_induction_on with
  | _ r ih =>
  intro fs ip off i hr
  by_cases hi : i < n
  swap
  · exact ⟨fs, ip, off, i, [], by rw [filewriteLoop, dif_neg hi], by simp, by simp⟩
  have hmax := filewriteMax_pos
  obtain ⟨fs₁, ip₁, r₁, L, -, he, hL, -, -, hcard⟩ :=
    writei_few hsb fs ip (fun j => src (i + j)) off (min_le_right (n - i) filewriteMax)
  have hfit := fits_of_card hcard
  by_cases hr₁ : r₁ ≠ ((min (n - i) filewriteMax : ℕ) : ℤ)
  · refine ⟨fs₁, ip₁, if 0 < r₁ then off + r₁.toNat else off, i, [L], ?_, by simpa using hL,
      by simpa using hfit⟩
    rw [filewriteLoop, dif_pos hi]
    simp only [he, if_pos hr₁]
  -- the transaction wrote all it asked for: the loop goes on past it
  obtain ⟨fs', ip', off', i', txs, hl, hlog, hfits⟩ :=
    ih (n - (i + min (n - i) filewriteMax)) (by omega) fs₁ ip₁
      (if 0 < r₁ then off + r₁.toNat else off) (i + min (n - i) filewriteMax) rfl
  refine ⟨fs', ip', off', i', L :: txs, ?_, by rw [hlog, hL, List.flatten_cons, List.append_assoc],
    fun L' hL' => ?_⟩
  · rw [filewriteLoop, dif_pos hi]
    simp only [he, if_neg hr₁]
    exact hl
  · rcases List.mem_cons.mp hL' with rfl | hL'
    · exact hfit
    · exact hfits L' hL'

/-- **Every `filewrite` transaction fits in the log.** On an image of at most `BPB` blocks,
`writei` of at most `filewriteMax` bytes, at any offset and into any inode, gives `log_write`
the blocks of at most four blocks of the file, the bitmap block, the indirect block the file
ends with and the inode's block; fewer than `MAXOPBLOCKS` are distinct, so in every reachable
state of the log protocol each `log_write` of the transaction is a step and not the panic.
`filewrite` of any length runs to its end, and its log is that of such transactions. -/
theorem filewrite_fits_log (sb : SB) (hsb : sb.size ≤ BPB) :
    (∀ (fs : Disk) (ip : Inode) (src : ℕ → Option UInt8) (off n : ℕ), n ≤ filewriteMax →
      ∃ (fs' : Disk) (ip' : Inode) (r : ℤ) (L A : List ℕ),
        writei sb fs ip src off n = .ok (fs', ip', r) ∧ fs'.logged = fs.logged ++ L ∧
        A.length ≤ 4 ∧
        (∀ b ∈ L, b ∈ A ∨ b = sb.bmapstart ∨ b = ip'.addrs NDIRECT ∨ b = ip.iblock) ∧
        Fits L) ∧
    ∀ (src : ℕ → Option UInt8) (n : ℤ) (fs : Disk) (ip : Inode) (off : ℕ),
      ∃ (fs' : Disk) (ip' : Inode) (off' : ℕ) (ret : ℤ) (txs : List (List ℕ)),
        filewrite sb src n fs ip off = .ok (fs', ip', off', ret) ∧
        fs'.logged = fs.logged ++ txs.flatten ∧ ∀ L ∈ txs, Fits L := by
  refine ⟨fun fs ip src off n hn => ?_, fun src n fs ip off => ?_⟩
  · obtain ⟨fs', ip', r, L, A, he, hL, hA, hmem, hcard⟩ := writei_few hsb fs ip src off hn
    exact ⟨fs', ip', r, L, A, he, hL, hA, hmem, fits_of_card hcard⟩
  · obtain ⟨fs', ip', off', i, txs, hl, hlog, hfits⟩ :=
      filewriteLoop_fits hsb src n.toNat (n.toNat - 0) fs ip off 0 rfl
    refine ⟨fs', ip', off', if (i : ℤ) = n then n else -1, txs, ?_, hlog, hfits⟩
    rw [filewrite, hl]

theorem filewrite_fits_log_mkfs :
    (2000 : ℕ) ≤ BPB ∧
    (∀ (fs : Disk) (ip : Inode) (src : ℕ → Option UInt8) (off n : ℕ), n ≤ filewriteMax →
      ∃ (fs' : Disk) (ip' : Inode) (r : ℤ) (L A : List ℕ),
        writei ⟨2000, 46, by decide⟩ fs ip src off n = .ok (fs', ip', r) ∧
        fs'.logged = fs.logged ++ L ∧ A.length ≤ 4 ∧
        (∀ b ∈ L, b ∈ A ∨ b = 46 ∨ b = ip'.addrs NDIRECT ∨ b = ip.iblock) ∧ Fits L) ∧
    ∀ (src : ℕ → Option UInt8) (n : ℤ) (fs : Disk) (ip : Inode) (off : ℕ),
      ∃ (fs' : Disk) (ip' : Inode) (off' : ℕ) (ret : ℤ) (txs : List (List ℕ)),
        filewrite ⟨2000, 46, by decide⟩ src n fs ip off = .ok (fs', ip', off', ret) ∧
        fs'.logged = fs.logged ++ txs.flatten ∧ ∀ L ∈ txs, Fits L :=
  have hsb : (2000 : ℕ) ≤ BPB := by unfold BPB BSIZE; omega
  ⟨hsb, filewrite_fits_log ⟨2000, 46, by decide⟩ hsb⟩

end Xv6.Fs.Transaction
