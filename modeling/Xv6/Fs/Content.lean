import Xv6.Param
import Xv6.Lib.Region

/-!
The content of an inode: `balloc`, `bmap`, `readi` and `writei` of `fs.c`.

The disk is the bytes of each block as `bread` returns them, so that the buffer cache and the
disk are one. The free bitmap is read as one bit per block (`used`), kept apart from the bytes
of the bitmap blocks; `balloc`'s two loops visit the blocks below `sb.size` in order. `log_write`
is recorded as the list of the blocks it is given. `iupdate` is its `log_write` of the inode's
block; the copy of the inode into that block is not modelled. A user buffer is the byte
`copyin` reads at each offset from its start, `none` where its page is not mapped; a kernel
destination of `readi` accepts every byte, a user one may refuse some (`dst`).

Each file offset `o` has one place on the disk, byte `o % BSIZE` of the block `bmap` gives for
`o / BSIZE` (`byteAt`). Under `Good` (the blocks of the file and its indirect block are in use
and distinct, and those below the size are allocated) `writei` is an overwrite of the bytes
`byteAt` reads, `readi` reads them back, and `writei` stops short only when `balloc` has no
block left, which cannot happen while the free blocks number at least those it has to
allocate (`need`).
-/

namespace Xv6.Fs.Content

open Xv6.Param Xv6.Lib.Region

def BPB : ℕ := BSIZE * 8

/-- The superblock fields `balloc` reads; `size` is a `uint`. -/
structure SB where
  size : ℕ
  bmapstart : ℕ
  size_lt : size < 2 ^ 32

def BBLOCK (b : ℕ) (sb : SB) : ℕ := b / BPB + sb.bmapstart

/-- The blocks as `bread` returns them, the bitmap's bit of each block, and the blocks given to
`log_write`, in order. -/
structure Disk where
  blocks : ℕ → ℕ → UInt8
  used : ℕ → Bool
  logged : List ℕ

/-- The fields of the in-memory inode these functions use: `addrs[0..NDIRECT]`, the size, and
`IBLOCK(ip->inum, sb)`, the block `iupdate` writes. -/
structure Inode where
  size : ℕ
  addrs : ℕ → ℕ
  iblock : ℕ

def Inode.setAddr (ip : Inode) (i a : ℕ) : Inode :=
  { ip with addrs := Function.update ip.addrs i a }

def log_write (fs : Disk) (b : ℕ) : Disk := { fs with logged := fs.logged ++ [b] }

def bzero (fs : Disk) (bno : ℕ) : Disk :=
  log_write { fs with blocks := Function.update fs.blocks bno fun _ => 0 } bno

/-! ### Block numbers in blocks -/

/-- `((uint*)bp->data)[i]`: four bytes, the low one first. -/
def getU32 (blk : ℕ → UInt8) (i : ℕ) : ℕ :=
  (blk (4 * i)).toNat + 2 ^ 8 * (blk (4 * i + 1)).toNat + 2 ^ 16 * (blk (4 * i + 2)).toNat +
    2 ^ 24 * (blk (4 * i + 3)).toNat

def setU32 (blk : ℕ → UInt8) (i v : ℕ) : ℕ → UInt8 :=
  setRange blk (4 * i) 4 fun a => UInt8.ofNat (v / 2 ^ (8 * (a - 4 * i)))

def Disk.setEntry (fs : Disk) (ind i v : ℕ) : Disk :=
  { fs with blocks := Function.update fs.blocks ind (setU32 (fs.blocks ind) i v) }

lemma getU32_setU32_self (blk : ℕ → UInt8) (i : ℕ) {v : ℕ} (hv : v < 2 ^ 32) :
    getU32 (setU32 blk i v) i = v := by
  simp only [getU32, setU32, setRange_of_mem (by omega : 4 * i ≤ 4 * i ∧ 4 * i < 4 * i + 4),
    setRange_of_mem (by omega : 4 * i ≤ 4 * i + 1 ∧ 4 * i + 1 < 4 * i + 4),
    setRange_of_mem (by omega : 4 * i ≤ 4 * i + 2 ∧ 4 * i + 2 < 4 * i + 4),
    setRange_of_mem (by omega : 4 * i ≤ 4 * i + 3 ∧ 4 * i + 3 < 4 * i + 4),
    Nat.sub_self, Nat.add_sub_cancel_left, UInt8.toNat_ofNat']
  omega

lemma getU32_setU32_of_ne (blk : ℕ → UInt8) {i j : ℕ} (v : ℕ) (h : i ≠ j) :
    getU32 (setU32 blk i v) j = getU32 blk j := by
  have hout : ∀ k < 4, ¬(4 * i ≤ 4 * j + k ∧ 4 * j + k < 4 * i + 4) := by omega
  simp only [getU32, setU32, setRange_of_not_mem (hout 1 (by decide)),
    setRange_of_not_mem (hout 2 (by decide)), setRange_of_not_mem (hout 3 (by decide))]
  rw [setRange_of_not_mem (by simpa using hout 0 (by decide))]

@[simp] lemma getU32_zero (i : ℕ) : getU32 (fun _ => 0) i = 0 := rfl

/-! ### `balloc` -/

/-- The loops of `balloc` from bit `bi` of the bitmap block for blocks `b ..`: the first block
whose bit is clear. -/
def ballocLoop (sb : SB) (used : ℕ → Bool) (b bi : ℕ) : Option ℕ :=
  if b < sb.size then
    if bi < BPB ∧ b + bi < sb.size then
      if used (b + bi) then ballocLoop sb used b (bi + 1) else some (b + bi)
    else ballocLoop sb used (b + BPB) 0
  else none
termination_by (sb.size + BPB - b, BPB - bi)
decreasing_by
  · exact Prod.Lex.right _ (by omega)
  · exact Prod.Lex.left _ _ (by unfold BPB BSIZE; omega)

/-- The disk after `balloc` takes block `b`: its bit set and the bitmap block given to
`log_write`, then `bzero` of the block. -/
def Disk.take (fs : Disk) (sb : SB) (b : ℕ) : Disk :=
  bzero (log_write { fs with used := Function.update fs.used b true } (BBLOCK b sb)) b

/-- `balloc(dev)`: the block it allocates, or `0` when every block is in use. -/
def balloc (sb : SB) (fs : Disk) : ℕ × Disk :=
  match ballocLoop sb fs.used 0 0 with
  | some b => (b, fs.take sb b)
  | none => (0, fs)

lemma ballocLoop_some {sb : SB} {used : ℕ → Bool} {b bi k : ℕ}
    (h : ballocLoop sb used b bi = some k) : k < sb.size ∧ used k = false := by
  induction b, bi using ballocLoop.induct sb used with
  | case1 b bi hb hin hused ih =>
    rw [ballocLoop, if_pos hb, if_pos hin, if_pos hused] at h
    exact ih h
  | case2 b bi hb hin hused =>
    rw [ballocLoop, if_pos hb, if_pos hin, if_neg hused] at h
    cases h
    exact ⟨hin.2, by simpa using hused⟩
  | case3 b bi hb hin ih =>
    rw [ballocLoop, if_pos hb, if_neg hin] at h
    exact ih h
  | case4 b bi hb =>
    rw [ballocLoop, if_neg hb] at h
    cases h

lemma ballocLoop_none {sb : SB} {used : ℕ → Bool} {b bi : ℕ}
    (h : ballocLoop sb used b bi = none) (hbi : bi ≤ BPB) :
    ∀ k, b + bi ≤ k → k < sb.size → used k = true := by
  induction b, bi using ballocLoop.induct sb used with
  | case1 b bi hb hin hused ih =>
    rw [ballocLoop, if_pos hb, if_pos hin, if_pos hused] at h
    intro k hk hks
    rcases Nat.eq_or_lt_of_le hk with rfl | hlt
    · exact hused
    · exact ih h (by omega) k (by omega) hks
  | case2 b bi hb hin hused =>
    rw [ballocLoop, if_pos hb, if_pos hin, if_neg hused] at h
    cases h
  | case3 b bi hb hin ih =>
    rw [ballocLoop, if_pos hb, if_neg hin] at h
    intro k hk hks
    have hk' : b + BPB ≤ k := by omega
    exact ih h (by omega) k (by omega) hks
  | case4 b bi hb =>
    intro k hk hks
    omega

lemma balloc_cases (sb : SB) (fs : Disk) :
    (balloc sb fs = (0, fs) ∧ ∀ k < sb.size, fs.used k = true) ∨
      ∃ b, b < sb.size ∧ fs.used b = false ∧ balloc sb fs = (b, fs.take sb b) := by
  unfold balloc
  rcases h : ballocLoop sb fs.used 0 0 with _ | b
  · exact Or.inl ⟨rfl, fun k hk => ballocLoop_none h (Nat.zero_le _) k (Nat.zero_le _) hk⟩
  · exact Or.inr ⟨b, (ballocLoop_some h).1, (ballocLoop_some h).2, rfl⟩

@[simp] lemma take_used (fs : Disk) (sb : SB) (b : ℕ) :
    (fs.take sb b).used = Function.update fs.used b true := rfl

@[simp] lemma take_blocks (fs : Disk) (sb : SB) (b : ℕ) :
    (fs.take sb b).blocks = Function.update fs.blocks b fun _ => 0 := rfl

@[simp] lemma take_logged (fs : Disk) (sb : SB) (b : ℕ) :
    (fs.take sb b).logged = fs.logged ++ [BBLOCK b sb, b] := by
  simp [Disk.take, bzero, log_write]

@[simp] lemma log_write_used (fs : Disk) (b : ℕ) : (log_write fs b).used = fs.used := rfl
@[simp] lemma log_write_blocks (fs : Disk) (b : ℕ) : (log_write fs b).blocks = fs.blocks := rfl
@[simp] lemma log_write_logged (fs : Disk) (b : ℕ) :
    (log_write fs b).logged = fs.logged ++ [b] := rfl

@[simp] lemma setEntry_used (fs : Disk) (ind i v : ℕ) : (fs.setEntry ind i v).used = fs.used :=
  rfl
@[simp] lemma setEntry_logged (fs : Disk) (ind i v : ℕ) :
    (fs.setEntry ind i v).logged = fs.logged := rfl
@[simp] lemma setEntry_blocks (fs : Disk) (ind i v : ℕ) :
    (fs.setEntry ind i v).blocks = Function.update fs.blocks ind (setU32 (fs.blocks ind) i v) :=
  rfl

@[simp] lemma setAddr_addrs (ip : Inode) (i a : ℕ) :
    (ip.setAddr i a).addrs = Function.update ip.addrs i a := rfl
@[simp] lemma setAddr_size (ip : Inode) (i a : ℕ) : (ip.setAddr i a).size = ip.size := rfl

/-! ### `bmap` -/

/-- The first half of `bmap`'s indirect case: the disk after the indirect block is allocated
if the inode has none, and the inode with it; `none` when `balloc` returns `0`. -/
def loadIndirect (sb : SB) (fs : Disk) (ip : Inode) : Disk × Option Inode :=
  if ip.addrs NDIRECT = 0 then
    match balloc sb fs with
    | (0, fs) => (fs, none)
    | (addr, fs) => (fs, some (ip.setAddr NDIRECT addr))
  else (fs, some ip)

/-- `bmap(ip, bn)`: the block holding block `bn` of the file, allocated if there is none; `0`
when `balloc` runs out. -/
def bmap (sb : SB) (fs : Disk) (ip : Inode) (bn : ℕ) : Except String (ℕ × Disk × Inode) :=
  if bn < NDIRECT then
    if ip.addrs bn = 0 then
      match balloc sb fs with
      | (0, fs) => .ok (0, fs, ip)
      | (addr, fs) => .ok (addr, fs, ip.setAddr bn addr)
    else .ok (ip.addrs bn, fs, ip)
  else if bn - NDIRECT < NINDIRECT then
    match loadIndirect sb fs ip with
    | (fs, none) => .ok (0, fs, ip)
    | (fs, some ip) =>
      if getU32 (fs.blocks (ip.addrs NDIRECT)) (bn - NDIRECT) = 0 then
        match balloc sb fs with
        | (0, fs) => .ok (0, fs, ip)
        | (addr, fs) =>
          .ok (addr, log_write (fs.setEntry (ip.addrs NDIRECT) (bn - NDIRECT) addr)
            (ip.addrs NDIRECT), ip)
      else .ok (getU32 (fs.blocks (ip.addrs NDIRECT)) (bn - NDIRECT), fs, ip)
  else .error "bmap: out of range"

/-! ### `readi` and `writei` -/

/-- How many of the `m` bytes from offset `i` of a user buffer `copyin` copies: those before
the first it cannot read. -/
def copied (src : ℕ → Option UInt8) (i m : ℕ) : ℕ :=
  (List.range m).findIdx fun j => (src (i + j)).isNone

def Disk.copyin (fs : Disk) (addr x : ℕ) (src : ℕ → Option UInt8) (i k : ℕ) : Disk :=
  let blk := setRange (fs.blocks addr) x k fun a => (src (i + (a - x))).getD 0
  { fs with blocks := Function.update fs.blocks addr blk }

@[simp] lemma copyin_logged (fs : Disk) (addr x : ℕ) (src : ℕ → Option UInt8) (i k : ℕ) :
    (fs.copyin addr x src i k).logged = fs.logged := rfl

lemma chunk_pos {n tot off : ℕ} (h : tot < n) : 0 < min (n - tot) (BSIZE - off % BSIZE) := by
  have := Nat.mod_lt off (show 0 < BSIZE by decide)
  omega

/-- The loop of `writei` at offset `off`, `tot` of its `n` bytes written: the disk, the inode
and the offset where it stops. A failed `copyin` leaves in the block the bytes it copied. -/
def writeLoop (sb : SB) (src : ℕ → Option UInt8) (n : ℕ) (fs : Disk) (ip : Inode)
    (off tot : ℕ) : Except String (Disk × Inode × ℕ) :=
  if h : tot < n then
    match bmap sb fs ip (off / BSIZE) with
    | .error e => .error e
    | .ok (addr, fs, ip) =>
      if addr = 0 then .ok (fs, ip, off)
      else
        let m := min (n - tot) (BSIZE - off % BSIZE)
        let k := copied src tot m
        let fs := fs.copyin addr (off % BSIZE) src tot k
        if k < m then .ok (fs, ip, off)
        else writeLoop sb src n (log_write fs addr) ip (off + m) (tot + m)
  else .ok (fs, ip, off)
termination_by n - tot
decreasing_by have := @chunk_pos n tot off h; omega

/-- `writei(ip, user_src, src, off, n)`: the disk, the inode, and what it returns. The size
grows to where the loop stopped, and `iupdate` writes the inode's block in any case. -/
def writei (sb : SB) (fs : Disk) (ip : Inode) (src : ℕ → Option UInt8) (off n : ℕ) :
    Except String (Disk × Inode × ℤ) :=
  if ip.size < off ∨ 2 ^ 32 ≤ off + n then .ok (fs, ip, -1)
  else if MAXFILE * BSIZE < off + n then .ok (fs, ip, -1)
  else
    match writeLoop sb src n fs ip off 0 with
    | .error e => .error e
    | .ok (fs, ip, off') =>
      let ip := if ip.size < off' then { ip with size := off' } else ip
      .ok (log_write fs ip.iblock, ip, ((off' - off : ℕ) : ℤ))

/-- The loop of `readi` at offset `off`, `tot` of its `n` bytes read: the disk and the inode
(`bmap` allocates a block the file lacks), what it returns, and the bytes of the chunks it
copied out, in order. `dst j` is whether byte `j` of the destination takes a copy. -/
def readLoop (sb : SB) (dst : ℕ → Bool) (n : ℕ) (fs : Disk) (ip : Inode) (off tot : ℕ) :
    Except String (Disk × Inode × ℤ × List UInt8) :=
  if h : tot < n then
    match bmap sb fs ip (off / BSIZE) with
    | .error e => .error e
    | .ok (addr, fs, ip) =>
      if addr = 0 then .ok (fs, ip, tot, [])
      else
        let m := min (n - tot) (BSIZE - off % BSIZE)
        if (List.range m).all fun j => dst (tot + j) then
          let chunk := (List.range m).map fun j => fs.blocks addr (off % BSIZE + j)
          match readLoop sb dst n fs ip (off + m) (tot + m) with
          | .error e => .error e
          | .ok (fs, ip, r, bytes) => .ok (fs, ip, r, chunk ++ bytes)
        else .ok (fs, ip, -1, [])
  else .ok (fs, ip, tot, [])
termination_by n - tot
decreasing_by have := @chunk_pos n tot off h; omega

/-- `readi(ip, user_dst, dst, off, n)`: the disk, the inode, what it returns, and the bytes it
copied out. -/
def readi (sb : SB) (fs : Disk) (ip : Inode) (dst : ℕ → Bool) (off n : ℕ) :
    Except String (Disk × Inode × ℤ × List UInt8) :=
  if ip.size < off ∨ 2 ^ 32 ≤ off + n then .ok (fs, ip, 0, [])
  else readLoop sb dst (if ip.size < off + n then ip.size - off else n) fs ip off 0

/-! ### Where each byte of a file is -/

/-- The block holding block `bn` of the file, as `bmap` finds it without allocating; `0` for
none. -/
def blockOf (fs : Disk) (ip : Inode) (bn : ℕ) : ℕ :=
  if bn < NDIRECT then ip.addrs bn
  else if ip.addrs NDIRECT = 0 then 0
  else getU32 (fs.blocks (ip.addrs NDIRECT)) (bn - NDIRECT)

/-- The byte at file offset `o`: byte `o % BSIZE` of the block for block `o / BSIZE`. -/
def byteAt (fs : Disk) (ip : Inode) (o : ℕ) : UInt8 :=
  fs.blocks (blockOf fs ip (o / BSIZE)) (o % BSIZE)

@[simp] lemma byteAt_log_write (fs : Disk) (b : ℕ) (ip : Inode) (o : ℕ) :
    byteAt (log_write fs b) ip o = byteAt fs ip o := rfl

/-- A file whose blocks and indirect block are in use in the bitmap and pairwise distinct,
whose blocks below its size are allocated, and which fits in `MAXFILE` blocks; block `0` is in
use, as `mkfs` marks it. -/
structure Good (fs : Disk) (ip : Inode) : Prop where
  used_zero : fs.used 0 = true
  used_ind : ip.addrs NDIRECT ≠ 0 → fs.used (ip.addrs NDIRECT) = true
  used_blk : ∀ bn < MAXFILE, blockOf fs ip bn ≠ 0 → fs.used (blockOf fs ip bn) = true
  ne_ind : ∀ bn < MAXFILE, blockOf fs ip bn ≠ 0 → blockOf fs ip bn ≠ ip.addrs NDIRECT
  inj : ∀ bn < MAXFILE, ∀ bn' < MAXFILE, blockOf fs ip bn ≠ 0 →
    blockOf fs ip bn = blockOf fs ip bn' → bn = bn'
  alloc : ∀ bn, bn * BSIZE < ip.size → blockOf fs ip bn ≠ 0
  size_le : ip.size ≤ MAXFILE * BSIZE

/-! ### How the edits of `bmap` move the blocks of a file -/

@[simp] lemma blockOf_log_write (fs : Disk) (b : ℕ) (ip : Inode) (bn : ℕ) :
    blockOf (log_write fs b) ip bn = blockOf fs ip bn := rfl

lemma blockOf_take {fs : Disk} {ip : Inode} {b : ℕ} (sb : SB) (hb : ip.addrs NDIRECT ≠ b)
    (bn : ℕ) : blockOf (fs.take sb b) ip bn = blockOf fs ip bn := by
  simp only [blockOf, take_blocks, Function.update_of_ne hb]

lemma blockOf_setAddr_direct (fs : Disk) (ip : Inode) {bn : ℕ} (b : ℕ) (hbn : bn < NDIRECT)
    (bn' : ℕ) : blockOf fs (ip.setAddr bn b) bn' = if bn' = bn then b else blockOf fs ip bn' := by
  have hne : NDIRECT ≠ bn := by omega
  by_cases h : bn' = bn
  · subst h
    simp [blockOf, hbn]
  · simp [blockOf, h, Function.update_of_ne hne]

lemma blockOf_setInd {fs : Disk} {ip : Inode} {a : ℕ} (h0 : ip.addrs NDIRECT = 0)
    (hz : fs.blocks a = fun _ => 0) (bn : ℕ) :
    blockOf fs (ip.setAddr NDIRECT a) bn = blockOf fs ip bn := by
  unfold blockOf
  by_cases hbn : bn < NDIRECT
  · simp [hbn, Function.update_of_ne (show bn ≠ NDIRECT by omega)]
  · simp [hbn, h0, hz]

lemma blockOf_setEntry {fs : Disk} {ip : Inode} (hind : ip.addrs NDIRECT ≠ 0) (k : ℕ) {v : ℕ}
    (hv : v < 2 ^ 32) (bn : ℕ) :
    blockOf (fs.setEntry (ip.addrs NDIRECT) k v) ip bn =
      if bn = NDIRECT + k then v else blockOf fs ip bn := by
  unfold blockOf
  by_cases hbn : bn < NDIRECT
  · simp [hbn, show bn ≠ NDIRECT + k by omega]
  · by_cases hk : bn = NDIRECT + k
    · subst hk
      simp [hind, getU32_setU32_self _ _ hv]
    · simp [hbn, hind, hk, getU32_setU32_of_ne _ _ (show k ≠ bn - NDIRECT by omega)]

lemma lt_MAXFILE_of_mul {bn s : ℕ} (h : bn * BSIZE < s) (hs : s ≤ MAXFILE * BSIZE) :
    bn < MAXFILE :=
  Nat.lt_of_mul_lt_mul_right (lt_of_lt_of_le h hs)

lemma Good.ne_of_free {fs : Disk} {ip : Inode} (hg : Good fs ip) {b : ℕ}
    (hb : fs.used b = false) :
    b ≠ 0 ∧ ip.addrs NDIRECT ≠ b ∧ ∀ bn < MAXFILE, blockOf fs ip bn ≠ b := by
  have hb0 : b ≠ 0 := by
    rintro rfl
    simp [hg.used_zero] at hb
  refine ⟨hb0, fun h => ?_, fun bn hbn h => ?_⟩
  · have := hg.used_ind (h ▸ hb0)
    rw [h, hb] at this
    cases this
  · have := hg.used_blk bn hbn (h ▸ hb0)
    rw [h, hb] at this
    cases this

lemma Good.of_new_block {fs fs' : Disk} {ip ip' : Inode} {bn b : ℕ} (hg : Good fs ip)
    (hb : fs.used b = false)
    (hused : ∀ x, fs.used x = true → fs'.used x = true) (hbu : fs'.used b = true)
    (hind : ip'.addrs NDIRECT = ip.addrs NDIRECT) (hsize : ip'.size = ip.size)
    (hblk : ∀ bn' < MAXFILE, blockOf fs' ip' bn' = if bn' = bn then b else blockOf fs ip bn') :
    Good fs' ip' := by
  obtain ⟨hb0, hbind, hbne⟩ := hg.ne_of_free hb
  have hblk' : ∀ bn' < MAXFILE, bn' ≠ bn → blockOf fs' ip' bn' = blockOf fs ip bn' :=
    fun bn' h h' => by rw [hblk bn' h, if_neg h']
  refine ⟨hused 0 hg.used_zero, fun h => ?_, fun bn' hbn' h => ?_, fun bn' hbn' h => ?_,
    fun bn₁ h₁ bn₂ h₂ h he => ?_, fun bn' hs => ?_, hsize ▸ hg.size_le⟩
  · rw [hind] at h ⊢
    exact hused _ (hg.used_ind h)
  · by_cases he : bn' = bn
    · rw [hblk bn' hbn', if_pos he]
      exact hbu
    · rw [hblk' bn' hbn' he] at h ⊢
      exact hused _ (hg.used_blk bn' hbn' h)
  · rw [hind]
    by_cases he : bn' = bn
    · rw [hblk bn' hbn', if_pos he]
      exact hbind.symm
    · rw [hblk' bn' hbn' he] at h ⊢
      exact hg.ne_ind bn' hbn' h
  · rw [hblk bn₁ h₁, hblk bn₂ h₂] at he
    rw [hblk bn₁ h₁] at h
    split_ifs at he h with e₁ e₂ e₂
    · exact e₁.trans e₂.symm
    · exact absurd he.symm (hbne bn₂ h₂)
    · exact absurd he (hbne bn₁ h₁)
    · exact hg.inj bn₁ h₁ bn₂ h₂ h he
  · rw [hsize] at hs
    have hbn' := lt_MAXFILE_of_mul hs hg.size_le
    by_cases he : bn' = bn
    · rw [hblk bn' hbn', if_pos he]
      exact hb0
    · rw [hblk' bn' hbn' he]
      exact hg.alloc bn' hs

lemma Good.of_new_ind {fs : Disk} {ip : Inode} (hg : Good fs ip) (sb : SB) {a : ℕ}
    (h0 : ip.addrs NDIRECT = 0) (ha : fs.used a = false) :
    Good (fs.take sb a) (ip.setAddr NDIRECT a) := by
  obtain ⟨ha0, hind, hne⟩ := hg.ne_of_free ha
  have hblk : ∀ bn, blockOf (fs.take sb a) (ip.setAddr NDIRECT a) bn = blockOf fs ip bn :=
    fun bn => by rw [blockOf_setInd h0 (by simp), blockOf_take sb hind]
  refine ⟨?_, fun _ => by simp, fun bn hbn h => ?_, fun bn hbn h => ?_,
    fun bn₁ h₁ bn₂ h₂ h he => ?_, fun bn hs => ?_, hg.size_le⟩
  · simp [Function.update_of_ne (Ne.symm ha0), hg.used_zero]
  · rw [hblk] at h ⊢
    simp [Function.update_apply, hg.used_blk bn hbn h]
  · rw [hblk] at h ⊢
    simpa using hne bn hbn
  · rw [hblk, hblk] at he
    rw [hblk] at h
    exact hg.inj bn₁ h₁ bn₂ h₂ h he
  · rw [hblk]
    exact hg.alloc bn hs

/-! ### Free blocks -/

/-- The blocks below `sb.size` the bitmap marks free. -/
def nfree (sb : SB) (fs : Disk) : ℕ :=
  ((Finset.range sb.size).filter fun b => fs.used b = false).card

lemma nfree_take {sb : SB} {fs : Disk} {b : ℕ} (hb : b < sb.size) (hfree : fs.used b = false) :
    nfree sb (fs.take sb b) + 1 = nfree sb fs := by
  have hset : ((Finset.range sb.size).filter fun k => (fs.take sb b).used k = false) =
      ((Finset.range sb.size).filter fun k => fs.used k = false).erase b := by
    ext k
    by_cases hk : k = b <;> simp [hk, Function.update_apply]
  rw [nfree, hset, Finset.card_erase_add_one (by simp [hb, hfree]), nfree]

lemma nfree_eq_zero {sb : SB} {fs : Disk} (h : ∀ k < sb.size, fs.used k = true) :
    nfree sb fs = 0 := by
  rw [nfree, Finset.card_eq_zero, Finset.filter_eq_empty_iff]
  intro k hk
  simp [h k (Finset.mem_range.mp hk)]

/-- The blocks `bmap` of block `bn` has to allocate: the block, and the indirect block for a
block past `NDIRECT` of a file that has none. -/
def allocs (fs : Disk) (ip : Inode) (bn : ℕ) : ℕ :=
  (if blockOf fs ip bn = 0 then 1 else 0) + if ip.addrs NDIRECT = 0 ∧ NDIRECT ≤ bn then 1 else 0

/-! ### `bmap` of a good file -/

lemma bmap_of_ne_zero (sb : SB) (fs : Disk) (ip : Inode) {bn : ℕ} (hbn : bn < MAXFILE)
    (h : blockOf fs ip bn ≠ 0) : bmap sb fs ip bn = .ok (blockOf fs ip bn, fs, ip) := by
  unfold bmap blockOf at *
  by_cases hd : bn < NDIRECT
  · simp only [hd, if_true] at h ⊢
    rw [if_neg h]
  · have hk : bn - NDIRECT < NINDIRECT := by unfold MAXFILE at hbn; omega
    simp only [hd, if_false, hk, if_true] at h ⊢
    have hind : ip.addrs NDIRECT ≠ 0 := fun e => h (if_pos e)
    rw [if_neg hind] at h
    simp only [loadIndirect, if_neg hind, if_neg h]

/-- What `bmap` of block `bn` leaves of a good file whose block `bn` it allocates: a good file
of the same size, `addr` where block `bn` now is, every other block where it was, the bytes of
every block in use other than the indirect block as they were; when it returns `0` every block
is in use and fewer were free than it had to allocate, and otherwise it took as many as it had
to. -/
structure Bmapped (sb : SB) (fs : Disk) (ip : Inode) (bn addr : ℕ) (fs' : Disk) (ip' : Inode) :
    Prop where
  good : Good fs' ip'
  size : ip'.size = ip.size
  addr_eq : addr = blockOf fs' ip' bn
  other : ∀ bn' < MAXFILE, bn' ≠ bn → blockOf fs' ip' bn' = blockOf fs ip bn'
  kept : ∀ x, fs.used x = true → x ≠ ip.addrs NDIRECT → fs'.blocks x = fs.blocks x
  full : addr = 0 → (∀ k < sb.size, fs'.used k = true) ∧ nfree sb fs < allocs fs ip bn
  count : addr ≠ 0 → nfree sb fs = nfree sb fs' + allocs fs ip bn
  ind_direct : bn < NDIRECT → ip'.addrs NDIRECT = ip.addrs NDIRECT
  kept_bn : blockOf fs ip bn ≠ 0 → blockOf fs' ip' bn = blockOf fs ip bn
  iblock : ip'.iblock = ip.iblock

lemma bmapped_none {sb : SB} {fs : Disk} {ip : Inode} (hg : Good fs ip) {bn : ℕ}
    (h0 : blockOf fs ip bn = 0) (hall : ∀ k < sb.size, fs.used k = true) :
    Bmapped sb fs ip bn 0 fs ip := by
  refine ⟨hg, rfl, h0.symm, fun _ _ _ => rfl, fun _ _ _ => rfl, fun _ => ⟨hall, ?_⟩,
    fun h => absurd rfl h, fun _ => rfl, fun _ => rfl, rfl⟩
  rw [nfree_eq_zero hall, allocs, if_pos h0]
  omega

lemma used_take {fs : Disk} (sb : SB) (b : ℕ) {x : ℕ} (hx : fs.used x = true) :
    (fs.take sb b).used x = true := by
  by_cases h : x = b <;> simp [h, hx]

lemma blocks_take {fs : Disk} (sb : SB) {b x : ℕ} (hx : fs.used x = true)
    (hb : fs.used b = false) : (fs.take sb b).blocks x = fs.blocks x := by
  have hxb : x ≠ b := by
    rintro rfl
    rw [hx] at hb
    cases hb
  simp [Function.update_of_ne hxb]

lemma bmap_direct {sb : SB} {fs : Disk} {ip : Inode} (hg : Good fs ip) {bn : ℕ}
    (hd : bn < NDIRECT) (h0 : ip.addrs bn = 0) :
    ∃ addr fs' ip', bmap sb fs ip bn = .ok (addr, fs', ip') ∧
      Bmapped sb fs ip bn addr fs' ip' := by
  have hb0 : blockOf fs ip bn = 0 := by simp [blockOf, hd, h0]
  rcases balloc_cases sb fs with ⟨he, hall⟩ | ⟨b, hbs, hfree, he⟩
  · exact ⟨0, fs, ip, by simp only [bmap, if_pos hd, if_pos h0, he], bmapped_none hg hb0 hall⟩
  obtain ⟨hne0, hbind, -⟩ := hg.ne_of_free hfree
  obtain ⟨b, rfl⟩ : ∃ c, b = c + 1 := ⟨b - 1, by omega⟩
  have hblk : ∀ bn', blockOf (fs.take sb (b + 1)) (ip.setAddr bn (b + 1)) bn' =
      if bn' = bn then b + 1 else blockOf fs ip bn' := fun bn' => by
    rw [blockOf_setAddr_direct _ _ _ hd, blockOf_take sb hbind]
  have hind : (ip.setAddr bn (b + 1)).addrs NDIRECT = ip.addrs NDIRECT := by
    simp [Function.update_of_ne (show NDIRECT ≠ bn by omega)]
  refine ⟨b + 1, fs.take sb (b + 1), ip.setAddr bn (b + 1),
    by simp only [bmap, if_pos hd, if_pos h0, he], ?_⟩
  refine ⟨hg.of_new_block hfree (fun x hx => used_take sb _ hx) (by simp) hind rfl
    (fun bn' _ => hblk bn'), rfl, by rw [hblk, if_pos rfl], fun bn' _ h => by rw [hblk, if_neg h],
    fun x hx _ => blocks_take sb hx hfree, fun h => absurd h (Nat.succ_ne_zero _), fun _ => ?_,
    fun _ => hind, fun h => absurd hb0 h, rfl⟩
  rw [allocs, if_pos hb0, if_neg (by omega), ← nfree_take hbs hfree]

lemma bmap_indirect {sb : SB} {fs : Disk} {ip : Inode} (hg : Good fs ip) {bn : ℕ}
    (hd : NDIRECT ≤ bn) (hbn : bn < MAXFILE) (hind : ip.addrs NDIRECT ≠ 0)
    (h0 : blockOf fs ip bn = 0) :
    ∃ addr fs' ip', bmap sb fs ip bn = .ok (addr, fs', ip') ∧
      Bmapped sb fs ip bn addr fs' ip' := by
  have hk : bn - NDIRECT < NINDIRECT := by unfold MAXFILE at hbn; omega
  have he0 : getU32 (fs.blocks (ip.addrs NDIRECT)) (bn - NDIRECT) = 0 := by
    simpa [blockOf, not_lt.mpr hd, hind] using h0
  rcases balloc_cases sb fs with ⟨he, hall⟩ | ⟨b, hbs, hfree, he⟩
  · refine ⟨0, fs, ip, ?_, bmapped_none hg h0 hall⟩
    simp only [bmap, if_neg (not_lt.mpr hd), if_pos hk, loadIndirect, if_neg hind, he0, he,
      if_true]
  obtain ⟨hne0, hbind, -⟩ := hg.ne_of_free hfree
  obtain ⟨b, rfl⟩ : ∃ c, b = c + 1 := ⟨b - 1, by omega⟩
  have hbs32 : b + 1 < 2 ^ 32 := lt_trans hbs sb.size_lt
  have hblk : ∀ bn', blockOf (log_write ((fs.take sb (b + 1)).setEntry (ip.addrs NDIRECT)
      (bn - NDIRECT) (b + 1)) (ip.addrs NDIRECT)) ip bn' =
      if bn' = bn then b + 1 else blockOf fs ip bn' := fun bn' => by
    rw [blockOf_log_write, blockOf_setEntry hind _ hbs32, blockOf_take sb hbind,
      Nat.add_sub_cancel' hd]
  refine ⟨b + 1, log_write ((fs.take sb (b + 1)).setEntry (ip.addrs NDIRECT) (bn - NDIRECT)
    (b + 1)) (ip.addrs NDIRECT), ip, ?_, ?_⟩
  · simp only [bmap, if_neg (not_lt.mpr hd), if_pos hk, loadIndirect, if_neg hind, he0, he,
      if_true]
  refine ⟨hg.of_new_block hfree (fun x hx => by simpa using used_take sb _ hx) (by simp) rfl rfl
    (fun bn' _ => hblk bn'), rfl, by rw [hblk, if_pos rfl], fun bn' _ h => by rw [hblk, if_neg h],
    fun x hx hxi => ?_, fun h => absurd h (Nat.succ_ne_zero _), fun _ => ?_,
    fun h => absurd h (not_lt.mpr hd), fun h => absurd h0 h, rfl⟩
  · simp only [log_write_blocks, setEntry_blocks, Function.update_of_ne hxi]
    exact blocks_take sb hx hfree
  · rw [allocs, if_pos h0, if_neg (by omega), ← nfree_take hbs hfree]
    rfl

lemma bmap_of_loadIndirect {sb : SB} {fs fs₁ : Disk} {ip ip₁ : Inode} {bn : ℕ}
    (hd : NDIRECT ≤ bn) (hl : loadIndirect sb fs ip = (fs₁, some ip₁))
    (hind : ip₁.addrs NDIRECT ≠ 0) : bmap sb fs ip bn = bmap sb fs₁ ip₁ bn := by
  have hl₁ : loadIndirect sb fs₁ ip₁ = (fs₁, some ip₁) := by simp [loadIndirect, hind]
  unfold bmap
  rw [if_neg (not_lt.mpr hd), if_neg (not_lt.mpr hd), hl, hl₁]

lemma bmap_new_indirect {sb : SB} {fs : Disk} {ip : Inode} (hg : Good fs ip) {bn : ℕ}
    (hd : NDIRECT ≤ bn) (hbn : bn < MAXFILE) (hind : ip.addrs NDIRECT = 0) :
    ∃ addr fs' ip', bmap sb fs ip bn = .ok (addr, fs', ip') ∧
      Bmapped sb fs ip bn addr fs' ip' := by
  have hk : bn - NDIRECT < NINDIRECT := by unfold MAXFILE at hbn; omega
  have h0 : blockOf fs ip bn = 0 := by simp [blockOf, not_lt.mpr hd, hind]
  rcases balloc_cases sb fs with ⟨he, hall⟩ | ⟨a, has, hafree, he⟩
  · refine ⟨0, fs, ip, ?_, bmapped_none hg h0 hall⟩
    simp only [bmap, if_neg (not_lt.mpr hd), if_pos hk, loadIndirect, if_pos hind, he]
  obtain ⟨hne0, -, hane⟩ := hg.ne_of_free hafree
  obtain ⟨a, rfl⟩ : ∃ c, a = c + 1 := ⟨a - 1, by omega⟩
  have hl : loadIndirect sb fs ip = (fs.take sb (a + 1), some (ip.setAddr NDIRECT (a + 1))) := by
    simp only [loadIndirect, if_pos hind, he]
  have hg₁ := hg.of_new_ind sb hind hafree
  have hblk₁ : ∀ bn', blockOf (fs.take sb (a + 1)) (ip.setAddr NDIRECT (a + 1)) bn' =
      blockOf fs ip bn' := fun bn' => by
    rw [blockOf_setInd hind (by simp), blockOf_take sb (by rw [hind]; omega)]
  have hind₁ : (ip.setAddr NDIRECT (a + 1)).addrs NDIRECT ≠ 0 := by simp
  have hn₁ := nfree_take has hafree
  obtain ⟨addr, fs', ip', he', hm⟩ := bmap_indirect hg₁ hd hbn hind₁ (by rw [hblk₁, h0])
  refine ⟨addr, fs', ip', by rw [bmap_of_loadIndirect hd hl hind₁, he'], ?_⟩
  have hall₁ : allocs (fs.take sb (a + 1)) (ip.setAddr NDIRECT (a + 1)) bn + 1 =
      allocs fs ip bn := by
    simp [allocs, hblk₁, h0, hind, hd]
  refine ⟨hm.good, hm.size, hm.addr_eq, fun bn' h h' => by rw [hm.other bn' h h', hblk₁],
    fun x hx hxi => ?_, fun h => ⟨(hm.full h).1, by have := (hm.full h).2; omega⟩,
    fun h => by have := hm.count h; omega, fun h => absurd h (not_lt.mpr hd),
    fun h => absurd h0 h, hm.iblock⟩
  have hxa : x ≠ a + 1 := fun e => by rw [e, hafree] at hx; cases hx
  rw [hm.kept x (used_take sb _ hx) (by simpa using hxa)]
  exact blocks_take sb hx hafree

/-- **`bmap` of a good file.** It allocates block `bn` when the file has none there. -/
theorem bmap_spec {sb : SB} {fs : Disk} {ip : Inode} (hg : Good fs ip) {bn : ℕ}
    (hbn : bn < MAXFILE) (h0 : blockOf fs ip bn = 0) :
    ∃ addr fs' ip', bmap sb fs ip bn = .ok (addr, fs', ip') ∧
      Bmapped sb fs ip bn addr fs' ip' := by
  by_cases hd : bn < NDIRECT
  · exact bmap_direct hg hd (by simpa [blockOf, hd] using h0)
  · by_cases hind : ip.addrs NDIRECT = 0
    · exact bmap_new_indirect hg (not_lt.mp hd) hbn hind
    · exact bmap_indirect hg (not_lt.mp hd) hbn hind h0

/-! ### The blocks `writei` has to allocate -/

def bEnd (off n : ℕ) : ℕ := if n = 0 then off / BSIZE else (off + n - 1) / BSIZE + 1

/-- The blocks `writei` of `n` bytes at `off` has to allocate: those of its range the file
does not have, and the indirect block when the range reaches past `NDIRECT` in a file that
has none. -/
def need (fs : Disk) (ip : Inode) (off n : ℕ) : ℕ :=
  ((Finset.Ico (off / BSIZE) (bEnd off n)).filter fun bn => blockOf fs ip bn = 0).card +
    if ip.addrs NDIRECT = 0 ∧ off / BSIZE < bEnd off n ∧ NDIRECT < bEnd off n then 1 else 0

lemma need_zero (fs : Disk) (ip : Inode) (off : ℕ) : need fs ip off 0 = 0 := by
  simp [need, bEnd]

lemma bEnd_step {off r : ℕ} (hr : 0 < r) :
    (r - min r (BSIZE - off % BSIZE) = 0 ∧ bEnd off r = off / BSIZE + 1) ∨
      (0 < r - min r (BSIZE - off % BSIZE) ∧
        (off + min r (BSIZE - off % BSIZE)) / BSIZE = off / BSIZE + 1 ∧
        bEnd (off + min r (BSIZE - off % BSIZE)) (r - min r (BSIZE - off % BSIZE)) =
          bEnd off r) := by
  unfold bEnd BSIZE
  split_ifs <;> omega

lemma card_lacking {fs fs' : Disk} {ip ip' : Inode} {bn E : ℕ} (hbn : bn < E)
    (hE : E ≤ MAXFILE)
    (hother : ∀ bn' < MAXFILE, bn' ≠ bn → blockOf fs' ip' bn' = blockOf fs ip bn') :
    ((Finset.Ico bn E).filter fun b => blockOf fs ip b = 0).card =
      (if blockOf fs ip bn = 0 then 1 else 0) +
        ((Finset.Ico (bn + 1) E).filter fun b => blockOf fs' ip' b = 0).card := by
  have hrest : ((Finset.Ico (bn + 1) E).filter fun b => blockOf fs ip b = 0) =
      (Finset.Ico (bn + 1) E).filter fun b => blockOf fs' ip' b = 0 := by
    apply Finset.filter_congr
    intro b hb
    rw [Finset.mem_Ico] at hb
    rw [hother b (by omega) (by omega)]
  rw [← Finset.insert_Ico_add_one_left_eq_Ico hbn, Finset.filter_insert, ← hrest]
  split_ifs
  · rw [Finset.card_insert_of_notMem (by simp), Nat.add_comm]
  · rw [zero_add]

/-- **One chunk of `writei`.** What the loop has to allocate is what `bmap` of the chunk's
block had to, and what the rest of the loop has to. -/
lemma need_step {fs fs' : Disk} {ip ip' : Inode} {off r : ℕ} (hr : 0 < r)
    (hend : off + r ≤ MAXFILE * BSIZE)
    (hother : ∀ bn' < MAXFILE, bn' ≠ off / BSIZE → blockOf fs' ip' bn' = blockOf fs ip bn')
    (hbn : blockOf fs' ip' (off / BSIZE) ≠ 0)
    (hind : off / BSIZE < NDIRECT → ip'.addrs NDIRECT = ip.addrs NDIRECT) :
    need fs ip off r = allocs fs ip (off / BSIZE) +
      need fs' ip' (off + min r (BSIZE - off % BSIZE)) (r - min r (BSIZE - off % BSIZE)) := by
  have hE : bEnd off r ≤ MAXFILE := by
    unfold bEnd MAXFILE NDIRECT NINDIRECT BSIZE at *
    split_ifs <;> omega
  have hlt : off / BSIZE < bEnd off r := by
    unfold bEnd BSIZE
    split_ifs <;> omega
  -- past `NDIRECT`, the block `bmap` found needs an indirect block
  have hind' : NDIRECT ≤ off / BSIZE → ip'.addrs NDIRECT ≠ 0 := fun hd h0 => by
    simp [blockOf, not_lt.mpr hd, h0] at hbn
  have hcard := card_lacking hlt hE hother
  rcases bEnd_step hr with ⟨h₁, h₂⟩ | ⟨h₁, h₂, h₃⟩
  · rw [h₁, need_zero, need, hcard, h₂, Finset.Ico_self, Finset.filter_empty,
      Finset.card_empty, allocs]
    split_ifs <;> omega
  · rw [need, need, hcard, h₂, h₃, allocs]
    by_cases hd : off / BSIZE < NDIRECT
    · rw [hind hd]
      split_ifs <;> omega
    · have := hind' (not_lt.mp hd)
      split_ifs <;> omega

lemma allocs_le_need (fs : Disk) (ip : Inode) {off r : ℕ} (hr : 0 < r)
    (hend : off + r ≤ MAXFILE * BSIZE) : allocs fs ip (off / BSIZE) ≤ need fs ip off r := by
  have hE : bEnd off r ≤ MAXFILE := by
    unfold bEnd MAXFILE NDIRECT NINDIRECT BSIZE at *
    split_ifs <;> omega
  have hlt : off / BSIZE < bEnd off r := by
    unfold bEnd BSIZE
    split_ifs <;> omega
  rw [need, @card_lacking fs fs ip ip _ _ hlt hE fun _ _ _ => rfl, allocs]
  split_ifs <;> omega

lemma bmapped_of_ne_zero {sb : SB} {fs : Disk} {ip : Inode} (hg : Good fs ip) {bn : ℕ}
    (h : blockOf fs ip bn ≠ 0) : Bmapped sb fs ip bn (blockOf fs ip bn) fs ip := by
  have hind : NDIRECT ≤ bn → ip.addrs NDIRECT ≠ 0 := fun hd h0 => by
    simp [blockOf, not_lt.mpr hd, h0] at h
  refine ⟨hg, rfl, rfl, fun _ _ _ => rfl, fun _ _ _ => rfl, fun h' => absurd h' h, fun _ => ?_,
    fun _ => rfl, fun _ => rfl, rfl⟩
  rw [allocs, if_neg h, if_neg fun ⟨h0, hd⟩ => hind hd h0]
  rfl

theorem bmap_good {sb : SB} {fs : Disk} {ip : Inode} (hg : Good fs ip) {bn : ℕ}
    (hbn : bn < MAXFILE) :
    ∃ addr fs' ip', bmap sb fs ip bn = .ok (addr, fs', ip') ∧
      Bmapped sb fs ip bn addr fs' ip' := by
  by_cases h0 : blockOf fs ip bn = 0
  · exact bmap_spec hg hbn h0
  · exact ⟨_, _, _, bmap_of_ne_zero sb fs ip hbn h0, bmapped_of_ne_zero hg h0⟩

lemma Bmapped.blockOf_of_ne_zero {sb : SB} {fs fs' : Disk} {ip ip' : Inode} {bn addr : ℕ}
    (hm : Bmapped sb fs ip bn addr fs' ip') {bn' : ℕ} (hbn' : bn' < MAXFILE)
    (h : blockOf fs ip bn' ≠ 0) : blockOf fs' ip' bn' = blockOf fs ip bn' := by
  by_cases he : bn' = bn
  · rw [he] at h ⊢
    exact hm.kept_bn h
  · exact hm.other _ hbn' he

lemma Bmapped.byteAt {sb : SB} {fs fs' : Disk} {ip ip' : Inode} {bn addr : ℕ}
    (hm : Bmapped sb fs ip bn addr fs' ip') (hg : Good fs ip) {o : ℕ}
    (ho : o / BSIZE < MAXFILE) (h : blockOf fs ip (o / BSIZE) ≠ 0) :
    byteAt fs' ip' o = byteAt fs ip o := by
  unfold Content.byteAt
  rw [hm.blockOf_of_ne_zero ho h, hm.kept _ (hg.used_blk _ ho h) (hg.ne_ind _ ho h)]

/-! ### One chunk of `writei` -/

lemma Good.congr {fs fs' : Disk} {ip : Inode} (hg : Good fs ip)
    (hblk : ∀ bn, blockOf fs' ip bn = blockOf fs ip bn) (hused : fs'.used = fs.used) :
    Good fs' ip := by
  refine ⟨?_, ?_, fun bn hbn h => ?_, fun bn hbn h => ?_, fun bn₁ h₁ bn₂ h₂ h he => ?_,
    fun bn hs => ?_, hg.size_le⟩ <;> simp only [hblk, hused] at * <;> first
    | exact hg.used_zero | exact hg.used_ind | exact hg.used_blk bn hbn h
    | exact hg.ne_ind bn hbn h | exact hg.inj bn₁ h₁ bn₂ h₂ h he | exact hg.alloc bn hs

lemma blockOf_copyin {fs : Disk} {ip : Inode} {addr : ℕ} (hne : addr ≠ ip.addrs NDIRECT)
    (x : ℕ) (src : ℕ → Option UInt8) (i k bn : ℕ) :
    blockOf (fs.copyin addr x src i k) ip bn = blockOf fs ip bn := by
  simp only [blockOf, Disk.copyin, Function.update_of_ne (Ne.symm hne)]

lemma byteAt_copyin {fs : Disk} {ip : Inode} (hg : Good fs ip) {off : ℕ}
    (hbn : off / BSIZE < MAXFILE) (ha : blockOf fs ip (off / BSIZE) ≠ 0)
    (src : ℕ → Option UInt8) (i : ℕ) {k : ℕ} (hk : off % BSIZE + k ≤ BSIZE) {o : ℕ}
    (ho : o / BSIZE < MAXFILE) (h : blockOf fs ip (o / BSIZE) ≠ 0) :
    byteAt (fs.copyin (blockOf fs ip (off / BSIZE)) (off % BSIZE) src i k) ip o =
      if off ≤ o ∧ o < off + k then (src (i + (o - off))).getD 0 else byteAt fs ip o := by
  have hne := hg.ne_ind _ hbn ha
  unfold Content.byteAt
  rw [blockOf_copyin hne]
  by_cases hsame : blockOf fs ip (o / BSIZE) = blockOf fs ip (off / BSIZE)
  · have hb : o / BSIZE = off / BSIZE := hg.inj _ ho _ hbn h hsame
    rw [hsame]
    simp only [Disk.copyin, Function.update_self]
    have hdiv := Nat.div_add_mod o BSIZE
    have hdiv' := Nat.div_add_mod off BSIZE
    unfold BSIZE at hdiv hdiv' hb hk ⊢
    by_cases hin : off ≤ o ∧ o < off + k
    · rw [if_pos hin, setRange_of_mem (by omega)]
      congr 2
      omega
    · rw [if_neg hin, setRange_of_not_mem (by omega)]
  · have hout : ¬(off ≤ o ∧ o < off + k) := fun hin => hsame (by
      rw [show o / BSIZE = off / BSIZE by unfold BSIZE at *; omega])
    simp only [Disk.copyin, Function.update_of_ne hsame, if_neg hout]

lemma copied_of_isSome {src : ℕ → Option UInt8} {i m : ℕ}
    (h : ∀ j < m, (src (i + j)).isSome) : copied src i m = m := by
  rw [copied, List.findIdx_eq_length.mpr, List.length_range]
  intro j hj
  simpa using h j (List.mem_range.mp hj)

lemma alloc_of_lt {fs : Disk} {ip : Inode} (hg : Good fs ip) {off : ℕ}
    (halloc : ∀ bn, bn * BSIZE < off → blockOf fs ip bn ≠ 0) {o : ℕ}
    (ho : o < max ip.size off) : blockOf fs ip (o / BSIZE) ≠ 0 := by
  have hle := Nat.div_mul_le_self o BSIZE
  rcases lt_max_iff.mp ho with ho | ho
  · exact hg.alloc _ (by omega)
  · exact halloc _ (by omega)

/-- The rest of `writei`'s loop, from offset `off` with `tot` of its `n` bytes written, on a
good file whose blocks up to `off` are allocated, when the user buffer can be read: it leaves a
good file of the same size whose bytes from `off` to where it stopped are the buffer's, every
other byte below the size where it was, and the blocks up to where it stopped allocated. It
stops short only when no block is left, fewer having been free than it had to allocate;
otherwise it took as many as it had to. -/
structure Wrote (sb : SB) (src : ℕ → Option UInt8) (n : ℕ) (fs : Disk) (ip : Inode)
    (off tot : ℕ) (fs' : Disk) (ip' : Inode) (off' : ℕ) : Prop where
  le : off ≤ off'
  le_end : off' ≤ off + (n - tot)
  good : Good fs' ip'
  size : ip'.size = ip.size
  iblock : ip'.iblock = ip.iblock
  alloc : ∀ bn, bn * BSIZE < off' → blockOf fs' ip' bn ≠ 0
  bytes : ∀ o < max ip.size off', byteAt fs' ip' o =
    if off ≤ o ∧ o < off' then (src (tot + (o - off))).getD 0 else byteAt fs ip o
  short : off' < off + (n - tot) →
    (∀ k < sb.size, fs'.used k = true) ∧ nfree sb fs < need fs ip off (n - tot)
  full : off' = off + (n - tot) → nfree sb fs = nfree sb fs' + need fs ip off (n - tot)

lemma wrote_done (sb : SB) (src : ℕ → Option UInt8) {n : ℕ} {fs : Disk} {ip : Inode}
    {off tot : ℕ} (hg : Good fs ip) (htot : n ≤ tot)
    (halloc : ∀ bn, bn * BSIZE < off → blockOf fs ip bn ≠ 0) :
    Wrote sb src n fs ip off tot fs ip off := by
  refine ⟨le_rfl, by omega, hg, rfl, rfl, halloc, fun o _ => by simp, fun h => by omega,
    fun _ => ?_⟩
  rw [show n - tot = 0 by omega, need_zero]
  rfl

lemma wrote_stop {sb : SB} {src : ℕ → Option UInt8} {n : ℕ} {fs fs₁ : Disk} {ip ip₁ : Inode}
    {off tot : ℕ} (hg : Good fs ip) (htot : tot < n) (hend : off + (n - tot) ≤ MAXFILE * BSIZE)
    (halloc : ∀ bn, bn * BSIZE < off → blockOf fs ip bn ≠ 0)
    (hm : Bmapped sb fs ip (off / BSIZE) 0 fs₁ ip₁) :
    Wrote sb src n fs ip off tot fs₁ ip₁ off := by
  have hmax : max ip.size off ≤ MAXFILE * BSIZE := max_le hg.size_le (by omega)
  refine ⟨le_rfl, by omega, hm.good, hm.size, hm.iblock, fun bn h => ?_, fun o ho => ?_,
    fun _ => ⟨(hm.full rfl).1, ?_⟩, fun h => by omega⟩
  · have hbn := lt_MAXFILE_of_mul h (by omega)
    rw [hm.blockOf_of_ne_zero hbn (halloc bn h)]
    exact halloc bn h
  · rw [if_neg (by omega)]
    exact hm.byteAt hg (lt_MAXFILE_of_mul (Nat.div_mul_le_self o BSIZE |>.trans_lt ho)
      (by omega)) (alloc_of_lt hg halloc ho)
  · exact lt_of_lt_of_le (hm.full rfl).2 (allocs_le_need fs ip (by omega) hend)

lemma chunk_good {sb : SB} {fs fs₁ : Disk} {ip ip₁ : Inode} {off addr : ℕ}
    (hbn : off / BSIZE < MAXFILE) (halloc : ∀ bn, bn * BSIZE < off → blockOf fs ip bn ≠ 0)
    (hm : Bmapped sb fs ip (off / BSIZE) addr fs₁ ip₁) (ha : addr ≠ 0)
    (src : ℕ → Option UInt8) (tot : ℕ) {m : ℕ} (hk : off % BSIZE + m ≤ BSIZE) :
    Good (log_write (fs₁.copyin addr (off % BSIZE) src tot m) addr) ip₁ ∧
      ∀ bn, bn * BSIZE < off + m →
        blockOf (log_write (fs₁.copyin addr (off % BSIZE) src tot m) addr) ip₁ bn ≠ 0 := by
  have ha₁ : blockOf fs₁ ip₁ (off / BSIZE) ≠ 0 := hm.addr_eq ▸ ha
  have hne : addr ≠ ip₁.addrs NDIRECT := hm.addr_eq ▸ hm.good.ne_ind _ hbn ha₁
  have hblk : ∀ bn, blockOf (log_write (fs₁.copyin addr (off % BSIZE) src tot m) addr) ip₁ bn =
      blockOf fs₁ ip₁ bn := fun bn => by rw [blockOf_log_write, blockOf_copyin hne]
  refine ⟨hm.good.congr hblk rfl, fun bn h => ?_⟩
  rw [hblk]
  by_cases he : bn = off / BSIZE
  · rw [he]
    exact ha₁
  · -- a block before the chunk's was allocated already
    have hlt : bn * BSIZE < off := by
      unfold BSIZE at h hk he ⊢
      omega
    rw [hm.blockOf_of_ne_zero (lt_MAXFILE_of_mul hlt (by
      have := Nat.div_mul_le_self off BSIZE
      unfold MAXFILE NDIRECT NINDIRECT BSIZE at *
      omega)) (halloc bn hlt)]
    exact halloc bn hlt

lemma Wrote.cons {sb : SB} {src : ℕ → Option UInt8} {n : ℕ} {fs fs₁ fs' : Disk}
    {ip ip₁ ip' : Inode} {off tot off' addr m : ℕ} (hg : Good fs ip) (htot : tot < n)
    (hend : off + (n - tot) ≤ MAXFILE * BSIZE)
    (halloc : ∀ bn, bn * BSIZE < off → blockOf fs ip bn ≠ 0)
    (hm : Bmapped sb fs ip (off / BSIZE) addr fs₁ ip₁) (ha : addr ≠ 0)
    (hmdef : m = min (n - tot) (BSIZE - off % BSIZE))
    (hw : Wrote sb src n (log_write (fs₁.copyin addr (off % BSIZE) src tot m) addr) ip₁
      (off + m) (tot + m) fs' ip' off') :
    Wrote sb src n fs ip off tot fs' ip' off' := by
  have hk : off % BSIZE + m ≤ BSIZE := by
    have := Nat.mod_lt off (show 0 < BSIZE by decide)
    rw [hmdef]
    omega
  have hm0 : 0 < m := hmdef ▸ chunk_pos htot
  have hbn : off / BSIZE < MAXFILE :=
    lt_MAXFILE_of_mul (lt_of_le_of_lt (Nat.div_mul_le_self off BSIZE) (by omega)) hend
  have ha₁ : blockOf fs₁ ip₁ (off / BSIZE) ≠ 0 := hm.addr_eq ▸ ha
  have hne : addr ≠ ip₁.addrs NDIRECT := hm.addr_eq ▸ hm.good.ne_ind _ hbn ha₁
  have hblk : ∀ bn, blockOf (log_write (fs₁.copyin addr (off % BSIZE) src tot m) addr) ip₁ bn =
      blockOf fs₁ ip₁ bn := fun bn => by rw [blockOf_log_write, blockOf_copyin hne]
  -- what the rest of the loop had to allocate is what it has to after this chunk
  have hneed : need fs ip off (n - tot) = allocs fs ip (off / BSIZE) +
      need (log_write (fs₁.copyin addr (off % BSIZE) src tot m) addr) ip₁ (off + m)
        (n - (tot + m)) := by
    rw [need_step (by omega) hend hm.other ha₁ hm.ind_direct, ← hmdef,
      show n - tot - m = n - (tot + m) by omega]
    simp only [need, hblk]
  have hcount := hm.count ha
  have hmax : max ip.size off' ≤ MAXFILE * BSIZE := max_le hg.size_le (by have := hw.le_end; omega)
  refine ⟨by have := hw.le; omega, by have := hw.le_end; omega, hw.good, hw.size.trans hm.size,
    hw.iblock.trans hm.iblock, hw.alloc, fun o ho => ?_, fun h => ?_, fun h => ?_⟩
  · have hoM : o / BSIZE < MAXFILE :=
      lt_MAXFILE_of_mul (lt_of_le_of_lt (Nat.div_mul_le_self o BSIZE) ho) hmax
    rw [hw.bytes o (by rwa [hm.size])]
    by_cases h₁ : off + m ≤ o ∧ o < off'
    · rw [if_pos h₁, if_pos ⟨by omega, h₁.2⟩]
      congr 2
      omega
    rw [if_neg h₁, show byteAt (log_write (fs₁.copyin addr (off % BSIZE) src tot m) addr) ip₁ o =
      byteAt (fs₁.copyin addr (off % BSIZE) src tot m) ip₁ o from rfl]
    by_cases h₂ : off ≤ o ∧ o < off + m
    · -- a byte of this chunk
      have hb : o / BSIZE = off / BSIZE := by unfold BSIZE at *; omega
      have := byteAt_copyin hm.good hbn ha₁ src tot hk hoM (hb ▸ ha₁)
      rw [← hm.addr_eq, if_pos h₂] at this
      rw [this, if_pos ⟨h₂.1, by have := hw.le; omega⟩]
    · -- a byte the file had, outside the chunk
      have hold : blockOf fs ip (o / BSIZE) ≠ 0 := alloc_of_lt hg halloc (by
        rcases lt_max_iff.mp ho with ho | ho <;> omega)
      have hold₁ : blockOf fs₁ ip₁ (o / BSIZE) ≠ 0 := by
        rw [hm.blockOf_of_ne_zero hoM hold]
        exact hold
      have := byteAt_copyin hm.good hbn ha₁ src tot hk hoM hold₁
      rw [← hm.addr_eq, if_neg h₂, hm.byteAt hg hoM hold] at this
      rw [this, if_neg (by omega)]
  · obtain ⟨hall, hlt⟩ := hw.short (by omega)
    have hn : nfree sb (log_write (fs₁.copyin addr (off % BSIZE) src tot m) addr) =
      nfree sb fs₁ := rfl
    exact ⟨hall, by omega⟩
  · have := hw.full (by omega)
    have hn : nfree sb (log_write (fs₁.copyin addr (off % BSIZE) src tot m) addr) =
      nfree sb fs₁ := rfl
    omega

/-- **The loop of `writei`** on a good file, when the user buffer can be read: it ends, and
`Wrote` says what it leaves. By induction on the bytes left, one chunk at a time. -/
theorem writeLoop_spec (sb : SB) {src : ℕ → Option UInt8} {n : ℕ}
    (hsrc : ∀ i < n, (src i).isSome) (r : ℕ) :
    ∀ fs ip off tot, n - tot = r → Good fs ip → off + (n - tot) ≤ MAXFILE * BSIZE →
      (∀ bn, bn * BSIZE < off → blockOf fs ip bn ≠ 0) →
      ∃ fs' ip' off', writeLoop sb src n fs ip off tot = .ok (fs', ip', off') ∧
        Wrote sb src n fs ip off tot fs' ip' off' := by
  induction r using Nat.strong_induction_on with
  | _ r ih =>
  intro fs ip off tot hr hg hend halloc
  by_cases htot : tot < n
  swap
  · exact ⟨fs, ip, off, by rw [writeLoop, dif_neg htot], wrote_done sb src hg (by omega) halloc⟩
  have hbn : off / BSIZE < MAXFILE :=
    lt_MAXFILE_of_mul (lt_of_le_of_lt (Nat.div_mul_le_self off BSIZE) (by omega)) hend
  obtain ⟨addr, fs₁, ip₁, hb, hm⟩ := @bmap_good sb fs ip hg _ hbn
  by_cases ha : addr = 0
  · subst ha
    refine ⟨fs₁, ip₁, off, ?_, wrote_stop hg htot hend halloc hm⟩
    rw [writeLoop, dif_pos htot, hb]
    rfl
  -- the chunk up to the end of the block or of the write
  obtain ⟨m, hmdef⟩ : ∃ m, m = min (n - tot) (BSIZE - off % BSIZE) := ⟨_, rfl⟩
  have hm0 : 0 < m := hmdef ▸ chunk_pos htot
  have hk : off % BSIZE + m ≤ BSIZE := by
    have := Nat.mod_lt off (show 0 < BSIZE by decide)
    rw [hmdef]
    omega
  have hcopied : copied src tot m = m :=
    copied_of_isSome fun j hj => hsrc _ (by rw [hmdef] at hj; omega)
  obtain ⟨hg₂, halloc₂⟩ := chunk_good hbn halloc hm ha src tot hk
  obtain ⟨fs', ip', off', he, hw⟩ := ih (n - (tot + m)) (by omega) _ ip₁ (off + m) (tot + m) rfl
    hg₂ (by omega) halloc₂
  refine ⟨fs', ip', off', ?_, hw.cons hg htot hend halloc hm ha hmdef⟩
  rw [writeLoop, dif_pos htot, hb]
  simp only [if_neg ha, ← hmdef, hcopied, lt_irrefl, if_false]
  exact he

/-! ### `readi` of a good file -/

lemma chunk_bytes (fs : Disk) (ip : Inode) {off m : ℕ} (hk : off % BSIZE + m ≤ BSIZE) :
    ((List.range m).map fun j => fs.blocks (blockOf fs ip (off / BSIZE)) (off % BSIZE + j)) =
      (List.range m).map fun j => byteAt fs ip (off + j) := by
  apply List.map_congr_left
  intro j hj
  have hj := List.mem_range.mp hj
  have hdiv := Nat.div_add_mod off BSIZE
  have hb : (off + j) / BSIZE = off / BSIZE := by unfold BSIZE at *; omega
  have hr : (off + j) % BSIZE = off % BSIZE + j := by unfold BSIZE at *; omega
  rw [byteAt, hb, hr]

/-- **The loop of `readi`** below the size of a good file, into a destination that takes every
byte: it reads the bytes at the offsets, changing nothing. -/
theorem readLoop_spec (sb : SB) {dst : ℕ → Bool} (hdst : ∀ j, dst j = true) {n : ℕ} (r : ℕ) :
    ∀ fs ip off tot, n - tot = r → tot ≤ n → Good fs ip → off + (n - tot) ≤ ip.size →
      readLoop sb dst n fs ip off tot =
        .ok (fs, ip, n, (List.range (n - tot)).map fun j => byteAt fs ip (off + j)) := by
  induction r using Nat.strong_induction_on with
  | _ r ih =>
  intro fs ip off tot hr htn hg hend
  by_cases htot : tot < n
  swap
  · rw [readLoop, dif_neg htot, show n - tot = 0 by omega, show tot = n by omega]
    rfl
  have hbn : off / BSIZE < MAXFILE :=
    lt_MAXFILE_of_mul (lt_of_le_of_lt (Nat.div_mul_le_self off BSIZE) (by omega)) hg.size_le
  have ha : blockOf fs ip (off / BSIZE) ≠ 0 := hg.alloc _
    (lt_of_le_of_lt (Nat.div_mul_le_self off BSIZE) (by omega))
  obtain ⟨m, hmdef⟩ : ∃ m, m = min (n - tot) (BSIZE - off % BSIZE) := ⟨_, rfl⟩
  have hm0 : 0 < m := hmdef ▸ chunk_pos htot
  have hk : off % BSIZE + m ≤ BSIZE := by
    have := Nat.mod_lt off (show 0 < BSIZE by decide)
    rw [hmdef]
    omega
  have hrest := ih (n - (tot + m)) (by omega) fs ip (off + m) (tot + m) rfl (by omega) hg
    (by omega)
  rw [readLoop, dif_pos htot, bmap_of_ne_zero sb fs ip hbn ha]
  simp only [if_neg ha, ← hmdef, hdst, List.all_eq_true, implies_true, if_true, hrest,
    chunk_bytes fs ip hk]
  congr
  rw [show n - tot = m + (n - (tot + m)) by omega, List.range_add, List.map_append,
    List.map_map]
  congr 2
  funext j
  simp [Nat.add_assoc]

/-- **`readi` of a good file** into a destination that takes every byte, with no `uint`
overflow: nothing past the size, otherwise as many bytes as asked for or as the file has from
the offset, each the byte at its offset. -/
theorem readi_spec (sb : SB) {fs : Disk} {ip : Inode} (hg : Good fs ip) {dst : ℕ → Bool}
    (hdst : ∀ j, dst j = true) {off n : ℕ} (hov : off + n < 2 ^ 32) :
    readi sb fs ip dst off n =
      .ok (fs, ip, ((if ip.size < off then 0 else min n (ip.size - off) : ℕ) : ℤ),
        (List.range (if ip.size < off then 0 else min n (ip.size - off))).map
          fun j => byteAt fs ip (off + j)) := by
  unfold readi
  by_cases hs : ip.size < off
  · rw [if_pos (Or.inl hs), if_pos hs]
    rfl
  · have hn : (if ip.size < off + n then ip.size - off else n) = min n (ip.size - off) := by
      split_ifs <;> omega
    rw [if_neg (by omega), if_neg hs, hn, readLoop_spec sb hdst _ fs ip off 0 rfl (Nat.zero_le _)
      hg (by omega), Nat.sub_zero]

/-! ### `writei` of a good file -/

lemma Good.fresh {fs : Disk} {ip : Inode} (h0 : fs.used 0 = true) (haddrs : ∀ i, ip.addrs i = 0)
    (hsize : ip.size = 0) : Good fs ip := by
  have hblk : ∀ bn, blockOf fs ip bn = 0 := fun bn => by
    unfold blockOf
    simp [haddrs]
  exact ⟨h0, fun h => absurd (haddrs _) h, fun bn _ h => absurd (hblk bn) h,
    fun bn _ h => absurd (hblk bn) h, fun bn _ _ _ h => absurd (hblk bn) h,
    fun bn h => by omega, by omega⟩

lemma Good.grow {fs : Disk} {ip : Inode} (hg : Good fs ip) {t : ℕ}
    (halloc : ∀ bn, bn * BSIZE < t → blockOf fs ip bn ≠ 0) (ht : t ≤ MAXFILE * BSIZE) :
    Good fs (if ip.size < t then { ip with size := t } else ip) := by
  split_ifs
  · exact ⟨hg.used_zero, hg.used_ind, hg.used_blk, hg.ne_ind, hg.inj, halloc, ht⟩
  · exact hg

lemma size_grow (ip : Inode) (t : ℕ) :
    (if ip.size < t then { ip with size := t } else ip).size = max ip.size t := by
  split_ifs with h
  · exact (max_eq_right h.le).symm
  · exact (max_eq_left (not_lt.1 h)).symm

lemma byteAt_grow (fs : Disk) (ip : Inode) (t o : ℕ) :
    byteAt fs (if ip.size < t then { ip with size := t } else ip) o = byteAt fs ip o := by
  split_ifs <;> rfl

lemma Good.place_inj {fs : Disk} {ip : Inode} (hg : Good fs ip) {o₁ o₂ : ℕ}
    (h₁ : o₁ < ip.size) (h₂ : o₂ < ip.size)
    (he : (blockOf fs ip (o₁ / BSIZE), o₁ % BSIZE) = (blockOf fs ip (o₂ / BSIZE), o₂ % BSIZE)) :
    o₁ = o₂ := by
  have hb₁ : o₁ / BSIZE * BSIZE < ip.size := lt_of_le_of_lt (Nat.div_mul_le_self _ _) h₁
  have hb₂ : o₂ / BSIZE * BSIZE < ip.size := lt_of_le_of_lt (Nat.div_mul_le_self _ _) h₂
  obtain ⟨hblk, hmod⟩ := Prod.mk.inj he
  have hdiv := hg.inj _ (lt_MAXFILE_of_mul hb₁ hg.size_le) _ (lt_MAXFILE_of_mul hb₂ hg.size_le)
    (hg.alloc _ hb₁) hblk
  rw [← Nat.div_add_mod o₁ BSIZE, ← Nat.div_add_mod o₂ BSIZE, hdiv, hmod]

/-- **`writei` of a good file**, when the offset is within the size, the write within
`MAXFILE` blocks and the user buffer can be read: it stores `tot ≤ n` bytes and grows the size
over them. It stores all `n` unless no block is left, fewer having been free than it had to
allocate; the other bytes below the size are as they were. -/
theorem writei_spec (sb : SB) {fs : Disk} {ip : Inode} (hg : Good fs ip)
    {src : ℕ → Option UInt8} {off n : ℕ} (hoff : off ≤ ip.size)
    (hmax : off + n ≤ MAXFILE * BSIZE) (hsrc : ∀ i < n, (src i).isSome) :
    ∃ (fs' : Disk) (ip' : Inode) (tot : ℕ), writei sb fs ip src off n = .ok (fs', ip', (tot : ℤ)) ∧ tot ≤ n ∧
      ip'.size = max ip.size (off + tot) ∧ Good fs' ip' ∧
      (∀ o < ip'.size, byteAt fs' ip' o =
        if off ≤ o ∧ o < off + tot then (src (o - off)).getD 0 else byteAt fs ip o) ∧
      (tot < n → (∀ k < sb.size, fs'.used k = true) ∧ nfree sb fs < need fs ip off n) ∧
      (tot = n → nfree sb fs = nfree sb fs' + need fs ip off n) := by
  have hov : ¬(ip.size < off ∨ 2 ^ 32 ≤ off + n) := by
    unfold MAXFILE NDIRECT NINDIRECT BSIZE at hmax
    omega
  obtain ⟨fs₁, ip₁, off', he, hw⟩ := writeLoop_spec sb hsrc n fs ip off 0 (Nat.sub_zero n) hg
    (by omega) fun bn h => hg.alloc bn (by omega)
  have hle := hw.le
  have hend := hw.le_end
  have hgood := hw.good.grow hw.alloc (by omega)
  refine ⟨log_write fs₁ (if ip₁.size < off' then { ip₁ with size := off' } else ip₁).iblock,
    if ip₁.size < off' then { ip₁ with size := off' } else ip₁, off' - off, ?_, by omega, ?_,
    hgood.congr (fun _ => rfl) rfl, fun o ho => ?_, fun h => ?_, fun h => ?_⟩
  · unfold writei
    rw [if_neg hov, if_neg (by omega), he]
  · rw [size_grow, hw.size]
    omega
  · rw [size_grow, hw.size] at ho
    have := hw.bytes o (by omega)
    rw [Nat.zero_add] at this
    rw [byteAt_log_write, byteAt_grow, this, show off + (off' - off) = off' by omega]
  · exact hw.short (by omega)
  · exact hw.full (by omega)

/-- **`writei` then `readi` is a byte array.** A write into a good file at an offset inside it,
within `MAXFILE` blocks and with every source byte copied in, returns how many bytes it stored:
all of them when the bitmap has the blocks it needs, and otherwise only after every block is in
use. The size covers what was stored; distinct offsets sit at distinct places of the disk; and a
later `readi` without overflow returns the bytes up to the size, each the byte last written at
its offset or else the file's old byte there. -/
theorem readi_writei_byte_array (sb : SB) {fs : Disk} {ip : Inode} (hg : Good fs ip)
    {src : ℕ → Option UInt8} {off n : ℕ} (hoff : off ≤ ip.size)
    (hmax : off + n ≤ MAXFILE * BSIZE) (hsrc : ∀ i < n, (src i).isSome) :
    ∃ (fs' : Disk) (ip' : Inode) (tot : ℕ),
      writei sb fs ip src off n = .ok (fs', ip', (tot : ℤ)) ∧ tot ≤ n ∧
      (need fs ip off n ≤ nfree sb fs → tot = n) ∧
      (tot < n → ∀ k < sb.size, fs'.used k = true) ∧
      ip'.size = max ip.size (off + tot) ∧
      (∀ o₁ < ip'.size, ∀ o₂ < ip'.size, (blockOf fs' ip' (o₁ / BSIZE), o₁ % BSIZE) =
        (blockOf fs' ip' (o₂ / BSIZE), o₂ % BSIZE) → o₁ = o₂) ∧
      ∀ (dst : ℕ → Bool), (∀ j, dst j = true) → ∀ off' n', off' + n' < 2 ^ 32 →
        readi sb fs' ip' dst off' n' = .ok (fs', ip',
          ((if ip'.size < off' then 0 else min n' (ip'.size - off') : ℕ) : ℤ),
          (List.range (if ip'.size < off' then 0 else min n' (ip'.size - off'))).map fun j =>
            if off ≤ off' + j ∧ off' + j < off + tot then (src (off' + j - off)).getD 0
            else byteAt fs ip (off' + j)) := by
  obtain ⟨fs', ip', tot, he, hle, hsize, hgood, hbytes, hshort, -⟩ :=
    writei_spec sb hg hoff hmax hsrc
  refine ⟨fs', ip', tot, he, hle, fun hneed => ?_, fun h => (hshort h).1, hsize,
    fun o₁ h₁ o₂ h₂ => hgood.place_inj h₁ h₂, fun dst hdst off' n' hov => ?_⟩
  · by_contra hne
    have := (hshort (by omega)).2
    omega
  · rw [readi_spec sb hgood hdst hov]
    have hk : ∀ j ∈ List.range (if ip'.size < off' then 0 else min n' (ip'.size - off')),
        byteAt fs' ip' (off' + j) = if off ≤ off' + j ∧ off' + j < off + tot then
          (src (off' + j - off)).getD 0 else byteAt fs ip (off' + j) := fun j hj => by
      rw [List.mem_range] at hj
      exact hbytes _ (by split_ifs at hj <;> omega)
    rw [List.map_congr_left hk]

theorem readi_writei_byte_array_fresh :
    let sb : SB := ⟨2000, 46, by decide⟩
    let fs : Disk := ⟨fun _ _ => 0, fun b => b == 0, []⟩
    let ip : Inode := ⟨0, fun _ => 0, 1⟩
    let src : ℕ → Option UInt8 := fun _ => some 7
    Good fs ip ∧ 0 ≤ ip.size ∧ 0 + 3 ≤ MAXFILE * BSIZE ∧ (∀ i < 3, (src i).isSome) ∧
    ∃ (fs' : Disk) (ip' : Inode) (tot : ℕ),
      writei sb fs ip src 0 3 = .ok (fs', ip', (tot : ℤ)) ∧ tot ≤ 3 ∧
      (need fs ip 0 3 ≤ nfree sb fs → tot = 3) ∧
      (tot < 3 → ∀ k < sb.size, fs'.used k = true) ∧
      ip'.size = max ip.size (0 + tot) ∧
      (∀ o₁ < ip'.size, ∀ o₂ < ip'.size, (blockOf fs' ip' (o₁ / BSIZE), o₁ % BSIZE) =
        (blockOf fs' ip' (o₂ / BSIZE), o₂ % BSIZE) → o₁ = o₂) ∧
      ∀ (dst : ℕ → Bool), (∀ j, dst j = true) → ∀ off' n', off' + n' < 2 ^ 32 →
        readi sb fs' ip' dst off' n' = .ok (fs', ip',
          ((if ip'.size < off' then 0 else min n' (ip'.size - off') : ℕ) : ℤ),
          (List.range (if ip'.size < off' then 0 else min n' (ip'.size - off'))).map fun j =>
            if 0 ≤ off' + j ∧ off' + j < 0 + tot then (src (off' + j - 0)).getD 0
            else byteAt fs ip (off' + j)) :=
  have hg : Good ⟨fun _ _ => 0, fun b => b == 0, []⟩ ⟨0, fun _ => 0, 1⟩ :=
    Good.fresh rfl (fun _ => rfl) rfl
  have hmax : 0 + 3 ≤ MAXFILE * BSIZE := by unfold MAXFILE NDIRECT NINDIRECT BSIZE; omega
  ⟨hg, le_rfl, hmax, fun _ _ => rfl,
    readi_writei_byte_array ⟨2000, 46, by decide⟩ hg le_rfl hmax fun _ _ => rfl⟩

end Xv6.Fs.Content
