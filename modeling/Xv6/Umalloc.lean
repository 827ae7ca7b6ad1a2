import Xv6.Vm.Proc

/-!
The user allocator of `umalloc.c` (Kernighan and Ritchie's `malloc`, `free` and `morecore`)
over the heap `sbrk` grows.

The heap is read through the headers the allocator keeps: `s.ptr` and `s.size` of the header
at each address (`Heap.ptr`, `Heap.size`), `freep`, and the process's size `p->sz`, its break.
The break moves only eagerly, through `sbrk`, so every page below `PGROUNDUP(p->sz)` is mapped;
an access at or above it faults, `vmfault` refuses an address past `p->sz`, and `usertrap`
kills the process (`killed`). `base` is the static header, in the data segment below the heap.
The loops of `free` and `malloc` run on a `fuel` of iterations: `none` is a loop still
running when it is spent.

`morecore` asks `sbrk` for `nu * sizeof(Header)` bytes, an `unsigned long` passed as an `int`.
From `2^31` bytes on, the `int` is zero or negative, so `sbrk` does not grow the heap and still
returns the old break, and the header `morecore` writes there is past the heap.
-/

namespace Xv6.Umalloc

open Xv6.Param Xv6.Riscv Xv6.Vm.Proc

def HDR : ℕ := 16

/-- What `usertrap` does to a process whose access faults past its size. -/
def killed : String := "usertrap: killed"

/-! ### The break -/

/-- What `sbrk(n)`, that is `sys_sbrk(n, SBRK_EAGER)`, does to a process of size `sz`: the old
break and the new size, or `-1` (`SBRK_ERROR`). `growproc` grows by `uvmalloc`, which finds
the pages when `grows` says so, and shrinks by `uvmdealloc` to the `uint64` sum `sz + n`,
which leaves the size when the sum is not below it. -/
def sbrk (grows : ℕ → ℕ → Bool) (sz : ℕ) (n : ℤ) : ℤ × ℕ :=
  if 0 < n then
    if TRAPFRAME < addInt sz n then (-1, sz)
    else if grows sz (addInt sz n) then (sz, addInt sz n) else (-1, sz)
  else if n < 0 then (sz, if sz ≤ addInt sz n then sz else addInt sz n)
  else (sz, sz)

lemma sbrk_of_nonpos (grows : ℕ → ℕ → Bool) (sz : ℕ) {n : ℤ} (hn : n ≤ 0) :
    (sbrk grows sz n).1 = sz ∧ (sbrk grows sz n).2 ≤ sz := by
  have hpos : ¬0 < n := by omega
  rw [sbrk, if_neg hpos]
  split_ifs with hneg hle
  · exact ⟨rfl, le_rfl⟩
  · exact ⟨rfl, by omega⟩
  · exact ⟨rfl, le_rfl⟩

lemma sbrk_of_wrap (grows : ℕ → ℕ → Bool) {sz : ℕ} {n : ℤ} (hn : n < 0) (hw : (sz : ℤ) < -n)
    (hn' : -2 ^ 63 ≤ n) : sbrk grows sz n = ((sz : ℤ), sz) := by
  have hsz : sz ≤ addInt sz n := by
    unfold addInt
    omega
  rw [sbrk, if_neg (by omega), if_pos hn, if_pos hsz]

/-! ### The headers -/

/-- The headers of the heap, `freep` (`0` for null) and the size of the process. -/
structure Heap where
  ptr : ℕ → ℕ
  size : ℕ → ℕ
  freep : ℕ
  sz : ℕ

namespace Heap

variable (h : Heap) (a v : ℕ)

def getPtr : Except String ℕ := if a < PGROUNDUP h.sz then .ok (h.ptr a) else .error killed

def getSize : Except String ℕ := if a < PGROUNDUP h.sz then .ok (h.size a) else .error killed

def setPtr : Except String Heap :=
  if a < PGROUNDUP h.sz then .ok { h with ptr := Function.update h.ptr a v } else .error killed

def setSize : Except String Heap :=
  if a < PGROUNDUP h.sz then .ok { h with size := Function.update h.size a (v % 2 ^ 32) }
  else .error killed

variable {h a v}

lemma getSize_of_lt (ha : a < PGROUNDUP h.sz) : h.getSize a = .ok (h.size a) := if_pos ha

lemma setSize_of_le (ha : PGROUNDUP h.sz ≤ a) : h.setSize a v = .error killed :=
  if_neg (not_lt.mpr ha)

end Heap

/-! ### `free` -/

/-- The loop of `free(bp + 1)` from `p`: the header after which the block goes, where `bp`
falls between `p` and `p->s.ptr`, or past the end of the list at its wrap point. -/
def freeScan (h : Heap) (bp : ℕ) : ℕ → ℕ → Option (Except String ℕ)
  | 0, _ => none
  | fuel + 1, p =>
    match h.getPtr p with
    | .error e => some (.error e)
    | .ok q =>
      if p < bp ∧ bp < q then some (.ok p)
      else if q ≤ p ∧ (p < bp ∨ bp < q) then some (.ok p)
      else freeScan h bp fuel q

/-- The rest of `free`: the block `bp` joined to the next free block when it ends where that
one starts, then to `p` when `p` ends where it starts, and `freep` set to `p`. -/
def freeJoin (h : Heap) (bp p : ℕ) : Except String Heap := do
  let bsize ← h.getSize bp
  let q ← h.getPtr p
  let h ← if bp + HDR * bsize = q then do
      let qs ← h.getSize q
      let h ← h.setSize bp (bsize + qs)
      let qq ← h.getPtr q
      h.setPtr bp qq
    else h.setPtr bp q
  let psize ← h.getSize p
  let h ← if p + HDR * psize = bp then do
      let bs ← h.getSize bp
      let h ← h.setSize p (psize + bs)
      let bq ← h.getPtr bp
      h.setPtr p bq
    else h.setPtr p bp
  return { h with freep := p }

def free (fuel ap : ℕ) (h : Heap) : Option (Except String Heap) :=
  match freeScan h (ap - HDR) fuel h.freep with
  | none => none
  | some (.error e) => some (.error e)
  | some (.ok p) => some (freeJoin h (ap - HDR) p)

/-! ### `morecore` and `malloc` -/

/-- `morecore(nu)`: at least `4096` units asked of `sbrk`, their header written at the old
break and the block freed into the list; `freep`, or `0` when `sbrk` fails. -/
def morecore (fuel : ℕ) (grows : ℕ → ℕ → Bool) (nu : ℕ) (h : Heap) :
    Option (Except String (ℕ × Heap)) :=
  let nu := if nu < 4096 then 4096 else nu
  -- the old break, and the size after `sbrk`
  let brk := sbrk grows h.sz (i32 (nu * HDR))
  if brk.1 = -1 then some (.ok (0, h))
  else
    match { h with sz := brk.2 }.setSize brk.1.toNat nu with
    | .error e => some (.error e)
    | .ok h =>
      match free fuel (brk.1.toNat + HDR) h with
      | none => none
      | some (.error e) => some (.error e)
      | some (.ok h) => some (.ok (h.freep, h))

/-- The block `p` of `psize` units handed out for `nunits`: the whole of it, unlinked after
`prevp`, or its tail, the rest left free; the address past its header. -/
def carve (nunits prevp p psize : ℕ) (h : Heap) : Except String (ℕ × Heap) := do
  if psize = nunits then
    let q ← h.getPtr p
    let h ← h.setPtr prevp q
    return (p + HDR, { h with freep := prevp })
  else
    let h ← h.setSize p (psize - nunits)
    let s ← h.getSize p
    let h ← h.setSize (p + HDR * s) nunits
    return (p + HDR * s + HDR, { h with freep := prevp })

/-- The loop of `malloc` at `p` after `prevp`, with `k` rounds left: the first free block of
at least `nunits` units, `more` (that is, `morecore(nunits)`) called each time the scan comes
back to `freep`. -/
def mallocLoop (more : Heap → Option (Except String (ℕ × Heap))) (nunits : ℕ) :
    ℕ → ℕ → ℕ → Heap → Option (Except String (ℕ × Heap))
  | 0, _, _, _ => none
  | k + 1, prevp, p, h =>
    match h.getSize p with
    | .error e => some (.error e)
    | .ok psize =>
      if nunits ≤ psize then some (carve nunits prevp p psize h)
      else if p = h.freep then
        match more h with
        | none => none
        | some (.error e) => some (.error e)
        | some (.ok (p, h)) =>
          if p = 0 then some (.ok (0, h))
          else
            match h.getPtr p with
            | .error e => some (.error e)
            | .ok q => mallocLoop more nunits k p q h
      else
        match h.getPtr p with
        | .error e => some (.error e)
        | .ok q => mallocLoop more nunits k p q h

def nunitsOf (nbytes : ℕ) : ℕ := (nbytes + HDR - 1) / HDR + 1

/-- `malloc(nbytes)` with the static header at `base`: the address it returns, `0` when `sbrk`
fails. The first call makes `base` a list of its own, of size `0`. -/
def malloc (fuel : ℕ) (grows : ℕ → ℕ → Bool) (base nbytes : ℕ) (h : Heap) :
    Option (Except String (ℕ × Heap)) :=
  let start : Except String Heap :=
    if h.freep = 0 then do
      let h ← h.setPtr base base
      let h ← h.setSize base 0
      return { h with freep := base }
    else .ok h
  match start with
  | .error e => some (.error e)
  | .ok h =>
    match h.getPtr h.freep with
    | .error e => some (.error e)
    | .ok p =>
      mallocLoop (morecore fuel grows (nunitsOf nbytes)) (nunitsOf nbytes) fuel h.freep p h

end Xv6.Umalloc

namespace Xv6.Umalloc

open Xv6.Param Xv6.Riscv Xv6.Lib.Word

/-! ### What `morecore` asks of `sbrk` -/

lemma i32_nonpos {x : ℤ} (h₁ : 2 ^ 31 ≤ x) (h₂ : x ≤ 2 ^ 32) : -2 ^ 31 ≤ i32 x ∧ i32 x ≤ 0 := by
  unfold i32 toSigned
  norm_num
  omega

lemma nunitsOf_large {nbytes : ℕ} (h₁ : 2 ^ 31 - 31 ≤ nbytes) (h₂ : nbytes ≤ 2 ^ 32 - 16) :
    2 ^ 27 ≤ nunitsOf nbytes ∧ nunitsOf nbytes ≤ 2 ^ 28 := by
  unfold nunitsOf HDR
  omega

/-- **`morecore` of `2^31` bytes or more kills a process whose break is at a page boundary.**
`sbrk` of the `int` it passes, zero or negative, returns the old break and leaves the heap no
larger, and the header written at the old break is past the last mapped page. -/
lemma morecore_kills (fuel : ℕ) (grows : ℕ → ℕ → Bool) {nu : ℕ} {h : Heap}
    (halign : h.sz % PGSIZE = 0) (hsz : h.sz ≤ MAXVA) (h₁ : 2 ^ 27 ≤ nu) (h₂ : nu ≤ 2 ^ 28) :
    morecore fuel grows nu h = some (.error killed) := by
  have hx₁ : (2 : ℤ) ^ 31 ≤ nu * HDR := by unfold HDR; omega
  have hx₂ : (nu : ℤ) * HDR ≤ 2 ^ 32 := by unfold HDR; omega
  obtain ⟨-, hneg⟩ := i32_nonpos hx₁ hx₂
  obtain ⟨hr, hle⟩ := sbrk_of_nonpos grows h.sz hneg
  rcases hb : sbrk grows h.sz (i32 (nu * HDR)) with ⟨r, sz'⟩
  rw [hb] at hr hle
  dsimp only at hr hle
  subst hr
  -- the heap is no larger, and its last mapped page ends at the old break
  have hup : PGROUNDUP sz' ≤ h.sz := by
    calc PGROUNDUP sz' ≤ PGROUNDUP h.sz := PGROUNDUP_mono hle hsz
      _ = h.sz := PGROUNDUP_of_mod halign hsz
  have hne : (h.sz : ℤ) ≠ -1 := by omega
  simp only [morecore, if_neg (show ¬nu < 4096 by omega), hb, if_neg hne, Int.toNat_natCast,
    Heap.setSize_of_le (h := { h with sz := sz' }) hup]

lemma malloc_fresh (fuel : ℕ) (grows : ℕ → ℕ → Bool) {base : ℕ} (nbytes : ℕ) {h : Heap}
    (hfresh : h.freep = 0) (hbase : base < PGROUNDUP h.sz) :
    malloc fuel grows base nbytes h =
      mallocLoop (morecore fuel grows (nunitsOf nbytes)) (nunitsOf nbytes) fuel base base
      { ptr := Function.update h.ptr base base, size := Function.update h.size base 0,
        freep := base, sz := h.sz } := by
  simp only [malloc, hfresh, if_true, Heap.setPtr, Heap.setSize, Heap.getPtr, hbase, bind,
    Except.bind, pure, Except.pure, Nat.zero_mod, Function.update_self]

lemma mallocLoop_more_error {more : Heap → Option (Except String (ℕ × Heap))}
    {nunits k prevp p : ℕ} {h : Heap} {e : String} (hp : p < PGROUNDUP h.sz)
    (hsmall : h.size p < nunits) (hfree : p = h.freep) (hm : more h = some (.error e)) :
    mallocLoop more nunits (k + 1) prevp p h = some (.error e) := by
  simp only [mallocLoop, Heap.getSize_of_lt hp, if_neg (not_le.mpr hsmall), if_pos hfree, hm]

/-- **The first `malloc` of `2^31 - 31` bytes or more kills the process** when its break is at a
page boundary: the size `0` of `base` is too small, the scan is back at `freep` at once, and
`morecore` writes its header past the heap. -/
lemma malloc_fresh_kills (fuel : ℕ) (grows : ℕ → ℕ → Bool) {base nbytes : ℕ} {h : Heap}
    (hfresh : h.freep = 0) (hbase : base < PGROUNDUP h.sz) (halign : h.sz % PGSIZE = 0)
    (hsz : h.sz ≤ MAXVA) (h₁ : 2 ^ 31 - 31 ≤ nbytes) (h₂ : nbytes ≤ 2 ^ 32 - 16) :
    malloc (fuel + 1) grows base nbytes h = some (.error killed) := by
  obtain ⟨hn₁, hn₂⟩ := nunitsOf_large h₁ h₂
  rw [malloc_fresh (fuel + 1) grows nbytes hfresh hbase]
  -- the heap as `malloc` set it up, named for `morecore_kills`, which cannot find it from `h`
  have hk := morecore_kills (fuel + 1) grows
    (h := ⟨Function.update h.ptr base base, Function.update h.size base 0, base, h.sz⟩)
    halign hsz hn₁ hn₂
  exact mallocLoop_more_error hbase (by simp; omega) rfl hk

/-- `malloc(2^31)` as the first call of a process whose break is at `0x4000`, with `base` at
`0x1000`. `morecore` asks `sbrk` for `2^27 + 1` units, `2^31 + 16` bytes, an `int` of
`-2^31 + 16`; `sbrk` returns the old break and leaves the size, and the process is killed at
the header `morecore` writes there: `malloc` neither returns `0` nor a pointer. -/
theorem malloc_two_gib_killed (fuel : ℕ) (grows : ℕ → ℕ → Bool) :
    i32 (nunitsOf (2 ^ 31) * HDR) = -2 ^ 31 + 16 ∧
      sbrk grows 0x4000 (-2 ^ 31 + 16) = (0x4000, 0x4000) ∧
      malloc (fuel + 1) grows 0x1000 (2 ^ 31) ⟨fun _ => 0, fun _ => 0, 0, 0x4000⟩ =
        some (.error killed) :=
  ⟨by decide, sbrk_of_wrap grows (by norm_num) (by norm_num) (by norm_num),
    malloc_fresh_kills fuel grows rfl (by decide) (by decide) (by decide) (by norm_num)
      (by norm_num)⟩

end Xv6.Umalloc

namespace Xv6.Umalloc

open Xv6.Param Xv6.Riscv Xv6.Lib.Alloc Xv6.Vm.Walk Xv6.Vm.Map Xv6.Vm.Uvm Xv6.Vm.Proc

/-! ### `sbrk` and the kernel -/

section Kernel

variable {σ : Type*} {P : Pool σ} (hP : P.Lawful) {tramp : ℕ} {st st' : Phys σ} {p p' : VmProc}
include hP

lemma growproc_sbrk (h : ProcOK P tramp st p) {n r : ℤ} (hn : -2 ^ 31 ≤ n ∧ n < 2 ^ 31)
    (hg : growproc P p n st = .ok (r, p', st')) :
    ∃ b : Bool, ((if r < 0 then -1 else (p.sz : ℤ)), p'.sz) = sbrk (fun _ _ => b) p.sz n := by
  have hmax := h.sz_le_MAXVA
  unfold growproc at hg
  split_ifs at hg with hpos htop hneg
  · cases hg
    exact ⟨false, by simp [sbrk, hpos, htop]⟩
  · split at hg
    · cases hg
    · cases hg
      exact ⟨false, by simp [sbrk, hpos, htop]⟩
    · rename_i sz st₁ hne hu
      cases hg
      -- `uvmalloc` grows from the size to `sz + n`, which `int` `n > 0` does not wrap
      have hgt : p.sz ≤ addInt p.sz n := by
        rw [addInt_of_nonneg hpos.le (by have := h.sz_le; rw [TRAPFRAME_eq] at this; omega)]
        omega
      obtain ⟨-, -, hres⟩ := uvmalloc_spec hP (by decide) h.good hmax hu
      have hsz : sz = addInt p.sz n := by
        rcases hres with ⟨hlt, -⟩ | ⟨-, rfl, -⟩ | ⟨rfl, -⟩
        · omega
        · rfl
        · exact absurd rfl hne
      exact ⟨true, by simp [sbrk, hpos, htop, hsz]⟩
  · split at hg
    · cases hg
    · rename_i sz st₁ hu
      cases hg
      obtain ⟨-, hr, -⟩ := uvmdealloc_spec hP h.good hmax hu
      exact ⟨false, by simp [sbrk, hpos, hneg, hr]⟩
  · cases hg
    obtain rfl : n = 0 := by omega
    exact ⟨false, by simp [sbrk]⟩

/-- **`sbrk` is `sys_sbrk(n, SBRK_EAGER)` at the level of sizes**: for an `int` `n`, what the
kernel returns to a process in good order and the size it leaves it are `sbrk`'s, for whether
`uvmalloc` found the pages. -/
theorem sys_sbrk_eager_sbrk (h : ProcOK P tramp st p) {n r : ℤ} (hn : -2 ^ 31 ≤ n ∧ n < 2 ^ 31)
    (hs : sys_sbrk P p n SBRK_EAGER st = .ok (r, p', st')) :
    ∃ b : Bool, (r, p'.sz) = sbrk (fun _ _ => b) p.sz n := by
  unfold sys_sbrk at hs
  rw [if_pos (.inl rfl)] at hs
  split at hs
  · cases hs
  · rename_i r₁ p₁ st₁ hg
    obtain ⟨b, hb⟩ := growproc_sbrk hP h hn hg
    refine ⟨b, ?_⟩
    rw [← hb]
    split_ifs at hs with hr <;> cases hs <;> simp [hr]

end Kernel

end Xv6.Umalloc
