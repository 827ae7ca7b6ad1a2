import Xv6.Vm.Proc

/-!
`kexec` (`exec.c`): the loadable segments of an executable mapped into a fresh table, a
guard page and the stack above them with the arguments copied onto it, and then the process's
image replaced.

The executable is read as `readi` reads it: a file of `size` bytes, from which a read returns
what is left; the ELF header and the program headers are decoded from its bytes (`le`). While
the new image is built the process keeps its own image as it was, and the new table is a
process in good order of its own that shares the trapframe (`Building`). `kexec` then frees
whichever of the two images it drops.
-/

namespace Xv6.Vm.Exec

open Xv6.Param Xv6.Riscv Xv6.Lib.Alloc Xv6.Lib.Region Xv6.Vm.Walk Xv6.Vm.Map Xv6.Vm.Uvm
open Xv6.Vm.Free Xv6.Vm.Proc

def ELF_MAGIC : ℕ := 0x464C457F

def ELF_PROG_LOAD : ℕ := 1

def MAXARG : ℕ := 32

def USERSTACK : ℕ := 1

def ELFHDR_SIZE : ℕ := 64

def PROGHDR_SIZE : ℕ := 56

/-- An executable as `readi` reads it: its size and its bytes. -/
structure Image where
  size : ℕ
  data : ℕ → ℕ

def le (data : ℕ → ℕ) (off : ℕ) : ℕ → ℕ
  | 0 => 0
  | n + 1 => data off % 256 + 256 * le data (off + 1) n

/-- The fields of `struct proghdr` that `kexec` reads. -/
structure ProgHdr where
  type : ℕ
  flags : ℕ
  off : ℕ
  vaddr : ℕ
  filesz : ℕ
  memsz : ℕ

def progHdr (ip : Image) (off : ℕ) : ProgHdr where
  type := le ip.data off 4
  flags := le ip.data (off + 4) 4
  off := le ip.data (off + 8) 8
  vaddr := le ip.data (off + 16) 8
  filesz := le ip.data (off + 32) 8
  memsz := le ip.data (off + 40) 8

/-- `readi(ip, 0, dst, off, n)` for `uint` `off` and `n`: the number of bytes read. -/
def readi (ip : Image) (off n : ℕ) : ℕ :=
  if ip.size < off ∨ 2 ^ 32 ≤ off + n then 0 else min n (ip.size - off)

/-- The memory after `readi` copied `n` bytes of the file from `off` to `dst`. -/
def readTo (m : ℕ → ℕ) (ip : Image) (dst off n : ℕ) : ℕ → ℕ :=
  setRange m dst n fun a => ip.data (off + (a - dst))

def flags2perm (flags : ℕ) : ℕ :=
  let perm := if flags &&& 0x1 ≠ 0 then PTE_X else 0
  if flags &&& 0x2 ≠ 0 then perm ||| PTE_W else perm

def subU (a b : ℕ) : ℕ := ((a - b : ℤ) % 2 ^ 64).toNat

def wordBytes (ws : List ℕ) : List ℕ :=
  ws.flatMap fun w => (List.range 8).map fun k => w / 256 ^ k % 256

section Code

variable {σ : Type*} (P : Pool σ)

/-- The loop of `copyout` from `dstva`, with `fuel` rounds left (each round copies a byte at
least, so the length of `src` is enough); the calling process has size `sz` and table
`p_pagetable`, which `vmfault` reads through `myproc()`. Reading the entry of an address
`walk` cannot reach dereferences `0` and traps. -/
def copyoutLoop (pagetable sz p_pagetable : ℕ) :
    ℕ → ℕ → List ℕ → Phys σ → Except String (ℤ × Phys σ)
  | 0, _, _, st => .ok (0, st)
  | fuel + 1, dstva, src, st =>
    if src = [] then .ok (0, st)
    else
      let va0 := PGROUNDDOWN dstva
      if MAXVA ≤ va0 then .ok (-1, st)
      else
        let pa0 := walkaddr P pagetable va0 st
        match (if pa0 = 0 then vmfault P pagetable va0 false sz p_pagetable st
            else .ok (pa0, st)) with
        | .error e => .error e
        | .ok (0, st) => .ok (-1, st)
        | .ok (pa0, st) =>
          match walk P pagetable va0 false st with
          | .error e => .error e
          | .ok (none, _) => .error "kerneltrap"
          | .ok (some pte, st) =>
            if st.mem pte &&& PTE_W = 0 then .ok (-1, st)
            else
              let n := min (PGSIZE - (dstva - va0)) src.length
              let dst := pa0 + (dstva - va0)
              let st : Phys σ := ⟨setRange st.mem dst n fun a => src.getD (a - dst) 0, st.heap⟩
              copyoutLoop pagetable sz p_pagetable fuel (va0 + PGSIZE) (src.drop n) st

def copyout (pagetable dstva : ℕ) (src : List ℕ) (sz p_pagetable : ℕ) (st : Phys σ) :
    Except String (ℤ × Phys σ) :=
  copyoutLoop P pagetable sz p_pagetable src.length dstva src st

def loadsegLoop (pagetable va : ℕ) (ip : Image) (offset sz : ℕ) :
    ℕ → ℕ → Phys σ → Except String (ℤ × Phys σ)
  | 0, _, st => .ok (0, st)
  | k + 1, i, st =>
    let pa := walkaddr P pagetable (va + i) st
    if pa = 0 then .error "loadseg: address should exist"
    else
      let n := if sz - i < PGSIZE then sz - i else PGSIZE
      let off := (offset + i) % 2 ^ 32
      let r := readi ip off n
      let st : Phys σ := ⟨readTo st.mem ip pa off r, st.heap⟩
      if r ≠ n then .ok (-1, st)
      else loadsegLoop pagetable va ip offset sz k (i + PGSIZE) st

/-- `loadseg(pagetable, va, ip, offset, sz)` for `uint` `offset` and `sz`: `0`, or `-1` when the
file is short. -/
def loadseg (pagetable va : ℕ) (ip : Image) (offset sz : ℕ) (st : Phys σ) :
    Except String (ℤ × Phys σ) :=
  loadsegLoop P pagetable va ip offset sz ((sz + PGSIZE - 1) / PGSIZE) 0 st

/-- The loop of `kexec` over the program headers: the header at the `uint` offset `off`, with
`k` left, on an image of size `sz`; whether the image loaded, its size, and the memory. -/
def loadLoop (pagetable : ℕ) (ip : Image) : ℕ → ℕ → ℕ → Phys σ →
    Except String (Bool × ℕ × Phys σ)
  | 0, _, sz, st => .ok (true, sz, st)
  | k + 1, off, sz, st =>
    if readi ip off PROGHDR_SIZE ≠ PROGHDR_SIZE then .ok (false, sz, st)
    else
      let ph := progHdr ip off
      let next := (off + PROGHDR_SIZE) % 2 ^ 32
      if ph.type ≠ ELF_PROG_LOAD then loadLoop pagetable ip k next sz st
      else if ph.memsz < ph.filesz then .ok (false, sz, st)
      else if (ph.vaddr + ph.memsz) % 2 ^ 64 < ph.vaddr then .ok (false, sz, st)
      else if ph.vaddr % PGSIZE ≠ 0 then .ok (false, sz, st)
      else
        match uvmalloc P pagetable sz (ph.vaddr + ph.memsz) (flags2perm ph.flags) st with
        | .error e => .error e
        | .ok (0, st) => .ok (false, sz, st)
        | .ok (sz1, st) =>
          match loadseg P pagetable ph.vaddr ip (ph.off % 2 ^ 32) (ph.filesz % 2 ^ 32) st with
          | .error e => .error e
          | .ok (r, st) =>
            if r < 0 then .ok (false, sz1, st) else loadLoop pagetable ip k next sz1 st

/-- The loop of `kexec` copying the argument strings (their bytes without the `NUL`) onto the
stack below `sp`: the stack pointer and the strings' addresses, or none for `bad`. -/
def pushArgs (pagetable stackbase sz p_pagetable : ℕ) :
    ℕ → List (List ℕ) → ℕ → List ℕ → Phys σ → Except String (Option (ℕ × List ℕ) × Phys σ)
  | _, [], sp, ustack, st => .ok (some (sp, ustack), st)
  | argc, s :: rest, sp, ustack, st =>
    if MAXARG ≤ argc then .ok (none, st)
    else
      let sp := subU sp (s.length + 1)
      let sp := sp - sp % 16
      if sp < stackbase then .ok (none, st)
      else
        match copyout P pagetable sp (s ++ [0]) sz p_pagetable st with
        | .error e => .error e
        | .ok (r, st) =>
          if r < 0 then .ok (none, st)
          else pushArgs pagetable stackbase sz p_pagetable (argc + 1) rest sp (ustack ++ [sp]) st

/-- `kexec(path, argv)` for the process `p`, where `ip` is what `namei(path)` found: the value
it returns and the process after it. The ELF header's `magic` is at byte 0, `entry` at 24,
`phoff` at 32 and `phnum` at 56; `off` is an `int`, read as a `uint`. -/
def kexec (ip : Option Image) (argv : List (List ℕ)) (p : VmProc) (trampoline : ℕ)
    (st : Phys σ) : Option (Except String (ℤ × VmProc × Phys σ)) :=
  match ip with
  | none => some (.ok (-1, p, st))
  | some ip =>
    if readi ip 0 ELFHDR_SIZE ≠ ELFHDR_SIZE then some (.ok (-1, p, st))
    else if le ip.data 0 4 ≠ ELF_MAGIC then some (.ok (-1, p, st))
    else
      match proc_pagetable P trampoline p.trapframe st with
      | none => none
      | some (.error e) => some (.error e)
      | some (.ok (0, st)) => some (.ok (-1, p, st))
      | some (.ok (pagetable, st)) =>
        -- `bad` once the table exists: it is freed at the size reached
        let bad (sz : ℕ) (st : Phys σ) : Option (Except String (ℤ × VmProc × Phys σ)) :=
          (proc_freepagetable P pagetable sz st).map (Except.map fun st => (-1, p, st))
        match loadLoop P pagetable ip (le ip.data 56 2) (le ip.data 32 8 % 2 ^ 32) 0 st with
        | .error e => some (.error e)
        | .ok (false, sz, st) => bad sz st
        | .ok (true, sz, st) =>
          let sz := PGROUNDUP sz
          match uvmalloc P pagetable sz (sz + (USERSTACK + 1) * PGSIZE) PTE_W st with
          | .error e => some (.error e)
          | .ok (0, st) => bad sz st
          | .ok (sz, st) =>
            match uvmclear P pagetable (sz - (USERSTACK + 1) * PGSIZE) st with
            | .error e => some (.error e)
            | .ok st =>
              let stackbase := sz - USERSTACK * PGSIZE
              match pushArgs P pagetable stackbase p.sz p.pagetable 0 argv sz [] st with
              | .error e => some (.error e)
              | .ok (none, st) => bad sz st
              | .ok (some (sp, ustack), st) =>
                let sp := subU sp ((ustack.length + 1) * 8)
                let sp := sp - sp % 16
                if sp < stackbase then bad sz st
                else
                  match copyout P pagetable sp (wordBytes (ustack ++ [0])) p.sz p.pagetable st with
                  | .error e => some (.error e)
                  | .ok (r, st) =>
                    if r < 0 then bad sz st
                    else
                      -- `a1`, then the commit: `epc` and `sp`, and the old table freed
                      let st := ((st.store (p.trapframe + 120) sp).store (p.trapframe + 24)
                        (le ip.data 24 8)).store (p.trapframe + 48) sp
                      (proc_freepagetable P p.pagetable p.sz st).map
                        (Except.map fun st => (ustack.length, ⟨pagetable, sz, p.trapframe⟩, st))

end Code

/-! ## Building the new image -/

section Build

variable {σ : Type*} {P : Pool σ} {tramp : ℕ} {st₀ st st' : Phys σ} {p : VmProc} {pt sz : ℕ}

/-- **While `kexec` builds a new image** on the table `pt` of size `sz` for the process `p`,
from the state `st₀` on: `p` reads as it did, the new image is a process in good order that
shares `p`'s trapframe and is made of pages that were free, and only those pages, free pages
and the trapframe changed. -/
structure Building (P : Pool σ) (tramp : ℕ) (st₀ : Phys σ) (p : VmProc) (st : Phys σ)
    (pt sz : ℕ) : Prop where
  init : ProcOK P tramp st₀ p
  old : ProcOK P tramp st p
  old_owns : Owns st.mem p = Owns st₀.mem p
  new : ProcOK P tramp st ⟨pt, sz, p.trapframe⟩
  fresh : UserPages st.mem pt ⊆ P.Free st₀.heap
  within : Within P (P.Free st₀.heap ∪ {p.trapframe}) st₀ st
  ram : ∀ q ∈ P.Free st.heap, Ram q

namespace Building

lemma free_sub (hb : Building P tramp st₀ p st pt sz) : P.Free st.heap ⊆ P.Free st₀.heap := by
  intro q hq
  rcases hb.within.free hq with hq' | hq' | hq'
  · exact hq'
  · exact hq'
  · rw [Set.mem_singleton_iff.1 hq'] at hq
    exact absurd hq (hb.new.not_free (ProcOK.trapframe_mem _ st.mem))

lemma apart (hb : Building P tramp st₀ p st pt sz) :
    Disjoint (UserPages st.mem pt ∪ P.Free st.heap) (Owns st.mem p) := by
  rw [Set.disjoint_union_left]
  refine ⟨Set.disjoint_left.2 fun q hq ho => ?_, Set.disjoint_left.2 fun q hq ho => ?_⟩
  · rw [hb.old_owns] at ho
    exact hb.init.not_free ho (hb.fresh hq)
  · exact hb.old.not_free ho hq

lemma tramp_not_mem (hb : Building P tramp st₀ p st pt sz) :
    tramp ∉ UserPages st.mem pt ∪ P.Free st.heap := by
  rintro (hq | hq)
  · exact hb.new.tramp_not_mem (.inl hq)
  · exact hb.old.tramp_ok.1 hq

/-- **A call on the new table** that leaves the trapframe's page alone keeps the build going. -/
lemma step (hb : Building P tramp st₀ p st pt sz) {sz' : ℕ}
    (hm : Moves P tramp st (some ⟨pt, sz, p.trapframe⟩) st' (some ⟨pt, sz', p.trapframe⟩))
    (htf : ∀ a, st'.mem a ≠ st.mem a → PGROUNDDOWN a ≠ p.trapframe) :
    Building P tramp st₀ p st' pt sz' := by
  have hnew := hm.ok _ rfl
  have hw : Within P (UserPages st.mem pt ∪ P.Free st.heap) st st' := by
    refine ⟨fun a ha => ?_, fun q hq => ?_⟩
    · rcases hm.within.mem a ha with (hu | ht) | hf
      · exact .inl hu
      · exact absurd (Set.mem_singleton_iff.1 ht) (htf a ha)
      · exact .inr hf
    · rcases hm.within.free hq with hq' | (hu | ht) | hf
      · exact .inl hq'
      · exact .inr (.inl hu)
      · rw [Set.mem_singleton_iff.1 ht] at hq
        exact absurd hq (hnew.not_free (ProcOK.trapframe_mem _ st'.mem))
      · exact .inr (.inr hf)
  have hram := hm.free_ram hb.ram hb.new.ram
  obtain ⟨hold, howns⟩ := hb.old.within hw hb.apart hb.tramp_not_mem hram
  refine ⟨hb.init, hold, howns.trans hb.old_owns, hnew, fun q hq => ?_,
    hb.within.trans (hw.mono (Set.union_subset (hb.fresh.trans Set.subset_union_left)
      (hb.free_sub.trans Set.subset_union_left))), hram⟩
  rcases hm.owns (.inl hq) with (hu | ht) | hf
  · exact hb.fresh hu
  · rw [Set.mem_singleton_iff.1 ht] at hq
    exact absurd hq hnew.trapframe_not_user
  · exact hb.free_sub hf

lemma frame (hb : Building P tramp st₀ p st pt sz) {sz' : ℕ}
    (hm : Moves P tramp st (some ⟨pt, sz, p.trapframe⟩) st' (some ⟨pt, sz', p.trapframe⟩))
    (hf : Frame P pt ∅ st st') : Building P tramp st₀ p st' pt sz' :=
  hb.step hm (hf.changed_ne (hb.new.good.target _ _ _ hb.new.trapframe).2.2
    (hb.new.not_free (ProcOK.trapframe_mem _ _)) (Set.notMem_empty _))

/-- **Stores into a user page of the new image.** -/
lemma write (hb : Building P tramp st₀ p st pt sz) {v q fl : ℕ}
    (hv : view st.mem pt v = some (q, fl)) (hvt : v < TRAPFRAME / PGSIZE)
    (hheap : st'.heap = st.heap) (hm : ∀ a, st'.mem a ≠ st.mem a → PGROUNDDOWN a = q) :
    Building P tramp st₀ p st' pt sz ∧ view st'.mem pt = view st.mem pt := by
  have hq : q ∈ UserPages st.mem pt := .inr ⟨v, fl, hvt, hv⟩
  have hqn : ¬IsNode st.mem pt q := (hb.new.good.target v q fl hv).2.2
  have hmv := Moves.write hb.new (S := {q}) (Set.singleton_subset_iff.2 (.inl hq))
    (fun x hx => (Set.mem_singleton_iff.1 hx) ▸ hqn) hheap
    fun a ha => Set.mem_singleton_iff.2 (hm a ha)
  refine ⟨hb.step hmv fun a ha he => hb.new.trapframe_not_user ((hm a ha ▸ he) ▸ hq), ?_⟩
  exact (node_view_outside hb.new.good.tree fun a ha => by
    by_contra hne
    exact hqn (hm a hne ▸ ha)).2

lemma start (h : ProcOK P tramp st₀ p) (hram : ∀ q ∈ P.Free st₀.heap, Ram q)
    (hnew : ProcOK P tramp st ⟨pt, 0, p.trapframe⟩) (hup : UserPages st.mem pt ⊆ P.Free st₀.heap)
    (hw : Within P (P.Free st₀.heap) st₀ st) : Building P tramp st₀ p st pt 0 := by
  have hram' : ∀ q ∈ P.Free st.heap, Ram q := fun q hq => by
    rcases hw.free hq with hq | hq
    · exact hram q hq
    · exact hram q hq
  obtain ⟨hold, howns⟩ := h.within hw (Set.disjoint_left.2 fun q hq ho => h.not_free ho hq)
    h.tramp_ok.1 hram'
  exact ⟨h, hold, howns, hnew, hup, hw.mono Set.subset_union_left, hram'⟩

lemma roundup (hb : Building P tramp st₀ p st pt sz) :
    Building P tramp st₀ p st pt (PGROUNDUP sz) := by
  have hmax : sz ≤ MAXVA := hb.new.sz_le_MAXVA
  have hup : PGROUNDUP sz ≤ TRAPFRAME := by
    rw [← PGROUNDUP_of_mod TRAPFRAME_aligned TRAPFRAME_lt.le]
    exact PGROUNDUP_mono hb.new.sz_le TRAPFRAME_lt.le
  have hidem : PGROUNDUP (PGROUNDUP sz) = PGROUNDUP sz :=
    PGROUNDUP_of_mod (PGROUNDUP_mod sz) (PGROUNDUP_le_MAXVA hmax)
  refine { hb with new := { hb.new with sz_le := hup, below := fun v x hv hvt => ?_ } }
  show v < PGROUNDUP (PGROUNDUP sz) / PGSIZE
  rw [hidem]
  exact hb.new.below v x hv hvt

/-- **`uvmclear`** on the new table: the page at `va` loses `PTE_U`. -/
lemma clear (hb : Building P tramp st₀ p st pt sz) {va : ℕ}
    (hva : va / PGSIZE < TRAPFRAME / PGSIZE) (hc : uvmclear P pt va st = .ok st') :
    Building P tramp st₀ p st' pt sz ∧ view st'.mem pt = clearU (view st.mem pt) (va / PGSIZE) := by
  obtain ⟨-, hg, hview, hf⟩ := uvmclear_spec hb.new.good hc
  refine ⟨hb.frame (Moves.of_frame hb.new hb.ram hg hf (Set.empty_subset _) hb.new.sz_le
    (fun v q fl hq hlt => ?_) fun v hv => ?_) hf, hview⟩
  · rw [hview] at hq
    obtain ⟨fl', hq'⟩ := clearU_some hq
    exact ⟨hb.new.below v _ hq' hlt, .inl (ProcOK.user_mem hlt hq')⟩
  · show view st'.mem pt v = view st.mem pt v
    rw [hview, clearU, Function.update_of_ne (by omega)]

variable (hP : P.Lawful)
include hP

/-- **`bad`**: the new table is freed, and the process is as it was. -/
lemma bad (hb : Building P tramp st₀ p st pt sz) :
    ∃ st', proc_freepagetable P pt sz st = some (.ok st') ∧ Moves P tramp st₀ (some p) st' (some p) := by
  obtain ⟨st', hfp, hw⟩ := proc_freepagetable_spec hP hb.new.good hb.new.inner hb.new.sz_le
    hb.new.below hb.new.trapframe Set.subset_union_left
  have hram : ∀ q ∈ P.Free st'.heap, Ram q := fun q hq => by
    rcases hw.free hq with hq | hq | hq
    · exact hb.ram q hq
    · exact hb.new.ram q (.inl hq)
    · exact hb.ram q hq
  obtain ⟨hold, howns⟩ := hb.old.within hw hb.apart hb.tramp_not_mem hram
  refine ⟨st', hfp, ⟨?_, fun q hq => by cases hq; exact hold, ?_⟩⟩
  · refine (hb.within.trans (hw.mono (Set.union_subset (hb.fresh.trans Set.subset_union_left)
      (hb.free_sub.trans Set.subset_union_left)))).mono (Set.union_subset ?_ ?_)
    · exact Set.subset_union_right
    · exact fun q hq => .inl (Set.mem_singleton_iff.1 hq ▸ ProcOK.trapframe_mem p st₀.mem)
  · show Owns st'.mem p ⊆ _
    rw [howns, hb.old_owns]
    exact Set.subset_union_left

/-- **The commit**: after stores into the trapframe, the old table is freed and the process is
the new image. -/
lemma commit (hb : Building P tramp st₀ p st pt sz) {st₁ : Phys σ} (hheap : st₁.heap = st.heap)
    (hm : ∀ a, st₁.mem a ≠ st.mem a → PGROUNDDOWN a = p.trapframe) :
    ∃ st', proc_freepagetable P p.pagetable p.sz st₁ = some (.ok st') ∧
      Moves P tramp st₀ (some p) st' (some ⟨pt, sz, p.trapframe⟩) := by
  have hout : ∀ {q : VmProc}, ProcOK P tramp st q → q.trapframe = p.trapframe →
      ∀ a, IsNode st.mem q.pagetable (PGROUNDDOWN a) → st₁.mem a = st.mem a := by
    intro q hq htq a ha
    by_contra hne
    exact (hq.good.target _ _ _ hq.trapframe).2.2 (htq ▸ hm a hne ▸ ha)
  obtain ⟨hold, hown₁⟩ := hb.old.write hheap (hout hb.old rfl)
  obtain ⟨hnew, hnown₁⟩ := hb.new.write hheap (hout hb.new rfl)
  obtain ⟨st', hfp, hw⟩ := proc_freepagetable_spec hP hold.good hold.inner hold.sz_le
    hold.below hold.trapframe Set.subset_union_left
  have hup₁ : UserPages st₁.mem p.pagetable ⊆ Owns st₀.mem p := fun q hq => by
    rw [← hb.old_owns, ← hown₁]
    exact .inl hq
  have hram₁ : ∀ q ∈ P.Free st₁.heap, Ram q := by
    rw [hheap]
    exact hb.ram
  have hram : ∀ q ∈ P.Free st'.heap, Ram q := fun q hq => by
    rcases hw.free hq with hq | hq | hq
    · exact hram₁ q hq
    · exact hold.ram q (.inl hq)
    · exact hram₁ q hq
  have happart : Disjoint (UserPages st₁.mem p.pagetable ∪ P.Free st₁.heap)
      (Owns st₁.mem ⟨pt, sz, p.trapframe⟩) := by
    rw [Set.disjoint_union_left]
    refine ⟨Set.disjoint_left.2 fun q hq ho => ?_, Set.disjoint_left.2 fun q hq ho =>
      hnew.not_free ho hq⟩
    rw [hnown₁] at ho
    rcases ho with hu | ht
    · exact hb.init.not_free (hup₁ hq) (hb.fresh hu)
    · rw [Set.mem_singleton_iff.1 ht] at hq
      exact hold.trapframe_not_user hq
  have htr : tramp ∉ UserPages st₁.mem p.pagetable ∪ P.Free st₁.heap := by
    rintro (hq | hq)
    · exact hold.tramp_not_mem (.inl hq)
    · exact hold.tramp_ok.1 hq
  obtain ⟨hnew', hnown'⟩ := hnew.within hw happart htr hram
  refine ⟨st', hfp, ⟨?_, fun q hq => by cases hq; exact hnew', ?_⟩⟩
  · have hw₁ : Within P (Owns st₀.mem p ∪ P.Free st₀.heap) st st₁ :=
      ⟨fun a ha => .inl (hm a ha ▸ ProcOK.trapframe_mem p st₀.mem), by
        rw [hheap]
        exact Set.subset_union_left⟩
    refine (hb.within.mono (Set.union_subset Set.subset_union_right fun q hq =>
      .inl (Set.mem_singleton_iff.1 hq ▸ ProcOK.trapframe_mem p st₀.mem))).trans
      (hw₁.trans (hw.mono (Set.union_subset (hup₁.trans Set.subset_union_left)
        fun q hq => .inr (hb.free_sub ?_))))
    rwa [hheap] at hq
  · show Owns st'.mem ⟨pt, sz, p.trapframe⟩ ⊆ _
    rw [hnown', hnown₁]
    rintro q (hq | hq)
    · exact .inr (hb.fresh hq)
    · exact .inl (Set.mem_singleton_iff.1 hq ▸ ProcOK.trapframe_mem p st₀.mem)

lemma bad_ok (hb : Building P tramp st₀ p st pt sz) {r : ℤ} {p' : VmProc}
    (hk : (proc_freepagetable P pt sz st).map (Except.map fun st => (-1, p, st)) =
      some (.ok (r, p', st'))) :
    Moves P tramp st₀ (some p) st' (some p') ∧ p'.trapframe = p.trapframe := by
  obtain ⟨st₁, hfp, hm⟩ := hb.bad hP
  rw [hfp] at hk
  cases hk
  exact ⟨hm, rfl⟩

lemma commit_ok (hb : Building P tramp st₀ p st pt sz) {sp epc len : ℕ} {r : ℤ} {p' : VmProc}
    (hk : (proc_freepagetable P p.pagetable p.sz (((st.store (p.trapframe + 120) sp).store
      (p.trapframe + 24) epc).store (p.trapframe + 48) sp)).map
        (Except.map fun st => ((len : ℤ), (⟨pt, sz, p.trapframe⟩ : VmProc), st)) =
      some (.ok (r, p', st'))) :
    Moves P tramp st₀ (some p) st' (some p') ∧ p'.trapframe = p.trapframe := by
  have htf : p.trapframe % PGSIZE = 0 := (hb.old.ram _ (ProcOK.trapframe_mem _ _)).aligned
  -- the three stores land in the trapframe's page
  have hm : ∀ a, (((st.store (p.trapframe + 120) sp).store (p.trapframe + 24) epc).store
      (p.trapframe + 48) sp).mem a ≠ st.mem a → PGROUNDDOWN a = p.trapframe := by
    intro a ha
    have hin : a = p.trapframe + 48 ∨ a = p.trapframe + 24 ∨ a = p.trapframe + 120 := by
      by_contra hne
      simp only [not_or] at hne
      simp only [Phys.store_mem, Function.update_of_ne hne.1, Function.update_of_ne hne.2.1,
        Function.update_of_ne hne.2.2] at ha
      exact ha rfl
    rcases hin with rfl | rfl | rfl <;> exact block_add (by decide) htf (by decide)
  obtain ⟨st₁, hfp, hmv⟩ := hb.commit hP (by simp only [Phys.store_heap]) hm
  rw [hfp] at hk
  cases hk
  exact ⟨hmv, rfl⟩

end Building

end Build

/-! ## The loops of `kexec` -/

section Loops

variable {σ : Type*} {P : Pool σ} {tramp : ℕ} {st₀ st st' : Phys σ} {p : VmProc} {pt sz : ℕ}

lemma copyoutLoop_nil (pt sz ppt fuel dstva : ℕ) (st : Phys σ) :
    copyoutLoop P pt sz ppt fuel dstva [] st = .ok (0, st) := by
  cases fuel <;> rfl

lemma leaf_of_view {m : ℕ → ℕ} {va q fl : ℕ} (hv : view m pt (va / PGSIZE) = some (q, fl))
    (hva : va < MAXVA) :
    ∃ e, walkRead m va 2 pt = some e ∧ PTE2PA (m e) = q ∧ PTE_FLAGS (m e) = fl := by
  cases hw : walkRead m va 2 pt with
  | none => rw [view_of_walkRead_none hw] at hv; cases hv
  | some e =>
    rw [view_of_walkRead hw hva] at hv
    obtain ⟨pte, hpte, he⟩ := Option.map_eq_some_iff.1 hv
    simp only [Prod.mk.injEq] at he
    have : pte = m e := by
      unfold valid at hpte
      split at hpte
      · exact (Option.some.inj hpte).symm
      · cases hpte
    subst this
    exact ⟨e, rfl, he.1, he.2⟩

/-- **`copyout` into one page** mapped for the user and writable at `q`: it returns `0`, and
the bytes land in `q`. -/
lemma copyout_page (sz ppt : ℕ) (src : List ℕ) {dstva q fl : ℕ}
    (hv : view st.mem pt (dstva / PGSIZE) = some (q, fl)) (hq : q ≠ 0)
    (hU : fl &&& PTE_U ≠ 0) (hW : fl &&& PTE_W ≠ 0) (hlen : dstva % PGSIZE + src.length ≤ PGSIZE) :
    ∃ st', copyout P pt dstva src sz ppt st = .ok (0, st') ∧ st'.heap = st.heap ∧
      ∀ a, st'.mem a ≠ st.mem a → PGROUNDDOWN a = q := by
  cases hsrc : src.length with
  | zero =>
    rw [List.length_eq_zero_iff.1 hsrc]
    exact ⟨st, copyoutLoop_nil _ _ _ _ _ _, rfl, fun a h => absurd rfl h⟩
  | succ k =>
    have hne : src ≠ [] := fun h => by simp [h] at hsrc
    have hdiv := PGROUNDDOWN_div dstva
    have hva : PGROUNDDOWN dstva < MAXVA := by
      have := view_lt hv
      rw [MAXVA_eq] at this ⊢
      unfold PGROUNDDOWN PGSIZE at *
      omega
    have hpa : walkaddr P pt (PGROUNDDOWN dstva) st = q := by
      rw [walkaddr_eq, userPage, if_neg (by omega), hdiv, hv]
      exact if_neg hU
    obtain ⟨e, hw, -, hfl⟩ := leaf_of_view (hdiv ▸ hv) hva
    have hoff : dstva - PGROUNDDOWN dstva = dstva % PGSIZE := by
      unfold PGROUNDDOWN PGSIZE
      omega
    have hn : min (PGSIZE - (dstva - PGROUNDDOWN dstva)) src.length = src.length := by
      rw [hoff]
      omega
    obtain ⟨q', rfl⟩ : ∃ q', q = q' + 1 := ⟨q - 1, by omega⟩
    rw [copyout, hsrc, copyoutLoop, if_neg hne, if_neg (by omega)]
    dsimp only
    simp only [hpa, if_neg hq, walk_false P pt _ st hva, hw]
    rw [if_neg (by rwa [and_PTE_W_eq_flags, hfl]), hn, List.drop_length, copyoutLoop_nil]
    refine ⟨_, rfl, rfl, fun a ha => ?_⟩
    rw [hoff] at ha
    dsimp only at ha
    by_contra hne
    exact ha (setRange_within_of_ne (by decide) (view_aligned hv) hlen hne)

lemma readi_le (ip : Image) (off n : ℕ) : readi ip off n ≤ n := by
  unfold readi
  split <;> omega

lemma readTo_changed {m : ℕ → ℕ} {ip : Image} {dst off n a : ℕ} (hdst : dst % PGSIZE = 0)
    (hn : n ≤ PGSIZE) (h : readTo m ip dst off n a ≠ m a) : PGROUNDDOWN a = dst := by
  by_contra hne
  exact h (setRange_part_of_ne (by decide) hdst hn hne)

lemma flags2perm_lt (flags : ℕ) : flags2perm flags < 2 ^ 10 := by
  unfold flags2perm
  split_ifs <;> decide

/-- **`loadseg`** reads the file into user pages of the new image only. -/
lemma loadsegLoop_build {va offset n : ℕ} {ip : Image} {k i : ℕ} {r : ℤ}
    (hb : Building P tramp st₀ p st pt sz) (h : loadsegLoop P pt va ip offset n k i st = .ok (r, st')) :
    Building P tramp st₀ p st' pt sz := by
  -- induction on the pages left; each round writes one page the new table maps for the user
  induction k generalizing i st with
  | zero =>
    cases h
    exact hb
  | succ k ih =>
    rw [loadsegLoop] at h
    dsimp only at h
    by_cases hpa : walkaddr P pt (va + i) st = 0
    · rw [if_pos hpa] at h
      cases h
    rw [if_neg hpa, walkaddr_eq] at h
    rw [walkaddr_eq] at hpa
    obtain ⟨-, fl, hv, hU⟩ := userPage_ne_zero hpa
    generalize (offset + i) % 2 ^ 32 = off at h
    generalize hnn : (if n - i < PGSIZE then n - i else PGSIZE) = nn at h
    have hle : readi ip off nn ≤ PGSIZE := (readi_le _ _ _).trans (hnn ▸ by split_ifs <;> omega)
    set st₁ : Phys σ :=
      ⟨readTo st.mem ip (userPage (view st.mem pt) (va + i)) off (readi ip off nn), st.heap⟩
    have hm : ∀ a, st₁.mem a ≠ st.mem a → PGROUNDDOWN a = userPage (view st.mem pt) (va + i) :=
      fun a ha => readTo_changed (view_aligned hv) hle ha
    have hb₁ := (hb.write hv (hb.new.lt_of_user hv hU) (by rfl) hm).1
    split_ifs at h
    · obtain ⟨-, rfl⟩ := Prod.mk.inj (Except.ok.inj h)
      exact hb₁
    · exact ih hb₁ h

lemma loadseg_build {va offset n : ℕ} {ip : Image} {r : ℤ}
    (hb : Building P tramp st₀ p st pt sz) (h : loadseg P pt va ip offset n st = .ok (r, st')) :
    Building P tramp st₀ p st' pt sz :=
  loadsegLoop_build hb h

lemma subU_of_le {a b : ℕ} (h : b ≤ a) (ha : a < 2 ^ 64) : subU a b = a - b := by
  unfold subU
  omega

@[simp] lemma wordBytes_length (ws : List ℕ) : (wordBytes ws).length = 8 * ws.length := by
  induction ws with
  | nil => rfl
  | cons w ws ih =>
    rw [wordBytes, List.flatMap_cons, List.length_append, List.length_map, List.length_range]
    rw [wordBytes] at ih
    rw [ih, List.length_cons]
    ring

lemma push_bounds {sb sp n : ℕ} (hsb : sb % PGSIZE = 0) (hlo : sb ≤ sp) (hhi : sp ≤ sb + PGSIZE)
    (hmax : sb + PGSIZE < 2 ^ 64) (hn : 0 < n) (hn' : n ≤ PGSIZE) (hPG : PGSIZE ≤ sb)
    (hge : sb ≤ subU sp n - subU sp n % 16) :
    subU sp n - subU sp n % 16 + n ≤ sp ∧ (subU sp n - subU sp n % 16) / PGSIZE = sb / PGSIZE ∧
      (subU sp n - subU sp n % 16) % PGSIZE + n ≤ PGSIZE := by
  rw [subU_of_le (by omega) (by omega)] at hge ⊢
  unfold PGSIZE at *
  omega

/-- **The argument strings** land in the stack page at `sb`, and the stack pointer stays in it;
at most `MAXARG` of them are pushed. -/
lemma pushArgs_build {sb q fl ppsz ppt argc sp : ℕ} {argv : List (List ℕ)} {ustack : List ℕ}
    {o : Option (ℕ × List ℕ)} (hb : Building P tramp st₀ p st pt sz)
    (hv : view st.mem pt (sb / PGSIZE) = some (q, fl)) (hq : q ≠ 0) (hU : fl &&& PTE_U ≠ 0)
    (hW : fl &&& PTE_W ≠ 0) (hsb : sb % PGSIZE = 0) (hPG : PGSIZE ≤ sb)
    (hlo : sb ≤ sp) (hhi : sp ≤ sb + PGSIZE) (hc : argc = ustack.length) (hmax : argc ≤ MAXARG)
    (hargs : ∀ s ∈ argv, s.length < PGSIZE)
    (h : pushArgs P pt sb ppsz ppt argc argv sp ustack st = .ok (o, st')) :
    Building P tramp st₀ p st' pt sz ∧ view st'.mem pt = view st.mem pt ∧
      ∀ sp' us, o = some (sp', us) → sb ≤ sp' ∧ sp' ≤ sb + PGSIZE ∧ us.length ≤ MAXARG := by
  have hsbmax : sb + PGSIZE < 2 ^ 64 := by
    have := view_lt hv
    rw [MAXVA_eq] at this
    unfold PGSIZE at *
    omega
  -- induction on the strings left; the stack page stays mapped as it was
  induction argv generalizing argc sp ustack st with
  | nil =>
    cases h
    exact ⟨hb, rfl, fun sp' us h => by cases h; exact ⟨hlo, hhi, hc ▸ hmax⟩⟩
  | cons s rest ih =>
    rw [pushArgs] at h
    dsimp only at h
    split_ifs at h with hargc hlow
    · cases h
      exact ⟨hb, rfl, fun _ _ h => by cases h⟩
    · cases h
      exact ⟨hb, rfl, fun _ _ h => by cases h⟩
    have hs := hargs s List.mem_cons_self
    obtain ⟨hle, hdiv, hfit⟩ := push_bounds hsb hlo hhi hsbmax (show 0 < s.length + 1 by omega) hs hPG
      (not_lt.1 hlow)
    obtain ⟨st₁, hco, hheap, hm⟩ := copyout_page ppsz ppt (s ++ [0]) (hdiv ▸ hv) hq hU hW
      (by rw [List.length_append, List.length_singleton]; exact hfit)
    rw [hco] at h
    dsimp only at h
    rw [if_neg (lt_irrefl 0)] at h
    obtain ⟨hb₁, hview₁⟩ := hb.write hv (hb.new.lt_of_user hv hU) hheap hm
    obtain ⟨hb₂, hview₂, hres⟩ := ih hb₁ (hview₁ ▸ hv) (not_lt.1 hlow) (by omega)
      (by rw [List.length_append, List.length_singleton, hc]) (by omega)
      (fun s hs => hargs s (List.mem_cons_of_mem _ hs)) h
    exact ⟨hb₂, hview₂.trans hview₁, hres⟩

lemma moves_of_free (hram : ∀ q ∈ P.Free st.heap, Ram q) (h : ProcOK P tramp st p)
    (hw : Within P (P.Free st.heap) st st') : Moves P tramp st (some p) st' (some p) := by
  have hram' : ∀ q ∈ P.Free st'.heap, Ram q := fun q hq => by
    rcases hw.free hq with hq | hq
    · exact hram q hq
    · exact hram q hq
  obtain ⟨hok, howns⟩ := h.within hw (Set.disjoint_left.2 fun q hq ho => h.not_free ho hq)
    h.tramp_ok.1 hram'
  refine ⟨hw.mono Set.subset_union_right, fun q hq => by cases hq; exact hok, ?_⟩
  show Owns st'.mem p ⊆ _
  rw [howns]
  exact Set.subset_union_left

variable (hP : P.Lawful)
include hP

/-- **The loop over the program headers** keeps the build going, at the size it reached. -/
lemma loadLoop_build {ip : Image} {k off sz' : ℕ} {b : Bool}
    (hb : Building P tramp st₀ p st pt sz) (h : loadLoop P pt ip k off sz st = .ok (b, sz', st')) :
    Building P tramp st₀ p st' pt sz' := by
  induction k generalizing off sz st with
  | zero =>
    cases h
    exact hb
  | succ k ih =>
    rw [loadLoop] at h
    dsimp only at h
    split_ifs at h
    · cases h
      exact hb
    · exact ih hb h
    · cases h
      exact hb
    · cases h
      exact hb
    · cases h
      exact hb
    -- the segment's pages, then its bytes
    rcases hu : uvmalloc P pt sz ((progHdr ip off).vaddr + (progHdr ip off).memsz)
      (flags2perm (progHdr ip off).flags) st with e | ⟨sz1, st₁⟩
    · rw [hu] at h
      cases h
    have hm := uvmalloc_moves hP (flags2perm_lt _) hb.ram hb.new hu
    have hf := (uvmalloc_spec hP (flags2perm_lt _) hb.new.good hb.new.sz_le_MAXVA hu).2.1
    rw [hu] at h
    rcases Nat.eq_zero_or_pos sz1 with rfl | hpos
    · cases h
      rw [if_pos rfl] at hm
      exact hb.frame hm hf
    obtain ⟨k1, rfl⟩ : ∃ k1, sz1 = k1 + 1 := ⟨sz1 - 1, by omega⟩
    rw [if_neg (by omega)] at hm
    have hb₁ := hb.frame hm hf
    simp only at h
    rcases hl : loadseg P pt (progHdr ip off).vaddr ip ((progHdr ip off).off % 2 ^ 32)
      ((progHdr ip off).filesz % 2 ^ 32) st₁ with e | ⟨r, st₂⟩
    · rw [hl] at h
      cases h
    have hb₂ := loadseg_build hb₁ hl
    rw [hl] at h
    dsimp only at h
    split_ifs at h
    · cases h
      exact hb₂
    · exact ih hb₂ h

/-- **`kexec`**, when it returns, has given the process a new image in good order, or left it
as it was; it changed only the process's pages and free pages, and kept the trapframe. The
argument strings are shorter than a page, as `fetchstr` leaves them. -/
theorem kexec_spec (hram : ∀ q ∈ P.Free st.heap, Ram q) (h : ProcOK P tramp st p)
    {ip : Option Image} {argv : List (List ℕ)} (hargs : ∀ s ∈ argv, s.length < PGSIZE)
    {r : ℤ} {p' : VmProc} (hk : kexec P ip argv p tramp st = some (.ok (r, p', st'))) :
    Moves P tramp st (some p) st' (some p') ∧ p'.trapframe = p.trapframe := by
  have hkeep : Moves P tramp st (some p) st (some p) := Moves.refl fun q hq => by cases hq; exact h
  rcases ip with - | ip
  · cases hk
    exact ⟨hkeep, rfl⟩
  simp only [kexec] at hk
  split_ifs at hk
  · cases hk
    exact ⟨hkeep, rfl⟩
  · cases hk
    exact ⟨hkeep, rfl⟩
  -- the new table, with the trampoline and the process's trapframe mapped
  have htf := ProcOK.trapframe_mem p st.mem
  obtain ⟨pt, st₁, hpp, hw₁, hres⟩ := proc_pagetable_spec hP hram (h.ram _ htf) (h.not_free htf)
    h.tramp_ok.1 h.tramp_ok.2.1 h.tramp_ok.2.2 fun he => h.tramp_not_mem (he ▸ htf)
  rw [hpp] at hk
  rcases hres with rfl | ⟨hnew, hup⟩
  · cases hk
    exact ⟨moves_of_free hram h hw₁, rfl⟩
  have hpt : pt ≠ 0 := (hnew.ram pt (ProcOK.node_mem (p := ⟨pt, 0, p.trapframe⟩) ⟨.l2, rfl⟩)).pos
  obtain ⟨k, rfl⟩ : ∃ k, pt = k + 1 := ⟨pt - 1, by omega⟩
  simp only at hk
  have hb₁ := Building.start h hram hnew hup hw₁
  -- the segments
  rcases hl : loadLoop P (k + 1) ip (le ip.data 56 2) (le ip.data 32 8 % 2 ^ 32) 0 st₁ with
    e | ⟨b, sz, st₂⟩
  · rw [hl] at hk
    cases hk
  have hb₂ := loadLoop_build hP hb₁ hl
  rw [hl] at hk
  cases b
  · exact hb₂.bad_ok hP hk
  simp only at hk
  -- the stack: two pages above the image rounded up, the lower one a guard
  have hb₃ := hb₂.roundup
  rcases hu : uvmalloc P (k + 1) (PGROUNDUP sz) (PGROUNDUP sz + (USERSTACK + 1) * PGSIZE) PTE_W st₂
    with e | ⟨sz₂, st₃⟩
  · rw [hu] at hk
    cases hk
  have hm := uvmalloc_moves hP (by decide) hb₃.ram hb₃.new hu
  obtain ⟨-, hf, hres⟩ := uvmalloc_spec hP (by decide) hb₃.new.good hb₃.new.sz_le_MAXVA hu
  rw [hu] at hk
  rcases Nat.eq_zero_or_pos sz₂ with rfl | hpos
  · rw [if_pos rfl] at hm
    exact (hb₃.frame hm hf).bad_ok hP hk
  obtain ⟨k₂, rfl⟩ : ∃ k₂, sz₂ = k₂ + 1 := ⟨sz₂ - 1, by omega⟩
  rw [if_neg (by omega)] at hm
  have hb₄ := hb₃.frame hm hf
  simp only at hk
  -- both stack pages are mapped for the user, and `k₂ + 1` is the new size
  have hsz₁ : PGROUNDUP sz % PGSIZE = 0 := PGROUNDUP_mod sz
  have hidem : PGROUNDUP (PGROUNDUP sz) = PGROUNDUP sz :=
    PGROUNDUP_of_mod hsz₁ (PGROUNDUP_le_MAXVA hb₂.new.sz_le_MAXVA)
  obtain ⟨-, hr, hmaps, -⟩ := (hres.resolve_left fun ⟨hlt, _, _⟩ => by dsimp only at hlt; omega).resolve_right
    fun ⟨h0, _⟩ => by omega
  rw [hidem] at hmaps
  have hcount : (PGROUNDUP sz + (USERSTACK + 1) * PGSIZE - PGROUNDUP sz + PGSIZE - 1) / PGSIZE = 2 := by
    unfold USERSTACK PGSIZE
    omega
  obtain ⟨-, pa, hpa⟩ := (hmaps (PGROUNDUP sz / PGSIZE + 1)).1 ⟨by omega, by rw [hcount]; omega⟩
  have hsz₂ : k₂ + 1 ≤ TRAPFRAME := hb₄.new.sz_le
  rw [TRAPFRAME_eq] at hsz₂
  rcases hc : uvmclear P (k + 1) (k₂ + 1 - (USERSTACK + 1) * PGSIZE) st₃ with e | st₄
  · rw [hc] at hk
    cases hk
  rw [hc] at hk
  simp only at hk
  obtain ⟨hb₅, hview₅⟩ := hb₄.clear (by rw [hr, TRAPFRAME_eq]; unfold USERSTACK PGSIZE at *; omega) hc
  -- the upper stack page, at `stackbase`
  have hsb : (k₂ + 1 - USERSTACK * PGSIZE) / PGSIZE = PGROUNDUP sz / PGSIZE + 1 := by
    rw [hr]
    unfold USERSTACK PGSIZE at *
    omega
  have hv₀ : view st₄.mem (k + 1) ((k₂ + 1 - USERSTACK * PGSIZE) / PGSIZE) =
      some (pa, PTE_R ||| PTE_U ||| PTE_W ||| PTE_V) := by
    rw [hview₅, hsb, clearU, Function.update_of_ne (by rw [hr]; unfold USERSTACK PGSIZE at *; omega),
      hpa]
  have hq : pa ≠ 0 := (hb₅.new.ram pa (.inl (.inr ⟨_, _, hb₅.new.lt_of_user hv₀ (by decide), hv₀⟩))).pos
  have hsbal : (k₂ + 1 - USERSTACK * PGSIZE) % PGSIZE = 0 := by
    rw [hr]
    unfold USERSTACK PGSIZE at *
    omega
  -- the argument strings
  rcases hargv : pushArgs P (k + 1) (k₂ + 1 - USERSTACK * PGSIZE) p.sz p.pagetable 0 argv (k₂ + 1)
    [] st₄ with e | ⟨o, st₅⟩
  · rw [hargv] at hk
    cases hk
  have hPG : PGSIZE ≤ k₂ + 1 - USERSTACK * PGSIZE := by
    rw [hr]
    unfold USERSTACK PGSIZE
    omega
  have htop : k₂ + 1 - USERSTACK * PGSIZE + PGSIZE = k₂ + 1 := by
    rw [hr]
    unfold USERSTACK PGSIZE
    omega
  obtain ⟨hb₆, hview₆, hres₆⟩ := pushArgs_build hb₅ hv₀ hq (by decide) (by decide) hsbal hPG
    (by omega) htop.ge (by rfl) (by decide) hargs hargv
  rw [hargv] at hk
  rcases o with - | ⟨sp, ustack⟩
  · exact hb₆.bad_ok hP hk
  obtain ⟨hsp₁, hsp₂, hlen⟩ := hres₆ sp ustack rfl
  simp only at hk
  split_ifs at hk with hlow
  · exact hb₆.bad_ok hP hk
  -- the array of their addresses, then the commit
  have hv₆ : view st₅.mem (k + 1) ((k₂ + 1 - USERSTACK * PGSIZE) / PGSIZE) =
      some (pa, PTE_R ||| PTE_U ||| PTE_W ||| PTE_V) := by
    rw [hview₆]
    exact hv₀
  obtain ⟨-, hdiv, hfit⟩ := push_bounds hsbal hsp₁ hsp₂ (by unfold PGSIZE at *; omega)
    (show 0 < (ustack.length + 1) * 8 by omega) (by unfold MAXARG at hlen; unfold PGSIZE; omega) hPG
    (not_lt.1 hlow)
  obtain ⟨st₆, hco, hheap, hmw⟩ := copyout_page p.sz p.pagetable (wordBytes (ustack ++ [0]))
    (show view st₅.mem (k + 1) ((subU sp ((ustack.length + 1) * 8) -
      subU sp ((ustack.length + 1) * 8) % 16) / PGSIZE) = _ by rw [hdiv]; exact hv₆)
    hq (by decide) (by decide)
    (by rw [wordBytes_length, List.length_append, List.length_singleton]; omega)
  rw [hco] at hk
  simp only at hk
  exact (hb₆.write hv₆ (hb₆.new.lt_of_user hv₆ (by decide)) hheap hmw).1.commit_ok hP hk

end Loops

/-! ### The table `vmfault` maps into -/

section Fault

/-- Two empty tables made by `uvmcreate`, `0x80001000` and then `0x80002000`, with three pages
left free. -/
def faultTables : Phys (List ℕ) :=
  (uvmcreate listPool (uvmcreate listPool
    ⟨fun _ => 0, [0x80001000, 0x80002000, 0x80003000, 0x80004000, 0x80005000]⟩).2).2

/-- **`copyout` to a table other than the current process's traps in the kernel**: in a process
of size `0x2000` whose table is `0x80002000`, `copyout` of one byte to address `0x1000` of the
other table `0x80001000`, where nothing is mapped, calls `vmfault`. It maps a fresh page at
`0x1000` of `0x80002000`, leaves `0x80001000` without it, and returns the page; `copyout` then
reads the entry `walk` finds in `0x80001000`, and there is none. -/
theorem copyout_other_table_traps :
    walkaddr listPool 0x80001000 0x1000 faultTables = 0 ∧
      (∃ st', vmfault listPool 0x80001000 0x1000 false 0x2000 0x80002000 faultTables =
          .ok (0x80003000, st') ∧
        view st'.mem 0x80002000 1 = some (0x80003000, PTE_W ||| PTE_U ||| PTE_R ||| PTE_V) ∧
        view st'.mem 0x80001000 1 = none) ∧
      copyout listPool 0x80001000 0x1000 [7] 0x2000 0x80002000 faultTables = .error "kerneltrap" :=
  ⟨by decide, ⟨_, rfl, by decide, by decide⟩, rfl⟩

end Fault

end Xv6.Vm.Exec
