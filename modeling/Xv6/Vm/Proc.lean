import Xv6.Vm.Free

/-!
The memory of a process (`proc.c`, `sysproc.c`): its page table, its size and its trapframe,
and the calls that build, grow, copy and free them.

A process is in good order (`ProcOK`) when its table is good, its size is at most
`TRAPFRAME`, the table maps the trampoline and the trapframe at the top two pages, and every
other page it maps lies below `PGROUNDUP(sz)`. A call made for one process changes only its
own pages and free ones (`Moves`), so every other process reads as it did (`ProcOK.within`).
-/

namespace Xv6.Vm.Proc

open Xv6.Param Xv6.Riscv Xv6.Lib.Alloc Xv6.Lib.Region Xv6.Vm.Walk Xv6.Vm.Map Xv6.Vm.Uvm Xv6.Vm.Free

/-- The fields of `struct proc` that its memory calls read and write. -/
structure VmProc where
  pagetable : ℕ
  sz : ℕ
  trapframe : ℕ
  deriving DecidableEq, Repr

def SBRK_EAGER : ℤ := 1

def TRAPFRAME_SIZE : ℕ := 288

/-- A `uint64` plus an `int`, as C adds them. -/
def addInt (a : ℕ) (n : ℤ) : ℕ := ((a + n) % 2 ^ 64).toNat

section Code

variable {σ : Type*} (P : Pool σ)

/-- `proc_pagetable(p)`: a fresh table mapping the trampoline code at `TRAMPOLINE` and the
trapframe at `TRAPFRAME`, or `0`. -/
def proc_pagetable (trampoline trapframe : ℕ) (st : Phys σ) :
    Option (Except String (ℕ × Phys σ)) :=
  match uvmcreate P st with
  | (0, st) => some (.ok (0, st))
  | (pagetable, st) =>
    match mappages P pagetable TRAMPOLINE PGSIZE trampoline (PTE_R ||| PTE_X) st with
    | .error e => some (.error e)
    | .ok (r, st) =>
      if r < 0 then (uvmfree P pagetable 0 st).map (Except.map fun st => (0, st))
      else
        match mappages P pagetable TRAPFRAME PGSIZE trapframe (PTE_R ||| PTE_W) st with
        | .error e => some (.error e)
        | .ok (r, st) =>
          if r < 0 then
            match uvmunmap P pagetable TRAMPOLINE 1 false st with
            | .error e => some (.error e)
            | .ok st => (uvmfree P pagetable 0 st).map (Except.map fun st => (0, st))
          else some (.ok (pagetable, st))

def proc_freepagetable (pagetable sz : ℕ) (st : Phys σ) : Option (Except String (Phys σ)) :=
  match uvmunmap P pagetable TRAMPOLINE 1 false st with
  | .error e => some (.error e)
  | .ok st =>
    match uvmunmap P pagetable TRAPFRAME 1 false st with
    | .error e => some (.error e)
    | .ok st => uvmfree P pagetable sz st

def freeproc (p : VmProc) (st : Phys σ) : Option (Except String (Phys σ)) :=
  let st := if p.trapframe ≠ 0 then kfree P p.trapframe st else st
  if p.pagetable ≠ 0 then proc_freepagetable P p.pagetable p.sz st else some (.ok st)

/-- What `allocproc()` does to memory in a slot that `freeproc` left with no trapframe, table
or size: the new process, or none. -/
def allocproc (trampoline : ℕ) (st : Phys σ) :
    Option (Except String (Option VmProc × Phys σ)) :=
  match kalloc P st with
  | (none, st) => (freeproc P ⟨0, 0, 0⟩ st).map (Except.map fun st => (none, st))
  | (some trapframe, st) =>
    match proc_pagetable P trampoline trapframe st with
    | some (.ok (0, st)) =>
      (freeproc P ⟨0, 0, trapframe⟩ st).map (Except.map fun st => (none, st))
    | some (.ok (pagetable, st)) => some (.ok (some ⟨pagetable, 0, trapframe⟩, st))
    | some (.error e) => some (.error e)
    | none => none

/-- What `kfork()` does to memory: a child holding a copy of `p`'s memory and of its
trapframe, with `a0` set to `0`; none if `allocproc` or `uvmcopy` failed. -/
def kfork (p : VmProc) (trampoline : ℕ) (st : Phys σ) :
    Option (Except String (Option VmProc × Phys σ)) :=
  match allocproc P trampoline st with
  | some (.ok (some np, st)) =>
    match uvmcopy P p.pagetable np.pagetable p.sz st with
    | .error e => some (.error e)
    | .ok (r, st) =>
      if r < 0 then (freeproc P np st).map (Except.map fun st => (none, st))
      else
        let st : Phys σ := ⟨memmove st.mem np.trapframe p.trapframe TRAPFRAME_SIZE, st.heap⟩
        some (.ok (some { np with sz := p.sz }, st.store (np.trapframe + 112) 0))
  | r => r

/-- `growproc(n)` for the process `p`: `0` and the process with its new size, or `-1`. -/
def growproc (p : VmProc) (n : ℤ) (st : Phys σ) : Except String (ℤ × VmProc × Phys σ) :=
  if 0 < n then
    if TRAPFRAME < addInt p.sz n then .ok (-1, p, st)
    else
      match uvmalloc P p.pagetable p.sz (addInt p.sz n) PTE_W st with
      | .error e => .error e
      | .ok (0, st) => .ok (-1, p, st)
      | .ok (sz, st) => .ok (0, { p with sz := sz }, st)
  else if n < 0 then
    match uvmdealloc P p.pagetable p.sz (addInt p.sz n) st with
    | .error e => .error e
    | .ok (sz, st) => .ok (0, { p with sz := sz }, st)
  else .ok (0, p, st)

/-- `sys_sbrk(n, t)` for the process `p`: the old size and the process after the call, or `-1`.
Lazily, only the size grows; `vmfault` maps the pages when they are used. -/
def sys_sbrk (p : VmProc) (n t : ℤ) (st : Phys σ) : Except String (ℤ × VmProc × Phys σ) :=
  let addr := p.sz
  if t = SBRK_EAGER ∨ n < 0 then
    match growproc P p n st with
    | .error e => .error e
    | .ok (r, p, st) => if r < 0 then .ok (-1, p, st) else .ok (addr, p, st)
  else if addInt addr n < addr then .ok (-1, p, st)
  else if TRAPFRAME < addInt addr n then .ok (-1, p, st)
  else .ok (addr, { p with sz := addInt p.sz n }, st)

end Code

/-! ## A process in good order -/

section Inv

/-- A page of the RAM the kernel hands out, between `KERNBASE` and `PHYSTOP`. -/
def Ram (q : ℕ) : Prop := KERNBASE ≤ q ∧ q < PHYSTOP ∧ q % PGSIZE = 0

def UserPages (m : ℕ → ℕ) (pt : ℕ) : Set ℕ :=
  {t | IsNode m pt t} ∪ {q | ∃ v fl, v < TRAPFRAME / PGSIZE ∧ view m pt v = some (q, fl)}

/-- The pages a process owns: its user pages and its trapframe. -/
def Owns (m : ℕ → ℕ) (p : VmProc) : Set ℕ := UserPages m p.pagetable ∪ {p.trapframe}

def OwnsOpt (m : ℕ → ℕ) : Option VmProc → Set ℕ
  | none => ∅
  | some p => Owns m p

variable {σ : Type*} (P : Pool σ)

/-- **A process in good order**, with the trampoline code at `tramp`. -/
structure ProcOK (tramp : ℕ) (st : Phys σ) (p : VmProc) : Prop where
  good : Good P st p.pagetable
  inner : Inner st.mem p.pagetable
  sz_le : p.sz ≤ TRAPFRAME
  /-- Every page mapped below `TRAPFRAME` lies below `PGROUNDUP(sz)`. -/
  below : ∀ v x, view st.mem p.pagetable v = some x → v < TRAPFRAME / PGSIZE →
    v < PGROUNDUP p.sz / PGSIZE
  trampoline : view st.mem p.pagetable (TRAMPOLINE / PGSIZE) = some (tramp, PTE_R ||| PTE_X ||| PTE_V)
  trapframe : view st.mem p.pagetable (TRAPFRAME / PGSIZE) =
    some (p.trapframe, PTE_R ||| PTE_W ||| PTE_V)
  ram : ∀ q ∈ Owns st.mem p, Ram q

/-- **What a call made for one slot did**: it changed only that slot's pages and free pages,
left the slot in good order, and gave it only pages it had or that were free. -/
structure Moves (tramp : ℕ) (st : Phys σ) (p : Option VmProc) (st' : Phys σ) (o : Option VmProc) :
    Prop where
  within : Within P (OwnsOpt st.mem p ∪ P.Free st.heap) st st'
  ok : ∀ q, o = some q → ProcOK P tramp st' q
  owns : OwnsOpt st'.mem o ⊆ OwnsOpt st.mem p ∪ P.Free st.heap

end Inv

/-! ## The top of the address space -/

lemma TRAPFRAME_div : TRAPFRAME / PGSIZE + 2 = MAXVA / PGSIZE := by
  rw [TRAPFRAME_eq, MAXVA_eq]
  decide

lemma TRAMPOLINE_div : TRAMPOLINE / PGSIZE = TRAPFRAME / PGSIZE + 1 := by
  rw [TRAPFRAME_eq, TRAMPOLINE_eq]
  decide

lemma Ram.aligned {q : ℕ} (h : Ram q) : q % PGSIZE = 0 := h.2.2

lemma Ram.lt {q : ℕ} (h : Ram q) : q < 2 ^ 56 := h.2.1.trans (by decide)

lemma Ram.pos {q : ℕ} (h : Ram q) : q ≠ 0 := by
  have := h.1
  unfold KERNBASE at this
  omega

section Top

variable {m m' : ℕ → ℕ} {pt : ℕ}

lemma top_cases {v : ℕ} {x : ℕ × ℕ} (h : view m pt v = some x) :
    v < TRAPFRAME / PGSIZE ∨ v = TRAPFRAME / PGSIZE ∨ v = TRAMPOLINE / PGSIZE := by
  have := view_lt h
  rw [← TRAPFRAME_div] at this
  rw [TRAMPOLINE_div]
  omega

lemma userPages_congr (hnode : node m' pt = node m pt) (hview : view m' pt = view m pt) :
    UserPages m' pt = UserPages m pt := by
  simp only [UserPages, hview, isNode_congr hnode]

end Top

/-! ## Rounding sizes to pages -/

section Round

variable {sz newsz : ℕ}

lemma PGROUNDUP_div_le (h : sz ≤ TRAPFRAME) : PGROUNDUP sz / PGSIZE ≤ TRAPFRAME / PGSIZE := by
  have hm : sz ≤ MAXVA := by rw [MAXVA_eq]; rw [TRAPFRAME_eq] at h; omega
  rw [PGROUNDUP_eq hm, TRAPFRAME_eq]
  rw [TRAPFRAME_eq] at h
  unfold PGSIZE
  omega

lemma div_lt_PGROUNDUP {va : ℕ} (h : va < sz) (hsz : sz ≤ MAXVA) :
    va / PGSIZE < PGROUNDUP sz / PGSIZE := by
  rw [PGROUNDUP_eq hsz]
  unfold PGSIZE
  omega

lemma lt_of_shrink {v oldsz : ℕ}
    (hv : PGROUNDUP newsz / PGSIZE ≤ v ∧
      v < PGROUNDUP newsz / PGSIZE + (PGROUNDUP oldsz - PGROUNDUP newsz) / PGSIZE) :
    v < PGROUNDUP oldsz / PGSIZE := by
  have h₁ := PGROUNDUP_mod newsz
  have h₂ := PGROUNDUP_mod oldsz
  unfold PGSIZE at *
  omega

lemma addInt_of_nonneg {a : ℕ} {n : ℤ} (hn : 0 ≤ n) (h : a + n.toNat < 2 ^ 64) :
    addInt a n = a + n.toNat := by
  unfold addInt
  omega

end Round

/-! ## What a process owns -/

section Owns

variable {σ : Type*} {P : Pool σ} {tramp : ℕ} {st st' : Phys σ} {p : VmProc}

namespace ProcOK

lemma sz_le_MAXVA (h : ProcOK P tramp st p) : p.sz ≤ MAXVA := by
  have := h.sz_le
  rw [TRAPFRAME_eq] at this
  rw [MAXVA_eq]
  omega

lemma trapframe_mem (p : VmProc) (m : ℕ → ℕ) : p.trapframe ∈ Owns m p := .inr rfl

lemma node_mem {m : ℕ → ℕ} {t : ℕ} (ht : IsNode m p.pagetable t) : t ∈ Owns m p := .inl (.inl ht)

lemma user_mem {m : ℕ → ℕ} {v q fl : ℕ} (hv : v < TRAPFRAME / PGSIZE)
    (h : view m p.pagetable v = some (q, fl)) : q ∈ Owns m p :=
  .inl (.inr ⟨v, fl, hv, h⟩)

lemma mapped_mem (h : ProcOK P tramp st p) {v q fl : ℕ}
    (hv : view st.mem p.pagetable v = some (q, fl)) : q ∈ Owns st.mem p ∨ q = tramp := by
  rcases top_cases hv with hlt | rfl | rfl
  · exact .inl (user_mem hlt hv)
  · rw [h.trapframe] at hv
    cases hv
    exact .inl (trapframe_mem p st.mem)
  · rw [h.trampoline] at hv
    cases hv
    exact .inr rfl

lemma not_free (h : ProcOK P tramp st p) {q : ℕ} (hq : q ∈ Owns st.mem p) :
    q ∉ P.Free st.heap := by
  intro hf
  rcases hq with (hn | ⟨v, fl, -, hv⟩) | rfl
  · exact (h.good.free q hf).2.2 hn
  · exact (h.good.target v q fl hv).2.1 hf
  · exact (h.good.target _ _ _ h.trapframe).2.1 hf

lemma tramp_not_mem (h : ProcOK P tramp st p) : tramp ∉ Owns st.mem p := by
  have hne : TRAMPOLINE / PGSIZE ≠ TRAPFRAME / PGSIZE := by
    rw [TRAMPOLINE_div]
    omega
  rintro ((hn | ⟨v, fl, hv, hmap⟩) | htf)
  · exact (h.good.target _ _ _ h.trampoline).2.2 hn
  · have := h.good.target_inj _ _ _ _ _ hmap h.trampoline
    rw [TRAMPOLINE_div] at this
    omega
  · rw [Set.mem_singleton_iff] at htf
    rw [htf] at h
    exact hne (h.good.target_inj _ _ _ _ _ h.trampoline h.trapframe)

lemma trapframe_not_user (h : ProcOK P tramp st p) :
    p.trapframe ∉ UserPages st.mem p.pagetable := by
  rintro (hn | ⟨v, fl, hv, hmap⟩)
  · exact (h.good.target _ _ _ h.trapframe).2.2 hn
  · have := h.good.target_inj _ _ _ _ _ hmap h.trapframe
    omega

lemma tramp_ok (h : ProcOK P tramp st p) :
    tramp ∉ P.Free st.heap ∧ tramp % PGSIZE = 0 ∧ tramp < 2 ^ 56 :=
  ⟨(h.good.target _ _ _ h.trampoline).2.1, view_aligned h.trampoline,
    (h.good.target _ _ _ h.trampoline).1⟩

lemma lt_of_user (h : ProcOK P tramp st p) {v q fl : ℕ}
    (hv : view st.mem p.pagetable v = some (q, fl)) (hU : fl &&& PTE_U ≠ 0) :
    v < TRAPFRAME / PGSIZE := by
  rcases top_cases hv with hlt | rfl | rfl
  · exact hlt
  · rw [h.trapframe] at hv
    cases hv
    exact absurd (by decide) hU
  · rw [h.trampoline] at hv
    cases hv
    exact absurd (by decide) hU

/-- **Another process.** A call whose footprint misses a process's pages and the trampoline
leaves the process in good order, owning what it owned. -/
lemma within (h : ProcOK P tramp st p) {S : Set ℕ} (hw : Within P S st st')
    (hS : Disjoint S (Owns st.mem p)) (htr : tramp ∉ S) (hram : ∀ q ∈ P.Free st'.heap, Ram q) :
    ProcOK P tramp st' p ∧ Owns st'.mem p = Owns st.mem p := by
  have hout : ∀ x ∈ S, ¬IsNode st.mem p.pagetable x ∧ ∀ v fl, view st.mem p.pagetable v ≠ some (x, fl) := by
    intro x hx
    refine ⟨fun hn => hS.ne_of_mem hx (node_mem hn) rfl, fun v fl hv => ?_⟩
    rcases h.mapped_mem hv with hm | rfl
    · exact hS.ne_of_mem hx hm rfl
    · exact htr hx
  obtain ⟨hg, hnode, hview⟩ := h.good.within hw hout fun q hq => ⟨(hram q hq).aligned, (hram q hq).lt⟩
  have howns : Owns st'.mem p = Owns st.mem p := by
    simp only [Owns, userPages_congr hnode hview]
  refine ⟨⟨hg, ?_, h.sz_le, ?_, ?_, ?_, ?_⟩, howns⟩
  · refine h.inner.outside h.good.tree fun a ha => ?_
    by_contra hne
    exact (hout _ (hw.mem a hne)).1 ha
  · rw [hview]
    exact h.below
  · rw [hview]
    exact h.trampoline
  · rw [hview]
    exact h.trapframe
  · rw [howns]
    exact h.ram

end ProcOK

namespace Moves

lemma refl {o : Option VmProc} (h : ∀ q, o = some q → ProcOK P tramp st q) :
    Moves P tramp st o st o where
  within := Within.refl _ _
  ok := h
  owns := Set.subset_union_left

lemma trans {o o' o'' : Option VmProc} {st'' : Phys σ} (h₁ : Moves P tramp st o st' o')
    (h₂ : Moves P tramp st' o' st'' o'') : Moves P tramp st o st'' o'' where
  within := by
    have hsub : OwnsOpt st'.mem o' ∪ P.Free st'.heap ⊆ OwnsOpt st.mem o ∪ P.Free st.heap :=
      Set.union_subset h₁.owns fun q hq => by
        rcases h₁.within.free hq with hq | hq
        · exact .inr hq
        · exact hq
    exact h₁.within.trans (h₂.within.mono hsub)
  ok := h₂.ok
  owns := by
    refine h₂.owns.trans (Set.union_subset h₁.owns fun q hq => ?_)
    rcases h₁.within.free hq with hq | hq
    · exact .inr hq
    · exact hq

end Moves

end Owns

/-! ## Specifications -/

section Spec

variable {σ : Type*} {P : Pool σ} {tramp : ℕ} {st st' : Phys σ} {p : VmProc}

/-- **Stores outside the table's pages**, with the allocator as it was, leave the process in
good order: the trapframe's words and the user's data. -/
lemma ProcOK.write (h : ProcOK P tramp st p) (hheap : st'.heap = st.heap)
    (hm : ∀ a, IsNode st.mem p.pagetable (PGROUNDDOWN a) → st'.mem a = st.mem a) :
    ProcOK P tramp st' p ∧ Owns st'.mem p = Owns st.mem p := by
  obtain ⟨hnode, hview⟩ := node_view_outside h.good.tree hm
  have hst : st' = ⟨st'.mem, st.heap⟩ := by rw [← hheap]
  have howns : Owns st'.mem p = Owns st.mem p := by
    simp only [Owns, userPages_congr hnode hview]
  refine ⟨⟨?_, h.inner.outside h.good.tree hm, h.sz_le, ?_, ?_, ?_, ?_⟩, howns⟩
  · rw [hst]
    exact h.good.outside hm
  · rw [hview]
    exact h.below
  · rw [hview]
    exact h.trampoline
  · rw [hview]
    exact h.trapframe
  · rw [howns]
    exact h.ram

/-- **A call on the process's own table.** From the frame of the call, where its mappings
below `TRAPFRAME` came from and that it left the top two pages alone, the call moved the
process to its new size. -/
lemma Moves.of_frame (h : ProcOK P tramp st p) (hram : ∀ q ∈ P.Free st.heap, Ram q)
    {gone : Set ℕ} {sz : ℕ} (hg : Good P st' p.pagetable) (hf : Frame P p.pagetable gone st st')
    (hgone : gone ⊆ Owns st.mem p) (hsz : sz ≤ TRAPFRAME)
    (hview : ∀ v q fl, view st'.mem p.pagetable v = some (q, fl) → v < TRAPFRAME / PGSIZE →
      v < PGROUNDUP sz / PGSIZE ∧ (q ∈ Owns st.mem p ∨ q ∈ P.Free st.heap))
    (htop : ∀ v, TRAPFRAME / PGSIZE ≤ v → view st'.mem p.pagetable v = view st.mem p.pagetable v) :
    Moves P tramp st (some p) st' (some { p with sz := sz }) := by
  have howns : Owns st'.mem { p with sz := sz } ⊆ Owns st.mem p ∪ P.Free st.heap := by
    rintro q ((hn | ⟨v, fl, hv, hmap⟩) | hq)
    · rcases hf.node_new q hn with hn | hq | hq
      · exact .inl (ProcOK.node_mem hn)
      · exact .inr hq
      · exact .inl (hgone hq)
    · exact (hview v q fl hmap hv).2
    · exact .inl (.inr hq)
  refine ⟨hf.within.mono fun q hq => ?_, fun q hq => ?_, howns⟩
  · rcases hq with hn | hq | hq
    · exact .inl (ProcOK.node_mem hn)
    · exact .inr hq
    · exact .inl (hgone hq)
  · cases hq
    refine ⟨hg, hf.inner h.inner, hsz, fun v x hx hv => ?_, ?_, ?_, fun q hq => ?_⟩
    · exact (hview v x.1 x.2 hx hv).1
    · rw [htop _ (by rw [TRAMPOLINE_div]; omega)]
      exact h.trampoline
    · rw [htop _ le_rfl]
      exact h.trapframe
    · rcases howns hq with hq | hq
      · exact h.ram q hq
      · exact hram q hq

lemma TRAMPOLINE_aligned : TRAMPOLINE % PGSIZE = 0 := by
  rw [TRAMPOLINE_eq]
  decide

lemma TRAPFRAME_aligned : TRAPFRAME % PGSIZE = 0 := by
  rw [TRAPFRAME_eq]
  decide

lemma TRAMPOLINE_lt : TRAMPOLINE < MAXVA := by
  rw [TRAMPOLINE_eq, MAXVA_eq]
  decide

lemma TRAPFRAME_lt : TRAPFRAME < MAXVA := by
  rw [TRAPFRAME_eq, MAXVA_eq]
  decide

lemma ProcOK.none_above (h : ProcOK P tramp st p) {v : ℕ} (hlo : PGROUNDUP p.sz / PGSIZE ≤ v)
    (hhi : v < TRAPFRAME / PGSIZE) : view st.mem p.pagetable v = none := by
  cases hx : view st.mem p.pagetable v with
  | none => rfl
  | some x =>
    have := h.below v x hx hhi
    omega

lemma Moves.of_view (h : ProcOK P tramp st p) (hram : ∀ q ∈ P.Free st.heap, Ram q)
    (hg : Good P st' p.pagetable) (hf : Frame P p.pagetable ∅ st st')
    (hv : view st'.mem p.pagetable = view st.mem p.pagetable) :
    Moves P tramp st (some p) st' (some p) :=
  Moves.of_frame h hram hg hf (Set.empty_subset _) h.sz_le
    (fun v q fl hq hlt => by
      rw [hv] at hq
      exact ⟨h.below v _ hq hlt, .inl (ProcOK.user_mem hlt hq)⟩)
    fun v _ => by rw [hv]

/-- **Stores into pages of the process** other than the pages of its table. -/
lemma Moves.write (h : ProcOK P tramp st p) {S : Set ℕ} (hS : S ⊆ Owns st.mem p)
    (hnode : ∀ x ∈ S, ¬IsNode st.mem p.pagetable x) (hheap : st'.heap = st.heap)
    (hm : ∀ a, st'.mem a ≠ st.mem a → PGROUNDDOWN a ∈ S) :
    Moves P tramp st (some p) st' (some p) := by
  obtain ⟨hok, howns⟩ := h.write hheap fun a ha => by
    by_contra hne
    exact hnode _ (hm a hne) ha
  refine ⟨⟨fun a ha => .inl (hS (hm a ha)), fun q hq => ?_⟩, fun q hq => ?_, ?_⟩
  · rw [hheap] at hq
    exact .inl hq
  · cases hq
    exact hok
  · show Owns st'.mem p ⊆ _
    rw [howns]
    exact Set.subset_union_left

lemma Moves.free_ram {o o' : Option VmProc} (hm : Moves P tramp st o st' o')
    (hram : ∀ q ∈ P.Free st.heap, Ram q) (hown : ∀ q ∈ OwnsOpt st.mem o, Ram q) :
    ∀ q ∈ P.Free st'.heap, Ram q := fun q hq => by
  rcases hm.within.free hq with hq | hq | hq
  · exact hram q hq
  · exact hown q hq
  · exact hram q hq

lemma memmove_changed {m : ℕ → ℕ} {dst src n a : ℕ} (hdst : dst % PGSIZE = 0) (hn : n ≤ PGSIZE)
    (h : memmove m dst src n a ≠ m a) : PGROUNDDOWN a = dst := by
  by_contra hne
  exact h (setRange_part_of_ne (by decide) hdst hn hne)

variable (hP : P.Lawful)
include hP

lemma uvmcreate_spec {pt : ℕ} (hram : ∀ q ∈ P.Free st.heap, Ram q)
    (h : uvmcreate P st = (pt, st')) :
    Within P (P.Free st.heap) st st' ∧ (pt = 0 ∨ pt ∈ P.Free st.heap ∧ Good P st' pt ∧
      Inner st'.mem pt ∧ (∀ v, view st'.mem pt v = none) ∧ ∀ t, IsNode st'.mem pt t → t = pt) := by
  unfold uvmcreate at h
  rcases hk : kalloc P st with ⟨_ | q, st₁⟩
  · rw [hk] at h
    cases h
    obtain ⟨heap, ha, rfl⟩ := kalloc_eq_none hk
    exact ⟨⟨fun a ha' => absurd rfl ha', (hP.alloc_none ha).trans Set.subset_union_left⟩, .inl rfl⟩
  · rw [hk] at h
    cases h
    obtain ⟨heap, ha, rfl⟩ := kalloc_eq_some hk
    have hpf := (hP.alloc_some ha).1
    have hal := (hram pt hpf).aligned
    have hzero : ∀ i : Fin 512, memset (memset st.mem pt 5 PGSIZE) pt 0 PGSIZE (pt + 8 * i) = 0 := by
      intro i
      rw [memset, setRange_of_mem ⟨by omega, by unfold PGSIZE; omega⟩, Nat.zero_mul]
    let st₁ : Phys σ := ⟨memset (memset st.mem pt 5 PGSIZE) pt 0 PGSIZE, heap⟩
    obtain ⟨hg, hview, hnodes⟩ : Good P st₁ pt ∧ view st₁.mem pt = (fun _ => none) ∧
        ∀ t, IsNode st₁.mem pt t → t = pt :=
      Good.empty hal hzero fun x hx =>
        have hx' := (hP.alloc_some ha).2 hx
        ⟨(hram x hx'.1).aligned, (hram x hx'.1).lt, hx'.2⟩
    refine ⟨⟨fun a ha' => ?_, fun x hx => .inl ((hP.alloc_some ha).2 hx).1⟩,
      .inr ⟨hpf, hg, Inner.of_zero hzero, fun v => by rw [hview], hnodes⟩⟩
    by_contra hne
    have hne' : PGROUNDDOWN a ≠ pt := fun h => hne (h ▸ hpf)
    exact ha' (by simp only; rw [memset_of_ne hal hne', memset_of_ne hal hne'])

lemma uvmfree_empty {pt : ℕ} (hg : Good P st pt) (hin : Inner st.mem pt)
    (hv : ∀ v, view st.mem pt v = none) :
    ∃ st', uvmfree P pt 0 st = some (.ok st') ∧
      Within P ({t | IsNode st.mem pt t} ∪ P.Free st.heap) st st' := by
  obtain ⟨st', hfree, hw⟩ := uvmfree_spec hP hg hin (Nat.zero_le _) fun v x hx => by
    rw [hv] at hx
    cases hx
  refine ⟨st', hfree, hw.mono fun q hq => ?_⟩
  rcases hq with (hn | ⟨v, fl, hx⟩) | hq
  · exact .inl hn
  · rw [hv] at hx
    cases hx
  · exact .inr hq

/-- **`proc_pagetable`** returns, with `0` or with a table in good order for a process of size
`0` whose trapframe is `tf`; the table's pages were free. -/
theorem proc_pagetable_spec {tf : ℕ} (hram : ∀ q ∈ P.Free st.heap, Ram q) (htf : Ram tf)
    (htf' : tf ∉ P.Free st.heap) (htr : tramp ∉ P.Free st.heap) (htra : tramp % PGSIZE = 0)
    (htrl : tramp < 2 ^ 56) (hne : tramp ≠ tf) :
    ∃ pt st', proc_pagetable P tramp tf st = some (.ok (pt, st')) ∧
      Within P (P.Free st.heap) st st' ∧
      (pt = 0 ∨ ProcOK P tramp st' ⟨pt, 0, tf⟩ ∧ UserPages st'.mem pt ⊆ P.Free st.heap) := by
  rcases hc : uvmcreate P st with ⟨pt, st₁⟩
  obtain ⟨hw₁, rfl | ⟨hpf, hg₁, hin₁, hv₁, hn₁⟩⟩ := uvmcreate_spec hP hram hc
  · exact ⟨0, st₁, by rw [proc_pagetable, hc]; rfl, hw₁, .inl rfl⟩
  have hF₁ : P.Free st₁.heap ⊆ P.Free st.heap := fun q hq => (hw₁.free hq).elim id id
  have hN₁ : ∀ t, IsNode st₁.mem pt t → t ∈ P.Free st.heap := fun t ht => hn₁ t ht ▸ hpf
  have hunf : ∀ R, (match mappages P pt TRAMPOLINE PGSIZE tramp (PTE_R ||| PTE_X) st₁ with
      | .error e => some (.error e)
      | .ok (r, st) =>
        if r < 0 then (uvmfree P pt 0 st).map (Except.map fun st => (0, st))
        else
          match mappages P pt TRAPFRAME PGSIZE tf (PTE_R ||| PTE_W) st with
          | .error e => some (.error e)
          | .ok (r, st) =>
            if r < 0 then
              match uvmunmap P pt TRAMPOLINE 1 false st with
              | .error e => some (.error e)
              | .ok st => (uvmfree P pt 0 st).map (Except.map fun st => (0, st))
            else some (.ok (pt, st))) = R → proc_pagetable P tramp tf st = R := by
    intro R hR
    rw [proc_pagetable, hc, ← hR]
    split
    · rename_i h
      simp only [Prod.mk.injEq] at h
      exact absurd h.1 (hram pt hpf).pos
    · rename_i h
      simp only [Prod.mk.injEq] at h
      obtain ⟨rfl, rfl⟩ := h
      rfl
  -- the trampoline's page
  have htrH : Held P st₁ pt tramp := ⟨htra, htrl, fun h => htr (hF₁ h), fun h => htr (hN₁ _ h),
    fun v fl h => by rw [hv₁] at h; cases h⟩
  obtain ⟨r, st₂, hm₂⟩ : ∃ r st₂,
      mappages P pt TRAMPOLINE PGSIZE tramp (PTE_R ||| PTE_X) st₁ = .ok (r, st₂) :=
    mappages_one_ok hP hg₁ TRAMPOLINE_aligned TRAMPOLINE_lt (hv₁ _)
  obtain ⟨-, hg₂, hf₂, hr₂⟩ := mappages_one hP (by decide) hg₁ htrH hm₂
  obtain ⟨hN₂, hF₂, hw₂⟩ := hf₂.inside hN₁ hF₁
  have hin₂ := hf₂.inner hin₁
  rcases hr₂ with ⟨rfl, -, hview₂⟩ | ⟨rfl, hview₂, -⟩
  swap
  · -- no page for the trampoline's entry: the table is freed again
    obtain ⟨st₃, huf, hw₃⟩ := uvmfree_empty hP hg₂ hin₂ fun v => by rw [hview₂, hv₁]
    refine ⟨0, st₃, hunf _ (by rw [hm₂]; dsimp only; rw [if_pos (by decide), huf]; rfl), ?_, .inl rfl⟩
    exact hw₁.trans (hw₂.trans (hw₃.mono (Set.union_subset hN₂ hF₂)))
  -- the trapframe's page
  have hne' : TRAMPOLINE / PGSIZE ≠ TRAPFRAME / PGSIZE := by
    rw [TRAMPOLINE_div]
    omega
  have htfH : Held P st₂ pt tf := by
    refine ⟨htf.aligned, htf.lt, fun h => htf' (hF₂ h), fun h => htf' (hN₂ _ h), fun v fl h => ?_⟩
    rw [hview₂] at h
    by_cases hv : v = TRAMPOLINE / PGSIZE
    · rw [hv, Function.update_self] at h
      cases h
      exact hne rfl
    · rw [Function.update_of_ne hv, hv₁] at h
      cases h
  obtain ⟨r, st₃, hm₃⟩ : ∃ r st₃,
      mappages P pt TRAPFRAME PGSIZE tf (PTE_R ||| PTE_W) st₂ = .ok (r, st₃) :=
    mappages_one_ok hP hg₂ TRAPFRAME_aligned TRAPFRAME_lt
      (by rw [hview₂, Function.update_of_ne hne'.symm, hv₁])
  obtain ⟨-, hg₃, hf₃, hr₃⟩ := mappages_one hP (by decide) hg₂ htfH hm₃
  obtain ⟨hN₃, hF₃, hw₃⟩ := hf₃.inside hN₂ hF₂
  have hin₃ := hf₃.inner hin₂
  rcases hr₃ with ⟨rfl, -, hview₃⟩ | ⟨rfl, hview₃, -⟩
  swap
  · -- no page for the trapframe's entry: the trampoline is unmapped and the table freed
    obtain ⟨st₄, hu₄⟩ : ∃ st₄, uvmunmap P pt TRAMPOLINE 1 false st₃ = .ok st₄ :=
      uvmunmap_ok false st₃ TRAMPOLINE_aligned (by rw [TRAMPOLINE_eq, MAXVA_eq]; decide)
    obtain ⟨-, hg₄, hview₄, hf₄⟩ := uvmunmap_spec hP hg₃ (by rw [TRAMPOLINE_eq]; decide) hu₄
    simp only [Bool.false_eq_true, ↓reduceIte] at hf₄
    obtain ⟨hN₄, hF₄, hw₄⟩ := hf₄.inside hN₃ hF₃
    have hempty : ∀ v, view st₄.mem pt v = none := by
      intro v
      rw [hview₄, hview₃, hview₂, unmapRange_succ, unmapRange_zero]
      by_cases hv : v = TRAMPOLINE / PGSIZE
      · rw [hv, Function.update_self]
      · rw [Function.update_of_ne hv, Function.update_of_ne hv, hv₁]
    obtain ⟨st₅, huf, hw₅⟩ := uvmfree_empty hP hg₄ (hf₄.inner hin₃) hempty
    refine ⟨0, st₅, hunf _ (by
      rw [hm₂]; dsimp only; rw [if_neg (by decide), hm₃]; dsimp only
      rw [if_pos (by decide), hu₄]; dsimp only; rw [huf]; rfl),
      ?_, .inl rfl⟩
    exact hw₁.trans (hw₂.trans (hw₃.trans (hw₄.trans (hw₅.mono (Set.union_subset hN₄ hF₄)))))
  -- both pages mapped: a process of size 0
  have huser : ∀ v, v < TRAPFRAME / PGSIZE → view st₃.mem pt v = none := by
    intro v hv
    rw [hview₃, Function.update_of_ne (by omega), hview₂,
      Function.update_of_ne (by rw [TRAMPOLINE_div]; omega), hv₁]
  have hup : UserPages st₃.mem pt ⊆ P.Free st.heap := by
    rintro q (hq | ⟨v, fl, hv, hq⟩)
    · exact hN₃ q hq
    · rw [huser v hv] at hq
      cases hq
  refine ⟨pt, st₃, hunf _ (by
    rw [hm₂]; dsimp only; rw [if_neg (by decide), hm₃]; dsimp only; rw [if_neg (by decide)]),
    hw₁.trans (hw₂.trans hw₃), .inr ⟨⟨hg₃, hin₃, Nat.zero_le _, fun v x hx hv => ?_, ?_, ?_, ?_⟩, hup⟩⟩
  · rw [huser v hv] at hx
    cases hx
  · rw [hview₃, Function.update_of_ne hne', hview₂, Function.update_self]
  · rw [hview₃, Function.update_self]
  · rintro q (hq | hq)
    · exact hram q (hup hq)
    · rw [Set.mem_singleton_iff.1 hq]
      exact htf

/-- **`proc_freepagetable`** of a table whose user leaves all lie below `PGROUNDUP(sz)`
returns, having changed only the table's user pages and free pages. The table needs to be
good only against an earlier allocator state `h₀`, in which its trapframe `tf` was not yet
free: `freeproc` frees the trapframe first. -/
theorem proc_freepagetable_spec {pt sz tf fl : ℕ} {h₀ : σ} (hg : Good P ⟨st.mem, h₀⟩ pt)
    (hin : Inner st.mem pt) (hsz : sz ≤ TRAPFRAME)
    (hbelow : ∀ v x, view st.mem pt v = some x → v < TRAPFRAME / PGSIZE →
      v < PGROUNDUP sz / PGSIZE)
    (htf : view st.mem pt (TRAPFRAME / PGSIZE) = some (tf, fl))
    (hfree : P.Free st.heap ⊆ P.Free h₀ ∪ {tf}) :
    ∃ st', proc_freepagetable P pt sz st = some (.ok st') ∧
      Within P (UserPages st.mem pt ∪ P.Free st.heap) st st' := by
  have ht : Tree st.mem pt := hg.tree
  obtain ⟨st₁, hu₁, hh₁, hn₁, hv₁, hm₁, hi₁⟩ :=
    uvmunmap_one_keep (P := P) ht TRAMPOLINE_aligned TRAMPOLINE_lt
  have ht₁ : Tree st₁.mem pt := by
    show TreeOK _
    rw [hn₁]
    exact ht
  obtain ⟨st₂, hu₂, hh₂, hn₂, hv₂, hm₂, hi₂⟩ :=
    uvmunmap_one_keep (P := P) ht₁ TRAPFRAME_aligned TRAPFRAME_lt
  have hnode : node st₂.mem pt = node st.mem pt := hn₂.trans hn₁
  -- what is left mapped are the user pages
  have hview : ∀ v x, view st₂.mem pt v = some x →
      view st.mem pt v = some x ∧ v < TRAPFRAME / PGSIZE := by
    intro v x hx
    rw [hv₂, hv₁] at hx
    by_cases hf : v = TRAPFRAME / PGSIZE
    · rw [hf, Function.update_self] at hx
      cases hx
    by_cases ht : v = TRAMPOLINE / PGSIZE
    · rw [ht, Function.update_of_ne (by rw [TRAMPOLINE_div]; omega), Function.update_self] at hx
      cases hx
    rw [Function.update_of_ne hf, Function.update_of_ne ht] at hx
    refine ⟨hx, ?_⟩
    rcases top_cases hx with hv | hv | hv
    · exact hv
    · exact absurd hv hf
    · exact absurd hv ht
  have hg₂ : Good P st₂ pt := by
    refine Good.restrict hg hnode (fun v x hx => (hview v x hx).1) fun q hq => ?_
    rw [hh₂, hh₁] at hq
    rcases hfree hq with hq | hq
    · exact .inl hq
    · rw [Set.mem_singleton_iff.1 hq]
      refine .inr ⟨⟨_, fl, htf⟩, fun v fl' hv => ?_⟩
      obtain ⟨hv', hlt⟩ := hview v _ hv
      have := hg.target_inj _ _ _ _ _ hv' htf
      omega
  obtain ⟨st₃, huf, hw₃⟩ := uvmfree_spec hP hg₂ (hi₂ (hi₁ hin))
    (hsz.trans (by rw [TRAPFRAME_eq, MAXVA_eq]; omega)) fun v x hx =>
      hbelow v x (hview v x hx).1 (hview v x hx).2
  refine ⟨st₃, by rw [proc_freepagetable, hu₁]; dsimp only; rw [hu₂]; exact huf, ?_⟩
  -- the two unmappings changed entries of the table only
  have hw₂ : Within P (UserPages st.mem pt ∪ P.Free st.heap) st st₂ := by
    refine ⟨fun a ha => .inl (.inl ?_), by rw [hh₂, hh₁]; exact Set.subset_union_left⟩
    by_cases ha₁ : st₁.mem a = st.mem a
    · have := hm₂ a (by rwa [ha₁])
      rwa [isNode_congr hn₁] at this
    · exact hm₁ a ha₁
  refine hw₂.trans (hw₃.mono (Set.union_subset (fun q hq => ?_) fun q hq => ?_))
  · rcases hq with hq | ⟨v, fl', hq⟩
    · rw [isNode_congr hnode] at hq
      exact .inl (.inl hq)
    · obtain ⟨hv', hlt⟩ := hview v _ hq
      exact .inl (.inr ⟨v, fl', hlt, hv'⟩)
  · rw [hh₂, hh₁] at hq
    exact .inr hq

/-- **`freeproc`** of a process in good order returns, having changed only its pages and
free pages. -/
theorem freeproc_spec (h : ProcOK P tramp st p) :
    ∃ st', freeproc P p st = some (.ok st') ∧ Moves P tramp st (some p) st' none := by
  have htf := h.ram _ (ProcOK.trapframe_mem p st.mem)
  have hpt := h.ram _ (ProcOK.node_mem (p := p) ⟨.l2, rfl⟩)
  -- the trapframe goes first; the table reads as it did
  have hout : ∀ a, IsNode st.mem p.pagetable (PGROUNDDOWN a) →
      (kfree P p.trapframe st).mem a = st.mem a := fun a ha =>
    memset_of_ne htf.aligned fun he => (h.good.target _ _ _ h.trapframe).2.2 (he ▸ ha)
  obtain ⟨hn, hv⟩ := node_view_outside h.good.tree hout
  have hfree : P.Free (kfree P p.trapframe st).heap ⊆ P.Free st.heap ∪ {p.trapframe} :=
    fun q hq => by
      rcases hP.free_sub _ _ hq with rfl | hq
      · exact .inr rfl
      · exact .inl hq
  obtain ⟨st', hfp, hw⟩ := proc_freepagetable_spec hP (h.good.outside hout)
    (h.inner.outside h.good.tree hout) h.sz_le (by rw [hv]; exact h.below)
    (by rw [hv]; exact h.trapframe) hfree
  refine ⟨st', ?_, ⟨?_, fun q hq => (by cases hq), Set.empty_subset _⟩⟩
  · simp only [freeproc, ne_eq, htf.pos, hpt.pos, not_false_eq_true, ↓reduceIte]
    exact hfp
  · refine (Within.kfree hP htf.aligned st).mono (fun q hq => .inl (.inr hq)) |>.trans
      (hw.mono (Set.union_subset (fun q hq => ?_) fun q hq => ?_))
    · rw [userPages_congr hn hv] at hq
      exact .inl (.inl hq)
    · rcases hfree hq with hq | hq
      · exact .inr hq
      · exact .inl (.inr hq)

/-- **`uvmalloc` on the process's own table**, from its size to any `newsz`, moves the process
to the size it returns, unless that is `0`. The trapframe's page is mapped, so the pages it maps
anew end below `TRAPFRAME`, and so does the size it returns. -/
theorem uvmalloc_moves {newsz xperm r : ℕ} (hx : xperm < 2 ^ 10)
    (hram : ∀ q ∈ P.Free st.heap, Ram q) (h : ProcOK P tramp st p)
    (hu : uvmalloc P p.pagetable p.sz newsz xperm st = .ok (r, st')) :
    Moves P tramp st (some p) st' (some { p with sz := if r = 0 then p.sz else r }) := by
  have hmax := h.sz_le_MAXVA
  obtain ⟨hg', hf', hres⟩ := uvmalloc_spec hP hx h.good hmax hu
  rcases hres with ⟨-, rfl, rfl⟩ | ⟨hle, hr, hmaps, hfrom⟩ | ⟨rfl, hv⟩
  · have : (if p.sz = 0 then p.sz else p.sz) = p.sz := by split_ifs <;> rfl
    rw [this]
    exact Moves.refl fun q hq => by cases hq; exact h
  · -- the trapframe's page is not among the pages mapped anew
    rw [hr]
    have htf : ¬(PGROUNDUP p.sz / PGSIZE ≤ TRAPFRAME / PGSIZE ∧ TRAPFRAME / PGSIZE <
        PGROUNDUP p.sz / PGSIZE + (newsz - PGROUNDUP p.sz + PGSIZE - 1) / PGSIZE) := fun hin => by
      have := h.trapframe
      rw [((hmaps _).1 hin).1] at this
      cases this
    have hlo := PGROUNDUP_div_le h.sz_le
    have hnew : newsz ≤ TRAPFRAME := by
      have := h.sz_le
      rw [PGROUNDUP_eq hmax] at htf hlo
      rw [TRAPFRAME_eq] at htf hlo this ⊢
      unfold PGSIZE at htf hlo
      omega
    have hend := grow_end hle (hnew.trans TRAPFRAME_lt.le)
    have hend' := PGROUNDUP_div_le hnew
    have hmono : PGROUNDUP p.sz / PGSIZE ≤ PGROUNDUP newsz / PGSIZE := by
      rw [← hend]
      exact Nat.le_add_right _ _
    have hsz : (if newsz = 0 then p.sz else newsz) = newsz := by split_ifs <;> omega
    rw [hsz]
    refine Moves.of_frame h hram hg' hf' (Set.empty_subset _) hnew (fun v q fl hq hlt => ?_)
      fun v hv => (hmaps v).2 (by omega)
    by_cases hin : PGROUNDUP p.sz / PGSIZE ≤ v ∧
        v < PGROUNDUP p.sz / PGSIZE + (newsz - PGROUNDUP p.sz + PGSIZE - 1) / PGSIZE
    · exact ⟨by omega, .inr (hfrom v q fl hq ((hmaps v).1 hin).1)⟩
    · rw [(hmaps v).2 hin] at hq
      have := h.below v _ hq hlt
      exact ⟨by omega, .inl (ProcOK.user_mem hlt hq)⟩
  · rw [if_pos rfl]
    exact Moves.of_view h hram hg' hf' hv

/-- **`growproc(n)`** for an `int` `n` does not panic, and moves the process to its new
size. -/
theorem growproc_spec (hram : ∀ q ∈ P.Free st.heap, Ram q) (h : ProcOK P tramp st p) {n : ℤ}
    (hn : -2 ^ 31 ≤ n ∧ n < 2 ^ 31) :
    ∃ r sz st', growproc P p n st = .ok (r, { p with sz := sz }, st') ∧
      Moves P tramp st (some p) st' (some { p with sz := sz }) := by
  have hsz := h.sz_le
  have hmax := h.sz_le_MAXVA
  have hself : Moves P tramp st (some p) st (some p) := Moves.refl fun q hq => by
    cases hq
    exact h
  unfold growproc
  split_ifs with hpos htop hneg
  · exact ⟨-1, p.sz, st, rfl, hself⟩
  · -- growing below TRAPFRAME: the pages to map are all unmapped
    have hle : addInt p.sz n ≤ TRAPFRAME := not_lt.1 htop
    have hgt : p.sz < addInt p.sz n := by
      rw [addInt_of_nonneg hpos.le (by rw [TRAPFRAME_eq] at hsz; omega)]
      omega
    have hnew : addInt p.sz n ≤ MAXVA := hle.trans (by rw [TRAPFRAME_eq, MAXVA_eq]; omega)
    have hend := grow_end hgt.le hnew
    have hend' := PGROUNDUP_div_le hle
    obtain ⟨r, st', hu⟩ := uvmalloc_ok hP (by decide : PTE_W < 2 ^ 10) h.good hnew
      fun v hlo hhi => h.none_above hlo (by omega)
    have hm := uvmalloc_moves hP (by decide) hram h hu
    rw [hu]
    rcases Nat.eq_zero_or_pos r with rfl | hr
    · exact ⟨-1, p.sz, st', rfl, hm⟩
    · obtain ⟨k, rfl⟩ := Nat.exists_eq_succ_of_ne_zero hr.ne'
      exact ⟨0, k + 1, st', rfl, hm⟩
  · -- shrinking: the pages from PGROUNDUP(sz + n) on are unmapped and freed
    obtain ⟨r, st', hu⟩ : ∃ r st', uvmdealloc P p.pagetable p.sz (addInt p.sz n) st = .ok (r, st') :=
      uvmdealloc_ok st hmax
    obtain ⟨hg', hr, hview, hf'⟩ := uvmdealloc_spec hP h.good hmax hu
    rw [hu]
    refine ⟨0, r, st', rfl, Moves.of_frame h hram hg' hf' ?_ ?_ (fun v q fl hq hlt => ?_)
      fun v hv => ?_⟩
    · rintro q ⟨v, fl, hlo, hhi, hq⟩
      exact ProcOK.user_mem ((lt_of_shrink ⟨hlo, hhi⟩).trans_le (PGROUNDUP_div_le hsz)) hq
    · split_ifs at hr <;> omega
    · by_cases hlt' : addInt p.sz n < p.sz
      · rw [if_pos hlt'] at hview
        rw [hview] at hq
        obtain ⟨hout, hq⟩ := unmapRange_eq_some hq
        have := h.below v _ hq hlt
        have hmono := Nat.div_le_div_right (c := PGSIZE) (PGROUNDUP_mono hlt'.le hmax)
        have h₁ := PGROUNDUP_mod (addInt p.sz n)
        have h₂ := PGROUNDUP_mod p.sz
        rw [hr, if_neg (by omega)]
        refine ⟨?_, .inl (ProcOK.user_mem hlt hq)⟩
        unfold PGSIZE at *
        omega
      · rw [if_neg hlt'] at hview
        rw [hview] at hq
        rw [hr, if_pos (by omega)]
        exact ⟨h.below v _ hq hlt, .inl (ProcOK.user_mem hlt hq)⟩
    · split_ifs at hview
      · rw [hview, unmapRange, setRange_of_not_mem fun hin =>
          absurd ((lt_of_shrink hin).trans_le (PGROUNDUP_div_le hsz)) (by omega)]
      · rw [hview]
  · obtain rfl : n = 0 := by omega
    exact ⟨0, p.sz, st, rfl, hself⟩

/-- **`sys_sbrk(n, t)`** for `int` arguments does not panic, and moves the process to its new
size: at once, or lazily within `TRAPFRAME`. -/
theorem sys_sbrk_spec (hram : ∀ q ∈ P.Free st.heap, Ram q) (h : ProcOK P tramp st p) {n : ℤ}
    (hn : -2 ^ 31 ≤ n ∧ n < 2 ^ 31) (t : ℤ) :
    ∃ r sz st', sys_sbrk P p n t st = .ok (r, { p with sz := sz }, st') ∧
      Moves P tramp st (some p) st' (some { p with sz := sz }) := by
  unfold sys_sbrk
  dsimp only
  split_ifs with heager hwrap htop
  · obtain ⟨r, sz, st', hg, hm⟩ := growproc_spec hP hram h hn
    rw [hg]
    dsimp only
    split_ifs
    · exact ⟨-1, sz, st', rfl, hm⟩
    · exact ⟨p.sz, sz, st', rfl, hm⟩
  · exact ⟨-1, p.sz, st, rfl, Moves.refl fun q hq => by cases hq; exact h⟩
  · exact ⟨-1, p.sz, st, rfl, Moves.refl fun q hq => by cases hq; exact h⟩
  · -- lazily: only the size grows
    have hle : addInt p.sz n ≤ TRAPFRAME := not_lt.1 htop
    have hmono := Nat.div_le_div_right (c := PGSIZE)
      (PGROUNDUP_mono (not_lt.1 hwrap) (hle.trans (by rw [TRAPFRAME_eq, MAXVA_eq]; omega)))
    refine ⟨p.sz, addInt p.sz n, st, rfl, Moves.of_frame h hram h.good (Frame.refl _ _ _)
      (Set.empty_subset _) hle (fun v q fl hq hlt => ?_) fun v _ => rfl⟩
    exact ⟨(h.below v _ hq hlt).trans_le hmono, .inl (ProcOK.user_mem hlt hq)⟩

/-- **`vmfault`** for the process's own table and size (from `usertrap`, `copyin` and
`copyout`) maps at most one free page, below `PGROUNDUP(sz)`. -/
theorem vmfault_moves (hram : ∀ q ∈ P.Free st.heap, Ram q) (h : ProcOK P tramp st p)
    {va r : ℕ} {rd : Bool} (hf : vmfault P p.pagetable va rd p.sz p.pagetable st = .ok (r, st')) :
    Moves P tramp st (some p) st' (some p) := by
  obtain ⟨hg', hf', hres⟩ := vmfault_spec hP h.good hf
  rcases hres with ⟨-, hv⟩ | ⟨hva, -, hr, hv⟩
  · exact Moves.of_view h hram hg' hf' hv
  · have hlt := div_lt_PGROUNDUP hva h.sz_le_MAXVA
    have htf := PGROUNDUP_div_le h.sz_le
    refine Moves.of_frame h hram hg' hf' (Set.empty_subset _) h.sz_le
      (fun v q fl hq hvt => ?_) fun v hv' => ?_
    · rw [hv] at hq
      by_cases hvv : v = va / PGSIZE
      · rw [hvv, Function.update_self] at hq
        cases hq
        exact ⟨hvv ▸ hlt, .inr hr⟩
      · rw [Function.update_of_ne hvv] at hq
        exact ⟨h.below v _ hq hvt, .inl (ProcOK.user_mem hvt hq)⟩
    · rw [hv, Function.update_of_ne (by omega)]

lemma kalloc_within (hal : ∀ q ∈ P.Free st.heap, q % PGSIZE = 0) {r : Option ℕ}
    (h : kalloc P st = (r, st')) : Within P (P.Free st.heap) st st' := by
  rcases r with _ | q
  · obtain ⟨heap, ha, rfl⟩ := kalloc_eq_none h
    exact ⟨fun a h => absurd rfl h, (hP.alloc_none ha).trans Set.subset_union_left⟩
  · obtain ⟨heap, ha, rfl⟩ := kalloc_eq_some h
    have hq := (hP.alloc_some ha).1
    refine ⟨fun a ha' => ?_, (hP.free_alloc_sub ha).trans Set.subset_union_left⟩
    by_contra hne
    exact ha' (memset_of_ne (hal q hq) fun he => hne (he ▸ hq))

/-- **`allocproc`** returns, with no process or with a process of size `0` in good order, made
of free pages. -/
theorem allocproc_spec (hram : ∀ q ∈ P.Free st.heap, Ram q) (htr : tramp ∉ P.Free st.heap)
    (htra : tramp % PGSIZE = 0) (htrl : tramp < 2 ^ 56) :
    ∃ o st', allocproc P tramp st = some (.ok (o, st')) ∧ Moves P tramp st none st' o ∧
      ∀ np, o = some np → np.sz = 0 := by
  have hal : ∀ q ∈ P.Free st.heap, q % PGSIZE = 0 := fun q hq => (hram q hq).aligned
  rcases hk : kalloc P st with ⟨_ | tf, st₁⟩
  · refine ⟨none, st₁, by simp [allocproc, hk, freeproc, Except.map],
      ⟨(kalloc_within hP hal hk).mono fun q hq => .inr hq, (fun q hq => by cases hq),
        Set.empty_subset _⟩, fun np h => by cases h⟩
  have hw₁ := kalloc_within hP hal hk
  obtain ⟨heap, ha, hst₁⟩ := kalloc_eq_some hk
  have htf := (hP.alloc_some ha).1
  have hF₁ : P.Free st₁.heap ⊆ P.Free st.heap := by
    rw [hst₁]
    exact hP.free_alloc_sub ha
  have htf' : tf ∉ P.Free st₁.heap := by
    rw [hst₁]
    exact hP.not_free_alloc ha
  obtain ⟨pt, st₂, hpp, hw₂, hres⟩ := proc_pagetable_spec hP (fun q hq => hram q (hF₁ hq))
    (hram tf htf) htf' (fun h => htr (hF₁ h)) htra htrl fun h => htr (h ▸ htf)
  have hw₂' : Within P (P.Free st.heap) st₁ st₂ := hw₂.mono hF₁
  rcases hres with rfl | ⟨hok, hup⟩
  · -- no table: the trapframe is given back
    refine ⟨none, kfree P tf st₂,
      by simp [allocproc, hk, hpp, freeproc, (hram tf htf).pos, Except.map],
      ⟨?_, (fun q hq => by cases hq), Set.empty_subset _⟩, fun np h => by cases h⟩
    exact (hw₁.trans (hw₂'.trans ((Within.kfree hP (hal tf htf) st₂).mono fun q hq =>
      (Set.mem_singleton_iff.1 hq) ▸ htf))).mono fun q hq => .inr hq
  · have hpt : pt ≠ 0 := (hok.ram pt (ProcOK.node_mem (p := ⟨pt, 0, tf⟩) ⟨.l2, rfl⟩)).pos
    obtain ⟨k, rfl⟩ := Nat.exists_eq_succ_of_ne_zero hpt
    refine ⟨some ⟨k + 1, 0, tf⟩, st₂, by simp only [allocproc, hk, hpp],
      ⟨(hw₁.trans hw₂').mono fun q hq => .inr hq, (fun q hq => by cases hq; exact hok), ?_⟩,
      fun np h => by cases h; rfl⟩
    rintro q (hq | hq)
    · exact .inr (hF₁ (hup hq))
    · exact .inr ((Set.mem_singleton_iff.1 hq) ▸ htf)

/-- **`kfork`**, when it returns, gives no child or a child in good order with its parent's
size, made of pages that were free; nothing but free pages changed. -/
theorem kfork_spec (hram : ∀ q ∈ P.Free st.heap, Ram q) (h : ProcOK P tramp st p)
    (htr : tramp ∉ P.Free st.heap) (htra : tramp % PGSIZE = 0) (htrl : tramp < 2 ^ 56)
    {o : Option VmProc} (hf : kfork P p tramp st = some (.ok (o, st'))) :
    Moves P tramp st none st' o ∧ ∀ c, o = some c → c.sz = p.sz := by
  obtain ⟨o₁, st₁, ha, hm₁, hsz₁⟩ := allocproc_spec hP hram htr htra htrl
  rw [kfork, ha] at hf
  rcases o₁ with _ | np
  · dsimp only at hf
    simp only [Option.some.injEq, Except.ok.injEq, Prod.mk.injEq] at hf
    obtain ⟨rfl, rfl⟩ := hf
    exact ⟨hm₁, fun c hc => by cases hc⟩
  dsimp only at hf
  have hok₁ := hm₁.ok np rfl
  have hram₁ := hm₁.free_ram hram fun q hq => by cases hq
  -- the fresh child maps nothing below TRAPFRAME
  have h0 : PGROUNDUP np.sz / PGSIZE = 0 := by
    rw [hsz₁ np rfl]
    decide
  have hfresh : ∀ v, v < TRAPFRAME / PGSIZE → view st₁.mem np.pagetable v = none :=
    fun v hv => hok₁.none_above (by omega) hv
  rcases hc : uvmcopy P p.pagetable np.pagetable p.sz st₁ with e | ⟨r, st₂⟩
  · rw [hc] at hf
    cases hf
  rw [hc] at hf
  dsimp only at hf
  have hcp := uvmcopy_spec hP hok₁.good hc
  have he : (p.sz + PGSIZE - 1) / PGSIZE ≤ TRAPFRAME / PGSIZE := by
    rw [← PGROUNDUP_div h.sz_le_MAXVA]
    exact PGROUNDUP_div_le h.sz_le
  have habove : ∀ v, TRAPFRAME / PGSIZE ≤ v →
      view st₂.mem np.pagetable v = view st₁.mem np.pagetable v :=
    fun v hv => hcp.above v (he.trans hv)
  split_ifs at hf with hr
  · -- the copy failed: the child is freed
    rcases hcp.result with ⟨rfl, -⟩ | ⟨-, ⟨j, hj, hview⟩, hf₂⟩
    · exact absurd hr (by decide)
    have hm₂ : Moves P tramp st₁ (some np) st₂ (some { np with sz := np.sz }) := by
      refine Moves.of_frame hok₁ hram₁ hcp.good hf₂ ?_ hok₁.sz_le (fun v q fl hq hv => ?_) habove
      · rintro q ⟨v, fl, -, hv, hq⟩
        rw [hfresh v (by omega)] at hq
        cases hq
      · rw [hview] at hq
        have hq' := (unmapRange_eq_some hq).2
        rw [hfresh v hv] at hq'
        cases hq'
    obtain ⟨st₃, hfp, hm₃⟩ := freeproc_spec hP (hm₂.ok np rfl)
    rw [hfp] at hf
    simp only [Option.map_some, Except.map, Option.some.injEq, Except.ok.injEq,
      Prod.mk.injEq] at hf
    obtain ⟨rfl, rfl⟩ := hf
    exact ⟨hm₁.trans (hm₂.trans hm₃), fun c hc => by cases hc⟩
  · -- the copy: the child gets its parent's size, then a copy of its trapframe
    rcases hcp.result with ⟨-, hfrom, hf₂⟩ | ⟨rfl, -⟩
    swap
    · exact absurd (by decide : (-1 : ℤ) < 0) hr
    have hm₂ : Moves P tramp st₁ (some np) st₂ (some { np with sz := p.sz }) := by
      refine Moves.of_frame hok₁ hram₁ hcp.good hf₂ (Set.empty_subset _) h.sz_le
        (fun v q fl hq hv => ?_) habove
      by_cases hve : v < (p.sz + PGSIZE - 1) / PGSIZE
      · refine ⟨by rw [PGROUNDUP_div h.sz_le_MAXVA]; exact hve, .inr ?_⟩
        rcases hfrom v q fl hq with ⟨fl', hq'⟩ | hq'
        · rw [hfresh v hv] at hq'
          cases hq'
        · exact hq'
      · rw [hcp.above v (not_lt.1 hve), hfresh v hv] at hq
        cases hq
    have hok₂ := hm₂.ok _ rfl
    simp only [Option.some.injEq, Except.ok.injEq, Prod.mk.injEq] at hf
    obtain ⟨rfl, rfl⟩ := hf
    have htf := (hok₂.ram _ (ProcOK.trapframe_mem _ st₂.mem)).aligned
    refine ⟨hm₁.trans (hm₂.trans (Moves.write hok₂ (S := {np.trapframe})
      (Set.singleton_subset_iff.2 (ProcOK.trapframe_mem _ st₂.mem))
      (fun x hx => (Set.mem_singleton_iff.1 hx) ▸ (hok₂.good.target _ _ _ hok₂.trapframe).2.2)
      rfl fun a ha => ?_)), fun c hc => by cases hc; rfl⟩
    rw [Set.mem_singleton_iff]
    by_cases ha' : a = np.trapframe + 112
    · rw [ha']
      exact block_add (by decide) htf (by decide)
    · rw [Phys.store_mem, Function.update_of_ne ha'] at ha
      exact memmove_changed htf (by decide) ha

end Spec

end Xv6.Vm.Proc
