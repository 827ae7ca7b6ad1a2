import Xv6.Vm.Exec
import Xv6.Lib.Reach

/-!
The address spaces of all processes together: the slots of the process table with their images,
and physical memory with its allocator. The kernel's calls on address spaces are each made for
one slot (`Step`). Such a call changes only that slot's pages and free pages (`Moves`), so every
other process keeps its image. The invariant `SysOK` therefore holds in every reachable state,
and from it follow the bound on each user address space and that the calls which free or grow
it do not panic.
-/

namespace Xv6.Vm.Space

open Xv6.Param Xv6.Riscv Xv6.Lib.Alloc Xv6.Lib.Region Xv6.Lib.Reach Xv6.Vm.Walk Xv6.Vm.Map
open Xv6.Vm.Uvm Xv6.Vm.Free Xv6.Vm.Proc Xv6.Vm.Exec

/-- The images of the process slots, and physical memory. -/
structure Spaces (σ : Type*) where
  procs : Fin NPROC → Option VmProc
  phys : Phys σ

section System

variable {σ : Type*} (P : Pool σ) (tramp : ℕ)

/-- Boot: no process yet, every free page is RAM, and the trampoline is an aligned page of the
kernel's text. -/
structure Init (s : Spaces σ) : Prop where
  empty : ∀ i, s.procs i = none
  ram : ∀ q ∈ P.Free s.phys.heap, Ram q
  tramp_free : tramp ∉ P.Free s.phys.heap
  tramp_aligned : tramp % PGSIZE = 0
  tramp_lt : tramp < 2 ^ 56

/-- **The kernel's calls on address spaces**, each for one slot. A call that panics has no
successor. `exec` takes argument strings shorter than a page, as `fetchstr` leaves them;
`sbrk` takes an `int`; `store` is a user write through a mapped, writable user page. -/
inductive Step : Spaces σ → Spaces σ → Prop
  | alloc {s : Spaces σ} {i : Fin NPROC} {o : Option VmProc} {st' : Phys σ} :
      s.procs i = none → allocproc P tramp s.phys = some (.ok (o, st')) →
      Step s ⟨Function.update s.procs i o, st'⟩
  | fork {s : Spaces σ} {i j : Fin NPROC} {p : VmProc} {o : Option VmProc} {st' : Phys σ} :
      s.procs i = some p → s.procs j = none → kfork P p tramp s.phys = some (.ok (o, st')) →
      Step s ⟨Function.update s.procs j o, st'⟩
  | exec {s : Spaces σ} {i : Fin NPROC} {p : VmProc} {ip : Option Image} {argv : List (List ℕ)}
      {r : ℤ} {p' : VmProc} {st' : Phys σ} :
      s.procs i = some p → (∀ a ∈ argv, a.length < PGSIZE) →
      kexec P ip argv p tramp s.phys = some (.ok (r, p', st')) →
      Step s ⟨Function.update s.procs i (some p'), st'⟩
  | sbrk {s : Spaces σ} {i : Fin NPROC} {p : VmProc} {n t r : ℤ} {p' : VmProc} {st' : Phys σ} :
      s.procs i = some p → -2 ^ 31 ≤ n ∧ n < 2 ^ 31 → sys_sbrk P p n t s.phys = .ok (r, p', st') →
      Step s ⟨Function.update s.procs i (some p'), st'⟩
  | fault {s : Spaces σ} {i : Fin NPROC} {p : VmProc} {va r : ℕ} {rd : Bool} {st' : Phys σ} :
      s.procs i = some p → vmfault P p.pagetable va rd p.sz p.pagetable s.phys = .ok (r, st') →
      Step s ⟨s.procs, st'⟩
  | store {s : Spaces σ} {i : Fin NPROC} {p : VmProc} {va q fl v : ℕ} :
      s.procs i = some p → view s.phys.mem p.pagetable (va / PGSIZE) = some (q, fl) →
      fl &&& PTE_U ≠ 0 → fl &&& PTE_W ≠ 0 →
      Step s ⟨s.procs, s.phys.store (q + va % PGSIZE) v⟩
  | free {s : Spaces σ} {i : Fin NPROC} {p : VmProc} {st' : Phys σ} :
      s.procs i = some p → freeproc P p s.phys = some (.ok st') →
      Step s ⟨Function.update s.procs i none, st'⟩

/-- **The system in good order**: free pages are RAM, the trampoline stays out of the
allocator, each process is in good order, and no two processes share a page. -/
structure SysOK (s : Spaces σ) : Prop where
  ram : ∀ q ∈ P.Free s.phys.heap, Ram q
  tramp_free : tramp ∉ P.Free s.phys.heap
  tramp_aligned : tramp % PGSIZE = 0
  tramp_lt : tramp < 2 ^ 56
  ok : ∀ i p, s.procs i = some p → ProcOK P tramp s.phys p
  apart : ∀ i j p q, i ≠ j → s.procs i = some p → s.procs j = some q →
    Disjoint (Owns s.phys.mem p) (Owns s.phys.mem q)

end System

section Inv

variable {σ : Type*} {P : Pool σ} {tramp : ℕ} {s s' : Spaces σ}

lemma Init.sysOK (h : Init P tramp s) : SysOK P tramp s where
  ram := h.ram
  tramp_free := h.tramp_free
  tramp_aligned := h.tramp_aligned
  tramp_lt := h.tramp_lt
  ok i p hp := by rw [h.empty i] at hp; cases hp
  apart i _ p _ _ hp := by rw [h.empty i] at hp; cases hp

namespace SysOK

lemma owns_ram (hs : SysOK P tramp s) (i : Fin NPROC) :
    ∀ q ∈ OwnsOpt s.phys.mem (s.procs i), Ram q := by
  cases hi : s.procs i with
  | none => exact fun q hq => absurd hq (Set.notMem_empty q)
  | some p => exact (hs.ok i p hi).ram

lemma tramp_not_mem (hs : SysOK P tramp s) (i : Fin NPROC) :
    tramp ∉ OwnsOpt s.phys.mem (s.procs i) ∪ P.Free s.phys.heap := by
  rintro (hq | hq)
  · cases hi : s.procs i with
    | none => rw [hi] at hq; exact hq
    | some p => rw [hi] at hq; exact (hs.ok i p hi).tramp_not_mem hq
  · exact hs.tramp_free hq

lemma apart_other (hs : SysOK P tramp s) {i j : Fin NPROC} (hji : j ≠ i) {q : VmProc}
    (hj : s.procs j = some q) :
    Disjoint (OwnsOpt s.phys.mem (s.procs i) ∪ P.Free s.phys.heap) (Owns s.phys.mem q) := by
  rw [Set.disjoint_union_left]
  refine ⟨?_, Set.disjoint_left.2 fun x hx ho => (hs.ok j q hj).not_free ho hx⟩
  cases hi : s.procs i with
  | none => exact Set.empty_disjoint _
  | some p => exact hs.apart i j p q (Ne.symm hji) hi hj

variable {i : Fin NPROC} {st' : Phys σ} {o : Option VmProc}

/-- **Another slot** keeps its process, in good order and owning what it owned. -/
lemma other (hs : SysOK P tramp s) (hm : Moves P tramp s.phys (s.procs i) st' o) {j : Fin NPROC}
    (hji : j ≠ i) {q : VmProc} (hj : s.procs j = some q) :
    ProcOK P tramp st' q ∧ Owns st'.mem q = Owns s.phys.mem q :=
  (hs.ok j q hj).within hm.within (hs.apart_other hji hj) (hs.tramp_not_mem i)
    (hm.free_ram hs.ram (hs.owns_ram i))

/-- **One slot's call.** A call that moved slot `i`'s image keeps the system in good order,
with slot `i` holding what the call left. -/
theorem moves (hs : SysOK P tramp s) (hm : Moves P tramp s.phys (s.procs i) st' o) :
    SysOK P tramp ⟨Function.update s.procs i o, st'⟩ := by
  have hram := hm.free_ram hs.ram (hs.owns_ram i)
  -- what slot `i` owns now was its own or free
  have hnew : ∀ {j : Fin NPROC} {q : VmProc}, j ≠ i → s.procs j = some q → ∀ p, o = some p →
      Disjoint (Owns st'.mem p) (Owns st'.mem q) := by
    intro j q hji hj p hp
    rw [(hs.other hm hji hj).2]
    refine Set.disjoint_of_subset_left ?_ (hs.apart_other hji hj)
    have := hm.owns
    rw [hp] at this
    exact this
  refine ⟨hram, fun hq => ?_, hs.tramp_aligned, hs.tramp_lt, fun j q hj => ?_,
    fun j k p q hjk hj hk => ?_⟩
  · rcases hm.within.free hq with hq | hq
    · exact hs.tramp_free hq
    · exact hs.tramp_not_mem i hq
  · dsimp only at hj
    by_cases hji : j = i
    · subst hji
      rw [Function.update_self] at hj
      exact hm.ok q hj
    · rw [Function.update_of_ne hji] at hj
      exact (hs.other hm hji hj).1
  · dsimp only at hj hk ⊢
    by_cases hji : j = i
    · subst hji
      rw [Function.update_self] at hj
      rw [Function.update_of_ne (Ne.symm hjk)] at hk
      exact hnew (Ne.symm hjk) hk p hj
    · rw [Function.update_of_ne hji] at hj
      by_cases hki : k = i
      · subst hki
        rw [Function.update_self] at hk
        exact (hnew hji hj q hk).symm
      · rw [Function.update_of_ne hki] at hk
        rw [(hs.other hm hji hj).2, (hs.other hm hki hk).2]
        exact hs.apart j k p q hjk hj hk

lemma keeps (hs : SysOK P tramp s) (hm : Moves P tramp s.phys (s.procs i) st' (s.procs i)) :
    SysOK P tramp ⟨s.procs, st'⟩ := by
  have := hs.moves hm
  rwa [Function.update_eq_self] at this

variable (hP : P.Lawful)
include hP

/-- **Every call keeps the system in good order.** -/
theorem step (hs : SysOK P tramp s) (hst : Step P tramp s s') : SysOK P tramp s' := by
  cases hst with
  | alloc hi ha =>
    obtain ⟨o', st'', ha', hm, -⟩ :=
      allocproc_spec hP hs.ram hs.tramp_free hs.tramp_aligned hs.tramp_lt
    rw [ha] at ha'
    cases ha'
    rw [← hi] at hm
    exact hs.moves hm
  | fork hi hj hf =>
    have hm := (kfork_spec hP hs.ram (hs.ok _ _ hi) hs.tramp_free hs.tramp_aligned hs.tramp_lt hf).1
    rw [← hj] at hm
    exact hs.moves hm
  | exec hi hargs hk =>
    have hm := (kexec_spec hP hs.ram (hs.ok _ _ hi) hargs hk).1
    rw [← hi] at hm
    exact hs.moves hm
  | @sbrk i p n t _ _ _ hi hn hsb =>
    obtain ⟨r', sz, st'', hsb', hm⟩ := sys_sbrk_spec hP hs.ram (hs.ok _ _ hi) hn t
    rw [hsb] at hsb'
    cases hsb'
    rw [← hi] at hm
    exact hs.moves hm
  | fault hi hf =>
    have hm := vmfault_moves hP hs.ram (hs.ok _ _ hi) hf
    rw [← hi] at hm
    exact hs.keeps hm
  | @store i p va q fl v hi hv hU hW =>
    have h := hs.ok _ _ hi
    have hq : q % PGSIZE = 0 := view_aligned hv
    have hm : Moves P tramp s.phys (some p) (s.phys.store (q + va % PGSIZE) v) (some p) :=
      Moves.write h (S := {q})
        (Set.singleton_subset_iff.2 (.inl (.inr ⟨_, fl, h.lt_of_user hv hU, hv⟩)))
        (fun x hx => (Set.mem_singleton_iff.1 hx) ▸ (h.good.target _ _ _ hv).2.2) rfl
        fun a ha => by
          rw [Phys.store_mem] at ha
          have : a = q + va % PGSIZE := by
            by_contra hne
            exact ha (Function.update_of_ne hne _ _)
          subst this
          exact block_add (by decide) hq (Nat.mod_lt _ (by decide))
    rw [← hi] at hm
    exact hs.keeps hm
  | free hi hf =>
    obtain ⟨st'', hf', hm⟩ := freeproc_spec hP (hs.ok _ _ hi)
    rw [hf] at hf'
    cases hf'
    rw [← hi] at hm
    exact hs.moves hm

/-- **The invariant holds in every reachable state.** -/
theorem reach (hr : Reachable (Init P tramp) (Step P tramp) s) : SysOK P tramp s :=
  hr.induct (fun _ h => h.sysOK) fun _ _ _ hs hst => hs.step hP hst

end SysOK

end Inv

/-! ## The bound on every user address space -/

section Bound

variable {σ : Type*} {P : Pool σ}

/-- **Every process's address space stays below `TRAPFRAME`** in every reachable state: its
size is at most `TRAPFRAME`, every page it maps other than the trampoline and the trapframe lies
below `PGROUNDUP(sz)`, freeing its table or the whole process returns without a panic (`freewalk`
meets no leaf), and `sbrk` with any `int` returns without a panic (no `remap`). -/
theorem user_space_bounded (tramp : ℕ) (hP : P.Lawful) {s : Spaces σ}
    (hr : Reachable (Init P tramp) (Step P tramp) s) {i : Fin NPROC} {p : VmProc}
    (hi : s.procs i = some p) :
    p.sz ≤ TRAPFRAME ∧
      (∀ v x, view s.phys.mem p.pagetable v = some x → v ≠ TRAPFRAME / PGSIZE →
        v ≠ TRAMPOLINE / PGSIZE → v < PGROUNDUP p.sz / PGSIZE) ∧
      (∃ st', proc_freepagetable P p.pagetable p.sz s.phys = some (.ok st')) ∧
      (∃ st', freeproc P p s.phys = some (.ok st')) ∧
      ∀ n t : ℤ, -2 ^ 31 ≤ n ∧ n < 2 ^ 31 →
        ∃ r p' st', sys_sbrk P p n t s.phys = .ok (r, p', st') := by
  have hs := SysOK.reach hP hr
  have h := hs.ok i p hi
  refine ⟨h.sz_le, fun v x hv htf htr => ?_, ?_, ?_, fun n t hn => ?_⟩
  · rcases top_cases hv with hlt | rfl | rfl
    · exact h.below v x hv hlt
    · exact absurd rfl htf
    · exact absurd rfl htr
  · obtain ⟨st', hfp, -⟩ := proc_freepagetable_spec hP h.good h.inner h.sz_le h.below
      h.trapframe Set.subset_union_left
    exact ⟨st', hfp⟩
  · obtain ⟨st', hf, -⟩ := freeproc_spec hP h
    exact ⟨st', hf⟩
  · obtain ⟨r, sz, st', hsb, -⟩ := sys_sbrk_spec hP hs.ram h hn t
    exact ⟨r, _, st', hsb⟩

/-- Boot with four free pages, the trampoline at `0x80007000`, and the list allocator. -/
def bootSpaces : Spaces (List ℕ) :=
  ⟨fun _ => none, ⟨fun _ => 0, [0x80010000, 0x80011000, 0x80012000, 0x80013000]⟩⟩

lemma init_bootSpaces : Init listPool 0x80007000 bootSpaces where
  empty _ := rfl
  ram q hq := by
    have hq : q ∈ [0x80010000, 0x80011000, 0x80012000, 0x80013000] := hq
    simp only [List.mem_cons, List.not_mem_nil, or_false] at hq
    rcases hq with rfl | rfl | rfl | rfl <;> (unfold Ram; decide)
  tramp_free := show (0x80007000 : ℕ) ∉ [0x80010000, 0x80011000, 0x80012000, 0x80013000] by decide
  tramp_aligned := by decide
  tramp_lt := by decide

/-- The first process, as `allocproc` makes it at boot: the trapframe takes the first free page
and the table the second. -/
def firstProc : VmProc := ⟨0x80011000, 0, 0x80010000⟩

/-- The system after `allocproc` put the first process in slot 0. -/
def firstSpaces : Spaces (List ℕ) :=
  ⟨Function.update bootSpaces.procs 0 (some firstProc),
    match allocproc listPool 0x80007000 bootSpaces.phys with
    | some (.ok (_, st)) => st
    | _ => bootSpaces.phys⟩

lemma reach_firstSpaces :
    Reachable (Init listPool 0x80007000) (Step listPool 0x80007000) firstSpaces :=
  (Reachable.init init_bootSpaces).step (Step.alloc rfl rfl)

theorem user_space_bounded_first :
    firstProc.sz ≤ TRAPFRAME ∧
      (∀ v x, view firstSpaces.phys.mem firstProc.pagetable v = some x →
        v ≠ TRAPFRAME / PGSIZE → v ≠ TRAMPOLINE / PGSIZE → v < PGROUNDUP firstProc.sz / PGSIZE) ∧
      (∃ st', proc_freepagetable listPool firstProc.pagetable firstProc.sz firstSpaces.phys =
        some (.ok st')) ∧
      (∃ st', freeproc listPool firstProc firstSpaces.phys = some (.ok st')) ∧
      ∀ n t : ℤ, -2 ^ 31 ≤ n ∧ n < 2 ^ 31 →
        ∃ r p' st', sys_sbrk listPool firstProc n t firstSpaces.phys = .ok (r, p', st') :=
  user_space_bounded 0x80007000 listPool_lawful reach_firstSpaces (i := 0) rfl

end Bound

end Xv6.Vm.Space
