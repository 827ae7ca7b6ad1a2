import Xv6.Vm.Uvm
import Xv6.Lib.Reach

/-!
One user page table as a system: a table made by `uvmcreate`, then any sequence of the calls
of `vm.c` on it, each made where its caller may make it. The translation the table gives is
a finite map from page numbers, and every call changes it as a step of an abstract machine on
finite maps says: the table refines that machine.
-/

namespace Xv6.Vm.Refine

open Xv6.Param Xv6.Riscv Xv6.Lib.Reach Xv6.Lib.Alloc Xv6.Lib.Region Xv6.Vm.Walk Xv6.Vm.Map
  Xv6.Vm.Uvm

lemma except_map_eq_ok {ε α β : Type*} {f : α → β} {x : Except ε α} {b : β} :
    x.map f = .ok b ↔ ∃ a, x = .ok a ∧ f a = b := by
  cases x <;> simp [Except.map]

inductive Call
  | mappages (va size pa perm : ℕ)
  | uvmunmap (va npages : ℕ) (do_free : Bool)
  | uvmalloc (oldsz newsz xperm : ℕ)
  | uvmdealloc (oldsz newsz : ℕ)
  | uvmclear (va : ℕ)
  | vmfault (va : ℕ) (read : Bool) (sz : ℕ)

section Code

variable {σ : Type*} (P : Pool σ)

def exec (pt : ℕ) : Call → Phys σ → Except String (ℤ × Phys σ)
  | .mappages va size pa perm, st => mappages P pt va size pa perm st
  | .uvmunmap va npages do_free, st => (uvmunmap P pt va npages do_free st).map fun st => (0, st)
  | .uvmalloc oldsz newsz xperm, st =>
    (uvmalloc P pt oldsz newsz xperm st).map fun r => ((r.1 : ℤ), r.2)
  | .uvmdealloc oldsz newsz, st => (uvmdealloc P pt oldsz newsz st).map fun r => ((r.1 : ℤ), r.2)
  | .uvmclear va, st => (uvmclear P pt va st).map fun st => (0, st)
  | .vmfault va rd sz, st => (vmfault P pt va rd sz pt st).map fun r => ((r.1 : ℤ), r.2)

/-- What callers guarantee: `mappages` maps pages the caller holds, with flags that fit in an
entry; a range to unmap does not wrap around; sizes are at most `MAXVA`. -/
def Allowed (pt : ℕ) (st : Phys σ) : Call → Prop
  | .mappages _ size pa perm => perm < 2 ^ 10 ∧ ∀ k < size / PGSIZE, Held P st pt (pa + k * PGSIZE)
  | .uvmunmap va npages _ => va + npages * PGSIZE < 2 ^ 64
  | .uvmalloc oldsz _ xperm => oldsz ≤ MAXVA ∧ xperm < 2 ^ 10
  | .uvmdealloc oldsz _ => oldsz ≤ MAXVA
  | .uvmclear _ => True
  | .vmfault _ _ _ => True

def RamPages (st : Phys σ) : Prop :=
  ∀ p ∈ P.Free st.heap, p % PGSIZE = 0 ∧ KERNBASE ≤ p ∧ p < PHYSTOP

/-- `pt` is a table `uvmcreate` has just made. -/
def Created (pt : ℕ) (st : Phys σ) : Prop :=
  ∃ st₀, RamPages P st₀ ∧ uvmcreate P st₀ = (pt, st) ∧ pt ≠ 0

def Step (pt : ℕ) (st st' : Phys σ) : Prop :=
  ∃ c r, Allowed P pt st c ∧ exec P pt c st = .ok (r, st')

abbrev Reach (pt : ℕ) : Phys σ → Prop := Reachable (Created P pt) (Step P pt)

end Code

/-! ## The abstract machine -/

/-- What each call does to the translation, as a finite map. A failing `mappages` keeps the
pages it mapped before `walk` could not allocate. -/
def AbsStep : Call → ℤ → VMap → VMap → Prop
  | .mappages va size pa perm, r, M, M' =>
    ∃ k, (r = 0 ∧ k = size / PGSIZE ∨ r = -1 ∧ k < size / PGSIZE) ∧
      (∀ v, va / PGSIZE ≤ v → v < va / PGSIZE + k → M v = none) ∧
      M' = mapRange M (va / PGSIZE) k pa perm
  | .uvmunmap va npages _, _, M, M' => M' = unmapRange M (va / PGSIZE) npages
  | .uvmalloc oldsz newsz xperm, r, M, M' =>
    newsz < oldsz ∧ r = oldsz ∧ M' = M ∨
      oldsz ≤ newsz ∧ r = newsz ∧
        MapsNew M M' (PGROUNDUP oldsz / PGSIZE) ((newsz - PGROUNDUP oldsz + PGSIZE - 1) / PGSIZE)
          (PTE_R ||| PTE_U ||| xperm ||| PTE_V) ∨
      r = 0 ∧ M' = M
  | .uvmdealloc oldsz newsz, r, M, M' =>
    r = ((if oldsz ≤ newsz then oldsz else newsz : ℕ) : ℤ) ∧
      M' = if newsz < oldsz then
        unmapRange M (PGROUNDUP newsz / PGSIZE) ((PGROUNDUP oldsz - PGROUNDUP newsz) / PGSIZE)
      else M
  | .uvmclear va, _, M, M' => M' = clearU M (va / PGSIZE)
  | .vmfault va _ _, r, M, M' =>
    r = 0 ∧ M' = M ∨
      ∃ pa : ℕ, r = pa ∧ M (va / PGSIZE) = none ∧
        M' = Function.update M (va / PGSIZE) (some (pa, PTE_W ||| PTE_U ||| PTE_R ||| PTE_V))

abbrev AbsReach : VMap → Prop := Reachable (· = fun _ => none) fun M M' => ∃ c r, AbsStep c r M M'

/-! ## The refinement -/

section Refine

variable {σ : Type*} {P : Pool σ} {pt : ℕ} {st st' : Phys σ}

lemma view_eq_walk (m : ℕ → ℕ) {va : ℕ} (hva : va < MAXVA) :
    view m pt (va / PGSIZE) =
      ((walkRead m va 2 pt).bind fun e => valid (m e)).map fun pte => (PTE2PA pte, PTE_FLAGS pte) := by
  cases hw : walkRead m va 2 pt with
  | none => exact view_of_walkRead_none hw
  | some e => rw [view_of_walkRead hw hva, Option.bind_some]

lemma lt_of_ram {p : ℕ} (h : p < PHYSTOP) : p < 2 ^ 56 := by
  unfold PHYSTOP KERNBASE at h
  omega

variable (hP : P.Lawful)
include hP

/-- **A table `uvmcreate` made** is good, has no page but its root, and maps nothing. -/
theorem created_spec (h : Created P pt st) :
    Good P st pt ∧ view st.mem pt = (fun _ => none) ∧ ∀ t, IsNode st.mem pt t → t = pt := by
  obtain ⟨st₀, hram, hc, hpt⟩ := h
  unfold uvmcreate at hc
  rcases hk : kalloc P st₀ with ⟨_ | p, st₁⟩
  · rw [hk] at hc
    cases hc
    exact absurd rfl hpt
  rw [hk] at hc
  cases hc
  obtain ⟨heap, ha, rfl⟩ := kalloc_eq_some hk
  obtain ⟨hpf, hsub⟩ := hP.alloc_some ha
  obtain ⟨hal, -, -⟩ := hram pt hpf
  refine Good.empty hal (fun i => ?_) (fun q hq => ?_)
  · show memset _ pt 0 PGSIZE (pt + 8 * i) = 0
    rw [memset, setRange_block_of_eq (by decide) hal (page_entry hal i), Nat.zero_mul]
  · have hq' := hsub hq
    obtain ⟨hqa, -, hqlt⟩ := hram q hq'.1
    exact ⟨hqa, lt_of_ram hqlt, fun h => hq'.2 h⟩

/-- **Each call is a step of the abstract machine**, from a good table and where its caller
may make it; the table stays good. -/
theorem exec_spec {c : Call} {r : ℤ} (hg : Good P st pt) (ha : Allowed P pt st c)
    (h : exec P pt c st = .ok (r, st')) :
    Good P st' pt ∧ AbsStep c r (view st.mem pt) (view st'.mem pt) := by
  cases c with
  | mappages va size pa perm =>
    obtain ⟨-, -, -, hg', -, k, hk, hnone, hview, -⟩ := mappages_spec hP ha.1 hg ha.2 h
    exact ⟨hg', k, hk, hnone, hview⟩
  | uvmunmap va npages do_free =>
    obtain ⟨st₁, hu, hr⟩ := except_map_eq_ok.1 h
    cases hr
    obtain ⟨-, hg', hview, -⟩ := uvmunmap_spec hP hg ha hu
    exact ⟨hg', hview⟩
  | uvmalloc oldsz newsz xperm =>
    obtain ⟨⟨r₁, st₁⟩, hu, hr⟩ := except_map_eq_ok.1 h
    cases hr
    obtain ⟨hg', -, hres⟩ := uvmalloc_spec hP ha.2 hg ha.1 hu
    refine ⟨hg', ?_⟩
    rcases hres with ⟨hlt, rfl, rfl⟩ | ⟨hle, rfl, hm, -⟩ | ⟨rfl, hview⟩
    · exact .inl ⟨hlt, rfl, rfl⟩
    · exact .inr (.inl ⟨hle, rfl, hm⟩)
    · exact .inr (.inr ⟨Nat.cast_zero, hview⟩)
  | uvmdealloc oldsz newsz =>
    obtain ⟨⟨r₁, st₁⟩, hu, hr⟩ := except_map_eq_ok.1 h
    cases hr
    obtain ⟨hg', rfl, hview, -⟩ := uvmdealloc_spec hP hg ha hu
    exact ⟨hg', rfl, hview⟩
  | uvmclear va =>
    obtain ⟨st₁, hu, hr⟩ := except_map_eq_ok.1 h
    cases hr
    obtain ⟨-, hg', hview, -⟩ := uvmclear_spec hg hu
    exact ⟨hg', hview⟩
  | vmfault va rd sz =>
    obtain ⟨⟨r₁, st₁⟩, hu, hr⟩ := except_map_eq_ok.1 h
    cases hr
    obtain ⟨hg', -, hres⟩ := vmfault_spec hP hg hu
    refine ⟨hg', ?_⟩
    rcases hres with ⟨rfl, hview⟩ | ⟨-, hnone, -, hview⟩
    · exact .inl ⟨Nat.cast_zero, hview⟩
    · exact .inr ⟨r₁, rfl, hnone, hview⟩

/-- **Every reachable table is good, and its translation is reachable in the abstract
machine.** -/
theorem reach_spec (h : Reach P pt st) : Good P st pt ∧ AbsReach (view st.mem pt) := by
  induction h with
  | init hc =>
    obtain ⟨hg, hview, -⟩ := created_spec hP hc
    exact ⟨hg, .init hview⟩
  | step _ hs ih =>
    obtain ⟨c, r, ha, he⟩ := hs
    obtain ⟨hg', habs⟩ := exec_spec hP ih.1 ha he
    exact ⟨hg', ih.2.step ⟨c, r, habs⟩⟩

/-- **A failing `uvmcopy` into a table with nothing mapped below `sz`** leaves its
translation as it was. -/
theorem uvmcopy_fail_fresh {old new sz : ℕ} (hg : Good P st new)
    (hfresh : ∀ v < (sz + PGSIZE - 1) / PGSIZE, view st.mem new v = none)
    (h : uvmcopy P old new sz st = .ok (-1, st')) : view st'.mem new = view st.mem new := by
  obtain ⟨j, hj, hview⟩ := uvmcopy_fail hP hg h
  rw [hview]
  exact unmapRange_of_none fun v _ hv => hfresh v (by omega)

end Refine

/-! ## The table as a finite map -/

/-- What it means for the tables a `P`-allocator system builds to behave as finite maps: the
index and entry encodings round-trip, every reachable translation is reachable in the abstract
machine, `walk` and `walkaddr` read it, distinct pages have distinct leaf entries, every call is
an abstract step, and the failing growths undo themselves. -/
structure MapRefinement {σ : Type*} (P : Pool σ) : Prop where
  indices : ∀ va < MAXVA,
    va / PGSIZE = 2 ^ 18 * PX 2 va + 2 ^ 9 * PX 1 va + PX 0 va ∧ ∀ level, PX level va < 512
  entry : ∀ pa f, pa % PGSIZE = 0 → pa < 2 ^ 56 → f < 2 ^ 10 →
    PTE2PA (PA2PTE pa ||| f) = pa ∧ PTE_FLAGS (PA2PTE pa ||| f) = f
  abstract : ∀ pt st, Reach P pt st → AbsReach (view st.mem pt)
  translation : ∀ pt st va, Reach P pt st → va < MAXVA →
    walk P pt va false st = .ok (walkRead st.mem va 2 pt, st) ∧
      view st.mem pt (va / PGSIZE) = ((walkRead st.mem va 2 pt).bind fun e => valid (st.mem e)).map
        fun pte => (PTE2PA pte, PTE_FLAGS pte)
  walkaddr_eq : ∀ pt st va, Reach P pt st → walkaddr P pt va st = userPage (view st.mem pt) va
  leaf_inj : ∀ pt st va va' e, Reach P pt st → va < MAXVA → va' < MAXVA →
    walk P pt va false st = .ok (some e, st) → walk P pt va' false st = .ok (some e, st) →
      va / PGSIZE = va' / PGSIZE
  step : ∀ pt st st' c r, Reach P pt st → Allowed P pt st c → exec P pt c st = .ok (r, st') →
    AbsStep c r (view st.mem pt) (view st'.mem pt)
  uvmalloc_fail : ∀ pt st st' oldsz newsz xperm, Reach P pt st → oldsz ≤ MAXVA → xperm < 2 ^ 10 →
    uvmalloc P pt oldsz newsz xperm st = .ok (0, st') → view st'.mem pt = view st.mem pt
  uvmcopy_fail : ∀ old new sz st st', Good P st new →
    (∀ v < (sz + PGSIZE - 1) / PGSIZE, view st.mem new v = none) →
    uvmcopy P old new sz st = .ok (-1, st') → view st'.mem new = view st.mem new

/-- **The Sv39 table behaves as a finite map**, for every lawful allocator, which may fail at
any call. -/
theorem pagetable_is_finite_map {σ : Type*} {P : Pool σ} (hP : P.Lawful) : MapRefinement P where
  indices va hva := ⟨vpn_eq_PX (hva.trans MAXVA_lt), fun level => PX_lt level va⟩
  entry _ _ hpa hlt hf := PTE2PA_PA2PTE_or hpa hlt hf
  abstract _ _ h := (reach_spec hP h).2
  translation pt st va _ hva := ⟨walk_false P pt va st hva, view_eq_walk st.mem hva⟩
  walkaddr_eq pt st va _ := walkaddr_eq pt va st
  leaf_inj pt st va va' e h hva hva' hw hw' := by
    rw [walk_false P pt va st hva, Except.ok.injEq, Prod.mk.injEq] at hw
    rw [walk_false P pt va' st hva', Except.ok.injEq, Prod.mk.injEq] at hw'
    exact walkRead_inj (reach_spec hP h).1.tree hw.1 hw'.1 (hva.trans MAXVA_lt) (hva'.trans MAXVA_lt)
  step _ _ _ _ _ h ha he := (exec_spec hP (reach_spec hP h).1 ha he).2
  uvmalloc_fail pt st st' oldsz newsz xperm h hold hx hu := by
    obtain ⟨-, -, hres⟩ := uvmalloc_spec hP hx (reach_spec hP h).1 hold hu
    rcases hres with ⟨hlt, h0, -⟩ | ⟨hle, h0, hm, -⟩ | ⟨-, hview⟩
    · omega
    · -- growing to size `0` maps no page
      obtain rfl : oldsz = 0 := by omega
      subst h0
      have hcount : (0 - PGROUNDUP 0 + PGSIZE - 1) / PGSIZE = 0 := by decide
      rw [hcount] at hm
      exact hm.eq_of_zero
    · exact hview
  uvmcopy_fail _ _ _ _ _ hg hfresh h := uvmcopy_fail_fresh hP hg hfresh h

theorem pagetable_is_finite_map_listPool : MapRefinement listPool :=
  pagetable_is_finite_map listPool_lawful

/-- The counterexample's memory at boot: another table `0x80004000` is already there, mapping
page 1 to `0x80200000`; three pages are free. -/
def cexBoot : Phys (List ℕ) :=
  ⟨fun a => if a = 0x80004000 then PA2PTE 0x80005000 ||| PTE_V
    else if a = 0x80005000 then PA2PTE 0x80006000 ||| PTE_V
    else if a = 0x80006000 + 8 then PA2PTE 0x80200000 ||| PTE_R ||| PTE_U ||| PTE_V
    else 0,
   [0x80001000, 0x80002000, 0x80003000]⟩

def cexCreated : Phys (List ℕ) := (uvmcreate listPool cexBoot).2

def cexMapped : Phys (List ℕ) :=
  match mappages listPool 0x80001000 0 PGSIZE 0x80100000 (PTE_R ||| PTE_U) cexCreated with
  | .ok (_, st) => st
  | .error _ => cexCreated

def cexCopied : Phys (List ℕ) :=
  match uvmcopy listPool 0x80004000 0x80001000 (2 * PGSIZE) cexMapped with
  | .ok (_, st) => st
  | .error _ => cexMapped

lemma cex_created : Created listPool 0x80001000 cexCreated := by
  have hram : ∀ p ∈ [0x80001000, 0x80002000, 0x80003000],
      p % PGSIZE = 0 ∧ KERNBASE ≤ p ∧ p < PHYSTOP := by decide
  exact ⟨cexBoot, fun p hp => hram p hp, Prod.ext (by decide) rfl, by decide⟩

lemma cex_reach : Reach listPool 0x80001000 cexMapped := by
  have h₀ : Reach listPool 0x80001000 cexCreated := .init cex_created
  obtain ⟨-, hview, hnode⟩ := created_spec listPool_lawful cex_created
  have hheld : Held listPool cexCreated 0x80001000 0x80100000 := by
    refine ⟨by decide, by decide, ?_, fun h => absurd (hnode _ h) (by decide), fun vpn fl => ?_⟩
    · show 0x80100000 ∉ cexCreated.heap
      decide
    · rw [hview]
      simp
  refine h₀.step ⟨.mappages 0 PGSIZE 0x80100000 (PTE_R ||| PTE_U), 0,
    ⟨by decide, fun k hk => ?_⟩, rfl⟩
  obtain rfl : k = 0 := by
    unfold PGSIZE at hk
    omega
  simpa using hheld

/-- **A failing `uvmcopy` unmaps and frees a page the new table had mapped.** The table
`0x80001000` is reachable from `uvmcreate` and maps page 0. Copying two pages from the old
table, which maps page 1 only, skips page 0, finds no free page for page 1, and the error path
unmaps every page of the new table below page 1: page 0 is gone. -/
theorem uvmcopy_fail_drops_page :
    Reach listPool 0x80001000 cexMapped ∧
      uvmcopy listPool 0x80004000 0x80001000 (2 * PGSIZE) cexMapped = .ok (-1, cexCopied) ∧
      view cexMapped.mem 0x80001000 0 = some (0x80100000, PTE_R ||| PTE_U ||| PTE_V) ∧
      view cexCopied.mem 0x80001000 0 = none :=
  ⟨cex_reach, rfl, by decide, by decide⟩

end Xv6.Vm.Refine
