import Xv6.Param
import Xv6.Lib.Reach

/-!
The physical page allocator of `kalloc.c` and its statistics.

The free list is kept as the list of pages it links, head first; the counters `nfree` and
`nalloc` are `uint64`s. `end`, the first address after the kernel, is set by the linker: it
is a parameter `kend`, below `PHYSTOP`. `kinit` frees every whole page from
`PGROUNDUP(end)` to `PHYSTOP`; after it, any interleaving of `kalloc` and `kfree` calls from
any CPUs is a sequence of whole calls, each under `kmem.lock`. The page contents (the junk
`memset`s, and the link stored in each free page) are not modelled.

Ghost state beside `kmem` records the pages `kalloc` has handed out and not had back, and
the number of calls that returned a page. The free list and the handed-out pages always
split the pages `kinit` freed between them.
-/

namespace Xv6.Kalloc

open Xv6.Param Xv6.Lib.Reach

/-- `kmem` without its lock. -/
structure Kmem where
  freelist : List ℕ
  nfree : ℕ
  nalloc : ℕ
  deriving DecidableEq, Repr

/-- `kfree(pa)`: `none` is the panic `kfree`. The page goes to the head of the free list. -/
def kfree (kend : ℕ) (k : Kmem) (pa : ℕ) : Option Kmem :=
  if pa % PGSIZE ≠ 0 ∨ pa < kend ∨ PHYSTOP ≤ pa then none
  else some ⟨pa :: k.freelist, (k.nfree + 1) % 2 ^ 64, k.nalloc⟩

/-- `kalloc`: the head of the free list, or `none` (the null pointer) when it is empty. -/
def kalloc (k : Kmem) : Option ℕ × Kmem :=
  match k.freelist with
  | [] => (none, k)
  | r :: rest => (some r, ⟨rest, (k.nfree + 2 ^ 64 - 1) % 2 ^ 64, (k.nalloc + 1) % 2 ^ 64⟩)

/-- The loop of `freerange(pa_start, pa_end)` from page `p` on. -/
def freerange (kend pa_end : ℕ) (p : ℕ) (k : Kmem) : Option Kmem :=
  if p + PGSIZE ≤ pa_end then (kfree kend k p).bind fun k => freerange kend pa_end (p + PGSIZE) k
  else some k
termination_by pa_end - p
decreasing_by unfold PGSIZE at *; omega

/-- `kinit`: the counters zeroed, and every whole page of `[end, PHYSTOP)` freed. -/
def kinit (kend : ℕ) : Option Kmem := freerange kend PHYSTOP (PGROUNDUP kend) ⟨[], 0, 0⟩

def getfreepages (k : Kmem) : ℕ := k.nfree

def getmemstat (k : Kmem) : ℕ × ℕ := (k.nfree, k.nalloc)

/-- `sys_freemem`: the free memory in bytes, in `uint64`. -/
def sys_freemem (k : Kmem) : ℕ := getfreepages k * PGSIZE % 2 ^ 64

def sys_memstat (k : Kmem) : ℕ × ℕ := getmemstat k

/-- The pages `freerange(end, PHYSTOP)` frees, in the order it frees them. -/
def pages (kend : ℕ) : List ℕ :=
  List.range' (PGROUNDUP kend) ((PHYSTOP - PGROUNDUP kend) / PGSIZE) PGSIZE

lemma freerange_eq (kend pa_end p : ℕ) (k : Kmem) (hp : p % PGSIZE = 0) (hk : kend ≤ p)
    (he : pa_end ≤ PHYSTOP) (h64 : k.nfree < 2 ^ 64) :
    freerange kend pa_end p k =
      some ⟨(List.range' p ((pa_end - p) / PGSIZE) PGSIZE).reverse ++ k.freelist,
        (k.nfree + (pa_end - p) / PGSIZE) % 2 ^ 64, k.nalloc⟩ := by
  induction p, k using freerange.induct pa_end with
  | case1 p k hlt ih =>
    rw [freerange, if_pos hlt]
    have hfree : kfree kend k p = some ⟨p :: k.freelist, (k.nfree + 1) % 2 ^ 64, k.nalloc⟩ := by
      rw [kfree, if_neg (by unfold PHYSTOP KERNBASE PGSIZE at *; omega)]
    have hn : (pa_end - p) / PGSIZE = (pa_end - (p + PGSIZE)) / PGSIZE + 1 := by
      unfold PGSIZE at *; omega
    rw [hfree, Option.bind_some, ih _ (by unfold PGSIZE at *; omega) (by omega)
      (Nat.mod_lt _ (by norm_num)), hn, List.range'_succ]
    simp only [List.reverse_cons, List.append_assoc, List.singleton_append, Kmem.mk.injEq,
      Option.some.injEq, true_and, and_true]
    omega
  | case2 p k hlt =>
    rw [freerange, if_neg hlt]
    have hn : (pa_end - p) / PGSIZE = 0 := by unfold PGSIZE at *; omega
    rw [hn, Nat.add_zero, Nat.mod_eq_of_lt h64]
    simp

lemma pages_length_lt (kend : ℕ) : (pages kend).length < 2 ^ 64 := by
  simp only [pages, List.length_range']
  unfold PHYSTOP KERNBASE PGSIZE; omega

/-- `kinit` frees the pages in order, so the free list holds them last first. -/
theorem kinit_eq (kend : ℕ) (hend : kend ≤ PHYSTOP) :
    kinit kend = some ⟨(pages kend).reverse, (pages kend).length, 0⟩ := by
  have hr : PGROUNDUP kend % PGSIZE = 0 ∧ kend ≤ PGROUNDUP kend := by
    unfold PGROUNDUP PHYSTOP KERNBASE PGSIZE at *; omega
  rw [kinit, freerange_eq kend PHYSTOP _ _ hr.1 hr.2 le_rfl (by norm_num)]
  have := pages_length_lt kend
  simp only [pages, List.length_range', List.append_nil, zero_add] at this ⊢
  rw [Nat.mod_eq_of_lt this]

@[simp] lemma kalloc_nil (k : Kmem) (h : k.freelist = []) : kalloc k = (none, k) := by
  simp only [kalloc, h]

@[simp] lemma kalloc_cons (k : Kmem) (r : ℕ) (rest : List ℕ) (h : k.freelist = r :: rest) :
    kalloc k = (some r, ⟨rest, (k.nfree + 2 ^ 64 - 1) % 2 ^ 64, (k.nalloc + 1) % 2 ^ 64⟩) := by
  simp only [kalloc, h]

lemma mem_pages {kend p : ℕ} (hend : kend ≤ PHYSTOP) :
    p ∈ pages kend ↔ p % PGSIZE = 0 ∧ kend ≤ p ∧ p < PHYSTOP := by
  rw [pages, List.mem_range']
  constructor
  · rintro ⟨i, hi, rfl⟩
    unfold PGROUNDUP PHYSTOP KERNBASE PGSIZE at *; omega
  · rintro ⟨ha, hk, hp⟩
    refine ⟨(p - PGROUNDUP kend) / PGSIZE, ?_, ?_⟩ <;>
      unfold PGROUNDUP PHYSTOP KERNBASE PGSIZE at * <;> omega

lemma pages_nodup (kend : ℕ) : (pages kend).Nodup :=
  List.nodup_range' _ (by unfold PGSIZE; omega)

/-- The allocator with its ghost state: the pages handed out and not yet freed, and the
number of `kalloc` calls that returned a page. -/
structure KState where
  kmem : Kmem
  handed : List ℕ
  allocs : ℕ

/-- The state `kinit` leaves. -/
def Boot (kend : ℕ) (st : KState) : Prop :=
  kinit kend = some st.kmem ∧ st.handed = [] ∧ st.allocs = 0

/-- One call of `kalloc`, the ghost state following its result. -/
def allocStep (st : KState) : KState :=
  match kalloc st.kmem with
  | (none, k) => ⟨k, st.handed, st.allocs⟩
  | (some r, k) => ⟨k, r :: st.handed, st.allocs + 1⟩

/-- What callers of `kfree` promise: a page-aligned page of `[end, PHYSTOP)` that is not on
the free list. -/
def FreeArg (kend : ℕ) (k : Kmem) (pa : ℕ) : Prop :=
  pa % PGSIZE = 0 ∧ kend ≤ pa ∧ pa < PHYSTOP ∧ pa ∉ k.freelist

/-- The calls of `kalloc` and `kfree`, each atomic under `kmem.lock`. -/
inductive KStep (kend : ℕ) : KState → KState → Prop
  | kalloc (st : KState) : KStep kend st (allocStep st)
  | kfree (st : KState) (pa : ℕ) (k : Kmem) :
      FreeArg kend st.kmem pa → kfree kend st.kmem pa = some k →
      KStep kend st ⟨k, st.handed.erase pa, st.allocs⟩

lemma allocStep_of_nil {st : KState} (h : st.kmem.freelist = []) : allocStep st = st := by
  rw [allocStep, kalloc_nil _ h]

lemma allocStep_of_cons {st : KState} {r : ℕ} {rest : List ℕ}
    (h : st.kmem.freelist = r :: rest) :
    allocStep st = ⟨⟨rest, (st.kmem.nfree + 2 ^ 64 - 1) % 2 ^ 64, (st.kmem.nalloc + 1) % 2 ^ 64⟩,
      r :: st.handed, st.allocs + 1⟩ := by
  rw [allocStep, kalloc_cons _ _ _ h]

lemma kfree_of_freeArg {kend pa : ℕ} {k : Kmem} (h : FreeArg kend k pa) :
    kfree kend k pa = some ⟨pa :: k.freelist, (k.nfree + 1) % 2 ^ 64, k.nalloc⟩ := by
  obtain ⟨ha, hk, hp, -⟩ := h
  rw [kfree, if_neg (by omega)]

/-- The allocator's invariant: the free list and the handed-out pages split the pages
`kinit` freed, and the counters shadow the list and the ghost count. -/
structure Inv (kend : ℕ) (st : KState) : Prop where
  perm : (st.kmem.freelist ++ st.handed).Perm (pages kend)
  nfree_eq : st.kmem.nfree = st.kmem.freelist.length
  nalloc_eq : st.kmem.nalloc = st.allocs % 2 ^ 64

section Inv

variable {kend : ℕ} {st : KState}

lemma Inv.length_add (h : Inv kend st) :
    st.kmem.freelist.length + st.handed.length = (pages kend).length := by
  rw [← List.length_append, h.perm.length_eq]

lemma Inv.nodup (h : Inv kend st) : (st.kmem.freelist ++ st.handed).Nodup :=
  h.perm.nodup_iff.mpr (pages_nodup kend)

lemma Inv.mem_pages (h : Inv kend st) {p : ℕ} (hp : p ∈ st.kmem.freelist) : p ∈ pages kend :=
  h.perm.subset (List.mem_append_left _ hp)

lemma inv_boot (hend : kend ≤ PHYSTOP) (h : Boot kend st) : Inv kend st := by
  obtain ⟨hk, hh, ha⟩ := h
  rw [kinit_eq kend hend, Option.some.injEq] at hk
  refine ⟨?_, ?_, ?_⟩
  · rw [← hk, hh, List.append_nil]; exact List.reverse_perm _
  · rw [← hk, List.length_reverse]
  · rw [← hk, ha, Nat.zero_mod]

lemma inv_allocStep (h : Inv kend st) : Inv kend (allocStep st) := by
  rcases hfl : st.kmem.freelist with _ | ⟨r, rest⟩
  · rwa [allocStep_of_nil hfl]
  rw [allocStep_of_cons hfl]
  have hlen := h.length_add
  have hlt := pages_length_lt kend
  have hn := h.nfree_eq
  have ha := h.nalloc_eq
  rw [hfl, List.length_cons] at hlen hn
  refine ⟨?_, ?_, ?_⟩
  · -- the page moves from the head of the free list to the handed-out pages
    have hp := h.perm
    rw [hfl, List.cons_append] at hp
    exact List.perm_middle.trans hp
  · dsimp only; omega
  · dsimp only; omega

lemma inv_kfree (h : Inv kend st) {pa : ℕ} {k : Kmem} (harg : FreeArg kend st.kmem pa)
    (hk : kfree kend st.kmem pa = some k) :
    Inv kend ⟨k, st.handed.erase pa, st.allocs⟩ := by
  rw [kfree_of_freeArg harg, Option.some.injEq] at hk
  subst hk
  obtain ⟨ha, hle, hlt, hnot⟩ := harg
  have hend : kend ≤ PHYSTOP := by omega
  -- an aligned page of the range is either free or handed out; it is not free
  have hmem : pa ∈ st.handed := by
    have hp : pa ∈ st.kmem.freelist ++ st.handed :=
      h.perm.symm.subset ((mem_pages hend).mpr ⟨ha, hle, hlt⟩)
    simpa [hnot] using hp
  have hlen := h.length_add
  have hpos := List.length_pos_of_mem hmem
  have hbound := pages_length_lt kend
  refine ⟨?_, ?_, h.nalloc_eq⟩
  · have hsplit := List.perm_cons_erase hmem
    exact (List.perm_middle.symm.trans (hsplit.append_left _).symm).trans h.perm
  · dsimp only
    rw [h.nfree_eq, List.length_cons]
    omega

lemma inv_step (h : Inv kend st) {st' : KState} (hs : KStep kend st st') : Inv kend st' := by
  cases hs with
  | kalloc => exact inv_allocStep h
  | kfree pa k harg hk => exact inv_kfree h harg hk

/-- Every state reachable from `kinit` keeps the invariant. -/
theorem inv_reachable (hend : kend ≤ PHYSTOP) (h : Reachable (Boot kend) (KStep kend) st) :
    Inv kend st := by
  induction h with
  | init hb => exact inv_boot hend hb
  | step _ hs ih => exact inv_step ih hs

lemma Inv.sys_memstat_eq (h : Inv kend st) :
    sys_memstat st.kmem = (st.kmem.freelist.length, st.allocs % 2 ^ 64) := by
  rw [sys_memstat, getmemstat, h.nfree_eq, h.nalloc_eq]

lemma Inv.sys_freemem_eq (h : Inv kend st) :
    sys_freemem st.kmem = PGSIZE * st.kmem.freelist.length := by
  -- all of RAM is below 2^64 bytes, so the product does not wrap
  have hlen := h.length_add
  have hpages : (pages kend).length * PGSIZE ≤ PHYSTOP := by
    simp only [pages, List.length_range']
    unfold PHYSTOP KERNBASE PGSIZE; omega
  rw [sys_freemem, getfreepages, h.nfree_eq, Nat.mod_eq_of_lt, mul_comm]
  unfold PHYSTOP KERNBASE PGSIZE at *; omega

end Inv

/-- The state `kinit` leaves, nothing handed out yet. -/
def bootState (kend : ℕ) : KState := ⟨⟨(pages kend).reverse, (pages kend).length, 0⟩, [], 0⟩

lemma reachable_bootState {kend : ℕ} (hend : kend ≤ PHYSTOP) :
    Reachable (Boot kend) (KStep kend) (bootState kend) :=
  Reachable.init ⟨kinit_eq kend hend, rfl, rfl⟩

/-- **The free-page statistics.** In every state reachable from `kinit`, `nfree` is the length
of the free list, the free list holds distinct aligned pages of `[end, PHYSTOP)`, the free and
the handed-out pages together are the pages `freerange` enumerated, and `sys_freemem` and
`sys_memstat` report the free list exactly. `nalloc` is the number of successful `kalloc`
calls modulo `2^64`: it is a `uint64`. -/
theorem kmem_stats_exact (kend : ℕ) (hend : kend ≤ PHYSTOP) (st : KState)
    (h : Reachable (Boot kend) (KStep kend) st) :
    st.kmem.nfree = st.kmem.freelist.length ∧ st.kmem.freelist.Nodup ∧
    (∀ p ∈ st.kmem.freelist, p % PGSIZE = 0 ∧ kend ≤ p ∧ p < PHYSTOP) ∧
    st.kmem.nalloc = st.allocs % 2 ^ 64 ∧
    st.kmem.nfree + st.handed.length = (pages kend).length ∧
    sys_freemem st.kmem = PGSIZE * st.kmem.freelist.length ∧
    sys_memstat st.kmem = (st.kmem.freelist.length, st.allocs % 2 ^ 64) := by
  have hi := inv_reachable hend h
  refine ⟨hi.nfree_eq, hi.nodup.of_append_left, fun p hp => (mem_pages hend).mp (hi.mem_pages hp),
    hi.nalloc_eq, ?_, hi.sys_freemem_eq, hi.sys_memstat_eq⟩
  rw [hi.nfree_eq, hi.length_add]

theorem kmem_stats_exact_bootState :
    let st := bootState 0x80100000
    st.kmem.nfree = st.kmem.freelist.length ∧ st.kmem.freelist.Nodup ∧
    (∀ p ∈ st.kmem.freelist, p % PGSIZE = 0 ∧ 0x80100000 ≤ p ∧ p < PHYSTOP) ∧
    st.kmem.nalloc = st.allocs % 2 ^ 64 ∧
    st.kmem.nfree + st.handed.length = (pages 0x80100000).length ∧
    sys_freemem st.kmem = PGSIZE * st.kmem.freelist.length ∧
    sys_memstat st.kmem = (st.kmem.freelist.length, st.allocs % 2 ^ 64) :=
  kmem_stats_exact 0x80100000 (by unfold PHYSTOP KERNBASE; norm_num) _
    (reachable_bootState (by unfold PHYSTOP KERNBASE; norm_num))

lemma reachable_cycles {kend : ℕ} (hend : kend ≤ PHYSTOP) {st : KState}
    (h : Reachable (Boot kend) (KStep kend) st) {r : ℕ} {rest : List ℕ}
    (hfl : st.kmem.freelist = r :: rest) (n : ℕ) :
    ∃ st', Reachable (Boot kend) (KStep kend) st' ∧ st'.kmem.freelist = r :: rest ∧
      st'.allocs = st.allocs + n := by
  induction n with
  | zero => exact ⟨st, h, hfl, rfl⟩
  | succ n ih =>
    obtain ⟨st', h', hfl', ha'⟩ := ih
    have hi := inv_reachable hend h'
    have hnd : (r :: rest).Nodup := by rw [← hfl']; exact hi.nodup.of_append_left
    obtain ⟨ha, hk, hp⟩ := (mem_pages hend).mp (hi.mem_pages (by rw [hfl']; exact
      List.mem_cons_self))
    -- `kalloc` hands out `r`, and `kfree` takes it back
    have h₁ := h'.step (KStep.kalloc st')
    rw [allocStep_of_cons hfl'] at h₁
    have harg : FreeArg kend ⟨rest, (st'.kmem.nfree + 2 ^ 64 - 1) % 2 ^ 64,
        (st'.kmem.nalloc + 1) % 2 ^ 64⟩ r := ⟨ha, hk, hp, (List.nodup_cons.mp hnd).1⟩
    have h₂ := h₁.step (KStep.kfree _ r _ harg (kfree_of_freeArg harg))
    refine ⟨_, h₂, rfl, ?_⟩
    dsimp only
    omega

/-- After `2^64` successful allocations `sys_memstat` reports none. -/
theorem nalloc_wraps :
    ∃ st, Reachable (Boot 0x80100000) (KStep 0x80100000) st ∧ st.allocs = 2 ^ 64 ∧
      (sys_memstat st.kmem).2 = 0 := by
  have hend : (0x80100000 : ℕ) ≤ PHYSTOP := by unfold PHYSTOP KERNBASE; norm_num
  have hne : (bootState 0x80100000).kmem.freelist ≠ [] := by
    simp only [bootState, ne_eq, List.reverse_eq_nil_iff, pages, List.range'_eq_nil_iff]
    unfold PGROUNDUP PHYSTOP KERNBASE PGSIZE; norm_num
  obtain ⟨r, rest, hfl⟩ := List.exists_cons_of_ne_nil hne
  obtain ⟨st, hst, -, ha⟩ := reachable_cycles hend (reachable_bootState hend) hfl (2 ^ 64)
  refine ⟨st, hst, by rw [ha]; rfl, ?_⟩
  rw [(inv_reachable hend hst).sys_memstat_eq, ha]
  rfl

end Xv6.Kalloc
