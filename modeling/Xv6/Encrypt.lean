import Xv6.Riscv
import Xv6.Lib.Region

/-!
`sys_encrypt` and `sys_decrypt` (`sysproc.c`), with the `copyin` and `copyout` they call
(`vm.c`).

The user memory is the calling process's address space as its page table presents it: the
flags of each mapped virtual page, a byte at each virtual address, which entries of the upper
two levels of the page table are valid, `p->sz`, and the number of pages `kalloc` can still
give. Mapped pages are distinct physical pages (`Vm.Map`), so a byte is named by its virtual
address. `copyin` and `copyout` go a page at a time: the page comes from `walkaddr`, or else
from `vmfault`, which maps a zeroed page below `p->sz`. It takes that page from `kalloc`, and
`mappages`' `walk` takes one more for each page-table page on the way that is missing.

What a user program sees is `view`: the byte a read of an address gives, `0` on a page a
fault would map, nothing where a read kills the process. `vmfault` keeps the view, and a
round of `copyout` changes it only at the bytes it writes. So over the view `copyin` reads,
`copyout` writes a prefix of its source, all of it when it returns `0`, and `sys_encrypt`
writes the XOR of a prefix of the buffer: all of it when it returns `len`, and any part of it
when it returns `-1`. A range succeeds when `kalloc` has the pages its faults take (`need`).
-/

namespace Xv6.Encrypt

open Xv6.Param Xv6.Riscv Xv6.Lib.Region

def ENCRYPT_KEY : UInt8 := 0x5A

/-- The bits of a leaf entry that `copyin` and `copyout` read: `PTE_U` and `PTE_W`. -/
structure PageFlags where
  user : Bool
  writable : Bool
  deriving DecidableEq, Repr

/-- The address space of the calling process. -/
@[ext] structure Space where
  /-- The flags of each mapped virtual page. -/
  flags : ℕ → Option PageFlags
  /-- The byte at each virtual address of a mapped page. -/
  mem : ℕ → UInt8
  /-- Whether entry `i` of the level-2 table is valid: it points to a level-1 table. -/
  tables1 : ℕ → Bool
  /-- Whether entry `j` of the level-1 table under level-2 entry `i` is valid: it points to a
  level-0 table. -/
  tables0 : ℕ × ℕ → Bool
  sz : ℕ
  /-- The pages `kalloc` can still give. -/
  free : ℕ
  sz_le : sz ≤ MAXVA

/-! ## The code -/

def walkaddr (s : Space) (va : ℕ) : Bool :=
  decide (va < MAXVA) &&
    match s.flags (va / PGSIZE) with
    | some f => f.user
    | none => false

/-- One level of `walk(pagetable, va, 1)`: entry `i` is valid, or a page from `kalloc`, which
has `free` pages, becomes the table it points to; `none` when `kalloc` returns `0`. -/
def allocEntry {ι : Type} [DecidableEq ι] (valid : ι → Bool) (i : ι) (free : ℕ) :
    Option ((ι → Bool) × ℕ) :=
  if valid i then some (valid, free)
  else if free = 0 then none
  else some (Function.update valid i true, free - 1)

/-- `walk(pagetable, va, 1)` under `mappages`: through entry `PX(2, va)` of the level-2 table,
then entry `PX(1, va)` of the level-1 table. It returns whether it reached the level-0 table,
and the space with the tables it allocated: a level-1 table stays when the level-0 one cannot
be had. -/
def walkAlloc (s : Space) (va : ℕ) : Bool × Space :=
  match allocEntry s.tables1 (PX 2 va) s.free with
  | none => (false, s)
  | some (t1, free) =>
    match allocEntry s.tables0 (PX 2 va, PX 1 va) free with
    | none => (false, { s with tables1 := t1, free := free })
    | some (t0, free) => (true, { s with tables1 := t1, tables0 := t0, free := free })

/-- `vmfault(pagetable, va, 0)`: below `p->sz`, an unmapped page gets a zeroed page from
`kalloc`, mapped `PTE_W | PTE_U | PTE_R` by `mappages`. It returns whether it mapped the page
(the `0` it returns otherwise is `false`) and the space it leaves: when `mappages` fails, the
page goes back with `kfree`. -/
def vmfault (s : Space) (va : ℕ) : Bool × Space :=
  if s.sz ≤ va then (false, s)
  else
    let va := PGROUNDDOWN va
    if (s.flags (va / PGSIZE)).isSome then (false, s)
    else if s.free = 0 then (false, s)
    else
      match walkAlloc { s with free := s.free - 1 } va with
      | (false, s) => (false, { s with free := s.free + 1 })
      | (true, s) =>
        (true, { s with flags := Function.update s.flags (va / PGSIZE) (some ⟨true, true⟩),
                        mem := setRange s.mem va PGSIZE fun _ => 0 })

/-- The page at `va0` as both copy loops get it: from `walkaddr`, or else from `vmfault`. -/
def fetch (s : Space) (va0 : ℕ) : Bool × Space :=
  if walkaddr s va0 then (true, s) else vmfault s va0

/-- The loop of `copyin(pagetable, dst, srcva, len)`, with `fuel` rounds: `0` and the bytes
copied, or `-1`. -/
def copyinLoop : ℕ → Space → ℕ → ℕ → ℤ × List UInt8 × Space
  | 0, s, _, _ => (0, [], s)
  | fuel + 1, s, srcva, len =>
    if len = 0 then (0, [], s)
    else
      let va0 := PGROUNDDOWN srcva
      match fetch s va0 with
      | (false, s) => (-1, [], s)
      | (true, s) =>
        let n := min (PGSIZE - (srcva - va0)) len
        let bytes := (List.range n).map fun i => s.mem (srcva + i)
        let r := copyinLoop fuel s (va0 + PGSIZE) (len - n)
        (r.1, bytes ++ r.2.1, r.2.2)

def copyin (s : Space) (srcva len : ℕ) : ℤ × List UInt8 × Space := copyinLoop len s srcva len

def pteW (s : Space) (va0 : ℕ) : Bool := ((s.flags (va0 / PGSIZE)).map PageFlags.writable).getD false

/-- The loop of `copyout(pagetable, dstva, src, len)`, with `fuel` rounds: `0`, or `-1`. -/
def copyoutLoop : ℕ → Space → ℕ → List UInt8 → ℤ × Space
  | 0, s, _, _ => (0, s)
  | fuel + 1, s, dstva, src =>
    if src = [] then (0, s)
    else
      let va0 := PGROUNDDOWN dstva
      if MAXVA ≤ va0 then (-1, s)
      else
        match fetch s va0 with
        | (false, s) => (-1, s)
        | (true, s) =>
          if pteW s va0 = false then (-1, s)
          else
            let n := min (PGSIZE - (dstva - va0)) src.length
            copyoutLoop fuel { s with mem := setRange s.mem dstva n fun a => src.getD (a - dstva) 0 }
              (va0 + PGSIZE) (src.drop n)

def copyout (s : Space) (dstva : ℕ) (src : List UInt8) : ℤ × Space :=
  copyoutLoop src.length s dstva src

/-- The loop of `sys_encrypt` over `[addr, addr + len)` with `processed` bytes done and `fuel`
rounds left: a chunk of at most 512 bytes is copied in, XORed with the key, and copied back. -/
def encryptLoop (addr len : ℕ) : ℕ → Space → ℕ → ℤ × Space
  | 0, s, _ => (len, s)
  | fuel + 1, s, processed =>
    if processed < len then
      let chunk := min (len - processed) 512
      let r := copyin s (addr + processed) chunk
      if r.1 < 0 then (-1, r.2.2)
      else
        let w := copyout r.2.2 (addr + processed) (r.2.1.map (· ^^^ ENCRYPT_KEY))
        if w.1 < 0 then (-1, w.2) else encryptLoop addr len fuel w.2 (processed + chunk)
    else (len, s)

def sys_encrypt (s : Space) (addr : ℕ) (len : ℤ) : ℤ × Space :=
  if len ≤ 0 ∨ 4096 < len then (-1, s) else encryptLoop addr len.toNat len.toNat s 0

/-- `sys_decrypt`: XOR is its own inverse, so it is `sys_encrypt`. -/
def sys_decrypt (s : Space) (addr : ℕ) (len : ℤ) : ℤ × Space := sys_encrypt s addr len

/-! ## What a user program sees -/

/-- What a user read of `va` gives: the byte of a mapped user page; `0` on an unmapped page
below `p->sz`, which `vmfault` maps zeroed; nothing otherwise. -/
def view (s : Space) (va : ℕ) : Option UInt8 :=
  if MAXVA ≤ va then none
  else
    match s.flags (va / PGSIZE) with
    | some f => if f.user then some (s.mem va) else none
    | none => if PGROUNDDOWN va < s.sz then some 0 else none

/-- Whether a user write of `va` succeeds: a mapped user page with `PTE_W`, or an unmapped
page below `p->sz`. -/
def writable (s : Space) (va : ℕ) : Bool :=
  decide (va < MAXVA) &&
    match s.flags (va / PGSIZE) with
    | some f => f.user && f.writable
    | none => decide (PGROUNDDOWN va < s.sz)

def unmapped (s : Space) (lo hi : ℕ) : Finset ℕ :=
  (Finset.Ico lo hi).filter fun v => s.flags v = none

/-- The pages `kalloc` gives the faults of `[lo, hi)`: one for each unmapped page, one for each
level-1 table and each level-0 table above them that is missing. -/
def need (s : Space) (lo hi : ℕ) : ℕ :=
  (unmapped s lo hi).card +
    (((unmapped s lo hi).image fun v => PX 2 (v * PGSIZE)).filter
      fun i => s.tables1 i = false).card +
    (((unmapped s lo hi).image fun v => (PX 2 (v * PGSIZE), PX 1 (v * PGSIZE))).filter
      fun j => s.tables0 j = false).card

def readBytes (s : Space) (va n : ℕ) : List UInt8 := (List.range n).map fun i => (view s (va + i)).getD 0

def overwrite (v : ℕ → Option UInt8) (va : ℕ) (bs : List UInt8) : ℕ → Option UInt8 :=
  setRange v va bs.length fun a => some (bs.getD (a - va) 0)

lemma overwrite_nil (v : ℕ → Option UInt8) (va : ℕ) : overwrite v va [] = v := setRange_zero _ _ _

lemma overwrite_append (v : ℕ → Option UInt8) (va : ℕ) (bs bs' : List UInt8) :
    overwrite (overwrite v va bs) (va + bs.length) bs' = overwrite v va (bs ++ bs') := by
  funext a
  simp only [overwrite, setRange, List.length_append]
  by_cases h₁ : va + bs.length ≤ a ∧ a < va + bs.length + bs'.length
  · rw [if_pos h₁, if_pos (by omega), List.getD_append_right _ _ _ _ (by omega), Nat.sub_sub]
  · rw [if_neg h₁]
    by_cases h₂ : va ≤ a ∧ a < va + bs.length
    · rw [if_pos h₂, if_pos (by omega), List.getD_append _ _ _ _ (by omega)]
    · rw [if_neg h₂, if_neg (by omega)]

/-! ## Pages of a space -/

section Pages

variable {s s' : Space} {a : ℕ}

lemma PGROUNDDOWN_of_mod {va : ℕ} (h : va % PGSIZE = 0) : PGROUNDDOWN va = va := by
  unfold PGROUNDDOWN
  exact Nat.div_mul_cancel (Nat.dvd_of_mod_eq_zero h)

lemma view_congr (hf : s'.flags (a / PGSIZE) = s.flags (a / PGSIZE)) (hm : s'.mem a = s.mem a)
    (hsz : s'.sz = s.sz) : view s' a = view s a := by
  simp only [view, hf, hm, hsz]

lemma writable_congr (hf : s'.flags (a / PGSIZE) = s.flags (a / PGSIZE)) (hsz : s'.sz = s.sz) :
    writable s' a = writable s a := by
  simp only [writable, hf, hsz]

lemma view_of_user {f : PageFlags} (ha : a < MAXVA) (hf : s.flags (a / PGSIZE) = some f)
    (hu : f.user = true) : view s a = some (s.mem a) := by
  simp [view, not_le.mpr ha, hf, hu]

lemma view_isSome_of_writable (h : writable s a = true) : (view s a).isSome := by
  simp only [writable, Bool.and_eq_true, decide_eq_true_eq] at h
  obtain ⟨ha, h⟩ := h
  rcases hf : s.flags (a / PGSIZE) with _ | f <;> rw [hf] at h
  · simp [view, not_le.mpr ha, hf, of_decide_eq_true h]
  · simp only [Bool.and_eq_true] at h
    simp [view, not_le.mpr ha, hf, h.1]

lemma lt_MAXVA_of_page {va0 a : ℕ} (hmax : va0 < MAXVA) (ha : a / PGSIZE = va0 / PGSIZE) :
    a < MAXVA := by
  rw [MAXVA_eq] at hmax ⊢
  unfold PGSIZE at ha
  omega

variable (s') in
lemma view_map_zero {va0 : ℕ} (hva : va0 % PGSIZE = 0) (hsz : va0 < s.sz)
    (hnone : s.flags (va0 / PGSIZE) = none)
    (hf : s'.flags = Function.update s.flags (va0 / PGSIZE) (some ⟨true, true⟩))
    (hm : s'.mem = setRange s.mem va0 PGSIZE fun _ => 0) (hs : s'.sz = s.sz) :
    view s' = view s ∧ writable s' = writable s := by
  have hmax : va0 < MAXVA := by have := s.sz_le; omega
  constructor <;> funext a <;> by_cases ha : a / PGSIZE = va0 / PGSIZE
  · -- on the new page a read gave `0` and still does
    have hin : va0 ≤ a ∧ a < va0 + PGSIZE := by unfold PGSIZE at *; omega
    have ha' : a < MAXVA := lt_MAXVA_of_page hmax ha
    have hdown : PGROUNDDOWN a = va0 := by unfold PGROUNDDOWN PGSIZE at *; omega
    simp [view, not_le.mpr ha', ha, hnone, hin, hdown, hsz, hf, hm]
  · have hout : ¬(va0 ≤ a ∧ a < va0 + PGSIZE) := by unfold PGSIZE at *; omega
    exact view_congr (by simp [hf, ha]) (by rw [hm, setRange_of_not_mem hout]) hs
  · have ha' : a < MAXVA := lt_MAXVA_of_page hmax ha
    have hdown : PGROUNDDOWN a = va0 := by unfold PGROUNDDOWN PGSIZE at *; omega
    simp [writable, ha', ha, hnone, hdown, hsz, hf]
  · exact writable_congr (by simp [hf, ha]) hs

lemma card_filter_le_of_update {α : Type} [DecidableEq α] {A B : Finset α} (hAB : A ⊆ B)
    {p q : α → Bool} (hp : ∀ j, p j = true → q j = true) {a : α} (ha : a ∈ B)
    (hpa : q a = true) :
    (A.filter fun j => q j = false).card + (if p a = false then 1 else 0) ≤
      (B.filter fun j => p j = false).card := by
  have hsub : A.filter (fun j => q j = false) ⊆ B.filter fun j => p j = false := by
    intro j hj
    rw [Finset.mem_filter] at hj ⊢
    refine ⟨hAB hj.1, ?_⟩
    cases h : p j
    · rfl
    · simp [hp j h] at hj
  split_ifs with hpa'
  · have hmem : a ∈ B.filter fun j => p j = false := Finset.mem_filter.mpr ⟨ha, hpa'⟩
    -- `a` is among those of `B`, and not among those of `A`
    have hsub' : A.filter (fun j => q j = false) ⊆ (B.filter fun j => p j = false).erase a := by
      intro j hj
      refine Finset.mem_erase.mpr ⟨fun he => ?_, hsub hj⟩
      subst he
      simp [hpa] at hj
    have h₁ := Finset.card_le_card hsub'
    rw [Finset.card_erase_of_mem hmem] at h₁
    have h₂ := Finset.card_pos.mpr ⟨a, hmem⟩
    omega
  · simpa using Finset.card_le_card hsub

variable {lo hi v : ℕ}

lemma mem_unmapped (hv : lo ≤ v ∧ v < hi) (hn : s.flags v = none) : v ∈ unmapped s lo hi := by
  simp [unmapped, hv.1, hv.2, hn]

variable (s') in
/-- **Mapping an unmapped page of `[lo, hi)`**, with the tables above it in place, takes off
what the range needs one page and each table it lacked. -/
lemma need_map (hv : lo ≤ v ∧ v < hi) (hn : s.flags v = none) {f : PageFlags}
    (hf : s'.flags = Function.update s.flags v (some f))
    (h1 : ∀ i, s.tables1 i = true → s'.tables1 i = true)
    (h1v : s'.tables1 (PX 2 (v * PGSIZE)) = true)
    (h0 : ∀ j, s.tables0 j = true → s'.tables0 j = true)
    (h0v : s'.tables0 (PX 2 (v * PGSIZE), PX 1 (v * PGSIZE)) = true) :
    need s' lo hi + (1 + (if s.tables1 (PX 2 (v * PGSIZE)) = false then 1 else 0) +
      (if s.tables0 (PX 2 (v * PGSIZE), PX 1 (v * PGSIZE)) = false then 1 else 0)) ≤
      need s lo hi := by
  have hU : unmapped s' lo hi = (unmapped s lo hi).erase v := by
    ext w
    simp only [unmapped, Finset.mem_filter, Finset.mem_erase, hf]
    by_cases hw : w = v
    · subst hw
      simp
    · simp [hw]
  have hvU := mem_unmapped hv hn
  have hsub : unmapped s' lo hi ⊆ unmapped s lo hi := hU ▸ Finset.erase_subset _ _
  have hc : (unmapped s' lo hi).card + 1 = (unmapped s lo hi).card := by
    rw [hU, Finset.card_erase_add_one hvU]
  have hc1 := card_filter_le_of_update (Finset.image_subset_image hsub) h1
    (Finset.mem_image_of_mem (fun v => PX 2 (v * PGSIZE)) hvU) h1v
  have hc0 := card_filter_le_of_update (Finset.image_subset_image hsub) h0
    (Finset.mem_image_of_mem (fun v => (PX 2 (v * PGSIZE), PX 1 (v * PGSIZE))) hvU) h0v
  unfold need
  omega

variable (s') in
lemma need_table1 (hv : lo ≤ v ∧ v < hi) (hn : s.flags v = none) (hf : s'.flags = s.flags)
    (h1 : s'.tables1 = Function.update s.tables1 (PX 2 (v * PGSIZE)) true)
    (h0 : s'.tables0 = s.tables0) :
    need s' lo hi + (if s.tables1 (PX 2 (v * PGSIZE)) = false then 1 else 0) ≤ need s lo hi := by
  have hU : unmapped s' lo hi = unmapped s lo hi := by simp [unmapped, hf]
  have hc1 := card_filter_le_of_update (subset_refl _) (p := s.tables1) (q := s'.tables1)
    (fun i hi' => by rw [h1]; by_cases he : i = PX 2 (v * PGSIZE) <;> simp [he, hi'])
    (Finset.mem_image_of_mem (fun v => PX 2 (v * PGSIZE)) (mem_unmapped hv hn)) (by simp [h1])
  unfold need
  rw [hU, h0]
  omega

lemma cost_le_need (hv : lo ≤ v ∧ v < hi) (hn : s.flags v = none) :
    1 + (if s.tables1 (PX 2 (v * PGSIZE)) = false then 1 else 0) +
      (if s.tables0 (PX 2 (v * PGSIZE), PX 1 (v * PGSIZE)) = false then 1 else 0) ≤
      need s lo hi := by
  have hvU := mem_unmapped hv hn
  have hc := Finset.card_pos.mpr ⟨v, hvU⟩
  have hc1 := card_filter_le_of_update (Finset.empty_subset _) (p := s.tables1)
    (q := Function.update s.tables1 (PX 2 (v * PGSIZE)) true)
    (fun i hi' => by by_cases he : i = PX 2 (v * PGSIZE) <;> simp [he, hi'])
    (Finset.mem_image_of_mem (fun v => PX 2 (v * PGSIZE)) hvU) (by simp)
  have hc0 := card_filter_le_of_update (Finset.empty_subset _) (p := s.tables0)
    (q := Function.update s.tables0 (PX 2 (v * PGSIZE), PX 1 (v * PGSIZE)) true)
    (fun j hj => by by_cases he : j = (PX 2 (v * PGSIZE), PX 1 (v * PGSIZE)) <;> simp [he, hj])
    (Finset.mem_image_of_mem (fun v => (PX 2 (v * PGSIZE), PX 1 (v * PGSIZE))) hvU) (by simp)
  unfold need
  simp only [Finset.filter_empty, Finset.card_empty, zero_add] at hc1 hc0
  omega

end Pages

/-! ## What a copy leaves -/

/-- What a copy from the space `s` leaves in `s'`: the view of `s` with `bs` written from
`va`, the same writable bytes and size; and if `kalloc` had the pages the faults of `[lo, hi)`
take in `s`, it still has them in `s'`. -/
structure Wrote (lo hi : ℕ) (s : Space) (va : ℕ) (bs : List UInt8) (s' : Space) : Prop where
  view_eq : view s' = overwrite (view s) va bs
  writable_eq : writable s' = writable s
  sz_eq : s'.sz = s.sz
  afford : need s lo hi ≤ s.free → need s' lo hi ≤ s'.free

namespace Wrote

variable {lo hi : ℕ} {s₁ s₂ s₃ : Space} {va : ℕ} {bs bs' : List UInt8}

lemma refl (lo hi : ℕ) (s : Space) (va : ℕ) : Wrote lo hi s va [] s :=
  ⟨(overwrite_nil _ _).symm, rfl, rfl, id⟩

lemma trans (h₁ : Wrote lo hi s₁ va bs s₂) (h₂ : Wrote lo hi s₂ (va + bs.length) bs' s₃) :
    Wrote lo hi s₁ va (bs ++ bs') s₃ where
  view_eq := by rw [h₂.view_eq, h₁.view_eq, overwrite_append]
  writable_eq := h₂.writable_eq.trans h₁.writable_eq
  sz_eq := h₂.sz_eq.trans h₁.sz_eq
  afford := h₂.afford ∘ h₁.afford

lemma nil_trans (h₁ : Wrote lo hi s₁ va [] s₂) (h₂ : Wrote lo hi s₂ va bs s₃) :
    Wrote lo hi s₁ va bs s₃ := by
  have h₂' : Wrote lo hi s₂ (va + ([] : List UInt8).length) bs s₃ := by simpa using h₂
  simpa using h₁.trans h₂'

end Wrote

/-! ## Fetching a page -/

section Fetch

variable {s s' t : Space} {va va0 lo hi : ℕ}

lemma allocEntry_some {ι : Type} [DecidableEq ι] {valid valid' : ι → Bool} {i : ι}
    {free free' : ℕ} (h : allocEntry valid i free = some (valid', free')) :
    valid' = Function.update valid i true ∧ free' + (if valid i = false then 1 else 0) = free := by
  unfold allocEntry at h
  split_ifs at h with hv hf <;> cases h
  · exact ⟨(Function.update_eq_self_iff.mpr hv.symm).symm, by simp [hv]⟩
  · exact ⟨rfl, by simp at hv; simp [hv]; omega⟩

lemma allocEntry_none {ι : Type} [DecidableEq ι] {valid : ι → Bool} {i : ι} {free : ℕ}
    (h : allocEntry valid i free = none) : valid i = false ∧ free = 0 := by
  unfold allocEntry at h
  split_ifs at h with hv hf
  exact ⟨by simpa using hv, hf⟩

lemma walkAlloc_true (h : walkAlloc s va = (true, t)) :
    t.flags = s.flags ∧ t.mem = s.mem ∧ t.sz = s.sz ∧
      t.tables1 = Function.update s.tables1 (PX 2 va) true ∧
      t.tables0 = Function.update s.tables0 (PX 2 va, PX 1 va) true ∧
      t.free + (if s.tables1 (PX 2 va) = false then 1 else 0) +
        (if s.tables0 (PX 2 va, PX 1 va) = false then 1 else 0) = s.free := by
  unfold walkAlloc at h
  rcases h₁ : allocEntry s.tables1 (PX 2 va) s.free with _ | ⟨t1, f1⟩ <;> rw [h₁] at h <;>
    dsimp only at h
  · cases h
  rcases h₀ : allocEntry s.tables0 (PX 2 va, PX 1 va) f1 with _ | ⟨t0, f0⟩ <;> rw [h₀] at h <;>
    dsimp only at h
  · cases h
  obtain ⟨-, rfl⟩ := Prod.mk.inj h
  obtain ⟨rfl, hf1⟩ := allocEntry_some h₁
  obtain ⟨rfl, hf0⟩ := allocEntry_some h₀
  exact ⟨rfl, rfl, rfl, rfl, rfl, by dsimp only; omega⟩

/-- What `walkAlloc` that failed did: nothing, or it allocated a level-1 table and `kalloc` had
no page left for the level-0 one. -/
lemma walkAlloc_false (h : walkAlloc s va = (false, t)) :
    t = s ∨ (s.tables1 (PX 2 va) = false ∧ 0 < s.free ∧
      t = { s with tables1 := Function.update s.tables1 (PX 2 va) true, free := s.free - 1 }) := by
  unfold walkAlloc at h
  rcases h₁ : allocEntry s.tables1 (PX 2 va) s.free with _ | ⟨t1, f1⟩ <;> rw [h₁] at h <;>
    dsimp only at h
  · exact .inl (Prod.mk.inj h).2.symm
  rcases h₀ : allocEntry s.tables0 (PX 2 va, PX 1 va) f1 with _ | ⟨t0, f0⟩ <;> rw [h₀] at h <;>
    dsimp only at h
  · obtain ⟨-, rfl⟩ := Prod.mk.inj h
    obtain ⟨rfl, hf1⟩ := allocEntry_some h₁
    cases hv : s.tables1 (PX 2 va)
    · -- the level-1 table was allocated
      simp only [hv, if_true] at hf1
      exact .inr ⟨rfl, by omega, by ext <;> simp; omega⟩
    · have hu : Function.update s.tables1 (PX 2 va) true = s.tables1 :=
        Function.update_eq_self_iff.mpr hv.symm
      simp [hv] at hf1
      exact .inl (by ext <;> simp [hu]; omega)
  · cases h

lemma walkAlloc_of_free
    (h : (if s.tables1 (PX 2 va) = false then 1 else 0) +
      (if s.tables0 (PX 2 va, PX 1 va) = false then 1 else 0) ≤ s.free) :
    (walkAlloc s va).1 = true := by
  unfold walkAlloc
  rcases h₁ : allocEntry s.tables1 (PX 2 va) s.free with _ | ⟨t1, f1⟩
  · obtain ⟨hv, hf⟩ := allocEntry_none h₁
    simp [hv, hf] at h
  obtain ⟨-, hf1⟩ := allocEntry_some h₁
  dsimp only
  rcases h₀ : allocEntry s.tables0 (PX 2 va, PX 1 va) f1 with _ | ⟨t0, f0⟩
  · obtain ⟨hv, hf⟩ := allocEntry_none h₀
    simp only [hv, if_true] at h
    omega
  · rfl

lemma vmfault_true (h : vmfault s va = (true, s')) :
    va < s.sz ∧ s.flags (PGROUNDDOWN va / PGSIZE) = none ∧ 0 < s.free ∧
      ∃ t, walkAlloc { s with free := s.free - 1 } (PGROUNDDOWN va) = (true, t) ∧
        s' = { t with flags := Function.update t.flags (PGROUNDDOWN va / PGSIZE) (some ⟨true, true⟩),
                      mem := setRange t.mem (PGROUNDDOWN va) PGSIZE fun _ => 0 } := by
  unfold vmfault at h
  dsimp only at h
  split_ifs at h with hsz hmap hfree
  · cases h
  · cases h
  · cases h
  rcases hw : walkAlloc { s with free := s.free - 1 } (PGROUNDDOWN va) with ⟨_ | _, t⟩ <;>
    rw [hw] at h <;> dsimp only at h
  · cases h
  · exact ⟨by omega, by simpa using hmap, by omega, t, rfl, (Prod.mk.inj h).2.symm⟩

/-- What `vmfault` that did not map the page did: nothing, or `walk` kept a level-1 table above
an unmapped page below `p->sz`. -/
lemma vmfault_false (h : vmfault s va = (false, s')) :
    s' = s ∨ (va < s.sz ∧ s.flags (PGROUNDDOWN va / PGSIZE) = none ∧
      s.tables1 (PX 2 (PGROUNDDOWN va)) = false ∧
      s' = { s with tables1 := Function.update s.tables1 (PX 2 (PGROUNDDOWN va)) true,
                    free := s.free - 1 }) := by
  unfold vmfault at h
  dsimp only at h
  split_ifs at h with hsz hmap hfree
  · exact .inl (Prod.mk.inj h).2.symm
  · exact .inl (Prod.mk.inj h).2.symm
  · exact .inl (Prod.mk.inj h).2.symm
  rcases hw : walkAlloc { s with free := s.free - 1 } (PGROUNDDOWN va) with ⟨_ | _, t⟩ <;>
    rw [hw] at h <;> dsimp only at h
  · obtain ⟨-, rfl⟩ := Prod.mk.inj h
    rcases walkAlloc_false hw with rfl | ⟨h1, hpos, rfl⟩
    · -- `kfree` gives the page back
      exact .inl (by ext <;> simp; omega)
    · dsimp only at hpos
      exact .inr ⟨by omega, by simpa using hmap, h1, by ext <;> simp; omega⟩
  · cases h

/-- A page `fetch` gives is a mapped user page below `MAXVA`, and the space reads and writes
as before: `vmfault` maps a zeroed page where a read gave `0`. -/
lemma fetch_true (h : fetch s va0 = (true, s')) (hva : va0 % PGSIZE = 0)
    (hv : lo ≤ va0 / PGSIZE ∧ va0 / PGSIZE < hi) :
    Wrote lo hi s va0 [] s' ∧ va0 < MAXVA ∧ ∃ f, s'.flags (va0 / PGSIZE) = some f ∧ f.user = true := by
  unfold fetch at h
  split_ifs at h with hw
  · cases h
    simp only [walkaddr, Bool.and_eq_true, decide_eq_true_eq] at hw
    obtain ⟨hmax, hw⟩ := hw
    refine ⟨Wrote.refl lo hi s va0, hmax, ?_⟩
    rcases hf : s.flags (va0 / PGSIZE) with _ | f <;> rw [hf] at hw
    · cases hw
    · exact ⟨f, rfl, hw⟩
  obtain ⟨hsz, hnone, hfree, t, ht, rfl⟩ := vmfault_true h
  rw [PGROUNDDOWN_of_mod hva] at hnone ht ⊢
  obtain ⟨hf, hm, hs, h1, h0, hc⟩ := walkAlloc_true ht
  have hmax : va0 < MAXVA := by have := s.sz_le; omega
  have hpage : va0 / PGSIZE * PGSIZE = va0 := PGROUNDDOWN_of_mod hva
  obtain ⟨hview, hwr⟩ := view_map_zero { t with
      flags := Function.update t.flags (va0 / PGSIZE) (some ⟨true, true⟩),
      mem := setRange t.mem va0 PGSIZE fun _ => 0 } hva hsz hnone (by simp [hf])
    (by simp [hm]) hs
  refine ⟨⟨by rw [hview, overwrite_nil], hwr, hs, fun hn => ?_⟩, hmax, ⟨true, true⟩, by simp, rfl⟩
  -- the fault took a page and the tables it allocated, which the range no longer needs
  have hneed := need_map { t with
      flags := Function.update t.flags (va0 / PGSIZE) (some ⟨true, true⟩),
      mem := setRange t.mem va0 PGSIZE fun _ => 0 } hv hnone (f := ⟨true, true⟩)
    (by simp [hf]) (fun i hi => by simp only [h1]; by_cases he : i = PX 2 va0 <;> simp [he, hi])
    (by simp [h1, hpage])
    (fun j hj => by simp only [h0]; by_cases he : j = (PX 2 va0, PX 1 va0) <;> simp [he, hj])
    (by simp [h0, hpage])
  simp only [hpage] at hneed hc
  dsimp only at hc ⊢
  omega

/-- `fetch` that found no page left what a user program sees, and what `kalloc` can give the
range: a level-1 table it allocated is one the range needed. -/
lemma fetch_false (h : fetch s va0 = (false, s')) (hva : va0 % PGSIZE = 0)
    (hv : lo ≤ va0 / PGSIZE ∧ va0 / PGSIZE < hi) : Wrote lo hi s va0 [] s' := by
  unfold fetch at h
  split_ifs at h with hw
  · cases h
  rcases vmfault_false h with rfl | ⟨-, hnone, h1, rfl⟩
  · exact Wrote.refl lo hi _ va0
  rw [PGROUNDDOWN_of_mod hva] at hnone h1 ⊢
  have hpage : va0 / PGSIZE * PGSIZE = va0 := PGROUNDDOWN_of_mod hva
  refine ⟨by rw [overwrite_nil]; funext a; exact view_congr rfl rfl rfl,
    funext fun a => writable_congr rfl rfl, rfl, fun hn => ?_⟩
  have hneed := need_table1 { s with
      tables1 := Function.update s.tables1 (PX 2 va0) true, free := s.free - 1 } hv hnone rfl
    (by simp [hpage]) rfl
  have hpos := cost_le_need hv hnone
  simp only [hpage, h1, if_true] at hneed hpos
  dsimp only
  omega

lemma fetch_true_of (hva : va0 % PGSIZE = 0) (hr : (view s va0).isSome)
    (hv : lo ≤ va0 / PGSIZE ∧ va0 / PGSIZE < hi) (hn : need s lo hi ≤ s.free) :
    (fetch s va0).1 = true := by
  have hmax : va0 < MAXVA := by
    by_contra hm
    simp [view, not_lt.mp hm] at hr
  rw [view, if_neg (not_le.mpr hmax)] at hr
  rcases hf : s.flags (va0 / PGSIZE) with _ | f <;> rw [hf] at hr <;> simp only at hr
  · -- an unmapped page below `p->sz`, and the pages its fault takes
    have hsz : va0 < s.sz := by
      rw [PGROUNDDOWN_of_mod hva] at hr
      by_contra h
      simp [h] at hr
    have hpage : va0 / PGSIZE * PGSIZE = va0 := PGROUNDDOWN_of_mod hva
    have hcost := cost_le_need hv hf
    rw [hpage] at hcost
    have hw : walkaddr s va0 = false := by simp [walkaddr, hf]
    have hwalk : (walkAlloc { s with free := s.free - 1 } va0).1 = true :=
      walkAlloc_of_free (by dsimp only; omega)
    unfold fetch vmfault
    rw [if_neg (by simp [hw]), if_neg (not_le.mpr hsz), PGROUNDDOWN_of_mod hva, if_neg (by simp [hf]),
      if_neg (by omega)]
    rcases hwa : walkAlloc { s with free := s.free - 1 } va0 with ⟨_ | _, t⟩
    · rw [hwa] at hwalk
      cases hwalk
    · rfl
  · have hu : f.user = true := by
      cases hu : f.user
      · simp [hu] at hr
      · rfl
    have hw : walkaddr s va0 = true := by simp [walkaddr, hf, hu, hmax]
    simp [fetch, hw]

end Fetch

/-! ## A round of a copy loop -/

def InPages (lo hi va n : ℕ) : Prop := 0 < n → lo ≤ va / PGSIZE ∧ (va + n - 1) / PGSIZE < hi

lemma page_round (va len : ℕ) (hlen : 0 < len) :
    let va0 := PGROUNDDOWN va
    let n := min (PGSIZE - (va - va0)) len
    0 < n ∧ n ≤ len ∧ va0 % PGSIZE = 0 ∧ va0 / PGSIZE = va / PGSIZE ∧
      (∀ i < n, (va + i) / PGSIZE = va0 / PGSIZE) ∧ (len - n = 0 ∨ va0 + PGSIZE = va + n) ∧
      (va0 + PGSIZE) / PGSIZE = va / PGSIZE + 1 := by
  intro va0 n
  simp only [va0, n, PGROUNDDOWN, PGSIZE]
  refine ⟨by omega, by omega, by omega, by omega, fun i hi => by omega, by omega, by omega⟩

lemma inPages_page {lo hi va len : ℕ} (h : InPages lo hi va len) (hlen : 0 < len) :
    lo ≤ PGROUNDDOWN va / PGSIZE ∧ PGROUNDDOWN va / PGSIZE < hi := by
  obtain ⟨h1, h2⟩ := h hlen
  unfold PGROUNDDOWN PGSIZE at *
  omega

lemma inPages_rest {lo hi va len : ℕ} (h : InPages lo hi va len) (hlen : 0 < len) :
    InPages lo hi (PGROUNDDOWN va + PGSIZE) (len - min (PGSIZE - (va - PGROUNDDOWN va)) len) := by
  obtain ⟨-, -, -, -, -, hnext, hpage⟩ := page_round va len hlen
  intro hrest
  obtain ⟨hlo, hhi⟩ := h hlen
  rcases hnext with hz | hnext
  · omega
  · refine ⟨by omega, ?_⟩
    rw [hnext]
    have : va + min (PGSIZE - (va - PGROUNDDOWN va)) len +
        (len - min (PGSIZE - (va - PGROUNDDOWN va)) len) - 1 = va + len - 1 := by omega
    rw [this]
    exact hhi

lemma readBytes_add (s : Space) (va m k : ℕ) :
    readBytes s va (m + k) = readBytes s va m ++ readBytes s (va + m) k := by
  simp only [readBytes, List.range_add, List.map_append, List.map_map]
  congr 2
  funext i
  simp [Nat.add_assoc]

lemma readBytes_congr {s s' : Space} (h : view s' = view s) (va n : ℕ) :
    readBytes s' va n = readBytes s va n := by
  rw [readBytes, readBytes, h]

lemma view_isSome_page {s : Space} {va : ℕ} (h : (view s va).isSome) :
    (view s (PGROUNDDOWN va)).isSome := by
  have hmax : va < MAXVA := by
    by_contra hm
    simp [view, not_lt.mp hm] at h
  have hdiv : PGROUNDDOWN va / PGSIZE = va / PGSIZE := by unfold PGROUNDDOWN PGSIZE; omega
  have hdown : PGROUNDDOWN (PGROUNDDOWN va) = PGROUNDDOWN va := by
    unfold PGROUNDDOWN PGSIZE; omega
  have hmax' : PGROUNDDOWN va < MAXVA := by unfold PGROUNDDOWN PGSIZE; omega
  simp only [view, not_le.mpr hmax, not_le.mpr hmax', if_false, hdiv, hdown] at h ⊢
  rcases hf : s.flags (va / PGSIZE) with _ | f <;> simp only [hf] at h ⊢
  · exact h
  · split_ifs at h ⊢ <;> first | rfl | cases h

namespace Wrote

variable {lo hi : ℕ} {s₁ s₂ s₃ : Space} {va va' : ℕ}

lemma nil_nil (h₁ : Wrote lo hi s₁ va [] s₂) (h₂ : Wrote lo hi s₂ va' [] s₃) (va'' : ℕ) :
    Wrote lo hi s₁ va'' [] s₃ :=
  ⟨by rw [h₂.view_eq, h₁.view_eq, overwrite_nil, overwrite_nil, overwrite_nil],
    h₂.writable_eq.trans h₁.writable_eq, h₂.sz_eq.trans h₁.sz_eq, h₂.afford ∘ h₁.afford⟩

end Wrote

/-! ## `copyin` -/

/-- **`copyin` reads the view, and only where it can be read.** It keeps what a user program
sees; it returns `0` with the bytes of `[srcva, srcva + len)`, every one of which a user read
gives, or `-1`; and it returns `0` when every byte can be read and `kalloc` can map the
unmapped pages. -/
lemma copyinLoop_exact (fuel : ℕ) (s : Space) (srcva len lo hi : ℕ) (hfuel : len ≤ fuel)
    (hp : InPages lo hi srcva len) :
    Wrote lo hi s srcva [] (copyinLoop fuel s srcva len).2.2 ∧
      ((copyinLoop fuel s srcva len).1 = 0 ∧
          (copyinLoop fuel s srcva len).2.1 = readBytes s srcva len ∧
          (∀ a, srcva ≤ a → a < srcva + len → (view s a).isSome) ∨
        (copyinLoop fuel s srcva len).1 = -1) ∧
      ((∀ a, srcva ≤ a → a < srcva + len → (view s a).isSome) → need s lo hi ≤ s.free →
        (copyinLoop fuel s srcva len).1 = 0) := by
  induction fuel generalizing s srcva len with
  | zero =>
    obtain rfl : len = 0 := by omega
    exact ⟨Wrote.refl lo hi s srcva, .inl ⟨rfl, rfl, fun _ h₁ h₂ => by omega⟩, fun _ _ => rfl⟩
  | succ fuel ih =>
    by_cases hlen : len = 0
    · subst hlen
      simp only [copyinLoop]
      exact ⟨Wrote.refl lo hi s srcva, .inl ⟨rfl, rfl, fun _ h₁ h₂ => by omega⟩, fun _ _ => rfl⟩
    obtain ⟨hn0, hnlen, hva, -, hin, hnext, -⟩ := page_round srcva len (by omega)
    have hv := inPages_page hp (by omega)
    rcases hf : fetch s (PGROUNDDOWN srcva) with ⟨_ | _, s'⟩
    · -- no page: `-1`, and nothing read
      have e : copyinLoop (fuel + 1) s srcva len = (-1, [], s') := by
        simp only [copyinLoop, if_neg hlen, hf]
      rw [e]
      refine ⟨(fetch_false hf hva hv).nil_nil (Wrote.refl lo hi s' 0) srcva, .inr rfl,
        fun hr hn => ?_⟩
      have := fetch_true_of hva (view_isSome_page (hr srcva le_rfl (by omega))) hv hn
      simp [hf] at this
    obtain ⟨hw, hmax, f, hff, hu⟩ := fetch_true hf hva hv
    have hs' : view s' = view s := by rw [hw.view_eq, overwrite_nil]
    set n := min (PGSIZE - (srcva - PGROUNDDOWN srcva)) len with hn
    set r := copyinLoop fuel s' (PGROUNDDOWN srcva + PGSIZE) (len - n)
    have e : copyinLoop (fuel + 1) s srcva len =
        (r.1, (List.range n).map (fun i => s'.mem (srcva + i)) ++ r.2.1, r.2.2) := by
      simp only [copyinLoop, if_neg hlen, hf]
      rfl
    rw [e]
    obtain ⟨hw', hret, hsucc⟩ := ih s' (PGROUNDDOWN srcva + PGSIZE) (len - n) (by omega)
      (inPages_rest hp (by omega))
    refine ⟨hw.nil_nil hw' srcva, ?_, fun hr hn => hsucc (fun a ha ha' => ?_) (hw.afford hn)⟩
    · rcases hret with ⟨hr0, hbytes, hread⟩ | hr1
      · -- the bytes of the page, then those of the rest
        refine .inl ⟨hr0, ?_, fun a ha ha' => ?_⟩
        have hpage : (List.range n).map (fun i => s'.mem (srcva + i)) = readBytes s srcva n := by
          rw [← readBytes_congr hs', readBytes]
          refine List.map_congr_left fun i hi => ?_
          have hi' := hin i (List.mem_range.mp hi)
          have hmax' : srcva + i < MAXVA := lt_MAXVA_of_page hmax hi'
          rw [view_of_user hmax' (by rw [hi']; exact hff) hu]
          rfl
        rw [hbytes, readBytes_congr hs', hpage]
        conv_rhs => rw [show len = n + (len - n) by omega, readBytes_add]
        rcases hnext with hz | hnext
        · rw [hz]
          rfl
        · rw [hnext]
        by_cases hpage : a < srcva + n
        · have hi' := hin (a - srcva) (by omega)
          rw [show srcva + (a - srcva) = a by omega] at hi'
          have hmax' : a < MAXVA := lt_MAXVA_of_page hmax hi'
          rw [← hs', view_of_user hmax' (by rw [hi']; exact hff) hu]
          rfl
        · rcases hnext with hz | hnext
          · omega
          · rw [← hs']
            exact hread a (by omega) (by omega)
      · exact .inr hr1
    · rw [hs']
      exact hr a (by omega) (by omega)

lemma copyinLoop_spec (fuel : ℕ) (s : Space) (srcva len lo hi : ℕ) (hfuel : len ≤ fuel)
    (hp : InPages lo hi srcva len) :
    Wrote lo hi s srcva [] (copyinLoop fuel s srcva len).2.2 ∧
      ((copyinLoop fuel s srcva len).1 = 0 ∧
          (copyinLoop fuel s srcva len).2.1 = readBytes s srcva len ∨
        (copyinLoop fuel s srcva len).1 = -1) ∧
      ((∀ a, srcva ≤ a → a < srcva + len → (view s a).isSome) → need s lo hi ≤ s.free →
        (copyinLoop fuel s srcva len).1 = 0) := by
  obtain ⟨hw, hret, hsucc⟩ := copyinLoop_exact fuel s srcva len lo hi hfuel hp
  exact ⟨hw, hret.imp (fun h => ⟨h.1, h.2.1⟩) id, hsucc⟩

/-! ## `copyout` -/

lemma wrote_setRange {s : Space} {dstva n : ℕ} {src : List UInt8} {f : PageFlags} (lo hi : ℕ)
    (hff : ∀ i < n, s.flags ((dstva + i) / PGSIZE) = some f) (hu : f.user = true)
    (hmax : dstva + n ≤ MAXVA) (hn : n ≤ src.length) :
    Wrote lo hi s dstva (src.take n)
      { s with mem := setRange s.mem dstva n fun a => src.getD (a - dstva) 0 } := by
  refine ⟨?_, rfl, rfl, id⟩
  funext a
  unfold overwrite
  rw [List.length_take_of_le hn]
  by_cases ha : dstva ≤ a ∧ a < dstva + n
  · -- a byte of the page that the round writes
    have hf := hff (a - dstva) (by omega)
    rw [show dstva + (a - dstva) = a by omega] at hf
    rw [view_of_user (s := { s with mem := setRange s.mem dstva n fun a => src.getD (a - dstva) 0 })
      (by omega) hf hu, setRange_of_mem ha]
    dsimp only
    rw [setRange_of_mem ha]
    simp [List.getD_eq_getElem?_getD, show a - dstva < n by omega]
  · rw [setRange_of_not_mem ha]
    have hm : setRange s.mem dstva n (fun a => src.getD (a - dstva) 0) a = s.mem a :=
      setRange_of_not_mem ha
    exact view_congr rfl hm rfl

/-- What `copyout` of `src` to `dstva` from `s` may end in, with the result `r`: the view with
the first `k` bytes of `src` written from `dstva`; all of them when it returns `0`, every byte of
`[dstva, dstva + |src|)` being writable; fewer, ending where a page begins, when it returns `-1`;
and `0` when every byte of the range is writable and `kalloc` can map the unmapped pages. -/
def CopiedOut (lo hi : ℕ) (s : Space) (dstva : ℕ) (src : List UInt8) (r : ℤ × Space) : Prop :=
  ∃ k ≤ src.length, Wrote lo hi s dstva (src.take k) r.2 ∧
    (r.1 = 0 ∧ k = src.length ∧ (∀ a, dstva ≤ a → a < dstva + src.length → writable s a) ∨
      r.1 = -1 ∧ k < src.length ∧ (k = 0 ∨ (dstva + k) % PGSIZE = 0)) ∧
    ((∀ a, dstva ≤ a → a < dstva + src.length → writable s a) → need s lo hi ≤ s.free → r.1 = 0)

lemma CopiedOut.nil (lo hi : ℕ) (s : Space) (dstva : ℕ) : CopiedOut lo hi s dstva [] (0, s) :=
  ⟨0, le_rfl, Wrote.refl lo hi s dstva, .inl ⟨rfl, rfl, fun _ h₁ h₂ => by simp at h₂; omega⟩,
    fun _ _ => rfl⟩

/-- A round that fails before it writes, where the call could not have succeeded. -/
lemma CopiedOut.fail {lo hi : ℕ} {s s' : Space} {dstva : ℕ} {src : List UInt8}
    (hlen : 0 < src.length) (hw : Wrote lo hi s dstva [] s')
    (hno : (∀ a, dstva ≤ a → a < dstva + src.length → writable s a) → need s lo hi ≤ s.free →
      False) :
    CopiedOut lo hi s dstva src (-1, s') :=
  ⟨0, Nat.zero_le _, hw, .inr ⟨rfl, hlen, .inl rfl⟩, fun hwr hn => (hno hwr hn).elim⟩

/-- **`copyout` writes a prefix of its source, up to a page it cannot write.** -/
lemma copyoutLoop_exact (fuel : ℕ) (s : Space) (dstva : ℕ) (src : List UInt8) (lo hi : ℕ)
    (hfuel : src.length ≤ fuel) (hp : InPages lo hi dstva src.length) :
    CopiedOut lo hi s dstva src (copyoutLoop fuel s dstva src) := by
  induction fuel generalizing s dstva src with
  | zero =>
    obtain rfl : src = [] := List.eq_nil_of_length_eq_zero (by omega)
    exact CopiedOut.nil lo hi s dstva
  | succ fuel ih =>
    by_cases hsrc : src = []
    · subst hsrc
      exact CopiedOut.nil lo hi s dstva
    have hlen : 0 < src.length := List.length_pos_of_ne_nil hsrc
    obtain ⟨hn0, hnlen, hva, hdiv, hin, hnext, -⟩ := page_round dstva src.length hlen
    have hv := inPages_page hp hlen
    have hw0 : ∀ {a}, dstva ≤ a → a < dstva + src.length → writable s a = true →
        a < MAXVA := by
      intro a _ _ h
      simp only [writable, Bool.and_eq_true, decide_eq_true_eq] at h
      exact h.1
    by_cases hmaxva : MAXVA ≤ PGROUNDDOWN dstva
    · rw [show copyoutLoop (fuel + 1) s dstva src = (-1, s) by
        simp only [copyoutLoop, if_neg hsrc, if_pos hmaxva]]
      refine CopiedOut.fail hlen (Wrote.refl lo hi s dstva) fun hwr _ => ?_
      have := hw0 le_rfl (by omega) (hwr dstva le_rfl (by omega))
      unfold PGROUNDDOWN PGSIZE at hmaxva
      omega
    rcases hf : fetch s (PGROUNDDOWN dstva) with ⟨_ | _, s'⟩
    · rw [show copyoutLoop (fuel + 1) s dstva src = (-1, s') by
        simp only [copyoutLoop, if_neg hsrc, if_neg hmaxva, hf]]
      refine CopiedOut.fail hlen ((fetch_false hf hva hv).nil_nil (Wrote.refl lo hi s' 0) dstva)
        fun hwr hn => ?_
      have := fetch_true_of hva
        (view_isSome_page (view_isSome_of_writable (hwr dstva le_rfl (by omega)))) hv hn
      simp [hf] at this
    obtain ⟨hw, hmax, f, hff, hu⟩ := fetch_true hf hva hv
    have hfw : writable s' dstva = true → f.writable = true := by
      intro h
      simp only [writable, ← hdiv, hff, hu, Bool.true_and, Bool.and_eq_true] at h
      exact h.2
    by_cases hW : pteW s' (PGROUNDDOWN dstva) = false
    · rw [show copyoutLoop (fuel + 1) s dstva src = (-1, s') by
        simp only [copyoutLoop, if_neg hsrc, if_neg hmaxva, hf, hW, if_true]]
      refine CopiedOut.fail hlen (hw.nil_nil (Wrote.refl lo hi s' 0) dstva) fun hwr _ => ?_
      -- a writable page has `PTE_W`
      have h := hfw (by rw [hw.writable_eq]; exact hwr dstva le_rfl (by omega))
      simp [pteW, hff, h] at hW
    set n := min (PGSIZE - (dstva - PGROUNDDOWN dstva)) src.length with hn
    set s'' : Space := { s' with mem := setRange s'.mem dstva n fun a => src.getD (a - dstva) 0 }
    have e : copyoutLoop (fuel + 1) s dstva src =
        copyoutLoop fuel s'' (PGROUNDDOWN dstva + PGSIZE) (src.drop n) := by
      simp only [copyoutLoop, if_neg hsrc, if_neg hmaxva, hf, hW]
      rfl
    rw [e]
    have hwrite : Wrote lo hi s' dstva (src.take n) s'' :=
      wrote_setRange lo hi (fun i hi => by rw [hin i hi]; exact hff) hu
        (by rw [MAXVA_eq] at hmax ⊢; unfold PGROUNDDOWN PGSIZE at *; omega) hnlen
    obtain ⟨k', hk', hw', hret, hsucc⟩ := ih s'' (PGROUNDDOWN dstva + PGSIZE) (src.drop n)
      (by rw [List.length_drop]; omega) (by rw [List.length_drop]; exact inPages_rest hp hlen)
    -- the rest is written from where the page stopped
    have hw'' : Wrote lo hi s'' (dstva + (src.take n).length) ((src.drop n).take k')
        (copyoutLoop fuel s'' (PGROUNDDOWN dstva + PGSIZE) (src.drop n)).2 := by
      rw [List.length_take_of_le hnlen]
      rcases hnext with hz | hnext
      · have hd : src.drop n = [] := List.drop_eq_nil_of_le (by omega)
        rw [hd] at hw' ⊢
        simpa using (Wrote.refl lo hi s'' 0).nil_nil (by simpa using hw') (dstva + n)
      · rwa [← hnext]
    refine ⟨n + k', by rw [List.length_drop] at hk'; omega, ?_, ?_, fun hwr hn => hsucc
      (fun a ha ha' => ?_) (hwrite.afford (hw.afford hn))⟩
    · rw [List.take_add]
      exact (hw.nil_nil (Wrote.refl lo hi s' 0) dstva).nil_trans (hwrite.trans hw'')
    · rw [List.length_drop] at hret
      rcases hret with ⟨hr0, hk, hwr'⟩ | ⟨hr1, hk, hb⟩
      · refine .inl ⟨hr0, by omega, fun a ha ha' => ?_⟩
        rw [← hw.writable_eq]
        by_cases hpage : a < dstva + n
        · -- a byte of the page the round wrote, which has `PTE_W`
          have hi' := hin (a - dstva) (by omega)
          rw [show dstva + (a - dstva) = a by omega] at hi'
          have hmax' : a < MAXVA := lt_MAXVA_of_page hmax hi'
          have hfW : f.writable = true := by simpa [pteW, hff] using hW
          simp [writable, hmax', hi', hff, hu, hfW]
        · rcases hnext with hz | hnext
          · omega
          · rw [← hwrite.writable_eq]
            exact hwr' a (by omega) (by omega)
      · refine .inr ⟨hr1, by omega, .inr ?_⟩
        rcases hnext with hz | hnext
        · omega
        · unfold PGSIZE at *
          omega
    · rw [hwrite.writable_eq, hw.writable_eq]
      rw [List.length_drop] at ha'
      exact hwr a (by omega) (by omega)

lemma copyoutLoop_spec (fuel : ℕ) (s : Space) (dstva : ℕ) (src : List UInt8) (lo hi : ℕ)
    (hfuel : src.length ≤ fuel) (hp : InPages lo hi dstva src.length) :
    ∃ k ≤ src.length, Wrote lo hi s dstva (src.take k) (copyoutLoop fuel s dstva src).2 ∧
      ((copyoutLoop fuel s dstva src).1 = 0 ∧ k = src.length ∨
        (copyoutLoop fuel s dstva src).1 = -1) ∧
      ((∀ a, dstva ≤ a → a < dstva + src.length → writable s a) → need s lo hi ≤ s.free →
        (copyoutLoop fuel s dstva src).1 = 0) := by
  obtain ⟨k, hk, hw, hret, hsucc⟩ := copyoutLoop_exact fuel s dstva src lo hi hfuel hp
  exact ⟨k, hk, hw, hret.imp (fun h => ⟨h.1, h.2.1⟩) (fun h => h.1), hsucc⟩

/-! ## `sys_encrypt` -/

section Chunks

variable {lo hi : ℕ} {s₀ s₁ s₂ s₃ : Space} {addr va : ℕ}

lemma length_readBytes (s : Space) (va n : ℕ) : (readBytes s va n).length = n := by
  simp [readBytes]

lemma take_readBytes (s : Space) (va : ℕ) {k n : ℕ} (h : k ≤ n) :
    (readBytes s va n).take k = readBytes s va k := by
  rw [show n = k + (n - k) by omega, readBytes_add, List.take_left' (length_readBytes s va k)]

lemma readBytes_past {bs : List UInt8} (h : view s₁ = overwrite (view s₀) addr bs)
    (hva : addr + bs.length ≤ va) (n : ℕ) : readBytes s₁ va n = readBytes s₀ va n := by
  unfold readBytes
  refine List.map_congr_left fun i _ => ?_
  rw [h, overwrite, setRange_of_not_mem (by omega)]

lemma inPages_sub {n len : ℕ} (h : InPages lo hi addr len) (hva : addr ≤ va)
    (hn : va + n ≤ addr + len) : InPages lo hi va n := by
  intro hn0
  obtain ⟨h1, h2⟩ := h (by omega)
  unfold PGSIZE at *
  omega

lemma Wrote.trans_nil {bs : List UInt8} (h₁ : Wrote lo hi s₁ va bs s₂)
    (h₂ : Wrote lo hi s₂ addr [] s₃) : Wrote lo hi s₁ va bs s₃ := by
  simpa using h₁.trans ((Wrote.refl lo hi s₂ 0).nil_nil h₂ (va + bs.length))

lemma wrote_chunk {p c k : ℕ}
    (hs : Wrote lo hi s₀ addr ((readBytes s₀ addr p).map (· ^^^ ENCRYPT_KEY)) s₁)
    (hin : Wrote lo hi s₁ (addr + p) [] s₂)
    (hout : Wrote lo hi s₂ (addr + p)
      (((readBytes s₀ (addr + p) c).map (· ^^^ ENCRYPT_KEY)).take k) s₃) (hk : k ≤ c) :
    Wrote lo hi s₀ addr ((readBytes s₀ addr (p + k)).map (· ^^^ ENCRYPT_KEY)) s₃ := by
  rw [readBytes_add, List.map_append, ← take_readBytes s₀ (addr + p) hk, List.map_take]
  refine (hs.trans_nil hin).trans ?_
  rwa [List.length_map, length_readBytes]

end Chunks

/-- **The loop of `sys_encrypt` XORs a prefix of the buffer.** From a space where the first
`p` bytes are XORed, it leaves one where the first `k` are, all of them when it returns
`len`; it returns `len` or `-1`; and it returns `len` when every byte of the buffer is
writable and `kalloc` can map its unmapped pages. -/
lemma encryptLoop_spec (addr len : ℕ) (s₀ : Space) {lo hi : ℕ} (hp : InPages lo hi addr len)
    (fuel : ℕ) (s : Space) (p : ℕ) (hpl : p ≤ len) (hfuel : len - p ≤ fuel)
    (hs : Wrote lo hi s₀ addr ((readBytes s₀ addr p).map (· ^^^ ENCRYPT_KEY)) s) :
    ∃ k ≤ len, Wrote lo hi s₀ addr ((readBytes s₀ addr k).map (· ^^^ ENCRYPT_KEY))
        (encryptLoop addr len fuel s p).2 ∧
      ((encryptLoop addr len fuel s p).1 = len ∧ k = len ∨
        (encryptLoop addr len fuel s p).1 = -1) ∧
      ((∀ a, addr ≤ a → a < addr + len → writable s₀ a) → need s₀ lo hi ≤ s₀.free →
        (encryptLoop addr len fuel s p).1 = len) := by
  induction fuel generalizing s p with
  | zero =>
    obtain rfl : p = len := by omega
    exact ⟨p, le_rfl, hs, .inl ⟨rfl, rfl⟩, fun _ _ => rfl⟩
  | succ fuel ih =>
    by_cases hlt : p < len
    swap
    · obtain rfl : p = len := by omega
      have e : encryptLoop addr p (fuel + 1) s p = ((p : ℤ), s) := by
        simp only [encryptLoop, if_neg hlt]
      rw [e]
      exact ⟨p, le_rfl, hs, .inl ⟨rfl, rfl⟩, fun _ _ => rfl⟩
    obtain ⟨c, hc⟩ : ∃ c, min (len - p) 512 = c := ⟨_, rfl⟩
    -- the chunk is copied in
    obtain ⟨hw1, hret1, hsucc1⟩ := copyinLoop_spec c s (addr + p) c lo hi le_rfl
      (inPages_sub hp (by omega) (by omega))
    have hread : (∀ a, addr ≤ a → a < addr + len → writable s₀ a) → need s₀ lo hi ≤ s₀.free →
        (copyinLoop c s (addr + p) c).1 = 0 := by
      intro hwr hn
      refine hsucc1 (fun a ha ha' => ?_) (hs.afford hn)
      rw [hs.view_eq, overwrite, setRange_of_not_mem (by simp [length_readBytes]; omega)]
      exact view_isSome_of_writable (hwr a (by omega) (by omega))
    by_cases hr : (copyinLoop c s (addr + p) c).1 < 0
    · have e : encryptLoop addr len (fuel + 1) s p = (-1, (copyinLoop c s (addr + p) c).2.2) := by
        simp only [encryptLoop, if_pos hlt, hc, copyin, if_pos hr]
      rw [e]
      refine ⟨p, hpl, hs.trans_nil hw1, .inr rfl, fun hwr hn => ?_⟩
      have := hread hwr hn
      omega
    obtain ⟨hr0, hbytes⟩ : (copyinLoop c s (addr + p) c).1 = 0 ∧
        (copyinLoop c s (addr + p) c).2.1 = readBytes s (addr + p) c := by
      rcases hret1 with h | h
      · exact h
      · exact absurd (by rw [h]; norm_num) hr
    rw [readBytes_past hs.view_eq (by simp [length_readBytes])] at hbytes
    -- the chunk, XORed, is copied back
    obtain ⟨src, hsrc⟩ : ∃ src, (readBytes s₀ (addr + p) c).map (· ^^^ ENCRYPT_KEY) = src :=
      ⟨_, rfl⟩
    have hlen : src.length = c := by simp [← hsrc, length_readBytes]
    obtain ⟨k', hk', hw2, hret2, hsucc2⟩ := copyoutLoop_spec src.length
      (copyinLoop c s (addr + p) c).2.2 (addr + p) src lo hi le_rfl
      (by rw [hlen]; exact inPages_sub hp (by omega) (by omega))
    have hwrite : (∀ a, addr ≤ a → a < addr + len → writable s₀ a) → need s₀ lo hi ≤ s₀.free →
        (copyoutLoop src.length (copyinLoop c s (addr + p) c).2.2 (addr + p) src).1 = 0 := by
      intro hwr hn
      refine hsucc2 (fun a ha ha' => ?_) (hw1.afford (hs.afford hn))
      rw [hw1.writable_eq, hs.writable_eq]
      exact hwr a (by omega) (by omega)
    have hchunk := wrote_chunk hs hw1 (by rw [hsrc]; exact hw2) (by omega)
    by_cases hw : (copyoutLoop src.length (copyinLoop c s (addr + p) c).2.2 (addr + p) src).1 < 0
    · have e : encryptLoop addr len (fuel + 1) s p =
          (-1, (copyoutLoop src.length (copyinLoop c s (addr + p) c).2.2 (addr + p) src).2) := by
        simp only [encryptLoop, if_pos hlt, hc, copyin, if_neg hr, hbytes, hsrc, copyout, if_pos hw]
      rw [e]
      refine ⟨p + k', by omega, hchunk, .inr rfl, fun hwr hn => ?_⟩
      have := hwrite hwr hn
      omega
    -- the whole chunk was written: on to the next
    have hk'c : k' = c := by
      rcases hret2 with ⟨-, h⟩ | h
      · omega
      · exact absurd (by rw [h]; norm_num) hw
    have e : encryptLoop addr len (fuel + 1) s p = encryptLoop addr len fuel
        (copyoutLoop src.length (copyinLoop c s (addr + p) c).2.2 (addr + p) src).2 (p + c) := by
      simp only [encryptLoop, if_pos hlt, hc, copyin, if_neg hr, hbytes, hsrc, copyout, if_neg hw]
    rw [e]
    rw [hk'c] at hchunk
    exact ih _ (p + c) (by omega) (by omega) hchunk

lemma inPages_buffer (addr len : ℕ) :
    InPages (addr / PGSIZE) ((addr + len - 1) / PGSIZE + 1) addr len :=
  fun _ => ⟨le_rfl, Nat.lt_succ_self _⟩

/-- **`sys_encrypt` XORs a prefix of the buffer.** Whatever it returns, a user program then sees
what it saw before with the first `k ≤ len` bytes of the buffer XORed with the key; `k` is
`len` when it returns `len`, and otherwise it returns `-1`. It returns `len` when
`1 ≤ len ≤ 4096`, every byte of the buffer is writable, and `kalloc` can map the unmapped
pages of the buffer. -/
theorem sys_encrypt_spec (s : Space) (addr : ℕ) (len : ℤ) :
    ∃ k ≤ len.toNat, Wrote (addr / PGSIZE) ((addr + len.toNat - 1) / PGSIZE + 1) s addr
        ((readBytes s addr k).map (· ^^^ ENCRYPT_KEY)) (sys_encrypt s addr len).2 ∧
      ((sys_encrypt s addr len).1 = len ∧ k = len.toNat ∨ (sys_encrypt s addr len).1 = -1) ∧
      (1 ≤ len → len ≤ 4096 → (∀ a, addr ≤ a → a < addr + len.toNat → writable s a) →
        need s (addr / PGSIZE) ((addr + len.toNat - 1) / PGSIZE + 1) ≤ s.free →
        (sys_encrypt s addr len).1 = len) := by
  by_cases hbad : len ≤ 0 ∨ 4096 < len
  · have e : sys_encrypt s addr len = (-1, s) := if_pos hbad
    rw [e]
    exact ⟨0, Nat.zero_le _, Wrote.refl _ _ s addr, .inr rfl, fun h1 h2 => by omega⟩
  have e : sys_encrypt s addr len = encryptLoop addr len.toNat len.toNat s 0 := if_neg hbad
  rw [e]
  have hlen : (len.toNat : ℤ) = len := Int.toNat_of_nonneg (by omega)
  obtain ⟨k, hk, hw, hret, hsucc⟩ := encryptLoop_spec addr len.toNat s (inPages_buffer addr len.toNat)
    len.toNat s 0 (Nat.zero_le _) (by omega) (Wrote.refl _ _ s addr)
  refine ⟨k, hk, hw, ?_, fun _ _ hwr hn => by rw [hsucc hwr hn, hlen]⟩
  rcases hret with ⟨h, hk⟩ | h
  · exact .inl ⟨by rw [h, hlen], hk⟩
  · exact .inr h

lemma xor_key_xor_key (b : UInt8) : (b ^^^ ENCRYPT_KEY) ^^^ ENCRYPT_KEY = b := by
  rw [UInt8.xor_assoc, UInt8.xor_self, UInt8.xor_zero]

lemma overwrite_xor {s : Space} {addr n : ℕ}
    (h : ∀ a, addr ≤ a → a < addr + n → (view s a).isSome) (a : ℕ) :
    overwrite (view s) addr ((readBytes s addr n).map (· ^^^ ENCRYPT_KEY)) a =
      if addr ≤ a ∧ a < addr + n then (view s a).map (· ^^^ ENCRYPT_KEY) else view s a := by
  unfold overwrite
  rw [List.length_map, length_readBytes]
  by_cases ha : addr ≤ a ∧ a < addr + n
  · obtain ⟨b, hb⟩ := Option.isSome_iff_exists.mp (h a ha.1 ha.2)
    rw [setRange_of_mem ha, if_pos ha, hb]
    simp [readBytes, List.getD_eq_getElem?_getD, show a - addr < n by omega,
      show addr + (a - addr) = a by omega, hb]
  · rw [setRange_of_not_mem ha, if_neg ha]

/-- Page `0` mapped user and writable, holding zeros, under the tables that map it; `p->sz` is
one page; no page is free. -/
def onePage : Space where
  flags v := if v = 0 then some ⟨true, true⟩ else none
  mem _ := 0
  tables1 i := i = 0
  tables0 j := j = (0, 0)
  sz := 4096
  free := 0
  sz_le := by rw [MAXVA_eq]; norm_num

/-- **A failed `sys_encrypt` leaves the first chunk XORed.** The buffer of 1024 bytes at `3584`
has its first 512 bytes at the end of page `0`, mapped and writable, and the rest on page `1`,
which is neither mapped nor below `p->sz`. The first round XORs and writes back the first
512 bytes; the second round's `copyin` fails, and the call returns `-1` with them XORed. -/
theorem encrypt_fail_leaves_xor :
    (sys_encrypt onePage 3584 1024).1 = -1 ∧ view onePage 3584 = some 0 ∧
      view (sys_encrypt onePage 3584 1024).2 3584 = some 0x5A ∧
      view (sys_encrypt onePage 3584 1024).2 4095 = some 0x5A := by
  refine ⟨by decide +kernel, by decide, by decide +kernel, by decide +kernel⟩

end Xv6.Encrypt
