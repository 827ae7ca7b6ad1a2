import Xv6.Vm.Map

/-!
The user page-table calls of `vm.c`, and what each does to the translation.

Each loop of the source is a function recursive on the number of iterations left, with the
C loop's bound computed as the source computes it (in `uint64`, and through the `int` of
`uvmdealloc`). A panic is an error carrying the source's message. Each function has one
specification lemma, proved from the primitive lemmas of `Vm.Map` by induction on its loop:
it keeps `Good`, says what the translation becomes, and bounds what else changed (`Frame`).
-/

namespace Xv6.Vm.Uvm

open Xv6.Param Xv6.Riscv Xv6.Lib.Alloc Xv6.Lib.Region Xv6.Vm.Walk Xv6.Vm.Map

section Code

variable {σ : Type*} (P : Pool σ)

def mappagesLoop (pagetable perm : ℕ) : ℕ → ℕ → ℕ → Phys σ → Except String (ℤ × Phys σ)
  | rest, a, pa, st =>
    match walk P pagetable a true st with
    | .error e => .error e
    | .ok (none, st) => .ok (-1, st)
    | .ok (some pte, st) =>
      if st.mem pte &&& PTE_V ≠ 0 then .error "mappages: remap"
      else
        match rest with
        | 0 => .ok (0, st.store pte (PA2PTE pa ||| perm ||| PTE_V))
        | rest + 1 =>
          mappagesLoop pagetable perm rest (a + PGSIZE) (pa + PGSIZE)
            (st.store pte (PA2PTE pa ||| perm ||| PTE_V))

/-- `mappages(pagetable, va, size, pa, perm)`: the loop runs until `a == last`. -/
def mappages (pagetable va size pa perm : ℕ) (st : Phys σ) : Except String (ℤ × Phys σ) :=
  if va % PGSIZE ≠ 0 then .error "mappages: va not aligned"
  else if size % PGSIZE ≠ 0 then .error "mappages: size not aligned"
  else if size = 0 then .error "mappages: size"
  else mappagesLoop P pagetable perm (size / PGSIZE - 1) va pa st

def uvmcreate (st : Phys σ) : ℕ × Phys σ :=
  match kalloc P st with
  | (none, st) => (0, st)
  | (some pagetable, st) => (pagetable, ⟨memset st.mem pagetable 0 PGSIZE, st.heap⟩)

def uvmunmapLoop (pagetable : ℕ) (do_free : Bool) : ℕ → ℕ → Phys σ → Except String (Phys σ)
  | 0, _, st => .ok st
  | n + 1, a, st =>
    match walk P pagetable a false st with
    | .error e => .error e
    | .ok (none, st) => uvmunmapLoop pagetable do_free n (a + PGSIZE) st
    | .ok (some pte, st) =>
      if st.mem pte &&& PTE_V = 0 then uvmunmapLoop pagetable do_free n (a + PGSIZE) st
      else
        let st₁ := if do_free then kfree P (PTE2PA (st.mem pte)) st else st
        uvmunmapLoop pagetable do_free n (a + PGSIZE) (st₁.store pte 0)

/-- `uvmunmap(pagetable, va, npages, do_free)`: the loop bound `va + npages*PGSIZE` is a
`uint64`. -/
def uvmunmap (pagetable va npages : ℕ) (do_free : Bool) (st : Phys σ) : Except String (Phys σ) :=
  if va % PGSIZE ≠ 0 then .error "uvmunmap: not aligned"
  else uvmunmapLoop P pagetable do_free (((va + npages * PGSIZE) % 2 ^ 64 - va) / PGSIZE) va st

/-- `uvmdealloc(pagetable, oldsz, newsz)`: `npages` is an `int`, passed on as a `uint64`. -/
def uvmdealloc (pagetable oldsz newsz : ℕ) (st : Phys σ) : Except String (ℕ × Phys σ) :=
  if oldsz ≤ newsz then .ok (oldsz, st)
  else if PGROUNDUP newsz < PGROUNDUP oldsz then
    let npages : ℤ := i32 (((PGROUNDUP oldsz - PGROUNDUP newsz) / PGSIZE : ℕ) : ℤ)
    match uvmunmap P pagetable (PGROUNDUP newsz) (npages % 2 ^ 64).toNat true st with
    | .error e => .error e
    | .ok st => .ok (newsz, st)
  else .ok (newsz, st)

def uvmallocLoop (pagetable oldsz newsz xperm : ℕ) : ℕ → ℕ → Phys σ → Except String (ℕ × Phys σ)
  | 0, _, st => .ok (newsz, st)
  | n + 1, a, st =>
    match kalloc P st with
    | (none, st) => (uvmdealloc P pagetable a oldsz st).map fun r => (0, r.2)
    | (some mem, st) =>
      match mappages P pagetable a PGSIZE mem (PTE_R ||| PTE_U ||| xperm)
          ⟨memset st.mem mem 0 PGSIZE, st.heap⟩ with
      | .error e => .error e
      | .ok (r, st) =>
        if r ≠ 0 then (uvmdealloc P pagetable a oldsz (kfree P mem st)).map fun r => (0, r.2)
        else uvmallocLoop pagetable oldsz newsz xperm n (a + PGSIZE) st

def uvmalloc (pagetable oldsz newsz xperm : ℕ) (st : Phys σ) : Except String (ℕ × Phys σ) :=
  if newsz < oldsz then .ok (oldsz, st)
  else
    uvmallocLoop P pagetable (PGROUNDUP oldsz) newsz xperm
      ((newsz - PGROUNDUP oldsz + PGSIZE - 1) / PGSIZE) (PGROUNDUP oldsz) st

def uvmclear (pagetable va : ℕ) (st : Phys σ) : Except String (Phys σ) :=
  match walk P pagetable va false st with
  | .error e => .error e
  | .ok (none, _) => .error "uvmclear"
  | .ok (some pte, st) => .ok (st.store pte (st.mem pte &&& bnot64 PTE_U))

/-- The loop of `uvmcopy` at `i`, with `n` iterations left; the two error exits jump to
`err`, which unmaps and frees the pages copied so far. -/
def uvmcopyLoop (old new : ℕ) : ℕ → ℕ → Phys σ → Except String (ℤ × Phys σ)
  | 0, _, st => .ok (0, st)
  | n + 1, i, st =>
    match walk P old i false st with
    | .error e => .error e
    | .ok (none, st) => uvmcopyLoop old new n (i + PGSIZE) st
    | .ok (some pte, st) =>
      if st.mem pte &&& PTE_V = 0 then uvmcopyLoop old new n (i + PGSIZE) st
      else
        let pa := PTE2PA (st.mem pte)
        let flags := PTE_FLAGS (st.mem pte)
        match kalloc P st with
        | (none, st) => (uvmunmap P new 0 (i / PGSIZE) true st).map fun st => (-1, st)
        | (some mem, st) =>
          match mappages P new i PGSIZE mem flags ⟨memmove st.mem mem pa PGSIZE, st.heap⟩ with
          | .error e => .error e
          | .ok (r, st) =>
            if r ≠ 0 then (uvmunmap P new 0 (i / PGSIZE) true (kfree P mem st)).map fun st => (-1, st)
            else uvmcopyLoop old new n (i + PGSIZE) st

def uvmcopy (old new sz : ℕ) (st : Phys σ) : Except String (ℤ × Phys σ) :=
  uvmcopyLoop P old new ((sz + PGSIZE - 1) / PGSIZE) 0 st

def ismapped (pagetable va : ℕ) (st : Phys σ) : Except String Bool :=
  match walk P pagetable va false st with
  | .error e => .error e
  | .ok (none, _) => .ok false
  | .ok (some pte, _) => .ok (st.mem pte &&& PTE_V ≠ 0)

/-- `vmfault(pagetable, va, read)` in a process of size `sz` whose table is `p_pagetable`
(`myproc()`): the page, now mapped, or `0`. -/
def vmfault (pagetable va : ℕ) (_read : Bool) (sz p_pagetable : ℕ) (st : Phys σ) :
    Except String (ℕ × Phys σ) :=
  if sz ≤ va then .ok (0, st)
  else
    match ismapped P pagetable (PGROUNDDOWN va) st with
    | .error e => .error e
    | .ok true => .ok (0, st)
    | .ok false =>
      match kalloc P st with
      | (none, st) => .ok (0, st)
      | (some mem, st) =>
        match mappages P p_pagetable (PGROUNDDOWN va) PGSIZE mem (PTE_W ||| PTE_U ||| PTE_R)
            ⟨memset st.mem mem 0 PGSIZE, st.heap⟩ with
        | .error e => .error e
        | .ok (r, st) => if r ≠ 0 then .ok (0, kfree P mem st) else .ok (mem, st)

def walkaddr (pagetable va : ℕ) (st : Phys σ) : ℕ :=
  if MAXVA ≤ va then 0
  else
    match walk P pagetable va false st with
    | .ok (some pte, _) =>
      if st.mem pte &&& PTE_V = 0 then 0
      else if st.mem pte &&& PTE_U = 0 then 0
      else PTE2PA (st.mem pte)
    | _ => 0

end Code

/-! ## Specifications -/

lemma div_add_PGSIZE (a : ℕ) : (a + PGSIZE) / PGSIZE = a / PGSIZE + 1 := by
  unfold PGSIZE
  omega

lemma unmapRange_skip {M : VMap} {vpn : ℕ} (h : M vpn = none) (n : ℕ) :
    unmapRange M (vpn + 1) n = unmapRange M vpn (n + 1) := by
  rw [unmapRange_succ, Function.update_eq_self_iff.2 h.symm]

lemma targetsIn_succ (M : VMap) (vpn n : ℕ) : targetsIn M (vpn + 1) n ⊆ targetsIn M vpn (n + 1) :=
  fun _ ⟨v, fl, h₁, h₂, h⟩ => ⟨v, fl, by omega, by omega, h⟩

lemma npages_toNat {d : ℕ} (hd : d ≤ 2 ^ 26) : (i32 (d : ℤ) % 2 ^ 64).toNat = d := by
  rw [i32_of_mem (by omega) (by unfold INT_MAX; omega), Int.emod_eq_of_lt (by omega) (by omega)]
  simp

lemma PGROUNDDOWN_div (va : ℕ) : PGROUNDDOWN va / PGSIZE = va / PGSIZE :=
  Nat.mul_div_cancel _ (by decide)

section Spec

variable {σ : Type*} {P : Pool σ} {pt : ℕ}

theorem uvmclear_spec {va : ℕ} {st st' : Phys σ} (hg : Good P st pt)
    (h : uvmclear P pt va st = .ok st') :
    va < MAXVA ∧ Good P st' pt ∧ view st'.mem pt = clearU (view st.mem pt) (va / PGSIZE) ∧
      Frame P pt ∅ st st' := by
  have hva : va < MAXVA := by
    by_contra hva
    rw [uvmclear, walk, if_pos (by omega)] at h
    cases h
  rw [uvmclear, walk_false P pt va st hva] at h
  cases hw : walkRead st.mem va 2 pt with
  | none =>
    rw [hw] at h
    cases h
  | some e =>
    rw [hw] at h
    simp only [Except.ok.injEq] at h
    subst h
    exact ⟨hva, hg.clear_leaf hw hva⟩

theorem walkaddr_eq (pt va : ℕ) (st : Phys σ) : walkaddr P pt va st = userPage (view st.mem pt) va := by
  unfold walkaddr userPage
  split
  · rfl
  rename_i hva
  rw [walk_false P pt va st (by omega)]
  cases hw : walkRead st.mem va 2 pt with
  | none =>
    rw [view_of_walkRead_none hw]
  | some e =>
    rw [view_of_walkRead hw (by omega)]
    by_cases hv : st.mem e &&& PTE_V = 0
    · rw [valid_of_invalid (by simpa using hv)]
      simp [hv]
    · rw [valid_of_valid hv]
      simp only [Option.map_some, hv, if_false]
      rw [and_PTE_U_eq_flags (st.mem e)]

lemma uvmunmapLoop_ok (do_free : Bool) (n : ℕ) :
    ∀ (a : ℕ) (st : Phys σ), a + n * PGSIZE ≤ MAXVA →
      ∃ st', uvmunmapLoop P pt do_free n a st = .ok st' := by
  induction n with
  | zero => exact fun a st _ => ⟨st, rfl⟩
  | succ n ih =>
    intro a st ha
    have hva : a < MAXVA := by unfold PGSIZE at ha; omega
    have ha' : a + PGSIZE + n * PGSIZE ≤ MAXVA := by rw [Nat.succ_mul] at ha; omega
    rw [uvmunmapLoop, walk_false P pt a st hva]
    cases walkRead st.mem a 2 pt with
    | none => exact ih _ _ ha'
    | some e =>
      simp only
      split
      · exact ih _ _ ha'
      · exact ih _ _ ha'

lemma uvmunmap_ok {va npages : ℕ} (do_free : Bool) (st : Phys σ) (hva : va % PGSIZE = 0)
    (hend : va + npages * PGSIZE ≤ MAXVA) : ∃ st', uvmunmap P pt va npages do_free st = .ok st' := by
  have hn : ((va + npages * PGSIZE) % 2 ^ 64 - va) / PGSIZE = npages := by
    rw [MAXVA_eq] at hend
    rw [Nat.mod_eq_of_lt (by omega), Nat.add_sub_cancel_left, Nat.mul_div_cancel _ (by decide)]
  rw [uvmunmap, if_neg (by omega), hn]
  exact uvmunmapLoop_ok do_free npages va st hend

lemma uvmdealloc_ok {oldsz newsz : ℕ} (st : Phys σ) (hold : oldsz ≤ MAXVA) :
    ∃ r st', uvmdealloc P pt oldsz newsz st = .ok (r, st') := by
  unfold uvmdealloc
  split
  · exact ⟨_, _, rfl⟩
  split
  · have hup := PGROUNDUP_le_MAXVA hold
    rw [MAXVA_eq] at hup
    have hd : (PGROUNDUP oldsz - PGROUNDUP newsz) / PGSIZE ≤ 2 ^ 26 := by unfold PGSIZE; omega
    dsimp only
    rw [npages_toNat hd]
    obtain ⟨st', hu⟩ : ∃ st', uvmunmap P pt (PGROUNDUP newsz)
        ((PGROUNDUP oldsz - PGROUNDUP newsz) / PGSIZE) true st = .ok st' := by
      refine uvmunmap_ok true st (PGROUNDUP_mod _) ?_
      have := Nat.div_mul_le_self (PGROUNDUP oldsz - PGROUNDUP newsz) PGSIZE
      rw [MAXVA_eq]
      omega
    rw [hu]
    exact ⟨_, _, rfl⟩
  · exact ⟨_, _, rfl⟩

variable (hP : P.Lawful)
include hP

/-- **The loop of `mappages`.** From a good table, with held pages to map and flags that fit,
the loop maps its `rest + 1` pages and returns `0`, or returns `-1` having mapped a prefix of
them (when `walk` could not allocate). Every page it maps was unmapped, and held pages it does
not map stay held. -/
theorem mappagesLoop_spec {perm : ℕ} (hperm : perm < 2 ^ 10) (rest : ℕ) :
    ∀ (a pa : ℕ) (st st' : Phys σ) (r : ℤ), Good P st pt →
      (∀ k ≤ rest, Held P st pt (pa + k * PGSIZE)) →
      mappagesLoop P pt perm rest a pa st = .ok (r, st') →
      Good P st' pt ∧ Frame P pt ∅ st st' ∧
        ∃ k, (r = 0 ∧ k = rest + 1 ∨ r = -1 ∧ k ≤ rest) ∧
          (∀ v, a / PGSIZE ≤ v → v < a / PGSIZE + k → view st.mem pt v = none) ∧
          view st'.mem pt = mapRange (view st.mem pt) (a / PGSIZE) k pa perm ∧
          ∀ q, Held P st pt q → (∀ j < k, q ≠ pa + j * PGSIZE) → Held P st' pt q := by
  induction rest using Nat.strong_induction_on with
  | _ rest ih =>
  intro a pa st st' r hg hq h
  have hva : a < MAXVA := by
    by_contra hva
    rw [mappagesLoop, walk, if_pos (by omega)] at h
    cases h
  obtain ⟨w, st₁, hwalk, hgr, hleaf⟩ := walk_alloc_spec hP hg.tree hg.free hva
  have hg₁ := hg.grows hgr
  have hq₁ : ∀ k ≤ rest, Held P st₁ pt (pa + k * PGSIZE) := fun k hk => (hq k hk).grows hgr
  have hq₀ : Held P st₁ pt pa := by simpa using hq₁ 0 (Nat.zero_le _)
  rw [mappagesLoop, hwalk] at h
  cases w with
  | none =>
    -- `walk` could not allocate a table page: nothing is mapped
    simp only [Except.ok.injEq, Prod.mk.injEq] at h
    obtain ⟨rfl, rfl⟩ := h
    refine ⟨hg₁, Frame.of_grows hgr, 0, .inr ⟨rfl, Nat.zero_le _⟩, fun v _ _ => by omega, ?_,
      fun q hq' _ => hq'.grows hgr⟩
    rw [hgr.view_eq, mapRange_zero]
  | some e =>
    have hw := hleaf e rfl
    simp only at h
    split at h
    · cases h
    · rename_i hinv
      have hnone : view st.mem pt (a / PGSIZE) = none := by
        rw [← hgr.view_eq, view_of_walkRead hw hva, valid_of_invalid hinv]
        rfl
      obtain ⟨hg₂, hview₂, hfr₂⟩ := hg₁.map_leaf hw hva hq₀ hperm
      have hfr := (Frame.of_grows hgr : Frame P pt ∅ st st₁).trans hfr₂ (Set.empty_subset _)
      have hview : view (st₁.store e (PA2PTE pa ||| perm ||| PTE_V)).mem pt =
          Function.update (view st.mem pt) (a / PGSIZE) (some (pa, perm ||| PTE_V)) := by
        rw [hview₂, hgr.view_eq]
      have hheld : ∀ q, Held P st pt q → q ≠ pa →
          Held P (st₁.store e (PA2PTE pa ||| perm ||| PTE_V)) pt q := fun q hq' hne =>
        (hq'.grows hgr).map_leaf hw hva hg₁ hq₀ hperm hne
      cases rest with
      | zero =>
        simp only [Except.ok.injEq, Prod.mk.injEq] at h
        obtain ⟨rfl, rfl⟩ := h
        refine ⟨hg₂, hfr, 1, .inl ⟨rfl, rfl⟩, fun v h₁ h₂ => ?_, ?_, fun q hq' hne => ?_⟩
        · rw [show v = a / PGSIZE by omega]
          exact hnone
        · rw [hview, mapRange_succ, mapRange_zero]
        · exact hheld q hq' (by simpa using hne 0 Nat.zero_lt_one)
      | succ rest =>
        have hq₂ : ∀ k ≤ rest, Held P (st₁.store e (PA2PTE pa ||| perm ||| PTE_V)) pt
            (pa + PGSIZE + k * PGSIZE) := by
          intro k hk
          have hne : pa + (k + 1) * PGSIZE ≠ pa := by unfold PGSIZE; omega
          have := hheld _ (hq (k + 1) (by omega)) hne
          rwa [show pa + (k + 1) * PGSIZE = pa + PGSIZE + k * PGSIZE by ring] at this
        obtain ⟨hg', hfr', k, hk, hnone', hview', hheld'⟩ := ih rest (by omega) _ _ _ _ _ hg₂ hq₂ h
        rw [div_add_PGSIZE] at hnone' hview'
        refine ⟨hg', hfr.trans hfr' (Set.empty_subset _), k + 1, ?_, fun v h₁ h₂ => ?_, ?_,
          fun q hq' hne => ?_⟩
        · rcases hk with ⟨rfl, rfl⟩ | ⟨rfl, hk⟩
          · exact .inl ⟨rfl, rfl⟩
          · exact .inr ⟨rfl, by omega⟩
        · by_cases hv : v = a / PGSIZE
          · rw [hv]
            exact hnone
          · have := hnone' v (by omega) (by omega)
            rwa [hview, Function.update_of_ne hv] at this
        · rw [hview', hview, mapRange_succ]
        · refine hheld' q (hheld q hq' (by simpa using hne 0 (by omega))) fun j hj => ?_
          have := hne (j + 1) (by omega)
          rwa [show pa + (j + 1) * PGSIZE = pa + PGSIZE + j * PGSIZE by ring] at this

/-- **`mappages`.** It panics unless `va` and `size` are aligned and `size` is not zero, and
then it is its loop over `size / PGSIZE` pages. -/
theorem mappages_spec {perm va size pa : ℕ} {st st' : Phys σ} {r : ℤ} (hperm : perm < 2 ^ 10)
    (hg : Good P st pt) (hq : ∀ k < size / PGSIZE, Held P st pt (pa + k * PGSIZE))
    (h : mappages P pt va size pa perm st = .ok (r, st')) :
    va % PGSIZE = 0 ∧ size % PGSIZE = 0 ∧ 0 < size ∧ Good P st' pt ∧ Frame P pt ∅ st st' ∧
      ∃ k, (r = 0 ∧ k = size / PGSIZE ∨ r = -1 ∧ k < size / PGSIZE) ∧
        (∀ v, va / PGSIZE ≤ v → v < va / PGSIZE + k → view st.mem pt v = none) ∧
        view st'.mem pt = mapRange (view st.mem pt) (va / PGSIZE) k pa perm ∧
        ∀ q, Held P st pt q → (∀ j < k, q ≠ pa + j * PGSIZE) → Held P st' pt q := by
  unfold mappages at h
  split at h
  · cases h
  split at h
  · cases h
  split at h
  · cases h
  rename_i hva hsz hpos
  have hn : 0 < size / PGSIZE := by unfold PGSIZE at hsz ⊢; omega
  obtain ⟨hg', hfr, k, hk, hnone, hview, hheld⟩ := mappagesLoop_spec hP hperm _ va pa st st' r hg
    (fun k hk => hq k (by omega)) h
  refine ⟨by omega, by omega, by omega, hg', hfr, k, ?_, hnone, hview, hheld⟩
  rcases hk with ⟨rfl, rfl⟩ | ⟨rfl, hk⟩
  · exact .inl ⟨rfl, by omega⟩
  · exact .inr ⟨rfl, by omega⟩

/-- **The loop of `uvmunmap`.** It unmaps its `n` pages, whether mapped or not, and gives
back the pages they mapped when `do_free` is set. -/
theorem uvmunmapLoop_spec (do_free : Bool) (n : ℕ) :
    ∀ (a : ℕ) (st st' : Phys σ), Good P st pt → uvmunmapLoop P pt do_free n a st = .ok st' →
      Good P st' pt ∧ view st'.mem pt = unmapRange (view st.mem pt) (a / PGSIZE) n ∧
        Frame P pt (if do_free then targetsIn (view st.mem pt) (a / PGSIZE) n else ∅) st st' := by
  induction n with
  | zero =>
    intro a st st' hg h
    cases h
    exact ⟨hg, (unmapRange_zero _ _).symm, Frame.refl _ _ _⟩
  | succ n ih =>
    intro a st st' hg h
    have hva : a < MAXVA := by
      by_contra hva
      rw [uvmunmapLoop, walk, if_pos (by omega)] at h
      cases h
    have hG : ∀ M : VMap, (if do_free then targetsIn M (a / PGSIZE + 1) n else ∅) ⊆
        (if do_free then targetsIn M (a / PGSIZE) (n + 1) else ∅) := by
      intro M
      cases do_free
      · exact subset_rfl
      · exact targetsIn_succ M _ n
    -- a page that is not mapped is skipped
    have hskip : view st.mem pt (a / PGSIZE) = none →
        uvmunmapLoop P pt do_free n (a + PGSIZE) st = .ok st' →
        Good P st' pt ∧ view st'.mem pt = unmapRange (view st.mem pt) (a / PGSIZE) (n + 1) ∧
          Frame P pt (if do_free then targetsIn (view st.mem pt) (a / PGSIZE) (n + 1) else ∅)
            st st' := by
      intro hnone h'
      obtain ⟨hg', hview', hfr'⟩ := ih _ _ _ hg h'
      rw [div_add_PGSIZE] at hview' hfr'
      exact ⟨hg', by rw [hview', unmapRange_skip hnone], hfr'.mono (hG _)⟩
    rw [uvmunmapLoop, walk_false P pt a st hva] at h
    cases hw : walkRead st.mem a 2 pt with
    | none =>
      rw [hw] at h
      exact hskip (view_of_walkRead_none hw) h
    | some e =>
      rw [hw] at h
      simp only at h
      split at h
      · rename_i hinv
        refine hskip ?_ h
        rw [view_of_walkRead hw hva, valid_of_invalid (by simpa using hinv)]
        rfl
      · rename_i hvalid
        have hv0 : view st.mem pt (a / PGSIZE) = some (PTE2PA (st.mem e), PTE_FLAGS (st.mem e)) := by
          rw [view_of_walkRead hw hva, valid_of_valid hvalid]
          rfl
        -- the page is mapped: give it back if asked, then clear its entry
        obtain ⟨hg₂, hview₂, hfr₂⟩ : Good P ((if do_free then kfree P (PTE2PA (st.mem e)) st
            else st).store e 0) pt ∧
            view ((if do_free then kfree P (PTE2PA (st.mem e)) st else st).store e 0).mem pt =
              Function.update (view st.mem pt) (a / PGSIZE) none ∧
            Frame P pt (if do_free then {PTE2PA (st.mem e)} else ∅) st
              ((if do_free then kfree P (PTE2PA (st.mem e)) st else st).store e 0) := by
          cases do_free
          · exact hg.unmap_leaf hw hva hvalid (Set.empty_subset _) (fun _ _ => rfl)
              Set.subset_union_left
          · refine hg.unmap_leaf hw hva hvalid subset_rfl (fun a' ha' => ?_) ?_
            · show memset st.mem _ 1 PGSIZE a' = st.mem a'
              exact setRange_block_of_ne (by decide) (PTE2PA_mod _) ha'
            · intro q hq
              rcases hP.free_sub _ st.heap hq with rfl | hq
              · exact .inr rfl
              · exact .inl hq
        obtain ⟨hg', hview', hfr'⟩ := ih _ _ _ hg₂ h
        rw [div_add_PGSIZE, hview₂] at hview' hfr'
        refine ⟨hg', by rw [hview', ← unmapRange_succ], ?_⟩
        have hsub : ∀ v, a / PGSIZE + 1 ≤ v →
            Function.update (view st.mem pt) (a / PGSIZE) none v = view st.mem pt v :=
          fun v hv => Function.update_of_ne (by omega) _ _
        refine (hfr₂.mono ?_).trans hfr' ?_
        · cases do_free
          · exact subset_rfl
          · rintro q rfl
            exact ⟨a / PGSIZE, _, le_rfl, by omega, hv0⟩
        · cases do_free
          · exact Set.empty_subset _
          · rintro q ⟨v, fl, h₁, h₂, hq⟩
            rw [hsub v h₁] at hq
            exact .inr ⟨v, fl, by omega, by omega, hq⟩

lemma mappages_one {perm a q : ℕ} {st st' : Phys σ} {r : ℤ} (hperm : perm < 2 ^ 10)
    (hg : Good P st pt) (hq : Held P st pt q) (h : mappages P pt a PGSIZE q perm st = .ok (r, st')) :
    a % PGSIZE = 0 ∧ Good P st' pt ∧ Frame P pt ∅ st st' ∧
      (r = 0 ∧ view st.mem pt (a / PGSIZE) = none ∧
          view st'.mem pt = Function.update (view st.mem pt) (a / PGSIZE) (some (q, perm ||| PTE_V)) ∨
        r = -1 ∧ view st'.mem pt = view st.mem pt ∧ Held P st' pt q) := by
  have hone : PGSIZE / PGSIZE = 1 := by decide
  obtain ⟨hva, -, -, hg', hfr, k, hk, hnone, hview, hheld⟩ := mappages_spec hP hperm hg
    (fun k hk => by rw [hone] at hk; rw [show k = 0 by omega]; simpa using hq) h
  rw [hone] at hk
  refine ⟨hva, hg', hfr, ?_⟩
  rcases hk with ⟨rfl, rfl⟩ | ⟨rfl, hk⟩
  · refine .inl ⟨rfl, hnone _ le_rfl (by omega), ?_⟩
    rw [hview, mapRange_succ, mapRange_zero]
  · obtain rfl : k = 0 := by omega
    exact .inr ⟨rfl, by rw [hview, mapRange_zero], hheld q hq fun j hj => absurd hj (Nat.not_lt_zero _)⟩

theorem uvmunmap_spec {va npages : ℕ} {do_free : Bool} {st st' : Phys σ} (hg : Good P st pt)
    (hwrap : va + npages * PGSIZE < 2 ^ 64) (h : uvmunmap P pt va npages do_free st = .ok st') :
    va % PGSIZE = 0 ∧ Good P st' pt ∧
      view st'.mem pt = unmapRange (view st.mem pt) (va / PGSIZE) npages ∧
      Frame P pt (if do_free then targetsIn (view st.mem pt) (va / PGSIZE) npages else ∅) st st' := by
  unfold uvmunmap at h
  split at h
  · cases h
  rename_i hva
  have hn : ((va + npages * PGSIZE) % 2 ^ 64 - va) / PGSIZE = npages := by
    rw [Nat.mod_eq_of_lt hwrap, Nat.add_sub_cancel_left, Nat.mul_div_cancel _ (by decide)]
  rw [hn] at h
  exact ⟨by omega, uvmunmapLoop_spec hP do_free npages va st st' hg h⟩

/-- **`uvmdealloc`**: shrinking unmaps and frees the pages from `PGROUNDUP(newsz)` up to
`PGROUNDUP(oldsz)`. -/
theorem uvmdealloc_spec {oldsz newsz r : ℕ} {st st' : Phys σ} (hg : Good P st pt)
    (hold : oldsz ≤ MAXVA) (h : uvmdealloc P pt oldsz newsz st = .ok (r, st')) :
    Good P st' pt ∧ r = (if oldsz ≤ newsz then oldsz else newsz) ∧
      view st'.mem pt = (if newsz < oldsz then unmapRange (view st.mem pt) (PGROUNDUP newsz / PGSIZE)
        ((PGROUNDUP oldsz - PGROUNDUP newsz) / PGSIZE) else view st.mem pt) ∧
      Frame P pt (targetsIn (view st.mem pt) (PGROUNDUP newsz / PGSIZE)
        ((PGROUNDUP oldsz - PGROUNDUP newsz) / PGSIZE)) st st' := by
  have hup := PGROUNDUP_le_MAXVA hold
  rw [MAXVA_eq] at hup
  unfold uvmdealloc at h
  split at h
  · rename_i hle
    cases h
    exact ⟨hg, (if_pos hle).symm, (if_neg (by omega)).symm, Frame.refl _ _ _⟩
  rename_i hlt
  split at h
  · -- the pages between the two rounded sizes are unmapped and freed
    dsimp only at h
    have hd : (PGROUNDUP oldsz - PGROUNDUP newsz) / PGSIZE ≤ 2 ^ 26 := by unfold PGSIZE; omega
    rw [npages_toNat hd] at h
    rcases hu : uvmunmap P pt (PGROUNDUP newsz) ((PGROUNDUP oldsz - PGROUNDUP newsz) / PGSIZE) true st
      with e | st₁
    · rw [hu] at h
      cases h
    · rw [hu] at h
      cases h
      have hwrap : PGROUNDUP newsz + (PGROUNDUP oldsz - PGROUNDUP newsz) / PGSIZE * PGSIZE < 2 ^ 64 := by
        have := Nat.div_mul_le_self (PGROUNDUP oldsz - PGROUNDUP newsz) PGSIZE
        omega
      obtain ⟨-, hg', hview, hfr⟩ := uvmunmap_spec hP hg hwrap hu
      exact ⟨hg', (if_neg (by omega)).symm, by rw [if_pos (by omega)]; exact hview, hfr⟩
  · -- both sizes round up to the same page
    rename_i hsame
    cases h
    have heq : PGROUNDUP newsz = PGROUNDUP oldsz :=
      le_antisymm (PGROUNDUP_mono (by omega) hold) (by omega)
    refine ⟨hg, (if_neg (by omega)).symm, ?_, Frame.refl _ _ _⟩
    rw [if_pos (by omega), heq, Nat.sub_self, Nat.zero_div, unmapRange_zero]

/-- **The loop of `uvmalloc`.** The pages from `lo` to `a` have been mapped anew, with pages
taken from the free pages of `st₀`. The loop maps the rest, or on a failure unmaps all of them
through `uvmdealloc` and returns `0`. -/
theorem uvmallocLoop_spec {lo newsz xperm : ℕ} (hx : xperm < 2 ^ 10) (hlo : lo % PGSIZE = 0)
    (st₀ : Phys σ) (n : ℕ) :
    ∀ (a : ℕ) (st st' : Phys σ) (r : ℕ), Good P st pt → a % PGSIZE = 0 → lo ≤ a → a ≤ MAXVA →
      MapsNew (view st₀.mem pt) (view st.mem pt) (lo / PGSIZE) ((a - lo) / PGSIZE)
        (PTE_R ||| PTE_U ||| xperm ||| PTE_V) →
      NewFrom (view st₀.mem pt) (view st.mem pt) (P.Free st₀.heap) → Frame P pt ∅ st₀ st →
      uvmallocLoop P pt lo newsz xperm n a st = .ok (r, st') →
      Good P st' pt ∧ Frame P pt ∅ st₀ st' ∧
        (r = newsz ∧ MapsNew (view st₀.mem pt) (view st'.mem pt) (lo / PGSIZE) ((a - lo) / PGSIZE + n)
            (PTE_R ||| PTE_U ||| xperm ||| PTE_V) ∧
          NewFrom (view st₀.mem pt) (view st'.mem pt) (P.Free st₀.heap) ∨
        r = 0 ∧ view st'.mem pt = view st₀.mem pt) := by
  induction n with
  | zero =>
    intro a st st' r hg _ _ _ hnew hfrom hfr h
    cases h
    exact ⟨hg, hfr, .inl ⟨rfl, hnew, hfrom⟩⟩
  | succ n ih =>
    intro a st st' r hg hal hla haM hnew hfrom hfr h
    -- the rollback `uvmdealloc(pagetable, a, oldsz)` unmaps what the loop has mapped
    have hroll : ∀ st₁, Good P st₁ pt → view st₁.mem pt = view st.mem pt → Frame P pt ∅ st₀ st₁ →
        (uvmdealloc P pt a lo st₁).map (fun r => (0, r.2)) = .ok (r, st') →
        Good P st' pt ∧ Frame P pt ∅ st₀ st' ∧ r = 0 ∧ view st'.mem pt = view st₀.mem pt := by
      intro st₁ hg₁ hv₁ hfr₁ hd
      rcases hu : uvmdealloc P pt a lo st₁ with e | ⟨r₂, st₂⟩
      · rw [hu] at hd
        cases hd
      rw [hu] at hd
      cases hd
      obtain ⟨hg₂, -, hview₂, hfr₂⟩ := uvmdealloc_spec hP hg₁ haM hu
      rw [PGROUNDUP_of_mod hlo (hla.trans haM), PGROUNDUP_of_mod hal haM, hv₁] at hview₂ hfr₂
      refine ⟨hg₂, hfr₁.trans hfr₂ ((hnew.targetsIn_sub hfrom).trans Set.subset_union_left), rfl, ?_⟩
      rw [hview₂]
      split
      · exact hnew.unmap
      · rw [show (a - lo) / PGSIZE = 0 by rw [show a - lo = 0 by omega]; rfl] at hnew
        exact hnew.eq_of_zero
    rw [uvmallocLoop] at h
    rcases hk : kalloc P st with ⟨_ | mem, st₁⟩
    · -- out of memory
      rw [hk] at h
      obtain ⟨hg₁, hv₁, hfr₁⟩ := hg.of_kalloc_none hP hk
      obtain ⟨hg', hfr', rfl, hview'⟩ := hroll st₁ hg₁ hv₁ (hfr.trans hfr₁ (Set.empty_subset _)) h
      exact ⟨hg', hfr', .inr ⟨rfl, hview'⟩⟩
    rw [hk] at h
    simp only at h
    obtain ⟨hg₁, hq₁, hv₁, hfr₁, hpf⟩ := hg.of_kalloc hP hk fun hal a ha =>
      (memset_of_ne hal ha : memset st₁.mem mem 0 PGSIZE a = _)
    have hfr₁' := hfr.trans hfr₁ (Set.empty_subset _)
    have hperm : PTE_R ||| PTE_U ||| xperm < 2 ^ 10 :=
      Nat.or_lt_two_pow (Nat.or_lt_two_pow (by decide) (by decide)) hx
    rcases hmp : mappages P pt a PGSIZE mem (PTE_R ||| PTE_U ||| xperm)
      ⟨memset st₁.mem mem 0 PGSIZE, st₁.heap⟩ with e | ⟨r₂, st₂⟩
    · rw [hmp] at h
      cases h
    rw [hmp] at h
    simp only at h
    obtain ⟨-, hg₂, hfr₂, hres⟩ := mappages_one hP hperm hg₁ hq₁ hmp
    have hfr₂' := hfr₁'.trans hfr₂ (Set.empty_subset _)
    have hmemF : mem ∈ P.Free st₀.heap := by
      rcases hfr.free hpf with h | h
      · exact h
      · exact absurd h (Set.notMem_empty _)
    rcases hres with ⟨rfl, hnone, hview₂⟩ | ⟨rfl, hview₂, hq₂⟩
    · -- the page is mapped: go on with the next one
      rw [if_neg (by decide)] at h
      rw [hv₁] at hnone hview₂
      have hlt : a < MAXVA := by
        by_contra hge
        rw [mappages, if_neg (by omega), if_neg (by decide), if_neg (by decide), mappagesLoop, walk,
          if_pos (by omega)] at hmp
        cases hmp
      have hnext : (a + PGSIZE - lo) / PGSIZE = (a - lo) / PGSIZE + 1 := by unfold PGSIZE at *; omega
      have hav : lo / PGSIZE + (a - lo) / PGSIZE = a / PGSIZE := by unfold PGSIZE at *; omega
      have hnew₂ : MapsNew (view st₀.mem pt) (view st₂.mem pt) (lo / PGSIZE)
          ((a + PGSIZE - lo) / PGSIZE) (PTE_R ||| PTE_U ||| xperm ||| PTE_V) := by
        rw [hnext, hview₂, ← hav]
        refine hnew.snoc ?_ mem
        rw [← ((hnew _).2 (by omega)), hav]
        exact hnone
      have hnextM : a + PGSIZE ≤ MAXVA := by
        rw [MAXVA_eq] at hlt ⊢
        unfold PGSIZE at *
        omega
      obtain ⟨hg', hfr', hres'⟩ := ih (a + PGSIZE) st₂ st' r hg₂ (by unfold PGSIZE at *; omega)
        (by omega) hnextM hnew₂ (by rw [hview₂]; exact hfrom.update hmemF)
        hfr₂' h
      rw [hnext] at hres'
      refine ⟨hg', hfr', ?_⟩
      rcases hres' with ⟨rfl, hm, hf⟩ | hfail
      · exact .inl ⟨rfl, by rwa [Nat.add_assoc, Nat.add_comm 1 n] at hm, hf⟩
      · exact .inr hfail
    · -- `mappages` could not allocate: free the page and roll back
      rw [if_pos (by decide)] at h
      obtain ⟨hg₃, hv₃, hfr₃⟩ := hg₂.free_held hP hq₂
      have hfr₃' := hfr₂'.trans hfr₃ (by simpa using hmemF)
      obtain ⟨hg', hfr', rfl, hview'⟩ := hroll _ hg₃ (by rw [hv₃, hview₂, hv₁]) hfr₃' h
      exact ⟨hg', hfr', .inr ⟨rfl, hview'⟩⟩

/-- **`uvmalloc`**: growing maps the pages from `PGROUNDUP(oldsz)` up to `newsz` anew, with
pages from the allocator and flags `PTE_R | PTE_U | xperm | PTE_V`. A failure returns `0`
and leaves the translation as it was. -/
theorem uvmalloc_spec {oldsz newsz xperm r : ℕ} {st st' : Phys σ} (hx : xperm < 2 ^ 10)
    (hg : Good P st pt) (hold : oldsz ≤ MAXVA)
    (h : uvmalloc P pt oldsz newsz xperm st = .ok (r, st')) :
    Good P st' pt ∧ Frame P pt ∅ st st' ∧
      (newsz < oldsz ∧ r = oldsz ∧ st' = st ∨
        oldsz ≤ newsz ∧ r = newsz ∧
          MapsNew (view st.mem pt) (view st'.mem pt) (PGROUNDUP oldsz / PGSIZE)
            ((newsz - PGROUNDUP oldsz + PGSIZE - 1) / PGSIZE) (PTE_R ||| PTE_U ||| xperm ||| PTE_V) ∧
          NewFrom (view st.mem pt) (view st'.mem pt) (P.Free st.heap) ∨
        r = 0 ∧ view st'.mem pt = view st.mem pt) := by
  unfold uvmalloc at h
  split at h
  · rename_i hlt
    cases h
    exact ⟨hg, Frame.refl _ _ _, .inl ⟨hlt, rfl, rfl⟩⟩
  rename_i hle
  have hnew : MapsNew (view st.mem pt) (view st.mem pt) (PGROUNDUP oldsz / PGSIZE)
      ((PGROUNDUP oldsz - PGROUNDUP oldsz) / PGSIZE) (PTE_R ||| PTE_U ||| xperm ||| PTE_V) := by
    rw [Nat.sub_self, Nat.zero_div]
    exact mapsNew_zero _ _ _
  obtain ⟨hg', hfr, hres⟩ := uvmallocLoop_spec hP hx (PGROUNDUP_mod oldsz) st _ _ st st' r hg
    (PGROUNDUP_mod oldsz) le_rfl (PGROUNDUP_le_MAXVA hold) hnew (newFrom_refl _ _) (Frame.refl _ _ _) h
  refine ⟨hg', hfr, ?_⟩
  rcases hres with ⟨rfl, hm, hf⟩ | hfail
  · rw [Nat.sub_self, Nat.zero_div, Nat.zero_add] at hm
    exact .inr (.inl ⟨by omega, rfl, hm, hf⟩)
  · exact .inr (.inr hfail)

/-- **`vmfault` maps into the table of `myproc()`, whatever table it is given**: `ptx`, the
table passed in, is only asked whether the page is mapped; the page it allocates goes into the
process's table `pt`. A page below `sz` that `ptx` does not map gets a fresh zeroed page in
`pt` with `PTE_W | PTE_U | PTE_R`, which it returns; otherwise `0` and `pt`'s translation as
it was. -/
theorem vmfault_table_spec {ptx va sz r : ℕ} {rd : Bool} {st st' : Phys σ} (hg : Good P st pt)
    (h : vmfault P ptx va rd sz pt st = .ok (r, st')) :
    Good P st' pt ∧ Frame P pt ∅ st st' ∧
      (r = 0 ∧ view st'.mem pt = view st.mem pt ∨
        va < sz ∧ view st.mem pt (va / PGSIZE) = none ∧ r ∈ P.Free st.heap ∧
          view st'.mem pt = Function.update (view st.mem pt) (va / PGSIZE)
            (some (r, PTE_W ||| PTE_U ||| PTE_R ||| PTE_V))) := by
  unfold vmfault at h
  split at h
  · cases h
    exact ⟨hg, Frame.refl _ _ _, .inl ⟨rfl, rfl⟩⟩
  rename_i hsz
  rcases hm : ismapped P ptx (PGROUNDDOWN va) st with e | mapped
  · rw [hm] at h
    cases h
  rw [hm] at h
  cases mapped with
  | true =>
    cases h
    exact ⟨hg, Frame.refl _ _ _, .inl ⟨rfl, rfl⟩⟩
  | false =>
  simp only at h
  rcases hk : kalloc P st with ⟨_ | mem, st₁⟩
  · rw [hk] at h
    cases h
    obtain ⟨hg₁, hv₁, hfr₁⟩ := hg.of_kalloc_none hP hk
    exact ⟨hg₁, hfr₁, .inl ⟨rfl, hv₁⟩⟩
  rw [hk] at h
  simp only at h
  obtain ⟨hg₁, hq₁, hv₁, hfr₁, hpf⟩ := hg.of_kalloc hP hk fun hal a ha =>
    (memset_of_ne hal ha : memset st₁.mem mem 0 PGSIZE a = _)
  rcases hmp : mappages P pt (PGROUNDDOWN va) PGSIZE mem (PTE_W ||| PTE_U ||| PTE_R)
    ⟨memset st₁.mem mem 0 PGSIZE, st₁.heap⟩ with e | ⟨r₂, st₂⟩
  · rw [hmp] at h
    cases h
  rw [hmp] at h
  simp only at h
  obtain ⟨-, hg₂, hfr₂, hres⟩ := mappages_one hP (by decide) hg₁ hq₁ hmp
  have hfr₂' := hfr₁.trans hfr₂ (Set.empty_subset _)
  rw [hv₁, PGROUNDDOWN_div] at hres
  rcases hres with ⟨rfl, hnone, hview₂⟩ | ⟨rfl, hview₂, hq₂⟩
  · rw [if_neg (by decide)] at h
    cases h
    exact ⟨hg₂, hfr₂', .inr ⟨by omega, hnone, hpf, hview₂⟩⟩
  · -- `mappages` could not allocate: the page goes back
    rw [if_pos (by decide)] at h
    cases h
    obtain ⟨hg₃, hv₃, hfr₃⟩ := hg₂.free_held hP hq₂
    exact ⟨hg₃, hfr₂'.trans hfr₃ (by simpa using hpf), .inl ⟨rfl, by rw [hv₃, hview₂]⟩⟩

theorem vmfault_spec {va sz r : ℕ} {rd : Bool} {st st' : Phys σ} (hg : Good P st pt)
    (h : vmfault P pt va rd sz pt st = .ok (r, st')) :
    Good P st' pt ∧ Frame P pt ∅ st st' ∧
      (r = 0 ∧ view st'.mem pt = view st.mem pt ∨
        va < sz ∧ view st.mem pt (va / PGSIZE) = none ∧ r ∈ P.Free st.heap ∧
          view st'.mem pt = Function.update (view st.mem pt) (va / PGSIZE)
            (some (r, PTE_W ||| PTE_U ||| PTE_R ||| PTE_V))) :=
  vmfault_table_spec hP hg h

/-! ### Calls that do not panic -/

lemma mappages_one_ok {perm a q : ℕ} {st : Phys σ} (hg : Good P st pt) (ha : a % PGSIZE = 0)
    (hlt : a < MAXVA) (hnone : view st.mem pt (a / PGSIZE) = none) :
    ∃ r st', mappages P pt a PGSIZE q perm st = .ok (r, st') := by
  obtain ⟨w, st₁, hwalk, hgr, hleaf⟩ := walk_alloc_spec hP hg.tree hg.free hlt
  rw [mappages, if_neg (by omega), if_neg (by decide), if_neg (by decide),
    show PGSIZE / PGSIZE - 1 = 0 by decide, mappagesLoop, hwalk]
  cases w with
  | none => exact ⟨-1, st₁, rfl⟩
  | some e =>
    -- the leaf entry is invalid, as the page is not mapped
    have hinv : ¬st₁.mem e &&& PTE_V ≠ 0 := by
      intro hv
      rw [← hgr.view_eq, view_of_walkRead (hleaf e rfl) hlt, valid_of_valid hv] at hnone
      cases hnone
    simp only
    rw [if_neg hinv]
    exact ⟨0, _, rfl⟩

lemma uvmallocLoop_ok {lo newsz xperm : ℕ} (hx : xperm < 2 ^ 10) (n : ℕ) :
    ∀ (a : ℕ) (st : Phys σ), Good P st pt → a % PGSIZE = 0 → a + n * PGSIZE ≤ MAXVA →
      (∀ v, a / PGSIZE ≤ v → v < a / PGSIZE + n → view st.mem pt v = none) →
      ∃ r st', uvmallocLoop P pt lo newsz xperm n a st = .ok (r, st') := by
  induction n with
  | zero => exact fun a st _ _ _ _ => ⟨newsz, st, rfl⟩
  | succ n ih =>
    intro a st hg hal hend hnone
    have hlt : a < MAXVA := by unfold PGSIZE at hend; omega
    -- the rollback does not panic
    have hroll : ∀ st₁ : Phys σ,
        ∃ r st', (uvmdealloc P pt a lo st₁).map (fun r => ((0 : ℕ), r.2)) = .ok (r, st') := by
      intro st₁
      obtain ⟨r, st', hd⟩ : ∃ r st', uvmdealloc P pt a lo st₁ = .ok (r, st') :=
        uvmdealloc_ok st₁ hlt.le
      exact ⟨0, st', by rw [hd]; rfl⟩
    rw [uvmallocLoop]
    rcases hk : kalloc P st with ⟨_ | mem, st₁⟩
    · exact hroll st₁
    simp only
    obtain ⟨hg₁, hq₁, hv₁, -, -⟩ := hg.of_kalloc hP hk fun hal a ha =>
      (memset_of_ne hal ha : memset st₁.mem mem 0 PGSIZE a = _)
    have hnone₁ : view (memset st₁.mem mem 0 PGSIZE) pt (a / PGSIZE) = none := by
      rw [hv₁]
      exact hnone _ le_rfl (by omega)
    obtain ⟨r₂, st₂, hmp⟩ : ∃ r st', mappages P pt a PGSIZE mem (PTE_R ||| PTE_U ||| xperm)
        ⟨memset st₁.mem mem 0 PGSIZE, st₁.heap⟩ = .ok (r, st') :=
      mappages_one_ok hP hg₁ hal hlt hnone₁
    rw [hmp]
    simp only
    split
    · exact hroll _
    · rename_i hr
      obtain ⟨-, hg₂, -, hres⟩ := mappages_one hP (Nat.or_lt_two_pow
        (Nat.or_lt_two_pow (by decide) (by decide)) hx) hg₁ hq₁ hmp
      rcases hres with ⟨-, -, hview₂⟩ | ⟨rfl, -⟩
      · -- the page is mapped: the rest are still unmapped
        refine ih (a + PGSIZE) st₂ hg₂ (by unfold PGSIZE at *; omega)
          (by rw [Nat.succ_mul] at hend; omega) fun v hv hv' => ?_
        rw [div_add_PGSIZE] at hv hv'
        rw [hview₂, Function.update_of_ne (by omega), hv₁]
        exact hnone v (by omega) (by omega)
      · exact absurd hr (by decide)

theorem uvmalloc_ok {oldsz newsz xperm : ℕ} (hx : xperm < 2 ^ 10) {st : Phys σ}
    (hg : Good P st pt) (hnew : newsz ≤ MAXVA)
    (hnone : ∀ v, PGROUNDUP oldsz / PGSIZE ≤ v →
      v < PGROUNDUP oldsz / PGSIZE + (newsz - PGROUNDUP oldsz + PGSIZE - 1) / PGSIZE →
      view st.mem pt v = none) :
    ∃ r st', uvmalloc P pt oldsz newsz xperm st = .ok (r, st') := by
  unfold uvmalloc
  split
  · exact ⟨_, _, rfl⟩
  rename_i hle
  have hup : PGROUNDUP oldsz ≤ MAXVA := PGROUNDUP_le_MAXVA (by omega)
  have hlo := PGROUNDUP_mod oldsz
  refine uvmallocLoop_ok hP hx _ _ st hg hlo ?_ hnone
  rw [MAXVA_eq] at hnew hup ⊢
  unfold PGSIZE at hlo ⊢
  omega

lemma kalloc_ncard {st st₁ : Phys σ} {mem : ℕ} (hk : kalloc P st = (some mem, st₁))
    (hfin : (P.Free st.heap).Finite) :
    (P.Free st₁.heap).Finite ∧ (P.Free st₁.heap).ncard + 1 ≤ (P.Free st.heap).ncard := by
  obtain ⟨heap, ha, rfl⟩ := kalloc_eq_some hk
  obtain ⟨hmem, hsub⟩ := hP.alloc_some ha
  have hfin₁ : (P.Free heap).Finite := hfin.sdiff.subset hsub
  refine ⟨hfin₁, ?_⟩
  calc (P.Free heap).ncard + 1 ≤ (P.Free st.heap \ {mem}).ncard + 1 :=
        Nat.add_le_add_right (Set.ncard_le_ncard hsub hfin.sdiff) 1
    _ = (P.Free st.heap).ncard := Set.ncard_sdiff_singleton_add_one hmem hfin

/-- **The loop of `uvmalloc` does not panic while free pages last.** The pages from `a` up to
`top` are unmapped, and `a / PGSIZE` plus the number of free pages is at most `top`: each page
`kalloc` hands out is then mapped below `top`. A loop that maps all its `n` pages has taken a
free page for each. -/
lemma uvmallocLoop_ok_of_card {lo newsz xperm top : ℕ} (hx : xperm < 2 ^ 10)
    (htop : top ≤ MAXVA / PGSIZE) (n : ℕ) :
    ∀ (a : ℕ) (st : Phys σ), Good P st pt → a % PGSIZE = 0 → (P.Free st.heap).Finite →
      a / PGSIZE + (P.Free st.heap).ncard ≤ top →
      (∀ v, a / PGSIZE ≤ v → v < top → view st.mem pt v = none) →
      ∃ r st', uvmallocLoop P pt lo newsz xperm n a st = .ok (r, st') ∧
        (r ≠ 0 → (P.Free st'.heap).Finite ∧
          n + (P.Free st'.heap).ncard ≤ (P.Free st.heap).ncard) := by
  induction n with
  | zero => exact fun a st _ _ hfin _ _ => ⟨newsz, st, rfl, fun _ => ⟨hfin, by omega⟩⟩
  | succ n ih =>
    intro a st hg hal hfin hcount hnone
    have hle : a ≤ MAXVA := by
      rw [MAXVA_eq] at htop ⊢
      unfold PGSIZE at *
      omega
    -- the rollback does not panic, and returns `0`
    have hroll : ∀ st₁ : Phys σ,
        ∃ st', (uvmdealloc P pt a lo st₁).map (fun r => ((0 : ℕ), r.2)) = .ok (0, st') := by
      intro st₁
      obtain ⟨r, st', hd⟩ : ∃ r st', uvmdealloc P pt a lo st₁ = .ok (r, st') :=
        uvmdealloc_ok st₁ hle
      exact ⟨st', by rw [hd]; rfl⟩
    rw [uvmallocLoop]
    rcases hk : kalloc P st with ⟨_ | mem, st₁⟩
    · obtain ⟨st', hd⟩ := hroll st₁
      exact ⟨0, st', hd, fun h => absurd rfl h⟩
    simp only
    obtain ⟨hfin₁, hc₁⟩ := kalloc_ncard hP hk hfin
    -- a page was free, so the page at `a` lies below `top`
    have hlt : a / PGSIZE < top := by omega
    have hva : a < MAXVA := by
      rw [MAXVA_eq] at htop ⊢
      unfold PGSIZE at *
      omega
    obtain ⟨hg₁, hq₁, hv₁, -, -⟩ := hg.of_kalloc hP hk fun hal a ha =>
      (memset_of_ne hal ha : memset st₁.mem mem 0 PGSIZE a = _)
    have hnone₁ : view (memset st₁.mem mem 0 PGSIZE) pt (a / PGSIZE) = none := by
      rw [hv₁]
      exact hnone _ le_rfl hlt
    obtain ⟨r₂, st₂, hmp⟩ : ∃ r st', mappages P pt a PGSIZE mem (PTE_R ||| PTE_U ||| xperm)
        ⟨memset st₁.mem mem 0 PGSIZE, st₁.heap⟩ = .ok (r, st') :=
      mappages_one_ok hP hg₁ hal hva hnone₁
    rw [hmp]
    simp only
    split
    · obtain ⟨st', hd⟩ := hroll _
      exact ⟨0, st', hd, fun h => absurd rfl h⟩
    rename_i hr
    obtain ⟨-, hg₂, hfr₂, hres⟩ := mappages_one hP (Nat.or_lt_two_pow
      (Nat.or_lt_two_pow (by decide) (by decide)) hx) hg₁ hq₁ hmp
    rcases hres with ⟨-, -, hview₂⟩ | ⟨rfl, -⟩
    swap
    · exact absurd hr (by decide)
    -- `walk` takes free pages only: there are no more free pages than after `kalloc`
    have hsub₂ : P.Free st₂.heap ⊆ P.Free st₁.heap := fun q hq => by
      simpa using hfr₂.free hq
    have hfin₂ : (P.Free st₂.heap).Finite := hfin₁.subset hsub₂
    have hc₂ := Set.ncard_le_ncard hsub₂ hfin₁
    obtain ⟨r, st', hrec, hpost⟩ := ih (a + PGSIZE) st₂ hg₂ (by unfold PGSIZE at *; omega) hfin₂
      (by rw [div_add_PGSIZE]; omega) fun v hv hv' => by
        rw [div_add_PGSIZE] at hv
        rw [hview₂, Function.update_of_ne (by omega), hv₁]
        exact hnone v (by omega) hv'
    refine ⟨r, st', hrec, fun hr' => ?_⟩
    obtain ⟨hfin', hc'⟩ := hpost hr'
    exact ⟨hfin', by omega⟩

/-- **`uvmalloc` does not panic while free pages last**, whatever `newsz`: the pages from
`PGROUNDUP(oldsz)` up to `top` are unmapped, and there are at most as many free pages as pages
there. A size it returns, when not `0`, ends no more pages up than it took free pages. -/
theorem uvmalloc_ok_of_card {oldsz newsz xperm top : ℕ} (hx : xperm < 2 ^ 10)
    (htop : top ≤ MAXVA / PGSIZE) {st : Phys σ} (hg : Good P st pt) (hold : oldsz ≤ MAXVA)
    (hfin : (P.Free st.heap).Finite)
    (hcount : PGROUNDUP oldsz / PGSIZE + (P.Free st.heap).ncard ≤ top)
    (hnone : ∀ v, PGROUNDUP oldsz / PGSIZE ≤ v → v < top → view st.mem pt v = none) :
    ∃ r st', uvmalloc P pt oldsz newsz xperm st = .ok (r, st') ∧
      (r ≠ 0 → (P.Free st'.heap).Finite ∧
        PGROUNDUP r / PGSIZE + (P.Free st'.heap).ncard ≤
          PGROUNDUP oldsz / PGSIZE + (P.Free st.heap).ncard) := by
  by_cases hlt : newsz < oldsz
  · rw [uvmalloc, if_pos hlt]
    exact ⟨oldsz, st, rfl, fun _ => ⟨hfin, le_rfl⟩⟩
  obtain ⟨r, st', hl, hpost⟩ := uvmallocLoop_ok_of_card hP hx htop _ _ st hg (PGROUNDUP_mod oldsz)
    hfin hcount hnone
  have hu : uvmalloc P pt oldsz newsz xperm st = .ok (r, st') := by
    rw [uvmalloc, if_neg hlt]
    exact hl
  refine ⟨r, st', hu, fun hr => ?_⟩
  obtain ⟨hfin', hc'⟩ := hpost hr
  obtain ⟨-, -, hres⟩ := uvmalloc_spec hP hx hg hold hu
  -- a size other than `0` is `newsz`, which the pages taken bound
  obtain rfl : r = newsz := by
    rcases hres with ⟨h, -⟩ | ⟨-, h, -⟩ | ⟨h, -⟩
    · exact absurd h hlt
    · exact h
    · exact absurd h hr
  have hnew : r ≤ MAXVA := by
    have hmod := PGROUNDUP_mod oldsz
    rw [MAXVA_eq] at htop ⊢
    unfold PGSIZE at *
    omega
  rw [← grow_end (not_lt.1 hlt) hnew]
  exact ⟨hfin', by omega⟩

/-- What the loop of `uvmcopy` leaves in `new`, from `st₀`, once the pages below `e` are done:
the pages from `e` on as they were, and either success, every page it maps anew taken from the
free pages, or failure, every page below one that failed unmapped and its page given back. -/
structure CopyPost (P : Pool σ) (new e : ℕ) (st₀ st' : Phys σ) (r : ℤ) : Prop where
  good : Good P st' new
  above : ∀ v, e ≤ v → view st'.mem new v = view st₀.mem new v
  result : r = 0 ∧ MapsFrom (view st₀.mem new) (view st'.mem new) (P.Free st₀.heap) ∧
      Frame P new ∅ st₀ st' ∨
    r = -1 ∧ (∃ j < e, view st'.mem new = unmapRange (view st₀.mem new) 0 j) ∧
      Frame P new (targetsIn (view st₀.mem new) 0 e) st₀ st'

theorem uvmcopyLoop_spec {old new : ℕ} (st₀ : Phys σ) (n : ℕ) :
    ∀ (i : ℕ) (st st' : Phys σ) (r : ℤ), Good P st new → i % PGSIZE = 0 →
      (∀ v, i / PGSIZE ≤ v → view st.mem new v = view st₀.mem new v) →
      MapsFrom (view st₀.mem new) (view st.mem new) (P.Free st₀.heap) → Frame P new ∅ st₀ st →
      uvmcopyLoop P old new n i st = .ok (r, st') → CopyPost P new (i / PGSIZE + n) st₀ st' r := by
  induction n with
  | zero =>
    intro i st st' r hg _ hagree hfrom hfr h
    cases h
    exact ⟨hg, hagree, .inl ⟨rfl, hfrom, hfr⟩⟩
  | succ n ih =>
    intro i st st' r hg hal hagree hfrom hfr h
    rw [show i / PGSIZE + (n + 1) = i / PGSIZE + 1 + n by omega]
    have hva : i < MAXVA := by
      by_contra hva
      rw [uvmcopyLoop, walk, if_pos (by omega)] at h
      cases h
    -- the page is done, skipped or copied: go on
    have hskip : ∀ st₁, Good P st₁ new →
        (∀ v, i / PGSIZE + 1 ≤ v → view st₁.mem new v = view st₀.mem new v) →
        MapsFrom (view st₀.mem new) (view st₁.mem new) (P.Free st₀.heap) → Frame P new ∅ st₀ st₁ →
        uvmcopyLoop P old new n (i + PGSIZE) st₁ = .ok (r, st') →
        CopyPost P new (i / PGSIZE + 1 + n) st₀ st' r := by
      intro st₁ hg₁ hagree₁ hfrom₁ hfr₁ h'
      have := ih (i + PGSIZE) st₁ st' r hg₁ (by unfold PGSIZE at *; omega)
        (by rw [div_add_PGSIZE]; exact hagree₁) hfrom₁ hfr₁ h'
      rwa [div_add_PGSIZE] at this
    -- a failure unmaps and frees the pages of `new` below `i`
    have hundo : ∀ st₁, Good P st₁ new → view st₁.mem new = view st.mem new → Frame P new ∅ st₀ st₁ →
        (uvmunmap P new 0 (i / PGSIZE) true st₁).map (fun st => ((-1 : ℤ), st)) = .ok (r, st') →
        CopyPost P new (i / PGSIZE + 1 + n) st₀ st' r := by
      intro st₁ hg₁ hv₁ hfr₁ hu
      rcases hu' : uvmunmap P new 0 (i / PGSIZE) true st₁ with e | st₂
      · rw [hu'] at hu
        cases hu
      rw [hu'] at hu
      cases hu
      have hwrap : 0 + i / PGSIZE * PGSIZE < 2 ^ 64 := by
        rw [MAXVA_eq] at hva
        have := Nat.div_mul_le_self i PGSIZE
        omega
      obtain ⟨-, hg₂, hview₂, hfr₂⟩ := uvmunmap_spec hP hg₁ hwrap hu'
      rw [if_pos rfl, Nat.zero_div, hv₁] at hfr₂
      have hview : view st'.mem new = unmapRange (view st₀.mem new) 0 (i / PGSIZE) := by
        rw [hview₂, Nat.zero_div, hv₁]
        exact unmapRange_congr hagree
      refine ⟨hg₂, fun v hv => ?_, .inr ⟨rfl, ⟨i / PGSIZE, by omega, hview⟩,
        (hfr₁.mono (Set.empty_subset _)).trans hfr₂ ?_⟩⟩
      · rw [hview, unmapRange, setRange_of_not_mem (by omega)]
      · -- what the undo frees was mapped before the call, or is a copy from the free pages
        rintro q ⟨v, fl, -, hv, hq⟩
        rcases hfrom v q fl hq with ⟨fl', hq'⟩ | hq'
        · exact .inr ⟨v, fl', Nat.zero_le _, by omega, hq'⟩
        · exact .inl hq'
    rw [uvmcopyLoop, walk_false P old i st hva] at h
    cases hw : walkRead st.mem i 2 old with
    | none =>
      rw [hw] at h
      exact hskip st hg (fun v hv => hagree v (by omega)) hfrom hfr h
    | some e =>
      rw [hw] at h
      simp only at h
      split at h
      · exact hskip st hg (fun v hv => hagree v (by omega)) hfrom hfr h
      rcases hk : kalloc P st with ⟨_ | mem, st₁⟩
      · -- out of memory
        rw [hk] at h
        obtain ⟨hg₁, hv₁, hfr₁⟩ := hg.of_kalloc_none hP hk
        exact hundo st₁ hg₁ hv₁ (hfr.trans hfr₁ (Set.empty_subset _)) h
      rw [hk] at h
      simp only at h
      obtain ⟨hg₁, hq₁, hv₁, hfr₁, hpf⟩ := hg.of_kalloc hP hk fun hal a ha =>
        (memmove_of_ne hal ha : memmove st₁.mem mem (PTE2PA (st.mem e)) PGSIZE a = _)
      have hfr₁' := hfr.trans hfr₁ (Set.empty_subset _)
      have hmemF : mem ∈ P.Free st₀.heap := by
        rcases hfr.free hpf with h | h
        · exact h
        · exact absurd h (Set.notMem_empty _)
      rcases hmp : mappages P new i PGSIZE mem (PTE_FLAGS (st.mem e))
        ⟨memmove st₁.mem mem (PTE2PA (st.mem e)) PGSIZE, st₁.heap⟩ with e' | ⟨r₂, st₂⟩
      · rw [hmp] at h
        cases h
      rw [hmp] at h
      simp only at h
      obtain ⟨-, hg₂, hfr₂, hres⟩ := mappages_one hP (PTE_FLAGS_lt _) hg₁ hq₁ hmp
      have hfr₂' := hfr₁'.trans hfr₂ (Set.empty_subset _)
      rw [hv₁] at hres
      rcases hres with ⟨rfl, -, hview₂⟩ | ⟨rfl, hview₂, hq₂⟩
      · -- the copy is mapped: go on
        rw [if_neg (by decide)] at h
        refine hskip st₂ hg₂ (fun v hv => ?_) (by rw [hview₂]; exact hfrom.update hmemF) hfr₂' h
        rw [hview₂, Function.update_of_ne (by omega)]
        exact hagree v (by omega)
      · -- `mappages` could not allocate: free the copy and undo
        rw [if_pos (by decide)] at h
        obtain ⟨hg₃, hv₃, hfr₃⟩ := hg₂.free_held hP hq₂
        exact hundo _ hg₃ (by rw [hv₃, hview₂]) (hfr₂'.trans hfr₃ (by simpa using hmemF)) h

/-- **`uvmcopy`**, seen from `new`. -/
theorem uvmcopy_spec {old new sz : ℕ} {st st' : Phys σ} {r : ℤ} (hg : Good P st new)
    (h : uvmcopy P old new sz st = .ok (r, st')) :
    CopyPost P new ((sz + PGSIZE - 1) / PGSIZE) st st' r := by
  have := uvmcopyLoop_spec hP st _ 0 st st' r hg (Nat.zero_mod _) (fun _ _ => rfl)
    (mapsFrom_refl _ _) (Frame.refl _ _ _) h
  rwa [Nat.zero_div, Nat.zero_add] at this

/-- **A failing `uvmcopy`** leaves `new` with every page below the failing one unmapped, the
pages `new` had mapped there before the call included. -/
theorem uvmcopy_fail {old new sz : ℕ} {st st' : Phys σ} (hg : Good P st new)
    (h : uvmcopy P old new sz st = .ok (-1, st')) :
    ∃ j < (sz + PGSIZE - 1) / PGSIZE, view st'.mem new = unmapRange (view st.mem new) 0 j := by
  rcases (uvmcopy_spec hP hg h).result with ⟨h0, -⟩ | ⟨-, hj, -⟩
  · exact absurd h0 (by decide)
  · exact hj

end Spec

end Xv6.Vm.Uvm
