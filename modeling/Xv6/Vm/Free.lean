import Xv6.Vm.Uvm

/-!
Freeing a user page table: `freewalk` and `uvmfree` (`vm.c`).

`freewalk` tells the entries of a table page apart by their bits: a valid entry with none of
`PTE_R`, `PTE_W`, `PTE_X` points to a lower page, which it frees first; a valid entry with
one of them is a leaf, and a leaf left in the table panics. The model recurses on fuel, one
unit a level: from the root with fuel 3, running out means the C code would have read a
level-0 entry as a pointer and gone below it.

What a call did is bounded by a footprint (`Within`): the pages whose words changed and the
pages that became free. A table that shares no page with the footprint reads the same after
the call and stays good (`Good.within`). `freewalk` of a table with no leaf left returns,
with the pages of the table as its footprint (`freewalk_spec`), and so does `uvmfree` of a
table whose leaves all lie below `sz` (`uvmfree_spec`).
-/

namespace Xv6.Vm.Free

open Xv6.Param Xv6.Riscv Xv6.Lib.Alloc Xv6.Lib.Region Xv6.Vm.Walk Xv6.Vm.Map Xv6.Vm.Uvm

section Code

variable {σ : Type*} (P : Pool σ)

def freewalkLoop (child : ℕ → Phys σ → Option (Except String (Phys σ))) (pagetable : ℕ) :
    ℕ → ℕ → Phys σ → Option (Except String (Phys σ))
  | 0, _, st => some (.ok st)
  | n + 1, i, st =>
    let pte := st.mem (pagetable + 8 * i)
    if pte &&& PTE_V ≠ 0 ∧ pte &&& (PTE_R ||| PTE_W ||| PTE_X) = 0 then
      match child (PTE2PA pte) st with
      | some (.ok st) => freewalkLoop child pagetable n (i + 1) (st.store (pagetable + 8 * i) 0)
      | r => r
    else if pte &&& PTE_V ≠ 0 then some (.error "freewalk: leaf")
    else freewalkLoop child pagetable n (i + 1) st

/-- `freewalk(pagetable)`, with `fuel` levels left to descend. -/
def freewalk : ℕ → ℕ → Phys σ → Option (Except String (Phys σ))
  | 0, _, _ => none
  | fuel + 1, pagetable, st =>
    match freewalkLoop (freewalk fuel) pagetable 512 0 st with
    | some (.ok st) => some (.ok (kfree P pagetable st))
    | r => r

/-- `uvmfree(pagetable, sz)`: a root page has three levels below it and itself. -/
def uvmfree (pagetable sz : ℕ) (st : Phys σ) : Option (Except String (Phys σ)) :=
  match (if 0 < sz then uvmunmap P pagetable 0 (PGROUNDUP sz / PGSIZE) true st else .ok st) with
  | .error e => some (.error e)
  | .ok st => freewalk P 3 pagetable st

end Code

/-! ## Unmapping without freeing -/

section Keep

variable {σ : Type*} {P : Pool σ} {pt : ℕ}

/-- **`uvmunmap` without freeing** only clears leaf entries, and needs no more than a tree:
the allocator is untouched and the table keeps its pages. -/
theorem uvmunmapLoop_keep (n : ℕ) :
    ∀ (a : ℕ) (st st' : Phys σ), Tree st.mem pt → uvmunmapLoop P pt false n a st = .ok st' →
      st'.heap = st.heap ∧ node st'.mem pt = node st.mem pt ∧
        view st'.mem pt = unmapRange (view st.mem pt) (a / PGSIZE) n ∧
        (∀ x, st'.mem x ≠ st.mem x → IsNode st.mem pt (PGROUNDDOWN x)) ∧
        (Inner st.mem pt → Inner st'.mem pt) := by
  induction n with
  | zero =>
    intro a st st' _ h
    cases h
    exact ⟨rfl, rfl, (unmapRange_zero _ _).symm, fun x h => absurd rfl h, id⟩
  | succ n ih =>
    intro a st st' ht h
    have hva : a < MAXVA := by
      by_contra hva
      rw [uvmunmapLoop, walk, if_pos (by omega)] at h
      cases h
    -- a page that is not mapped is skipped
    have hskip : view st.mem pt (a / PGSIZE) = none →
        uvmunmapLoop P pt false n (a + PGSIZE) st = .ok st' →
        st'.heap = st.heap ∧ node st'.mem pt = node st.mem pt ∧
          view st'.mem pt = unmapRange (view st.mem pt) (a / PGSIZE) (n + 1) ∧
          (∀ x, st'.mem x ≠ st.mem x → IsNode st.mem pt (PGROUNDDOWN x)) ∧
          (Inner st.mem pt → Inner st'.mem pt) := by
      intro hnone h'
      obtain ⟨hheap, hnode, hview, hmem, hin⟩ := ih _ _ _ ht h'
      rw [div_add_PGSIZE] at hview
      exact ⟨hheap, hnode, by rw [hview, unmapRange_skip hnone], hmem, hin⟩
    rw [uvmunmapLoop, walk_false P pt a st hva] at h
    cases hw : walkRead st.mem a 2 pt with
    | none =>
      rw [hw] at h
      exact hskip (view_of_walkRead_none hw) h
    | some e =>
      rw [hw] at h
      simp only [Bool.false_eq_true, ↓reduceIte] at h
      split at h
      · rename_i hinv
        refine hskip ?_ h
        rw [view_of_walkRead hw hva, valid_of_invalid (by simpa using hinv)]
        rfl
      · -- the page is mapped: its entry is cleared
        obtain ⟨hnode₁, hview₁⟩ := node_view_store_leaf ht hw hva 0
        have ht₁ : Tree (st.store e 0).mem pt := by
          show TreeOK _
          rw [Phys.store_mem, hnode₁]
          exact ht
        obtain ⟨hheap, hnode, hview, hmem, hin⟩ := ih _ _ _ ht₁ h
        rw [div_add_PGSIZE, Phys.store_mem, hview₁, valid_zero, Option.map_none] at hview
        rw [Phys.store_mem, hnode₁] at hnode
        have hisn := isNode_congr hnode₁
        refine ⟨hheap, hnode, by rw [hview, ← unmapRange_succ], fun x hx => ?_,
          fun h => hin (by rw [Phys.store_mem]; exact h.store_leaf ht hw 0)⟩
        by_cases hx' : st'.mem x = (st.store e 0).mem x
        · have hxe : x = e := by
            by_contra hne
            rw [hx', Phys.store_mem, Function.update_of_ne hne] at hx
            exact hx rfl
          rw [hxe]
          exact isNode_of_walkRead hw ht
        · have := hmem x hx'
          rwa [Phys.store_mem, hisn] at this

lemma uvmunmap_one_keep {va : ℕ} {st : Phys σ} (ht : Tree st.mem pt) (hva : va % PGSIZE = 0)
    (hlt : va < MAXVA) :
    ∃ st', uvmunmap P pt va 1 false st = .ok st' ∧ st'.heap = st.heap ∧
      node st'.mem pt = node st.mem pt ∧
      view st'.mem pt = Function.update (view st.mem pt) (va / PGSIZE) none ∧
      (∀ x, st'.mem x ≠ st.mem x → IsNode st.mem pt (PGROUNDDOWN x)) ∧
      (Inner st.mem pt → Inner st'.mem pt) := by
  have hend : va + 1 * PGSIZE ≤ MAXVA := by
    rw [MAXVA_eq] at hlt ⊢
    unfold PGSIZE at hva ⊢
    omega
  obtain ⟨st', h⟩ : ∃ st', uvmunmap P pt va 1 false st = .ok st' := uvmunmap_ok false st hva hend
  have hn : ((va + 1 * PGSIZE) % 2 ^ 64 - va) / PGSIZE = 1 := by
    rw [MAXVA_eq] at hend
    rw [Nat.mod_eq_of_lt (by omega), Nat.add_sub_cancel_left, Nat.mul_div_cancel _ (by decide)]
  have h' := h
  rw [uvmunmap, if_neg (by omega), hn] at h'
  obtain ⟨hheap, hnode, hview, hmem, hin⟩ := uvmunmapLoop_keep 1 va st st' ht h'
  refine ⟨st', h, hheap, hnode, ?_, hmem, hin⟩
  rw [hview, unmapRange_succ, unmapRange_zero]

end Keep

/-! ## `freewalk` -/

section Freewalk

variable {σ : Type*} {P : Pool σ}

/-- `f` frees the pages `F`: from any state that agrees with `st₀` on them, it returns, having
changed words of `F` only and made free pages of `F` only. -/
def Frees (P : Pool σ) (f : Phys σ → Option (Except String (Phys σ))) (F : Set ℕ)
    (st₀ : Phys σ) : Prop :=
  ∀ st, (∀ a, PGROUNDDOWN a ∈ F → st.mem a = st₀.mem a) →
    ∃ st', f st = some (.ok st') ∧ Within P F st st'

lemma Frees.mono {f : Phys σ → Option (Except String (Phys σ))} {F F' : Set ℕ} {st₀ : Phys σ}
    (h : Frees P f F st₀) (hF : F ⊆ F') : Frees P f F' st₀ := fun st hst =>
  let ⟨st', hf, hw⟩ := h st fun a ha => hst a (hF ha)
  ⟨st', hf, hw.mono hF⟩

/-- **The loop of `freewalk`.** If each valid entry of `t` from `i` on is a pointer whose page
below frees the pages `F k`, pairwise apart and apart from `t`, the loop returns, changing
only `t` and those pages. -/
lemma freewalkLoop_spec {child : ℕ → Phys σ → Option (Except String (Phys σ))} {t : ℕ}
    (ht : t % PGSIZE = 0) {st₀ : Phys σ} {F : Fin 512 → Set ℕ} (hFt : ∀ k, t ∉ F k)
    (hFd : ∀ k k', k ≠ k' → ∀ x ∈ F k, x ∉ F k')
    (hent : ∀ k : Fin 512, st₀.mem (t + 8 * k) &&& PTE_V ≠ 0 →
      st₀.mem (t + 8 * k) &&& (PTE_R ||| PTE_W ||| PTE_X) = 0 ∧
        Frees P (child (PTE2PA (st₀.mem (t + 8 * k)))) (F k) st₀) (n : ℕ) :
    ∀ (i : ℕ) (st : Phys σ), i + n = 512 →
      (∀ k : Fin 512, i ≤ k → st.mem (t + 8 * k) = st₀.mem (t + 8 * k)) →
      (∀ k : Fin 512, i ≤ k → ∀ a, PGROUNDDOWN a ∈ F k → st.mem a = st₀.mem a) →
      ∃ st', freewalkLoop child t n i st = some (.ok st') ∧ Within P (insert t (⋃ k, F k)) st st' := by
  induction n with
  | zero => exact fun i st _ _ _ => ⟨st, rfl, Within.refl _ _⟩
  | succ n ih =>
    intro i st hi hentry hsub
    let k : Fin 512 := ⟨i, by omega⟩
    have hpte : st.mem (t + 8 * i) = st₀.mem (t + 8 * i) := hentry k le_rfl
    have hpage : PGROUNDDOWN (t + 8 * i) = t := page_entry ht k
    rw [freewalkLoop, hpte]
    by_cases hv : st₀.mem (t + 8 * i) &&& PTE_V ≠ 0
    · -- a pointer: free the page below, then clear the entry
      obtain ⟨hrwx, hfrees⟩ := hent k hv
      obtain ⟨st₁, hc, hw₁⟩ := hfrees st (hsub k le_rfl)
      rw [if_pos ⟨hv, hrwx⟩, hc]
      dsimp only
      have hst₁ : ∀ a, PGROUNDDOWN a ∉ F k → st₁.mem a = st.mem a := fun a ha => by
        by_contra hne
        exact ha (hw₁.mem a hne)
      have hst₂ : ∀ a, a ≠ t + 8 * i → PGROUNDDOWN a ∉ F k →
          (st₁.store (t + 8 * i) 0).mem a = st.mem a := fun a hai ha => by
        rw [Phys.store_mem, Function.update_of_ne hai, hst₁ a ha]
      obtain ⟨st', hloop, hw'⟩ := ih (i + 1) _ (by omega)
        (fun k' hk' => by
          rw [hst₂ _ (by omega) (by rw [page_entry ht k']; exact hFt k)]
          exact hentry k' (by omega))
        (fun k' hk' a ha => by
          have hne : k' ≠ k := fun h => by rw [h] at hk'; simp [k] at hk'
          have hai : a ≠ t + 8 * i := fun h => hFt k' (by rw [← hpage, ← h]; exact ha)
          rw [hst₂ a hai (hFd k' k hne _ ha)]
          exact hsub k' (by omega) a ha)
      refine ⟨st', hloop, (hw₁.mono ?_).trans (((Within.store st₁ _ 0).mono ?_).trans hw')⟩
      · exact (Set.subset_iUnion F k).trans (Set.subset_insert _ _)
      · rw [hpage]
        exact Set.singleton_subset_iff.2 (Set.mem_insert _ _)
    · -- an invalid entry is skipped
      rw [if_neg fun h => hv h.1, if_neg hv]
      exact ih (i + 1) st (by omega) (fun k' hk' => hentry k' (by omega))
        (fun k' hk' => hsub k' (by omega))

lemma freewalk_frees (hP : P.Lawful) (fuel : ℕ) {t : ℕ} (ht : t % PGSIZE = 0) {st₀ : Phys σ}
    {F : Fin 512 → Set ℕ} (hFt : ∀ k, t ∉ F k) (hFd : ∀ k k', k ≠ k' → ∀ x ∈ F k, x ∉ F k')
    (hent : ∀ k : Fin 512, st₀.mem (t + 8 * k) &&& PTE_V ≠ 0 →
      st₀.mem (t + 8 * k) &&& (PTE_R ||| PTE_W ||| PTE_X) = 0 ∧
        Frees P (freewalk P fuel (PTE2PA (st₀.mem (t + 8 * k)))) (F k) st₀) :
    Frees P (freewalk P (fuel + 1) t) (insert t (⋃ k, F k)) st₀ := by
  intro st hst
  obtain ⟨st₁, hloop, hw₁⟩ := freewalkLoop_spec ht hFt hFd hent 512 0 st rfl
    (fun k _ => hst _ (by rw [page_entry ht k]; exact Set.mem_insert _ _))
    (fun k _ a ha => hst a (Set.mem_insert_of_mem _ (Set.mem_iUnion.2 ⟨k, ha⟩)))
  refine ⟨Walk.kfree P t st₁, by rw [freewalk, hloop], hw₁.trans ?_⟩
  exact (Within.kfree hP ht st₁).mono (Set.singleton_subset_iff.2 (Set.mem_insert _ _))

def nodesAt (m : ℕ → ℕ) (pt : ℕ) (R : Pos → Prop) : Set ℕ := {t | ∃ q, R q ∧ node m pt q = some t}

def Under (i : Fin 512) (q : Pos) : Prop := q = .l1 i ∨ ∃ j, q = .l0 i j

variable {m : ℕ → ℕ} {pt : ℕ}

lemma nodesAt_apart (ht : Tree m pt) {R R' : Pos → Prop} (h : ∀ q, R q → ¬R' q) :
    ∀ x ∈ nodesAt m pt R, x ∉ nodesAt m pt R' := by
  rintro x ⟨q, hq, hx⟩ ⟨q', hq', hx'⟩
  exact h q hq (ht.inj q q' x hx hx' ▸ hq')

lemma not_mem_nodesAt (ht : Tree m pt) {R : Pos → Prop} {q : Pos} {t : ℕ}
    (hq : node m pt q = some t) (hR : ¬R q) : t ∉ nodesAt m pt R := by
  rintro ⟨q', hq', hx⟩
  exact hR (ht.inj q' q t hx hq ▸ hq')

/-- No valid entry is left in a level-0 page. -/
def NoLeaf (m : ℕ → ℕ) (pt : ℕ) : Prop :=
  ∀ i j u, node m pt (.l0 i j) = some u → ∀ k : Fin 512, m (u + 8 * k) &&& PTE_V = 0

lemma noLeaf_of_view (hin : Inner m pt) (hv : ∀ v, view m pt v = none) : NoLeaf m pt := by
  intro i j u hu k
  have hi : (i : ℕ) < 256 := by
    rw [node_l0] at hu
    cases h1 : node m pt (.l1 i) with
    | none => rw [h1] at hu; cases hu
    | some t =>
      have hvalid : m (pt + 8 * i) &&& PTE_V ≠ 0 := by
        intro h0
        rw [show node m pt (.l1 i) = child (m (pt + 8 * i)) from rfl, child_of_invalid (by simpa using h0)] at h1
        cases h1
      exact (hin.root i hvalid).1
  have h := hv (2 ^ 18 * i + 2 ^ 9 * j + k)
  rw [view_digits hi, hu, Option.bind_some, Option.map_eq_none_iff] at h
  by_contra hne
  rw [valid_of_valid hne] at h
  cases h

variable (hP : P.Lawful)
include hP

lemma freewalk_l0 (fuel : ℕ) {u : ℕ} (hu : u % PGSIZE = 0) {st₀ : Phys σ}
    (hinv : ∀ k : Fin 512, st₀.mem (u + 8 * k) &&& PTE_V = 0) :
    Frees P (freewalk P (fuel + 1) u) {u} st₀ := by
  have h := freewalk_frees hP fuel hu (F := fun _ => ∅) (fun _ => Set.notMem_empty _)
    (fun _ _ _ _ hx => absurd hx (Set.notMem_empty _)) fun k hk => absurd (hinv k) hk
  simpa using h

lemma freewalk_l1 (fuel : ℕ) {st₀ : Phys σ} (ht : Tree st₀.mem pt) (hin : Inner st₀.mem pt)
    (hno : NoLeaf st₀.mem pt) {i : Fin 512} {t : ℕ} (hti : node st₀.mem pt (.l1 i) = some t) :
    Frees P (freewalk P (fuel + 2) t) (nodesAt st₀.mem pt (Under i)) st₀ := by
  have hset : insert t (⋃ j, nodesAt st₀.mem pt (· = .l0 i j)) = nodesAt st₀.mem pt (Under i) := by
    ext x
    simp only [Set.mem_insert_iff, Set.mem_iUnion, nodesAt, Under, Set.mem_ofPred_eq]
    constructor
    · rintro (rfl | ⟨j, q, rfl, hq⟩)
      · exact ⟨_, .inl rfl, hti⟩
      · exact ⟨_, .inr ⟨j, rfl⟩, hq⟩
    · rintro ⟨q, rfl | ⟨j, rfl⟩, hq⟩
      · exact .inl (Option.some.inj (hq.symm.trans hti))
      · exact .inr ⟨j, _, rfl, hq⟩
  rw [← hset]
  refine freewalk_frees hP (fuel + 1) (ht.node_aligned hti)
    (fun j => not_mem_nodesAt ht hti (by simp)) (fun j j' hne => nodesAt_apart ht (by
      rintro q rfl h
      exact hne (Pos.l0.inj h).2)) fun j hv => ⟨hin.mid i t hti j hv, ?_⟩
  -- the entry points to the level-0 page at `(i, j)`
  have hu : node st₀.mem pt (.l0 i j) = some (PTE2PA (st₀.mem (t + 8 * j))) := by
    rw [node_l0, hti, Option.bind_some, child_of_valid hv]
  refine (freewalk_l0 hP fuel (ht.node_aligned hu) (hno i j _ hu)).mono ?_
  exact Set.singleton_subset_iff.2 ⟨_, rfl, hu⟩

/-- **`freewalk` of a table with no leaf left** returns, having changed and freed pages of the
table only. -/
theorem freewalk_spec {st : Phys σ} (ht : Tree st.mem pt) (hin : Inner st.mem pt)
    (hno : NoLeaf st.mem pt) :
    ∃ st', freewalk P 3 pt st = some (.ok st') ∧ Within P {t | IsNode st.mem pt t} st st' := by
  have hset : insert pt (⋃ i, nodesAt st.mem pt (Under i)) = {t | IsNode st.mem pt t} := by
    ext x
    simp only [Set.mem_insert_iff, Set.mem_iUnion, nodesAt, Under, Set.mem_ofPred_eq, IsNode]
    constructor
    · rintro (rfl | ⟨i, q, -, hq⟩)
      · exact ⟨.l2, rfl⟩
      · exact ⟨q, hq⟩
    · rintro ⟨q, hq⟩
      cases q with
      | l2 => exact .inl (Option.some.inj hq).symm
      | l1 i => exact .inr ⟨i, _, .inl rfl, hq⟩
      | l0 i j => exact .inr ⟨i, _, .inr ⟨j, rfl⟩, hq⟩
  have h := freewalk_frees hP 2 ht.root_aligned (F := fun i => nodesAt st.mem pt (Under i))
    (fun i => not_mem_nodesAt ht (q := .l2) rfl (by simp [Under]))
    (fun i i' hne => nodesAt_apart ht (by
      rintro q (rfl | ⟨j, rfl⟩) (h | ⟨j', h⟩)
      · exact hne (Pos.l1.inj h)
      · cases h
      · cases h
      · exact hne (Pos.l0.inj h).1))
    fun i hv => ⟨(hin.root i hv).2, freewalk_l1 hP 0 ht hin hno (child_of_valid hv)⟩
  rw [hset] at h
  exact h st fun _ _ => rfl

end Freewalk

/-! ## `uvmfree` -/

section Uvmfree

variable {σ : Type*} {P : Pool σ} {pt sz : ℕ} (hP : P.Lawful)
include hP

/-- **`uvmfree`** of a good table whose every leaf lies below `PGROUNDUP(sz)` returns: it frees
the mapped pages, then the pages of the table. -/
theorem uvmfree_spec {st : Phys σ} (hg : Good P st pt) (hin : Inner st.mem pt) (hsz : sz ≤ MAXVA)
    (hbelow : ∀ v x, view st.mem pt v = some x → v < PGROUNDUP sz / PGSIZE) :
    ∃ st', uvmfree P pt sz st = some (.ok st') ∧ Within P (Owned st.mem pt ∪ P.Free st.heap) st st' := by
  -- first the mapped pages: after them the table translates nothing
  obtain ⟨st₁, hu, hg₁, hv₁, hfr⟩ : ∃ st₁,
      (if 0 < sz then uvmunmap P pt 0 (PGROUNDUP sz / PGSIZE) true st else .ok st) = .ok st₁ ∧
      Good P st₁ pt ∧ (∀ v, view st₁.mem pt v = none) ∧
      Frame P pt (targetsIn (view st.mem pt) 0 (PGROUNDUP sz / PGSIZE)) st st₁ := by
    by_cases hpos : 0 < sz
    · have hend : 0 + PGROUNDUP sz / PGSIZE * PGSIZE ≤ MAXVA :=
        (Nat.zero_add _).symm ▸ (Nat.div_mul_le_self _ _).trans (PGROUNDUP_le_MAXVA hsz)
      obtain ⟨st₁, hu⟩ := uvmunmap_ok (P := P) true st (Nat.zero_mod _) hend
      have hwrap : 0 + PGROUNDUP sz / PGSIZE * PGSIZE < 2 ^ 64 :=
        lt_of_le_of_lt hend (by rw [MAXVA_eq]; norm_num)
      obtain ⟨-, hg₁, hview, hfr⟩ := uvmunmap_spec hP hg hwrap hu
      refine ⟨st₁, by rw [if_pos hpos]; exact hu, hg₁, fun v => ?_, by simpa using hfr⟩
      rw [hview, Nat.zero_div, unmapRange]
      by_cases hv : v < PGROUNDUP sz / PGSIZE
      · exact setRange_of_mem ⟨Nat.zero_le _, by omega⟩
      · rw [setRange_of_not_mem (by omega)]
        cases h : view st.mem pt v with
        | none => rfl
        | some x => exact absurd (hbelow v x h) hv
    · refine ⟨st, by rw [if_neg hpos], hg, fun v => ?_, Frame.refl _ _ _⟩
      cases h : view st.mem pt v with
      | none => rfl
      | some x =>
        have := hbelow v x h
        rw [show sz = 0 by omega, show PGROUNDUP 0 / PGSIZE = 0 by decide] at this
        exact absurd this (Nat.not_lt_zero _)
  -- then the pages of the table, which it had or took from the free pages
  obtain ⟨st₂, hfw, hw₂⟩ := freewalk_spec hP hg₁.tree (hfr.inner hin) (noLeaf_of_view (hfr.inner hin) hv₁)
  refine ⟨st₂, by rw [uvmfree, hu]; exact hfw, (hfr.within.mono ?_).trans (hw₂.mono ?_)⟩
  · rintro x (hx | hx | ⟨v, fl, -, -, hv⟩)
    · exact .inl (.inl hx)
    · exact .inr hx
    · exact .inl (.inr ⟨v, fl, hv⟩)
  · intro x hx
    rcases hfr.node_new x hx with hx | hx | ⟨v, fl, -, -, hv⟩
    · exact .inl (.inl hx)
    · exact .inr hx
    · exact .inl (.inr ⟨v, fl, hv⟩)

end Uvmfree

end Xv6.Vm.Free
