import Xv6.Vm.Walk

/-!
A user page table as a finite map, and the invariant under which `vm.c` keeps it one.

The abstract translation `VMap` sends a virtual page number to a physical page and the flags
of its entry; `mapRange`, `unmapRange` and `clearU` are what `mappages`, `uvmunmap` and
`uvmclear` are meant to do to it, and `userPage` is what `walkaddr` is meant to return.

`Good` is the invariant of a table together with the allocator: a tree of distinct pages,
free pages that are neither pages of the table nor mapped by it, and mapped pages that are
distinct and owned by the table. A page the caller `Held`s may be mapped. Each primitive
change the code makes (map a leaf, unmap a leaf, clear `PTE_U`, take a page from the
allocator, give a held page back) keeps `Good` and changes the translation as the abstract
operation says. `Frame` records what a call does to memory outside the table's own pages:
other tables that share no page with it read the same before and after.
-/

namespace Xv6.Vm.Map

open Xv6.Param Xv6.Riscv Xv6.Lib.Alloc Xv6.Lib.Region Xv6.Vm.Walk

/-! ## The abstract translation -/

/-- Virtual page numbers to a physical page and the flags of its entry. -/
abbrev VMap := ℕ → Option (ℕ × ℕ)

/-- `n` pages from `vpn` mapped to consecutive physical pages from `pa`, with `perm | PTE_V`. -/
def mapRange (M : VMap) (vpn n pa perm : ℕ) : VMap :=
  setRange M vpn n fun v => some (pa + (v - vpn) * PGSIZE, perm ||| PTE_V)

/-- `n` pages from `vpn` unmapped. -/
def unmapRange (M : VMap) (vpn n : ℕ) : VMap := setRange M vpn n fun _ => none

/-- The page `vpn` keeps its physical page and loses `PTE_U`. -/
def clearU (M : VMap) (vpn : ℕ) : VMap :=
  Function.update M vpn ((M vpn).map fun e => (e.1, e.2 &&& bnot64 PTE_U))

/-- What `walkaddr` is for: the physical page of a mapped user page, `0` otherwise. -/
def userPage (M : VMap) (va : ℕ) : ℕ :=
  if MAXVA ≤ va then 0
  else
    match M (va / PGSIZE) with
    | some (pa, fl) => if fl &&& PTE_U = 0 then 0 else pa
    | none => 0

/-- The physical pages mapped by the `n` pages from `vpn`. -/
def targetsIn (M : VMap) (vpn n : ℕ) : Set ℕ :=
  {pa | ∃ v fl, vpn ≤ v ∧ v < vpn + n ∧ M v = some (pa, fl)}

/-- `M'` is `M` with the pages of `[lo, lo + n)`, all unmapped in `M`, mapped with flags `fl`. -/
def MapsNew (M M' : VMap) (lo n fl : ℕ) : Prop :=
  ∀ v, (lo ≤ v ∧ v < lo + n → M v = none ∧ ∃ pa, M' v = some (pa, fl)) ∧
    (¬(lo ≤ v ∧ v < lo + n) → M' v = M v)

/-- Every page `M'` maps anew is in `F`. -/
def NewFrom (M M' : VMap) (F : Set ℕ) : Prop :=
  ∀ v pa fl, M' v = some (pa, fl) → M v = none → pa ∈ F

/-- Every page `M'` maps was mapped by `M` at the same page, or is in `F`. -/
def MapsFrom (M M' : VMap) (F : Set ℕ) : Prop :=
  ∀ v pa fl, M' v = some (pa, fl) → (∃ fl', M v = some (pa, fl')) ∨ pa ∈ F

lemma mapsNew_zero (M : VMap) (lo fl : ℕ) : MapsNew M M lo 0 fl :=
  fun v => ⟨fun h => absurd h.2 (by omega), fun _ => rfl⟩

lemma MapsNew.snoc {M M' : VMap} {lo n fl : ℕ} (h : MapsNew M M' lo n fl)
    (hv : M (lo + n) = none) (pa : ℕ) :
    MapsNew M (Function.update M' (lo + n) (some (pa, fl))) lo (n + 1) fl := by
  intro v
  by_cases hvn : v = lo + n
  · subst hvn
    rw [Function.update_self]
    exact ⟨fun _ => ⟨hv, pa, rfl⟩, fun h' => absurd ⟨by omega, by omega⟩ h'⟩
  · rw [Function.update_of_ne hvn]
    refine ⟨fun h' => (h v).1 ⟨h'.1, by omega⟩, fun h' => (h v).2 fun h'' => h' ⟨h''.1, by omega⟩⟩

lemma MapsNew.unmap {M M' : VMap} {lo n fl : ℕ} (h : MapsNew M M' lo n fl) :
    unmapRange M' lo n = M := by
  funext v
  unfold unmapRange setRange
  split
  · rename_i hv
    exact ((h v).1 hv).1.symm
  · rename_i hv
    exact (h v).2 hv

lemma MapsNew.eq_of_zero {M M' : VMap} {lo fl : ℕ} (h : MapsNew M M' lo 0 fl) : M' = M := by
  have := h.unmap
  rwa [unmapRange, setRange_zero] at this

lemma MapsNew.targetsIn_sub {M M' : VMap} {lo n fl : ℕ} {F : Set ℕ} (h : MapsNew M M' lo n fl)
    (hF : NewFrom M M' F) : targetsIn M' lo n ⊆ F :=
  fun _ ⟨v, fl', h₁, h₂, hv⟩ => hF v _ fl' hv ((h v).1 ⟨h₁, h₂⟩).1

lemma newFrom_refl (M : VMap) (F : Set ℕ) : NewFrom M M F :=
  fun _ _ _ h h' => absurd (h.symm.trans h') (by simp)

lemma NewFrom.update {M M' : VMap} {F : Set ℕ} (h : NewFrom M M' F) {vpn pa fl : ℕ} (hpa : pa ∈ F) :
    NewFrom M (Function.update M' vpn (some (pa, fl))) F := by
  intro v q fl' hv hnone
  by_cases hvn : v = vpn
  · subst hvn
    rw [Function.update_self, Option.some.injEq, Prod.mk.injEq] at hv
    rw [← hv.1]
    exact hpa
  · rw [Function.update_of_ne hvn] at hv
    exact h v q fl' hv hnone

lemma mapsFrom_refl (M : VMap) (F : Set ℕ) : MapsFrom M M F := fun _ _ fl h => .inl ⟨fl, h⟩

lemma MapsFrom.update {M M' : VMap} {F : Set ℕ} (h : MapsFrom M M' F) {vpn pa fl : ℕ}
    (hpa : pa ∈ F) : MapsFrom M (Function.update M' vpn (some (pa, fl))) F := by
  intro v q fl' hv
  by_cases hvn : v = vpn
  · subst hvn
    rw [Function.update_self, Option.some.injEq, Prod.mk.injEq] at hv
    rw [← hv.1]
    exact .inr hpa
  · rw [Function.update_of_ne hvn] at hv
    exact h v q fl' hv

lemma MapsFrom.trans {M M' M'' : VMap} {F : Set ℕ} (h : MapsFrom M M' F) (h' : MapsFrom M' M'' F) :
    MapsFrom M M'' F := by
  intro v pa fl hv
  rcases h' v pa fl hv with ⟨fl', hv'⟩ | hpa
  · exact h v pa fl' hv'
  · exact .inr hpa

lemma mapRange_succ (M : VMap) (vpn n pa perm : ℕ) :
    mapRange M vpn (n + 1) pa perm =
      mapRange (Function.update M vpn (some (pa, perm ||| PTE_V))) (vpn + 1) n (pa + PGSIZE) perm := by
  rw [mapRange, mapRange, setRange_succ, Nat.sub_self, Nat.zero_mul, Nat.add_zero]
  apply setRange_congr
  intro v hv _
  have hsplit : (v - vpn) * PGSIZE = PGSIZE + (v - (vpn + 1)) * PGSIZE := by
    rw [show v - vpn = v - (vpn + 1) + 1 by omega, Nat.add_mul, Nat.one_mul, Nat.add_comm]
  rw [hsplit, Nat.add_assoc]

lemma unmapRange_succ (M : VMap) (vpn n : ℕ) :
    unmapRange M vpn (n + 1) = unmapRange (Function.update M vpn none) (vpn + 1) n :=
  setRange_succ M vpn n _

@[simp] lemma mapRange_zero (M : VMap) (vpn pa perm : ℕ) : mapRange M vpn 0 pa perm = M :=
  setRange_zero M vpn _

@[simp] lemma unmapRange_zero (M : VMap) (vpn : ℕ) : unmapRange M vpn 0 = M :=
  setRange_zero M vpn _

lemma unmapRange_of_none {M : VMap} {vpn n : ℕ} (h : ∀ v, vpn ≤ v → v < vpn + n → M v = none) :
    unmapRange M vpn n = M := by
  funext v
  unfold unmapRange setRange
  split
  · rename_i hv
    exact (h v hv.1 hv.2).symm
  · rfl

lemma unmapRange_congr {M M' : VMap} {k : ℕ} (h : ∀ v, k ≤ v → M v = M' v) :
    unmapRange M 0 k = unmapRange M' 0 k := by
  funext v
  unfold unmapRange setRange
  split
  · rfl
  · exact h v (by omega)

lemma unmapRange_eq_some {M : VMap} {vpn n v : ℕ} {x : ℕ × ℕ} (h : unmapRange M vpn n v = some x) :
    ¬(vpn ≤ v ∧ v < vpn + n) ∧ M v = some x := by
  unfold unmapRange at h
  by_cases hv : vpn ≤ v ∧ v < vpn + n
  · rw [setRange_of_mem hv] at h
    cases h
  · rw [setRange_of_not_mem hv] at h
    exact ⟨hv, h⟩

lemma clearU_some {M : VMap} {vpn v q fl : ℕ} (h : clearU M vpn v = some (q, fl)) :
    ∃ fl', M v = some (q, fl') := by
  unfold clearU at h
  by_cases hv : v = vpn
  · subst hv
    rw [Function.update_self] at h
    obtain ⟨⟨q', fl'⟩, hq, he⟩ := Option.map_eq_some_iff.1 h
    simp only [Prod.mk.injEq] at he
    exact ⟨fl', by rw [hq, he.1]⟩
  · rw [Function.update_of_ne hv] at h
    exact ⟨fl, h⟩

lemma userPage_ne_zero {M : VMap} {va : ℕ} (h : userPage M va ≠ 0) :
    va < MAXVA ∧ ∃ fl, M (va / PGSIZE) = some (userPage M va, fl) ∧ fl &&& PTE_U ≠ 0 := by
  unfold userPage at h ⊢
  split at h
  · exact absurd rfl h
  rename_i hva
  rw [if_neg hva]
  refine ⟨by omega, ?_⟩
  split at h
  · rename_i pa fl hM
    rw [hM]
    split at h
    · exact absurd rfl h
    · rename_i hU
      rw [if_neg hU]
      exact ⟨fl, rfl, hU⟩
  · exact absurd rfl h

/-! ## Reading the translation at a leaf entry -/

section Leaf

variable {m : ℕ → ℕ} {pt va e : ℕ}

lemma walkRead_page (m : ℕ → ℕ) (pt va : ℕ) :
    walkRead m (va / PGSIZE * PGSIZE) 2 pt = walkRead m va 2 pt := by
  rw [walkRead_two, walkRead_two, px_page, px_page, PX_page]

lemma vpn_lt_of_lt_MAXVA (hva : va < MAXVA) : va / PGSIZE < MAXVA / PGSIZE := by
  rw [MAXVA_eq] at hva ⊢
  unfold PGSIZE
  omega

/-- The translation of `va`'s page, read at the leaf entry `walk` finds for it. -/
lemma view_of_walkRead (hw : walkRead m va 2 pt = some e) (hva : va < MAXVA) :
    view m pt (va / PGSIZE) = (valid (m e)).map fun pte => (PTE2PA pte, PTE_FLAGS pte) := by
  rw [view, if_pos (vpn_lt_of_lt_MAXVA hva), leafPTE, walkRead_page, hw, Option.bind_some]

lemma view_of_walkRead_none (hw : walkRead m va 2 pt = none) : view m pt (va / PGSIZE) = none := by
  unfold view
  split
  · rw [leafPTE, walkRead_page, hw]
    rfl
  · rfl

lemma isNode_of_walkRead (hw : walkRead m va 2 pt = some e) (ht : Tree m pt) :
    IsNode m pt (PGROUNDDOWN e) := by
  obtain ⟨t0, hn0, rfl⟩ := Option.map_eq_some_iff.1 ((walkRead_two m pt va).symm.trans hw)
  exact ⟨_, by rw [← px_val 0, page_entry (ht.node_aligned hn0)]; exact hn0⟩

lemma view_lt {vpn : ℕ} {x : ℕ × ℕ} (h : view m pt vpn = some x) : vpn < MAXVA / PGSIZE := by
  unfold view at h
  split at h
  · assumption
  · cases h

lemma view_aligned {vpn q fl : ℕ} (h : view m pt vpn = some (q, fl)) : q % PGSIZE = 0 := by
  unfold view at h
  split at h
  · obtain ⟨pte, -, he⟩ := Option.map_eq_some_iff.1 h
    rw [← (Prod.mk.inj he).1]
    exact PTE2PA_mod pte
  · cases h

lemma view_digits {i j : Fin 512} (hi : (i : ℕ) < 256) (k : Fin 512) :
    view m pt (2 ^ 18 * i + 2 ^ 9 * j + k) =
      ((node m pt (.l0 i j)).bind fun u => valid (m (u + 8 * k))).map
        fun pte => (PTE2PA pte, PTE_FLAGS pte) := by
  obtain ⟨h2, h1, h0⟩ := PX_of_digits i.2 j.2 k.2
  have hlt : 2 ^ 18 * (i : ℕ) + 2 ^ 9 * j + k < MAXVA / PGSIZE := by
    rw [MAXVA_eq]
    unfold PGSIZE
    omega
  rw [view, if_pos hlt, leafPTE_eq, h0, show px 2 _ = i from Fin.ext h2,
    show px 1 _ = j from Fin.ext h1]

lemma isNode_congr {m' : ℕ → ℕ} (h : node m' pt = node m pt) : IsNode m' pt = IsNode m pt := by
  funext t
  unfold IsNode
  rw [h]

lemma valid_of_valid {x : ℕ} (h : x &&& PTE_V ≠ 0) : valid x = some x := if_pos h

lemma valid_of_invalid {x : ℕ} (h : ¬x &&& PTE_V ≠ 0) : valid x = none := if_neg h

@[simp] lemma valid_zero : valid 0 = none := rfl

end Leaf

/-! ## Taking and writing pages -/

section Alloc

lemma memset_of_ne {m : ℕ → ℕ} {p c a : ℕ} (hp : p % PGSIZE = 0) (ha : PGROUNDDOWN a ≠ p) :
    memset m p c PGSIZE a = m a :=
  setRange_block_of_ne (by decide) hp ha

lemma memmove_of_ne {m : ℕ → ℕ} {p src a : ℕ} (hp : p % PGSIZE = 0) (ha : PGROUNDDOWN a ≠ p) :
    memmove m p src PGSIZE a = m a :=
  setRange_block_of_ne (by decide) hp ha

variable {σ : Type*} {P : Pool σ} {st st₁ : Phys σ}

lemma kalloc_eq_some {p : ℕ} (h : kalloc P st = (some p, st₁)) :
    ∃ heap, P.alloc st.heap = (some p, heap) ∧ st₁ = ⟨memset st.mem p 5 PGSIZE, heap⟩ := by
  rcases ha : P.alloc st.heap with ⟨_ | r, heap⟩
  · simp [kalloc, ha] at h
  · simp only [kalloc, ha, Prod.mk.injEq, Option.some.injEq] at h
    obtain ⟨rfl, rfl⟩ := h
    exact ⟨heap, rfl, rfl⟩

lemma kalloc_eq_none (h : kalloc P st = (none, st₁)) :
    ∃ heap, P.alloc st.heap = (none, heap) ∧ st₁ = ⟨st.mem, heap⟩ := by
  rcases ha : P.alloc st.heap with ⟨_ | r, heap⟩
  · simp only [kalloc, ha, Prod.mk.injEq, true_and] at h
    exact ⟨heap, rfl, h.symm⟩
  · simp [kalloc, ha] at h

end Alloc

/-! ## The invariant -/

section Inv

variable {σ : Type*} (P : Pool σ)

/-- The invariant of a user page table, together with the allocator. -/
structure Good (st : Phys σ) (pt : ℕ) : Prop where
  tree : Tree st.mem pt
  free : FreeOK P st pt
  /-- A mapped page fits in an entry, is not free, and is not a page of the table. -/
  target : ∀ vpn pa fl, view st.mem pt vpn = some (pa, fl) →
    pa < 2 ^ 56 ∧ pa ∉ P.Free st.heap ∧ ¬IsNode st.mem pt pa
  /-- No physical page is mapped twice. -/
  target_inj : ∀ vpn vpn' pa fl fl', view st.mem pt vpn = some (pa, fl) →
    view st.mem pt vpn' = some (pa, fl') → vpn = vpn'

/-- A page the caller holds and may map: aligned, fits in an entry, not free, neither a page of
the table nor mapped by it. -/
structure Held (st : Phys σ) (pt q : ℕ) : Prop where
  aligned : q % PGSIZE = 0
  lt : q < 2 ^ 56
  not_free : q ∉ P.Free st.heap
  not_node : ¬IsNode st.mem pt q
  not_target : ∀ vpn fl, view st.mem pt vpn ≠ some (q, fl)

/-- What a call on the table `pt` does outside its translation: the table keeps its pages and
gains only free ones or pages of `gone`; pages become free only if they are in `gone`; and a
word changes only in a page of the table, a page that was free, or a page of `gone`. -/
structure Frame (pt : ℕ) (gone : Set ℕ) (st st' : Phys σ) : Prop where
  node_mono : ∀ r t, node st.mem pt r = some t → node st'.mem pt r = some t
  node_new : ∀ t, IsNode st'.mem pt t → IsNode st.mem pt t ∨ t ∈ P.Free st.heap ∪ gone
  free : P.Free st'.heap ⊆ P.Free st.heap ∪ gone
  changed : ∀ a, st'.mem a ≠ st.mem a →
    IsNode st'.mem pt (PGROUNDDOWN a) ∨ PGROUNDDOWN a ∈ P.Free st.heap ∪ gone
  inner : Inner st.mem pt → Inner st'.mem pt

variable {P} {st st' st'' : Phys σ} {pt : ℕ} {gone gone' : Set ℕ}

namespace Frame

lemma refl (st : Phys σ) (pt : ℕ) (gone : Set ℕ) : Frame P pt gone st st where
  node_mono _ _ h := h
  node_new _ h := .inl h
  free := Set.subset_union_left
  changed _ h := absurd rfl h
  inner h := h

lemma mono (h : Frame P pt gone st st') (hg : gone ⊆ gone') : Frame P pt gone' st st' where
  node_mono := h.node_mono
  node_new t ht := (h.node_new t ht).imp_right fun h' => Set.union_subset_union_right _ hg h'
  free := h.free.trans (Set.union_subset_union_right _ hg)
  changed a ha := (h.changed a ha).imp_right fun h' => Set.union_subset_union_right _ hg h'
  inner := h.inner

lemma trans (h₁ : Frame P pt gone st st') (h₂ : Frame P pt gone' st' st'')
    (hg : gone' ⊆ P.Free st.heap ∪ gone) : Frame P pt gone st st'' where
  node_mono r t h := h₂.node_mono r t (h₁.node_mono r t h)
  node_new t ht := by
    have hsub : P.Free st'.heap ∪ gone' ⊆ P.Free st.heap ∪ gone :=
      Set.union_subset h₁.free hg
    rcases h₂.node_new t ht with h' | h'
    · exact h₁.node_new t h'
    · exact .inr (hsub h')
  free := (Set.union_subset h₁.free hg).trans' (h₂.free)
  changed a ha := by
    by_cases h' : st''.mem a = st'.mem a
    · rcases h₁.changed a (by rwa [h'] at ha) with ⟨r, hr⟩ | h''
      · exact .inl ⟨r, h₂.node_mono r _ hr⟩
      · exact .inr h''
    · rcases h₂.changed a h' with h'' | h''
      · exact .inl h''
      · exact .inr (Set.union_subset h₁.free hg h'')
  inner h := h₂.inner (h₁.inner h)

lemma of_grows (h : Grows P pt st st') : Frame P pt gone st st' where
  node_mono := h.node_mono
  node_new t ht := (h.node_new t ht).imp_right fun h' => .inl h'.1
  free := h.free_sub.trans Set.subset_union_left
  changed a ha := .inl (h.changed a ha)
  inner := h.inner

end Frame

/-- **A zeroed root page** is a table with no page below it and an empty translation. -/
lemma Good.empty (hpt : pt % PGSIZE = 0) (hzero : ∀ i : Fin 512, st.mem (pt + 8 * i) = 0)
    (hfree : ∀ p ∈ P.Free st.heap, p % PGSIZE = 0 ∧ p < 2 ^ 56 ∧ p ≠ pt) :
    Good P st pt ∧ view st.mem pt = (fun _ => none) ∧ ∀ t, IsNode st.mem pt t → t = pt := by
  -- the root is the only page of the table
  have hn : ∀ r t, node st.mem pt r = some t → r = .l2 ∧ t = pt := by
    intro r t h
    cases r with
    | l2 => exact ⟨rfl, (Option.some.inj h).symm⟩
    | l1 i => simp [node, hzero i] at h
    | l0 i j => simp [node, hzero i] at h
  have hview : view st.mem pt = fun _ => none := by
    funext vpn
    unfold view
    split
    · have h0 : node st.mem pt (.l0 (px 2 (vpn * PGSIZE)) (px 1 (vpn * PGSIZE))) = none := by
        cases hnode : node st.mem pt (.l0 _ _) with
        | none => rfl
        | some t => cases (hn _ t hnode).1
      rw [leafPTE_eq, h0]
      rfl
    · rfl
  have htree : Tree st.mem pt := by
    show TreeOK _
    exact ⟨fun r t h => (hn r t h).2 ▸ hpt, fun r r' t h h' => (hn r t h).1.trans (hn r' t h').1.symm⟩
  refine ⟨⟨htree, fun p hp => ?_, fun vpn q fl h => ?_, fun vpn _ q fl _ h => ?_⟩, hview,
    fun t ht => Exists.elim ht fun r hr => (hn r t hr).2⟩
  · obtain ⟨hal, hlt, hne⟩ := hfree p hp
    exact ⟨hal, hlt, fun hp' => Exists.elim hp' fun r hr => hne (hn r p hr).2⟩
  · rw [hview] at h
    cases h
  · rw [hview] at h
    cases h

lemma Good.grows (hg : Good P st pt) (hw : Grows P pt st st') : Good P st' pt where
  tree := hw.tree
  free := hw.freeOK hg.free
  target vpn pa fl h := by
    rw [hw.view_eq] at h
    obtain ⟨hlt, hnf, hnn⟩ := hg.target vpn pa fl h
    refine ⟨hlt, fun hf => hnf (hw.free_sub hf), fun hn => ?_⟩
    rcases hw.node_new pa hn with h' | ⟨hf, _⟩
    · exact hnn h'
    · exact hnf hf
  target_inj vpn vpn' pa fl fl' h h' := by
    rw [hw.view_eq] at h h'
    exact hg.target_inj _ _ _ _ _ h h'

lemma Held.grows {q : ℕ} (hq : Held P st pt q) (hw : Grows P pt st st') : Held P st' pt q where
  aligned := hq.aligned
  lt := hq.lt
  not_free hf := hq.not_free (hw.free_sub hf)
  not_node hn := by
    rcases hw.node_new q hn with h' | ⟨hf, _⟩
    · exact hq.not_node h'
    · exact hq.not_free hf
  not_target vpn fl := by
    rw [hw.view_eq]
    exact hq.not_target vpn fl

/-- **Mapping a page.** The leaf entry of an unmapped page gets a held page. -/
lemma Good.map_leaf (hg : Good P st pt) {va e pa perm : ℕ} (hw : walkRead st.mem va 2 pt = some e)
    (hva : va < MAXVA) (hq : Held P st pt pa) (hperm : perm < 2 ^ 10) :
    Good P (st.store e (PA2PTE pa ||| perm ||| PTE_V)) pt ∧
      view (st.store e (PA2PTE pa ||| perm ||| PTE_V)).mem pt =
        Function.update (view st.mem pt) (va / PGSIZE) (some (pa, perm ||| PTE_V)) ∧
      Frame P pt ∅ st (st.store e (PA2PTE pa ||| perm ||| PTE_V)) := by
  obtain ⟨hV, hpa, hfl⟩ := mappages_PTE hq.aligned hq.lt hperm
  obtain ⟨hnode, hview⟩ := node_view_store_leaf hg.tree hw hva (PA2PTE pa ||| perm ||| PTE_V)
  have hview' : view (st.store e (PA2PTE pa ||| perm ||| PTE_V)).mem pt =
      Function.update (view st.mem pt) (va / PGSIZE) (some (pa, perm ||| PTE_V)) := by
    rw [Phys.store_mem, hview, valid_of_valid hV, Option.map_some, hpa, hfl]
  have hisn := isNode_congr (m := st.mem) hnode
  refine ⟨⟨?_, ?_, ?_, ?_⟩, hview', ?_⟩
  · show TreeOK _
    rw [Phys.store_mem, hnode]
    exact hg.tree
  · intro p hp
    rw [Phys.store_mem, hisn]
    exact hg.free p hp
  · intro vpn q fl h
    rw [hview'] at h
    rw [Phys.store_mem, hisn]
    by_cases hv : vpn = va / PGSIZE
    · subst hv
      rw [Function.update_self, Option.some.injEq, Prod.mk.injEq] at h
      rw [← h.1]
      exact ⟨hq.lt, hq.not_free, hq.not_node⟩
    · rw [Function.update_of_ne hv] at h
      exact hg.target vpn q fl h
  · intro vpn vpn' q fl fl' h h'
    rw [hview'] at h h'
    by_cases hv : vpn = va / PGSIZE <;> by_cases hv' : vpn' = va / PGSIZE
    · rw [hv, hv']
    · rw [hv, Function.update_self, Option.some.injEq, Prod.mk.injEq] at h
      rw [Function.update_of_ne hv', ← h.1] at h'
      exact absurd h' (hq.not_target vpn' fl')
    · rw [hv', Function.update_self, Option.some.injEq, Prod.mk.injEq] at h'
      rw [Function.update_of_ne hv, ← h'.1] at h
      exact absurd h (hq.not_target vpn fl)
    · rw [Function.update_of_ne hv] at h
      rw [Function.update_of_ne hv'] at h'
      exact hg.target_inj _ _ _ _ _ h h'
  · refine ⟨fun r t h => by rw [Phys.store_mem, hnode]; exact h, fun t h => .inl (hisn ▸ h),
      Set.subset_union_left, fun a ha => .inl ?_, fun h => h.store_leaf hg.tree hw _⟩
    rw [Phys.store_mem, hisn]
    by_cases hae : a = e
    · subst hae
      obtain ⟨t0, hn0, rfl⟩ := Option.map_eq_some_iff.1 ((walkRead_two st.mem pt va).symm.trans hw)
      exact ⟨_, by rw [← px_val 0, page_entry (hg.tree.node_aligned hn0)]; exact hn0⟩
    · exact absurd (Function.update_of_ne hae _ _) ha

lemma Held.map_leaf {q : ℕ} (hq : Held P st pt q) {va e pa perm : ℕ}
    (hw : walkRead st.mem va 2 pt = some e) (hva : va < MAXVA) (hg : Good P st pt)
    (hpa : Held P st pt pa) (hperm : perm < 2 ^ 10) (hne : q ≠ pa) :
    Held P (st.store e (PA2PTE pa ||| perm ||| PTE_V)) pt q where
  aligned := hq.aligned
  lt := hq.lt
  not_free := hq.not_free
  not_node := by
    rw [Phys.store_mem, isNode_congr (node_view_store_leaf hg.tree hw hva _).1]
    exact hq.not_node
  not_target vpn fl := by
    rw [(hg.map_leaf hw hva hpa hperm).2.1]
    by_cases hv : vpn = va / PGSIZE
    · rw [hv, Function.update_self]
      intro h
      simp only [Option.some.injEq, Prod.mk.injEq] at h
      exact hne h.1.symm
    · rw [Function.update_of_ne hv]
      exact hq.not_target vpn fl

/-- **Unmapping a page.** Its leaf entry is cleared, after `st₁` has changed at most its
physical page and given that page back to the allocator (`S` is that page, with `kfree`), or
left it (`S` empty). -/
lemma Good.unmap_leaf (hg : Good P st pt) {va e : ℕ} (hw : walkRead st.mem va 2 pt = some e)
    (hva : va < MAXVA) (hvalid : st.mem e &&& PTE_V ≠ 0) {st₁ : Phys σ} {S : Set ℕ}
    (hS : S ⊆ {PTE2PA (st.mem e)}) (hmem : ∀ a, PGROUNDDOWN a ∉ S → st₁.mem a = st.mem a)
    (hfree : P.Free st₁.heap ⊆ P.Free st.heap ∪ S) :
    Good P (st₁.store e 0) pt ∧
      view (st₁.store e 0).mem pt = Function.update (view st.mem pt) (va / PGSIZE) none ∧
      Frame P pt S st (st₁.store e 0) := by
  set pa := PTE2PA (st.mem e)
  have hv0 : view st.mem pt (va / PGSIZE) = some (pa, PTE_FLAGS (st.mem e)) := by
    rw [view_of_walkRead hw hva, valid_of_valid hvalid]
    rfl
  obtain ⟨hlt, hnf, hnn⟩ := hg.target _ _ _ hv0
  have hSpa : ∀ q ∈ S, q = pa := fun q hq => hS hq
  -- the physical page is not a page of the table, so giving it back changes nothing there
  obtain ⟨hnode₁, hview₁⟩ := @node_view_outside st.mem st₁.mem pt hg.tree fun a ha =>
    hmem a fun h => hnn (hSpa _ h ▸ ha)
  have hw₁ : walkRead st₁.mem va 2 pt = some e := by rw [walkRead_two, hnode₁, ← walkRead_two, hw]
  have htree₁ : Tree st₁.mem pt := by show TreeOK _; rw [hnode₁]; exact hg.tree
  obtain ⟨hnode₂, hview₂⟩ := node_view_store_leaf htree₁ hw₁ hva 0
  have hview : view (st₁.store e 0).mem pt = Function.update (view st.mem pt) (va / PGSIZE) none := by
    rw [Phys.store_mem, hview₂, hview₁, valid_zero, Option.map_none]
  have hnode : node (st₁.store e 0).mem pt = node st.mem pt := by rw [Phys.store_mem, hnode₂, hnode₁]
  have hisn := isNode_congr hnode
  have hother : ∀ vpn q fl, view (st₁.store e 0).mem pt vpn = some (q, fl) →
      vpn ≠ va / PGSIZE ∧ view st.mem pt vpn = some (q, fl) := by
    intro vpn q fl h
    rw [hview] at h
    by_cases hv : vpn = va / PGSIZE
    · rw [hv, Function.update_self] at h
      cases h
    · rw [Function.update_of_ne hv] at h
      exact ⟨hv, h⟩
  refine ⟨⟨?_, ?_, ?_, ?_⟩, hview, ?_⟩
  · show TreeOK _
    rw [hnode]
    exact hg.tree
  · intro p hp
    rw [hisn]
    rcases hfree hp with hp | hp
    · exact hg.free p hp
    · rw [hSpa p hp]
      exact ⟨PTE2PA_mod _, hlt, hnn⟩
  · intro vpn q fl h
    obtain ⟨hv, h⟩ := hother vpn q fl h
    obtain ⟨hlt', hnf', hnn'⟩ := hg.target vpn q fl h
    refine ⟨hlt', fun hq => ?_, by rw [hisn]; exact hnn'⟩
    rcases hfree hq with hq | hq
    · exact hnf' hq
    · rw [hSpa q hq] at h
      exact hv (hg.target_inj _ _ _ _ _ h hv0)
  · intro vpn vpn' q fl fl' h h'
    exact hg.target_inj _ _ _ _ _ (hother _ _ _ h).2 (hother _ _ _ h').2
  · refine ⟨fun r t h => by rw [hnode]; exact h, fun t h => .inl (hisn ▸ h), hfree,
      fun a ha => ?_, fun h => ((h.outside hg.tree fun a ha =>
        hmem a fun h' => hnn (hSpa _ h' ▸ ha)).store_leaf htree₁ hw₁ 0)⟩
    rw [hisn]
    by_cases hae : a = e
    · subst hae
      obtain ⟨t0, hn0, rfl⟩ := Option.map_eq_some_iff.1 ((walkRead_two st.mem pt va).symm.trans hw)
      exact .inl ⟨_, by rw [← px_val 0, page_entry (hg.tree.node_aligned hn0)]; exact hn0⟩
    · rw [Phys.store_mem, Function.update_of_ne hae] at ha
      by_cases hpa : PGROUNDDOWN a ∈ S
      · exact .inr (.inr hpa)
      · exact absurd (hmem a hpa) ha

/-- **Clearing `PTE_U`** of a page's leaf entry. -/
lemma Good.clear_leaf (hg : Good P st pt) {va e : ℕ} (hw : walkRead st.mem va 2 pt = some e)
    (hva : va < MAXVA) :
    Good P (st.store e (st.mem e &&& bnot64 PTE_U)) pt ∧
      view (st.store e (st.mem e &&& bnot64 PTE_U)).mem pt = clearU (view st.mem pt) (va / PGSIZE) ∧
      Frame P pt ∅ st (st.store e (st.mem e &&& bnot64 PTE_U)) := by
  obtain ⟨hnode, hview⟩ := node_view_store_leaf hg.tree hw hva (st.mem e &&& bnot64 PTE_U)
  have hview' : view (st.store e (st.mem e &&& bnot64 PTE_U)).mem pt =
      clearU (view st.mem pt) (va / PGSIZE) := by
    rw [Phys.store_mem, hview, clearU, view_of_walkRead hw hva]
    by_cases hV : st.mem e &&& PTE_V ≠ 0
    · have hV' : st.mem e &&& bnot64 PTE_U &&& PTE_V ≠ 0 := by rwa [and_bnot64_PTE_U_V]
      rw [valid_of_valid hV, valid_of_valid hV', Option.map_some, Option.map_some, Option.map_some,
        PTE2PA_and_bnot64_PTE_U, PTE_FLAGS_and_bnot64_PTE_U]
    · have hV' : ¬st.mem e &&& bnot64 PTE_U &&& PTE_V ≠ 0 := by rwa [and_bnot64_PTE_U_V]
      rw [valid_of_invalid hV, valid_of_invalid hV']
      rfl
  have hisn := isNode_congr (m := st.mem) hnode
  refine ⟨⟨?_, ?_, ?_, ?_⟩, hview', ?_⟩
  · show TreeOK _
    rw [Phys.store_mem, hnode]
    exact hg.tree
  · intro p hp
    rw [Phys.store_mem, hisn]
    exact hg.free p hp
  · intro vpn q fl h
    rw [hview'] at h
    obtain ⟨fl', h⟩ := clearU_some h
    rw [Phys.store_mem, hisn]
    exact hg.target vpn q fl' h
  · intro vpn vpn' q fl fl' h h'
    rw [hview'] at h h'
    obtain ⟨_, h⟩ := clearU_some h
    obtain ⟨_, h'⟩ := clearU_some h'
    exact hg.target_inj _ _ _ _ _ h h'
  · refine ⟨fun r t h => by rw [Phys.store_mem, hnode]; exact h, fun t h => .inl (hisn ▸ h),
      Set.subset_union_left, fun a ha => .inl ?_, fun h => h.store_leaf hg.tree hw _⟩
    rw [Phys.store_mem, hisn]
    by_cases hae : a = e
    · subst hae
      obtain ⟨t0, hn0, rfl⟩ := Option.map_eq_some_iff.1 ((walkRead_two st.mem pt va).symm.trans hw)
      exact ⟨_, by rw [← px_val 0, page_entry (hg.tree.node_aligned hn0)]; exact hn0⟩
    · exact absurd (Function.update_of_ne hae _ _) ha

variable (hP : P.Lawful)
include hP

/-- **Taking a page** from the allocator: the caller holds it, and may write it. -/
lemma Good.alloc (hg : Good P st pt) {p : ℕ} {heap : σ} (ha : P.alloc st.heap = (some p, heap))
    {m : ℕ → ℕ} (hm : ∀ a, PGROUNDDOWN a ≠ p → m a = st.mem a) :
    Good P ⟨m, heap⟩ pt ∧ Held P ⟨m, heap⟩ pt p ∧ view m pt = view st.mem pt ∧
      Frame P pt ∅ st ⟨m, heap⟩ := by
  obtain ⟨hpf, hsub⟩ := hP.alloc_some ha
  obtain ⟨hal, hlt, hpn⟩ := hg.free p hpf
  obtain ⟨hnode, hview⟩ := @node_view_outside st.mem m pt hg.tree fun a h =>
    hm a fun hp => hpn (hp ▸ h)
  have hisn := isNode_congr hnode
  have hfree : P.Free heap ⊆ P.Free st.heap := hsub.trans Set.sdiff_subset
  refine ⟨⟨?_, ?_, ?_, ?_⟩, ⟨hal, hlt, hP.not_free_alloc ha, ?_, ?_⟩, hview, ?_⟩
  · show TreeOK _
    rw [hnode]
    exact hg.tree
  · intro q hq
    rw [hisn]
    exact hg.free q (hfree hq)
  · intro vpn q fl h
    rw [hview] at h
    obtain ⟨hlt', hnf', hnn'⟩ := hg.target vpn q fl h
    exact ⟨hlt', fun hq => hnf' (hfree hq), by rw [hisn]; exact hnn'⟩
  · intro vpn vpn' q fl fl' h h'
    rw [hview] at h h'
    exact hg.target_inj _ _ _ _ _ h h'
  · rw [hisn]
    exact hpn
  · intro vpn fl h
    rw [hview] at h
    exact (hg.target vpn p fl h).2.1 hpf
  · refine ⟨fun r t h => by rw [hnode]; exact h, fun t h => .inl (hisn ▸ h),
      hfree.trans Set.subset_union_left, fun a ha => .inr (.inl ?_),
      fun h => h.outside hg.tree fun a ha => hm a fun hp => hpn (hp ▸ ha)⟩
    by_contra hne
    exact ha (hm a fun h => hne (h ▸ hpf))

/-- **Giving a held page back** to the allocator. -/
lemma Good.free_held (hg : Good P st pt) {p : ℕ} (hp : Held P st pt p) :
    Good P (kfree P p st) pt ∧ view (kfree P p st).mem pt = view st.mem pt ∧
      Frame P pt {p} st (kfree P p st) := by
  have hm : ∀ a, PGROUNDDOWN a ≠ p → (kfree P p st).mem a = st.mem a := fun a ha => by
    show memset st.mem p 1 PGSIZE a = st.mem a
    rw [memset, setRange_block_of_ne (by decide) hp.aligned ha]
  obtain ⟨hnode, hview⟩ := @node_view_outside st.mem (kfree P p st).mem pt hg.tree fun a h =>
    hm a fun hpa => hp.not_node (hpa ▸ h)
  have hisn := isNode_congr hnode
  have hfree : P.Free (kfree P p st).heap ⊆ insert p (P.Free st.heap) := hP.free_sub p st.heap
  refine ⟨⟨?_, ?_, ?_, ?_⟩, hview, ?_⟩
  · show TreeOK _
    rw [hnode]
    exact hg.tree
  · intro q hq
    rw [hisn]
    rcases hfree hq with rfl | hq
    · exact ⟨hp.aligned, hp.lt, hp.not_node⟩
    · exact hg.free q hq
  · intro vpn q fl h
    rw [hview] at h
    obtain ⟨hlt', hnf', hnn'⟩ := hg.target vpn q fl h
    refine ⟨hlt', fun hq => ?_, by rw [hisn]; exact hnn'⟩
    rcases hfree hq with rfl | hq
    · exact hp.not_target vpn fl h
    · exact hnf' hq
  · intro vpn vpn' q fl fl' h h'
    rw [hview] at h h'
    exact hg.target_inj _ _ _ _ _ h h'
  · refine ⟨fun r t h => by rw [hnode]; exact h, fun t h => .inl (hisn ▸ h),
      hfree.trans fun q hq => ?_, fun a ha => .inr (.inr ?_),
      fun h => h.outside hg.tree fun a ha => hm a fun hpa => hp.not_node (hpa ▸ ha)⟩
    · rcases hq with rfl | hq
      · exact .inr rfl
      · exact .inl hq
    · by_contra hne
      exact ha (hm a hne)

/-- **`kalloc`, then a write into the page**: the caller holds a page taken from the free
pages, and nothing the table reads has changed. -/
lemma Good.of_kalloc (hg : Good P st pt) {p : ℕ} {st₁ : Phys σ}
    (hk : kalloc P st = (some p, st₁)) {m : ℕ → ℕ}
    (hm : p % PGSIZE = 0 → ∀ a, PGROUNDDOWN a ≠ p → m a = st₁.mem a) :
    Good P ⟨m, st₁.heap⟩ pt ∧ Held P ⟨m, st₁.heap⟩ pt p ∧ view m pt = view st.mem pt ∧
      Frame P pt ∅ st ⟨m, st₁.heap⟩ ∧ p ∈ P.Free st.heap := by
  obtain ⟨heap, ha, rfl⟩ := kalloc_eq_some hk
  have hpf := (hP.alloc_some ha).1
  have hal := (hg.free p hpf).1
  obtain ⟨h₁, h₂, h₃, h₄⟩ := hg.alloc hP ha fun a ha' => (hm hal a ha').trans (memset_of_ne hal ha')
  exact ⟨h₁, h₂, h₃, h₄, hpf⟩

lemma Good.of_kalloc_none (hg : Good P st pt) {st₁ : Phys σ}
    (hk : kalloc P st = (none, st₁)) :
    Good P st₁ pt ∧ view st₁.mem pt = view st.mem pt ∧ Frame P pt ∅ st st₁ := by
  obtain ⟨heap, ha, rfl⟩ := kalloc_eq_none hk
  have hgr := grows_alloc_none hP hg.tree ha
  exact ⟨hg.grows hgr, hgr.view_eq, Frame.of_grows hgr⟩

end Inv

/-! ## Footprints -/

section Within

variable {σ : Type*} (P : Pool σ)

/-- What a call did, bounded by the pages `S`: words changed in pages of `S` only, and only
pages of `S` became free. -/
structure Within (S : Set ℕ) (st st' : Phys σ) : Prop where
  mem : ∀ a, st'.mem a ≠ st.mem a → PGROUNDDOWN a ∈ S
  free : P.Free st'.heap ⊆ P.Free st.heap ∪ S

/-- The pages a table owns: its own pages and the pages it maps. -/
def Owned (m : ℕ → ℕ) (pt : ℕ) : Set ℕ :=
  {t | IsNode m pt t} ∪ {q | ∃ v fl, view m pt v = some (q, fl)}

variable {P} {S S' : Set ℕ} {st st' st'' : Phys σ} {pt : ℕ}

namespace Within

lemma refl (S : Set ℕ) (st : Phys σ) : Within P S st st :=
  ⟨fun _ h => absurd rfl h, Set.subset_union_left⟩

lemma mono (h : Within P S st st') (hS : S ⊆ S') : Within P S' st st' :=
  ⟨fun a ha => hS (h.mem a ha), h.free.trans (Set.union_subset_union_right _ hS)⟩

lemma trans (h₁ : Within P S st st') (h₂ : Within P S st' st'') : Within P S st st'' where
  mem a ha := by
    by_cases h : st'.mem a = st.mem a
    · exact h₂.mem a (by rwa [h])
    · exact h₁.mem a h
  free := h₂.free.trans (Set.union_subset h₁.free Set.subset_union_right)

lemma store (st : Phys σ) (a v : ℕ) : Within P {PGROUNDDOWN a} st (st.store a v) where
  mem b hb := by
    by_cases hab : b = a
    · rw [hab]
      rfl
    · exact absurd (Function.update_of_ne hab _ _) hb
  free := Set.subset_union_left

lemma kfree (hP : P.Lawful) {p : ℕ} (hp : p % PGSIZE = 0) (st : Phys σ) :
    Within P {p} st (Walk.kfree P p st) where
  mem a ha := by
    by_contra hne
    exact ha (memset_of_ne hp hne)
  free q hq := by
    rcases hP.free_sub p st.heap hq with rfl | hq
    · exact .inr rfl
    · exact .inl hq

end Within

lemma Frame.within {gone : Set ℕ} (h : Frame P pt gone st st') :
    Within P ({t | IsNode st.mem pt t} ∪ (P.Free st.heap ∪ gone)) st st' where
  mem a ha := by
    rcases h.changed a ha with hn | hf
    · rcases h.node_new _ hn with hn | hf
      · exact .inl hn
      · exact .inr hf
    · exact .inr hf
  free := h.free.trans fun _ hx => .inr (.inr hx)

lemma Frame.changed_ne {gone : Set ℕ} (hf : Frame P pt gone st st') {x : ℕ}
    (hx : ¬IsNode st.mem pt x) (hxf : x ∉ P.Free st.heap) (hxg : x ∉ gone) :
    ∀ a, st'.mem a ≠ st.mem a → PGROUNDDOWN a ≠ x := by
  intro a ha he
  rcases hf.within.mem a ha with hn | hq | hq
  · exact hx (he ▸ hn)
  · exact hxf (he ▸ hq)
  · exact hxg (he ▸ hq)

lemma Frame.inside {A : Set ℕ} (hf : Frame P pt ∅ st st')
    (hn : ∀ t, IsNode st.mem pt t → t ∈ A) (hfr : P.Free st.heap ⊆ A) :
    (∀ t, IsNode st'.mem pt t → t ∈ A) ∧ P.Free st'.heap ⊆ A ∧ Within P A st st' := by
  have hsub : P.Free st'.heap ⊆ A := fun q hq => by
    rcases hf.free hq with hq | hq
    · exact hfr hq
    · exact absurd hq (Set.notMem_empty q)
  refine ⟨fun t ht => ?_, hsub, hf.within.mono fun q hq => ?_⟩
  · rcases hf.node_new t ht with ht | ht | ht
    · exact hn t ht
    · exact hfr ht
    · exact absurd ht (Set.notMem_empty t)
  · rcases hq with hq | hq | hq
    · exact hn q hq
    · exact hfr hq
    · exact absurd hq (Set.notMem_empty q)

/-- **Another table.** A good table that neither is nor maps a page of the footprint reads
the same after the call, and stays good if every free page still fits in an entry. -/
lemma Good.within (hg : Good P st pt) (hw : Within P S st st')
    (hS : ∀ x ∈ S, ¬IsNode st.mem pt x ∧ ∀ v fl, view st.mem pt v ≠ some (x, fl))
    (hfree : ∀ x ∈ P.Free st'.heap, x % PGSIZE = 0 ∧ x < 2 ^ 56) :
    Good P st' pt ∧ node st'.mem pt = node st.mem pt ∧ view st'.mem pt = view st.mem pt := by
  obtain ⟨hnode, hview⟩ := @node_view_outside st.mem st'.mem pt hg.tree fun a ha => by
    by_contra hne
    exact (hS _ (hw.mem a hne)).1 ha
  have hisn := isNode_congr hnode
  refine ⟨⟨?_, fun x hx => ?_, fun v q fl h => ?_, fun v v' q fl fl' h h' => ?_⟩, hnode, hview⟩
  · show TreeOK _
    rw [hnode]
    exact hg.tree
  · rw [hisn]
    refine ⟨(hfree x hx).1, (hfree x hx).2, ?_⟩
    rcases hw.free hx with hx | hx
    · exact (hg.free x hx).2.2
    · exact (hS x hx).1
  · rw [hview] at h
    obtain ⟨hlt, hnf, hnn⟩ := hg.target v q fl h
    refine ⟨hlt, fun hq => ?_, by rw [hisn]; exact hnn⟩
    rcases hw.free hq with hq | hq
    · exact hnf hq
    · exact (hS q hq).2 v fl h
  · rw [hview] at h h'
    exact hg.target_inj _ _ _ _ _ h h'

lemma Good.outside (hg : Good P st pt) {m : ℕ → ℕ}
    (hm : ∀ a, IsNode st.mem pt (PGROUNDDOWN a) → m a = st.mem a) : Good P ⟨m, st.heap⟩ pt := by
  obtain ⟨hnode, hview⟩ := @node_view_outside st.mem m pt hg.tree hm
  have hisn := isNode_congr hnode
  refine ⟨?_, fun x hx => ?_, fun v q fl h => ?_, fun v v' q fl fl' h h' => ?_⟩
  · show TreeOK _
    rw [hnode]
    exact hg.tree
  · rw [hisn]
    exact hg.free x hx
  · rw [hview] at h
    rw [hisn]
    exact hg.target v q fl h
  · rw [hview] at h h'
    exact hg.target_inj _ _ _ _ _ h h'

/-- **A good table cut down.** The same pages, a part of what they mapped, and as free pages
the old ones and pages no longer mapped: the table is good. -/
lemma Good.restrict (hg : Good P st pt) (hnode : node st'.mem pt = node st.mem pt)
    (hview : ∀ v x, view st'.mem pt v = some x → view st.mem pt v = some x)
    (hfree : ∀ q ∈ P.Free st'.heap, q ∈ P.Free st.heap ∨
      (∃ v fl, view st.mem pt v = some (q, fl)) ∧ ∀ v fl, view st'.mem pt v ≠ some (q, fl)) :
    Good P st' pt := by
  have hisn := isNode_congr hnode
  refine ⟨?_, fun x hx => ?_, fun v q fl h => ?_, fun v v' q fl fl' h h' => ?_⟩
  · show TreeOK _
    rw [hnode]
    exact hg.tree
  · rw [hisn]
    rcases hfree x hx with hx | ⟨⟨v, fl, hv⟩, -⟩
    · exact hg.free x hx
    · obtain ⟨hlt, -, hnn⟩ := hg.target v x fl hv
      exact ⟨view_aligned hv, hlt, hnn⟩
  · obtain ⟨hlt, hnf, hnn⟩ := hg.target v q fl (hview v _ h)
    refine ⟨hlt, fun hq => ?_, by rw [hisn]; exact hnn⟩
    rcases hfree q hq with hq | ⟨-, hgone⟩
    · exact hnf hq
    · exact hgone v fl h
  · exact hg.target_inj _ _ _ _ _ (hview v _ h) (hview v' _ h')

end Within

end Xv6.Vm.Map
