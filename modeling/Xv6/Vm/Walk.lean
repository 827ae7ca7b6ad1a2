import Xv6.Riscv
import Xv6.Lib.Alloc
import Xv6.Lib.Region

/-!
Sv39 page tables in physical memory, and `walk` (`vm.c`).

Memory is the 64-bit word stored at each address, and a page-table page holds its 512
entries at `t + 8 * i`. The pages of the table rooted at `pt` are named by their position
under the root (`node`); the invariant `Tree` says that they are distinct aligned pages. The
translation the table gives is `view`: each virtual page number to the physical page and
flags of its valid leaf entry.

The page-table code changes memory in four ways only: it writes outside the table's pages,
it writes a leaf entry, or it hangs a zeroed page from the allocator under an invalid entry
of the root or of a level-1 page. Each has its lemma here, saying what it does to the pages
of the table and to the translation; `walk` is then specified once (`walk_alloc_spec`) and
its callers never unfold it.
-/

namespace Xv6.Vm.Walk

open Xv6.Param Xv6.Riscv Xv6.Lib.Alloc Xv6.Lib.Region

/-- Physical memory and the state of the page allocator. -/
structure Phys (σ : Type*) where
  mem : ℕ → ℕ
  heap : σ

def Phys.store {σ : Type*} (st : Phys σ) (a v : ℕ) : Phys σ := ⟨Function.update st.mem a v, st.heap⟩

@[simp] lemma Phys.store_mem {σ : Type*} (st : Phys σ) (a v : ℕ) :
    (st.store a v).mem = Function.update st.mem a v := rfl

@[simp] lemma Phys.store_heap {σ : Type*} (st : Phys σ) (a v : ℕ) : (st.store a v).heap = st.heap :=
  rfl

/-- `memset(dst, c, n)`: every word of the region holds the byte `c` eight times. -/
def memset (m : ℕ → ℕ) (dst c n : ℕ) : ℕ → ℕ := setRange m dst n fun _ => c * 0x0101010101010101

/-- `memmove(dst, src, n)`: the region reads what the source region held before. -/
def memmove (m : ℕ → ℕ) (dst src n : ℕ) : ℕ → ℕ := setRange m dst n fun a => m (src + (a - dst))

section Code

variable {σ : Type*} (P : Pool σ)

/-- `kalloc()`: a page from the allocator, filled with junk. -/
def kalloc (st : Phys σ) : Option ℕ × Phys σ :=
  match P.alloc st.heap with
  | (some r, heap) => (some r, ⟨memset st.mem r 5 PGSIZE, heap⟩)
  | (none, heap) => (none, ⟨st.mem, heap⟩)

/-- `kfree(pa)`: the page is filled with junk and given back to the allocator. -/
def kfree (pa : ℕ) (st : Phys σ) : Phys σ := ⟨memset st.mem pa 1 PGSIZE, P.free pa st.heap⟩

/-- The loop of `walk` from `level` down to the level-0 page: the address of the leaf entry
for `va`, with missing table pages allocated and zeroed when `alloc` is set. -/
def walkLoop (va : ℕ) (alloc : Bool) : ℕ → ℕ → Phys σ → Option ℕ × Phys σ
  | 0, pagetable, st => (some (pagetable + 8 * PX 0 va), st)
  | level + 1, pagetable, st =>
    let pte := pagetable + 8 * PX (level + 1) va
    if st.mem pte &&& PTE_V ≠ 0 then walkLoop va alloc level (PTE2PA (st.mem pte)) st
    else if !alloc then (none, st)
    else
      match kalloc P st with
      | (none, st) => (none, st)
      | (some p, st) =>
        walkLoop va alloc level p
          (Phys.store ⟨memset st.mem p 0 PGSIZE, st.heap⟩ pte (PA2PTE p ||| PTE_V))

def walk (pagetable va : ℕ) (alloc : Bool) (st : Phys σ) : Except String (Option ℕ × Phys σ) :=
  if MAXVA ≤ va then .error "walk" else .ok (walkLoop P va alloc 2 pagetable st)

end Code

/-! ## Reading the table -/

def child (pte : ℕ) : Option ℕ := if pte &&& PTE_V ≠ 0 then some (PTE2PA pte) else none

def valid (pte : ℕ) : Option ℕ := if pte &&& PTE_V ≠ 0 then some pte else none

/-- `walk` without allocation, from `level` down: it only reads memory. -/
def walkRead (m : ℕ → ℕ) (va : ℕ) : ℕ → ℕ → Option ℕ
  | 0, t => some (t + 8 * PX 0 va)
  | level + 1, t => (child (m (t + 8 * PX (level + 1) va))).bind (walkRead m va level)

/-- The valid leaf entry for `va`. -/
def leafPTE (m : ℕ → ℕ) (pt va : ℕ) : Option ℕ := (walkRead m va 2 pt).bind fun a => valid (m a)

/-- **The translation.** Each virtual page below `MAXVA` to the physical page and flags of its
valid leaf entry. -/
def view (m : ℕ → ℕ) (pt vpn : ℕ) : Option (ℕ × ℕ) :=
  if vpn < MAXVA / PGSIZE then
    (leafPTE m pt (vpn * PGSIZE)).map fun pte => (PTE2PA pte, PTE_FLAGS pte)
  else none

/-- Where a page of the table sits: the root, the level-1 page under root entry `i`, or the
level-0 page under entry `j` of that. -/
inductive Pos
  | l2
  | l1 (i : Fin 512)
  | l0 (i j : Fin 512)
  deriving DecidableEq

def node (m : ℕ → ℕ) (pt : ℕ) : Pos → Option ℕ
  | .l2 => some pt
  | .l1 i => child (m (pt + 8 * i))
  | .l0 i j => (child (m (pt + 8 * i))).bind fun t => child (m (t + 8 * j))

def px (level va : ℕ) : Fin 512 := ⟨PX level va, PX_lt level va⟩

def IsNode (m : ℕ → ℕ) (pt t : ℕ) : Prop := ∃ r, node m pt r = some t

/-- The pages of a table are aligned and distinct. -/
structure TreeOK (N : Pos → Option ℕ) : Prop where
  aligned : ∀ r t, N r = some t → t % PGSIZE = 0
  inj : ∀ r r' t, N r = some t → N r' = some t → r = r'

/-- The table rooted at `pt` is a tree of distinct aligned pages. -/
def Tree (m : ℕ → ℕ) (pt : ℕ) : Prop := TreeOK (node m pt)

/-- The entries of the root and of the level-1 pages are pointers to pages of the table: a
valid one has none of `PTE_R`, `PTE_W`, `PTE_X`, and the root's upper half, which would map
addresses above `MAXVA`, is invalid. `freewalk` tells pointers from leaves by these bits. -/
structure Inner (m : ℕ → ℕ) (pt : ℕ) : Prop where
  root : ∀ i : Fin 512, m (pt + 8 * i) &&& PTE_V ≠ 0 →
    (i : ℕ) < 256 ∧ m (pt + 8 * i) &&& (PTE_R ||| PTE_W ||| PTE_X) = 0
  mid : ∀ (i : Fin 512) t, node m pt (.l1 i) = some t → ∀ j : Fin 512,
    m (t + 8 * j) &&& PTE_V ≠ 0 → m (t + 8 * j) &&& (PTE_R ||| PTE_W ||| PTE_X) = 0

@[simp] lemma node_l2 (m : ℕ → ℕ) (pt : ℕ) : node m pt .l2 = some pt := rfl

lemma node_l0 (m : ℕ → ℕ) (pt : ℕ) (i j : Fin 512) :
    node m pt (.l0 i j) = (node m pt (.l1 i)).bind fun t => child (m (t + 8 * j)) := rfl

lemma child_of_valid {pte : ℕ} (h : pte &&& PTE_V ≠ 0) : child pte = some (PTE2PA pte) := if_pos h

lemma child_of_invalid {pte : ℕ} (h : ¬pte &&& PTE_V ≠ 0) : child pte = none := if_neg h

@[simp] lemma child_zero : child 0 = none := rfl

lemma child_PA2PTE {p : ℕ} (hp : p % PGSIZE = 0) (hlt : p < 2 ^ 56) :
    child (PA2PTE p ||| PTE_V) = some p := by
  have hV : PTE_V < 2 ^ 10 := by decide
  have hround := (PTE2PA_PA2PTE_or hp hlt hV).1
  rw [child_of_valid, hround]
  rw [PA2PTE_or p hV, and_PTE_V_fields]
  decide

lemma walkRead_two (m : ℕ → ℕ) (pt va : ℕ) :
    walkRead m va 2 pt = (node m pt (.l0 (px 2 va) (px 1 va))).map (· + 8 * PX 0 va) := by
  simp only [walkRead, node, px]
  cases child (m (pt + 8 * PX 2 va)) <;> simp only [Option.bind_none, Option.bind_some,
    Option.map_none]
  case some t => cases child (m (t + 8 * PX 1 va)) <;> rfl

lemma walkLoop_false {σ : Type*} (P : Pool σ) (va : ℕ) (level t : ℕ) (st : Phys σ) :
    walkLoop P va false level t st = (walkRead st.mem va level t, st) := by
  induction level generalizing t with
  | zero => rfl
  | succ level ih =>
    by_cases hv : st.mem (t + 8 * PX (level + 1) va) &&& PTE_V ≠ 0
    · rw [walkLoop, if_pos hv, ih, walkRead, child_of_valid hv, Option.bind_some]
    · rw [walkLoop, if_neg hv, walkRead, child_of_invalid hv, Option.bind_none]
      rfl

@[simp] lemma px_val (level va : ℕ) : ((px level va : Fin 512) : ℕ) = PX level va := rfl

lemma leafPTE_eq (m : ℕ → ℕ) (pt va : ℕ) :
    leafPTE m pt va = (node m pt (.l0 (px 2 va) (px 1 va))).bind fun t => valid (m (t + 8 * PX 0 va)) := by
  rw [leafPTE, walkRead_two]
  cases node m pt (.l0 (px 2 va) (px 1 va)) <;> rfl

lemma px_page (level va : ℕ) : px level (va / PGSIZE * PGSIZE) = px level va :=
  Fin.ext (PX_page level va)

/-! ## Geometry of table pages -/

section Geometry

variable {t t' : ℕ}

lemma page_entry (ht : t % PGSIZE = 0) (i : Fin 512) : PGROUNDDOWN (t + 8 * i) = t :=
  block_add (by decide) ht (by unfold PGSIZE; omega)

lemma entry_ne (ht : t % PGSIZE = 0) (ht' : t' % PGSIZE = 0) (hne : t ≠ t') (i j : Fin 512) :
    t + 8 * i ≠ t' + 8 * j := by
  intro h
  apply hne
  rw [← page_entry ht i, ← page_entry ht' j, h]

lemma entry_inj {i j : Fin 512} (h : t + 8 * (i : ℕ) = t + 8 * j) : i = j :=
  Fin.ext (by omega)

lemma entry_eq_iff (ht : t % PGSIZE = 0) (ht' : t' % PGSIZE = 0) (i j : Fin 512) :
    t + 8 * (i : ℕ) = t' + 8 * j ↔ t = t' ∧ i = j := by
  constructor
  · intro h
    by_cases hne : t = t'
    · subst hne
      exact ⟨rfl, entry_inj h⟩
    · exact absurd h (entry_ne ht ht' hne i j)
  · rintro ⟨rfl, rfl⟩
    rfl

end Geometry

/-! ## Trees -/

namespace TreeOK

variable {N : Pos → Option ℕ}

lemma update (h : TreeOK N) {q : Pos} {p : ℕ} (hp : p % PGSIZE = 0) (hnew : ∀ r, N r ≠ some p) :
    TreeOK (Function.update N q (some p)) where
  aligned r t hr := by
    by_cases hrq : r = q
    · subst hrq
      rw [Function.update_self, Option.some.injEq] at hr
      exact hr ▸ hp
    · rw [Function.update_of_ne hrq] at hr
      exact h.aligned r t hr
  inj r r' t hr hr' := by
    by_cases hrq : r = q <;> by_cases hrq' : r' = q
    · rw [hrq, hrq']
    · subst hrq
      rw [Function.update_self, Option.some.injEq] at hr
      rw [Function.update_of_ne hrq', ← hr] at hr'
      exact absurd hr' (hnew r')
    · subst hrq'
      rw [Function.update_self, Option.some.injEq] at hr'
      rw [Function.update_of_ne hrq, ← hr'] at hr
      exact absurd hr (hnew r)
    · rw [Function.update_of_ne hrq] at hr
      rw [Function.update_of_ne hrq'] at hr'
      exact h.inj r r' t hr hr'

end TreeOK

section Frame

variable {m m' : ℕ → ℕ} {pt : ℕ}

lemma Tree.root_aligned (ht : Tree m pt) : pt % PGSIZE = 0 := ht.aligned .l2 pt rfl

lemma Tree.node_aligned (ht : Tree m pt) {r : Pos} {t : ℕ} (hr : node m pt r = some t) :
    t % PGSIZE = 0 :=
  ht.aligned r t hr

lemma Tree.node_ne {r r' : Pos} {t t' : ℕ} (ht : Tree m pt) (hr : node m pt r = some t)
    (hr' : node m pt r' = some t') (hne : r ≠ r') : t ≠ t' := by
  rintro rfl
  exact hne (ht.inj r r' t hr hr')

/-- **Frame.** The pages of a table are read off the entries of its root and of its level-1
pages only. -/
lemma node_congr (hroot : ∀ i : Fin 512, m' (pt + 8 * i) = m (pt + 8 * i))
    (hmid : ∀ i t, node m pt (.l1 i) = some t → ∀ j : Fin 512, m' (t + 8 * j) = m (t + 8 * j)) :
    node m' pt = node m pt := by
  funext r
  cases r with
  | l2 => rfl
  | l1 i => exact congrArg child (hroot i)
  | l0 i j =>
    have h1 : node m' pt (.l1 i) = node m pt (.l1 i) := congrArg child (hroot i)
    rw [node_l0, node_l0, h1]
    cases ht : node m pt (.l1 i) with
    | none => rfl
    | some t => exact congrArg child (hmid i t ht j)

/-- **Frame.** With the same pages, the translation is read off the entries of the level-0
pages only. -/
lemma view_congr (hnode : node m' pt = node m pt)
    (hleaf : ∀ i j t, node m pt (.l0 i j) = some t → ∀ k : Fin 512, m' (t + 8 * k) = m (t + 8 * k)) :
    view m' pt = view m pt := by
  funext vpn
  unfold view
  split
  · rw [leafPTE_eq, leafPTE_eq, hnode]
    cases ht : node m pt (.l0 (px 2 (vpn * PGSIZE)) (px 1 (vpn * PGSIZE))) with
    | none => rfl
    | some t =>
      simp only [Option.bind_some]
      rw [← px_val 0, hleaf _ _ t ht]
  · rfl

/-- **Writes outside the table** change neither its pages nor its translation. -/
lemma node_view_outside (ht : Tree m pt) (h : ∀ a, IsNode m pt (PGROUNDDOWN a) → m' a = m a) :
    node m' pt = node m pt ∧ view m' pt = view m pt := by
  have hentry : ∀ r t, node m pt r = some t → ∀ k : Fin 512, m' (t + 8 * k) = m (t + 8 * k) :=
    fun r t hr k => h _ ⟨r, by rw [page_entry (ht.node_aligned hr) k, hr]⟩
  have hnode : node m' pt = node m pt := node_congr (hentry .l2 pt rfl) (fun i => hentry (.l1 i))
  exact ⟨hnode, view_congr hnode fun i j => hentry (.l0 i j)⟩

/-- **Distinct pages never share a leaf entry.** -/
lemma walkRead_inj (ht : Tree m pt) {va va' a : ℕ} (h : walkRead m va 2 pt = some a)
    (h' : walkRead m va' 2 pt = some a) (hva : va < 2 ^ 39) (hva' : va' < 2 ^ 39) :
    va / PGSIZE = va' / PGSIZE := by
  rw [walkRead_two, Option.map_eq_some_iff] at h h'
  obtain ⟨t, hn, rfl⟩ := h
  obtain ⟨t', hn', heq⟩ := h'
  obtain ⟨rfl, h0⟩ := (entry_eq_iff (ht.node_aligned hn') (ht.node_aligned hn) (px 0 va')
    (px 0 va)).1 heq
  have hpos := ht.inj _ _ _ hn hn'
  simp only [Pos.l0.injEq, Fin.ext_iff, px_val] at hpos h0
  exact vpn_eq_of_PX hva hva' hpos.1 hpos.2 h0.symm

lemma MAXVA_lt : MAXVA < 2 ^ 39 := by rw [MAXVA_eq]; norm_num

/-- **A write to a leaf entry** keeps the pages of the table and changes the translation of
that entry's page only. -/
lemma node_view_store_leaf (ht : Tree m pt) {va a : ℕ} (hw : walkRead m va 2 pt = some a)
    (hva : va < MAXVA) (v : ℕ) :
    node (Function.update m a v) pt = node m pt ∧
      view (Function.update m a v) pt =
        Function.update (view m pt) (va / PGSIZE) ((valid v).map fun pte => (PTE2PA pte, PTE_FLAGS pte)) := by
  obtain ⟨t0, hn0, rfl⟩ := Option.map_eq_some_iff.1 ((walkRead_two m pt va).symm.trans hw)
  have ht0 := ht.node_aligned hn0
  -- the written word is in a level-0 page, which no other position shares
  have hother : ∀ r t, node m pt r = some t → r ≠ .l0 (px 2 va) (px 1 va) →
      ∀ k : Fin 512, Function.update m (t0 + 8 * PX 0 va) v (t + 8 * k) = m (t + 8 * k) := by
    intro r t hr hne k
    exact Function.update_of_ne (entry_ne (ht.node_aligned hr) ht0 (ht.node_ne hr hn0 hne) k (px 0 va)) _ _
  have hnode : node (Function.update m (t0 + 8 * PX 0 va) v) pt = node m pt :=
    node_congr (hother .l2 pt rfl (by simp)) (fun i t hi => hother (.l1 i) t hi (by simp))
  refine ⟨hnode, funext fun vpn => ?_⟩
  unfold view
  by_cases hv : vpn = va / PGSIZE
  · subst hv
    have hlt : va / PGSIZE < MAXVA / PGSIZE := by
      rw [MAXVA_eq] at hva ⊢; unfold PGSIZE; omega
    rw [if_pos hlt, Function.update_self, leafPTE_eq, hnode, px_page, px_page, hn0, PX_page]
    simp
  · rw [Function.update_of_ne hv]
    split
    · rw [leafPTE_eq, leafPTE_eq, hnode]
      cases hr : node m pt (.l0 (px 2 (vpn * PGSIZE)) (px 1 (vpn * PGSIZE))) with
      | none => rfl
      | some t =>
        simp only [Option.bind_some]
        by_cases ht0' : t = t0 ∧ PX 0 (vpn * PGSIZE) = PX 0 va
        · -- the same leaf entry would put `vpn` in the page of `va`
          obtain ⟨rfl, h0⟩ := ht0'
          have hsame : walkRead m (vpn * PGSIZE) 2 pt = walkRead m va 2 pt := by
            rw [walkRead_two, walkRead_two, hr, hn0, h0]
          rename_i hlt
          have hvpn : vpn * PGSIZE < 2 ^ 39 := by
            rw [MAXVA_eq] at hlt; unfold PGSIZE at hlt ⊢; omega
          have := walkRead_inj ht (hsame.trans hw) hw hvpn (MAXVA_lt.trans' hva)
          rw [Nat.mul_div_cancel _ (by decide)] at this
          exact absurd this hv
        · rw [Function.update_of_ne]
          intro heq
          apply ht0'
          have := (entry_eq_iff (ht.node_aligned hr) ht0 (px 0 (vpn * PGSIZE)) (px 0 va)).1 heq
          exact ⟨this.1, by simpa [Fin.ext_iff] using this.2⟩
    · rfl

lemma Inner.congr (h : Inner m pt) (hroot : ∀ i : Fin 512, m' (pt + 8 * i) = m (pt + 8 * i))
    (hmid : ∀ i t, node m pt (.l1 i) = some t → ∀ j : Fin 512, m' (t + 8 * j) = m (t + 8 * j)) :
    Inner m' pt where
  root i hv := by
    rw [hroot i] at hv ⊢
    exact h.root i hv
  mid i t ht j hv := by
    have ht' : node m pt (.l1 i) = some t := by
      show child (m (pt + 8 * i)) = some t
      rw [← hroot i]
      exact ht
    rw [hmid i t ht' j] at hv ⊢
    exact h.mid i t ht' j hv

lemma Inner.outside (h : Inner m pt) (ht : Tree m pt)
    (hout : ∀ a, IsNode m pt (PGROUNDDOWN a) → m' a = m a) : Inner m' pt :=
  h.congr (fun i => hout _ ⟨.l2, by rw [page_entry ht.root_aligned i]; rfl⟩)
    (fun i t hi j => hout _ ⟨.l1 i, by rw [page_entry (ht.node_aligned hi) j, hi]⟩)

lemma Inner.store_leaf (h : Inner m pt) (ht : Tree m pt) {va a : ℕ}
    (hw : walkRead m va 2 pt = some a) (v : ℕ) : Inner (Function.update m a v) pt := by
  obtain ⟨t0, hn0, rfl⟩ := Option.map_eq_some_iff.1 ((walkRead_two m pt va).symm.trans hw)
  have hother : ∀ r t, node m pt r = some t → r ≠ .l0 (px 2 va) (px 1 va) →
      ∀ k : Fin 512, Function.update m (t0 + 8 * PX 0 va) v (t + 8 * k) = m (t + 8 * k) :=
    fun r t hr hne k => Function.update_of_ne
      (entry_ne (ht.node_aligned hr) (ht.node_aligned hn0) (ht.node_ne hr hn0 hne) k (px 0 va)) _ _
  exact h.congr (hother .l2 pt rfl (by simp)) (fun i t hi => hother (.l1 i) t hi (by simp))

lemma Inner.of_zero (hzero : ∀ i : Fin 512, m (pt + 8 * i) = 0) : Inner m pt where
  root i hv := (hv (by rw [hzero i]; rfl)).elim
  mid i t ht := by
    rw [show node m pt (.l1 i) = child (m (pt + 8 * i)) from rfl, hzero i, child_zero] at ht
    cases ht

end Frame

/-! ## New table pages -/

section Install

variable {m m₁ : ℕ → ℕ} {pt p : ℕ}

/-- `m₁` is `m` with the page `p` zeroed, and `p` is an aligned page, not yet in the table,
whose address fits in an entry. -/
structure FreshPage (m m₁ : ℕ → ℕ) (pt p : ℕ) : Prop where
  aligned : p % PGSIZE = 0
  lt : p < 2 ^ 56
  not_node : ¬IsNode m pt p
  zero : ∀ k : Fin 512, m₁ (p + 8 * k) = 0
  agree : ∀ a, PGROUNDDOWN a ≠ p → m₁ a = m a

lemma FreshPage.ne (hf : FreshPage m m₁ pt p) {r : Pos} {t : ℕ} (hr : node m pt r = some t) :
    t ≠ p := by
  rintro rfl
  exact hf.not_node ⟨r, hr⟩

lemma FreshPage.entry (hf : FreshPage m m₁ pt p) (ht : Tree m pt) {r : Pos} {t : ℕ}
    (hr : node m pt r = some t) (k : Fin 512) : m₁ (t + 8 * k) = m (t + 8 * k) :=
  hf.agree _ (by rw [page_entry (ht.node_aligned hr) k]; exact hf.ne hr)

/-- **A new level-1 page** under an invalid root entry. -/
lemma node_install_l1 (ht : Tree m pt) (hf : FreshPage m m₁ pt p) {i : Fin 512}
    (hi : node m pt (.l1 i) = none) :
    node (Function.update m₁ (pt + 8 * i) (PA2PTE p ||| PTE_V)) pt =
      Function.update (node m pt) (.l1 i) (some p) := by
  set m' := Function.update m₁ (pt + 8 * i) (PA2PTE p ||| PTE_V) with hm'
  have hroot := ht.root_aligned
  have hrest : ∀ r t, node m pt r = some t → ∀ k : Fin 512, (t ≠ pt ∨ k ≠ i) →
      m' (t + 8 * k) = m (t + 8 * k) := by
    intro r t hr k hne
    rw [hm', Function.update_of_ne, hf.entry ht hr k]
    rw [Ne, entry_eq_iff (ht.node_aligned hr) hroot]
    tauto
  have hnew : node m' pt (.l1 i) = some p := by
    show child (m' (pt + 8 * i)) = some p
    rw [hm', Function.update_self]
    exact child_PA2PTE hf.aligned hf.lt
  funext r
  cases r with
  | l2 => rfl
  | l1 i' =>
    by_cases hi' : i' = i
    · subst hi'
      rw [Function.update_self, hnew]
    · rw [Function.update_of_ne (by simpa using hi')]
      exact congrArg child (hrest .l2 pt rfl i' (Or.inr hi'))
  | l0 i' j =>
    rw [Function.update_of_ne (by simp), node_l0, node_l0]
    by_cases hi' : i' = i
    · -- the new page is zero, so nothing hangs below it yet
      subst hi'
      rw [hnew, hi]
      show child (m' (p + 8 * j)) = none
      have hp : p ≠ pt := (hf.ne (node_l2 m pt)).symm
      rw [hm', Function.update_of_ne (entry_ne hf.aligned hroot hp j i'), hf.zero j, child_zero]
    · have h1 : node m' pt (.l1 i') = node m pt (.l1 i') :=
        congrArg child (hrest .l2 pt rfl i' (Or.inr hi'))
      rw [h1]
      cases h : node m pt (.l1 i') with
      | none => rfl
      | some t => exact congrArg child (hrest (.l1 i') t h j (Or.inl (ht.node_ne h (node_l2 m pt) (by simp))))

/-- **A new level-0 page** under an invalid entry of a level-1 page. -/
lemma node_install_l0 (ht : Tree m pt) (hf : FreshPage m m₁ pt p) {i j : Fin 512} {t : ℕ}
    (hi : node m pt (.l1 i) = some t) (hj : node m pt (.l0 i j) = none) :
    node (Function.update m₁ (t + 8 * j) (PA2PTE p ||| PTE_V)) pt =
      Function.update (node m pt) (.l0 i j) (some p) := by
  set m' := Function.update m₁ (t + 8 * j) (PA2PTE p ||| PTE_V) with hm'
  have ht1 := ht.node_aligned hi
  have hrest : ∀ r u, node m pt r = some u → ∀ k : Fin 512, (u ≠ t ∨ k ≠ j) →
      m' (u + 8 * k) = m (u + 8 * k) := by
    intro r u hr k hne
    rw [hm', Function.update_of_ne, hf.entry ht hr k]
    rw [Ne, entry_eq_iff (ht.node_aligned hr) ht1]
    tauto
  have h1 : ∀ i', node m' pt (.l1 i') = node m pt (.l1 i') := fun i' =>
    congrArg child (hrest .l2 pt rfl i' (Or.inl (ht.node_ne (node_l2 m pt) hi (by simp))))
  funext r
  cases r with
  | l2 => rfl
  | l1 i' =>
    rw [Function.update_of_ne (by simp)]
    exact h1 i'
  | l0 i' j' =>
    rw [node_l0, h1]
    by_cases hij : i' = i ∧ j' = j
    · obtain ⟨rfl, rfl⟩ := hij
      rw [Function.update_self, hi]
      show child (m' (t + 8 * j')) = some p
      rw [hm', Function.update_self]
      exact child_PA2PTE hf.aligned hf.lt
    · rw [Function.update_of_ne (by simpa using hij), node_l0]
      cases h : node m pt (.l1 i') with
      | none => rfl
      | some u =>
        apply congrArg child
        apply hrest (.l1 i') u h j'
        rcases eq_or_ne u t with rfl | hut
        · have := ht.inj _ _ _ h hi
          simp only [Pos.l1.injEq] at this
          exact Or.inr fun hjj => hij ⟨this, hjj⟩
        · exact Or.inl hut

/-- Hanging a zeroed page under an entry outside the level-0 pages leaves the translation as
it was. -/
lemma view_install (ht : Tree m pt) (hf : FreshPage m m₁ pt p) {q : Pos} {e v : ℕ}
    (hq : node m pt q = none) (he : ∀ i j t, node m pt (.l0 i j) = some t → PGROUNDDOWN e ≠ t)
    (hpe : PGROUNDDOWN e ≠ p)
    (hnode : node (Function.update m₁ e v) pt = Function.update (node m pt) q (some p)) :
    view (Function.update m₁ e v) pt = view m pt := by
  funext vpn
  unfold view
  split
  · rw [leafPTE_eq, leafPTE_eq, hnode]
    by_cases hr : Pos.l0 (px 2 (vpn * PGSIZE)) (px 1 (vpn * PGSIZE)) = q
    · rw [hr, Function.update_self, hq]
      have hne : p + 8 * PX 0 (vpn * PGSIZE) ≠ e := by
        intro h
        apply hpe
        rw [← h, ← px_val 0, page_entry hf.aligned]
      simp only [Option.bind_some, Function.update_of_ne hne]
      rw [← px_val 0, hf.zero]
      rfl
    · rw [Function.update_of_ne hr]
      cases h : node m pt (.l0 (px 2 (vpn * PGSIZE)) (px 1 (vpn * PGSIZE))) with
      | none => rfl
      | some t =>
        have hne : t + 8 * PX 0 (vpn * PGSIZE) ≠ e := by
          intro hte
          apply he _ _ t h
          rw [← hte, ← px_val 0, page_entry (ht.node_aligned h)]
        simp only [Option.bind_some, Function.update_of_ne hne]
        rw [← px_val 0, hf.entry ht h]
  · rfl

/-- A new level-1 page under a root entry below `MAXVA` keeps the entries pointers: the new
entry is one, and the new page is zero. -/
lemma inner_install_l1 (ht : Tree m pt) (hf : FreshPage m m₁ pt p) (h : Inner m pt)
    {i : Fin 512} (hi : (i : ℕ) < 256) :
    Inner (Function.update m₁ (pt + 8 * i) (PA2PTE p ||| PTE_V)) pt := by
  set m' := Function.update m₁ (pt + 8 * i) (PA2PTE p ||| PTE_V) with hm'
  have hroot := ht.root_aligned
  have hp : p ≠ pt := (hf.ne (node_l2 m pt)).symm
  have hrest : ∀ r t, node m pt r = some t → ∀ k : Fin 512, t + 8 * (k : ℕ) ≠ pt + 8 * i →
      m' (t + 8 * k) = m (t + 8 * k) := fun r t hr k hne => by
    rw [hm', Function.update_of_ne hne, hf.entry ht hr k]
  constructor
  · intro i' hv
    by_cases hii : i' = i
    · subst hii
      rw [hm', Function.update_self] at hv ⊢
      exact ⟨hi, PA2PTE_V_and_RWX p⟩
    · have hne : pt + 8 * (i' : ℕ) ≠ pt + 8 * i := fun h => hii (entry_inj h)
      rw [hrest .l2 pt rfl i' hne] at hv ⊢
      exact h.root i' hv
  · intro i' t ht' j hv
    by_cases hii : i' = i
    · -- below the new entry is the zeroed page, whose entries are all invalid
      subst hii
      have hnew : node m' pt (.l1 i') = some p := by
        show child (m' (pt + 8 * i')) = some p
        rw [hm', Function.update_self]
        exact child_PA2PTE hf.aligned hf.lt
      obtain rfl : t = p := Option.some.inj (ht'.symm.trans hnew)
      rw [hm', Function.update_of_ne (entry_ne hf.aligned hroot hp j i'), hf.zero j] at hv
      exact absurd (Nat.zero_and _) hv
    · have hsame : m' (pt + 8 * i') = m (pt + 8 * i') :=
        hrest .l2 pt rfl i' fun h => hii (entry_inj h)
      have h1 : node m pt (.l1 i') = some t := by
        show child (m (pt + 8 * i')) = some t
        rw [← hsame]
        exact ht'
      have hne : t + 8 * (j : ℕ) ≠ pt + 8 * i :=
        entry_ne (ht.node_aligned h1) hroot (ht.node_ne h1 (node_l2 m pt) (by simp)) j i
      rw [hrest (.l1 i') t h1 j hne] at hv ⊢
      exact h.mid i' t h1 j hv

lemma inner_install_l0 (ht : Tree m pt) (hf : FreshPage m m₁ pt p) (h : Inner m pt)
    {i j : Fin 512} {t : ℕ} (hi : node m pt (.l1 i) = some t) :
    Inner (Function.update m₁ (t + 8 * j) (PA2PTE p ||| PTE_V)) pt := by
  set m' := Function.update m₁ (t + 8 * j) (PA2PTE p ||| PTE_V) with hm'
  have ht1 := ht.node_aligned hi
  have hrest : ∀ r u, node m pt r = some u → ∀ k : Fin 512, u + 8 * (k : ℕ) ≠ t + 8 * j →
      m' (u + 8 * k) = m (u + 8 * k) := fun r u hr k hne => by
    rw [hm', Function.update_of_ne hne, hf.entry ht hr k]
  have hroot : ∀ i' : Fin 512, m' (pt + 8 * i') = m (pt + 8 * i') := fun i' =>
    hrest .l2 pt rfl i' (entry_ne ht.root_aligned ht1 (ht.node_ne (node_l2 m pt) hi (by simp)) i' j)
  constructor
  · intro i' hv
    rw [hroot i'] at hv ⊢
    exact h.root i' hv
  · intro i' u hu k hv
    have h1 : node m pt (.l1 i') = some u := by
      show child (m (pt + 8 * i')) = some u
      rw [← hroot i']
      exact hu
    by_cases hk : u + 8 * (k : ℕ) = t + 8 * j
    · rw [hk, hm', Function.update_self]
      exact PA2PTE_V_and_RWX p
    · rw [hrest (.l1 i') u h1 k hk] at hv ⊢
      exact h.mid i' u h1 k hv

end Install

/-! ## What `walk` does to a table -/

section Grow

variable {σ : Type*} {P : Pool σ} {pt : ℕ} {st st' st'' : Phys σ}

/-- Every page the allocator may hand out is aligned, fits in an entry, and is not a page of
the table. -/
def FreeOK (P : Pool σ) (st : Phys σ) (pt : ℕ) : Prop :=
  ∀ p ∈ P.Free st.heap, p % PGSIZE = 0 ∧ p < 2 ^ 56 ∧ ¬IsNode st.mem pt p

/-- What `walk` may do to a table: hang pages from the allocator under invalid entries. The
translation stays as it was, the table keeps every page it had, each new page was free, and
every word that changed is in a page of the table. -/
structure Grows (P : Pool σ) (pt : ℕ) (st st' : Phys σ) : Prop where
  tree : Tree st'.mem pt
  view_eq : view st'.mem pt = view st.mem pt
  free_sub : P.Free st'.heap ⊆ P.Free st.heap
  node_mono : ∀ r t, node st.mem pt r = some t → node st'.mem pt r = some t
  node_new : ∀ t, IsNode st'.mem pt t → IsNode st.mem pt t ∨ (t ∈ P.Free st.heap ∧ t ∉ P.Free st'.heap)
  changed : ∀ a, st'.mem a ≠ st.mem a → IsNode st'.mem pt (PGROUNDDOWN a)
  inner : Inner st.mem pt → Inner st'.mem pt

lemma Grows.refl (ht : Tree st.mem pt) : Grows P pt st st where
  tree := ht
  view_eq := rfl
  free_sub := subset_rfl
  node_mono _ _ h := h
  node_new _ h := .inl h
  changed _ h := absurd rfl h
  inner h := h

lemma Grows.trans (h₁ : Grows P pt st st') (h₂ : Grows P pt st' st'') : Grows P pt st st'' where
  tree := h₂.tree
  view_eq := h₂.view_eq.trans h₁.view_eq
  free_sub := h₂.free_sub.trans h₁.free_sub
  node_mono r t h := h₂.node_mono r t (h₁.node_mono r t h)
  node_new t h := by
    rcases h₂.node_new t h with h' | ⟨hf, hn⟩
    · rcases h₁.node_new t h' with h'' | ⟨hf', hn'⟩
      · exact .inl h''
      · exact .inr ⟨hf', fun h => hn' (h₂.free_sub h)⟩
    · exact .inr ⟨h₁.free_sub hf, hn⟩
  changed a h := by
    by_cases h' : st''.mem a = st'.mem a
    · obtain ⟨r, hr⟩ := h₁.changed a (by rwa [h'] at h)
      exact ⟨r, h₂.node_mono r _ hr⟩
    · exact h₂.changed a h'
  inner h := h₂.inner (h₁.inner h)

lemma Grows.freeOK (hg : Grows P pt st st') (hf : FreeOK P st pt) : FreeOK P st' pt := by
  intro p hp
  obtain ⟨hal, hlt, hn⟩ := hf p (hg.free_sub hp)
  refine ⟨hal, hlt, fun h => ?_⟩
  rcases hg.node_new p h with h' | ⟨_, hn'⟩
  · exact hn h'
  · exact hn' hp

variable (hP : P.Lawful)
include hP

lemma grows_alloc_none (ht : Tree st.mem pt) {heap : σ} (ha : P.alloc st.heap = (none, heap)) :
    Grows P pt st ⟨st.mem, heap⟩ where
  tree := ht
  view_eq := rfl
  free_sub := hP.alloc_none ha
  node_mono _ _ h := h
  node_new _ h := .inl h
  changed _ h := absurd rfl h
  inner h := h

lemma freshPage_alloc (hfree : FreeOK P st pt) {p : ℕ} {heap : σ}
    (ha : P.alloc st.heap = (some p, heap)) :
    FreshPage st.mem (memset (memset st.mem p 5 PGSIZE) p 0 PGSIZE) pt p := by
  obtain ⟨hal, hlt, hn⟩ := hfree p (hP.alloc_some ha).1
  refine ⟨hal, hlt, hn, fun k => ?_, fun a ha => ?_⟩
  · exact setRange_block_of_eq (by decide) hal (page_entry hal k)
  · rw [memset, setRange_block_of_ne (by decide) hal ha, memset, setRange_block_of_ne (by decide) hal ha]

/-- **A new page** hung under an entry of the table outside its level-0 pages. -/
lemma grows_install (ht : Tree st.mem pt) (hfree : FreeOK P st pt) {p : ℕ} {heap : σ}
    (ha : P.alloc st.heap = (some p, heap)) {q : Pos} {e : ℕ} (hq : node st.mem pt q = none)
    (he : IsNode st.mem pt (PGROUNDDOWN e))
    (he0 : ∀ i j t, node st.mem pt (.l0 i j) = some t → PGROUNDDOWN e ≠ t)
    (hnode : node (Function.update (memset (memset st.mem p 5 PGSIZE) p 0 PGSIZE) e
      (PA2PTE p ||| PTE_V)) pt = Function.update (node st.mem pt) q (some p))
    (hinner : Inner st.mem pt → Inner (Function.update (memset (memset st.mem p 5 PGSIZE) p 0 PGSIZE) e
      (PA2PTE p ||| PTE_V)) pt) :
    Grows P pt st (Phys.store ⟨memset (memset st.mem p 5 PGSIZE) p 0 PGSIZE, heap⟩ e
      (PA2PTE p ||| PTE_V)) := by
  have hf := freshPage_alloc hP hfree ha
  have hpe : PGROUNDDOWN e ≠ p := fun h => hf.not_node (h ▸ he)
  have hfresh : ∀ r, node st.mem pt r ≠ some p := fun r hr => hf.not_node ⟨r, hr⟩
  have hold : ∀ r t, node st.mem pt r = some t → r ≠ q := by
    rintro r t hr rfl
    rw [hq] at hr
    cases hr
  have hsome : ∀ r t, Function.update (node st.mem pt) q (some p) r = some t →
      node st.mem pt r = some t ∨ t = p := by
    intro r t hr
    by_cases hrq : r = q
    · subst hrq
      rw [Function.update_self, Option.some.injEq] at hr
      exact .inr hr.symm
    · rw [Function.update_of_ne hrq] at hr
      exact .inl hr
  refine ⟨?_, ?_, ?_, ?_, ?_, ?_, hinner⟩ <;> dsimp only [Phys.store_mem, Phys.store_heap]
  · show TreeOK _
    rw [hnode]
    exact TreeOK.update ht hf.aligned hfresh
  · exact view_install ht hf hq he0 hpe hnode
  · exact (hP.alloc_some ha).2.trans Set.sdiff_subset
  · intro r t hr
    rw [hnode, Function.update_of_ne (hold r t hr)]
    exact hr
  · rintro t ⟨r, hr⟩
    rw [hnode] at hr
    rcases hsome r t hr with h | rfl
    · exact .inl ⟨r, h⟩
    · exact .inr ⟨(hP.alloc_some ha).1, hP.not_free_alloc ha⟩
  · intro a ha'
    unfold IsNode
    rw [hnode]
    by_cases hae : a = e
    · subst hae
      obtain ⟨r, hr⟩ := he
      exact ⟨r, by rw [Function.update_of_ne (hold r _ hr)]; exact hr⟩
    · rw [Function.update_of_ne hae] at ha'
      have hpa : PGROUNDDOWN a = p := by
        by_contra hne
        exact ha' (hf.agree a hne)
      exact ⟨q, by rw [hpa, Function.update_self]⟩

lemma walkLoop_one (ht : Tree st.mem pt) (hfree : FreeOK P st pt) {va t : ℕ}
    (ht1 : node st.mem pt (.l1 (px 2 va)) = some t) :
    ∃ r st', walkLoop P va true 1 t st = (r, st') ∧ Grows P pt st st' ∧
      ∀ a, r = some a → walkRead st'.mem va 2 pt = some a := by
  by_cases hv : st.mem (t + 8 * PX 1 va) &&& PTE_V ≠ 0
  · refine ⟨_, st, by rw [walkLoop, if_pos hv]; rfl, Grows.refl ht, ?_⟩
    rintro a ⟨⟩
    rw [walkRead_two, node_l0, ht1, Option.bind_some, px_val, child_of_valid hv]
    rfl
  · have hj : node st.mem pt (.l0 (px 2 va) (px 1 va)) = none := by
      rw [node_l0, ht1]
      exact child_of_invalid hv
    rcases ha : P.alloc st.heap with ⟨_ | p, heap⟩
    · refine ⟨none, ⟨st.mem, heap⟩, ?_, grows_alloc_none hP ht ha, by simp⟩
      rw [walkLoop, if_neg hv]
      simp [kalloc, ha]
    · have hn := node_install_l0 ht (freshPage_alloc hP hfree ha) ht1 hj
      have he : PGROUNDDOWN (t + 8 * (px 1 va : ℕ)) = t := page_entry (ht.node_aligned ht1) _
      refine ⟨some (p + 8 * PX 0 va), _, ?_, grows_install hP ht hfree ha hj (by rw [he]; exact ⟨_, ht1⟩)
        (fun i j u hu => by rw [he]; exact ht.node_ne ht1 hu (by simp)) hn
        (fun h => inner_install_l0 ht (freshPage_alloc hP hfree ha) h ht1), ?_⟩
      · rw [walkLoop, if_neg hv]
        simp only [kalloc, ha]
        rfl
      · rintro a ⟨⟩
        rw [walkRead_two, Phys.store_mem, hn, Function.update_self]
        rfl

lemma walkLoop_two (ht : Tree st.mem pt) (hfree : FreeOK P st pt) {va : ℕ} (hva : va < MAXVA) :
    ∃ r st', walkLoop P va true 2 pt st = (r, st') ∧ Grows P pt st st' ∧
      ∀ a, r = some a → walkRead st'.mem va 2 pt = some a := by
  by_cases hv : st.mem (pt + 8 * PX 2 va) &&& PTE_V ≠ 0
  · obtain ⟨r, st', h, hg, hr⟩ := walkLoop_one hP ht hfree (t := PTE2PA (st.mem (pt + 8 * PX 2 va)))
      (child_of_valid hv)
    exact ⟨r, st', by rw [walkLoop, if_pos hv]; exact h, hg, hr⟩
  · have hi : node st.mem pt (.l1 (px 2 va)) = none := child_of_invalid hv
    rcases ha : P.alloc st.heap with ⟨_ | p, heap⟩
    · refine ⟨none, ⟨st.mem, heap⟩, ?_, grows_alloc_none hP ht ha, by simp⟩
      rw [walkLoop, if_neg hv]
      simp [kalloc, ha]
    · have hn := node_install_l1 ht (freshPage_alloc hP hfree ha) hi
      have he : PGROUNDDOWN (pt + 8 * (px 2 va : ℕ)) = pt := page_entry ht.root_aligned _
      have hg₁ := grows_install hP ht hfree ha hi (by rw [he]; exact ⟨.l2, rfl⟩)
        (fun i j u hu => by rw [he]; exact ht.node_ne (node_l2 _ pt) hu (by simp)) hn
        (fun h => inner_install_l1 ht (freshPage_alloc hP hfree ha) h (PX_two_lt_of_lt_MAXVA hva))
      obtain ⟨r, st', h, hg, hr⟩ := walkLoop_one hP hg₁.tree (hg₁.freeOK hfree) (t := p)
        (by rw [Phys.store_mem, hn, Function.update_self])
      refine ⟨r, st', ?_, hg₁.trans hg, hr⟩
      rw [walkLoop, if_neg hv]
      simp only [kalloc, ha]
      exact h

/-- **`walk` with allocation.** Below `MAXVA` it does not panic; it only hangs free pages under
invalid entries, so the translation is unchanged; and the address it returns is the leaf
entry of `va` in the table it leaves. -/
theorem walk_alloc_spec (ht : Tree st.mem pt) (hfree : FreeOK P st pt) {va : ℕ} (hva : va < MAXVA) :
    ∃ r st', walk P pt va true st = .ok (r, st') ∧ Grows P pt st st' ∧
      ∀ a, r = some a → walkRead st'.mem va 2 pt = some a := by
  obtain ⟨r, st', h, hg, hr⟩ := walkLoop_two hP ht hfree hva
  exact ⟨r, st', by rw [walk, if_neg (by omega), h], hg, hr⟩

end Grow

/-- **`walk` without allocation** only reads. -/
lemma walk_false {σ : Type*} (P : Pool σ) (pt va : ℕ) (st : Phys σ) (hva : va < MAXVA) :
    walk P pt va false st = .ok (walkRead st.mem va 2 pt, st) := by
  rw [walk, if_neg (by omega), walkLoop_false]

end Xv6.Vm.Walk
