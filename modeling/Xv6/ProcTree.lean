import Xv6.Running

/-!
The process tree of `proc.c`: who is whose parent.

The tree sees each slot through `node`: whether it is in use, whether it is a `ZOMBIE`, and
its parent. `Sound` states what the tree must be: a free slot has no parent, every process
but `initproc` and the pending children has one, a parent is in use and not a `ZOMBIE`, and
`initproc` is a live root. A child is pending between the first section of its `kfork` and
the second, which sets its parent under `wait_lock`: it is `USED` with no parent until then.
`TreeStep` lists what a step of the process subsystem can do to the tree: nothing; free a
slot `allocproc` took; add a pending child (the first section of `kfork`); give a pending
child its parent (the second); start `init` (`userinit`); exit, which gives the children to
`initproc` and makes the process a `ZOMBIE` (`kexit`); or reap a `ZOMBIE` child (`kwait`).
Each of these keeps the tree sound, so it is sound in every reachable state.
-/

namespace Xv6.ProcTree

open Xv6.Param Xv6.Lib.Reach Xv6.ProcTable Xv6.Sched Xv6.Fork Xv6.Running

/-! ## Trees and their soundness -/

/-- What the process tree sees of a slot. -/
@[ext] structure Node where
  used : Bool
  zombie : Bool
  parent : Option (Fin NPROC)
  deriving DecidableEq, Repr

/-- `kexit` of `p` on the tree: the children of `p` go to `init`, then `p` is a `ZOMBIE`. -/
def exitTree (T : Fin NPROC → Node) (p : Fin NPROC) (init : Option (Fin NPROC))
    (j : Fin NPROC) : Node :=
  let n := if (T j).parent = some p then { T j with parent := init } else T j
  if j = p then { n with used := true, zombie := true } else n

@[simp] lemma exitTree_used (T : Fin NPROC → Node) (p : Fin NPROC) (init : Option (Fin NPROC))
    (j : Fin NPROC) : (exitTree T p init j).used = if j = p then true else (T j).used := by
  unfold exitTree
  split_ifs <;> rfl

@[simp] lemma exitTree_zombie (T : Fin NPROC → Node) (p : Fin NPROC) (init : Option (Fin NPROC))
    (j : Fin NPROC) : (exitTree T p init j).zombie = if j = p then true else (T j).zombie := by
  unfold exitTree
  split_ifs <;> rfl

@[simp] lemma exitTree_parent (T : Fin NPROC → Node) (p : Fin NPROC) (init : Option (Fin NPROC))
    (j : Fin NPROC) :
    (exitTree T p init j).parent = if (T j).parent = some p then init else (T j).parent := by
  unfold exitTree
  split_ifs <;> rfl

/-- A sound process tree with root `init` and pending children `pend`. -/
structure Sound (init : Option (Fin NPROC)) (pend : Fin NPROC → Prop) (T : Fin NPROC → Node) :
    Prop where
  /-- A free slot has no parent. -/
  free : ∀ i, (T i).used = false → (T i).parent = none
  /-- Every process but the root and the pending children has a parent. -/
  orphan : ∀ i, (T i).used → ¬pend i → init ≠ some i → (T i).parent ≠ none
  /-- A parent is in use and not a zombie. -/
  live : ∀ i pp, (T i).parent = some pp → (T pp).used ∧ (T pp).zombie = false
  /-- The root is in use, not a zombie, and has no parent. -/
  root : ∀ i, init = some i → (T i).used ∧ (T i).zombie = false ∧ (T i).parent = none
  /-- Before there is a root there is no process. -/
  empty : init = none → ∀ i, (T i).used = false
  /-- A pending child is in use, not a zombie, and not the root. -/
  fresh : ∀ i, pend i → (T i).used ∧ (T i).zombie = false ∧ init ≠ some i

namespace Sound

variable {init : Option (Fin NPROC)} {pend : Fin NPROC → Prop} {T : Fin NPROC → Node}

lemma init_ne_none (h : Sound init pend T) {p : Fin NPROC} (hp : (T p).used) : init ≠ none :=
  fun he => by simp [h.empty he p] at hp

/-- Freeing a slot no one points at that is neither the root nor pending. -/
lemma clear (h : Sound init pend T) {i : Fin NPROC} (hnp : ∀ j, (T j).parent ≠ some i)
    (hr : init ≠ some i) (hpi : ¬pend i) :
    Sound init pend (Function.update T i ⟨false, false, none⟩) := by
  -- every other slot keeps its node, and the slots the others name are not `i`
  have hne : ∀ j pp, (T j).parent = some pp → pp ≠ i := fun j pp hj he => hnp j (he ▸ hj)
  constructor
  · intro j hj
    by_cases hji : j = i
    · subst hji; simp
    · simp only [Function.update_of_ne hji] at hj ⊢
      exact h.free j hj
  · intro j hj hjp hjr
    by_cases hji : j = i
    · subst hji; simp at hj
    · simp only [Function.update_of_ne hji] at hj ⊢
      exact h.orphan j hj hjp hjr
  · intro j pp hj
    by_cases hji : j = i
    · subst hji; simp at hj
    · rw [Function.update_of_ne hji] at hj
      rw [Function.update_of_ne (hne j pp hj)]
      exact h.live j pp hj
  · intro r hr'
    have hri : r ≠ i := fun he => hr (he ▸ hr')
    rw [Function.update_of_ne hri]
    exact h.root r hr'
  · intro he j
    by_cases hji : j = i
    · subst hji; simp
    · rw [Function.update_of_ne hji]
      exact h.empty he j
  · intro j hj
    have hji : j ≠ i := fun he => hpi (he ▸ hj)
    rw [Function.update_of_ne hji]
    exact h.fresh j hj

lemma clear_free (h : Sound init pend T) {i : Fin NPROC} (hi : (T i).used = false) :
    Sound init pend (Function.update T i ⟨false, false, none⟩) :=
  h.clear (fun j hj => by simp [(h.live j i hj).1] at hi)
    (fun hr => by simp [(h.root i hr).1] at hi) (fun hp => by simp [(h.fresh i hp).1] at hi)

lemma clear_zombie (h : Sound init pend T) {i : Fin NPROC} (hi : (T i).zombie) :
    Sound init pend (Function.update T i ⟨false, false, none⟩) :=
  h.clear (fun j hj => by simp [(h.live j i hj).2] at hi)
    (fun hr => by simp [(h.root i hr).2.1] at hi) (fun hp => by simp [(h.fresh i hp).2.1] at hi)

/-- A process in use takes a free slot for a pending child. -/
lemma alloc (h : Sound init pend T) {p i : Fin NPROC} (hp : (T p).used)
    (hi : (T i).used = false) :
    Sound init (fun j => j = i ∨ pend j) (Function.update T i ⟨true, false, none⟩) := by
  -- the slots in use, the root and the parents among them, are not `i`
  have hne : ∀ j, (T j).used → j ≠ i := fun j hj he => by simp [he, hi] at hj
  have hinit := h.init_ne_none hp
  constructor
  · intro j hj
    by_cases hji : j = i
    · subst hji; simp at hj
    · simp only [Function.update_of_ne hji] at hj ⊢
      exact h.free j hj
  · intro j hj hjp hjr
    have hji : j ≠ i := fun he => hjp (.inl he)
    simp only [Function.update_of_ne hji] at hj ⊢
    exact h.orphan j hj (fun hp' => hjp (.inr hp')) hjr
  · intro j pp hj
    by_cases hji : j = i
    · subst hji; simp at hj
    · rw [Function.update_of_ne hji] at hj
      have hl := h.live j pp hj
      rw [Function.update_of_ne (hne pp hl.1)]
      exact hl
  · intro r hr
    have hl := h.root r hr
    rw [Function.update_of_ne (hne r hl.1)]
    exact hl
  · exact fun he => absurd he hinit
  · rintro j (rfl | hj)
    · obtain ⟨r, hr⟩ := Option.ne_none_iff_exists'.1 hinit
      have hri : r ≠ j := hne r (h.root r hr).1
      refine ⟨by simp, by simp, fun he => hri ?_⟩
      rw [hr] at he
      exact Option.some.inj he
    · have hl := h.fresh j hj
      rw [Function.update_of_ne (hne j hl.1)]
      exact hl

/-- A pending child takes a process in use and not a zombie for its parent. -/
lemma adopt (h : Sound init pend T) {p i : Fin NPROC} (hi : pend i) (hp : (T p).used)
    (hpz : (T p).zombie = false) :
    Sound init (fun j => j ≠ i ∧ pend j) (Function.update T i ⟨true, false, some p⟩) := by
  obtain ⟨hiu, hiz, hir⟩ := h.fresh i hi
  -- the node of `i` stays in use and not a zombie; only its parent changes
  have hnode : ∀ j, (Function.update T i ⟨true, false, some p⟩ j).used = (T j).used ∧
      (Function.update T i ⟨true, false, some p⟩ j).zombie = (T j).zombie := by
    intro j
    by_cases hji : j = i
    · subst hji; simp [hiu, hiz]
    · simp [Function.update_of_ne hji]
  constructor
  · intro j hj
    have hji : j ≠ i := fun he => by subst he; simp at hj
    simp only [Function.update_of_ne hji] at hj ⊢
    exact h.free j hj
  · intro j hj hjp hjr
    by_cases hji : j = i
    · subst hji; simp
    · simp only [Function.update_of_ne hji] at hj ⊢
      exact h.orphan j hj (fun hp' => hjp ⟨hji, hp'⟩) hjr
  · intro j pp hj
    rw [(hnode pp).1, (hnode pp).2]
    by_cases hji : j = i
    · subst hji
      simp only [Function.update_self, Option.some.injEq] at hj
      exact hj ▸ ⟨hp, hpz⟩
    · rw [Function.update_of_ne hji] at hj
      exact h.live j pp hj
  · intro r hr
    have hri : r ≠ i := fun he => hir (he ▸ hr)
    rw [Function.update_of_ne hri]
    exact h.root r hr
  · exact fun he => absurd he (h.init_ne_none hiu)
  · rintro j ⟨-, hj⟩
    rw [(hnode j).1, (hnode j).2]
    exact h.fresh j hj

/-- The first process becomes the root of a tree with no process. -/
lemma start (h : Sound none pend T) {i : Fin NPROC} :
    Sound (some i) pend (Function.update T i ⟨true, false, (T i).parent⟩) := by
  -- no slot is in use, so no slot has a parent and none is pending
  have hfree : ∀ j, (T j).used = false := h.empty rfl
  have hnone : ∀ j, (T j).parent = none := fun j => h.free j (hfree j)
  have hnp : ∀ j, ¬pend j := fun j hj => by simpa [hfree j] using (h.fresh j hj).1
  constructor
  · intro j hj
    by_cases hji : j = i
    · subst hji; simp at hj
    · simp only [Function.update_of_ne hji] at hj ⊢
      exact hnone j
  · intro j hj _ hjr
    by_cases hji : j = i
    · exact absurd (hji ▸ rfl) hjr
    · simp [Function.update_of_ne hji, hfree j] at hj
  · intro j pp hj
    by_cases hji : j = i
    · subst hji; simp [hnone] at hj
    · simp [Function.update_of_ne hji, hnone j] at hj
  · intro r hr
    cases hr
    simp [hnone]
  · intro he
    cases he
  · exact fun j hj => absurd hj (hnp j)

/-- A process in use, not a zombie, not pending and not the root exits: its children go to
the root, and it becomes a zombie that no one points at. -/
lemma exit (h : Sound init pend T) {p : Fin NPROC} (hp : (T p).used) (hpz : (T p).zombie = false)
    (hinit : init ≠ some p) (hpp : ¬pend p) : Sound init pend (exitTree T p init) := by
  obtain ⟨r, hr⟩ := Option.ne_none_iff_exists'.1 (h.init_ne_none hp)
  have hrp : r ≠ p := fun he => hinit (he ▸ hr)
  obtain ⟨hru, hrz, hrn⟩ := h.root r hr
  constructor
  · intro j hj
    have hjp : j ≠ p := fun he => by simp [he] at hj
    simp only [exitTree_used, if_neg hjp] at hj
    simp [h.free j hj]
  · intro j hj hjn hjr
    rw [exitTree_parent]
    split_ifs with hjp
    · rw [hr]; simp
    · by_cases hjp' : j = p
      · subst hjp'; exact h.orphan j hp hjn hjr
      · simp only [exitTree_used, if_neg hjp'] at hj
        exact h.orphan j hj hjn hjr
  · intro j pp hj
    rw [exitTree_parent] at hj
    split_ifs at hj with hjp
    · -- a child of `p` now names the root
      rw [hr, Option.some.injEq] at hj
      subst hj
      simp [if_neg hrp, hru, hrz]
    · have hpp' : pp ≠ p := fun he => hjp (he ▸ hj)
      have hl := h.live j pp hj
      simp [if_neg hpp', hl.1, hl.2]
  · intro r' hr'
    rw [hr, Option.some.injEq] at hr'
    subst hr'
    simp [if_neg hrp, hru, hrz, hrn]
  · exact fun he => absurd he (h.init_ne_none hp)
  · intro j hj
    have hjp : j ≠ p := fun he => hpp (he ▸ hj)
    simpa [hjp] using h.fresh j hj

end Sound

/-! ## The tree of a process table -/

def node (p : Proc) : Node :=
  ⟨decide (p.state ≠ .UNUSED), decide (p.state = .ZOMBIE), p.parent⟩

def tree (s : Sys) (i : Fin NPROC) : Node := node (s.proc i)

@[simp] lemma tree_used (s : Sys) (i : Fin NPROC) :
    (tree s i).used = decide ((s.proc i).state ≠ .UNUSED) := rfl
@[simp] lemma tree_zombie (s : Sys) (i : Fin NPROC) :
    (tree s i).zombie = decide ((s.proc i).state = .ZOMBIE) := rfl
@[simp] lemma tree_parent (s : Sys) (i : Fin NPROC) : (tree s i).parent = (s.proc i).parent :=
  rfl

lemma tree_setProc (s : Sys) (i : Fin NPROC) (q : Proc) :
    tree (s.setProc i q) = Function.update (tree s) i (node q) := by
  funext j
  by_cases hj : j = i
  · subst hj
    simp [tree]
  · simp [tree, hj]

lemma tree_setProc_of_node {s : Sys} {i : Fin NPROC} {q : Proc} (h : node q = node (s.proc i)) :
    tree (s.setProc i q) = tree s := by
  rw [tree_setProc, h]
  exact Function.update_eq_self i (tree s)

@[simp] lemma tree_setCpu (s : Sys) (c : Fin NCPU) (x : Option (Fin NPROC)) :
    tree (s.setCpu c x) = tree s := rfl

lemma tree_wakeup (s : Sys) (me : Option (Fin NPROC)) (chan : Chan) :
    tree (wakeup s me chan) = tree s := by
  funext j
  simp only [tree, wakeup]
  split_ifs with h
  · simp [node, h.2.1]
  · rfl

lemma reparentAt_cases (p : Fin NPROC) (s : Sys) (pp : Fin NPROC) :
    (reparentAt p s pp).initproc = s.initproc ∧
      tree (reparentAt p s pp) = Function.update (tree s) pp
        (if (s.proc pp).parent = some p then { tree s pp with parent := s.initproc }
         else tree s pp) := by
  unfold reparentAt
  split_ifs
  · exact ⟨rfl, by rw [tree_wakeup, tree_setProc]; rfl⟩
  · exact ⟨rfl, (Function.update_eq_self pp (tree s)).symm⟩

/-- `reparent` gives the children of `p` to `initproc` and leaves the rest of the tree. -/
lemma reparent_cases (s : Sys) (p : Fin NPROC) :
    (reparent s p).initproc = s.initproc ∧
      ∀ j, tree (reparent s p) j =
        if (s.proc j).parent = some p then { tree s j with parent := s.initproc } else tree s j := by
  -- over a list of distinct slots, each is reparented once, when the loop reaches it
  suffices h : ∀ (l : List (Fin NPROC)), l.Nodup → ∀ t : Sys,
      (l.foldl (reparentAt p) t).initproc = t.initproc ∧
      ∀ j, tree (l.foldl (reparentAt p) t) j =
        if j ∈ l ∧ (t.proc j).parent = some p then { tree t j with parent := t.initproc }
        else tree t j by
    obtain ⟨h₁, h₂⟩ := h _ (List.nodup_finRange NPROC) s
    exact ⟨h₁, fun j => by simpa [reparent] using h₂ j⟩
  intro l
  induction l with
  | nil => exact fun _ t => ⟨rfl, fun j => by simp⟩
  | cons pp l ih =>
    intro hnd t
    obtain ⟨hpp, hnd⟩ := List.nodup_cons.1 hnd
    obtain ⟨hi₁, ht₁⟩ := reparentAt_cases p t pp
    obtain ⟨hi₂, ht₂⟩ := ih hnd (reparentAt p t pp)
    refine ⟨hi₂.trans hi₁, fun j => ?_⟩
    rw [List.foldl_cons, ht₂ j, hi₁]
    by_cases hj : j = pp
    · -- the loop reaches `pp` once, here
      subst hj
      rw [if_neg (fun h => hpp h.1), ht₁, Function.update_self]
      simp
    · have hnode : tree (reparentAt p t pp) j = tree t j := by
        rw [ht₁, Function.update_of_ne hj]
      have hpar : ((reparentAt p t pp).proc j).parent = (t.proc j).parent :=
        congrArg Node.parent hnode
      rw [hnode, hpar]
      simp [hj]

/-- `allocproc` on the tree: it finds no slot, or takes the first `UNUSED` slot `i` and makes it
`USED` with the parent the slot held, or gives `i` back freed when an allocation fails. -/
lemma allocproc_tree (s : Sys) (ok : Bool) :
    (allocproc s ok).2.initproc = s.initproc ∧
      ((allocproc s ok).1 = none ∧ ((allocproc s ok).2 = s ∨
          ∃ i, (s.proc i).state = .UNUSED ∧
            tree (allocproc s ok).2 = Function.update (tree s) i ⟨false, false, none⟩) ∨
        ∃ i, (allocproc s ok).1 = some i ∧ (s.proc i).state = .UNUSED ∧
          tree (allocproc s ok).2 = Function.update (tree s) i ⟨true, false, (s.proc i).parent⟩) := by
  unfold allocproc allocpid
  split
  · exact ⟨rfl, .inl ⟨rfl, .inl rfl⟩⟩
  · rename_i i hi
    have hU := firstUnused_state hi
    dsimp only
    -- the slot as `allocproc` leaves it `USED`
    have h₁ : tree (({ s with nextpid := i32 (s.nextpid + 1) } : Sys).setProc i
        { s.proc i with pid := s.nextpid, tickets := 10, state := .USED }) =
        Function.update (tree s) i ⟨true, false, (s.proc i).parent⟩ := by
      rw [tree_setProc]
      simp [node]
      rfl
    cases ok
    · refine ⟨rfl, .inl ⟨rfl, .inr ⟨i, hU, ?_⟩⟩⟩
      simp only [Bool.false_eq_true, if_false]
      rw [tree_setProc, h₁, Function.update_idem]
      simp [node, freeproc]
    · exact ⟨rfl, .inr ⟨i, rfl, hU, h₁⟩⟩

lemma reparent_forking (s : Sys) (p : Fin NPROC) : (reparent s p).forking = s.forking := by
  suffices h : ∀ (l : List (Fin NPROC)) (t : Sys), (l.foldl (reparentAt p) t).forking = t.forking
    from h _ s
  intro l
  induction l with
  | nil => exact fun _ => rfl
  | cons pp l ih =>
    intro t
    rw [List.foldl_cons, ih]
    unfold reparentAt
    split_ifs <;> rfl

/-! ## Pending children -/

/-- The pending children of a state: those whose `kfork` is past its first section and not
past its second. -/
def pending (s : Sys) (i : Fin NPROC) : Prop := ∃ p, s.forking p = .parent i

lemma pending_congr {s s' : Sys} (h : s'.forking = s.forking) : pending s' = pending s := by
  unfold pending
  rw [h]

lemma pending_update {s s' : Sys} {p : Fin NPROC} {x : Forking}
    (h : s'.forking = Function.update s.forking p x) (j : Fin NPROC) :
    pending s' j ↔ x = .parent j ∨ ∃ q, q ≠ p ∧ s.forking q = .parent j := by
  unfold pending
  rw [h]
  constructor
  · rintro ⟨q, hq⟩
    by_cases hqp : q = p
    · subst hqp
      exact .inl (by simpa using hq)
    · exact .inr ⟨q, hqp, by rwa [Function.update_of_ne hqp] at hq⟩
  · rintro (hx | ⟨q, hqp, hq⟩)
    · exact ⟨p, by simp [hx]⟩
    · exact ⟨q, by rwa [Function.update_of_ne hqp]⟩

/-- The first section of a `kfork` makes its child pending. -/
lemma pending_begin {s s' : Sys} {p np : Fin NPROC} (hidle : s.forking p = .idle)
    (h : s'.forking = Function.update s.forking p (.parent np)) :
    pending s' = fun j => j = np ∨ pending s j := by
  funext j
  apply propext
  rw [pending_update h]
  refine or_congr (by simp [eq_comm]) ⟨fun ⟨q, _, hq⟩ => ⟨q, hq⟩, fun ⟨q, hq⟩ => ⟨q, ?_, hq⟩⟩
  rintro rfl
  rw [hidle] at hq
  cases hq

/-- The second section makes it a child of `p`: the only `kfork` with that child is `p`'s. -/
lemma pending_kforkParent {s : Sys} (hf : ForkOK s) {p np : Fin NPROC}
    (hp : s.forking p = .parent np) :
    pending (kforkParent s p np) = fun j => j ≠ np ∧ pending s j := by
  funext j
  apply propext
  rw [pending_update (s := s) (p := p) (x := .run np) rfl]
  constructor
  · rintro (h | ⟨q, hqp, hq⟩)
    · cases h
    · refine ⟨fun he => hqp (hf.unique q p np ?_ ?_), q, hq⟩
      · simp [hq, he, Forking.child]
      · simp [hp, Forking.child]
  · rintro ⟨hj, q, hq⟩
    refine .inr ⟨q, fun he => hj ?_, hq⟩
    subst he
    rw [hp] at hq
    exact (Forking.parent.inj hq).symm

lemma pending_kforkRun {s : Sys} {p np : Fin NPROC} (hp : s.forking p = .run np) :
    pending (kforkRun s p np) = pending s := by
  funext j
  apply propext
  rw [pending_update (s := s) (p := p) (x := .idle) rfl]
  constructor
  · rintro (h | ⟨q, -, hq⟩)
    · cases h
    · exact ⟨q, hq⟩
  · rintro ⟨q, hq⟩
    refine .inr ⟨q, fun he => ?_, hq⟩
    subst he
    rw [hp] at hq
    cases hq

/-! ## What a step does to the tree -/

/-- What one step does to the process tree: nothing; free an `UNUSED` slot that `allocproc`
took; give the running `p` a pending child in an `UNUSED` slot; make a pending `USED` child a
child of the running `p`; start the first process; exit the running `p`; or reap, in a
`kwait` of the running `p`, a `ZOMBIE` child of `p`. -/
inductive TreeStep (s s' : Sys) : Prop
  | keep : s'.initproc = s.initproc → pending s' = pending s → tree s' = tree s → TreeStep s s'
  | clear {i : Fin NPROC} : (s.proc i).state = .UNUSED → s'.initproc = s.initproc →
      pending s' = pending s →
      tree s' = Function.update (tree s) i ⟨false, false, none⟩ → TreeStep s s'
  | alloc {p i : Fin NPROC} : (s.proc p).state = .RUNNING → (s.proc i).state = .UNUSED →
      s'.initproc = s.initproc → pending s' = (fun j => j = i ∨ pending s j) →
      tree s' = Function.update (tree s) i ⟨true, false, none⟩ → TreeStep s s'
  | adopt {p i : Fin NPROC} : pending s i → (s.proc i).state = .USED →
      (s.proc p).state = .RUNNING → s'.initproc = s.initproc →
      pending s' = (fun j => j ≠ i ∧ pending s j) →
      tree s' = Function.update (tree s) i ⟨true, false, some p⟩ → TreeStep s s'
  | start {i : Fin NPROC} : s.initproc = none → (s.proc i).state = .UNUSED →
      s'.initproc = some i → pending s' = pending s →
      tree s' = Function.update (tree s) i ⟨true, false, (s.proc i).parent⟩ → TreeStep s s'
  | exit {p : Fin NPROC} : (s.proc p).state = .RUNNING → s.initproc ≠ some p → ¬pending s p →
      s'.initproc = s.initproc → pending s' = pending s →
      tree s' = exitTree (tree s) p s.initproc → TreeStep s s'
  | reap {c : Fin NCPU} {p i : Fin NPROC} {copyfail : Bool} : s.cpus c = some p →
      (s.proc i).state = .ZOMBIE → (s.proc i).parent = some p →
      kwait s c p copyfail = (some (s.proc i).pid, s') → s'.initproc = s.initproc →
      pending s' = pending s →
      tree s' = Function.update (tree s) i ⟨false, false, none⟩ → TreeStep s s'

lemma TreeStep.of_running {s : Sys} {p : Fin NPROC} {q : Proc} (c : Fin NCPU)
    (hp : (s.proc p).state = .RUNNING) (hq : q.state ≠ .UNUSED ∧ q.state ≠ .ZOMBIE)
    (hpar : q.parent = (s.proc p).parent) : TreeStep s ((s.setProc p q).setCpu c none) :=
  .keep rfl (pending_congr rfl)
    (by rw [tree_setCpu]; exact tree_setProc_of_node (by simp [node, hp, hq, hpar]))

/-- The first section of `kfork`: `allocproc` finds no slot, or gives one back, or the running
`p` gets a pending child, which has the parent a free slot has, none. -/
lemma treeStep_kforkAlloc {s : Sys} (hf : ForkOK s) {p : Fin NPROC}
    (hp : (s.proc p).state = .RUNNING) (hidle : s.forking p = .idle) (ok copyok : Bool) :
    TreeStep s (kforkAlloc s p ok copyok).2 := by
  unfold kforkAlloc
  have hspec := allocproc_tree s ok
  have hf₁ := allocproc_forking s ok
  rcases ha : allocproc s ok with ⟨_ | np, s₁⟩ <;> rw [ha] at hspec hf₁ <;>
    dsimp only at hspec hf₁ ⊢
  · obtain ⟨hinit, ⟨-, rfl | ⟨i, hi, ht⟩⟩ | ⟨i, h, -⟩⟩ := hspec
    · -- no free slot
      exact .keep rfl rfl rfl
    · -- a failed allocation gives the slot back
      exact .clear hi hinit (pending_congr hf₁) ht
    · cases h
  · obtain ⟨hinit, ⟨h, -⟩ | ⟨i, hi', hi, ht⟩⟩ := hspec
    · cases h
    obtain rfl := Option.some.inj hi'
    cases copyok
    · -- `uvmcopy` failed and the child is freed
      rw [if_neg Bool.false_ne_true]
      refine .clear hi hinit (pending_congr hf₁) ?_
      rw [tree_setProc, ht, Function.update_idem]
      simp [node, freeproc]
    · rw [if_pos rfl]
      refine .alloc hp hi hinit (pending_begin hidle (by rw [← hf₁])) ?_
      -- the tickets are not in the tree; the parent is the one of the free slot, none
      show tree (s₁.setProc np _) = _
      have hnode : node { s₁.proc np with tickets := (s₁.proc p).tickets } = tree s₁ np := rfl
      rw [tree_setProc, hnode, ht, Function.update_idem, Function.update_self, hf.free np hi]

/-- The second section of `kfork`: the pending child becomes a child of the running `p`. -/
lemma treeStep_kforkParent {s : Sys} (hf : ForkOK s) {p np : Fin NPROC}
    (hp : (s.proc p).state = .RUNNING) (hfp : s.forking p = .parent np) :
    TreeStep s (kforkParent s p np) := by
  have hU := (hf.parent p np hfp).1
  refine .adopt ⟨p, hfp⟩ hU hp rfl (pending_kforkParent hf hfp) ?_
  show tree (s.setProc np _) = _
  rw [tree_setProc]
  simp [node, hU]

/-- The third section of `kfork`: a `USED` child becomes `RUNNABLE`, which the tree does not
see. -/
lemma treeStep_kforkRun {s : Sys} (hf : ForkOK s) {p np : Fin NPROC}
    (hfr : s.forking p = .run np) : TreeStep s (kforkRun s p np) :=
  .keep rfl (pending_kforkRun hfr)
    (tree_setProc_of_node (by simp [node, (hf.run p np hfr).1]))

lemma treeStep_userinit {s s' : Sys} (hinit : s.initproc = none) (h : userinit s = some s') :
    TreeStep s s' := by
  unfold userinit at h
  have hspec := allocproc_tree s true
  have hf₁ := allocproc_forking s true
  rcases ha : allocproc s true with ⟨_ | i, s₁⟩ <;> rw [ha] at hspec hf₁ h <;>
    dsimp only at hspec hf₁ h
  · cases h
  · obtain ⟨-, ⟨h', -⟩ | ⟨j, hj', hi, ht⟩⟩ := hspec
    · cases h'
    obtain rfl := Option.some.inj hj'
    cases h
    -- `userinit` makes the slot `RUNNABLE`; setting `initproc` leaves the slots
    refine .start hinit hi rfl (pending_congr hf₁) ?_
    have hpar : (s₁.proc i).parent = (s.proc i).parent := by
      simpa using congrArg Node.parent (congrFun ht i)
    show tree (s₁.setProc i _) = _
    rw [tree_setProc, ht, Function.update_idem]
    simp [node, hpar]

/-- `kexit` on the tree: the children go to `initproc`, and the process is a `ZOMBIE`. -/
lemma kexit_tree {s s' : Sys} {c : Fin NCPU} {p : Fin NPROC} {status : ℤ}
    (h : kexit s c p status = some s') :
    s.initproc ≠ some p ∧ s'.initproc = s.initproc ∧ s'.forking = s.forking ∧
      (s'.proc p).state = .ZOMBIE ∧ tree s' = exitTree (tree s) p s.initproc := by
  unfold kexit at h
  split_ifs at h with hi
  cases h
  obtain ⟨hri, hrt⟩ := reparent_cases s p
  refine ⟨hi, by simp [toScheduler, wakeup, hri], by simp [toScheduler, wakeup, reparent_forking],
    by simp [toScheduler], ?_⟩
  -- the wakeup of the parent leaves the tree `reparent` made
  have hw : ∀ j, tree (wakeup (reparent s p) (some p)
      (chanOf ((reparent s p).proc p).parent)) j = tree (reparent s p) j :=
    fun j => congrFun (tree_wakeup _ _ _) j
  funext j
  simp only [toScheduler, tree_setCpu, tree_setProc]
  by_cases hj : j = p
  · subst hj
    have hpar := congrArg Node.parent ((hw j).trans (hrt j))
    simp only [tree_parent] at hpar
    rw [Function.update_self]
    ext <;> simp [node, exitTree, hpar]
  · rw [Function.update_of_ne hj, hw j, hrt j]
    simp [exitTree, hj]

lemma treeStep_kwait {s : Sys} {c : Fin NCPU} {p : Fin NPROC} (copyfail : Bool)
    (hc : s.cpus c = some p) (hp : (s.proc p).state = .RUNNING) :
    TreeStep s (kwait s c p copyfail).2 := by
  rcases h : kwait s c p copyfail with ⟨r, s'⟩
  have hk := h
  unfold kwait at h
  split at h
  · rename_i pp hpp
    have hz : (s.proc pp).state = .ZOMBIE := by simpa using List.find?_some hpp
    have hpar : (s.proc pp).parent = some p := by
      simpa [children] using List.mem_of_find?_eq_some hpp
    split_ifs at h
    · -- the `copyout` of the status failed: nothing changes
      cases h
      exact .keep rfl rfl rfl
    · -- the child is reaped
      cases h
      refine .reap hc hz hpar hk rfl (pending_congr rfl) ?_
      rw [tree_setProc]
      simp [node, freeproc]
  · split_ifs at h
    · cases h
      exact .keep rfl rfl rfl
    · -- `kwait` sleeps on `p`
      cases h
      exact TreeStep.of_running c hp (by simp) rfl

lemma treeStep_scheduler (s : Sys) (c : Fin NCPU) : TreeStep s (scheduler s c) := by
  unfold scheduler
  split
  · exact .keep rfl (pending_congr rfl) rfl
  · rename_i p rs hround
    refine .keep rfl (pending_congr rfl) ?_
    -- the winner goes from `RUNNABLE` to `RUNNING`
    show tree ((s.setProc p _).setCpu c (some p)) = _
    rw [tree_setCpu]
    exact tree_setProc_of_node (by simp [node, schedulerRound_runnable hround])

lemma treeStep_kkill (s : Sys) (pid : ℤ) : TreeStep s (kkill s pid).2 := by
  unfold kkill
  split
  · exact .keep rfl rfl rfl
  · rename_i i _
    refine .keep rfl (pending_congr rfl) (tree_setProc_of_node ?_)
    split_ifs with h <;> simp [node, h]

/-- **Every step of the process subsystem is one of the seven kinds.** The callers are
`RUNNING`, by `Runs`, and the `kfork`s in progress are in order, by `ForkOK`. -/
theorem treeStep_of_step {s s' : Sys} (hr : Runs s) (hf : ForkOK s) (h : ProcStep.Step s s') :
    TreeStep s s' := by
  have hrun : ∀ {c p}, s.cpus c = some p → (s.proc p).state = .RUNNING :=
    fun hc => (hr.running _).2 ⟨_, hc⟩
  cases h with
  | userinit hinit h => exact treeStep_userinit hinit h
  | scheduler c _ => exact treeStep_scheduler s c
  | forkAlloc c p ok copyok hc hidle => exact treeStep_kforkAlloc hf (hrun hc) hidle ok copyok
  | forkParent c p np hc hfp => exact treeStep_kforkParent hf (hrun hc) hfp
  | forkRun c p np _ hfr => exact treeStep_kforkRun hf hfr
  | settickets c p n _ _ _ => exact .keep rfl (pending_congr rfl) (tree_setProc_of_node rfl)
  | yield c p hc => exact TreeStep.of_running c (hrun hc) (by simp) rfl
  | sleep c p chan hc _ _ => exact TreeStep.of_running c (hrun hc) (by simp) rfl
  | wakeup c chan => exact .keep rfl (pending_congr rfl) (tree_wakeup s _ chan)
  | kill c p pid _ _ _ => exact treeStep_kkill s pid
  | setkilled c p _ _ => exact .keep rfl (pending_congr rfl) (tree_setProc_of_node rfl)
  | exit c p status hc _ h =>
    obtain ⟨hne, hinit, hfk, -, ht⟩ := kexit_tree h
    -- a pending child is `USED`, and `p` runs
    have hnp : ¬pending s p := fun ⟨q, hq⟩ => by
      have hR := hrun hc
      rw [(hf.parent q p hq).1] at hR
      cases hR
    exact .exit (hrun hc) hne hnp hinit (pending_congr hfk) ht
  | wait c p copyfail hc _ => exact treeStep_kwait copyfail hc (hrun hc)

/-! ## The tree in every reachable state -/

/-- **Every kind of step keeps the tree sound.** -/
lemma Sound.step {s s' : Sys} (h : Sound s.initproc (pending s) (tree s)) (hs : TreeStep s s') :
    Sound s'.initproc (pending s') (tree s') := by
  cases hs with
  | keep hi hp ht =>
    rw [hi, hp, ht]
    exact h
  | clear hi hinit hp ht =>
    rw [hinit, hp, ht]
    exact h.clear_free (by simp [hi])
  | @alloc p i hp hi hinit hpend ht =>
    rw [hinit, hpend, ht]
    exact h.alloc (p := p) (by simp [hp]) (by simp [hi])
  | adopt hi _ hp hinit hpend ht =>
    rw [hinit, hpend, ht]
    exact h.adopt hi (by simp [hp]) (by simp [hp])
  | start hinit hi hinit' hp ht =>
    rw [hinit', hp, ht]
    rw [hinit] at h
    exact h.start
  | exit hp hne hnp hinit hpend ht =>
    rw [hinit, hpend, ht]
    exact h.exit (by simp [hp]) (by simp [hp]) hne hnp
  | reap _ hz _ _ hinit hp ht =>
    rw [hinit, hp, ht]
    exact h.clear_zombie (by simp [hz])

lemma sound_boot : Sound boot.initproc (pending boot) (tree boot) := by
  constructor <;> simp [boot, Proc.zero, pending]

theorem sound_of_reach {s : Sys} (hr : ProcStep.Reach s) :
    Sound s.initproc (pending s) (tree s) :=
  hr.induct (P := fun s => Sound s.initproc (pending s) (tree s))
    (fun _ he => by subst he; exact sound_boot)
    fun _ _ hr h hs => h.step (treeStep_of_step (runs_of_reach hr) (forkOK_of_reach hr) hs)

lemma TreeStep.zombie_left {s s' : Sys} (hs : TreeStep s s') {i : Fin NPROC}
    (hz : (s.proc i).state = .ZOMBIE) (hz' : (s'.proc i).state ≠ .ZOMBIE) :
    ∃ c p copyfail, s.cpus c = some p ∧ (s.proc i).parent = some p ∧
      kwait s c p copyfail = (some (s.proc i).pid, s') ∧ (s'.proc i).state = .UNUSED := by
  have hzi : (tree s' i).zombie ≠ (tree s i).zombie := by simp [hz, hz']
  -- a step that writes only a slot that is not a `ZOMBIE` leaves the zombie
  have other : ∀ j n, (s.proc j).state ≠ .ZOMBIE →
      tree s' = Function.update (tree s) j n → False := by
    intro j n hj ht
    have hij : i ≠ j := fun he => hj (he ▸ hz)
    rw [ht, Function.update_of_ne hij] at hzi
    exact hzi rfl
  cases hs with
  | keep _ _ ht => exact absurd (by rw [ht]) hzi
  | clear hj _ _ ht => exact (other _ _ (by simp [hj]) ht).elim
  | alloc _ hj _ _ ht => exact (other _ _ (by simp [hj]) ht).elim
  | adopt _ hj _ _ _ ht => exact (other _ _ (by simp [hj]) ht).elim
  | start _ hj _ _ ht => exact (other _ _ (by simp [hj]) ht).elim
  | exit _ _ _ _ _ ht =>
    -- exit makes zombies, it frees none
    rw [ht, exitTree_zombie] at hzi
    split_ifs at hzi <;> simp [hz] at hzi
  | @reap c p j copyfail hc hj hpar hk _ _ ht =>
    by_cases hij : i = j
    · subst hij
      refine ⟨c, p, copyfail, hc, hpar, hk, ?_⟩
      simpa using congrArg Node.used (congrFun ht i)
    · rw [ht, Function.update_of_ne hij] at hzi
      exact absurd rfl hzi

/-- `init` in the middle of its first `kfork`: past the first section, before `wait_lock`. -/
def forkPending : Sys := (kforkAlloc ProcStep.initRunning 0 true true).2

lemma reach_forkPending : ProcStep.Reach forkPending :=
  ProcStep.reach_initRunning.step
    (ProcStep.Step.forkAlloc 0 0 true true ProcStep.initRunning_cpu ProcStep.initRunning_forking)

/-- The child of the fork in progress is in use, is not `initproc`, and has no parent yet. -/
example : (forkPending.proc 1).state = .USED ∧ forkPending.initproc ≠ some 1 ∧
    (forkPending.proc 1).parent = none ∧ forkPending.forking 0 = .parent 1 := by
  decide

/-! ## A zombie no one reaps -/

/-- `init` has forked its first child, which runs on CPU 1. -/
def childRunning : Sys := scheduler (kfork ProcStep.initRunning 0 true true).2 1

def childExited : Sys := (kexit childRunning 1 1 0).getD childRunning

def zombieLeft : Sys := sleep childExited 0 0 (.obj 0)

lemma reach_zombieLeft : ProcStep.Reach zombieLeft := by
  have h₁ : ProcStep.Reach (kfork ProcStep.initRunning 0 true true).2 :=
    ProcStep.reach_kfork ProcStep.reach_initRunning ProcStep.initRunning_cpu
      ProcStep.initRunning_forking true true
  have h₂ : ProcStep.Reach childRunning :=
    h₁.step (ProcStep.Step.scheduler 1 (by decide +kernel))
  have h₃ : ProcStep.Reach childExited :=
    h₂.step (ProcStep.Step.exit 1 1 0 (by decide +kernel) (by decide +kernel) rfl)
  exact h₃.step (ProcStep.Step.sleep 0 0 (.obj 0) (by decide +kernel) (by decide +kernel)
    (by decide +kernel))

lemma scheduler_of_no_tickets {s : Sys} (c : Fin NCPU) (h : ¬ticketSum s.proc 0 slots > 0) :
    scheduler s c = s := by
  unfold scheduler schedulerRound
  dsimp only
  rw [if_neg h]

end Xv6.ProcTree
