import Xv6.Param
import Xv6.Lib.CList
import Xv6.Lib.Reach

/-!
The buffer cache of `bio.c`: `bcache.buf[NBUF]`, kept in order of use on a circular list
through `prev` and `next` with `bcache.head` in it, `head.next` the most recent. `bget` looks
for the block from the front of the list and, when no buffer holds it, recycles the last
buffer with no reference; `brelse` moves a buffer whose last reference goes to the front;
`bpin` and `bunpin`, used by the log, add and drop a reference in place.

The callers' discipline is part of the state: `held b` counts the references `bread` has
handed out and `brelse` not yet taken back, `pins b` the `bpin`s not yet undone, and a caller
releases only what it holds. Every step keeps `Inv`: the links are those of one list holding
every buffer once, no two buffers with `dev ≠ 0` cache the same block, and `refcnt` is exactly
`held + pins`, so no decrement starts from zero.

Nothing bounds the number of buffers held at once: with every buffer referenced, `bget` of a
block not cached panics.
-/

namespace Xv6.Bio

open Xv6.Param Xv6.Lib.CList Xv6.Lib.Reach

/-- `struct buf` without its sleep-lock, its `disk` flag and its data. -/
structure Buf where
  valid : Bool
  dev : ℕ
  blockno : ℕ
  refcnt : ℕ
  deriving DecidableEq, Repr

def Buf.zero : Buf := ⟨false, 0, 0, 0⟩

/-- `bcache`: the buffers, and the `next` and `prev` pointers of the head (`none`) and of
each buffer. -/
structure Bcache where
  buf : Fin NBUF → Buf
  next : Option (Fin NBUF) → Option (Fin NBUF)
  prev : Option (Fin NBUF) → Option (Fin NBUF)

def binit : Bcache :=
  let np := (List.finRange NBUF).foldl (fun np b => pushFront np.1 np.2 b)
    (fun _ => none, fun _ => none)
  ⟨fun _ => Buf.zero, np.1, np.2⟩

/-- `bget(dev, blockno)`: the cached buffer of the block with one more reference, else the
least recently used buffer with none, recycled for the block. Each loop follows at most
`NBUF + 1` links; on a well-formed list it is back at the head before that. -/
def bget (c : Bcache) (dev blockno : ℕ) : Except String (Fin NBUF × Bcache) :=
  match walk c.next (fun b => decide ((c.buf b).dev = dev ∧ (c.buf b).blockno = blockno))
      (NBUF + 1) (c.next none) with
  | some b =>
    let e := { c.buf b with refcnt := (c.buf b).refcnt + 1 }
    .ok (b, { c with buf := Function.update c.buf b e })
  | none =>
    match walk c.prev (fun b => decide ((c.buf b).refcnt = 0)) (NBUF + 1) (c.prev none) with
    | some b =>
      let e := { c.buf b with dev := dev, blockno := blockno, valid := false, refcnt := 1 }
      .ok (b, { c with buf := Function.update c.buf b e })
    | none => .error "bget: no buffers"

/-- `bread(dev, blockno)`: `bget`, and a buffer not `valid` is read from the disk. -/
def bread (c : Bcache) (dev blockno : ℕ) : Except String (Fin NBUF × Bcache) :=
  match bget c dev blockno with
  | .error e => .error e
  | .ok (b, c) =>
    if (c.buf b).valid then .ok (b, c)
    else .ok (b, { c with buf := Function.update c.buf b { c.buf b with valid := true } })

/-- `brelse(b)`: one reference goes, and a buffer left with none moves to the front. -/
def brelse (c : Bcache) (b : Fin NBUF) : Bcache :=
  let e := { c.buf b with refcnt := (c.buf b).refcnt - 1 }
  let c := { c with buf := Function.update c.buf b e }
  if (c.buf b).refcnt = 0 then
    let np := unlink c.next c.prev b
    let np := pushFront np.1 np.2 b
    { c with next := np.1, prev := np.2 }
  else c

def bpin (c : Bcache) (b : Fin NBUF) : Bcache :=
  { c with buf := Function.update c.buf b { c.buf b with refcnt := (c.buf b).refcnt + 1 } }

def bunpin (c : Bcache) (b : Fin NBUF) : Bcache :=
  { c with buf := Function.update c.buf b { c.buf b with refcnt := (c.buf b).refcnt - 1 } }

/-- The cache with what its callers hold: the references of `bread` not yet released and the
pins not yet undone, per buffer. -/
structure Cache where
  bc : Bcache
  held : Fin NBUF → ℕ
  pins : Fin NBUF → ℕ

def Cache.boot : Cache := ⟨binit, fun _ => 0, fun _ => 0⟩

/-- What the callers do: `bread`; `brelse` and `bpin` (from `log_write`) of a buffer the
caller holds; `bunpin` (from `install_trans`) of a pinned buffer. -/
inductive Step : Cache → Cache → Prop
  | bread {c : Cache} {dev blockno : ℕ} {b : Fin NBUF} {bc : Bcache} :
      bread c.bc dev blockno = .ok (b, bc) →
      Step c ⟨bc, Function.update c.held b (c.held b + 1), c.pins⟩
  | brelse {c : Cache} {b : Fin NBUF} : 0 < c.held b →
      Step c ⟨brelse c.bc b, Function.update c.held b (c.held b - 1), c.pins⟩
  | bpin {c : Cache} {b : Fin NBUF} : 0 < c.held b →
      Step c ⟨bpin c.bc b, c.held, Function.update c.pins b (c.pins b + 1)⟩
  | bunpin {c : Cache} {b : Fin NBUF} : 0 < c.pins b →
      Step c ⟨bunpin c.bc b, c.held, Function.update c.pins b (c.pins b - 1)⟩

/-! ## One copy of each block -/

/-- No two buffers with `dev ≠ 0` cache the same block. -/
def Unique (buf : Fin NBUF → Buf) : Prop :=
  ∀ i j, (buf i).dev ≠ 0 → (buf i).dev = (buf j).dev → (buf i).blockno = (buf j).blockno →
    i = j

section Unique

variable {buf : Fin NBUF → Buf} {i : Fin NBUF} {e : Buf}

lemma Unique.update (h : Unique buf)
    (he : e.dev ≠ 0 → ∀ j, j ≠ i → ¬((buf j).dev = e.dev ∧ (buf j).blockno = e.blockno)) :
    Unique (Function.update buf i e) := by
  intro j k hj hd hb
  by_cases hji : j = i
  · by_cases hki : k = i
    · rw [hji, hki]
    · subst hji
      simp only [Function.update_self, Function.update_of_ne hki] at hj hd hb
      exact absurd ⟨hd.symm, hb.symm⟩ (he hj k hki)
  · by_cases hki : k = i
    · subst hki
      simp only [Function.update_self, Function.update_of_ne hji] at hj hd hb
      exact absurd ⟨hd, hb⟩ (he (hd ▸ hj) j hji)
    · simp only [Function.update_of_ne hji, Function.update_of_ne hki] at hj hd hb
      exact h j k hj hd hb

lemma Unique.update_same (h : Unique buf) (hd : e.dev = (buf i).dev)
    (hb : e.blockno = (buf i).blockno) : Unique (Function.update buf i e) :=
  h.update fun h0 j hji hj => hji (h j i (hj.1 ▸ h0) (hj.1.trans hd) (hj.2.trans hb))

end Unique

/-! ## `bget` on a well-formed list -/

section Bget

variable {c : Bcache} {l : List (Fin NBUF)} {dev blockno : ℕ}

lemma length_le_of_links (hl : Links c.next c.prev l) : l.length ≤ NBUF + 1 := by
  have h := hl.nodup.length_le_card
  simp only [Fintype.card_fin] at h
  omega

/-- **What `bget` returns** on a well-formed list holding every buffer: a buffer that caches
the block, with one more reference; or, when none does, a buffer with no reference, recycled. -/
lemma bget_ok (hl : Links c.next c.prev l) (hall : ∀ b, b ∈ l) {b : Fin NBUF} {c' : Bcache}
    (h : bget c dev blockno = .ok (b, c')) :
    ((c.buf b).dev = dev ∧ (c.buf b).blockno = blockno ∧
      c' = { c with buf := (Function.update c.buf b
        { c.buf b with refcnt := (c.buf b).refcnt + 1 }) }) ∨
    ((∀ j, ¬((c.buf j).dev = dev ∧ (c.buf j).blockno = blockno)) ∧ (c.buf b).refcnt = 0 ∧
      c' = { c with buf := (Function.update c.buf b
        { c.buf b with dev := dev, blockno := blockno, valid := false, refcnt := 1 }) }) := by
  have hlen := length_le_of_links hl
  unfold bget at h
  rw [hl.walk_eq_find? _ hlen, hl.reverse.walk_eq_find? _ (by simpa using hlen)] at h
  split at h
  · rename_i k hk
    cases h
    have hm : (c.buf b).dev = dev ∧ (c.buf b).blockno = blockno := by
      simpa using List.find?_some hk
    exact .inl ⟨hm.1, hm.2, rfl⟩
  · rename_i hk
    have hno : ∀ j, ¬((c.buf j).dev = dev ∧ (c.buf j).blockno = blockno) := fun j hj => by
      simpa [hj] using List.find?_eq_none.mp hk j (hall j)
    split at h
    · rename_i k hk'
      cases h
      exact .inr ⟨hno, by simpa using List.find?_some hk', rfl⟩
    · cases h

lemma bget_of_cached (hl : Links c.next c.prev l) (hall : ∀ b, b ∈ l) (hu : Unique c.buf)
    {b : Fin NBUF} (hd : (c.buf b).dev = dev) (h0 : dev ≠ 0) (hn : (c.buf b).blockno = blockno) :
    bget c dev blockno = .ok (b, { c with buf := (Function.update c.buf b
      { c.buf b with refcnt := (c.buf b).refcnt + 1 }) }) := by
  obtain ⟨k, hk⟩ : ∃ k, l.find? (fun b => decide ((c.buf b).dev = dev ∧
      (c.buf b).blockno = blockno)) = some k := by
    rw [← Option.isSome_iff_exists, List.find?_isSome]
    exact ⟨b, hall b, by simp [hd, hn]⟩
  have hkm : (c.buf k).dev = dev ∧ (c.buf k).blockno = blockno := by
    simpa using List.find?_some hk
  have hkb : k = b := hu k b (hkm.1 ▸ h0) (hkm.1.trans hd.symm) (hkm.2.trans hn.symm)
  subst hkb
  unfold bget
  rw [hl.walk_eq_find? _ (length_le_of_links hl), hk]

end Bget

/-! ## The invariant -/

/-- The buffer cache is sound: one list through every buffer, one buffer per cached block,
and reference counts that are exactly what the callers hold. -/
structure Inv (c : Cache) : Prop where
  links : ∃ l, Links c.bc.next c.bc.prev l ∧ ∀ b, b ∈ l
  unique : Unique c.bc.buf
  refcnt : ∀ b, (c.bc.buf b).refcnt = c.held b + c.pins b

section Inv

variable {c : Cache}

lemma counts_update {buf : Fin NBUF → Buf} {held pins : Fin NBUF → ℕ}
    (h : ∀ x, (buf x).refcnt = held x + pins x) {b : Fin NBUF} {e : Buf} {h' p' : ℕ}
    (he : e.refcnt = h' + p') (x : Fin NBUF) :
    (Function.update buf b e x).refcnt =
      Function.update held b h' x + Function.update pins b p' x := by
  by_cases hx : x = b
  · subst hx
    simpa using he
  · simpa [Function.update_of_ne hx] using h x

lemma inv_boot : Inv Cache.boot := by
  refine ⟨⟨(List.finRange NBUF).reverse ++ [], ?_, fun b => by simp⟩, ?_, fun b => rfl⟩
  · exact links_nil.pushFront_foldl (by simpa using List.nodup_finRange NBUF)
  · intro i j hi
    exact absurd rfl hi

lemma Inv.bread (hi : Inv c) {dev blockno : ℕ} {b : Fin NBUF} {bc : Bcache}
    (h : Bio.bread c.bc dev blockno = .ok (b, bc)) :
    Inv ⟨bc, Function.update c.held b (c.held b + 1), c.pins⟩ := by
  obtain ⟨l, hl, hall⟩ := hi.links
  unfold Bio.bread at h
  split at h
  · cases h
  · rename_i b₁ c₁ hg
    -- `bget` first, then possibly the `valid` flag
    have hg' : Inv ⟨c₁, Function.update c.held b₁ (c.held b₁ + 1), c.pins⟩ := by
      rcases bget_ok hl hall hg with ⟨-, -, rfl⟩ | ⟨hno, h0, rfl⟩
      · refine ⟨⟨l, hl, hall⟩, hi.unique.update_same rfl rfl, fun x => ?_⟩
        rw [← Function.update_eq_self b₁ c.pins]
        refine counts_update hi.refcnt ?_ x
        show (c.bc.buf b₁).refcnt + 1 = _
        rw [hi.refcnt b₁]
        omega
      · refine ⟨⟨l, hl, hall⟩, hi.unique.update fun _ j _ => hno j, fun x => ?_⟩
        rw [← Function.update_eq_self b₁ c.pins]
        refine counts_update hi.refcnt ?_ x
        have := hi.refcnt b₁
        show 1 = _
        omega
    split_ifs at h
    · cases h
      exact hg'
    · cases h
      refine ⟨hg'.links, hg'.unique.update_same rfl rfl, fun x => ?_⟩
      rw [← Function.update_eq_self b c.pins, ← Function.update_eq_self b
        (Function.update c.held b (c.held b + 1))]
      refine counts_update hg'.refcnt ?_ x
      simpa using hg'.refcnt b

lemma Inv.brelse (hi : Inv c) {b : Fin NBUF} (hb : 0 < c.held b) :
    Inv ⟨Bio.brelse c.bc b, Function.update c.held b (c.held b - 1), c.pins⟩ := by
  obtain ⟨l, hl, hall⟩ := hi.links
  have hr := hi.refcnt b
  have hcount : ∀ x, (Function.update c.bc.buf b
      { c.bc.buf b with refcnt := (c.bc.buf b).refcnt - 1 } x).refcnt =
      Function.update c.held b (c.held b - 1) x + c.pins x := by
    intro x
    rw [← Function.update_eq_self b c.pins]
    exact counts_update hi.refcnt (by simp only; omega) x
  have hu := hi.unique.update_same (i := b)
    (e := { c.bc.buf b with refcnt := (c.bc.buf b).refcnt - 1 }) rfl rfl
  simp only [Bio.brelse, Function.update_self]
  split_ifs with h0
  · -- the last reference went: the buffer moves to the front of the list
    refine ⟨⟨b :: l.erase b, hl.moveFront (hall b), fun x => ?_⟩, hu, hcount⟩
    by_cases hx : x = b
    · exact hx ▸ List.mem_cons_self
    · exact List.mem_cons_of_mem _ ((List.mem_erase_of_ne hx).mpr (hall x))
  · exact ⟨⟨l, hl, hall⟩, hu, hcount⟩

lemma Inv.bpin (hi : Inv c) (b : Fin NBUF) :
    Inv ⟨Bio.bpin c.bc b, c.held, Function.update c.pins b (c.pins b + 1)⟩ := by
  refine ⟨hi.links, hi.unique.update_same rfl rfl, fun x => ?_⟩
  rw [← Function.update_eq_self b c.held]
  refine counts_update hi.refcnt ?_ x
  simp only
  rw [hi.refcnt b]
  omega

lemma Inv.bunpin (hi : Inv c) {b : Fin NBUF} (hb : 0 < c.pins b) :
    Inv ⟨Bio.bunpin c.bc b, c.held, Function.update c.pins b (c.pins b - 1)⟩ := by
  refine ⟨hi.links, hi.unique.update_same rfl rfl, fun x => ?_⟩
  rw [← Function.update_eq_self b c.held]
  refine counts_update hi.refcnt ?_ x
  simp only
  rw [hi.refcnt b]
  omega

lemma Inv.step {c' : Cache} (hi : Inv c) (hs : Step c c') : Inv c' := by
  cases hs with
  | bread h => exact hi.bread h
  | brelse hb => exact hi.brelse hb
  | bpin _ => exact hi.bpin _
  | bunpin hb => exact hi.bunpin hb

lemma inv_of_reach (hr : Reachable (· = Cache.boot) Step c) : Inv c :=
  hr.induct (P := Inv) (fun s (h : s = Cache.boot) => h ▸ inv_boot) fun _ _ _ hi hs => hi.step hs

end Inv

/-- **The buffer cache never holds two copies of a block.** In every state its callers can
reach, the `prev`/`next` links are those of one circular list through the head and each
buffer once, no two buffers of a device other than `0` cache the same block, `bread` of a
cached block returns its buffer, and each `refcnt` is exactly the references held and the pins
not undone, so `brelse` and `bunpin`, made by holders, never take it below zero. -/
theorem bcache_one_copy {c : Cache} (hr : Reachable (· = Cache.boot) Step c) :
    (∃ l : List (Fin NBUF), l.Nodup ∧ (∀ b, b ∈ l) ∧ (∀ x, c.bc.next x = succ l x) ∧
      ∀ x, c.bc.prev x = succ l.reverse x) ∧
    (∀ i j, i ≠ j → (c.bc.buf i).dev ≠ 0 → (c.bc.buf i).dev = (c.bc.buf j).dev →
      (c.bc.buf i).blockno ≠ (c.bc.buf j).blockno) ∧
    (∀ b dev blockno, (c.bc.buf b).dev = dev → dev ≠ 0 → (c.bc.buf b).blockno = blockno →
      ∃ bc, bread c.bc dev blockno = .ok (b, bc)) ∧
    ∀ b, (c.bc.buf b).refcnt = c.held b + c.pins b := by
  have hi := inv_of_reach hr
  obtain ⟨l, hl, hall⟩ := hi.links
  refine ⟨⟨l, hl.nodup, hall, fun x => hl.next_eq x (onList_of_forall_mem hall x),
    fun x => hl.prev_eq x (onList_of_forall_mem hall x)⟩,
    fun i j hij hi0 hd hn => hij (hi.unique i j hi0 hd hn), fun b dev blockno hd h0 hn => ?_,
    hi.refcnt⟩
  simp only [bread, bget_of_cached hl hall hi.unique hd h0 hn]
  split_ifs <;> exact ⟨_, rfl⟩

theorem bcache_one_copy_boot :
    (∃ l : List (Fin NBUF), l.Nodup ∧ (∀ b, b ∈ l) ∧ (∀ x, Cache.boot.bc.next x = succ l x) ∧
      ∀ x, Cache.boot.bc.prev x = succ l.reverse x) ∧
    (∀ i j, i ≠ j → (Cache.boot.bc.buf i).dev ≠ 0 →
      (Cache.boot.bc.buf i).dev = (Cache.boot.bc.buf j).dev →
      (Cache.boot.bc.buf i).blockno ≠ (Cache.boot.bc.buf j).blockno) ∧
    (∀ b dev blockno, (Cache.boot.bc.buf b).dev = dev → dev ≠ 0 →
      (Cache.boot.bc.buf b).blockno = blockno →
      ∃ bc, bread Cache.boot.bc dev blockno = .ok (b, bc)) ∧
    ∀ b, (Cache.boot.bc.buf b).refcnt = Cache.boot.held b + Cache.boot.pins b :=
  bcache_one_copy (Reachable.init rfl)

/-! ## Running dry -/

/-- A call on the cache. -/
inductive Op
  | bread (dev blockno : ℕ)
  | brelse (b : Fin NBUF)
  | bpin (b : Fin NBUF)
  | bunpin (b : Fin NBUF)

/-- A call run on the cache: `none` when its caller does not hold what it releases, or when
`bget` panics. -/
def exec (c : Cache) : Op → Option Cache
  | .bread dev blockno =>
    match Bio.bread c.bc dev blockno with
    | .ok (b, bc) => some ⟨bc, Function.update c.held b (c.held b + 1), c.pins⟩
    | .error _ => none
  | .brelse b =>
    if 0 < c.held b then
      some ⟨Bio.brelse c.bc b, Function.update c.held b (c.held b - 1), c.pins⟩
    else none
  | .bpin b =>
    if 0 < c.held b then some ⟨Bio.bpin c.bc b, c.held, Function.update c.pins b (c.pins b + 1)⟩
    else none
  | .bunpin b =>
    if 0 < c.pins b then
      some ⟨Bio.bunpin c.bc b, c.held, Function.update c.pins b (c.pins b - 1)⟩
    else none

lemma exec_step {c c' : Cache} {o : Op} (h : exec c o = some c') : Step c c' := by
  cases o with
  | bread dev blockno =>
    simp only [exec] at h
    split at h
    · rename_i b bc hb
      cases h
      exact .bread hb
    · cases h
  | brelse b =>
    simp only [exec] at h
    split_ifs at h with hb
    cases h
    exact .brelse hb
  | bpin b =>
    simp only [exec] at h
    split_ifs at h with hb
    cases h
    exact .bpin hb
  | bunpin b =>
    simp only [exec] at h
    split_ifs at h with hb
    cases h
    exact .bunpin hb

def holdAll : List Op := (List.range NBUF).map fun k => .bread ROOTDEV k

/-- What a thirty-first reader sees: every buffer referenced, and `bget` of one more block
panicking. -/
def runsDry : Option Cache → Bool
  | some c => (List.finRange NBUF).all (fun b => decide (0 < (c.bc.buf b).refcnt)) &&
      match bget c.bc ROOTDEV NBUF with
      | .error e => e == "bget: no buffers"
      | .ok _ => false
  | none => false

lemma runsDry_holdAll : runsDry (runAll exec Cache.boot holdAll) = true := by
  decide +kernel

/-- **The buffer cache runs dry.** Thirty readers of distinct blocks reach a state where
every buffer is referenced; `bget` of a thirty-first block then reaches
`panic("bget: no buffers")`. -/
theorem bget_runs_dry :
    ∃ c, Reachable (· = Cache.boot) Step c ∧ (∀ b, 0 < (c.bc.buf b).refcnt) ∧
      bget c.bc ROOTDEV NBUF = .error "bget: no buffers" := by
  have hp := runsDry_holdAll
  cases hr : runAll exec Cache.boot holdAll with
  | none => rw [hr] at hp; cases hp
  | some c =>
    rw [hr] at hp
    simp only [runsDry, Bool.and_eq_true, List.all_eq_true, List.mem_finRange,
      decide_eq_true_eq, forall_const] at hp
    obtain ⟨hfull, hget⟩ := hp
    have h0 : Reachable (· = Cache.boot) Step Cache.boot := Reachable.init rfl
    have hreach : Reachable (· = Cache.boot) Step c :=
      h0.steps (runAll_steps (fun s o s' (h : exec s o = some s') => (exec_step h : Step s s')) hr)
    refine ⟨c, hreach, hfull, ?_⟩
    split at hget
    · rename_i e he
      rw [he, beq_iff_eq.mp hget]
    · cases hget

end Xv6.Bio
