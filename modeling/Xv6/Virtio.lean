import Xv6.Lib.RingQueue
import Xv6.Lib.Reach

/-!
The descriptors of the virtio disk driver (`virtio_disk.c`).

`NUM` descriptors are either free (`disk.free`) or part of a chain of three that one
`virtio_disk_rw` call formatted and posted: its head goes into the avail ring, the device
returns it in the used ring, `virtio_disk_intr` clears the buffer's `disk` flag, and the waiting
call frees the chain with `free_chain`. Every critical section under `vdisk_lock` is one step;
`sleep` gives the lock up, and a woken call re-runs its round from the same place. The device
is not modelled from source: it reads the avail ring in order and returns each head it read
exactly once, in any order, having written `0` into the chain's status byte.
-/

namespace Xv6.Virtio

open Xv6.Lib.RingQueue Xv6.Lib.Reach

/-- `NUM` (`virtio.h`): the descriptors, and the entries of each ring. -/
def NUM : ℕ := 8

def VRING_DESC_F_NEXT : ℕ := 1

def VRING_DESC_F_WRITE : ℕ := 2

/-- The fields of `struct virtq_desc` the driver reads back: `flags` and `next`. -/
structure Desc where
  flags : ℕ
  next : ℕ
  deriving DecidableEq, Repr

/-- `struct virtq_avail` and `struct virtq_used`: the `uint16` index of the next entry, and
the entries (chain heads; for the used ring, their `id`). -/
structure Ring where
  idx : ℕ
  ring : List ℕ

/-- An entry of `disk.info`: the buffer of the chain whose head it is indexed by, and the
status byte the device writes. -/
structure Info (β : Type) where
  b : Option β
  status : ℕ

/-- `struct disk`, with the two rings it points to and the `disk` flag of each buffer. -/
structure Disk (β : Type) where
  desc : ℕ → Desc
  free : ℕ → Bool
  avail : Ring
  used : Ring
  used_idx : ℕ
  info : ℕ → Info β
  bdisk : β → Bool

variable {β : Type}

section Code

def alloc_desc (d : Disk β) : Option ℕ × Disk β :=
  match (List.range NUM).find? fun i => d.free i with
  | some i => (some i, { d with free := Function.update d.free i false })
  | none => (none, d)

/-- `free_desc(i)`: the descriptor cleared and marked free. `wakeup(&disk.free[0])` leaves
no trace here: a call asleep in `alloc3_desc`'s loop may retry at any time. -/
def free_desc (i : ℕ) (d : Disk β) : Except String (Disk β) :=
  if NUM ≤ i then .error "free_desc 1"
  else if d.free i then .error "free_desc 2"
  else .ok { d with desc := Function.update d.desc i ⟨0, 0⟩, free := Function.update d.free i true }

/-- The loop of `free_chain` at descriptor `i`, with `fuel` rounds left; none once the fuel
is spent. Each round frees a descriptor that was not free or panics, so `NUM + 1` rounds are
enough for any table. -/
def freeChainLoop : ℕ → ℕ → Disk β → Option (Except String (Disk β))
  | 0, _, _ => none
  | fuel + 1, i, d =>
    let flag := (d.desc i).flags
    let nxt := (d.desc i).next
    match free_desc i d with
    | .error e => some (.error e)
    | .ok d => if flag &&& VRING_DESC_F_NEXT ≠ 0 then freeChainLoop fuel nxt d else some (.ok d)

def free_chain (i : ℕ) (d : Disk β) : Option (Except String (Disk β)) :=
  freeChainLoop (NUM + 1) i d

def alloc3Loop : ℕ → List ℕ → Disk β → Except String (Option (List ℕ) × Disk β)
  | 0, idx, d => .ok (some idx, d)
  | k + 1, idx, d =>
    match alloc_desc d with
    | (some i, d) => alloc3Loop k (idx ++ [i]) d
    | (none, d) =>
      match idx.foldlM (fun d j => free_desc j d) d with
      | .error e => .error e
      | .ok d => .ok (none, d)

def alloc3_desc (d : Disk β) : Except String (Option (List ℕ) × Disk β) :=
  alloc3Loop 3 [] d

variable [DecidableEq β]

/-- `virtio_disk_rw` once it holds three descriptors: they are formatted as a chain (request
header, data, status), the status byte set to `0xff`, the buffer recorded, `b->disk` set, and
the head put into the avail ring. -/
def post (b : β) (write : Bool) (i0 i1 i2 : ℕ) (d : Disk β) : Disk β :=
  { d with
    desc := Function.update (Function.update (Function.update d.desc
      i0 ⟨VRING_DESC_F_NEXT, i1⟩)
      i1 ⟨(if write then 0 else VRING_DESC_F_WRITE) ||| VRING_DESC_F_NEXT, i2⟩)
      i2 ⟨VRING_DESC_F_WRITE, 0⟩
    info := Function.update d.info i0 ⟨some b, 0xff⟩
    bdisk := Function.update d.bdisk b true
    avail := ⟨(d.avail.idx + 1) % 2 ^ 16, d.avail.ring.set (d.avail.idx % NUM) i0⟩ }

/-- A round of `virtio_disk_rw`'s allocation loop: `idx`, once the chain is posted, or none
when `alloc3_desc` failed and the call sleeps on `&disk.free[0]`. -/
def rwAlloc (b : β) (write : Bool) (d : Disk β) : Except String (Option (List ℕ) × Disk β) :=
  match alloc3_desc d with
  | .error e => .error e
  | .ok (some [i0, i1, i2], d) => .ok (some [i0, i1, i2], post b write i0 i1 i2 d)
  | .ok (_, d) => .ok (none, d)

def rwFinish (i0 : ℕ) (d : Disk β) : Option (Except String (Disk β)) :=
  free_chain i0 { d with info := Function.update d.info i0 { d.info i0 with b := none } }

/-- The loop of `virtio_disk_intr` with `fuel` rounds left; none once the fuel is spent. A
null `b` is dereferenced, which traps. -/
def intrLoop : ℕ → Disk β → Option (Except String (Disk β))
  | 0, d => if d.used_idx = d.used.idx then some (.ok d) else none
  | fuel + 1, d =>
    if d.used_idx = d.used.idx then some (.ok d)
    else
      let id := d.used.ring.getD (d.used_idx % NUM) 0
      if (d.info id).status ≠ 0 then some (.error "virtio_disk_intr status")
      else
        match (d.info id).b with
        | none => some (.error "kerneltrap")
        | some b =>
          intrLoop fuel { d with bdisk := Function.update d.bdisk b false,
                                 used_idx := (d.used_idx + 1) % 2 ^ 16 }

/-- `virtio_disk_intr()`: `used_idx` is a `uint16`, so `2^16` rounds are enough. -/
def virtio_disk_intr (d : Disk β) : Option (Except String (Disk β)) :=
  intrLoop (2 ^ 16) d

/-- `virtio_disk_init()` on the driver's side: every descriptor free, the rings empty and
their indices `0`, as `kalloc` and `memset` left the pages and the static `disk` starts. -/
def virtio_disk_init (bdisk : β → Bool) : Disk β where
  desc _ := ⟨0, 0⟩
  free i := decide (i < NUM)
  avail := ⟨0, List.replicate NUM 0⟩
  used := ⟨0, List.replicate NUM 0⟩
  used_idx := 0
  info _ := ⟨none, 0⟩
  bdisk := bdisk

end Code

/-! ## Taking and giving back descriptors -/

section Alloc

def Disk.marked (d : Disk β) (idx : List ℕ) : Disk β :=
  { d with free := fun i => d.free i && !decide (i ∈ idx) }

def Disk.release (d : Disk β) (idx : List ℕ) : Disk β :=
  { d with desc := fun i => if i ∈ idx then ⟨0, 0⟩ else d.desc i
           free := fun i => d.free i || decide (i ∈ idx) }

/-- Free descriptors are cleared, as `free_desc` leaves them. -/
def FreeZero (d : Disk β) : Prop := ∀ i < NUM, d.free i = true → d.desc i = ⟨0, 0⟩

variable {d d' d₀ : Disk β} {i : ℕ}

@[simp] lemma marked_nil (d : Disk β) : d.marked [] = d := by
  simp [Disk.marked]

lemma alloc_desc_some (h : alloc_desc d = (some i, d')) :
    i < NUM ∧ d.free i = true ∧ d' = { d with free := Function.update d.free i false } := by
  unfold alloc_desc at h
  split at h
  · rename_i j hj
    simp only [Prod.mk.injEq, Option.some.injEq] at h
    obtain ⟨rfl, rfl⟩ := h
    exact ⟨List.mem_range.1 (List.mem_of_find?_eq_some hj), List.find?_some hj, rfl⟩
  · cases h

lemma alloc_desc_none (h : alloc_desc d = (none, d')) : d' = d ∧ ∀ i < NUM, d.free i = false := by
  unfold alloc_desc at h
  split at h
  · cases h
  · rename_i hn
    refine ⟨(Prod.mk.inj h).2.symm, fun i hi => ?_⟩
    simpa using List.find?_eq_none.1 hn i (List.mem_range.2 hi)

lemma alloc_desc_marked {idx : List ℕ} (h : alloc_desc (d₀.marked idx) = (some i, d')) :
    i < NUM ∧ d₀.free i = true ∧ i ∉ idx ∧ d' = d₀.marked (idx ++ [i]) := by
  obtain ⟨hi, hf, rfl⟩ := alloc_desc_some h
  simp only [Disk.marked, Bool.and_eq_true, Bool.not_eq_eq_eq_not, Bool.not_true,
    decide_eq_false_iff_not] at hf
  refine ⟨hi, hf.1, hf.2, ?_⟩
  simp only [Disk.marked, Disk.mk.injEq, and_true, true_and]
  funext j
  by_cases hj : j = i
  · subst hj
    simp
  · simp [hj]

lemma free_desc_marked {j : ℕ} {rest : List ℕ} (hj : j < NUM) (hf : d₀.free j = true)
    (hn : j ∉ rest) (hz : d₀.desc j = ⟨0, 0⟩) :
    free_desc j (d₀.marked (j :: rest)) = .ok (d₀.marked rest) := by
  unfold free_desc
  rw [if_neg (not_le.2 hj), if_neg (by simp [Disk.marked])]
  simp only [Disk.marked, Except.ok.injEq, Disk.mk.injEq, and_true]
  refine ⟨Function.update_eq_self_iff.2 hz.symm, ?_⟩
  funext k
  by_cases hk : k = j
  · subst hk
    simp [hf, hn]
  · simp [hk]

/-- **`alloc3_desc`'s rollback gives back exactly what it took**: freeing the descriptors
taken, in order, restores the table. -/
lemma foldlM_free_marked (hz : FreeZero d₀) :
    ∀ idx : List ℕ, idx.Nodup → (∀ i ∈ idx, i < NUM ∧ d₀.free i = true) →
      idx.foldlM (fun d j => free_desc j d) (d₀.marked idx) = .ok d₀ := by
  intro idx
  induction idx with
  | nil =>
    intro _ _
    rw [marked_nil]
    rfl
  | cons j rest ih =>
    intro hnd hfree
    obtain ⟨hj, hf⟩ := hfree j List.mem_cons_self
    rw [List.foldlM_cons, free_desc_marked hj hf (List.nodup_cons.1 hnd).1 (hz j hj hf)]
    exact ih (List.nodup_cons.1 hnd).2 fun i hi => hfree i (List.mem_cons_of_mem _ hi)

theorem alloc3Loop_spec (hz : FreeZero d₀) (k : ℕ) :
    ∀ idx : List ℕ, idx.Nodup → (∀ i ∈ idx, i < NUM ∧ d₀.free i = true) →
      alloc3Loop k idx (d₀.marked idx) = .ok (none, d₀) ∨
        ∃ idx', alloc3Loop k idx (d₀.marked idx) = .ok (some (idx ++ idx'), d₀.marked (idx ++ idx')) ∧
          idx'.length = k ∧ (idx ++ idx').Nodup ∧ ∀ i ∈ idx', i < NUM ∧ d₀.free i = true := by
  -- induction on the descriptors left to take
  induction k with
  | zero =>
    intro idx hnd _
    exact .inr ⟨[], by rw [List.append_nil]; rfl, rfl, by rwa [List.append_nil], by simp⟩
  | succ k ih =>
    intro idx hnd hfree
    rw [alloc3Loop]
    rcases ha : alloc_desc (d₀.marked idx) with ⟨_ | i, d'⟩
    · -- none left: the rollback
      obtain ⟨rfl, -⟩ := alloc_desc_none ha
      dsimp only
      rw [foldlM_free_marked hz idx hnd hfree]
      exact .inl rfl
    · obtain ⟨hi, hf, hn, rfl⟩ := alloc_desc_marked ha
      dsimp only
      have hnd' : (idx ++ [i]).Nodup := List.nodup_append.2 ⟨hnd, List.nodup_singleton i,
        fun a ha b hb he => by rw [List.mem_singleton.1 hb] at he; exact hn (he ▸ ha)⟩
      have hfree' : ∀ j ∈ idx ++ [i], j < NUM ∧ d₀.free j = true := fun j hj => by
        rcases List.mem_append.1 hj with hj | hj
        · exact hfree j hj
        · rw [List.mem_singleton.1 hj]
          exact ⟨hi, hf⟩
      rcases ih (idx ++ [i]) hnd' hfree' with h | ⟨idx', h, hlen, hnd'', hfree''⟩
      · exact .inl h
      · refine .inr ⟨i :: idx', by rw [h, List.append_assoc, List.singleton_append],
          by rw [List.length_cons, hlen], by rwa [List.append_assoc, List.singleton_append] at hnd'',
          fun j hj => ?_⟩
        rcases List.mem_cons.1 hj with rfl | hj
        · exact ⟨hi, hf⟩
        · exact hfree'' j hj

/-- **`alloc3_desc` takes three free descriptors, or gives back exactly those it took.** -/
theorem alloc3_desc_cases (hz : FreeZero d₀) :
    alloc3_desc d₀ = .ok (none, d₀) ∨
      ∃ i0 i1 i2, [i0, i1, i2].Nodup ∧ (∀ i ∈ [i0, i1, i2], i < NUM ∧ d₀.free i = true) ∧
        alloc3_desc d₀ = .ok (some [i0, i1, i2], d₀.marked [i0, i1, i2]) := by
  have hs := alloc3Loop_spec hz 3 [] List.nodup_nil (by simp)
  rw [marked_nil] at hs
  rcases hs with h | ⟨idx, h, hlen, hnd, hfree⟩
  · exact .inl h
  · rw [List.nil_append] at h hnd
    match idx, hlen with
    | [i0, i1, i2], _ => exact .inr ⟨i0, i1, i2, hnd, hfree, h⟩

end Alloc

/-! ## The chains -/

section Chain

variable {d d' : Disk β} {i : ℕ}

/-- The descriptors `idx` form the chain `virtio_disk_rw` formats for a transfer with
`write`: request header, data and status, linked by `VRING_DESC_F_NEXT`. -/
def Chain (d : Disk β) (write : Bool) : List ℕ → Prop
  | [i0, i1, i2] => d.desc i0 = ⟨VRING_DESC_F_NEXT, i1⟩ ∧
      d.desc i1 = ⟨(if write then 0 else VRING_DESC_F_WRITE) ||| VRING_DESC_F_NEXT, i2⟩ ∧
      d.desc i2 = ⟨VRING_DESC_F_WRITE, 0⟩
  | _ => False

lemma Chain.congr {write : Bool} {idx : List ℕ} (h : Chain d write idx)
    (he : ∀ i ∈ idx, d'.desc i = d.desc i) : Chain d' write idx := by
  match idx, h with
  | [i0, i1, i2], ⟨h0, h1, h2⟩ =>
    exact ⟨by rw [he i0 (by simp), h0], by rw [he i1 (by simp), h1], by rw [he i2 (by simp), h2]⟩

lemma Chain.three {write : Bool} {idx : List ℕ} (h : Chain d write idx) :
    ∃ i0 i1 i2, idx = [i0, i1, i2] := by
  match idx, h with
  | [i0, i1, i2], _ => exact ⟨i0, i1, i2, rfl⟩

lemma release_append (d : Disk β) (l l' : List ℕ) :
    (d.release l).release l' = d.release (l ++ l') := by
  simp only [Disk.release, Disk.mk.injEq, and_true, List.mem_append]
  constructor
  · funext j
    by_cases hl : j ∈ l <;> by_cases hl' : j ∈ l' <;> simp [hl, hl']
  · funext j
    by_cases hl : j ∈ l <;> by_cases hl' : j ∈ l' <;> simp [hl, hl']

lemma free_desc_ok (hi : i < NUM) (hf : d.free i = false) : free_desc i d = .ok (d.release [i]) := by
  unfold free_desc
  rw [if_neg (not_le.2 hi), if_neg (by simp [hf])]
  simp only [Disk.release, Except.ok.injEq, Disk.mk.injEq, and_true, List.mem_singleton]
  constructor
  · funext j
    by_cases hj : j = i
    · subst hj
      simp
    · simp [hj]
  · funext j
    by_cases hj : j = i
    · subst hj
      simp
    · simp [hj]

lemma freeChainLoop_next {fuel : ℕ} (hf : free_desc i d = .ok d')
    (hn : (d.desc i).flags &&& VRING_DESC_F_NEXT ≠ 0) :
    freeChainLoop (fuel + 1) i d = freeChainLoop fuel (d.desc i).next d' := by
  rw [freeChainLoop, hf]
  exact if_pos hn

lemma freeChainLoop_last {fuel : ℕ} (hf : free_desc i d = .ok d')
    (hn : (d.desc i).flags &&& VRING_DESC_F_NEXT = 0) :
    freeChainLoop (fuel + 1) i d = some (.ok d') := by
  rw [freeChainLoop, hf]
  exact if_neg (not_not.2 hn)

/-- **`free_chain` frees exactly the chain's three descriptors**, with no panic, when they
are not free. -/
theorem free_chain_chain {write : Bool} {i0 i1 i2 : ℕ} (hc : Chain d write [i0, i1, i2])
    (hnd : [i0, i1, i2].Nodup) (hlt : ∀ i ∈ [i0, i1, i2], i < NUM)
    (hnf : ∀ i ∈ [i0, i1, i2], d.free i = false) :
    free_chain i0 d = some (.ok (d.release [i0, i1, i2])) := by
  obtain ⟨h0, h1, h2⟩ := hc
  simp only [List.nodup_cons, List.mem_cons, List.not_mem_nil, or_false, not_or] at hnd
  obtain ⟨⟨h01, h02⟩, h12, -⟩ := hnd
  -- the header, the data and the status descriptor, which ends the chain
  have hf0 := free_desc_ok (hlt i0 (by simp)) (hnf i0 (by simp))
  have hf1 : free_desc i1 (d.release [i0]) = .ok (d.release [i0, i1]) := by
    rw [free_desc_ok (hlt i1 (by simp)) (by simp [Disk.release, hnf i1, Ne.symm h01]),
      release_append]
    rfl
  have hf2 : free_desc i2 (d.release [i0, i1]) = .ok (d.release [i0, i1, i2]) := by
    rw [free_desc_ok (hlt i2 (by simp)) (by simp [Disk.release, hnf i2, Ne.symm h02, Ne.symm h12]),
      release_append]
    rfl
  have hd1 : (d.release [i0]).desc i1 = d.desc i1 := by simp [Disk.release, Ne.symm h01]
  have hd2 : (d.release [i0, i1]).desc i2 = d.desc i2 := by
    simp [Disk.release, Ne.symm h02, Ne.symm h12]
  have hn0 : (d.desc i0).flags &&& VRING_DESC_F_NEXT ≠ 0 := by
    rw [h0]
    show VRING_DESC_F_NEXT &&& VRING_DESC_F_NEXT ≠ 0
    decide
  have hn1 : ((d.release [i0]).desc i1).flags &&& VRING_DESC_F_NEXT ≠ 0 := by
    rw [hd1, h1]
    show ((if write then 0 else VRING_DESC_F_WRITE) ||| VRING_DESC_F_NEXT) &&& VRING_DESC_F_NEXT ≠ 0
    cases write <;> decide
  have hn2 : ((d.release [i0, i1]).desc i2).flags &&& VRING_DESC_F_NEXT = 0 := by
    rw [hd2, h2]
    show VRING_DESC_F_WRITE &&& VRING_DESC_F_NEXT = 0
    decide
  show freeChainLoop (6 + 1 + 1 + 1) i0 d = _
  rw [freeChainLoop_next hf0 hn0, h0, freeChainLoop_next hf1 hn1, hd1, h1,
    freeChainLoop_last hf2 hn2]

lemma rwFinish_chain {write : Bool} {i0 i1 i2 : ℕ} (hc : Chain d write [i0, i1, i2]) (hnd : [i0, i1, i2].Nodup)
    (hlt : ∀ i ∈ [i0, i1, i2], i < NUM) (hnf : ∀ i ∈ [i0, i1, i2], d.free i = false) :
    rwFinish i0 d = some (.ok (Disk.release
      { d with info := Function.update d.info i0 { d.info i0 with b := none } } [i0, i1, i2])) :=
  free_chain_chain hc hnd hlt hnf

end Chain

section Post

variable [DecidableEq β] {d₀ : Disk β}

/-- **A round of the allocation loop** either posts a chain of three descriptors that were
free, or leaves the table exactly as it was. -/
theorem rwAlloc_cases (hz : FreeZero d₀) (b : β) (write : Bool) :
    rwAlloc b write d₀ = .ok (none, d₀) ∨
      ∃ i0 i1 i2, [i0, i1, i2].Nodup ∧ (∀ i ∈ [i0, i1, i2], i < NUM ∧ d₀.free i = true) ∧
        rwAlloc b write d₀ =
          .ok (some [i0, i1, i2], post b write i0 i1 i2 (d₀.marked [i0, i1, i2])) := by
  unfold rwAlloc
  rcases alloc3_desc_cases hz with h | ⟨i0, i1, i2, hnd, hfree, h⟩
  · rw [h]
    exact .inl rfl
  · rw [h]
    exact .inr ⟨i0, i1, i2, hnd, hfree, rfl⟩

variable {d : Disk β} {b : β} {write : Bool} {i0 i1 i2 : ℕ}

lemma post_desc_of_not_mem {j : ℕ} (hj : j ∉ [i0, i1, i2]) :
    (post b write i0 i1 i2 d).desc j = d.desc j := by
  simp only [List.mem_cons, List.not_mem_nil, or_false, not_or] at hj
  simp [post, Function.update_of_ne hj.1, Function.update_of_ne hj.2.1,
    Function.update_of_ne hj.2.2]

/-- **`virtio_disk_rw` formats its three descriptors as a chain.** -/
lemma post_chain (hnd : [i0, i1, i2].Nodup) : Chain (post b write i0 i1 i2 d) write [i0, i1, i2] := by
  simp only [List.nodup_cons, List.mem_cons, List.not_mem_nil, or_false, not_or] at hnd
  obtain ⟨⟨h01, h02⟩, h12, -⟩ := hnd
  refine ⟨?_, ?_, ?_⟩
  · simp [post, Function.update_of_ne h01, Function.update_of_ne h02]
  · simp [post, Function.update_of_ne h12]
  · simp [post]

end Post

/-! ## The rings -/

section Rings

def ahead (x y : ℕ) : ℕ := (x + 2 ^ 16 - y) % 2 ^ 16

/-- The heads in the avail ring that the device, at `seen`, has still to read. -/
def availQ (d : Disk β) (seen : ℕ) : List ℕ :=
  items NUM d.avail.ring (seen % NUM) (ahead d.avail.idx seen)

/-- The heads in the used ring that `virtio_disk_intr` has still to take. -/
def usedQ (d : Disk β) : List ℕ :=
  items NUM d.used.ring (d.used_idx % NUM) (ahead d.used.idx d.used_idx)

variable {x y : ℕ}

lemma ahead_lt : ahead x y < 2 ^ 16 := Nat.mod_lt _ (by norm_num)

lemma ahead_eq_zero (hx : x < 2 ^ 16) (hy : y < 2 ^ 16) : ahead x y = 0 ↔ x = y := by
  unfold ahead
  omega

lemma ahead_succ_left (hx : x < 2 ^ 16) (hy : y < 2 ^ 16) (h : ahead x y + 1 < 2 ^ 16) :
    ahead ((x + 1) % 2 ^ 16) y = ahead x y + 1 := by
  unfold ahead at *
  omega

lemma ahead_succ_right (hx : x < 2 ^ 16) {n : ℕ} (h : ahead x y = n + 1) :
    ahead x ((y + 1) % 2 ^ 16) = n := by
  unfold ahead at *
  omega

lemma mod_add_ahead (hx : x < 2 ^ 16) (hy : y < 2 ^ 16) : (y % NUM + ahead x y) % NUM = x % NUM := by
  unfold ahead NUM
  omega

lemma mod_succ_mod (y : ℕ) : (y % NUM + 1) % NUM = (y + 1) % 2 ^ 16 % NUM := by
  unfold NUM
  omega

variable {d : Disk β}

lemma availQ_succ {seen n : ℕ} (hi : d.avail.idx < 2 ^ 16)
    (h : ahead d.avail.idx seen = n + 1) :
    availQ d seen = d.avail.ring.getD (seen % NUM) 0 :: availQ d ((seen + 1) % 2 ^ 16) := by
  rw [availQ, h, items_succ, Nat.mod_mod, availQ, ahead_succ_right hi h, mod_succ_mod]
  rfl

lemma usedQ_succ {n : ℕ} (h : ahead d.used.idx d.used_idx = n + 1) :
    usedQ d = d.used.ring.getD (d.used_idx % NUM) 0 ::
      items NUM d.used.ring ((d.used_idx + 1) % 2 ^ 16 % NUM) n := by
  rw [usedQ, h, items_succ, Nat.mod_mod, mod_succ_mod]
  rfl

lemma items_push {r : Ring} {out : ℕ} (hlen : r.ring.length = NUM) (hi : r.idx < 2 ^ 16)
    (ho : out < 2 ^ 16) (hroom : ahead r.idx out < NUM) (x : ℕ) :
    items NUM (r.ring.set (r.idx % NUM) x) (out % NUM) (ahead ((r.idx + 1) % 2 ^ 16) out) =
      items NUM r.ring (out % NUM) (ahead r.idx out) ++ [x] := by
  rw [ahead_succ_left hi ho (by unfold NUM at hroom; omega), ← mod_add_ahead hi ho]
  exact items_set hlen hroom _ x

end Rings

/-! ## The interrupt -/

section Intr

variable [DecidableEq β]

def Disk.cleared (d : Disk β) (hs : List ℕ) : β → Bool :=
  fun b => d.bdisk b && !decide (∃ h ∈ hs, (d.info h).b = some b)

lemma cleared_nil (d : Disk β) : d.cleared [] = d.bdisk := by
  funext b
  simp [Disk.cleared]

def Disk.afterIntr (d : Disk β) : Disk β :=
  { d with bdisk := d.cleared (usedQ d), used_idx := d.used.idx }

lemma afterIntr_bdisk (d : Disk β) (b : β) :
    d.afterIntr.bdisk b = true ↔ d.bdisk b = true ∧ ∀ x ∈ usedQ d, (d.info x).b ≠ some b := by
  simp [Disk.afterIntr, Disk.cleared]

/-- **`virtio_disk_intr`'s loop takes every entry of the used ring**: for each, it drops
the `disk` flag of the buffer recorded for that chain head, and it stops with `used_idx` at
`used->idx`. -/
theorem intrLoop_spec (n : ℕ) :
    ∀ (fuel : ℕ) (d : Disk β), n ≤ fuel → ahead d.used.idx d.used_idx = n →
      d.used.idx < 2 ^ 16 → d.used_idx < 2 ^ 16 →
      (∀ h ∈ usedQ d, (d.info h).status = 0 ∧ (d.info h).b ≠ none) →
      intrLoop fuel d = some (.ok d.afterIntr) := by
  -- induction on the entries left; each round takes the first
  induction n with
  | zero =>
    intro fuel d _ hn hi hu _
    have he : d.used_idx = d.used.idx := ((ahead_eq_zero hi hu).1 hn).symm
    have hq : usedQ d = [] := by rw [usedQ, hn, items_zero]
    rw [Disk.afterIntr, hq, cleared_nil, ← he]
    cases fuel <;> exact if_pos he
  | succ n ih =>
    intro fuel d hfuel hn hi hu hq
    obtain ⟨fuel, rfl⟩ : ∃ f, fuel = f + 1 := ⟨fuel - 1, by omega⟩
    have hne : d.used_idx ≠ d.used.idx := fun he => by
      rw [he, (ahead_eq_zero hi hi).2 rfl] at hn
      cases hn
    have hsucc := usedQ_succ hn
    obtain ⟨hs, hb⟩ := hq _ (by rw [hsucc]; exact List.mem_cons_self)
    obtain ⟨b, hbeq⟩ := Option.ne_none_iff_exists'.1 hb
    let d₁ : Disk β :=
      { d with bdisk := Function.update d.bdisk b false, used_idx := (d.used_idx + 1) % 2 ^ 16 }
    have hq₁ : usedQ d₁ = items NUM d.used.ring ((d.used_idx + 1) % 2 ^ 16 % NUM) n := by
      rw [usedQ, ahead_succ_right hi hn]
    have hrest := ih fuel d₁ (by omega) (ahead_succ_right hi hn) hi (Nat.mod_lt _ (by norm_num))
      fun h hh => hq h (by rw [hsucc, ← hq₁]; exact List.mem_cons_of_mem _ hh)
    -- the flags dropped in this round and in the rest are those of the whole ring
    have hcl : d₁.cleared (usedQ d₁) = d.cleared (usedQ d) := by
      funext b'
      rw [hq₁, hsucc]
      generalize items NUM d.used.ring ((d.used_idx + 1) % 2 ^ 16 % NUM) n = rest
      show (Function.update d.bdisk b false b' && !decide (∃ h ∈ rest, (d.info h).b = some b')) =
        (d.bdisk b' && !decide (∃ h ∈ d.used.ring.getD (d.used_idx % NUM) 0 :: rest,
          (d.info h).b = some b'))
      simp only [List.mem_cons, exists_eq_or_imp, hbeq]
      by_cases hb' : b' = b
      · subst hb'
        simp
      · simp [Function.update_of_ne hb', Ne.symm hb']
    rw [intrLoop, if_neg hne]
    dsimp only
    rw [if_neg (not_not.2 hs), hbeq]
    dsimp only
    rw [hrest, Disk.afterIntr, Disk.afterIntr, hcl]

end Intr

/-! ## Calls, the device and interleavings -/

/-- Where a call of `virtio_disk_rw(b, write)` stands: none running, in its allocation loop,
or waiting for `b->disk` to drop with the chain `idx` posted. -/
inductive Call (β : Type)
  | idle
  | alloc (b : β) (write : Bool)
  | wait (b : β) (write : Bool) (idx : List ℕ)

def Call.buf : Call β → Option β
  | .idle => none
  | .alloc b _ => some b
  | .wait b _ _ => some b

/-- The device: how far it has read the avail ring (its own `uint16` index), and the heads
it read and has not yet returned. -/
structure Dev where
  seen : ℕ
  pending : List ℕ

structure Sys (ι β : Type) where
  disk : Disk β
  dev : Dev
  calls : ι → Call β

variable {ι : Type}

/-- The device returns the head `h`: it writes `0` into the chain's status byte and puts
`h` into the used ring. -/
def complete (h : ℕ) (d : Disk β) : Disk β :=
  { d with
    info := Function.update d.info h { d.info h with status := 0 }
    used := ⟨(d.used.idx + 1) % 2 ^ 16, d.used.ring.set (d.used.idx % NUM) h⟩ }

section Interleave

variable [DecidableEq ι] [DecidableEq β]

/-- **The steps.** A call starts on a buffer no other call holds (`bread` holds its sleep
lock); a round of the allocation loop either posts a chain or sleeps; a call whose `b->disk`
dropped frees its chain; an interrupt; the device reads the next avail entry, or returns a
head it read. -/
inductive Step : Sys ι β → Sys ι β → Prop
  | call (s : Sys ι β) (p : ι) (b : β) (write : Bool) :
      s.calls p = .idle → (∀ q, (s.calls q).buf ≠ some b) →
      Step s { s with calls := Function.update s.calls p (.alloc b write) }
  | post (s : Sys ι β) (p : ι) (b : β) (write : Bool) (idx : List ℕ) (d : Disk β) :
      s.calls p = .alloc b write → rwAlloc b write s.disk = .ok (some idx, d) →
      Step s { s with disk := d, calls := Function.update s.calls p (.wait b write idx) }
  | sleep (s : Sys ι β) (p : ι) (b : β) (write : Bool) (d : Disk β) :
      s.calls p = .alloc b write → rwAlloc b write s.disk = .ok (none, d) →
      Step s { s with disk := d }
  | finish (s : Sys ι β) (p : ι) (b : β) (write : Bool) (idx : List ℕ) (d : Disk β) :
      s.calls p = .wait b write idx → s.disk.bdisk b = false →
      rwFinish (idx.getD 0 0) s.disk = some (.ok d) →
      Step s { s with disk := d, calls := Function.update s.calls p .idle }
  | intr (s : Sys ι β) (d : Disk β) :
      virtio_disk_intr s.disk = some (.ok d) → Step s { s with disk := d }
  | fetch (s : Sys ι β) :
      s.dev.seen ≠ s.disk.avail.idx →
      Step s { s with dev := ⟨(s.dev.seen + 1) % 2 ^ 16,
        s.dev.pending ++ [s.disk.avail.ring.getD (s.dev.seen % NUM) 0]⟩ }
  | complete (s : Sys ι β) (h : ℕ) :
      h ∈ s.dev.pending →
      Step s { s with disk := complete h s.disk, dev := ⟨s.dev.seen, s.dev.pending.erase h⟩ }

end Interleave

def Sys.init (bdisk : β → Bool) : Sys ι β := ⟨virtio_disk_init bdisk, ⟨0, []⟩, fun _ => .idle⟩

/-! ## The invariant -/

section Inv

/-- The chain heads posted and not yet taken by `virtio_disk_intr`: in the avail ring, at the
device, and in the used ring. -/
def inflight (s : Sys ι β) : List ℕ := availQ s.disk s.dev.seen ++ s.dev.pending ++ usedQ s.disk

/-- **The descriptors are accounted exactly**: each waiting call holds a chain of three
descriptors with its buffer recorded at the head, the chains are disjoint, a descriptor is
free exactly when no chain holds it, and a free descriptor is cleared. -/
structure Descs (s : Sys ι β) : Prop where
  chain : ∀ p b w idx, s.calls p = .wait b w idx → Chain s.disk w idx ∧ idx.Nodup ∧
    (∀ i ∈ idx, i < NUM) ∧ (s.disk.info (idx.getD 0 0)).b = some b
  disjoint : ∀ p q b b' w w' idx idx', p ≠ q → s.calls p = .wait b w idx →
    s.calls q = .wait b' w' idx' → idx.Disjoint idx'
  free_iff : ∀ i < NUM, s.disk.free i = true ↔ ∀ p b w idx, s.calls p = .wait b w idx → i ∉ idx
  zero : FreeZero s.disk

/-- **The invariant.** The descriptors are accounted; no two calls transfer one buffer; the
`uint16` indices and both rings are in range; and the heads in flight, each once, are those of
the waiting calls whose `b->disk` is still set, the ones in the used ring with status `0`. -/
structure Inv (s : Sys ι β) : Prop extends Descs s where
  bufs : ∀ p q b, p ≠ q → (s.calls p).buf = some b → (s.calls q).buf ≠ some b
  avail_lt : s.disk.avail.idx < 2 ^ 16
  seen_lt : s.dev.seen < 2 ^ 16
  used_lt : s.disk.used.idx < 2 ^ 16
  used_idx_lt : s.disk.used_idx < 2 ^ 16
  avail_length : s.disk.avail.ring.length = NUM
  used_length : s.disk.used.ring.length = NUM
  nodup : (inflight s).Nodup
  inflight_iff : ∀ h, h ∈ inflight s ↔
    ∃ p b w idx, s.calls p = .wait b w idx ∧ idx.getD 0 0 = h ∧ s.disk.bdisk b = true
  status : ∀ h ∈ usedQ s.disk, (s.disk.info h).status = 0

variable {s s' : Sys ι β}

lemma update_wait [DecidableEq ι] {calls : ι → Call β} {p q : ι} {c : Call β} {b : β} {w : Bool} {idx : List ℕ} :
    Function.update calls p c q = .wait b w idx ↔
      q = p ∧ c = .wait b w idx ∨ q ≠ p ∧ calls q = .wait b w idx := by
  by_cases hq : q = p
  · subst hq
    simp
  · simp [hq]

lemma update_wait_of_ne_wait [DecidableEq ι] {calls : ι → Call β} {p q : ι} {c : Call β} {b : β}
    {w : Bool} {idx : List ℕ} (hc : ∀ b w idx, c ≠ .wait b w idx) :
    Function.update calls p c q = .wait b w idx ↔ q ≠ p ∧ calls q = .wait b w idx := by
  rw [update_wait]
  exact or_iff_right fun ⟨_, he⟩ => hc _ _ _ he

lemma Descs.congr (h : Descs s)
    (hw : ∀ q b w idx, s'.calls q = .wait b w idx ↔ s.calls q = .wait b w idx)
    (hd : s'.disk.desc = s.disk.desc) (hf : s'.disk.free = s.disk.free)
    (hi : ∀ j, (s'.disk.info j).b = (s.disk.info j).b) : Descs s' where
  chain p b w idx hp := by
    obtain ⟨hc, hrest⟩ := h.chain p b w idx ((hw p b w idx).1 hp)
    refine ⟨hc.congr fun i _ => by rw [hd], ?_⟩
    rwa [hi]
  disjoint p q b b' w w' idx idx' hpq hp hq :=
    h.disjoint p q b b' w w' idx idx' hpq ((hw _ _ _ _).1 hp) ((hw _ _ _ _).1 hq)
  free_iff i hi' := by
    rw [hf, h.free_iff i hi']
    exact forall_congr' fun p => forall_congr' fun b => forall_congr' fun w =>
      forall_congr' fun idx => imp_congr_left (hw p b w idx).symm
  zero i hi' hfree := by
    rw [hd]
    exact h.zero i hi' (hf ▸ hfree)

lemma head_mem {d : Disk β} {w : Bool} {idx : List ℕ} (hc : Chain d w idx) : idx.getD 0 0 ∈ idx := by
  match idx, hc with
  | [_, _, _], _ => simp

lemma Inv.inflight_lt (h : Inv s) {x : ℕ} (hx : x ∈ inflight s) : x < NUM := by
  obtain ⟨p, b, w, idx, hp, rfl, -⟩ := (h.inflight_iff x).1 hx
  obtain ⟨hc, -, hlt, -⟩ := h.chain p b w idx hp
  exact hlt _ (head_mem hc)

lemma length_le_of_nodup {l : List ℕ} (hnd : l.Nodup) (hlt : ∀ y ∈ l, y < NUM) : l.length ≤ NUM := by
  have := (hnd.subperm fun y hy => List.mem_range.2 (hlt y hy)).length_le
  rwa [List.length_range] at this

lemma Inv.length_lt (h : Inv s) {x : ℕ} (hx : x ∉ inflight s) (hxlt : x < NUM) :
    (inflight s).length < NUM := by
  have := length_le_of_nodup (List.nodup_cons.2 ⟨hx, h.nodup⟩) fun y hy => by
    rcases List.mem_cons.1 hy with rfl | hy
    · exact hxlt
    · exact h.inflight_lt hy
  rw [List.length_cons] at this
  omega

end Inv

/-! ## Every step keeps the invariant -/

section Steps

variable {s : Sys ι β}

theorem inv_init (bd : β → Bool) : Inv (Sys.init bd : Sys ι β) where
  chain _ _ _ _ h := by cases h
  disjoint _ _ _ _ _ _ _ _ _ h := by cases h
  free_iff i hi := by simp [Sys.init, virtio_disk_init, hi]
  zero _ _ _ := rfl
  bufs _ _ _ _ h := by cases h
  avail_lt := by norm_num [Sys.init, virtio_disk_init]
  seen_lt := by norm_num [Sys.init]
  used_lt := by norm_num [Sys.init, virtio_disk_init]
  used_idx_lt := by norm_num [Sys.init, virtio_disk_init]
  avail_length := List.length_replicate
  used_length := List.length_replicate
  nodup := by simp [inflight, availQ, usedQ, ahead, Sys.init, virtio_disk_init]
  inflight_iff _ := by simp [inflight, availQ, usedQ, ahead, Sys.init, virtio_disk_init]
  status _ h := by simp [usedQ, ahead, Sys.init, virtio_disk_init] at h

lemma Inv.device_fetch (h : Inv s) (hne : s.dev.seen ≠ s.disk.avail.idx) :
    Inv { s with dev := ⟨(s.dev.seen + 1) % 2 ^ 16,
      s.dev.pending ++ [s.disk.avail.ring.getD (s.dev.seen % NUM) 0]⟩ } := by
  obtain ⟨n, hn⟩ : ∃ n, ahead s.disk.avail.idx s.dev.seen = n + 1 :=
    Nat.exists_eq_succ_of_ne_zero (mt (ahead_eq_zero h.avail_lt h.seen_lt).1 (Ne.symm hne))
  have hperm : List.Perm (inflight { s with dev := ⟨(s.dev.seen + 1) % 2 ^ 16,
      s.dev.pending ++ [s.disk.avail.ring.getD (s.dev.seen % NUM) 0]⟩ }) (inflight s) := by
    rw [inflight, inflight, availQ_succ h.avail_lt hn]
    dsimp only
    generalize availQ s.disk ((s.dev.seen + 1) % 2 ^ 16) = A
    generalize s.disk.avail.ring.getD (s.dev.seen % NUM) 0 = a
    simpa only [List.append_assoc, List.cons_append, List.singleton_append, List.nil_append] using
      @List.perm_middle _ a (A ++ s.dev.pending) (usedQ s.disk)
  exact { h with
    seen_lt := Nat.mod_lt _ (by norm_num)
    nodup := hperm.nodup_iff.2 h.nodup
    inflight_iff := fun x => hperm.mem_iff.trans (h.inflight_iff x) }

lemma Inv.device_return (h : Inv s) {x : ℕ} (hx : x ∈ s.dev.pending) :
    Inv { s with disk := complete x s.disk, dev := ⟨s.dev.seen, s.dev.pending.erase x⟩ } := by
  have hnd' : (s.dev.pending ++ usedQ s.disk).Nodup := by
    have := h.nodup
    rw [inflight, List.append_assoc] at this
    exact this.of_append_right
  -- the used ring has room: `x` and the heads in it are distinct heads in flight
  have hnd : (x :: usedQ s.disk).Nodup :=
    List.nodup_cons.2 ⟨fun hu => List.disjoint_of_nodup_append hnd' hx hu, hnd'.of_append_right⟩
  have hroom : ahead s.disk.used.idx s.disk.used_idx < NUM := by
    have := length_le_of_nodup hnd fun y hy => h.inflight_lt (by
      rcases List.mem_cons.1 hy with rfl | hy
      · exact List.mem_append_left _ (List.mem_append_right _ hx)
      · exact List.mem_append_right _ hy)
    rw [List.length_cons, usedQ, length_items] at this
    omega
  have hq : usedQ (complete x s.disk) = usedQ s.disk ++ [x] :=
    items_push h.used_length h.used_lt h.used_idx_lt hroom x
  have hperm : List.Perm
      (availQ s.disk s.dev.seen ++ s.dev.pending.erase x ++ usedQ (complete x s.disk))
      (inflight s) := by
    rw [hq, inflight]
    generalize availQ s.disk s.dev.seen = A
    generalize usedQ s.disk = U
    have h1 : List.Perm (A ++ s.dev.pending.erase x ++ (U ++ [x]))
        (x :: (A ++ s.dev.pending.erase x ++ U)) :=
      ((List.perm_append_singleton x U).append_left _).trans List.perm_middle
    have h2 : List.Perm (A ++ s.dev.pending ++ U) (x :: (A ++ s.dev.pending.erase x ++ U)) := by
      refine (((List.perm_cons_erase hx).append_left A).append_right U).trans ?_
      simpa only [List.append_assoc, List.cons_append] using
        @List.perm_middle _ x A (s.dev.pending.erase x ++ U)
    exact h1.trans h2.symm
  refine { h with
    toDescs := h.toDescs.congr (fun _ _ _ _ => Iff.rfl) rfl rfl fun j => ?_
    used_lt := Nat.mod_lt _ (by norm_num)
    used_length := by rw [complete, List.length_set]; exact h.used_length
    nodup := hperm.nodup_iff.2 h.nodup
    inflight_iff := fun y => hperm.mem_iff.trans (h.inflight_iff y)
    status := fun y hy => ?_ }
  · by_cases hj : j = x
    · subst hj
      simp [complete]
    · simp [complete, hj]
  · rw [hq] at hy
    by_cases hyx : y = x
    · subst hyx
      simp [complete]
    · simp only [complete, ne_eq, hyx, not_false_eq_true, Function.update_of_ne]
      exact h.status y ((List.mem_append.1 hy).resolve_right (by simpa using hyx))

lemma Inv.used_buf (h : Inv s) {x : ℕ} (hx : x ∈ usedQ s.disk) :
    ∃ p b w idx, s.calls p = .wait b w idx ∧ idx.getD 0 0 = x ∧ (s.disk.info x).b = some b ∧
      s.disk.bdisk b = true := by
  obtain ⟨p, b, w, idx, hp, rfl, hb⟩ := (h.inflight_iff x).1 (List.mem_append_right _ hx)
  exact ⟨p, b, w, idx, hp, rfl, (h.chain p b w idx hp).2.2.2, hb⟩

lemma Inv.call [DecidableEq ι] (h : Inv s) {p : ι} {b : β} {write : Bool} (hp : s.calls p = .idle)
    (hb : ∀ q, (s.calls q).buf ≠ some b) :
    Inv { s with calls := Function.update s.calls p (.alloc b write) } := by
  -- the waiting calls are those there were
  have hw : ∀ q b' w idx, Function.update s.calls p (.alloc b write) q = .wait b' w idx ↔
      s.calls q = .wait b' w idx := by
    intro q b' w idx
    rw [update_wait]
    constructor
    · rintro (⟨-, hc⟩ | ⟨-, hq⟩)
      · cases hc
      · exact hq
    · intro hq
      refine .inr ⟨fun he => ?_, hq⟩
      rw [he, hp] at hq
      cases hq
  refine { h with
    toDescs := h.toDescs.congr hw rfl rfl fun _ => rfl
    bufs := fun p' q' b' hpq hp' => ?_
    inflight_iff := fun y => (h.inflight_iff y).trans ?_ }
  · dsimp only at hp' ⊢
    by_cases hp'p : p' = p
    · subst hp'p
      rw [Function.update_self] at hp'
      cases hp'
      rw [Function.update_of_ne (Ne.symm hpq)]
      exact hb q'
    · rw [Function.update_of_ne hp'p] at hp'
      by_cases hq'p : q' = p
      · subst hq'p
        rw [Function.update_self]
        intro he
        cases he
        exact hb p' hp'
      · rw [Function.update_of_ne hq'p]
        exact h.bufs p' q' b' hpq hp'
  · simp only [hw]

lemma Inv.not_free (h : Inv s) {p : ι} {b : β} {write : Bool} {idx : List ℕ}
    (hp : s.calls p = .wait b write idx) : ∀ i ∈ idx, s.disk.free i = false := fun i hi => by
  have hlt := (h.chain p b write idx hp).2.2.1 i hi
  have := mt (h.free_iff i hlt).1
  simpa using this fun hall => hall p b write idx hp hi

/-- **The end of a waiting call frees exactly its chain**: `free_chain` does not panic, sets
the free flags of the chain's descriptors and clears them, and touches no other. -/
lemma Inv.rwFinish_frees (h : Inv s) {p : ι} {b : β} {write : Bool} {idx : List ℕ}
    (hp : s.calls p = .wait b write idx) :
    ∃ d, rwFinish (idx.getD 0 0) s.disk = some (.ok d) ∧
      (∀ i, d.free i = (s.disk.free i || decide (i ∈ idx))) ∧
      ∀ i, d.desc i = if i ∈ idx then ⟨0, 0⟩ else s.disk.desc i := by
  have hnf := h.not_free hp
  obtain ⟨hc, hnd, hlt, -⟩ := h.chain p b write idx hp
  obtain ⟨i0, i1, i2, rfl⟩ := hc.three
  rw [List.getD_cons_zero, rwFinish_chain hc hnd hlt hnf]
  exact ⟨_, rfl, fun _ => rfl, fun _ => rfl⟩

lemma Inv.finish [DecidableEq ι] (h : Inv s) {p : ι} {b : β} {write : Bool} {idx : List ℕ} {d : Disk β}
    (hp : s.calls p = .wait b write idx) (hb : s.disk.bdisk b = false)
    (hf : rwFinish (idx.getD 0 0) s.disk = some (.ok d)) :
    Inv { s with disk := d, calls := Function.update s.calls p .idle } := by
  have hnf := h.not_free hp
  obtain ⟨hc, hnd, hlt, -⟩ := h.chain p b write idx hp
  obtain ⟨i0, i1, i2, rfl⟩ := hc.three
  rw [List.getD_cons_zero, rwFinish_chain hc hnd hlt hnf] at hf
  cases hf
  have hw : ∀ q b' w idx', Function.update s.calls p .idle q = .wait b' w idx' ↔
      q ≠ p ∧ s.calls q = .wait b' w idx' := fun _ _ _ _ => update_wait_of_ne_wait nofun
  -- the other chains are disjoint from this one
  have hout : ∀ q b' w idx', q ≠ p → s.calls q = .wait b' w idx' → ∀ i ∈ idx',
      i ∉ [i0, i1, i2] := fun q b' w idx' hqp hq i hi hi' =>
    h.disjoint p q b b' write w _ idx' (Ne.symm hqp) hp hq hi' hi
  refine
    { chain := fun q b' w idx' hq => ?chain
      disjoint := fun p₁ p₂ b₁ b₂ w₁ w₂ idx₁ idx₂ hne h₁ h₂ =>
        h.disjoint _ _ _ _ _ _ _ _ hne ((hw _ _ _ _).1 h₁).2 ((hw _ _ _ _).1 h₂).2
      free_iff := fun i hi => ?free_iff
      zero := fun i hi hf => ?zero
      bufs := fun p' q' b' hpq hp' => ?bufs
      avail_lt := h.avail_lt
      seen_lt := h.seen_lt
      used_lt := h.used_lt
      used_idx_lt := h.used_idx_lt
      avail_length := h.avail_length
      used_length := h.used_length
      nodup := h.nodup
      inflight_iff := fun y => (h.inflight_iff y).trans ?inflight_iff
      status := fun y hy => ?status }
  case chain =>
    obtain ⟨hqp, hq⟩ := (hw _ _ _ _).1 hq
    obtain ⟨hc', hnd', hlt', hb'⟩ := h.chain q b' w idx' hq
    have hni := hout q b' w idx' hqp hq
    have hne : idx'.getD 0 0 ≠ i0 := fun he => hni _ (head_mem hc') (he ▸ List.mem_cons_self)
    refine ⟨hc'.congr fun i hi => ?_, hnd', hlt', ?_⟩
    · show (if i ∈ [i0, i1, i2] then _ else s.disk.desc i) = s.disk.desc i
      rw [if_neg (hni i hi)]
    · show (Function.update s.disk.info i0 _ (idx'.getD 0 0)).b = some b'
      rw [Function.update_of_ne hne]
      exact hb'
  case free_iff =>
    show (s.disk.free i || decide (i ∈ [i0, i1, i2])) = true ↔ _
    rw [Bool.or_eq_true, h.free_iff i hi, decide_eq_true_iff]
    constructor
    · rintro (hall | hin) q b' w idx' hq
      · exact hall q b' w idx' ((hw _ _ _ _).1 hq).2
      · obtain ⟨hqp, hq⟩ := (hw _ _ _ _).1 hq
        exact fun hi' => hout q b' w idx' hqp hq i hi' hin
    · intro hall
      by_cases hin : i ∈ [i0, i1, i2]
      · exact .inr hin
      · refine .inl fun q b' w idx' hq => ?_
        by_cases hqp : q = p
        · subst hqp
          rw [hp] at hq
          cases hq
          exact hin
        · exact hall q b' w idx' ((hw _ _ _ _).2 ⟨hqp, hq⟩)
  case zero =>
    show (if i ∈ [i0, i1, i2] then ⟨0, 0⟩ else s.disk.desc i) = ⟨0, 0⟩
    split_ifs with hin
    · rfl
    · have hf' : (s.disk.free i || decide (i ∈ [i0, i1, i2])) = true := hf
      simp only [hin, decide_false, Bool.or_false] at hf'
      exact h.zero i hi hf'
  case bufs =>
    dsimp only at hp' ⊢
    have hp'p : p' ≠ p := by
      rintro rfl
      rw [Function.update_self] at hp'
      cases hp'
    rw [Function.update_of_ne hp'p] at hp'
    by_cases hq'p : q' = p
    · subst hq'p
      rw [Function.update_self]
      exact (Option.some_ne_none b').symm
    · rw [Function.update_of_ne hq'p]
      exact h.bufs p' q' b' hpq hp'
  case inflight_iff =>
    -- `p`'s own head left the flight when its `b->disk` dropped
    constructor
    · rintro ⟨q, b', w, idx', hq, rfl, hb'⟩
      refine ⟨q, b', w, idx', (hw _ _ _ _).2 ⟨fun hqp => ?_, hq⟩, rfl, hb'⟩
      subst hqp
      rw [hp] at hq
      cases hq
      rw [hb] at hb'
      cases hb'
    · rintro ⟨q, b', w, idx', hq, rfl, hb'⟩
      exact ⟨q, b', w, idx', ((hw _ _ _ _).1 hq).2, rfl, hb'⟩
  case status =>
    show (Function.update s.disk.info i0 _ y).status = 0
    by_cases hy0 : y = i0
    · subst hy0
      rw [Function.update_self]
      exact h.status _ hy
    · rw [Function.update_of_ne hy0]
      exact h.status y hy

variable [DecidableEq β]

lemma Inv.sleep (h : Inv s) {b : β} {write : Bool} {d : Disk β}
    (hr : rwAlloc b write s.disk = .ok (none, d)) : Inv { s with disk := d } := by
  rcases rwAlloc_cases h.zero b write with he | ⟨i0, i1, i2, -, -, he⟩
  · rw [he] at hr
    cases hr
    exact h
  · rw [he] at hr
    cases hr

/-- **`virtio_disk_intr` does not panic**: it takes every entry of the used ring, each with
status `0` and a buffer recorded, and drops their buffers' `disk` flags. -/
lemma Inv.intr_spec (h : Inv s) : virtio_disk_intr s.disk = some (.ok s.disk.afterIntr) :=
  intrLoop_spec _ _ s.disk ahead_lt.le rfl h.used_lt h.used_idx_lt fun x hx => by
    obtain ⟨-, b, -, -, -, -, hb, -⟩ := h.used_buf hx
    exact ⟨h.status x hx, by rw [hb]; exact Option.some_ne_none b⟩

lemma Inv.intr (h : Inv s) {d : Disk β} (hi : virtio_disk_intr s.disk = some (.ok d)) :
    Inv { s with disk := d } := by
  rw [h.intr_spec] at hi
  cases hi
  have hU : usedQ s.disk.afterIntr = [] := by
    rw [usedQ]
    dsimp only [Disk.afterIntr]
    rw [(ahead_eq_zero h.used_lt h.used_lt).2 rfl, items_zero]
  refine { h with
    toDescs := h.toDescs.congr (fun _ _ _ _ => Iff.rfl) rfl rfl fun _ => rfl
    used_idx_lt := h.used_lt
    nodup := ?_
    inflight_iff := fun y => ?_
    status := fun y hy => ?_ }
  · show (availQ s.disk s.dev.seen ++ s.dev.pending ++ usedQ _).Nodup
    rw [hU, List.append_nil]
    exact h.nodup.sublist (List.sublist_append_left _ _)
  · show y ∈ availQ s.disk s.dev.seen ++ s.dev.pending ++ usedQ _ ↔
      ∃ p b w idx, s.calls p = .wait b w idx ∧ idx.getD 0 0 = y ∧
        s.disk.cleared (usedQ s.disk) b = true
    rw [hU, List.append_nil]
    constructor
    · intro hy
      obtain ⟨p, b, w, idx, hp, rfl, hb⟩ := (h.inflight_iff _).1 (List.mem_append_left _ hy)
      refine ⟨p, b, w, idx, hp, rfl, ?_⟩
      -- an entry of the used ring recording `b` would be `p`'s own head, which is not there
      simp only [Disk.cleared, hb, Bool.true_and, Bool.not_eq_eq_eq_not, Bool.not_true,
        decide_eq_false_iff_not, not_exists, not_and]
      intro x hx hxb
      obtain ⟨q, b', w', idx', hq, rfl, hxb', -⟩ := h.used_buf hx
      rw [hxb] at hxb'
      cases hxb'
      have hpq : p = q := by
        by_contra hne
        exact h.bufs p q b hne (by rw [hp]; rfl) (by rw [hq]; rfl)
      subst hpq
      rw [hp] at hq
      cases hq
      exact List.disjoint_of_nodup_append h.nodup hy hx
    · rintro ⟨p, b, w, idx, hp, rfl, hb⟩
      simp only [Disk.cleared, Bool.and_eq_true, Bool.not_eq_eq_eq_not, Bool.not_true,
        decide_eq_false_iff_not] at hb
      obtain ⟨hb, hnot⟩ := hb
      rcases List.mem_append.1 ((h.inflight_iff _).2 ⟨p, b, w, idx, hp, rfl, hb⟩) with hy | hy
      · exact hy
      · exact absurd ⟨_, hy, (h.chain p b w idx hp).2.2.2⟩ hnot
  · rw [hU] at hy
    cases hy

/-- **Each interrupt clears `b->disk` for exactly the buffers recorded for the heads in the
used ring**, with no panic, and stops with `used_idx` at `used->idx`. -/
lemma Inv.intr_takes (h : Inv s) :
    ∃ d, virtio_disk_intr s.disk = some (.ok d) ∧ d.used_idx = s.disk.used.idx ∧
      ∀ b, d.bdisk b = true ↔ s.disk.bdisk b = true ∧ ∀ x ∈ usedQ s.disk, (s.disk.info x).b ≠ some b :=
  ⟨_, h.intr_spec, rfl, afterIntr_bdisk s.disk⟩

variable [DecidableEq ι]

/-- **A round of the allocation loop posts a chain**: the three descriptors it took were free,
so no chain held them, and the head goes into the avail ring behind the heads there. -/
lemma Inv.post (h : Inv s) {p : ι} {b : β} {write : Bool} {idx : List ℕ} {d : Disk β}
    (hp : s.calls p = .alloc b write) (hr : rwAlloc b write s.disk = .ok (some idx, d)) :
    Inv { s with disk := d, calls := Function.update s.calls p (.wait b write idx) } := by
  rcases rwAlloc_cases h.zero b write with he | ⟨i0, i1, i2, hnd, hfree, he⟩
  · rw [he] at hr
    cases hr
  rw [he] at hr
  cases hr
  -- the descriptors taken were in no chain, and the head is not in flight
  have hout : ∀ i ∈ [i0, i1, i2], ∀ q b' w idx', s.calls q = .wait b' w idx' → i ∉ idx' :=
    fun i hi => (h.free_iff i (hfree i hi).1).1 (hfree i hi).2
  have hpw : ∀ q b' w idx', s.calls q = .wait b' w idx' → q ≠ p := by
    rintro q b' w idx' hq rfl
    rw [hp] at hq
    cases hq
  have hi0 : i0 ∉ inflight s := fun hin => by
    obtain ⟨q, b', w, idx', hq, hhead, -⟩ := (h.inflight_iff i0).1 hin
    exact hout i0 (by simp) q b' w idx' hq (hhead ▸ head_mem (h.chain q b' w idx' hq).1)
  have hroom : ahead s.disk.avail.idx s.dev.seen < NUM := by
    have hlt := h.length_lt hi0 (hfree i0 (by simp)).1
    have hle : (availQ s.disk s.dev.seen).length ≤ (inflight s).length := by
      simp only [inflight, List.length_append]
      omega
    rw [availQ, length_items] at hle
    omega
  have hA : availQ (Virtio.post b write i0 i1 i2 (s.disk.marked [i0, i1, i2])) s.dev.seen =
      availQ s.disk s.dev.seen ++ [i0] :=
    items_push h.avail_length h.avail_lt h.seen_lt hroom i0
  have hperm : List.Perm (availQ (Virtio.post b write i0 i1 i2 (s.disk.marked [i0, i1, i2])) s.dev.seen ++
      s.dev.pending ++ usedQ s.disk) (i0 :: inflight s) := by
    rw [hA, inflight]
    generalize availQ s.disk s.dev.seen = A
    simpa only [List.append_assoc, List.singleton_append, List.cons_append, List.nil_append] using
      @List.perm_middle _ i0 A (s.dev.pending ++ usedQ s.disk)
  have hbuf : ∀ q, (Function.update s.calls p (.wait b write [i0, i1, i2]) q).buf =
      (s.calls q).buf := by
    intro q
    by_cases hq : q = p
    · subst hq
      rw [Function.update_self, hp]
      rfl
    · rw [Function.update_of_ne hq]
  refine
    { chain := fun q b' w idx' hq => ?chain
      disjoint := fun p₁ p₂ b₁ b₂ w₁ w₂ idx₁ idx₂ hne h₁ h₂ => ?disjoint
      free_iff := fun i hi => ?free_iff
      zero := fun i hi hf => ?zero
      bufs := fun p' q' b' hpq => by simpa only [hbuf] using h.bufs p' q' b' hpq
      avail_lt := Nat.mod_lt _ (by norm_num)
      seen_lt := h.seen_lt
      used_lt := h.used_lt
      used_idx_lt := h.used_idx_lt
      avail_length := (List.length_set ..).trans h.avail_length
      used_length := h.used_length
      nodup := hperm.nodup_iff.2 (List.nodup_cons.2 ⟨hi0, h.nodup⟩)
      inflight_iff := fun y => hperm.mem_iff.trans ?inflight_iff
      status := fun y hy => ?status }
  case chain =>
    rcases update_wait.1 hq with ⟨rfl, hc⟩ | ⟨-, hq⟩
    · cases hc
      exact ⟨post_chain hnd, hnd, fun i hi => (hfree i hi).1, by simp [Virtio.post]⟩
    · -- another chain: none of its descriptors was written
      obtain ⟨hc, hnd', hlt, hb⟩ := h.chain q b' w idx' hq
      have hni : ∀ i ∈ idx', i ∉ [i0, i1, i2] := fun i hi hi' => hout i hi' q b' w idx' hq hi
      have hne : idx'.getD 0 0 ≠ i0 := fun he => hni _ (head_mem hc) (he ▸ List.mem_cons_self)
      refine ⟨hc.congr fun i hi => post_desc_of_not_mem (hni i hi), hnd', hlt, ?_⟩
      show (Function.update s.disk.info i0 _ (idx'.getD 0 0)).b = some b'
      rw [Function.update_of_ne hne]
      exact hb
  case disjoint =>
    rcases update_wait.1 h₁ with ⟨rfl, hc₁⟩ | ⟨-, hq₁⟩ <;>
      rcases update_wait.1 h₂ with ⟨rfl, hc₂⟩ | ⟨-, hq₂⟩
    · exact absurd rfl hne
    · cases hc₁
      intro i hi hi₂
      exact hout i hi _ _ _ _ hq₂ hi₂
    · cases hc₂
      intro i hi₁ hi
      exact hout i hi _ _ _ _ hq₁ hi₁
    · exact h.disjoint _ _ _ _ _ _ _ _ hne hq₁ hq₂
  case free_iff =>
    show (s.disk.free i && !decide (i ∈ [i0, i1, i2])) = true ↔ _
    rw [Bool.and_eq_true, h.free_iff i hi]
    constructor
    · rintro ⟨hold, hnot⟩ q b' w idx' hq
      rcases update_wait.1 hq with ⟨rfl, hc⟩ | ⟨-, hq⟩
      · cases hc
        simpa using hnot
      · exact hold q b' w idx' hq
    · intro hall
      refine ⟨fun q b' w idx' hq => hall q b' w idx' (update_wait.2 (.inr ⟨hpw _ _ _ _ hq, hq⟩)), ?_⟩
      simpa using hall p b write [i0, i1, i2] (by simp)
  case zero =>
    have hf' : s.disk.free i = true ∧ i ∉ [i0, i1, i2] := by
      simpa [Virtio.post, Disk.marked] using hf
    rw [post_desc_of_not_mem hf'.2]
    exact h.zero i hi hf'.1
  case inflight_iff =>
    rw [List.mem_cons, h.inflight_iff]
    constructor
    · rintro (hy | ⟨q, b', w, idx', hq, rfl, hb⟩)
      · rw [hy]
        exact ⟨p, b, write, [i0, i1, i2], by simp, rfl, by simp [Virtio.post]⟩
      · refine ⟨q, b', w, idx', update_wait.2 (.inr ⟨hpw _ _ _ _ hq, hq⟩), rfl, ?_⟩
        show Function.update s.disk.bdisk b true b' = true
        by_cases hbb : b' = b
        · subst hbb
          exact Function.update_self ..
        · rwa [Function.update_of_ne hbb]
    · rintro ⟨q, b', w, idx', hq, rfl, hb⟩
      rcases update_wait.1 hq with ⟨rfl, hc⟩ | ⟨hqp, hq⟩
      · cases hc
        exact .inl rfl
      · -- the buffer is not `b`, which `p` holds
        have hbb : b' ≠ b := fun he =>
          h.bufs p q b (Ne.symm hqp) (by rw [hp]; rfl) (by rw [hq, he]; rfl)
        change Function.update s.disk.bdisk b true b' = true at hb
        rw [Function.update_of_ne hbb] at hb
        exact .inr ⟨q, b', w, idx', hq, rfl, hb⟩
  case status =>
    have hne : y ≠ i0 := fun he => hi0 (he ▸ List.mem_append_right _ hy)
    show (Function.update s.disk.info i0 _ y).status = 0
    rw [Function.update_of_ne hne]
    exact h.status y hy

/-- **Every step keeps the invariant.** -/
theorem Inv.step {s' : Sys ι β} (h : Inv s) (hs : Step s s') : Inv s' := by
  cases hs with
  | call _ _ _ hp hb => exact h.call hp hb
  | post _ _ _ _ _ hp hr => exact h.post hp hr
  | sleep _ _ _ _ _ hr => exact h.sleep hr
  | finish _ _ _ _ _ hp hb hr => exact h.finish hp hb hr
  | intr _ hi => exact h.intr hi
  | fetch hne => exact h.device_fetch hne
  | complete _ hx => exact h.device_return hx

end Steps

/-! ## Every interleaving -/

section Safety

variable [DecidableEq ι] [DecidableEq β]

theorem inv_reach {bd : β → Bool} {s : Sys ι β} (hr : Reachable (· = Sys.init bd) Step s) :
    Inv s :=
  Reachable.induct (fun s (h : s = Sys.init bd) => h ▸ inv_init bd) (fun _ _ _ h hs => h.step hs) hr

/-- **Virtio descriptors are accounted exactly.** Over any interleaving of `virtio_disk_rw`
calls by any processes, interrupts and a device that returns each head it read once: a
descriptor is free exactly when no posted chain holds it; each posted chain is three distinct
descriptors formatted and linked by `VRING_DESC_F_NEXT`, its buffer recorded at its head, and
chains are disjoint; `alloc3_desc` takes three free descriptors or gives back exactly those it
took; the end of a waiting call frees exactly its chain with no panic; an interrupt clears
`b->disk` for exactly the buffers recorded at the heads in the used ring, with no panic; and
the `uint16` ring indices keep each posted head exactly once in flight. -/
theorem virtio_descriptors_exact {bd : β → Bool} {s : Sys ι β}
    (hr : Reachable (· = Sys.init bd) Step s) :
    (∀ i < NUM, s.disk.free i = true ↔ ∀ p b w idx, s.calls p = .wait b w idx → i ∉ idx) ∧
    (∀ p b w idx, s.calls p = .wait b w idx → Chain s.disk w idx ∧ idx.Nodup ∧
      (∀ i ∈ idx, i < NUM) ∧ (s.disk.info (idx.getD 0 0)).b = some b) ∧
    (∀ p q b b' w w' idx idx', p ≠ q → s.calls p = .wait b w idx →
      s.calls q = .wait b' w' idx' → idx.Disjoint idx') ∧
    (alloc3_desc s.disk = .ok (none, s.disk) ∨
      ∃ i0 i1 i2, [i0, i1, i2].Nodup ∧ (∀ i ∈ [i0, i1, i2], i < NUM ∧ s.disk.free i = true) ∧
        alloc3_desc s.disk = .ok (some [i0, i1, i2], s.disk.marked [i0, i1, i2])) ∧
    (∀ p b w idx, s.calls p = .wait b w idx →
      ∃ d, rwFinish (idx.getD 0 0) s.disk = some (.ok d) ∧
        (∀ i, d.free i = (s.disk.free i || decide (i ∈ idx))) ∧
        ∀ i, d.desc i = if i ∈ idx then ⟨0, 0⟩ else s.disk.desc i) ∧
    (∃ d, virtio_disk_intr s.disk = some (.ok d) ∧ d.used_idx = s.disk.used.idx ∧
      ∀ b, d.bdisk b = true ↔ s.disk.bdisk b = true ∧ ∀ x ∈ usedQ s.disk, (s.disk.info x).b ≠ some b) ∧
    (inflight s).Nodup ∧
    ∀ x, x ∈ inflight s ↔
      ∃ p b w idx, s.calls p = .wait b w idx ∧ idx.getD 0 0 = x ∧ s.disk.bdisk b = true := by
  have h := inv_reach hr
  exact ⟨h.free_iff, h.chain, h.disjoint, alloc3_desc_cases h.zero,
    fun p b w idx hp => h.rwFinish_frees hp, h.intr_takes, h.nodup, h.inflight_iff⟩

theorem virtio_descriptors_exact_init :
    let s : Sys (Fin 2) (Fin 2) := Sys.init fun _ => false
    (∀ i < NUM, s.disk.free i = true ↔ ∀ p b w idx, s.calls p = .wait b w idx → i ∉ idx) ∧
    (∀ p b w idx, s.calls p = .wait b w idx → Chain s.disk w idx ∧ idx.Nodup ∧
      (∀ i ∈ idx, i < NUM) ∧ (s.disk.info (idx.getD 0 0)).b = some b) ∧
    (∀ p q b b' w w' idx idx', p ≠ q → s.calls p = .wait b w idx →
      s.calls q = .wait b' w' idx' → idx.Disjoint idx') ∧
    (alloc3_desc s.disk = .ok (none, s.disk) ∨
      ∃ i0 i1 i2, [i0, i1, i2].Nodup ∧ (∀ i ∈ [i0, i1, i2], i < NUM ∧ s.disk.free i = true) ∧
        alloc3_desc s.disk = .ok (some [i0, i1, i2], s.disk.marked [i0, i1, i2])) ∧
    (∀ p b w idx, s.calls p = .wait b w idx →
      ∃ d, rwFinish (idx.getD 0 0) s.disk = some (.ok d) ∧
        (∀ i, d.free i = (s.disk.free i || decide (i ∈ idx))) ∧
        ∀ i, d.desc i = if i ∈ idx then ⟨0, 0⟩ else s.disk.desc i) ∧
    (∃ d, virtio_disk_intr s.disk = some (.ok d) ∧ d.used_idx = s.disk.used.idx ∧
      ∀ b, d.bdisk b = true ↔ s.disk.bdisk b = true ∧ ∀ x ∈ usedQ s.disk, (s.disk.info x).b ≠ some b) ∧
    (inflight s).Nodup ∧
    ∀ x, x ∈ inflight s ↔
      ∃ p b w idx, s.calls p = .wait b w idx ∧ idx.getD 0 0 = x ∧ s.disk.bdisk b = true :=
  virtio_descriptors_exact (Reachable.init rfl)

end Safety

end Xv6.Virtio
