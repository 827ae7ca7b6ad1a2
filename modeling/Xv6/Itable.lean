import Xv6.Param
import Xv6.Lib.Reach

/-!
The in-memory inode table of `fs.c`, `itable.inode[NINODE]`, and the calls that move its
entries: `iget`, `idup` and `iput`.

`iget(dev, inum)` scans the table once. An entry in use (`ref > 0`) that holds the inode gets
one more reference; otherwise the first entry with `ref = 0` seen on the way is recycled for
the inode, and with none the kernel panics. `iput` drops a reference, except that the last
reference to a valid inode with no links first truncates and frees the inode with
`itable.lock` released: that branch is two critical sections, and other callers run between
them. The fields a holder reads and writes under the entry's sleep-lock (`valid`, `type`,
`major`, `nlink`, which `ilock` fills from the disk) take any values here.

Every step keeps `Unique`: no two entries in use hold the same inode. So `iget` of an inode in
use returns the entry every other holder has, and an entry in use is never recycled.
-/

namespace Xv6.Itable

open Xv6.Param Xv6.Lib.Reach

/-- The `type` of an inode (`stat.h`); `free` is the type `0` of an inode not allocated. -/
inductive IType
  | free | T_DIR | T_FILE | T_DEVICE
  deriving DecidableEq, Repr

/-- `struct inode` without its sleep-lock, `minor`, `size` and `addrs`. -/
structure Inode where
  dev : ℕ
  inum : ℕ
  ref : ℕ
  valid : Bool
  type : IType
  major : ℤ
  nlink : ℕ
  deriving DecidableEq, Repr

def Inode.zero : Inode := ⟨0, 0, 0, false, .free, 0, 0⟩

abbrev Table := Fin NINODE → Inode

def boot : Table := fun _ => Inode.zero

/-- Entry `ip` is in use and holds inode `inum` of `dev`: the test of `iget`'s loop. -/
def Holds (t : Table) (dev inum : ℕ) (ip : Fin NINODE) : Prop :=
  0 < (t ip).ref ∧ (t ip).dev = dev ∧ (t ip).inum = inum

instance (t : Table) (dev inum : ℕ) (ip : Fin NINODE) : Decidable (Holds t dev inum ip) := by
  unfold Holds; infer_instance

/-- The loop of `iget` over the entries `ips` still to scan; `empty` is the first entry seen
with `ref = 0`. -/
def igetLoop (t : Table) (dev inum : ℕ) :
    List (Fin NINODE) → Option (Fin NINODE) → Except String (Fin NINODE × Table)
  | [], none => .error "iget: no inodes"
  | [], some ip =>
    .ok (ip, Function.update t ip { t ip with dev := dev, inum := inum, ref := 1, valid := false })
  | ip :: ips, empty =>
    if Holds t dev inum ip then .ok (ip, Function.update t ip { t ip with ref := (t ip).ref + 1 })
    else igetLoop t dev inum ips (if empty = none ∧ (t ip).ref = 0 then some ip else empty)

def iget (t : Table) (dev inum : ℕ) : Except String (Fin NINODE × Table) :=
  igetLoop t dev inum (List.finRange NINODE) none

def idup (t : Table) (ip : Fin NINODE) : Table :=
  Function.update t ip { t ip with ref := (t ip).ref + 1 }

/-- The first critical section of `iput(ip)`. It returns `true` when the last reference to a
valid inode with no links enters the truncate-and-free branch, which releases `itable.lock`
with `ref` still `1`; otherwise the reference is dropped. -/
def iput (t : Table) (ip : Fin NINODE) : Bool × Table :=
  if (t ip).ref = 1 ∧ (t ip).valid = true ∧ (t ip).nlink = 0 then (true, t)
  else (false, Function.update t ip { t ip with ref := (t ip).ref - 1 })

/-- The rest of `iput`'s truncate-and-free branch: under the sleep-lock `itrunc`,
`ip->type = 0`, `iupdate` and `ip->valid = 0`, then under `itable.lock` again `ip->ref--`. -/
def iputFree (t : Table) (ip : Fin NINODE) : Table :=
  Function.update t ip { t ip with type := .free, valid := false, ref := (t ip).ref - 1 }

/-- What the callers of the table do, one critical section a step: `iget` (from `ialloc`,
`dirlookup`, `namex` and `ireclaim`), `idup` and the first section of `iput` on an entry the
caller holds, the end of `iput`'s truncate branch, and `write`: `ilock` filling an entry from
the disk, or a holder changing the fields it caches. The end of the truncate branch is allowed
on any entry in use, which every run of the source satisfies. -/
inductive Step : Table → Table → Prop
  | iget {t t' : Table} {dev inum : ℕ} {ip : Fin NINODE} :
      iget t dev inum = .ok (ip, t') → Step t t'
  | idup {t : Table} {ip : Fin NINODE} : 0 < (t ip).ref → Step t (idup t ip)
  | iput {t t' : Table} {ip : Fin NINODE} {b : Bool} :
      0 < (t ip).ref → iput t ip = (b, t') → Step t t'
  | iputFree {t : Table} {ip : Fin NINODE} : 0 < (t ip).ref → Step t (iputFree t ip)
  | write {t : Table} {ip : Fin NINODE} (e : Inode) : 0 < (t ip).ref → e.dev = (t ip).dev →
      e.inum = (t ip).inum → e.ref = (t ip).ref → Step t (Function.update t ip e)

/-! ## What `iget` returns -/

section Iget

variable {t : Table} {dev inum : ℕ}

/-- The loop of `iget` is two searches: the first entry that holds the inode, and failing
that the first entry with `ref = 0`, counting the one already remembered. -/
lemma igetLoop_eq (l : List (Fin NINODE)) (empty : Option (Fin NINODE)) :
    igetLoop t dev inum l empty =
      match l.find? (fun ip => decide (Holds t dev inum ip)) with
      | some ip => .ok (ip, Function.update t ip { t ip with ref := (t ip).ref + 1 })
      | none =>
        match empty.or (l.find? fun ip => decide ((t ip).ref = 0)) with
        | none => .error "iget: no inodes"
        | some ip => .ok (ip, Function.update t ip
            { t ip with dev := dev, inum := inum, ref := 1, valid := false }) := by
  induction l generalizing empty with
  | nil => cases empty <;> rfl
  | cons ip ips ih =>
    by_cases hh : Holds t dev inum ip
    · simp [igetLoop, hh]
    · -- the remembered entry after this one is the first free one so far
      have he : (if empty = none ∧ (t ip).ref = 0 then some ip else empty).or
          (ips.find? fun ip => decide ((t ip).ref = 0)) =
          empty.or ((ip :: ips).find? fun ip => decide ((t ip).ref = 0)) := by
        cases empty <;> by_cases hr : (t ip).ref = 0 <;> simp [hr]
      have hf : (ip :: ips).find? (fun ip => decide (Holds t dev inum ip)) =
          ips.find? (fun ip => decide (Holds t dev inum ip)) :=
        List.find?_cons_of_neg (by simpa using hh)
      rw [igetLoop, if_neg hh, ih, he, hf]

/-- **`iget` of an inode an entry holds** returns one such entry, with one more reference. -/
lemma iget_of_holds {j : Fin NINODE} (hj : Holds t dev inum j) :
    ∃ ip, Holds t dev inum ip ∧ iget t dev inum = .ok (ip, idup t ip) := by
  obtain ⟨ip, hip⟩ : ∃ ip, (List.finRange NINODE).find?
      (fun ip => decide (Holds t dev inum ip)) = some ip := by
    rw [← Option.isSome_iff_exists, List.find?_isSome]
    exact ⟨j, List.mem_finRange j, decide_eq_true hj⟩
  refine ⟨ip, by simpa using List.find?_some hip, ?_⟩
  rw [iget, igetLoop_eq, hip]
  rfl

/-- **`iget` of an inode no entry holds** recycles the first entry with `ref = 0`, and panics
when there is none. -/
lemma iget_of_not_holds (hn : ∀ j, ¬ Holds t dev inum j) :
    iget t dev inum =
      match (List.finRange NINODE).find? fun ip => decide ((t ip).ref = 0) with
      | none => .error "iget: no inodes"
      | some ip => .ok (ip, Function.update t ip
          { t ip with dev := dev, inum := inum, ref := 1, valid := false }) := by
  have hf : (List.finRange NINODE).find? (fun ip => decide (Holds t dev inum ip)) = none := by
    rw [List.find?_eq_none]
    exact fun j _ => by simp [hn j]
  rw [iget, igetLoop_eq, hf]
  rfl

lemma iget_ok {ip : Fin NINODE} {t' : Table} (h : iget t dev inum = .ok (ip, t')) :
    (Holds t dev inum ip ∧ t' = idup t ip) ∨
      ((∀ j, ¬ Holds t dev inum j) ∧ (t ip).ref = 0 ∧ t' = Function.update t ip
        { t ip with dev := dev, inum := inum, ref := 1, valid := false }) := by
  by_cases hh : ∃ j, Holds t dev inum j
  · obtain ⟨j, hj⟩ := hh
    obtain ⟨k, hk, he⟩ := iget_of_holds hj
    rw [he] at h
    cases h
    exact .inl ⟨hk, rfl⟩
  · simp only [not_exists] at hh
    rw [iget_of_not_holds hh] at h
    split at h
    · cases h
    · rename_i k hk
      cases h
      exact .inr ⟨hh, by simpa using List.find?_some hk, rfl⟩

/-- **`iget` panics exactly when** every entry is in use and none holds the inode. -/
lemma iget_eq_error_iff :
    (∃ msg, iget t dev inum = .error msg) ↔ (∀ j, 0 < (t j).ref) ∧ ∀ j, ¬ Holds t dev inum j := by
  by_cases hh : ∃ j, Holds t dev inum j
  · obtain ⟨j, hj⟩ := hh
    obtain ⟨k, -, he⟩ := iget_of_holds hj
    rw [he]
    exact iff_of_false (by simp) fun h => h.2 j hj
  · simp only [not_exists] at hh
    rw [iget_of_not_holds hh]
    cases hf : (List.finRange NINODE).find? fun ip => decide ((t ip).ref = 0) with
    | none =>
      rw [List.find?_eq_none] at hf
      refine iff_of_true ⟨_, rfl⟩ ⟨fun j => Nat.pos_of_ne_zero ?_, hh⟩
      simpa using hf j (List.mem_finRange j)
    | some k =>
      have hk : (t k).ref = 0 := by simpa using List.find?_some hf
      exact iff_of_false (by simp) fun h => absurd (h.1 k) (by omega)

end Iget

/-! ## No inode in two entries -/

/-- No two entries in use hold the same inode. -/
def Unique (t : Table) : Prop :=
  ∀ i j, 0 < (t i).ref → 0 < (t j).ref → (t i).dev = (t j).dev → (t i).inum = (t j).inum →
    i = j

section Unique

variable {t : Table}

lemma unique_boot : Unique boot := fun i _ hi => by simp [boot, Inode.zero] at hi

/-- **One entry rewritten.** The table stays `Unique` when the new entry, if in use, holds an
inode no other entry in use holds. -/
lemma Unique.update (h : Unique t) {i : Fin NINODE} {e : Inode}
    (he : 0 < e.ref → ∀ j, j ≠ i → ¬ Holds t e.dev e.inum j) :
    Unique (Function.update t i e) := by
  intro j k hj hk hd hn
  by_cases hji : j = i
  · by_cases hki : k = i
    · rw [hji, hki]
    · subst hji
      simp only [Function.update_self, Function.update_of_ne hki] at hj hk hd hn
      exact absurd ⟨hk, hd.symm, hn.symm⟩ (he hj k hki)
  · by_cases hki : k = i
    · subst hki
      simp only [Function.update_self, Function.update_of_ne hji] at hj hk hd hn
      exact absurd ⟨hj, hd, hn⟩ (he hk j hji)
    · simp only [Function.update_of_ne hji, Function.update_of_ne hki] at hj hk hd hn
      exact h j k hj hk hd hn

lemma Unique.update_same (h : Unique t) {i : Fin NINODE} {e : Inode} (hd : e.dev = (t i).dev)
    (hn : e.inum = (t i).inum) (hr : 0 < e.ref → 0 < (t i).ref) :
    Unique (Function.update t i e) := by
  refine h.update fun he j hji hj => hji ?_
  rw [hd, hn] at hj
  exact h j i hj.1 (hr he) hj.2.1 hj.2.2

lemma Unique.idup (h : Unique t) {ip : Fin NINODE} (hp : 0 < (t ip).ref) :
    Unique (idup t ip) :=
  h.update_same rfl rfl fun _ => hp

/-- **`iget` keeps the table `Unique`**: a recycled entry takes an inode no entry holds. -/
lemma Unique.iget (h : Unique t) {dev inum : ℕ} {ip : Fin NINODE} {t' : Table}
    (hg : iget t dev inum = .ok (ip, t')) : Unique t' := by
  rcases iget_ok hg with ⟨hh, rfl⟩ | ⟨hn, -, rfl⟩
  · exact h.idup hh.1
  · exact h.update fun _ j _ => hn j

lemma Unique.iput (h : Unique t) {ip : Fin NINODE} {b : Bool} {t' : Table}
    (hp : iput t ip = (b, t')) : Unique t' := by
  unfold Itable.iput at hp
  split_ifs at hp
  · cases hp
    exact h
  · cases hp
    exact h.update_same rfl rfl fun he => by simp at he; omega

lemma Unique.iputFree (h : Unique t) (ip : Fin NINODE) : Unique (iputFree t ip) :=
  h.update_same rfl rfl fun he => by simp at he; omega

lemma Unique.step {t' : Table} (h : Unique t) (hs : Step t t') : Unique t' := by
  cases hs with
  | iget hg => exact h.iget hg
  | idup hp => exact h.idup hp
  | iput _ hp => exact h.iput hp
  | iputFree _ => exact h.iputFree _
  | write e hp hd hn hr => exact h.update_same hd hn fun _ => hp

lemma Unique.run {t' : Table} (h : Unique t) (hs : Relation.ReflTransGen Step t t') :
    Unique t' := by
  induction hs with
  | refl => exact h
  | tail _ hst ih => exact ih.step hst

lemma unique_of_reach (hr : Reachable (· = boot) Step t) : Unique t :=
  hr.induct (P := Unique) (fun s (h : s = boot) => h ▸ unique_boot) fun _ _ _ hu hs => hu.step hs

end Unique

/-- **The inode table never holds two live copies of an inode.** In every table the callers
can reach, no two entries in use hold the same inode, and `iget` recycles only an entry with no
reference: an entry in use that it returns already held the inode, every entry in use that
holds the inode is the one returned, and that entry now holds the inode in use. -/
theorem itable_unique {t : Table} (hr : Reachable (· = boot) Step t) :
    (∀ i j, i ≠ j → 0 < (t i).ref → 0 < (t j).ref → (t i).dev = (t j).dev →
      (t i).inum ≠ (t j).inum) ∧
    ∀ dev inum ip t', iget t dev inum = .ok (ip, t') →
      (0 < (t ip).ref → (t ip).dev = dev ∧ (t ip).inum = inum) ∧
      (∀ j, Holds t dev inum j → ip = j) ∧
      (t' ip).dev = dev ∧ (t' ip).inum = inum ∧ 0 < (t' ip).ref := by
  have hu := unique_of_reach hr
  refine ⟨fun i j hij hi hj hd hn => hij (hu i j hi hj hd hn), fun dev inum ip t' hg => ?_⟩
  rcases iget_ok hg with ⟨hh, rfl⟩ | ⟨hn, h0, rfl⟩
  · refine ⟨fun _ => hh.2, fun j hj => hu ip j hh.1 hj.1 ?_ ?_, ?_⟩
    · rw [hh.2.1, hj.2.1]
    · rw [hh.2.2, hj.2.2]
    · simp [idup, hh.2.1, hh.2.2]
  · refine ⟨fun hp => by omega, fun j hj => absurd hj (hn j), ?_⟩
    simp

theorem itable_unique_boot :
    (∀ i j, i ≠ j → 0 < (boot i).ref → 0 < (boot j).ref → (boot i).dev = (boot j).dev →
      (boot i).inum ≠ (boot j).inum) ∧
    ∀ dev inum ip t', iget boot dev inum = .ok (ip, t') →
      (0 < (boot ip).ref → (boot ip).dev = dev ∧ (boot ip).inum = inum) ∧
      (∀ j, Holds boot dev inum j → ip = j) ∧
      (t' ip).dev = dev ∧ (t' ip).inum = inum ∧ 0 < (t' ip).ref :=
  itable_unique (Reachable.init rfl)

end Xv6.Itable
