import Xv6.Fs.Link
import Xv6.Lib.Tally

/-!
What the link counts of `Xv6.Link`'s calls keep: an inode's link count is at least the number of
names it has in the directories of the file system, plus, for a directory, one for the `..` of
each subdirectory named in it, plus one for the root (`need`). A name is an entry in use other
than `.` and `..`. So an inode with a name is never freed, `sys_unlink` never finds an inode with
no link, and a directory with a name keeps `.` and `..` as its first two entries, which is what
`isdirempty` skips.

The count is carried through each call by a ghost adjustment `δ` per inode number: a call takes
a link before it writes the name (`sys_link`), or writes the entry of a subdirectory before the
parent's link (`create`), and `δ` records the difference until the call evens it out. `DiskOK`
is the part of the invariant on the disk alone, with one lemma for each kind of write: a link
count, an entry added, an entry cleared, an inode allocated, an inode freed.
-/

namespace Xv6.Link

open Xv6.Param Xv6.Lib.Reach Xv6.Lib.Tally Xv6.Namei
open Xv6.Itable (IType Inode Table)

/-! ## Counting names -/

def Named (de : Dirent) : Prop := de.inum ≠ 0 ∧ de.name ≠ ['.'] ∧ de.name ≠ ['.', '.']

instance (de : Dirent) : Decidable (Named de) :=
  inferInstanceAs (Decidable (_ ∧ _ ∧ _))

def namesIn (des : List Dirent) (i : ℕ) : ℕ := des.countP fun de => Named de ∧ de.inum = i

def names (disk : ℕ → DInode) (N i : ℕ) : ℕ := ∑ d : Fin N, namesIn (disk d).dirents i

def subdirsIn (disk : ℕ → DInode) (des : List Dirent) : ℕ :=
  des.countP fun de => Named de ∧ (disk de.inum).type = .T_DIR

/-- The links inode `i` needs: one per name, one per `..` of a subdirectory named in it, and
one more for the root, whose `..` is itself. -/
def need (disk : ℕ → DInode) (N i : ℕ) : ℕ :=
  names disk N i + subdirsIn disk (disk i).dirents + if i = ROOTINO then 1 else 0

def Dotted (des : List Dirent) : Prop :=
  ∃ a b rest, des = ⟨a, ['.']⟩ :: ⟨b, ['.', '.']⟩ :: rest ∧ a ≠ 0 ∧ b ≠ 0

section Counts

variable {q : Dirent → Bool} {des : List Dirent} {k : ℕ}

lemma countP_set_free (hq : ∀ de, q de → de.inum ≠ 0) (hk : k < des.length)
    (h0 : des[k].inum = 0) (de : Dirent) :
    (des.set k de).countP q = des.countP q + if q de then 1 else 0 := by
  have hn : q des[k] = false := by
    cases hqk : q des[k]
    · rfl
    · exact absurd h0 (hq _ hqk)
  rw [List.countP_set hk, hn]
  simp

lemma countP_set_clear (hq : ∀ de, q de → de.inum ≠ 0) (hk : k < des.length) :
    (des.set k ⟨0, []⟩).countP q + (if q des[k] then 1 else 0) = des.countP q := by
  have h0 : q ⟨0, []⟩ = false := by
    cases hq0 : q ⟨0, []⟩
    · rfl
    · exact absurd rfl (hq _ hq0)
  have hle := List.boole_getElem_le_countP (p := q) hk
  rw [List.countP_set hk, h0]
  simp only [Bool.false_eq_true, if_false, Nat.add_zero]
  omega

/-- **Where `dirlink` writes**, the entries count what they counted and the new entry. -/
lemma countP_addEntry (hq : ∀ de, q de → de.inum ≠ 0) {de : Dirent} {room : Bool}
    {des' : List Dirent} (h : addEntry des de room = some des') :
    des'.countP q = des.countP q + if q de then 1 else 0 := by
  unfold addEntry at h
  split at h
  · rename_i k hk
    obtain ⟨hlt, h0, -⟩ := List.findIdx?_eq_some_iff_getElem.mp hk
    cases h
    exact countP_set_free hq hlt (by simpa using h0) de
  · split_ifs at h
    cases h
    simp [List.countP_append]

end Counts

lemma Dotted.addEntry {des des' : List Dirent} {de : Dirent} {room : Bool} (hd : Dotted des)
    (h : addEntry des de room = some des') : Dotted des' := by
  obtain ⟨a, b, rest, rfl, ha, hb⟩ := hd
  have hf : (⟨a, ['.']⟩ :: ⟨b, ['.', '.']⟩ :: rest : List Dirent).findIdx?
      (fun de => de.inum = 0) = (rest.findIdx? fun de => de.inum = 0).map (· + 2) := by
    simp [List.findIdx?_cons, ha, hb, Option.map_map, Function.comp_def]
  unfold Xv6.Link.addEntry at h
  rw [hf] at h
  cases hk : rest.findIdx? (fun de => de.inum = 0) with
  | some k =>
    rw [hk] at h
    cases h
    exact ⟨a, b, rest.set k de, rfl, ha, hb⟩
  | none =>
    rw [hk] at h
    simp only [Option.map_none] at h
    split_ifs at h
    cases h
    exact ⟨a, b, rest ++ [de], rfl, ha, hb⟩

lemma Dotted.set_named {des : List Dirent} (hd : Dotted des) {k : ℕ} (hk : k < des.length)
    (hn : Named des[k]) (e : Dirent) : Dotted (des.set k e) := by
  obtain ⟨a, b, rest, rfl, ha, hb⟩ := hd
  match k, hk, hn with
  | 0, _, hn => exact absurd rfl hn.2.1
  | 1, _, hn => exact absurd rfl hn.2.2
  | j + 2, _, _ => exact ⟨a, b, rest.set j e, rfl, ha, hb⟩

section Disk

variable {disk : ℕ → DInode} {N : ℕ}

lemma names_update (disk : ℕ → DInode) {x : ℕ} (hx : x < N) (d : DInode) (i : ℕ) :
    names (Function.update disk x d) N i + namesIn (disk x).dirents i =
      names disk N i + namesIn d.dirents i := by
  have hf : ∀ j : Fin N, Function.update disk x d j =
      Function.update (fun j : Fin N => disk j) ⟨x, hx⟩ d j := by
    intro j
    by_cases hj : j = ⟨x, hx⟩
    · subst hj
      simp
    · have : (j : ℕ) ≠ x := fun h => hj (Fin.ext h)
      simp [Function.update_of_ne this, Function.update_of_ne hj]
  unfold names
  simp only [hf]
  exact sum_update_add (fun d : DInode => namesIn d.dirents i) (fun j : Fin N => disk j) ⟨x, hx⟩ d

lemma subdirsIn_update_of_type {x : ℕ} {d : DInode} (ht : d.type = (disk x).type)
    (des : List Dirent) : subdirsIn (Function.update disk x d) des = subdirsIn disk des := by
  unfold subdirsIn
  refine List.countP_congr fun de _ => ?_
  by_cases hx : de.inum = x
  · rw [hx]
    simp [ht]
  · simp [Function.update_of_ne hx]

/-- **A write to inode `x` that keeps its type** changes what each inode needs only through the
names in `x`'s entries, and, for `x`, its subdirectories. -/
lemma need_update_of_type (disk : ℕ → DInode) {x : ℕ} (hx : x < N) {d : DInode} (ht : d.type = (disk x).type)
    (i : ℕ) :
    need (Function.update disk x d) N i + namesIn (disk x).dirents i +
        (if i = x then subdirsIn disk (disk x).dirents else 0) =
      need disk N i + namesIn d.dirents i + (if i = x then subdirsIn disk d.dirents else 0) := by
  have hn := names_update disk hx d i
  unfold need
  rw [subdirsIn_update_of_type ht]
  by_cases hi : i = x
  · subst hi
    simp only [Function.update_self, if_true]
    omega
  · simp only [Function.update_of_ne hi, hi, if_false]
    omega

lemma namesIn_eq_zero {x : ℕ} (h : names disk N x = 0) {d : ℕ} (hd : d < N) :
    namesIn (disk d).dirents x = 0 := by
  have := Finset.sum_eq_zero_iff.mp h ⟨d, hd⟩ (Finset.mem_univ _)
  simpa using this

lemma namesIn_pos {des : List Dirent} {de : Dirent} (hde : de ∈ des) (hn : Named de) :
    0 < namesIn des de.inum :=
  List.countP_pos_iff.mpr ⟨de, hde, by simp [hn]⟩

end Disk

/-! ## The disk's part of the invariant -/

/-- What the disk keeps, with the adjustment `δ` of a call in progress: free inodes are empty
and lie outside `1 … N-1`, each inode has the links it needs, a directory with a name starts
with `.` and `..`, and no directory has a name of itself. -/
structure DiskOK (N : ℕ) (disk : ℕ → DInode) (δ : ℕ → ℤ) : Prop where
  free : ∀ d, (disk d).type = .free → (disk d).nlink = 0 ∧ (disk d).dirents = []
  zero : (disk 0).type = .free
  beyond : ∀ d, N ≤ d → (disk d).type = .free
  links : ∀ i, 0 < i → (need disk N i : ℤ) ≤ (disk i).nlink + δ i
  dots : ∀ d, (disk d).type = .T_DIR → 0 < names disk N d → Dotted (disk d).dirents
  /-- A directory names itself only by `.`. -/
  self : ∀ d, namesIn (disk d).dirents d = 0

namespace DiskOK

variable {N : ℕ} {disk : ℕ → DInode} {δ δ' : ℕ → ℤ}

lemma mono (h : DiskOK N disk δ) (hδ : ∀ i, δ i ≤ δ' i) : DiskOK N disk δ' :=
  { h with links := fun i hi => (h.links i hi).trans (by linarith [hδ i]) }

lemma lt_of_alloc (h : DiskOK N disk δ) {x : ℕ} (hx : (disk x).type ≠ .free) : 0 < x ∧ x < N := by
  refine ⟨Nat.pos_of_ne_zero fun h0 => hx (h0 ▸ h.zero), ?_⟩
  by_contra hN
  exact hx (h.beyond x (Nat.le_of_not_lt hN))

lemma need_zero (h : DiskOK N disk δ) {x : ℕ} (hx : 0 < x) (hn : (disk x).nlink = 0)
    (hδ : δ x ≤ 0) : need disk N x = 0 := by
  have := h.links x hx
  rw [hn] at this
  push_cast at this
  omega

/-- **A link count written.** Setting the major and link count of an allocated inode `x`
moves its adjustment by the change in links. -/
lemma setNlink (h : DiskOK N disk δ) {x : ℕ} (hx : (disk x).type ≠ .free) (m : ℤ) (n : ℕ) :
    DiskOK N (Function.update disk x { disk x with major := m, nlink := n })
      (fun i => δ i + if i = x then ((disk x).nlink : ℤ) - n else 0) := by
  obtain ⟨-, hxN⟩ := h.lt_of_alloc hx
  have hneed := need_update_of_type disk hxN (d := { disk x with major := m, nlink := n })
    rfl
  constructor
  · intro d hd
    by_cases hdx : d = x
    · subst hdx
      simp at hd
      exact absurd hd hx
    · rw [Function.update_of_ne hdx] at hd ⊢
      exact h.free d hd
  · rw [Function.update_of_ne (h.lt_of_alloc hx).1.ne]
    exact h.zero
  · intro d hd
    rw [Function.update_of_ne (by omega)]
    exact h.beyond d hd
  · intro i hi
    have hl := h.links i hi
    have hni := hneed i
    by_cases hix : i = x
    · subst hix
      simp only [Function.update_self, if_true] at hni ⊢
      omega
    · simp only [Function.update_of_ne hix, hix, if_false] at hni ⊢
      omega
  · intro d hd hpos
    have hn : names (Function.update disk x { disk x with major := m, nlink := n }) N d +
        namesIn (disk x).dirents d = names disk N d + namesIn (disk x).dirents d :=
      names_update _ hxN _ d
    by_cases hdx : d = x
    · subst hdx
      simp only [Function.update_self] at hd hpos hn ⊢
      exact h.dots d hd (by omega)
    · rw [Function.update_of_ne hdx] at hd ⊢
      exact h.dots d hd (by omega)
  · intro d
    by_cases hdx : d = x
    · subst hdx
      simpa using h.self d
    · rw [Function.update_of_ne hdx]
      exact h.self d

/-- **An entry added.** `dirlink` writes `de` into directory `x`: it adds a name of
`de.inum` and, when that is a directory, a subdirectory of `x`. A directory that gets its
first name has `.` and `..` (`hdots`). -/
lemma add (h : DiskOK N disk δ) {x : ℕ} (hx : (disk x).type = .T_DIR) {de : Dirent}
    {room : Bool} {des' : List Dirent} (ha : addEntry (disk x).dirents de room = some des')
    (hdots : Named de → (disk de.inum).type = .T_DIR → Dotted (disk de.inum).dirents)
    (hself : Named de → de.inum ≠ x) :
    DiskOK N (Function.update disk x { disk x with dirents := des' })
      (fun i => δ i + (if Named de ∧ de.inum = i then 1 else 0) +
        (if i = x ∧ Named de ∧ (disk de.inum).type = .T_DIR then 1 else 0)) := by
  have hxa : (disk x).type ≠ .free := by rw [hx]; exact nofun
  obtain ⟨hx0, hxN⟩ := h.lt_of_alloc hxa
  have hA : ∀ i, namesIn des' i =
      namesIn (disk x).dirents i + if Named de ∧ de.inum = i then 1 else 0 := fun i => by
    simpa [namesIn] using countP_addEntry (q := fun de => decide (Named de ∧ de.inum = i))
      (fun _ hq => by simp at hq; exact hq.1.1) ha
  have hB : subdirsIn disk des' =
      subdirsIn disk (disk x).dirents + if Named de ∧ (disk de.inum).type = .T_DIR then 1 else 0 := by
    simpa [subdirsIn] using countP_addEntry
      (q := fun de => decide (Named de ∧ (disk de.inum).type = .T_DIR))
      (fun _ hq => by simp at hq; exact hq.1.1) ha
  have hnames : ∀ i, names (Function.update disk x { disk x with dirents := des' }) N i =
      names disk N i + if Named de ∧ de.inum = i then 1 else 0 := fun i => by
    have := names_update disk hxN { disk x with dirents := des' } i
    have := hA i
    simp only at *
    omega
  -- the old entries were `.`/`..`-first whenever the directory had a name or gets one
  have hdx : 0 < names disk N x ∨ (Named de ∧ de.inum = x) → Dotted des' := by
    rintro (hpos | ⟨hn, rfl⟩)
    · exact (h.dots x hx hpos).addEntry ha
    · exact (hdots hn hx).addEntry ha
  constructor
  · intro d hd
    by_cases hd' : d = x
    · subst hd'
      simp only [Function.update_self] at hd
      exact absurd hd hxa
    · rw [Function.update_of_ne hd'] at hd ⊢
      exact h.free d hd
  · rw [Function.update_of_ne hx0.ne]
    exact h.zero
  · intro d hd
    rw [Function.update_of_ne (by omega)]
    exact h.beyond d hd
  · intro i hi
    have hl := h.links i hi
    have hneed := need_update_of_type disk hxN (d := { disk x with dirents := des' })
      rfl i
    simp only at hneed
    rw [hA i, hB] at hneed
    by_cases hix : i = x
    · subst hix
      simp only [Function.update_self, if_true, true_and] at hneed ⊢
      split_ifs at hneed ⊢ <;> omega
    · simp only [Function.update_of_ne hix, hix, if_false, false_and] at hneed ⊢
      split_ifs at hneed ⊢ <;> omega
  · intro d hd hpos
    rw [hnames] at hpos
    by_cases hd' : d = x
    · subst hd'
      simp only [Function.update_self]
      refine hdx ?_
      split_ifs at hpos with hc
      · exact .inr hc
      · exact .inl (by omega)
    · rw [Function.update_of_ne hd'] at hd ⊢
      split_ifs at hpos with hc
      · by_cases hp : 0 < names disk N d
        · exact h.dots d hd hp
        · rw [← hc.2]
          rw [← hc.2] at hd
          exact hdots hc.1 hd
      · exact h.dots d hd (by omega)
  · intro d
    by_cases hd' : d = x
    · subst hd'
      simp only [Function.update_self]
      rw [hA d, h.self d]
      split_ifs with hc
      · exact absurd hc.2 (hself hc.1)
      · rfl
    · rw [Function.update_of_ne hd']
      exact h.self d

/-- **An entry cleared.** `sys_unlink` zeroes entry `k` of directory `x`, a name: it takes away
a name of its inode and, when that is a directory, a subdirectory of `x`. -/
lemma clear (h : DiskOK N disk δ) {x k : ℕ} (hk : k < (disk x).dirents.length)
    (hn : Named (disk x).dirents[k]) :
    DiskOK N (Function.update disk x { disk x with dirents := (disk x).dirents.set k ⟨0, []⟩ })
      (fun i => δ i - (if (disk x).dirents[k].inum = i then 1 else 0) -
        (if i = x ∧ (disk (disk x).dirents[k].inum).type = .T_DIR then 1 else 0)) := by
  have hxa : (disk x).type ≠ .free := fun hf => by
    rw [(h.free x hf).2] at hk
    cases hk
  obtain ⟨hx0, hxN⟩ := h.lt_of_alloc hxa
  have hA : ∀ i, namesIn ((disk x).dirents.set k ⟨0, []⟩) i +
      (if (disk x).dirents[k].inum = i then 1 else 0) = namesIn (disk x).dirents i := fun i => by
    simpa [namesIn, hn] using countP_set_clear (q := fun de => decide (Named de ∧ de.inum = i))
      (fun _ hq => by simp at hq; exact hq.1.1) hk
  have hB : subdirsIn disk ((disk x).dirents.set k ⟨0, []⟩) +
      (if (disk (disk x).dirents[k].inum).type = .T_DIR then 1 else 0) =
        subdirsIn disk (disk x).dirents := by
    simpa [subdirsIn, hn] using countP_set_clear
      (q := fun de => decide (Named de ∧ (disk de.inum).type = .T_DIR))
      (fun _ hq => by simp at hq; exact hq.1.1) hk
  have hnames : ∀ i, names (Function.update disk x
      { disk x with dirents := (disk x).dirents.set k ⟨0, []⟩ }) N i ≤ names disk N i := fun i => by
    have := names_update disk hxN
      { disk x with dirents := (disk x).dirents.set k ⟨0, []⟩ } i
    have := hA i
    simp only at *
    omega
  constructor
  · intro d hd
    by_cases hd' : d = x
    · subst hd'
      simp only [Function.update_self] at hd
      exact absurd hd hxa
    · rw [Function.update_of_ne hd'] at hd ⊢
      exact h.free d hd
  · rw [Function.update_of_ne hx0.ne]
    exact h.zero
  · intro d hd
    rw [Function.update_of_ne (by omega)]
    exact h.beyond d hd
  · intro i hi
    have hl := h.links i hi
    have hneed := need_update_of_type disk hxN
      (d := { disk x with dirents := (disk x).dirents.set k ⟨0, []⟩ }) rfl i
    simp only at hneed
    have hAi := hA i
    by_cases hix : i = x
    · subst hix
      simp only [Function.update_self, if_true, true_and] at hneed ⊢
      split_ifs at hneed hAi hB ⊢ <;> omega
    · simp only [Function.update_of_ne hix, hix, if_false, false_and] at hneed ⊢
      split_ifs at hneed hAi ⊢ <;> omega
  · intro d hd hpos
    have hp := lt_of_lt_of_le hpos (hnames d)
    by_cases hd' : d = x
    · subst hd'
      simp only [Function.update_self] at hd ⊢
      exact (h.dots d hd hp).set_named hk hn _
    · rw [Function.update_of_ne hd'] at hd ⊢
      exact h.dots d hd hp
  · intro d
    by_cases hd' : d = x
    · subst hd'
      simp only [Function.update_self]
      have := hA d
      rw [h.self d] at this
      omega
    · rw [Function.update_of_ne hd']
      exact h.self d

lemma named_ne (h : DiskOK N disk δ) {x : ℕ} (hx : names disk N x = 0) {i : ℕ} {de : Dirent}
    (hde : de ∈ (disk i).dirents) (hn : Named de) : de.inum ≠ x := by
  rintro rfl
  by_cases hi : i < N
  · have := namesIn_pos hde hn
    rw [namesIn_eq_zero hx hi] at this
    exact absurd this (lt_irrefl 0)
  · rw [(h.free i (h.beyond i (Nat.le_of_not_lt hi))).2] at hde
    cases hde

lemma subdirsIn_update_of_names (h : DiskOK N disk δ) {x : ℕ} (hx : names disk N x = 0)
    (d : DInode) (i : ℕ) :
    subdirsIn (Function.update disk x d) (disk i).dirents = subdirsIn disk (disk i).dirents := by
  unfold subdirsIn
  refine List.countP_congr fun de hde => ?_
  by_cases hn : Named de
  · simp [hn, Function.update_of_ne (h.named_ne hx hde hn)]
  · simp [hn]

/-- **An inode allocated.** `ialloc` zeroes a free inode of `1 … N-1` and gives it a type: it
has no name, no entries and no links, and is not the root. -/
lemma alloc (h : DiskOK N disk δ) {x : ℕ} (hfree : (disk x).type = .free) (hx0 : 0 < x)
    (hxN : x < N) (hδ : ∀ i, δ i ≤ 0) (t : IType) :
    DiskOK N (Function.update disk x ⟨t, 0, 0, []⟩) δ := by
  obtain ⟨hnl, hde⟩ := h.free x hfree
  have hlx := h.links x hx0
  rw [hnl] at hlx
  have hδx : 0 ≤ δ x := by push_cast at hlx; omega
  have hnx : names disk N x = 0 := by
    have := hδ x
    unfold need at hlx
    push_cast at hlx
    omega
  -- the root has a link, so it is not free
  have hxr : x ≠ ROOTINO := by
    rintro rfl
    have := hδ ROOTINO
    unfold need at hlx
    simp at hlx
    omega
  have hnames : ∀ i, names (Function.update disk x ⟨t, 0, 0, []⟩) N i = names disk N i := by
    intro i
    have := names_update disk hxN ⟨t, 0, 0, []⟩ i
    rw [hde] at this
    simpa [namesIn] using this
  constructor
  · intro d hd
    by_cases hdx : d = x
    · subst hdx
      simp
    · rw [Function.update_of_ne hdx] at hd ⊢
      exact h.free d hd
  · rw [Function.update_of_ne hx0.ne]
    exact h.zero
  · intro d hd
    rw [Function.update_of_ne (by omega)]
    exact h.beyond d hd
  · intro i hi
    by_cases hix : i = x
    · subst hix
      simp [need, hnames, hnx, subdirsIn, hxr, hδx]
    · have hl := h.links i hi
      unfold need at hl ⊢
      rw [Function.update_of_ne hix, hnames, h.subdirsIn_update_of_names hnx]
      exact hl
  · intro d hd hpos
    rw [hnames] at hpos
    by_cases hdx : d = x
    · subst hdx
      omega
    · rw [Function.update_of_ne hdx] at hd ⊢
      exact h.dots d hd hpos
  · intro d
    by_cases hdx : d = x
    · subst hdx
      simp [namesIn]
    · rw [Function.update_of_ne hdx]
      exact h.self d

/-- **An inode freed.** `iput` writes a free, empty inode over an allocated one with no link
and no adjustment: it had no name. -/
lemma free_inode (h : DiskOK N disk δ) {x : ℕ} (hx : (disk x).type ≠ .free)
    (hn : (disk x).nlink = 0) (hδ : δ x ≤ 0) (m : ℤ) :
    DiskOK N (Function.update disk x ⟨.free, m, 0, []⟩) δ := by
  obtain ⟨hx0, hxN⟩ := h.lt_of_alloc hx
  have hneed := h.need_zero hx0 hn hδ
  have hlx := h.links x hx0
  rw [hn, hneed] at hlx
  have hnx : names disk N x = 0 := by unfold need at hneed; omega
  have hnames : ∀ i, names (Function.update disk x ⟨.free, m, 0, []⟩) N i ≤ names disk N i := by
    intro i
    have := names_update disk hxN ⟨.free, m, 0, []⟩ i
    simp only [namesIn, List.countP_nil, Nat.add_zero] at this
    omega
  constructor
  · intro d hd
    by_cases hdx : d = x
    · subst hdx
      simp
    · rw [Function.update_of_ne hdx] at hd ⊢
      exact h.free d hd
  · rw [Function.update_of_ne hx0.ne]
    exact h.zero
  · intro d hd
    rw [Function.update_of_ne (by omega)]
    exact h.beyond d hd
  · intro i hi
    by_cases hix : i = x
    · subst hix
      have hxr : i ≠ ROOTINO := by
        intro hr
        unfold need at hneed
        simp [hr] at hneed
      have := hnames i
      simp only [need, Function.update_self, subdirsIn, List.countP_nil, hxr, if_false]
      push_cast
      omega
    · have hl := h.links i hi
      have := hnames i
      unfold need at hl ⊢
      rw [Function.update_of_ne hix, h.subdirsIn_update_of_names hnx]
      push_cast at hl ⊢
      omega
  · intro d hd hpos
    by_cases hdx : d = x
    · subst hdx
      simp at hd
    · rw [Function.update_of_ne hdx] at hd ⊢
      exact h.dots d hd (lt_of_lt_of_le hpos (hnames d))
  · intro d
    by_cases hdx : d = x
    · subst hdx
      simp [namesIn]
    · rw [Function.update_of_ne hdx]
      exact h.self d

end DiskOK

end Xv6.Link
