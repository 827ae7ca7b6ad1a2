import Xv6.Param
import Xv6.Lib.Reach

/-!
Directory entries byte by byte: `namecmp`, `dirlookup` and `dirlink` of `fs.c`, over `strncmp`
and `strncpy` of `string.c`, and the clearing of an entry by `sys_unlink`.

A directory is its entries in order, entry `i` at offset `i * sizeof(struct dirent)`. A name is
the bytes of a C string, read as `0` past its end; a name `skipelem` copied without a NUL is its
`DIRSIZ` bytes, and nothing here reads further. `writei` of one entry is taken as its outcome:
it replaces an entry in place, or at `dp->size` appends one when `writei`'s `MAXFILE` check
passes and `bmap` finds a block where a new one begins (`room`). `Namei` reads a name as the
bytes before its NUL and compares their first `DIRSIZ`; `namecmp_iff_take` is that reading.

Two strings agree under `strncmp(s, t, n)` exactly when their first `n` bytes before a NUL do
(`strncmp_eq_zero_iff`), and `strncpy` keeps those bytes (`cstr_strncpy`), so the entries in
use keep names that `namecmp` tells apart. The inode number is stored in a `ushort`: `dirlink`
of an inode number that is a multiple of `2^16` stores an entry not in use.
-/

namespace Xv6.Dir

open Xv6.Param Xv6.Lib.Reach

def DIRSIZ : ℕ := 14
/-- `sizeof(struct dirent)`: a `ushort` and `DIRSIZ` bytes. -/
def DIRENT : ℕ := 16

/-! ### Strings -/

def strncmp : List UInt8 → List UInt8 → ℕ → ℤ
  | _, _, 0 => 0
  | p, q, n + 1 =>
    if p.headD 0 ≠ 0 ∧ p.headD 0 = q.headD 0 then strncmp p.tail q.tail n
    else ((p.headD 0).toNat : ℤ) - (q.headD 0).toNat

/-- The `n` bytes `strncpy(s, t, n)` leaves at `s`: those of `t` up to its NUL, then NULs. -/
def strncpy : List UInt8 → ℕ → List UInt8
  | _, 0 => []
  | t, n + 1 => if t.headD 0 = 0 then List.replicate (n + 1) 0 else t.headD 0 :: strncpy t.tail n

/-- What `strncmp(_, _, n)` compares of a string: its first `n` bytes before a NUL. -/
def cstr (n : ℕ) (s : List UInt8) : List UInt8 := (s.takeWhile (· ≠ 0)).take n

lemma cstr_zero (s : List UInt8) : cstr 0 s = [] := rfl

lemma cstr_succ (n : ℕ) (s : List UInt8) :
    cstr (n + 1) s = if s.headD 0 = 0 then [] else s.headD 0 :: cstr n s.tail := by
  cases s with
  | nil => simp [cstr]
  | cons a s => by_cases ha : a = 0 <;> simp [cstr, ha]

theorem strncmp_eq_zero_iff (n : ℕ) (p q : List UInt8) :
    strncmp p q n = 0 ↔ cstr n p = cstr n q := by
  induction n generalizing p q with
  | zero => simp [strncmp, cstr_zero]
  | succ n ih =>
    rw [strncmp, cstr_succ, cstr_succ]
    generalize p.headD 0 = a, q.headD 0 = b
    by_cases hab : a = b
    · subst hab
      by_cases ha : a = 0 <;> simp [ha, ih]
    · have hne : (a.toNat : ℤ) - b.toNat ≠ 0 := fun h => hab (UInt8.toNat_inj.mp (by omega))
      rw [if_neg fun h => hab h.2, iff_false_intro hne, false_iff]
      split_ifs <;> simp_all

lemma cstr_replicate_zero (n k : ℕ) : cstr n (List.replicate k 0) = [] := by
  cases k with
  | zero => simp [cstr]
  | succ k => simp [cstr, List.replicate_succ]

theorem cstr_strncpy (n : ℕ) (t : List UInt8) : cstr n (strncpy t n) = cstr n t := by
  induction n generalizing t with
  | zero => rfl
  | succ n ih =>
    by_cases ht : t.headD 0 = 0
    · rw [strncpy, if_pos ht, cstr_replicate_zero, cstr_succ, if_pos ht]
    · rw [strncpy, if_neg ht, cstr_succ, cstr_succ]
      simp only [List.headD_cons, List.tail_cons, if_neg ht, ih]

lemma cstr_of_nul_free {s : List UInt8} (hs : 0 ∉ s) (n : ℕ) : cstr n s = s.take n := by
  rw [cstr, List.takeWhile_eq_self_iff.mpr]
  intro a ha
  simpa using ne_of_mem_of_not_mem ha hs

/-! ### Entries -/

/-- `struct dirent`: `inum` a `ushort`, `name` the bytes of its `DIRSIZ` array. -/
structure Dirent where
  inum : ℕ
  name : List UInt8
  deriving DecidableEq, Repr

def namecmp (s t : List UInt8) : ℤ := strncmp s t DIRSIZ

lemma namecmp_eq_zero_iff (s t : List UInt8) : namecmp s t = 0 ↔ cstr DIRSIZ s = cstr DIRSIZ t :=
  strncmp_eq_zero_iff DIRSIZ s t

lemma namecmp_comm (s t : List UInt8) : namecmp s t = 0 ↔ namecmp t s = 0 := by
  rw [namecmp_eq_zero_iff, namecmp_eq_zero_iff, eq_comm]

lemma namecmp_trans {s t u : List UInt8} (h₁ : namecmp s t = 0) (h₂ : namecmp t u = 0) :
    namecmp s u = 0 := by
  rw [namecmp_eq_zero_iff] at *
  exact h₁.trans h₂

/-- `Namei` compares names by their first `DIRSIZ` bytes: `namecmp` does, on names without a
NUL. -/
theorem namecmp_iff_take {s t : List UInt8} (hs : 0 ∉ s) (ht : 0 ∉ t) :
    namecmp s t = 0 ↔ s.take DIRSIZ = t.take DIRSIZ := by
  rw [namecmp_eq_zero_iff, cstr_of_nul_free hs, cstr_of_nul_free ht]

/-- The loop of `dirlookup(dp, name, poff)` from offset `off`: the offset and inode number of the
first entry in use whose name `namecmp` matches. -/
def lookupFrom (name : List UInt8) : List Dirent → ℕ → Option (ℕ × ℕ)
  | [], _ => none
  | de :: dp, off =>
    if de.inum = 0 then lookupFrom name dp (off + DIRENT)
    else if namecmp name de.name = 0 then some (off, de.inum)
    else lookupFrom name dp (off + DIRENT)

/-- `dirlookup(dp, name, &off)`: where the entry is and its inode number, which it `iget`s. -/
def dirlookup (dp : List Dirent) (name : List UInt8) : Option (ℕ × ℕ) := lookupFrom name dp 0

/-- The second loop of `dirlink` from offset `off`: the offset of the first entry not in use,
or `dp->size`. -/
def freeFrom : List Dirent → ℕ → ℕ
  | [], off => off
  | de :: dp, off => if de.inum = 0 then off else freeFrom dp (off + DIRENT)

/-- `writei(dp, 0, &de, off, sizeof(de))` at an offset of an entry or at `dp->size`: it replaces
the entry, or appends one if the file stays within `MAXFILE` blocks and, where a new block
begins, `bmap` finds one. -/
def writeDirent (dp : List Dirent) (off : ℕ) (de : Dirent) (room : Bool) : Option (List Dirent) :=
  if off < dp.length * DIRENT then some (dp.set (off / DIRENT) de)
  else if MAXFILE * BSIZE < off + DIRENT then none
  else if off % BSIZE = 0 ∧ room = false then none
  else some (dp ++ [de])

/-- The entry `dirlink` writes: the inode number cut to the `ushort`, the name by `strncpy`. -/
def newDirent (name : List UInt8) (inum : ℕ) : Dirent := ⟨inum % 2 ^ 16, strncpy name DIRSIZ⟩

def dirlink (dp : List Dirent) (name : List UInt8) (inum : ℕ) (room : Bool) :
    ℤ × List Dirent :=
  match dirlookup dp name with
  | some _ => (-1, dp)
  | none =>
    match writeDirent dp (freeFrom dp 0) (newDirent name inum) room with
    | some dp' => (0, dp')
    | none => (-1, dp)

/-- The entry `sys_unlink` clears: `dirlookup(dp, name, &off)`, then `writei` of a zeroed entry
at `off`. -/
def unlinkEntry (dp : List Dirent) (name : List UInt8) : List Dirent :=
  match dirlookup dp name with
  | some (off, _) => dp.set (off / DIRENT) ⟨0, List.replicate DIRSIZ 0⟩
  | none => dp

/-! ### The loops -/

def Hit (name : List UInt8) (de : Dirent) : Prop := de.inum ≠ 0 ∧ namecmp name de.name = 0

instance (name : List UInt8) (de : Dirent) : Decidable (Hit name de) :=
  inferInstanceAs (Decidable (_ ∧ _))

lemma lookupFrom_cons (name : List UInt8) (de : Dirent) (dp : List Dirent) (off : ℕ) :
    lookupFrom name (de :: dp) off =
      if Hit name de then some (off, de.inum) else lookupFrom name dp (off + DIRENT) := by
  by_cases h0 : de.inum = 0 <;> by_cases hn : namecmp name de.name = 0 <;>
    simp [lookupFrom, Hit, h0, hn]

lemma lookupFrom_eq_none_iff (name : List UInt8) (dp : List Dirent) (off : ℕ) :
    lookupFrom name dp off = none ↔ ∀ de ∈ dp, ¬ Hit name de := by
  induction dp generalizing off with
  | nil => simp [lookupFrom]
  | cons de dp ih => by_cases h : Hit name de <;> simp [lookupFrom_cons, h, ih]

lemma lookupFrom_append_cons (name : List UInt8) {pre post : List Dirent} {de : Dirent}
    (hpre : ∀ d ∈ pre, ¬ Hit name d) (hde : Hit name de) (off : ℕ) :
    lookupFrom name (pre ++ de :: post) off = some (off + pre.length * DIRENT, de.inum) := by
  induction pre generalizing off with
  | nil => simp [lookupFrom_cons, hde]
  | cons d pre ih =>
    rw [List.cons_append, lookupFrom_cons, if_neg (hpre d (by simp)),
      ih (fun d' hd' => hpre d' (by simp [hd'])) (off + DIRENT)]
    simp only [List.length_cons]
    congr 2
    ring

lemma freeFrom_eq (dp : List Dirent) (off : ℕ) :
    freeFrom dp off = off + dp.findIdx (fun de => de.inum = 0) * DIRENT := by
  induction dp generalizing off with
  | nil => simp [freeFrom]
  | cons de dp ih =>
    by_cases h : de.inum = 0
    · simp [freeFrom, h, List.findIdx_cons]
    · simp only [freeFrom, h, if_false, ih, List.findIdx_cons, decide_false, cond_false]
      ring

/-! ### Names in use are unique -/

/-- No two entries in use have names that `namecmp` matches. -/
def Unique (dp : List Dirent) : Prop :=
  dp.Pairwise fun a b => a.inum ≠ 0 → b.inum ≠ 0 → namecmp a.name b.name ≠ 0

lemma unique_insert {pre post : List Dirent} {de : Dirent} (h : Unique (pre ++ post))
    (hde : de.inum ≠ 0 → ∀ d ∈ pre ++ post, d.inum ≠ 0 → namecmp de.name d.name ≠ 0) :
    Unique (pre ++ de :: post) := by
  have hsym : ∀ d ∈ pre ++ post, d.inum ≠ 0 → de.inum ≠ 0 → namecmp d.name de.name ≠ 0 :=
    fun d hd h₁ h₂ hn => hde h₂ d hd h₁ ((namecmp_comm _ _).mp hn)
  obtain ⟨hpre, hpost, hcross⟩ := List.pairwise_append.mp h
  refine List.pairwise_append.mpr ⟨hpre, List.pairwise_cons.mpr ⟨?_, hpost⟩, ?_⟩
  · exact fun d hd h₁ h₂ => hde h₁ d (by simp [hd]) h₂
  · intro a ha b hb
    rcases List.mem_cons.mp hb with rfl | hb
    · exact hsym a (by simp [ha])
    · exact hcross a ha b hb

lemma unique_set_unused {dp : List Dirent} (h : Unique dp) {i : ℕ} {de : Dirent}
    (hde : de.inum = 0) : Unique (dp.set i de) := by
  rw [List.set_eq_take_append_cons_drop]
  split_ifs with hi
  · have hsub : (dp.take i ++ dp.drop (i + 1)).Sublist dp := by
      have hdrop := List.drop_sublist_drop_left dp (Nat.le_succ i)
      simpa only [List.take_append_drop] using (List.Sublist.refl (dp.take i)).append hdrop
    exact unique_insert (h.sublist hsub) (absurd hde)
  · exact h

lemma Unique.getElem {dp : List Dirent} (h : Unique dp) {i j : ℕ} (hi : i < dp.length)
    (hj : j < dp.length) (hij : i ≠ j) (h₁ : dp[i].inum ≠ 0) (h₂ : dp[j].inum ≠ 0) :
    namecmp dp[i].name dp[j].name ≠ 0 := by
  have hp := List.pairwise_iff_getElem.mp h
  rcases Nat.lt_or_gt_of_ne hij with hlt | hlt
  · exact hp i j hi hj hlt h₁ h₂
  · exact fun hn => hp j i hj hi hlt h₂ h₁ ((namecmp_comm _ _).mp hn)

/-! ### `dirlink` -/

lemma namecmp_strncpy (s t : List UInt8) :
    namecmp (strncpy s DIRSIZ) t = 0 ↔ namecmp s t = 0 := by
  rw [namecmp_eq_zero_iff, namecmp_eq_zero_iff, cstr_strncpy]

lemma fresh_of_lookup_none {dp : List Dirent} {name : List UInt8} (inum : ℕ)
    (hnone : dirlookup dp name = none) :
    ∀ d ∈ dp, d.inum ≠ 0 → namecmp (newDirent name inum).name d.name ≠ 0 := by
  intro d hd h0 hn
  rw [newDirent, namecmp_strncpy] at hn
  exact (lookupFrom_eq_none_iff name dp 0).mp hnone d hd ⟨h0, hn⟩

lemma writeDirent_free (dp : List Dirent) (de : Dirent) (room : Bool) :
    writeDirent dp (freeFrom dp 0) de room =
      if dp.findIdx (fun de => de.inum = 0) < dp.length then
        some (dp.set (dp.findIdx fun de => de.inum = 0) de)
      else writeDirent dp (dp.length * DIRENT) de room := by
  have hle := @List.findIdx_le_length Dirent (fun de => decide (de.inum = 0)) dp
  rw [freeFrom_eq, zero_add]
  split_ifs with hk
  · have hoff : dp.findIdx (fun de => de.inum = 0) * DIRENT < dp.length * DIRENT :=
      Nat.mul_lt_mul_of_pos_right hk (by decide)
    rw [writeDirent, if_pos hoff, Nat.mul_div_cancel _ (by decide : 0 < DIRENT)]
  · rw [show dp.findIdx (fun de => de.inum = 0) = dp.length by omega]

lemma dirlink_of_found {dp : List Dirent} {name : List UInt8} (h : (dirlookup dp name).isSome)
    (inum : ℕ) (room : Bool) : dirlink dp name inum room = (-1, dp) := by
  obtain ⟨r, hr⟩ := Option.isSome_iff_exists.mp h
  simp [dirlink, hr]

/-- The outcomes of `dirlink`: it fails and leaves the directory as it was, or, when the
name is new, writes the entry over the first entry not in use, or appends it when every entry
is in use. -/
lemma dirlink_cases (dp : List Dirent) (name : List UInt8) (inum : ℕ) (room : Bool) :
    dirlink dp name inum room = (-1, dp) ∨
      (dirlookup dp name = none ∧ ∃ i, ∃ hi : i < dp.length, dp[i].inum = 0 ∧
        (∀ j (hj : j < i), dp[j].inum ≠ 0) ∧
        dirlink dp name inum room = (0, dp.set i (newDirent name inum))) ∨
      (dirlookup dp name = none ∧ (∀ d ∈ dp, d.inum ≠ 0) ∧
        dirlink dp name inum room = (0, dp ++ [newDirent name inum])) := by
  unfold dirlink
  rcases hl : dirlookup dp name with _ | r
  · rw [writeDirent_free]
    split_ifs with hk
    · refine Or.inr (Or.inl ⟨rfl, _, hk, ?_, fun j hj => ?_, rfl⟩)
      · simpa using List.findIdx_getElem (w := hk)
      · simpa using List.not_of_lt_findIdx hj
    · have hfull : ∀ d ∈ dp, d.inum ≠ 0 := by
        have hle := @List.findIdx_le_length Dirent (fun de => decide (de.inum = 0)) dp
        simpa using (@List.findIdx_eq_length Dirent (fun de => decide (de.inum = 0)) dp).mp (by omega)
      unfold writeDirent
      rw [if_neg (lt_irrefl _)]
      split_ifs
      · exact Or.inl rfl
      · exact Or.inl rfl
      · exact Or.inr (Or.inr ⟨rfl, hfull, rfl⟩)
  · exact Or.inl rfl

lemma findIdx_unused {dp : List Dirent} {i : ℕ} (hi : i < dp.length) (h0 : dp[i].inum = 0)
    (hbefore : ∀ j (hj : j < i), dp[j].inum ≠ 0) : dp.findIdx (fun de => de.inum = 0) = i :=
  (List.findIdx_eq hi).mpr ⟨by simpa using h0, fun j hj => by simpa using hbefore j hj⟩

lemma freeFrom_of_first {dp : List Dirent} {i : ℕ} (hi : i < dp.length) (h0 : dp[i].inum = 0)
    (hbefore : ∀ j (hj : j < i), dp[j].inum ≠ 0) : freeFrom dp 0 = i * DIRENT := by
  rw [freeFrom_eq, findIdx_unused hi h0 hbefore, zero_add]

lemma dirlink_of_unused {dp : List Dirent} {name : List UInt8} {i : ℕ} (hi : i < dp.length)
    (h0 : dp[i].inum = 0) (hbefore : ∀ j (hj : j < i), dp[j].inum ≠ 0)
    (hnone : dirlookup dp name = none) (inum : ℕ) (room : Bool) :
    dirlink dp name inum room = (0, dp.set i (newDirent name inum)) := by
  simp only [dirlink, hnone, writeDirent_free, findIdx_unused hi h0 hbefore, if_pos hi]

lemma freeFrom_of_full {dp : List Dirent} (h : ∀ d ∈ dp, d.inum ≠ 0) :
    freeFrom dp 0 = dp.length * DIRENT := by
  have hk : dp.findIdx (fun de => de.inum = 0) = dp.length :=
    List.findIdx_eq_length.mpr fun d hd => by simpa using h d hd
  rw [freeFrom_eq, hk, zero_add]

/-- `dirlink` keeps the names in use unique. -/
theorem unique_dirlink {dp : List Dirent} (h : Unique dp) (name : List UInt8) (inum : ℕ)
    (room : Bool) : Unique (dirlink dp name inum room).2 := by
  rcases dirlink_cases dp name inum room with he | ⟨hnone, i, hi, _, _, he⟩ | ⟨hnone, _, he⟩
  · rw [he]
    exact h
  · have hsub : (dp.take i ++ dp.drop (i + 1)).Sublist dp := by
      have hdrop := List.drop_sublist_drop_left dp (Nat.le_succ i)
      simpa only [List.take_append_drop] using (List.Sublist.refl (dp.take i)).append hdrop
    simp only [he]
    rw [List.set_eq_take_append_cons_drop, if_pos hi]
    exact unique_insert (h.sublist hsub) fun _ d hd => fresh_of_lookup_none inum hnone d (hsub.subset hd)
  · simp only [he]
    rw [← List.append_nil dp, List.append_assoc, List.nil_append]
    exact unique_insert (by simpa using h) fun _ d hd =>
      fresh_of_lookup_none inum hnone d (by simpa using hd)

/-- The clearing of `sys_unlink` keeps the names in use unique. -/
theorem unique_unlinkEntry {dp : List Dirent} (h : Unique dp) (name : List UInt8) :
    Unique (unlinkEntry dp name) := by
  unfold unlinkEntry
  split
  · exact unique_set_unused h rfl
  · exact h

lemma lookupFrom_new {pre post : List Dirent} {name name' : List UInt8} {inum : ℕ}
    (hpre : ∀ d ∈ pre, ¬ Hit name d) (hinum : inum % 2 ^ 16 ≠ 0) (h' : namecmp name' name = 0) :
    lookupFrom name' (pre ++ newDirent name inum :: post) 0 =
      some (pre.length * DIRENT, inum % 2 ^ 16) := by
  have hhit : Hit name' (newDirent name inum) :=
    ⟨hinum, (namecmp_comm _ _).mpr ((namecmp_strncpy name name').mpr ((namecmp_comm _ _).mp h'))⟩
  rw [lookupFrom_append_cons name' (fun d hd ⟨h₀, hn⟩ =>
    hpre d hd ⟨h₀, namecmp_trans ((namecmp_comm _ _).mp h') hn⟩) hhit, zero_add]
  rfl

/-- After a `dirlink` that returns `0`, a lookup of any name `namecmp` matches with the given
one finds the new entry, when it is in use. -/
theorem dirlookup_dirlink {dp : List Dirent} {name : List UInt8} {inum : ℕ} {room : Bool}
    (h : (dirlink dp name inum room).1 = 0) (hinum : inum % 2 ^ 16 ≠ 0) {name' : List UInt8}
    (h' : namecmp name' name = 0) :
    dirlookup (dirlink dp name inum room).2 name' = some (freeFrom dp 0, inum % 2 ^ 16) := by
  rcases dirlink_cases dp name inum room with he | ⟨hnone, i, hi, h0, hbefore, he⟩ |
      ⟨hnone, hfull, he⟩
  · rw [he] at h
    exact absurd h (by decide : (-1 : ℤ) ≠ 0)
  · have hpre : ∀ d ∈ dp.take i, ¬ Hit name d := fun d hd =>
      (lookupFrom_eq_none_iff name dp 0).mp hnone d (List.mem_of_mem_take hd)
    simp only [he, dirlookup]
    rw [List.set_eq_take_append_cons_drop, if_pos hi, lookupFrom_new hpre hinum h',
      freeFrom_of_first hi h0 hbefore, List.length_take_of_le hi.le]
  · have hpre : ∀ d ∈ dp, ¬ Hit name d := (lookupFrom_eq_none_iff name dp 0).mp hnone
    simp only [he, dirlookup]
    rw [lookupFrom_new hpre hinum h', freeFrom_of_full hfull]

/-! ### Runs -/

/-- The changes of a directory's entries, each under the directory's lock: a `dirlink`, or the
clearing of the entry `sys_unlink` removes. -/
inductive Step : List Dirent → List Dirent → Prop
  | link {dp : List Dirent} (name : List UInt8) (inum : ℕ) (room : Bool) :
      Step dp (dirlink dp name inum room).2
  | unlink {dp : List Dirent} (name : List UInt8) : Step dp (unlinkEntry dp name)

lemma Unique.step {dp dp' : List Dirent} (h : Unique dp) (hs : Step dp dp') : Unique dp' := by
  cases hs with
  | link name inum room => exact unique_dirlink h name inum room
  | unlink name => exact unique_unlinkEntry h name

lemma Unique.steps {dp dp' : List Dirent} (h : Unique dp)
    (hs : Relation.ReflTransGen Step dp dp') : Unique dp' := by
  induction hs with
  | refl => exact h
  | tail _ hst ih => exact ih.step hst

lemma dirlink_of_full {dp : List Dirent} {name : List UInt8} {inum : ℕ} {room : Bool}
    (hfull : ∀ d ∈ dp, d.inum ≠ 0) (h : (dirlink dp name inum room).1 = 0) :
    (dirlink dp name inum room).2 = dp ++ [newDirent name inum] := by
  rcases dirlink_cases dp name inum room with he | ⟨_, i, hi, h0, _, _⟩ | ⟨_, _, he⟩
  · rw [he] at h
    exact absurd h (by decide : (-1 : ℤ) ≠ 0)
  · exact absurd h0 (hfull _ (List.getElem_mem hi))
  · rw [he]

/-- Directory names are unique: over any run of `dirlink` and of `sys_unlink`'s clearing from
a directory whose names in use are unique, no two entries in use have names `namecmp` matches.
`dirlink` refuses a name the directory has, writes over its first entry not in use, and
otherwise appends at `dp->size`; after it returns `0`, every name `namecmp` matches with the
given one finds the new entry, for an inode number the entry's `ushort` holds. -/
theorem dirlink_names_unique :
    (∀ dp₀ dp, Unique dp₀ → Relation.ReflTransGen Step dp₀ dp →
      ∀ i j (hi : i < dp.length) (hj : j < dp.length), i ≠ j → dp[i].inum ≠ 0 →
        dp[j].inum ≠ 0 → namecmp dp[i].name dp[j].name ≠ 0) ∧
    (∀ dp name inum room, (dirlookup dp name).isSome → dirlink dp name inum room = (-1, dp)) ∧
    (∀ dp name inum room i (hi : i < dp.length), dp[i].inum = 0 →
      (∀ j (hj : j < i), dp[j].inum ≠ 0) → dirlookup dp name = none →
        dirlink dp name inum room = (0, dp.set i (newDirent name inum))) ∧
    (∀ dp name inum room, (∀ d ∈ dp, d.inum ≠ 0) → (dirlink dp name inum room).1 = 0 →
      freeFrom dp 0 = dp.length * DIRENT ∧
        (dirlink dp name inum room).2 = dp ++ [newDirent name inum]) ∧
    (∀ dp name inum room, 0 < inum → inum < 2 ^ 16 → (dirlink dp name inum room).1 = 0 →
      ∀ name', namecmp name' name = 0 →
        dirlookup (dirlink dp name inum room).2 name' = some (freeFrom dp 0, inum)) := by
  refine ⟨fun dp₀ dp h₀ hs i j hi hj => (h₀.steps hs).getElem hi hj,
    fun dp name inum room h => dirlink_of_found h inum room,
    fun dp name inum room i hi h0 hbefore hnone => dirlink_of_unused hi h0 hbefore hnone inum room,
    fun dp name inum room hfull h => ⟨freeFrom_of_full hfull, dirlink_of_full hfull h⟩, ?_⟩
  intro dp name inum room hpos hlt h name' h'
  have hmod : inum % 2 ^ 16 = inum := Nat.mod_eq_of_lt hlt
  rw [dirlookup_dirlink h (by omega) h', hmod]

def dirEx : List Dirent := [⟨1, [46]⟩, ⟨0, [120]⟩, ⟨2, [97]⟩]

theorem dirlink_names_unique_dirEx :
    (∀ i j (hi : i < (dirlink dirEx [98] 5 true).2.length)
        (hj : j < (dirlink dirEx [98] 5 true).2.length), i ≠ j →
      (dirlink dirEx [98] 5 true).2[i].inum ≠ 0 → (dirlink dirEx [98] 5 true).2[j].inum ≠ 0 →
        namecmp (dirlink dirEx [98] 5 true).2[i].name (dirlink dirEx [98] 5 true).2[j].name ≠ 0) ∧
    dirlink (dirlink dirEx [98] 5 true).2 [98] 6 true = (-1, (dirlink dirEx [98] 5 true).2) ∧
    dirlink dirEx [98] 5 true = (0, dirEx.set 1 (newDirent [98] 5)) ∧
    (freeFrom [⟨1, [46]⟩] 0 = DIRENT ∧
      (dirlink [⟨1, [46]⟩] [98] 5 true).2 = [⟨1, [46]⟩, newDirent [98] 5]) ∧
    dirlookup (dirlink dirEx [98] 5 true).2 [98] = some (freeFrom dirEx 0, 5) := by
  obtain ⟨hrun, hfound, hfree, hfull, hlook⟩ := dirlink_names_unique
  exact ⟨hrun dirEx _ (by unfold Unique; decide) (.single (.link [98] 5 true)),
    hfound _ [98] 6 true (by decide),
    hfree dirEx [98] 5 true 1 (by decide) (by decide) (by decide) (by decide),
    hfull [⟨1, [46]⟩] [98] 5 true (by decide) (by decide),
    hlook dirEx [98] 5 true (by decide) (by decide) (by decide) [98] (by decide)⟩

/-- The inode number `2^16` is stored as `0`: `dirlink` returns `0`, and a lookup of the same
name finds nothing. -/
theorem dirlink_drops_high_inum :
    (dirlink [] [97] (2 ^ 16) true).1 = 0 ∧
      dirlookup (dirlink [] [97] (2 ^ 16) true).2 [97] = none := by
  decide

end Xv6.Dir
