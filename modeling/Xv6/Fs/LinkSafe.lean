import Xv6.Fs.LinkInv

/-!
Each call of the namespace keeps the invariant of `Xv6.Link.Inv`, and with it the references of
the inode table: between calls, every reference is a live process's current directory. The
adjustments of a call even out: `create` gives the new inode its one link before its name and
adds the parent's link for `..` after the child's entry; `sys_link` takes the link first and
gives it back on its way out through `bad`; `sys_unlink` clears the name before it drops the
links. So every reachable state has, for each inode, the links it needs, and `sys_unlink` never
reaches its panic `unlink: nlink < 1`.
-/

namespace Xv6.Link

open Xv6.Param Xv6.Lib.Reach Xv6.Namei
open Xv6.Itable (IType Inode Table)

variable {σ : Type} {N : ℕ}

/-! ## `dirlink` -/

section Dirlink

variable {room : ℕ → Bool} {s s' : Sys σ} {dp ip : Fin NINODE} {name : List Char} {inum : ℕ}
  {r : ℤ}

lemma newEntry_inum (name : List Char) {x : ℕ} (hx : x < 2 ^ 16) : (newEntry name x).inum = x :=
  Nat.mod_eq_of_lt hx

/-- `dirlookup` of a directory that is not one panics. -/
lemma dirlookup_type {r' : Option (Fin NINODE)} (hd : Namei.dirlookup s dp name = .ok (r', s')) :
    (s.inode dp).type = .T_DIR := by
  by_contra ht
  unfold Namei.dirlookup at hd
  rw [if_pos ht] at hd
  cases hd

/-- **The outcomes of `dirlink`**: the name was there, and the inode found is put; or there is
no room for a new entry; or the entry is written. -/
lemma dirlink_cases (hd : dirlink room s dp name inum = .ok (r, s')) :
    (∃ ip s₁, Namei.dirlookup s dp name = .ok (some ip, s₁) ∧ r = -1 ∧ s' = Namei.iput s₁ ip) ∨
    (Namei.dirlookup s dp name = .ok (none, s) ∧ r = -1 ∧ s' = s) ∨
    (∃ des', Namei.dirlookup s dp name = .ok (none, s) ∧
      addEntry (s.disk (s.inode dp).inum).dirents (newEntry name inum) (room (s.inode dp).inum) =
        some des' ∧ r = 0 ∧ s' = setDirents s (s.inode dp).inum des') := by
  unfold dirlink at hd
  split at hd
  · cases hd
  · rename_i ip s₁ hl
    cases hd
    exact .inl ⟨ip, s₁, hl, rfl, rfl⟩
  · rename_i s₁ hl
    obtain ⟨rfl, -⟩ := dirlookup_none hl
    split at hd
    · cases hd
      exact .inr (.inl ⟨hl, rfl, rfl⟩)
    · rename_i des' ha
      cases hd
      exact .inr (.inr ⟨des', hl, ha, rfl, rfl⟩)

/-- `dirlink` gives back every reference it takes. -/
lemma dirlink_ref (hd : dirlink room s dp name inum = .ok (r, s')) (e : Fin NINODE) :
    (s'.inode e).ref = (s.inode e).ref := by
  rcases dirlink_cases hd with ⟨ip, s₁, hl, -, rfl⟩ | ⟨-, -, rfl⟩ | ⟨des', -, -, -, rfl⟩
  · have h₁ := dirlookup_ref hl
    rw [iput_inode_ref]
    by_cases he : e = ip
    · subst he
      simp [h₁ e]
    · simp [he, h₁ e, Ne.symm he]
  · rfl
  · rfl

/-- **`.` and `..` of a new directory.** With no entries yet, `linkDots` appends `.` and `..`
when the directory can grow, and otherwise changes nothing. -/
lemma linkDots_fresh (ht : (s.inode ip).type = .T_DIR)
    (he : (s.disk (s.inode ip).inum).dirents = []) (hx : (s.inode ip).inum ≠ 0)
    (hx' : (s.inode ip).inum < 2 ^ 16) :
    linkDots room s ip dp =
      if room (s.inode ip).inum then
        .ok (0, setDirents s (s.inode ip).inum
          [⟨(s.inode ip).inum, ['.']⟩, ⟨(s.inode dp).inum % 2 ^ 16, ['.', '.']⟩])
      else .ok (-1, s) := by
  have hm : (s.inode ip).inum % 65536 = (s.inode ip).inum := Nat.mod_eq_of_lt hx'
  cases hroom : room (s.inode ip).inum
  · simp [linkDots, dirlink, Namei.dirlookup, ht, he, addEntry, hroom]
  · simp [linkDots, dirlink, Namei.dirlookup, ht, he, addEntry, hroom, newEntry, hm, hx,
      setDirents, setDisk, namecmp, DIRSIZ]

end Dirlink

/-! ## References -/

section Refs

variable {s s' : Sys σ} {ip : Fin NINODE}

@[simp] lemma setDirents_inode (s : Sys σ) (x : ℕ) (des : List Dirent) :
    (setDirents s x des).inode = s.inode := rfl

@[simp] lemma writeNlink_ref (s : Sys σ) (ip e : Fin NINODE) (n : ℕ) :
    ((writeNlink s ip n).inode e).ref = (s.inode e).ref := by
  by_cases he : e = ip
  · subst he
    simp [writeNlink, iupdate, setInode, setDisk]
  · simp [writeNlink, iupdate, setInode, setDisk, Function.update_of_ne he]

end Refs

/-! ## Stretches that keep every reference -/

section Keeps

/-- `s'` has the processes, the current directories and the references of `s`: what a stretch
of a call that gives back every reference it takes leaves. -/
def Keeps (s s' : Sys σ) : Prop :=
  s'.fs = s.fs ∧ s'.cwd = s.cwd ∧ ∀ e, (s'.inode e).ref = (s.inode e).ref

variable {room : ℕ → Bool} {s₁ s₂ s₃ : Sys σ} {ip dp : Fin NINODE}

lemma Keeps.refl (s : Sys σ) : Keeps s s := ⟨rfl, rfl, fun _ => rfl⟩

lemma Keeps.trans (h₁ : Keeps s₁ s₂) (h₂ : Keeps s₂ s₃) : Keeps s₁ s₃ :=
  ⟨h₂.1.trans h₁.1, h₂.2.1.trans h₁.2.1, fun e => (h₂.2.2 e).trans (h₁.2.2 e)⟩

lemma Keeps.ilock (hl : Namei.ilock s₁ ip = .ok s₂) : Keeps s₁ s₂ :=
  ⟨(ilock_frame hl).2.1, (ilock_frame hl).2.2, ilock_ref hl⟩

/-- `ip->major = m; ip->nlink = n; iupdate(ip);`. -/
lemma Keeps.write (s : Sys σ) (ip : Fin NINODE) (m : ℤ) (n : ℕ) :
    Keeps s (iupdate (setInode s ip { s.inode ip with major := m, nlink := n }) ip) := by
  refine ⟨rfl, rfl, fun e => ?_⟩
  by_cases he : e = ip
  · subst he
    simp [iupdate, setInode, setDisk]
  · simp [iupdate, setInode, setDisk, Function.update_of_ne he]

lemma Keeps.writeNlink (s : Sys σ) (ip : Fin NINODE) (n : ℕ) : Keeps s (writeNlink s ip n) :=
  Keeps.write s ip (s.inode ip).major n

lemma Keeps.setDirents (s : Sys σ) (x : ℕ) (des : List Dirent) : Keeps s (setDirents s x des) :=
  ⟨rfl, rfl, fun _ => rfl⟩

lemma Keeps.dirlink {name : List Char} {inum : ℕ} {r : ℤ}
    (hd : dirlink room s₁ dp name inum = .ok (r, s₂)) : Keeps s₁ s₂ := by
  refine ⟨?_, ?_, dirlink_ref hd⟩ <;>
  rcases dirlink_cases hd with ⟨ip, t, hl, -, rfl⟩ | ⟨-, -, rfl⟩ | ⟨des', -, -, -, rfl⟩
  · exact iput_frame.2.1.trans (dirlookup_frame hl).2.1
  · rfl
  · rfl
  · exact iput_frame.2.2.trans (dirlookup_frame hl).2.2
  · rfl
  · rfl

/-- `ilock(ip)` touches no other entry. -/
lemma ilock_other (hl : Namei.ilock s₁ ip = .ok s₂) {e : Fin NINODE} (he : e ≠ ip) :
    s₂.inode e = s₁.inode e := by
  unfold Namei.ilock at hl
  dsimp only at hl
  split_ifs at hl <;> cases hl
  · rfl
  · exact Function.update_of_ne he _ _

end Keeps

/-! ## `create` -/

section Create

variable {room : ℕ → Bool} {s s' : Sys σ} {dp ip : Fin NINODE} {δ : ℕ → ℤ}

/-- The adjustment of a call that has given inode `x` `n` links and no name yet. -/
def pending (x n i : ℕ) : ℤ := if i = x then -(n : ℤ) else 0

/-- An entry that is not a name, added to a directory, needs no adjustment. -/
lemma Inv.add_unnamed (h : Inv N s δ) (hp : 0 < (s.inode dp).ref)
    (hv : (s.inode dp).valid = true) (ht : (s.inode dp).type = .T_DIR) {de : Dirent}
    (hn : ¬ Named de) {room : Bool} {des' : List Dirent}
    (ha : addEntry (s.disk (s.inode dp).inum).dirents de room = some des') :
    Inv N (setDirents s (s.inode dp).inum des') δ := by
  have h' := h.add hp hv ht ha (fun h => absurd h hn) fun h => absurd h hn
  simpa [hn] using h'

lemma setDirents_setDirents (s : Sys σ) (x : ℕ) (des des' : List Dirent) :
    setDirents (setDirents s x des) x des' = setDirents s x des' := by
  simp [setDirents, setDisk]

/-- **The `.` and `..` stage of `create`**, on a new inode with no entries: a directory gets
both or, with no room, neither; they are not names, so the adjustment stays. -/
lemma createNew_dots {type : IType} {r : ℤ} (h : Inv N s δ) (hp : 0 < (s.inode ip).ref)
    (hv : (s.inode ip).valid = true) (ht : (s.inode ip).type = type)
    (he : (s.disk (s.inode ip).inum).dirents = []) (hx : (s.inode ip).inum ≠ 0)
    (hx' : (s.inode ip).inum < 2 ^ 16) (hd : (s.inode dp).inum ≠ 0)
    (hd' : (s.inode dp).inum < 2 ^ 16)
    (hc : (if type = .T_DIR then linkDots room s ip dp else .ok (0, s)) = .ok (r, s')) :
    (r < 0 ∧ s' = s) ∨
      (r = 0 ∧ Inv N s' δ ∧ Keeps s s' ∧ s'.inode = s.inode ∧
        (∀ y, y ≠ (s.inode ip).inum → s'.disk y = s.disk y) ∧
        (s'.disk (s.inode ip).inum).type = (s.disk (s.inode ip).inum).type ∧
        ((s'.disk (s.inode ip).inum).type = .T_DIR → Dotted (s'.disk (s.inode ip).inum).dirents)) := by
  have hc' := (h.cached ip hp hv).1
  split_ifs at hc with hdir
  · rw [linkDots_fresh (ht.trans hdir) he hx hx'] at hc
    split_ifs at hc with hroom
    · cases hc
      right
      -- `.` and then `..`, each appended to what is there
      have h₁ := h.add_unnamed hp hv (ht.trans hdir) (by simp [Named])
        (show addEntry _ ⟨(s.inode ip).inum, ['.']⟩ true = some [⟨(s.inode ip).inum, ['.']⟩] by
          rw [he]; rfl)
      have h₂ := h₁.add_unnamed hp hv (ht.trans hdir) (by simp [Named])
        (show addEntry _ ⟨(s.inode dp).inum % 2 ^ 16, ['.', '.']⟩ true =
          some [⟨(s.inode ip).inum, ['.']⟩, ⟨(s.inode dp).inum % 2 ^ 16, ['.', '.']⟩] by
          simp [setDirents, setDisk, addEntry, hx])
      rw [setDirents_inode, setDirents_setDirents] at h₂
      refine ⟨rfl, h₂, Keeps.setDirents _ _ _, rfl, fun y hy => ?_, by simp [setDirents, setDisk],
        fun _ => ?_⟩
      · simp [setDirents, setDisk, Function.update_of_ne hy]
      · simp only [setDirents, setDisk, Function.update_self]
        exact ⟨_, _, [], rfl, hx, by rw [Nat.mod_eq_of_lt hd']; exact hd⟩
    · cases hc
      exact .inl ⟨by norm_num, rfl⟩
  · cases hc
    right
    refine ⟨rfl, h, Keeps.refl _, rfl, fun _ _ => rfl, rfl,
      fun hdt => absurd (ht.symm.trans (hc'.trans hdt)) hdir⟩

/-- **`fail:` of `create`** takes back the new inode's links and puts both inodes. -/
lemma createFail_spec (h : Inv N s (pending (s.inode ip).inum (s.inode ip).nlink))
    (hp : 0 < (s.inode ip).ref) (hv : (s.inode ip).valid = true) :
    Inv N (createFail s ip dp).2 0 := by
  have h₁ : Inv N (writeNlink s ip 0) _ := h.write hp hv (s.inode ip).major 0
  have h₂ : Inv N (writeNlink s ip 0) 0 := h₁.mono fun i => by
    unfold pending
    split_ifs <;> simp
  exact (h₂.iput ip le_rfl).iput dp le_rfl

/-- A stretch that keeps every reference, ended by `iput(dp)`. -/
lemma iput_exit {t : Sys σ} (hk : Keeps s t) (hd : 0 < (s.inode dp).ref) :
    (Namei.iput t dp).fs = s.fs ∧ (Namei.iput t dp).cwd = s.cwd ∧
      ∀ e, ((Namei.iput t dp).inode e).ref + (if e = dp then 1 else 0) = (s.inode e).ref :=
  ⟨iput_frame.2.1.trans hk.1, iput_frame.2.2.trans hk.2.1, fun e => by
    rw [iput_ref (by rw [hk.2.2]; exact hd), hk.2.2]⟩

/-- What `fail:` of `create` gives back: a reference to each inode. -/
lemma createFail_ref {t : Sys σ} (hk : Keeps s t) (hp : 0 < (s.inode ip).ref)
    (hd : 0 < (s.inode dp).ref) (hne : dp ≠ ip) (e : Fin NINODE) :
    ((createFail t ip dp).2.inode e).ref + (if e = dp then 1 else 0) + (if e = ip then 1 else 0) =
      (s.inode e).ref := by
  simp only [createFail, iput_inode_ref, writeNlink_ref, hk.2.2]
  by_cases hei : e = ip
  · subst hei
    simp [Ne.symm hne]
    omega
  · by_cases hed : e = dp
    · subst hed
      simp [hei]
      omega
    · simp [hei, hed]

lemma createFail_fs {t : Sys σ} (hk : Keeps s t) :
    (createFail t ip dp).2.fs = s.fs ∧ (createFail t ip dp).2.cwd = s.cwd :=
  ⟨iput_frame.2.1.trans (iput_frame.2.1.trans hk.1),
    iput_frame.2.2.trans (iput_frame.2.2.trans hk.2.1)⟩

/-- **`create`'s new inode**, with `dp` locked and the name not in it: the inode gets its link,
a directory its `.` and `..`, then the name; a directory gives `dp` the link of its `..`. The
call puts `dp`, and on failure the inode too, its link taken back. The adjustment is `pending`
until the name is written, and at most zero after. -/
theorem createNew_spec {type : IType} {major : ℤ} {name : List Char} {r : Option (Fin NINODE)}
    (hN : N ≤ 2 ^ 16) (h : Inv N s 0) (hp : 0 < (s.inode ip).ref)
    (hdp : 0 < (s.inode dp).ref) (hdv : (s.inode dp).valid = true)
    (hx : s.disk (s.inode ip).inum = ⟨type, 0, 0, []⟩) (htf : type ≠ .free)
    (hxd : (s.inode ip).inum ≠ (s.inode dp).inum)
    (hl : Namei.dirlookup s dp name = .ok (none, s))
    (hc : createNew room s dp ip name type major = .ok (r, s')) :
    Inv N s' 0 ∧ s'.fs = s.fs ∧ s'.cwd = s.cwd ∧ (r = none ∨ r = some ip) ∧
      ∀ e, (s'.inode e).ref + (if e = dp then 1 else 0) + (if r = none ∧ e = ip then 1 else 0) =
        (s.inode e).ref := by
  have hdt := dirlookup_type hl
  obtain ⟨-, -, -, hdfree⟩ := h.cached dp hdp hdv
  obtain ⟨hd0, hdN⟩ := h.lt_of_alloc hdfree
  obtain ⟨hx0, hxN⟩ := h.lt_of_alloc (by rw [hx]; exact htf)
  have hne : dp ≠ ip := fun he => hxd (by rw [he])
  unfold createNew at hc
  split at hc
  · cases hc
  rename_i s₁ hl₁
  obtain ⟨h₁, hp₁, hv₁⟩ := h.ilock hl₁
  have hdp₁ : s₁.inode dp = s.inode dp := ilock_other hl₁ hne
  have hx₁ : (s₁.inode ip).inum = (s.inode ip).inum := ilock_inum hl₁ ip
  have hdisk₁ : s₁.disk = s.disk := ilock_disk hl₁
  obtain ⟨ht₁, -, hn₁, -⟩ := h₁.cached ip hp₁ hv₁
  rw [hx₁, hdisk₁, hx] at ht₁ hn₁
  -- `ip->nlink = 1`: a link the call owes a name
  have h₂ : Inv N (iupdate (setInode s₁ ip { s₁.inode ip with major := major, nlink := 1 }) ip)
      (pending (s.inode ip).inum 1) :=
    (h₁.write hp₁ hv₁ major 1).mono fun i => by
      simp only [Pi.zero_apply, zero_add, pending, hx₁, hn₁]
      split_ifs <;> simp
  have hk₂ := (Keeps.ilock hl₁).trans (Keeps.write s₁ ip major 1)
  set s₂ := iupdate (setInode s₁ ip { s₁.inode ip with major := major, nlink := 1 }) ip with hs₂
  have hip₂ : s₂.inode ip = { s₁.inode ip with major := major, nlink := 1 } := by
    simp [s₂, iupdate, setInode, setDisk]
  have hdp₂ : s₂.inode dp = s.inode dp := by
    simp [s₂, iupdate, setInode, setDisk, Function.update_of_ne hne, hdp₁]
  have hdisk₂ : ∀ y, y ≠ (s.inode ip).inum → s₂.disk y = s.disk y := fun y hy => by
    simp [s₂, iupdate, setInode, setDisk, hx₁, Function.update_of_ne hy, hdisk₁]
  have hx₂ : s₂.disk (s.inode ip).inum = ⟨type, major, 1, []⟩ := by
    simp [s₂, iupdate, setInode, setDisk, hx₁, hdisk₁, hx, ht₁]
  dsimp only at hc
  generalize hd₃ : (if type = .T_DIR then linkDots room s₂ ip dp else .ok (0, s₂)) = d₃ at hc
  rcases d₃ with _ | ⟨r₃, s₃⟩
  · cases hc
  simp only at hc
  have hdots := createNew_dots h₂ (by simpa [hip₂] using hp₁) (by simpa [hip₂] using hv₁)
    (by simpa [hip₂] using ht₁) (by simp [hip₂, hx₁, hx₂]) (by simpa [hip₂, hx₁] using hx0.ne')
    (by simp [hip₂, hx₁]; omega) (by rw [hdp₂]; exact hd0.ne') (by rw [hdp₂]; omega) hd₃
  simp only [hip₂, hx₁, hx₂] at hdots
  rcases hdots with ⟨hr₃, rfl⟩ | ⟨rfl, h₃, hk₃, hi₃, hdisk₃, ht₃, hdot₃⟩
  · -- no room for `.` and `..`
    rw [if_pos hr₃] at hc
    cases hc
    refine ⟨createFail_spec (by simpa [hip₂, hx₁] using h₂) (by simpa [hip₂] using hp₁)
      (by simpa [hip₂] using hv₁), ?_, ?_, .inl rfl, fun e => ?_⟩
    · exact (createFail_fs hk₂).1
    · exact (createFail_fs hk₂).2
    · simpa [createFail] using createFail_ref hk₂ hp hdp hne e
  rw [if_neg (lt_irrefl 0)] at hc
  have hk₃' := hk₂.trans hk₃
  have hdir₃ : ∀ y, y ≠ (s.inode ip).inum → s₃.disk y = s.disk y := fun y hy =>
    (hdisk₃ y hy).trans (hdisk₂ y hy)
  split at hc
  · cases hc
  rename_i r₄ s₄ hd₄
  rw [hi₃, hip₂] at hd₄
  have hl₃ : Namei.dirlookup s₃ dp name = .ok (none, s₃) :=
    dirlookup_eq_none_of hl (by rw [hi₃, hdp₂]) (by rw [hi₃, hdp₂, hdir₃ _ hxd.symm])
  rcases dirlink_cases hd₄ with ⟨ip', t, hl', -, -⟩ | ⟨-, hr₄, rfl⟩ | ⟨des', -, ha, rfl, rfl⟩
  · -- the name cannot have appeared
    rw [hl₃] at hl'
    cases hl'
  · -- no room for the name
    rw [if_pos (by rw [hr₄]; norm_num)] at hc
    cases hc
    have hip₃ := congrFun hi₃ ip
    rw [hip₂] at hip₃
    refine ⟨createFail_spec (by simpa [hip₃, hx₁] using h₃) (by simpa [hip₃] using hp₁)
      (by simpa [hip₃] using hv₁), ?_, ?_, .inl rfl, fun e => ?_⟩
    · exact (createFail_fs hk₃').1
    · exact (createFail_fs hk₃').2
    · simpa [createFail] using createFail_ref hk₃' hp hdp hne e
  -- the name is written
  rw [if_neg (lt_irrefl 0)] at hc
  cases hc
  have hdp₃ : s₃.inode dp = s.inode dp := by rw [hi₃, hdp₂]
  have hde : (newEntry name (s.inode ip).inum).inum = (s.inode ip).inum :=
    newEntry_inum name (by omega)
  simp only [hx₁] at ha
  have h₄ := h₃.add (by rw [hdp₃]; exact hdp) (by rw [hdp₃]; exact hdv) (by rw [hdp₃]; exact hdt)
    ha (fun _ => by rw [hde]; exact hdot₃) fun _ => by rw [hde, hdp₃]; exact hxd
  have hk₄ := hk₃'.trans (Keeps.setDirents s₃ (s₃.inode dp).inum des')
  set s₄ := setDirents s₃ (s₃.inode dp).inum des' with hs₄
  have hdp₄ : s₄.inode dp = s.inode dp := hdp₃
  -- a directory's `..` is a link of `dp`: the adjustment is back to at most zero
  obtain ⟨h₅, hk₅⟩ : Inv N (if type = .T_DIR then writeNlink s₄ dp ((s₄.inode dp).nlink + 1)
        else s₄) 0 ∧
      Keeps s (if type = .T_DIR then writeNlink s₄ dp ((s₄.inode dp).nlink + 1) else s₄) := by
    split_ifs with hdir
    · refine ⟨?_, hk₄.trans (Keeps.writeNlink _ _ _)⟩
      refine (h₄.write (by rw [hdp₄]; exact hdp) (by rw [hdp₄]; exact hdv) (s₄.inode dp).major
        ((s₄.inode dp).nlink + 1)).mono fun i => ?_
      simp only [pending, hde, hdp₃, hdp₄, ht₃, hdir, and_true, Pi.zero_apply]
      push_cast
      split_ifs <;> omega
    · refine ⟨h₄.mono fun i => ?_, hk₄⟩
      simp only [pending, hde, hdp₃, ht₃, hdir, and_false, if_false, add_zero, Pi.zero_apply]
      push_cast
      split_ifs <;> omega
  obtain ⟨hfs, hcwd, hr⟩ := iput_exit hk₅ hdp
  exact ⟨h₅.iput dp le_rfl, hfs, hcwd, .inr rfl, fun e => by simpa using hr e⟩

end Create

end Xv6.Link
