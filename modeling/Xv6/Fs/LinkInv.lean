import Xv6.Fs.LinkCount

/-!
The invariant of the namespace system of `Xv6.Link`, and what each operation of the inode layer
does to it. Besides the disk's part (`DiskOK`), no two entries of the inode table in use hold one
inode, and a valid entry in use is a copy of its on-disk inode. `iget`, `idup`, `ilock` and
`dirlookup` keep it; `iput` keeps it when the inode it may free has no adjustment, since an inode
is freed only with no link and then has no name. The writes of the calls move the adjustment:
a link count by the change in links, an entry by the name it adds or takes away.

A path walk only looks up, locks and puts: it keeps the invariant, it changes no inode number of
an entry held by someone else, and the only change of type it makes on the disk is freeing.
-/

namespace Xv6.Link

open Xv6.Param Xv6.Lib.Reach Xv6.Namei
open Xv6.Itable (IType Inode Table)

/-! ## The invariant of the system -/

/-- A valid entry agrees with its on-disk inode, which is allocated. -/
def Cached (e : Inode) (d : DInode) : Prop :=
  e.type = d.type ∧ e.major = d.major ∧ e.nlink = d.nlink ∧ d.type ≠ .free

variable {σ : Type}

/-- The invariant, with the adjustment `δ` of a call in progress: the disk's part, no inode in
two entries in use, and every valid entry in use a copy of its on-disk inode. -/
structure Inv (N : ℕ) (s : Sys σ) (δ : ℕ → ℤ) : Prop extends DiskOK N s.disk δ where
  unique : Itable.Unique s.inode
  dev : ∀ j, 0 < (s.inode j).ref → (s.inode j).dev = ROOTDEV
  cached : ∀ j, 0 < (s.inode j).ref → (s.inode j).valid = true →
    Cached (s.inode j) (s.disk (s.inode j).inum)

namespace Inv

variable {N : ℕ} {s s' : Sys σ} {δ : ℕ → ℤ} {ip : Fin NINODE}

lemma mono (h : Inv N s δ) {δ' : ℕ → ℤ} (hδ : ∀ i, δ i ≤ δ' i) : Inv N s δ' :=
  { h with toDiskOK := h.toDiskOK.mono hδ }

lemma eq_of_inum (h : Inv N s δ) {j : Fin NINODE} (hip : 0 < (s.inode ip).ref)
    (hj : 0 < (s.inode j).ref) (hn : (s.inode j).inum = (s.inode ip).inum) : j = ip :=
  h.unique j ip hj hip (by rw [h.dev j hj, h.dev ip hip]) hn

/-- **One entry rewritten** with the same inode, in use only if it was, and valid only as a
copy of the disk. -/
lemma setEntry (h : Inv N s δ) {e : Inode} (hdev : e.dev = (s.inode ip).dev)
    (hinum : e.inum = (s.inode ip).inum) (href : 0 < e.ref → 0 < (s.inode ip).ref)
    (hc : 0 < e.ref → e.valid = true → Cached e (s.disk e.inum)) :
    Inv N { s with inode := Function.update s.inode ip e } δ where
  toDiskOK := h.toDiskOK
  unique := h.unique.update_same hdev hinum href
  dev j hj := by
    by_cases hji : j = ip
    · subst hji
      simp only [Function.update_self] at hj ⊢
      rw [hdev]
      exact h.dev j (href hj)
    · simp only [Function.update_of_ne hji] at hj ⊢
      exact h.dev j hj
  cached j hj hv := by
    by_cases hji : j = ip
    · subst hji
      simp only [Function.update_self] at hj hv ⊢
      exact hc hj hv
    · simp only [Function.update_of_ne hji] at hj hv ⊢
      exact h.cached j hj hv

lemma idup (h : Inv N s δ) (hp : 0 < (s.inode ip).ref) :
    Inv N { s with inode := Itable.idup s.inode ip } δ :=
  h.setEntry rfl rfl (fun _ => hp) fun _ hv => h.cached ip hp hv

/-- **`iget` keeps the invariant**: an entry in use gains a reference, or a free one is
recycled, not valid, for the inode. -/
lemma iget (h : Inv N s δ) {dev inum : ℕ} (hdev : dev = ROOTDEV)
    (hg : Namei.iget s dev inum = .ok (ip, s')) : Inv N s' δ := by
  unfold Namei.iget at hg
  split at hg
  · cases hg
  rename_i ip' t ht
  cases hg
  rcases Itable.iget_ok ht with ⟨hh, rfl⟩ | ⟨hn, -, rfl⟩
  · exact h.idup hh.1
  · exact
    { toDiskOK := h.toDiskOK
      unique := h.unique.update fun _ j _ => hn j
      dev := fun j hj => by
        by_cases hji : j = ip
        · subst hji
          simp [hdev]
        · simp only [Function.update_of_ne hji] at hj ⊢
          exact h.dev j hj
      cached := fun j hj hv => by
        by_cases hji : j = ip
        · subst hji
          simp at hv
        · simp only [Function.update_of_ne hji] at hj hv ⊢
          exact h.cached j hj hv }

/-- **`ilock` keeps the invariant**, and leaves the entry valid and in use. -/
lemma ilock (h : Inv N s δ) (hl : Namei.ilock s ip = .ok s') :
    Inv N s' δ ∧ 0 < (s'.inode ip).ref ∧ (s'.inode ip).valid = true := by
  unfold Namei.ilock at hl
  dsimp only at hl
  split_ifs at hl with hr hv hf
  · cases hl
    exact ⟨h, by omega, hv⟩
  · cases hl
    refine ⟨h.setEntry rfl rfl (fun _ => by omega) fun _ _ => ⟨rfl, rfl, rfl, hf⟩, ?_, ?_⟩
    · simp only [Function.update_self]
      omega
    · simp

/-- **`iput` keeps the invariant** when the inode it may free has no adjustment: the last
reference to a valid inode with no link frees it on disk, and it had no name. -/
lemma iput (h : Inv N s δ) (ip : Fin NINODE) (hδ : δ (s.inode ip).inum ≤ 0) :
    Inv N (Namei.iput s ip) δ := by
  unfold Namei.iput Itable.iput
  split_ifs with hfree
  · obtain ⟨h1, hv, hn⟩ := hfree
    obtain ⟨-, -, hnl, hx⟩ := h.cached ip (by omega) hv
    dsimp only
    rw [hn]
    refine
      { toDiskOK := h.toDiskOK.free_inode hx (by rw [← hnl, hn]) hδ _
        unique := h.unique.iputFree ip
        dev := fun j hj => ?_
        cached := fun j hj hv' => ?_ }
    · by_cases hji : j = ip
      · subst hji
        simp [Itable.iputFree, h1] at hj
      · simp only [Itable.iputFree, Function.update_of_ne hji] at hj ⊢
        exact h.dev j hj
    · by_cases hji : j = ip
      · subst hji
        simp [Itable.iputFree, h1] at hj
      · simp only [Itable.iputFree, Function.update_of_ne hji] at hj hv' ⊢
        have hne : (s.inode j).inum ≠ (s.inode ip).inum := fun he =>
          hji (h.eq_of_inum (by omega) hj he)
        rw [Function.update_of_ne hne]
        exact h.cached j hj hv'
  · dsimp only
    exact h.setEntry rfl rfl (fun he => by simp at he; omega) fun he hv => h.cached ip
      (by simp at he; omega) hv

/-- `dirlookup` in a directory in use keeps the invariant. -/
lemma dirlookup (h : Inv N s δ) {dp : Fin NINODE} {name : List Char} {r : Option (Fin NINODE)}
    (hdp : 0 < (s.inode dp).ref) (hd : Namei.dirlookup s dp name = .ok (r, s')) : Inv N s' δ := by
  unfold Namei.dirlookup at hd
  split_ifs at hd
  split at hd
  · cases hd
    exact h
  · split at hd
    · cases hd
    · cases hd
      exact h.iget (h.dev dp hdp) ‹_›

end Inv

/-! ## Frames of the inode layer -/

/-- From disk `d` to `d'`, every on-disk inode is as it was or free. -/
def FreesOnly (d d' : ℕ → DInode) : Prop := ∀ y, d' y = d y ∨ (d' y).type = .free

lemma FreesOnly.refl (d : ℕ → DInode) : FreesOnly d d := fun _ => .inl rfl

lemma FreesOnly.trans {d₁ d₂ d₃ : ℕ → DInode} (h₁ : FreesOnly d₁ d₂) (h₂ : FreesOnly d₂ d₃) :
    FreesOnly d₁ d₃ := fun y => by
  rcases h₂ y with h | h
  · rw [h]
    exact h₁ y
  · exact .inr h

/-- From `s` to `s'`, only the inode table and the disk changed, and the disk only by
freeing. -/
def Frame (s s' : Sys σ) : Prop := FreesOnly s.disk s'.disk ∧ s'.fs = s.fs ∧ s'.cwd = s.cwd

lemma Frame.refl (s : Sys σ) : Frame s s := ⟨FreesOnly.refl _, rfl, rfl⟩

lemma Frame.trans {s₁ s₂ s₃ : Sys σ} (h₁ : Frame s₁ s₂) (h₂ : Frame s₂ s₃) : Frame s₁ s₃ :=
  ⟨h₁.1.trans h₂.1, h₂.2.1.trans h₁.2.1, h₂.2.2.trans h₁.2.2⟩

lemma Frame.of_inode (s : Sys σ) (t : Table) : Frame s { s with inode := t } :=
  ⟨FreesOnly.refl _, rfl, rfl⟩

section Frames

variable {s s' : Sys σ} {ip : Fin NINODE}

lemma ilock_disk (hl : Namei.ilock s ip = .ok s') : s'.disk = s.disk := by
  unfold Namei.ilock at hl
  dsimp only at hl
  split_ifs at hl <;> cases hl <;> rfl

lemma ilock_inum (hl : Namei.ilock s ip = .ok s') (e : Fin NINODE) :
    (s'.inode e).inum = (s.inode e).inum := by
  unfold Namei.ilock at hl
  dsimp only at hl
  split_ifs at hl
  · cases hl
    rfl
  · cases hl
    by_cases he : e = ip
    · subst he
      simp
    · simp [Function.update_of_ne he]

lemma iput_inum (e : Fin NINODE) : ((Namei.iput s ip).inode e).inum = (s.inode e).inum := by
  unfold Namei.iput Itable.iput
  split_ifs
  · by_cases he : e = ip
    · subst he
      simp [Itable.iputFree]
    · simp [Itable.iputFree, Function.update_of_ne he]
  · by_cases he : e = ip
    · subst he
      simp
    · simp [Function.update_of_ne he]

lemma iput_frees : FreesOnly s.disk (Namei.iput s ip).disk := by
  unfold Namei.iput Itable.iput
  split_ifs
  · intro y
    by_cases hy : y = (s.inode ip).inum
    · subst hy
      simp
    · simp [Function.update_of_ne hy]
  · exact FreesOnly.refl _

lemma iget_inum {dev inum : ℕ} (hg : Namei.iget s dev inum = .ok (ip, s')) (e : Fin NINODE)
    (he : 0 < (s.inode e).ref) : (s'.inode e).inum = (s.inode e).inum := by
  unfold Namei.iget at hg
  split at hg
  · cases hg
  rename_i ip' t ht
  cases hg
  rcases Itable.iget_ok ht with ⟨-, rfl⟩ | ⟨-, h0, rfl⟩
  · by_cases hei : e = ip
    · subst hei
      simp [Itable.idup]
    · simp [Itable.idup, Function.update_of_ne hei]
  · have hei : e ≠ ip := fun h => by rw [h] at he; omega
    simp [Function.update_of_ne hei]

lemma dirlookup_inum {dp : Fin NINODE} {name : List Char} {r : Option (Fin NINODE)}
    (hd : Namei.dirlookup s dp name = .ok (r, s')) (e : Fin NINODE) (he : 0 < (s.inode e).ref) :
    (s'.inode e).inum = (s.inode e).inum := by
  unfold Namei.dirlookup at hd
  split_ifs at hd
  split at hd
  · cases hd
    rfl
  · split at hd
    · cases hd
    · cases hd
      exact iget_inum ‹_› e he

lemma ilock_frame (hl : Namei.ilock s ip = .ok s') : Frame s s' := by
  unfold Namei.ilock at hl
  dsimp only at hl
  split_ifs at hl <;> cases hl
  · exact Frame.refl _
  · exact Frame.of_inode _ _

lemma iput_frame : Frame s (Namei.iput s ip) := by
  refine ⟨iput_frees, ?_, ?_⟩ <;>
  · unfold Namei.iput
    split <;> rfl

lemma iget_frame {dev inum : ℕ} (hg : Namei.iget s dev inum = .ok (ip, s')) : Frame s s' := by
  unfold Namei.iget at hg
  split at hg
  · cases hg
  · cases hg
    exact Frame.of_inode _ _

lemma dirlookup_frame {dp : Fin NINODE} {name : List Char} {r : Option (Fin NINODE)}
    (hd : Namei.dirlookup s dp name = .ok (r, s')) : Frame s s' := by
  unfold Namei.dirlookup at hd
  split_ifs at hd
  split at hd
  · cases hd
    exact Frame.refl _
  · split at hd
    · cases hd
    · cases hd
      exact iget_frame ‹_›

end Frames

section Walk

variable {N : ℕ} {δ : ℕ → ℤ}

/-- **A path walk keeps the invariant, frees at most, and leaves the inode of every entry held
by someone else.** By induction on the names: each round locks the directory the walk holds,
looks up the next name and puts the directory, and goes on holding what it found. -/
theorem walk_spec (hδ : ∀ i, δ i ≤ 0) (nameiparent : Bool) (ns : List (List Char)) :
    ∀ (s : Sys σ) (ip : Fin NINODE) (name : List Char) (r : Option (Fin NINODE))
      (name' : List Char) (s' : Sys σ), Inv N s δ →
      Namei.walk nameiparent s ip name ns = .ok (r, name', s') →
      Inv N s' δ ∧ Frame s s' ∧
        ∀ e, (if e = ip then 1 else 0) < (s.inode e).ref → (s'.inode e).inum = (s.inode e).inum := by
  induction ns with
  | nil =>
    intro s ip name r name' s' h hw
    rw [Namei.walk] at hw
    split_ifs at hw
    · cases hw
      exact ⟨h.iput ip (hδ _), iput_frame, fun e _ => iput_inum e⟩
    · cases hw
      exact ⟨h, Frame.refl _, fun _ _ => rfl⟩
  | cons n ns ih =>
    intro s ip name r name' s' h hw
    rw [Namei.walk] at hw
    split at hw
    · cases hw
    rename_i s₁ hl
    obtain ⟨h₁, hp₁, -⟩ := h.ilock hl
    have hf₁ := ilock_frame hl
    have hr₁ := ilock_ref hl
    have hi₁ := ilock_inum hl
    split_ifs at hw
    · -- not a directory
      cases hw
      refine ⟨h₁.iput ip (hδ _), hf₁.trans iput_frame, fun e _ => ?_⟩
      rw [iput_inum, hi₁]
    · -- `nameiparent` stops before the last name
      cases hw
      exact ⟨h₁, hf₁, fun e _ => hi₁ e⟩
    · split at hw
      · cases hw
      · -- not found
        cases hw
        rename_i s₂ hd
        refine ⟨(h₁.dirlookup hp₁ hd).iput ip (hδ _), ?_, fun e he => ?_⟩
        · exact hf₁.trans ((dirlookup_frame hd).trans iput_frame)
        · rw [iput_inum, dirlookup_inum hd e (by rw [hr₁]; split_ifs at he <;> omega), hi₁]
      · -- found: the walk goes on from `next`
        rename_i next s₂ hd
        have h₂ := (h₁.dirlookup hp₁ hd).iput ip (hδ _)
        have hdr := dirlookup_ref hd
        obtain ⟨h', hf', hi'⟩ := ih _ next n r name' s' h₂ hw
        refine ⟨h', ?_, fun e he => ?_⟩
        · exact hf₁.trans ((dirlookup_frame hd).trans (iput_frame.trans hf'))
        · have hpos : 0 < (s.inode e).ref := by split_ifs at he <;> omega
          have hr₂ : ∀ e, (s₂.inode e).ref = (s.inode e).ref + if next = e then 1 else 0 :=
            fun e => by simp [hdr e, hr₁ e]
          have hr₃ : (if e = next then 1 else 0) < ((Namei.iput s₂ ip).inode e).ref := by
            rw [iput_inode_ref]
            by_cases hei : e = ip
            · subst hei
              rw [if_pos rfl, hr₂]
              rw [if_pos rfl] at he
              by_cases hn : e = next
              · subst hn
                simp only [if_true]
                omega
              · simp only [hn, Ne.symm hn, if_false]
                omega
            · rw [if_neg hei, hr₂]
              by_cases hn : e = next
              · subst hn
                simp only [if_true]
                omega
              · simp only [hn, Ne.symm hn, if_false]
                omega
          rw [hi' e hr₃, iput_inum, dirlookup_inum hd e (by rw [hr₁]; exact hpos), hi₁]

/-- **Path lookup keeps the invariant**, changes only the table and frees at most, and leaves
the inode of every entry in use: from the root, or from the current directory of `p`, which
must then be in use. -/
theorem namex_spec (hδ : ∀ i, δ i ≤ 0) {s s' : Sys σ} (h : Inv N s δ) {p : Fin NPROC}
    {path name : List Char}
    (hcwd : (∀ tail, path ≠ '/' :: tail) → 0 < (s.inode (s.cwd p)).ref) {nameiparent : Bool}
    {r : Option (Fin NINODE)} (hn : Namei.namex s p path nameiparent = .ok (r, name, s')) :
    Inv N s' δ ∧ Frame s s' ∧ ∀ e, 0 < (s.inode e).ref → (s'.inode e).inum = (s.inode e).inum := by
  unfold Namei.namex at hn
  split at hn
  · split at hn
    · cases hn
    rename_i ip s₁ hg
    rw [namexLoop_eq_walk] at hn
    have hgr := iget_ref hg
    obtain ⟨h', hf', hi'⟩ := walk_spec hδ _ _ _ _ _ _ _ _ (h.iget rfl hg) hn
    refine ⟨h', (iget_frame hg).trans hf', fun e he => ?_⟩
    rw [hi' e (by rw [hgr e]; split_ifs <;> omega), iget_inum hg e he]
  · rename_i hpath
    rw [namexLoop_eq_walk] at hn
    have hc := hcwd fun tail he => hpath tail he
    obtain ⟨h', hf', hi'⟩ := walk_spec hδ _ _ _ _ _ _ _ _ (h.idup hc) hn
    refine ⟨h', (Frame.of_inode _ _).trans hf', fun e he => ?_⟩
    rw [hi' e ?_]
    · by_cases hec : e = s.cwd p
      · subst hec
        simp [Itable.idup]
      · simp [Itable.idup, Function.update_of_ne hec]
    · by_cases hec : e = s.cwd p
      · subst hec
        simpa [Itable.idup] using he
      · simpa [Itable.idup, hec] using he

lemma namei_spec (hδ : ∀ i, δ i ≤ 0) {s s' : Sys σ} (h : Inv N s δ) {p : Fin NPROC}
    {path : List Char}
    (hcwd : (∀ tail, path ≠ '/' :: tail) → 0 < (s.inode (s.cwd p)).ref)
    {r : Option (Fin NINODE)} (hn : Namei.namei s p path = .ok (r, s')) :
    Inv N s' δ ∧ Frame s s' ∧ ∀ e, 0 < (s.inode e).ref → (s'.inode e).inum = (s.inode e).inum := by
  unfold Namei.namei at hn
  split at hn
  · cases hn
  · cases hn
    exact namex_spec hδ h hcwd ‹_›

end Walk

/-! ## What `iget` and `dirlookup` return -/

section Lookup

variable {s s' : Sys σ} {ip : Fin NINODE}

lemma dirlookup_none {dp : Fin NINODE} {name : List Char}
    (hd : Namei.dirlookup s dp name = .ok (none, s')) :
    s' = s ∧ (s.disk (s.inode dp).inum).dirents.find?
      (fun de => de.inum ≠ 0 ∧ namecmp name de.name) = none := by
  unfold Namei.dirlookup at hd
  split_ifs at hd
  split at hd
  · cases hd
    exact ⟨rfl, ‹_›⟩
  · split at hd
    · cases hd
    · cases hd

lemma dirlookup_eq_none_of {dp : Fin NINODE} {name : List Char}
    (hd : Namei.dirlookup s dp name = .ok (none, s)) {t : Sys σ}
    (ht : (t.inode dp).type = (s.inode dp).type)
    (he : (t.disk (t.inode dp).inum).dirents = (s.disk (s.inode dp).inum).dirents) :
    Namei.dirlookup t dp name = .ok (none, t) := by
  have hf := (dirlookup_none hd).2
  unfold Namei.dirlookup at hd ⊢
  rw [ht]
  split_ifs at hd ⊢
  rw [he, hf]

end Lookup

/-! ## The writes of the calls -/

section Writes

variable {N : ℕ} {s : Sys σ} {δ : ℕ → ℤ} {ip : Fin NINODE}

lemma ialloc_some {s' : Sys σ} {dev : ℕ} {t : IType}
    (ha : Xv6.Link.ialloc N s dev t = .ok (some ip, s')) :
    ∃ x, 0 < x ∧ x < N ∧ (s.disk x).type = .free ∧
      Namei.iget (setDisk s x ⟨t, 0, 0, []⟩) dev x = .ok (ip, s') := by
  unfold Xv6.Link.ialloc at ha
  split at ha
  · cases ha
  rename_i x hx
  split at ha
  · cases ha
  rename_i ip' s₁ hg
  cases ha
  have hmem := List.mem_of_find?_eq_some hx
  rw [List.mem_range'_1] at hmem
  exact ⟨x, by omega, by omega, by simpa using List.find?_some hx, hg⟩

namespace Inv

/-- A change of the disk that keeps every type, major and link count, under which the disk's
part holds with `δ'`. -/
lemma ofDisk (h : Inv N s δ) {disk' : ℕ → DInode} {δ' : ℕ → ℤ} (hd : DiskOK N disk' δ')
    (hc : ∀ y, (disk' y).type = (s.disk y).type ∧ (disk' y).major = (s.disk y).major ∧
      (disk' y).nlink = (s.disk y).nlink) :
    Inv N { s with disk := disk' } δ' where
  toDiskOK := hd
  unique := h.unique
  dev := h.dev
  cached j hj hv := by
    obtain ⟨ht, hm, hn, hx⟩ := h.cached j hj hv
    obtain ⟨ht', hm', hn'⟩ := hc (s.inode j).inum
    exact ⟨ht.trans ht'.symm, hm.trans hm'.symm, hn.trans hn'.symm, ht' ▸ hx⟩

/-- **A link count written** through a valid entry in use:
`ip->major = m; ip->nlink = n; iupdate(ip);`. The adjustment of its inode moves by the change
in links. -/
lemma write (h : Inv N s δ) (hp : 0 < (s.inode ip).ref) (hv : (s.inode ip).valid = true)
    (m : ℤ) (n : ℕ) :
    Inv N (iupdate (setInode s ip { s.inode ip with major := m, nlink := n }) ip)
      (fun i => δ i + if i = (s.inode ip).inum then ((s.inode ip).nlink : ℤ) - n else 0) := by
  obtain ⟨ht, -, hn, hx⟩ := h.cached ip hp hv
  have hd := h.toDiskOK.setNlink hx m n
  rw [← hn] at hd
  refine
    { toDiskOK := ?_
      unique := h.unique.update_same rfl rfl fun _ => hp
      dev := fun j hj => ?_
      cached := fun j hj hv' => ?_ }
  · simpa [iupdate, setInode, setDisk, ht] using hd
  · by_cases hji : j = ip
    · subst hji
      simpa [iupdate, setInode, setDisk] using h.dev j hp
    · simp only [iupdate, setInode, setDisk, Function.update_of_ne hji] at hj ⊢
      exact h.dev j hj
  · by_cases hji : j = ip
    · subst hji
      simp only [iupdate, setInode, setDisk, Function.update_self]
      exact ⟨rfl, rfl, rfl, by simpa [ht] using hx⟩
    · simp only [iupdate, setInode, setDisk, Function.update_of_ne hji, Function.update_self]
        at hj hv' ⊢
      rw [Function.update_of_ne fun he => hji (h.eq_of_inum hp hj he)]
      exact h.cached j hj hv'

/-- **An entry added** by `dirlink` into directory `dp`, valid and in use. -/
lemma add (h : Inv N s δ) {dp : Fin NINODE} (hp : 0 < (s.inode dp).ref)
    (hv : (s.inode dp).valid = true) (ht : (s.inode dp).type = .T_DIR) {de : Dirent}
    {room : Bool} {des' : List Dirent}
    (ha : addEntry (s.disk (s.inode dp).inum).dirents de room = some des')
    (hdots : Named de → (s.disk de.inum).type = .T_DIR → Dotted (s.disk de.inum).dirents)
    (hself : Named de → de.inum ≠ (s.inode dp).inum) :
    Inv N (setDirents s (s.inode dp).inum des')
      (fun i => δ i + (if Named de ∧ de.inum = i then 1 else 0) +
        (if i = (s.inode dp).inum ∧ Named de ∧ (s.disk de.inum).type = .T_DIR then 1 else 0)) := by
  obtain ⟨htd, -⟩ := h.cached dp hp hv
  refine h.ofDisk (h.toDiskOK.add (htd ▸ ht) ha hdots hself) fun y => ?_
  by_cases hy : y = (s.inode dp).inum
  · subst hy
    simp
  · simp [Function.update_of_ne hy]

/-- **An entry cleared**: entry `k` of directory `dp`, a name. -/
lemma clear (h : Inv N s δ) {dp : Fin NINODE} {k : ℕ}
    (hk : k < (s.disk (s.inode dp).inum).dirents.length)
    (hn : Named (s.disk (s.inode dp).inum).dirents[k]) :
    Inv N (setDirents s (s.inode dp).inum ((s.disk (s.inode dp).inum).dirents.set k ⟨0, []⟩))
      (fun i => δ i - (if (s.disk (s.inode dp).inum).dirents[k].inum = i then 1 else 0) -
        (if i = (s.inode dp).inum ∧
          (s.disk (s.disk (s.inode dp).inum).dirents[k].inum).type = .T_DIR then 1 else 0)) := by
  refine h.ofDisk (h.toDiskOK.clear hk hn) fun y => ?_
  by_cases hy : y = (s.inode dp).inum
  · subst hy
    simp
  · simp [Function.update_of_ne hy]

/-- **`ialloc` keeps the invariant** with no adjustment: the inode it takes was free. -/
lemma ialloc (h : Inv N s δ) (hδ : ∀ i, δ i ≤ 0) {t : IType} {s' : Sys σ}
    (ha : Xv6.Link.ialloc N s ROOTDEV t = .ok (some ip, s')) : Inv N s' δ := by
  obtain ⟨x, hx0, hxN, hfree, hg⟩ := ialloc_some ha
  have hs : Inv N (setDisk s x ⟨t, 0, 0, []⟩) δ :=
    { toDiskOK := h.toDiskOK.alloc hfree hx0 hxN hδ t
      unique := h.unique
      dev := h.dev
      cached := fun j hj hv => by
        have hne : (s.inode j).inum ≠ x := fun he => (h.cached j hj hv).2.2.2 (he ▸ hfree)
        simpa [setDisk, Function.update_of_ne hne] using h.cached j hj hv }
  exact hs.iget rfl hg

end Inv

end Writes

end Xv6.Link
