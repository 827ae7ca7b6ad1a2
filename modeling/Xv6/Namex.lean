import Xv6.Namei

/-!
`namex` of `fs.c` as a walk over the components of its path.

`skipelem` cuts a path into its non-empty `/`-separated components, in order, each cut to its
first `DIRSIZ` bytes (`elems_eq_components`); a name shorter than `DIRSIZ` is the C string up to
the `NUL` `skipelem` writes after it. `namex`'s loop is a walk over those names
(`namexLoop_eq_walk`). Each round locks the directory it holds and checks that it is a
directory, looks the next name up, moves to what it finds, and puts the directory. With
`nameiparent` the walk stops one name early. It returns the directory that the walk over all
names but the last reaches, once that is checked to be a directory, and it leaves the last name
in `name` (`walk_parent`). Every reference the walk takes is put again, except the one it
returns (`walk_refs`).
-/

namespace Xv6.Namei

open Xv6.Param Xv6.Itable

variable {σ : Type}

/-! ### The components of a path -/

/-- The non-empty `/`-separated components of a path, in order. -/
def components (path : List Char) : List (List Char) :=
  (path.splitOn '/').filter fun l => !l.isEmpty

/-- The names `namex` obtains from `skipelem`, called again and again until it returns `0`. -/
def elems (path : List Char) : List (List Char) :=
  match h : skipelem path with
  | none => []
  | some (rest, name) => name :: elems rest
termination_by path.length
decreasing_by exact skipelem_length h

section Components

variable {w y path rest name : List Char}

lemma components_slash (x : List Char) : components ('/' :: x) = components x := by
  unfold components
  rw [List.splitOn_cons_eq_if_modifyHead, if_pos (by decide), List.filter_cons]
  rfl

lemma components_dropWhile (x : List Char) :
    components (x.dropWhile (· = '/')) = components x := by
  induction x with
  | nil => rfl
  | cons c x ih =>
    by_cases hc : c = '/'
    · subst hc
      rw [List.dropWhile_cons_of_pos (by decide), ih, components_slash]
    · rw [List.dropWhile_cons_of_neg (by simpa using hc)]

lemma dropWhile_head {p : Char → Bool} {l t : List Char} {a : Char} (h : l.dropWhile p = a :: t) :
    p a = false := by
  have := List.head?_dropWhile_not p l
  rw [h] at this
  exact this

/-- A word up to the next slash, or the end of the path, is the next component. -/
lemma components_word (hw : ∀ a ∈ w, a ≠ '/') (hne : w ≠ [])
    (hy : ∀ a t, y = a :: t → a = '/') : components (w ++ y) = w :: components y := by
  have hw' : ∀ a ∈ w, (a == '/') = false := fun a ha => beq_eq_false_iff_ne.2 (hw a ha)
  cases y with
  | nil =>
    unfold components
    rw [List.append_nil, List.splitOn_eq_singleton_of_beq_eq_false hw', List.splitOn_nil]
    simp [hne]
  | cons a y =>
    obtain rfl := hy a y rfl
    rw [components_slash]
    unfold components
    rw [List.splitOn_append_cons_of_forall_mem_beq_eq_false hw' '/' (by decide),
      List.filter_cons, if_pos (by simpa using hne)]

/-- What `skipelem` returns is the next component, and a path whose components are the rest. -/
lemma skipelem_some (h : skipelem path = some (rest, name)) :
    ∃ w, components path = w :: components rest ∧ name = w.take DIRSIZ := by
  unfold skipelem at h
  split at h
  · cases h
  rename_i c cs hcs
  cases h
  have hc := (dropWhile_slash_cons hcs).1
  refine ⟨(c :: cs).takeWhile (· ≠ '/'), ?_, rfl⟩
  -- the path is slashes, the word, and a rest that is empty or starts with a slash
  have hw : ∀ a ∈ (c :: cs).takeWhile (· ≠ '/'), a ≠ '/' := fun a ha => by
    simpa using List.mem_takeWhile_imp ha
  have hne : (c :: cs).takeWhile (· ≠ '/') ≠ [] := by simp [hc]
  have hy : ∀ a t, (c :: cs).dropWhile (· ≠ '/') = a :: t → a = '/' := fun a t h => by
    simpa using dropWhile_head h
  rw [← components_dropWhile path, hcs,
    ← List.takeWhile_append_dropWhile (p := fun x => decide (x ≠ '/')) (l := c :: cs),
    components_word hw hne hy, components_dropWhile, List.takeWhile_append_dropWhile]

lemma skipelem_none_iff : skipelem path = none ↔ ∀ c ∈ path, c = '/' := by
  unfold skipelem
  split
  · rename_i h
    exact iff_of_true rfl fun c hc => by simpa using List.dropWhile_eq_nil_iff.1 h c hc
  · rename_i c cs h
    refine iff_of_false (by simp) fun hall => ?_
    rw [List.dropWhile_eq_nil_iff.2 fun c hc => by simpa using hall c hc] at h
    cases h

lemma components_of_skipelem_none (h : skipelem path = none) : components path = [] := by
  rw [← components_dropWhile]
  unfold skipelem at h
  split at h
  · rename_i h'
    rw [h']
    rfl
  · cases h

lemma rest_eq_nil_iff (h : skipelem path = some (rest, name)) : rest = [] ↔ skipelem rest = none := by
  unfold skipelem at h
  split at h
  · cases h
  cases h
  constructor
  · intro h0
    rw [h0]
    rfl
  · intro hn
    rw [skipelem_none_iff] at hn
    cases hr : List.dropWhile (· = '/') (List.dropWhile (· ≠ '/') (_ :: _)) with
    | nil => rfl
    | cons a t =>
      rw [hr] at hn
      exact absurd (hn a (.head _)) (by simpa using dropWhile_head hr)

/-- **`skipelem` yields the components**: the names `namex` obtains are the non-empty
`/`-separated components of the path, in order, each cut to `DIRSIZ` bytes. By induction on
the path, one `skipelem` at a time. -/
theorem elems_eq_components (path : List Char) :
    elems path = (components path).map (·.take DIRSIZ) := by
  rw [elems]
  split
  · rename_i h
    rw [components_of_skipelem_none h]
    rfl
  · rename_i rest name h
    obtain ⟨w, hc, rfl⟩ := skipelem_some h
    rw [hc, List.map_cons, elems_eq_components rest]
termination_by path.length
decreasing_by exact skipelem_length h

end Components

/-! ### The loop as a walk over the names -/

section Walk

variable {path rest name : List Char}

lemma elems_none (h : skipelem path = none) : elems path = [] := by
  rw [elems]
  split <;> simp_all

lemma elems_some (h : skipelem path = some (rest, name)) : elems path = name :: elems rest := by
  rw [elems]
  split <;> simp_all

lemma elems_eq_nil_iff : elems path = [] ↔ skipelem path = none := by
  cases h : skipelem path with
  | none => exact iff_of_true (elems_none h) rfl
  | some r => exact iff_of_false (by rw [elems_some h]; simp) (by simp)

lemma namexLoop_none (nameiparent : Bool) (s : Sys σ) (ip : Fin NINODE) (h : skipelem path = none) :
    namexLoop nameiparent s ip name path =
      if nameiparent then .ok (none, name, iput s ip) else .ok (some ip, name, s) := by
  rw [namexLoop]
  split <;> simp_all

lemma namexLoop_some (nameiparent : Bool) (s : Sys σ) (ip : Fin NINODE) {name' : List Char}
    (h : skipelem path = some (rest, name)) :
    namexLoop nameiparent s ip name' path =
      match ilock s ip with
      | .error e => .error e
      | .ok s =>
        if (s.inode ip).type ≠ .T_DIR then .ok (none, name, iput s ip)
        else if nameiparent ∧ rest = [] then .ok (some ip, name, s)
        else
          match dirlookup s ip name with
          | .error e => .error e
          | .ok (none, s) => .ok (none, name, iput s ip)
          | .ok (some next, s) => namexLoop nameiparent (iput s ip) next name rest := by
  rw [namexLoop]
  split
  · simp_all
  · rename_i rest' name'' h'
    rw [h] at h'
    obtain ⟨rfl, rfl⟩ := Prod.mk.inj (Option.some.inj h')
    rfl

/-- `namex`'s loop over the names still to look up, from the entry `ip` it holds, with `name`
the last name copied. -/
def walk (nameiparent : Bool) (s : Sys σ) (ip : Fin NINODE) (name : List Char) :
    List (List Char) → Except String (Option (Fin NINODE) × List Char × Sys σ)
  | [] => if nameiparent then .ok (none, name, iput s ip) else .ok (some ip, name, s)
  | n :: ns =>
    match ilock s ip with
    | .error e => .error e
    | .ok s =>
      if (s.inode ip).type ≠ .T_DIR then .ok (none, n, iput s ip)
      else if nameiparent ∧ ns = [] then .ok (some ip, n, s)
      else
        match dirlookup s ip n with
        | .error e => .error e
        | .ok (none, s) => .ok (none, n, iput s ip)
        | .ok (some next, s) => walk nameiparent (iput s ip) next n ns

/-- **`namex`'s loop walks the names `skipelem` yields**: the test `*path == '\0'` is the test
that no name is left. By induction on the path, one `skipelem` a round. -/
theorem namexLoop_eq_walk (nameiparent : Bool) : ∀ (path : List Char) (s : Sys σ)
    (ip : Fin NINODE) (name : List Char),
    namexLoop nameiparent s ip name path = walk nameiparent s ip name (elems path)
  | path, s, ip, name => by
    cases hs : skipelem path with
    | none => rw [namexLoop_none _ _ _ hs, elems_none hs, walk]
    | some p =>
      obtain ⟨rest, nm⟩ := p
      have hlt := skipelem_length hs
      have hnil : rest = [] ↔ elems rest = [] := (rest_eq_nil_iff hs).trans elems_eq_nil_iff.symm
      rw [namexLoop_some _ _ _ hs, elems_some hs, walk]
      cases ilock s ip with
      | error e => rfl
      | ok s₁ =>
        simp only [hnil]
        split_ifs
        · rfl
        · rfl
        · cases dirlookup s₁ ip nm with
          | error e => rfl
          | ok r =>
            obtain ⟨_ | next, s₂⟩ := r
            · rfl
            · exact namexLoop_eq_walk nameiparent rest (iput s₂ ip) next nm
termination_by path => path.length
decreasing_by exact hlt

/-- The last round of `nameiparent`'s walk, at the directory `d` the names before the last
lead to: it is locked, checked to be a directory, and returned with the last name `n`. -/
def parentStep (s : Sys σ) (d : Fin NINODE) (n : List Char) :
    Except String (Option (Fin NINODE) × List Char × Sys σ) :=
  match ilock s d with
  | .error e => .error e
  | .ok s => if (s.inode d).type ≠ .T_DIR then .ok (none, n, iput s d) else .ok (some d, n, s)

/-- **`nameiparent` stops one name early**: its walk over the names is the walk of `namei` over
all names but the last, then the last round at the directory that walk returns, which keeps
the last name in `name`. By induction on the names before the last. -/
theorem walk_parent (ns : List (List Char)) (n : List Char) :
    ∀ (s : Sys σ) (ip : Fin NINODE) (name : List Char), walk true s ip name (ns ++ [n]) =
      match walk false s ip name ns with
      | .error e => .error e
      | .ok (none, name', s') => .ok (none, name', s')
      | .ok (some d, _, s') => parentStep s' d n := by
  induction ns with
  | nil =>
    intro s ip name
    rw [List.nil_append, walk, walk]
    simp only [Bool.false_eq_true, if_false, parentStep]
    cases ilock s ip with
    | error e => rfl
    | ok s₁ =>
      simp only [true_and, if_true]
  | cons m ms ih =>
    intro s ip name
    rw [List.cons_append, walk, walk]
    cases ilock s ip with
    | error e => rfl
    | ok s₁ =>
      -- a name is left after `m`, so neither walk stops at `m`
      simp only [List.append_eq_nil_iff, List.cons_ne_self, and_false, false_and, if_false,
        Bool.false_eq_true]
      split_ifs
      · rfl
      · cases dirlookup s₁ ip m with
        | error e => rfl
        | ok r =>
          obtain ⟨_ | next, s₂⟩ := r
          · rfl
          · exact ih (iput s₂ ip) next m

end Walk

/-! ### References -/

section Refs

variable {s s' : Sys σ} {ip : Fin NINODE}

lemma ilock_ref (h : ilock s ip = .ok s') (e : Fin NINODE) : (s'.inode e).ref = (s.inode e).ref := by
  unfold ilock at h
  dsimp only at h
  split_ifs at h
  · cases h
    rfl
  · cases h
    by_cases he : e = ip
    · subst he
      simp
    · simp [Function.update_of_ne he]

lemma iput_inode_ref (e : Fin NINODE) :
    ((iput s ip).inode e).ref = if e = ip then (s.inode ip).ref - 1 else (s.inode e).ref := by
  unfold iput Itable.iput
  split_ifs with hfree he he
  · subst he
    simp [Itable.iputFree]
  · simp [Itable.iputFree, Function.update_of_ne he]
  · subst he
    simp
  · simp [Function.update_of_ne he]

lemma iput_ref (h : 0 < (s.inode ip).ref) (e : Fin NINODE) :
    ((iput s ip).inode e).ref + (if e = ip then 1 else 0) = (s.inode e).ref := by
  rw [iput_inode_ref]
  by_cases he : e = ip
  · subst he
    simp only [if_true]
    omega
  · simp only [he, if_false, Nat.add_zero]

lemma iget_ref {dev inum : ℕ} (h : iget s dev inum = .ok (ip, s')) (e : Fin NINODE) :
    (s'.inode e).ref = (s.inode e).ref + if e = ip then 1 else 0 := by
  unfold iget at h
  split at h
  · cases h
  rename_i ip' t ht
  cases h
  rcases Itable.iget_ok ht with ⟨-, rfl⟩ | ⟨-, h0, rfl⟩
  · by_cases he : e = ip
    · subst he
      simp [Itable.idup]
    · simp [Itable.idup, he]
  · by_cases he : e = ip
    · subst he
      simp [h0]
    · simp [he]

lemma dirlookup_ref {dp : Fin NINODE} {name : List Char} {r : Option (Fin NINODE)}
    (h : dirlookup s dp name = .ok (r, s')) (e : Fin NINODE) :
    (s'.inode e).ref = (s.inode e).ref + if r = some e then 1 else 0 := by
  unfold dirlookup at h
  split_ifs at h
  split at h
  · cases h
    simp
  · split at h
    · cases h
    · rename_i ip' s₁ hg
      cases h
      rw [iget_ref hg e]
      by_cases he : e = ip'
      · simp [he]
      · simp [he, Ne.symm he]

/-- **The walk puts every reference it takes but the one it returns**: it starts holding `ip`
and ends holding what it returns. By induction on the names. -/
theorem walk_refs (nameiparent : Bool) (ns : List (List Char)) :
    ∀ (s : Sys σ) (ip : Fin NINODE) (name : List Char) (r : Option (Fin NINODE))
      (name' : List Char) (s' : Sys σ), walk nameiparent s ip name ns = .ok (r, name', s') →
      0 < (s.inode ip).ref → ∀ e, (s'.inode e).ref + (if e = ip then 1 else 0) =
        (s.inode e).ref + if r = some e then 1 else 0 := by
  induction ns with
  | nil =>
    intro s ip name r name' s' h hpos e
    rw [walk] at h
    split_ifs at h
    · cases h
      simpa using iput_ref hpos e
    · cases h
      by_cases he : e = ip
      · subst he
        simp
      · simp [he, Ne.symm he]
  | cons n ns ih =>
    intro s ip name r name' s' h hpos e
    rw [walk] at h
    split at h
    · cases h
    rename_i s₁ hl
    have hl' := ilock_ref hl
    have hpos₁ : 0 < (s₁.inode ip).ref := by rw [hl']; exact hpos
    split_ifs at h
    · -- not a directory
      cases h
      simpa [hl'] using iput_ref hpos₁ e
    · -- `nameiparent` stops here
      cases h
      by_cases he : e = ip
      · subst he
        simp [hl']
      · simp [he, Ne.symm he, hl']
    · split at h
      · cases h
      · -- not found
        cases h
        rename_i s₂ hd
        have hd' := dirlookup_ref hd
        have hpos₂ : 0 < (s₂.inode ip).ref := by simpa [hd' ip] using hpos₁
        simpa [hd', hl'] using iput_ref hpos₂ e
      · -- found: the walk goes on from `next`, which has a reference
        rename_i next s₂ hd
        have hd' := dirlookup_ref hd
        have hpos₂ : 0 < (s₂.inode ip).ref :=
          Nat.lt_of_lt_of_le hpos₁ (by rw [hd' ip]; exact Nat.le_add_right _ _)
        have hnext : 0 < ((iput s₂ ip).inode next).ref := by
          have h2 : (s₂.inode next).ref = (s₁.inode next).ref + 1 := by simpa using hd' next
          rw [iput_inode_ref]
          split_ifs with he
          · subst he
            omega
          · omega
        have ih' := ih _ next n r name' s' h hnext e
        have hput := iput_ref hpos₂ e
        rw [hd' e, hl' e] at hput
        generalize (if r = some e then 1 else 0) = k at ih' ⊢
        generalize (if e = ip then 1 else 0) = g at ih' hput ⊢
        rcases eq_or_ne e next with rfl | hne
        · simp only [if_true] at ih' hput
          omega
        · simp only [hne, Ne.symm hne, if_false, Option.some.injEq] at ih' hput
          omega

/-- **`namex` returns with one more reference on what it returns and no other change in
references**, from the root or from the current directory, on every exit. -/
theorem namex_refs {p : Fin NPROC} {path : List Char} {nameiparent : Bool}
    {r : Option (Fin NINODE)} {name : List Char} (h : namex s p path nameiparent = .ok (r, name, s'))
    (e : Fin NINODE) : (s'.inode e).ref = (s.inode e).ref + if r = some e then 1 else 0 := by
  unfold namex at h
  split at h
  · -- from the root: `iget` takes the reference the walk starts with
    split at h
    · cases h
    rename_i ip s₁ hg
    rw [namexLoop_eq_walk] at h
    have hw := walk_refs _ _ _ _ _ _ _ _ h (by simp [iget_ref hg ip]) e
    rw [iget_ref hg e] at hw
    omega
  · -- from the current directory: `idup` takes it
    rw [namexLoop_eq_walk] at h
    have hcwd : ∀ e', (({ s with inode := idup s.inode (s.cwd p) } : Sys σ).inode e').ref =
        (s.inode e').ref + if e' = s.cwd p then 1 else 0 := by
      intro e'
      by_cases he : e' = s.cwd p
      · subst he
        simp [idup]
      · simp [idup, he]
    have hw := walk_refs _ _ _ _ _ _ _ _ h (by rw [hcwd]; simp) e
    rw [hcwd e] at hw
    omega

/-- `nameiparent` of a path with no components returns `0`, having put the reference it took. -/
theorem namex_parent_of_components_nil {p : Fin NPROC} {path : List Char}
    {r : Option (Fin NINODE)} {name : List Char} (hc : components path = [])
    (h : namex s p path true = .ok (r, name, s')) : r = none := by
  have he : elems path = [] := by rw [elems_eq_components, hc, List.map_nil]
  unfold namex at h
  split at h
  · split at h
    · cases h
    rw [namexLoop_eq_walk, he, walk, if_pos rfl] at h
    cases h
    rfl
  · rw [namexLoop_eq_walk, he, walk, if_pos rfl] at h
    cases h
    rfl

end Refs

/-- **Path lookup walks the path's components**: the names `namex` obtains from `skipelem` are
the non-empty `/`-separated components of the path, in order, each cut to `DIRSIZ` bytes, and
`skipelem` returns `0` exactly when only slashes are left. `namex`'s loop is the walk over those
names, and with `nameiparent` the walk stops before the last name: it returns the directory the
walk of `namei` over the names before it reaches, checked to be a directory, and leaves the last
name in `name`. `nameiparent` of a path with no components returns `0`. Every reference
`namex` takes is put again, on every exit, except the one on the inode it returns. -/
theorem namex_walks_components :
    (∀ path : List Char, elems path = (components path).map (·.take DIRSIZ)) ∧
    (∀ path : List Char, skipelem path = none ↔ ∀ c ∈ path, c = '/') ∧
    (∀ (nameiparent : Bool) (s : Sys σ) (ip : Fin NINODE) (name path : List Char),
      namexLoop nameiparent s ip name path = walk nameiparent s ip name (elems path)) ∧
    (∀ (s : Sys σ) (ip : Fin NINODE) (name : List Char) (ns : List (List Char)) (n : List Char),
      walk true s ip name (ns ++ [n]) =
        match walk false s ip name ns with
        | .error e => .error e
        | .ok (none, name', s') => .ok (none, name', s')
        | .ok (some d, _, s') => parentStep s' d n) ∧
    (∀ (s s' : Sys σ) (p : Fin NPROC) (path name : List Char) (r : Option (Fin NINODE)),
      components path = [] → namex s p path true = .ok (r, name, s') → r = none) ∧
    (∀ (s s' : Sys σ) (p : Fin NPROC) (path name : List Char) (nameiparent : Bool)
      (r : Option (Fin NINODE)), namex s p path nameiparent = .ok (r, name, s') →
      ∀ e, (s'.inode e).ref = (s.inode e).ref + if r = some e then 1 else 0) :=
  ⟨elems_eq_components, fun _ => skipelem_none_iff,
    fun nameiparent s ip name path => namexLoop_eq_walk nameiparent path s ip name,
    fun s ip name ns n => walk_parent ns n s ip name,
    fun _ _ _ _ _ _ hc h => namex_parent_of_components_nil hc h,
    fun _ _ _ _ _ _ _ h e => namex_refs h e⟩

/-- A one-file image after boot: `/` holding `.`, `..` and `A`. -/
def bootOne : Sys (List ℕ) := Sys.boot [] (image 1)

/-- Whether a `namex` returned, with an inode or with none as `file` says. -/
def returned (file : Bool) : Except String (Option (Fin NINODE) × List Char × Sys (List ℕ)) → Bool
  | .ok (r, _, _) => r.isSome == file
  | .error _ => false

lemma returned_bootOne :
    returned true (namex bootOne 0 ['/', 'A'] false) = true ∧
      returned false (namex bootOne 0 ['/'] true) = true := by
  decide +kernel

theorem namex_walks_components_bootOne :
    (∃ ip name s', namex bootOne 0 ['/', 'A'] false = .ok (some ip, name, s') ∧
      ∀ e, (s'.inode e).ref = (bootOne.inode e).ref + if some ip = some e then 1 else 0) ∧
    ∃ name s', namex bootOne 0 ['/'] true = .ok (none, name, s') := by
  obtain ⟨-, -, -, -, hnil, hrefs⟩ := namex_walks_components (σ := List ℕ)
  obtain ⟨h₁, h₂⟩ := returned_bootOne
  refine ⟨?_, ?_⟩
  · rcases hn : namex bootOne 0 ['/', 'A'] false with e | ⟨r, name, s'⟩
    · rw [hn] at h₁
      cases h₁
    · rw [hn] at h₁
      obtain ⟨ip, rfl⟩ := Option.isSome_iff_exists.1 (by simpa [returned] using h₁)
      exact ⟨ip, name, s', rfl, hrefs _ _ 0 _ _ false _ hn⟩
  · -- `/` has no components, so `nameiparent` returns none
    rcases hn : namex bootOne 0 ['/'] true with e | ⟨r, name, s'⟩
    · rw [hn] at h₂
      cases h₂
    · obtain rfl := hnil _ _ 0 ['/'] name r (by decide) hn
      exact ⟨name, s', rfl⟩

end Xv6.Namei
