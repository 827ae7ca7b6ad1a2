import Xv6.Itable
import Xv6.FileTable

/-!
Path lookup (`namex` of `fs.c`) and the system calls that hold inodes: `sys_open` of an
existing file, `sys_close` and `sys_chdir` of `sysfile.c`, and the current directory and open
files that `kfork`, `kexit` and `userinit` pass on. The file layer is `FileTable`'s; this
module puts the inode table under it and the disk the inodes are read from.

Each call is one step; `begin_op`/`end_op` and the sleep-locks are not modelled. `iput` runs
both of its critical sections, and `ilock` fills an entry from the disk. The on-disk inode is
read as its type, major, link count and, for a directory, its entries in order (`readi` and
`bmap` are not modelled), all of device `ROOTDEV`.

Nothing bounds the number of inodes held: every open file keeps its inode's entry, and four
processes hold more descriptors than the table has entries. With every entry in use, the next
lookup of an inode not in the table reaches `iget`'s panic instead of failing the call.
-/

namespace Xv6.Namei

open Xv6.Param Xv6.Lib.Alloc Xv6.Lib.Reach
open Xv6.Itable (IType Inode Table)
open Xv6.FileTable (FSys Life Release)

def DIRSIZ : ℕ := 14
def ROOTINO : ℕ := 1
def O_RDONLY : ℤ := 0x000
def O_CREATE : ℤ := 0x200

/-- `struct dirent` as `readi` decodes it: the name is the bytes before its first NUL. -/
structure Dirent where
  inum : ℕ
  name : List Char
  deriving DecidableEq, Repr

/-- `struct dinode` as these calls read it; a directory's content is its entries. -/
structure DInode where
  type : IType
  major : ℤ
  nlink : ℕ
  dirents : List Dirent
  deriving DecidableEq, Repr

variable {σ : Type} (P : Pool σ)

/-- The file layer, the inode table, each process's `cwd` (meaningful for live processes) and
the inodes of the disk by number. -/
structure Sys (σ : Type) where
  fs : FSys σ
  inode : Table
  cwd : Fin NPROC → Fin NINODE
  disk : ℕ → DInode

def Sys.boot (mem : σ) (disk : ℕ → DInode) : Sys σ :=
  ⟨FSys.boot mem, Itable.boot, fun _ => 0, disk⟩

/-! ## The inode calls on the whole system -/

def iget (s : Sys σ) (dev inum : ℕ) : Except String (Fin NINODE × Sys σ) :=
  match Itable.iget s.inode dev inum with
  | .error e => .error e
  | .ok (ip, t) => .ok (ip, { s with inode := t })

/-- `ilock(ip)`: an entry not `valid` is filled from its on-disk inode, whose type must not
be free. -/
def ilock (s : Sys σ) (ip : Fin NINODE) : Except String (Sys σ) :=
  if (s.inode ip).ref < 1 then .error "ilock"
  else if (s.inode ip).valid then .ok s
  else
    let d := s.disk (s.inode ip).inum
    if d.type = .free then .error "ilock: no type"
    else
      let e := { s.inode ip with type := d.type, major := d.major, nlink := d.nlink, valid := true }
      .ok { s with inode := Function.update s.inode ip e }

/-- `iput(ip)`: the first critical section, and after it, in the truncate-and-free branch,
the rest of the branch, which frees the inode on disk (`itrunc` empties it and `iupdate`
writes the type `0`). -/
def iput (s : Sys σ) (ip : Fin NINODE) : Sys σ :=
  match Itable.iput s.inode ip with
  | (false, t) => { s with inode := t }
  | (true, t) =>
    { s with
      inode := Itable.iputFree t ip
      disk := Function.update s.disk (s.inode ip).inum
        ⟨.free, (s.inode ip).major, (s.inode ip).nlink, []⟩ }

def release (s : Sys σ) : Release → Sys σ
  | .iput ip => if h : ip < NINODE then iput s ⟨ip, h⟩ else s
  | _ => s

/-! ## Paths -/

def namecmp (s t : List Char) : Bool := s.take DIRSIZ == t.take DIRSIZ

/-- `skipelem(path, name)`: the path after its next element, and the element cut to `DIRSIZ`
bytes; `none` when only slashes are left. -/
def skipelem (path : List Char) : Option (List Char × List Char) :=
  match path.dropWhile (· = '/') with
  | [] => none
  | c :: cs => some (((c :: cs).dropWhile (· ≠ '/')).dropWhile (· = '/'),
      ((c :: cs).takeWhile (· ≠ '/')).take DIRSIZ)

lemma dropWhile_slash_cons {path cs : List Char} {c : Char}
    (h : path.dropWhile (· = '/') = c :: cs) : c ≠ '/' ∧ cs.length < path.length := by
  induction path with
  | nil => cases h
  | cons a as ih =>
    by_cases ha : a = '/'
    · rw [List.dropWhile_cons_of_pos (by simpa using ha)] at h
      obtain ⟨hc, hl⟩ := ih h
      exact ⟨hc, by simp only [List.length_cons]; omega⟩
    · rw [List.dropWhile_cons_of_neg (by simpa using ha)] at h
      cases h
      exact ⟨ha, by simp⟩

lemma skipelem_length {path rest name : List Char} (h : skipelem path = some (rest, name)) :
    rest.length < path.length := by
  unfold skipelem at h
  split at h
  · cases h
  · rename_i c cs hcs
    cases h
    obtain ⟨hc, hlt⟩ := dropWhile_slash_cons hcs
    rw [List.dropWhile_cons_of_pos (p := fun x => decide (x ≠ '/')) (by simpa using hc)]
    calc _ ≤ (cs.dropWhile (· ≠ '/')).length := List.length_dropWhile_le _ _
      _ ≤ cs.length := List.length_dropWhile_le _ _
      _ < path.length := hlt

def dirlookup (s : Sys σ) (dp : Fin NINODE) (name : List Char) :
    Except String (Option (Fin NINODE) × Sys σ) :=
  if (s.inode dp).type ≠ .T_DIR then .error "dirlookup not DIR"
  else
    match (s.disk (s.inode dp).inum).dirents.find? fun de => de.inum ≠ 0 ∧ namecmp name de.name with
    | none => .ok (none, s)
    | some de =>
      match iget s (s.inode dp).dev de.inum with
      | .error e => .error e
      | .ok (ip, s) => .ok (some ip, s)

/-- The loop of `namex` from the entry `ip` it holds, with `name` the last element copied.
It returns the entry found, with its reference, or `none`. -/
def namexLoop (nameiparent : Bool) (s : Sys σ) (ip : Fin NINODE) (name path : List Char) :
    Except String (Option (Fin NINODE) × List Char × Sys σ) :=
  match h : skipelem path with
  | none => if nameiparent then .ok (none, name, iput s ip) else .ok (some ip, name, s)
  | some (rest, name) =>
    have : rest.length < path.length := skipelem_length h
    match ilock s ip with
    | .error e => .error e
    | .ok s =>
      if (s.inode ip).type ≠ .T_DIR then .ok (none, name, iput s ip)
      else if nameiparent ∧ rest = [] then .ok (some ip, name, s)
      else
        match dirlookup s ip name with
        | .error e => .error e
        | .ok (none, s) => .ok (none, name, iput s ip)
        | .ok (some next, s) => namexLoop nameiparent (iput s ip) next name rest
termination_by path.length

/-- `namex(path, nameiparent, name)` for process `p`: from the root for a path starting with
`/`, else from `p`'s current directory. -/
def namex (s : Sys σ) (p : Fin NPROC) (path : List Char) (nameiparent : Bool) :
    Except String (Option (Fin NINODE) × List Char × Sys σ) :=
  match path with
  | '/' :: _ =>
    match iget s ROOTDEV ROOTINO with
    | .error e => .error e
    | .ok (ip, s) => namexLoop nameiparent s ip [] path
  | _ => namexLoop nameiparent { s with inode := Itable.idup s.inode (s.cwd p) } (s.cwd p) [] path

def namei (s : Sys σ) (p : Fin NPROC) (path : List Char) :
    Except String (Option (Fin NINODE) × Sys σ) :=
  match namex s p path false with
  | .error e => .error e
  | .ok (ip, _, s) => .ok (ip, s)

/-! ## The calls -/

/-- `sys_open(path, omode)` for an `omode` without `O_CREATE`: the path part, then the file
layer's part with the inode found. The inode is put again when the file layer fails. -/
def sys_open (s : Sys σ) (p : Fin NPROC) (path : List Char) (omode : ℤ) :
    Except String (ℤ × Sys σ) :=
  match namei s p path with
  | .error e => .error e
  | .ok (none, s) => .ok (-1, s)
  | .ok (some ip, s) =>
    match ilock s ip with
    | .error e => .error e
    | .ok s =>
      if (s.inode ip).type = .T_DIR ∧ omode ≠ O_RDONLY then .ok (-1, iput s ip)
      else if (s.inode ip).type = .T_DEVICE ∧
          ((s.inode ip).major < 0 ∨ NDEV ≤ (s.inode ip).major) then .ok (-1, iput s ip)
      else
        match FileTable.sys_open P s.fs p (some (ip, decide ((s.inode ip).type = .T_DEVICE)))
            omode with
        | none => .error "fileclose"
        | some (r, fs) =>
          if r = -1 then .ok (-1, iput { s with fs := fs } ip) else .ok (r, { s with fs := fs })

def sys_close (s : Sys σ) (p : Fin NPROC) (fd : ℤ) : Except String (ℤ × Sys σ) :=
  match FileTable.argfd s.fs p fd with
  | none => .ok (-1, s)
  | some (fd, f) =>
    match FileTable.fileclose P (s.fs.setFd p fd none) f with
    | none => .error "fileclose"
    | some (fs, r) => .ok (0, release { s with fs := fs } r)

def sys_chdir (s : Sys σ) (p : Fin NPROC) (path : List Char) : Except String (ℤ × Sys σ) :=
  match namei s p path with
  | .error e => .error e
  | .ok (none, s) => .ok (-1, s)
  | .ok (some ip, s) =>
    match ilock s ip with
    | .error e => .error e
    | .ok s =>
      if (s.inode ip).type ≠ .T_DIR then .ok (-1, iput s ip)
      else
        let s := iput s (s.cwd p)
        .ok (0, { s with cwd := Function.update s.cwd p ip })

/-- The file and directory part of `kfork` into slot `np`: the descriptor loop, and
`np->cwd = idup(p->cwd)`. -/
def kfork (s : Sys σ) (p np : Fin NPROC) : Option (Sys σ) :=
  (FileTable.forkFiles { s.fs with life := Function.update s.fs.life np .LIVE } p np).map
    fun fs =>
      { s with
        fs := fs
        inode := Itable.idup s.inode (s.cwd p)
        cwd := Function.update s.cwd np (s.cwd p) }

def exitFd (p : Fin NPROC) (s : Sys σ) (fd : Fin NOFILE) : Option (Sys σ) :=
  match s.fs.ofile p fd with
  | none => some s
  | some f => (FileTable.fileclose P s.fs f).map fun r =>
      release { s with fs := r.1.setFd p fd none } r.2

/-- The file and directory part of `kexit`: the descriptor loop, `iput(p->cwd)`, and the slot
becomes a zombie. -/
def kexit (s : Sys σ) (p : Fin NPROC) : Option (Sys σ) :=
  ((List.finRange NOFILE).foldlM (exitFd P p) s).map fun s =>
    let s := iput s (s.cwd p)
    { s with fs := { s.fs with life := Function.update s.fs.life p .ZOMBIE } }

/-- The calls: `sys_open` without `O_CREATE`, `sys_close`, `sys_chdir`, the file layer's
`sys_dup` and `sys_pipe`, which hold no inode, `kfork`, `kexit`, the reaping of a zombie, and
`userinit`'s start of a process in `/`. A call that panics is no step. -/
inductive Step : Sys σ → Sys σ → Prop
  | sys_open {s s' : Sys σ} {p : Fin NPROC} {path : List Char} {omode r : ℤ} :
      s.fs.life p = .LIVE → Int.land omode O_CREATE = 0 →
      sys_open P s p path omode = .ok (r, s') → Step s s'
  | sys_close {s s' : Sys σ} {p : Fin NPROC} {fd r : ℤ} :
      s.fs.life p = .LIVE → sys_close P s p fd = .ok (r, s') → Step s s'
  | sys_chdir {s s' : Sys σ} {p : Fin NPROC} {path : List Char} {r : ℤ} :
      s.fs.life p = .LIVE → sys_chdir s p path = .ok (r, s') → Step s s'
  | sys_dup {s : Sys σ} {fs : FSys σ} {p : Fin NPROC} {fd r : ℤ} :
      s.fs.life p = .LIVE → FileTable.sys_dup s.fs p fd = some (r, fs) → Step s { s with fs := fs }
  | sys_pipe {s : Sys σ} {fs : FSys σ} {p : Fin NPROC} {copyok : Bool} {r : ℤ} :
      s.fs.life p = .LIVE → FileTable.sys_pipe P s.fs p copyok = some (r, fs) →
      Step s { s with fs := fs }
  | fork {s s' : Sys σ} {p np : Fin NPROC} : s.fs.life p = .LIVE → s.fs.life np = .UNUSED →
      kfork s p np = some s' → Step s s'
  | exit {s s' : Sys σ} {p : Fin NPROC} : s.fs.life p = .LIVE → kexit P s p = some s' →
      Step s s'
  | reap {s : Sys σ} {i : Fin NPROC} : s.fs.life i = .ZOMBIE →
      Step s { s with fs := { s.fs with life := Function.update s.fs.life i .UNUSED } }
  | start {s s' : Sys σ} {i : Fin NPROC} {ip : Fin NINODE} : s.fs.life i = .UNUSED →
      namei s i ['/'] = .ok (some ip, s') →
      Step s
        { s' with
          fs := { s'.fs with life := Function.update s'.fs.life i .LIVE }
          cwd := Function.update s'.cwd i ip }

/-! ## Runs of calls -/

inductive Call
  | sys_open (p : Fin NPROC) (path : List Char) (omode : ℤ)
  | sys_close (p : Fin NPROC) (fd : ℤ)
  | sys_chdir (p : Fin NPROC) (path : List Char)
  | fork (p np : Fin NPROC)
  | exit (p : Fin NPROC)
  | reap (i : Fin NPROC)
  | start (i : Fin NPROC)

def exec (s : Sys σ) : Call → Option (Sys σ)
  | .sys_open p path omode =>
    if s.fs.life p = .LIVE ∧ Int.land omode O_CREATE = 0 then
      (sys_open P s p path omode).toOption.map Prod.snd
    else none
  | .sys_close p fd =>
    if s.fs.life p = .LIVE then (sys_close P s p fd).toOption.map Prod.snd else none
  | .sys_chdir p path =>
    if s.fs.life p = .LIVE then (sys_chdir s p path).toOption.map Prod.snd else none
  | .fork p np => if s.fs.life p = .LIVE ∧ s.fs.life np = .UNUSED then kfork s p np else none
  | .exit p => if s.fs.life p = .LIVE then kexit P s p else none
  | .reap i =>
    if s.fs.life i = .ZOMBIE then
      some { s with fs := { s.fs with life := Function.update s.fs.life i .UNUSED } }
    else none
  | .start i =>
    if s.fs.life i = .UNUSED then
      match namei s i ['/'] with
      | .ok (some ip, s') =>
        some { s' with
          fs := { s'.fs with life := Function.update s'.fs.life i .LIVE }
          cwd := Function.update s'.cwd i ip }
      | _ => none
    else none

lemma toOption_map_snd {α β : Type} {x : Except String (α × β)} {b : β}
    (h : x.toOption.map Prod.snd = some b) : ∃ a, x = .ok (a, b) := by
  cases x with
  | error e => simp [Except.toOption] at h
  | ok r =>
    simp only [Except.toOption, Option.map_some, Option.some.injEq] at h
    exact ⟨r.1, by rw [← h]⟩

lemma exec_step {s s' : Sys σ} {c : Call} (h : exec P s c = some s') : Step P s s' := by
  cases c with
  | sys_open p path omode =>
    simp only [exec] at h
    split_ifs at h with hp
    obtain ⟨r, hr⟩ := toOption_map_snd h
    exact .sys_open hp.1 hp.2 hr
  | sys_close p fd =>
    simp only [exec] at h
    split_ifs at h with hp
    obtain ⟨r, hr⟩ := toOption_map_snd h
    exact .sys_close hp hr
  | sys_chdir p path =>
    simp only [exec] at h
    split_ifs at h with hp
    obtain ⟨r, hr⟩ := toOption_map_snd h
    exact .sys_chdir hp hr
  | fork p np =>
    simp only [exec] at h
    split_ifs at h with hp
    exact .fork hp.1 hp.2 h
  | exit p =>
    simp only [exec] at h
    split_ifs at h with hp
    exact .exit hp h
  | reap i =>
    simp only [exec] at h
    split_ifs at h with hp
    cases h
    exact .reap hp
  | start i =>
    simp only [exec] at h
    split_ifs at h with hp
    split at h
    · rename_i ip s₁ hn
      cases h
      exact .start hp hn
    · cases h

/-! ## The table fills up -/

lemma dirlookup_panics {s : Sys σ} {dp : Fin NINODE} {name : List Char} {de : Dirent}
    (hd : (s.inode dp).type = .T_DIR)
    (hf : (s.disk (s.inode dp).inum).dirents.find? (fun de => de.inum ≠ 0 ∧ namecmp name de.name)
      = some de)
    (hfull : ∀ j, 0 < (s.inode j).ref) (hn : ∀ j, ¬ Itable.Holds s.inode (s.inode dp).dev de.inum j) :
    dirlookup s dp name = .error "iget: no inodes" := by
  have hg : Itable.iget s.inode (s.inode dp).dev de.inum = .error "iget: no inodes" := by
    rw [Itable.iget_of_not_holds hn]
    have hz : (List.finRange NINODE).find? (fun ip => decide ((s.inode ip).ref = 0)) = none := by
      rw [List.find?_eq_none]
      exact fun j _ => by simpa using (hfull j).ne'
    rw [hz]
  simp only [dirlookup, hd, ne_eq, not_true_eq_false, if_false, hf, iget, hg]

def fileName (k : ℕ) : List Char := [Char.ofNat (65 + k)]

/-- An image `mkfs` makes from `n` files: the root directory, with `.`, `..` and an entry for
each file, and the files, each with one link. -/
def image (n : ℕ) (inum : ℕ) : DInode :=
  if inum = ROOTINO then
    ⟨.T_DIR, 0, 1, ⟨1, ['.']⟩ :: ⟨1, ['.', '.']⟩ :: (List.range n).map fun k => ⟨k + 2, fileName k⟩⟩
  else if 2 ≤ inum ∧ inum < n + 2 then ⟨.T_FILE, 0, 1, []⟩
  else ⟨.free, 0, 0, []⟩

/-- `init` starts in `/` and forks three children; then the four open files `0, 1, …, 48` of
a 50-file image, sixteen each in turn: process `k / 16` opens file `k`. -/
def fillCalls : List Call :=
  [.start 0, .fork 0 1, .fork 0 2, .fork 0 3] ++
    (List.range 49).map fun k => .sys_open (Fin.ofNat NPROC (k / 16)) ('/' :: fileName k) O_RDONLY

/-- What the last call of the counterexample sees: every entry in use, and the open of file
`49` by process `3` panicking. -/
def panicsAfter : Option (Sys (List ℕ)) → Bool
  | some s => (List.finRange NINODE).all (fun j => decide (0 < (s.inode j).ref)) &&
      match sys_open listPool s 3 ('/' :: fileName 49) O_RDONLY with
      | .error e => e == "iget: no inodes"
      | .ok _ => false
  | none => false

lemma panicsAfter_fill :
    panicsAfter (runAll (exec listPool) (Sys.boot [] (image 50)) fillCalls) = true := by
  decide +kernel

/-- **Exhausting the inode table panics the kernel.** Four processes of a 50-file file system,
each holding at most `NOFILE` descriptors, reach a state where every entry of the inode table
is in use; opening one more file then reaches `panic("iget: no inodes")` instead of failing. -/
theorem iget_panics_when_full :
    ∃ s, Reachable (fun s => ∃ mem disk, s = Sys.boot mem disk) (Step listPool) s ∧
      (∀ j, 0 < (s.inode j).ref) ∧
      sys_open listPool s 3 ('/' :: fileName 49) O_RDONLY = .error "iget: no inodes" := by
  have hp := panicsAfter_fill
  cases hr : runAll (exec listPool) (Sys.boot [] (image 50)) fillCalls with
  | none => rw [hr] at hp; cases hp
  | some s =>
    rw [hr] at hp
    have h0 : Reachable (fun s => ∃ mem disk, s = Sys.boot mem disk) (Step listPool)
        (Sys.boot [] (image 50)) := Reachable.init ⟨[], image 50, rfl⟩
    have hreach : Reachable (fun s => ∃ mem disk, s = Sys.boot mem disk) (Step listPool) s :=
      h0.steps (runAll_steps (fun s c s' (h : exec listPool s c = some s') =>
        (exec_step listPool h : Step listPool s s')) hr)
    simp only [panicsAfter, Bool.and_eq_true, List.all_eq_true, List.mem_finRange,
      decide_eq_true_eq, forall_const] at hp
    obtain ⟨hfull, hopen⟩ := hp
    refine ⟨s, hreach, hfull, ?_⟩
    split at hopen
    · rename_i e he
      rw [he, beq_iff_eq.mp hopen]
    · cases hopen

end Xv6.Namei
