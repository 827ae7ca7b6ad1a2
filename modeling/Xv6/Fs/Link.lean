import Xv6.Namex

/-!
The calls of `sysfile.c` that make and remove names: `create` under `sys_mkdir` and
`sys_mknod`, `sys_link` and `sys_unlink`, over `ialloc`, `iupdate`, `dirlink` and
`isdirempty` of `fs.c`. They run on `Namei`'s system: the inode table, each process's current
directory, and the disk's inodes with a directory's entries in order.

As in `Namei`, a call is one step; `begin_op`/`end_op` and the sleep-locks are not modelled, and
a call that panics is no step. `writei` of one entry over an entry of the directory always
succeeds, and one at `dp->size` succeeds when the file system can extend the directory: `room`
says whether it can, for the directory's inode number, during the call. `dirlink` stores the
inode number in a `ushort` and the name cut to `DIRSIZ` bytes; a name read back is the bytes
before its NUL, and the names of paths have no NUL.

The system of this module is the namespace: processes start in `/` and make `chdir`, `mkdir`,
`mknod`, `link` and `unlink` calls. Open files hold inode references the way current
directories do, through the file layer; `sys_open`, `sys_close`, `fork` and `exit` are not steps
here.
-/

namespace Xv6.Link

open Xv6.Param Xv6.Lib.Reach Xv6.Namei
open Xv6.Itable (IType Inode Table)

variable {σ : Type}

/-! ## The inode layer -/

def setInode (s : Sys σ) (ip : Fin NINODE) (e : Inode) : Sys σ :=
  { s with inode := Function.update s.inode ip e }

def setDisk (s : Sys σ) (inum : ℕ) (d : DInode) : Sys σ :=
  { s with disk := Function.update s.disk inum d }

def setDirents (s : Sys σ) (inum : ℕ) (des : List Dirent) : Sys σ :=
  setDisk s inum { s.disk inum with dirents := des }

def iupdate (s : Sys σ) (ip : Fin NINODE) : Sys σ :=
  setDisk s (s.inode ip).inum
    { s.disk (s.inode ip).inum with
      type := (s.inode ip).type, major := (s.inode ip).major, nlink := (s.inode ip).nlink }

def writeNlink (s : Sys σ) (ip : Fin NINODE) (n : ℕ) : Sys σ :=
  iupdate (setInode s ip { s.inode ip with nlink := n }) ip

/-- `ialloc(dev, type)`: the first on-disk inode from `1` below `sb.ninodes` whose type is free
is zeroed and given the type, and `iget` returns its entry; `none` when none is free. -/
def ialloc (ninodes : ℕ) (s : Sys σ) (dev : ℕ) (type : IType) :
    Except String (Option (Fin NINODE) × Sys σ) :=
  match (List.range' 1 (ninodes - 1)).find? (fun inum => (s.disk inum).type = .free) with
  | none => .ok (none, s)
  | some inum =>
    match iget (setDisk s inum ⟨type, 0, 0, []⟩) dev inum with
    | .error e => .error e
    | .ok (ip, s) => .ok (some ip, s)

/-! ## Directories -/

/-- `strncpy(de.name, name, DIRSIZ); de.inum = inum;`: `inum` is stored in a `ushort`. -/
def newEntry (name : List Char) (inum : ℕ) : Dirent := ⟨inum % 2 ^ 16, name.take DIRSIZ⟩

/-- Where `dirlink` writes `de`: over the first entry not in use, or at `dp->size`, which
`writei` extends the directory to hold when there is `room`. -/
def addEntry (des : List Dirent) (de : Dirent) (room : Bool) : Option (List Dirent) :=
  match des.findIdx? (fun de => de.inum = 0) with
  | some k => some (des.set k de)
  | none => if room then some (des ++ [de]) else none

/-- `dirlink(dp, name, inum)`: `-1` when the name is present (the inode `dirlookup` found is
put) or `writei` cannot extend the directory. -/
def dirlink (room : ℕ → Bool) (s : Sys σ) (dp : Fin NINODE) (name : List Char) (inum : ℕ) :
    Except String (ℤ × Sys σ) :=
  match dirlookup s dp name with
  | .error e => .error e
  | .ok (some ip, s) => .ok (-1, iput s ip)
  | .ok (none, s) =>
    match addEntry (s.disk (s.inode dp).inum).dirents (newEntry name inum)
        (room (s.inode dp).inum) with
    | none => .ok (-1, s)
    | some des => .ok (0, setDirents s (s.inode dp).inum des)

def isdirempty (s : Sys σ) (dp : Fin NINODE) : Bool :=
  ((s.disk (s.inode dp).inum).dirents.drop 2).all fun de => de.inum = 0

/-- The entry at the offset `dirlookup(dp, name, &off)` finds, overwritten by `sys_unlink`'s
`writei` of a zeroed entry. -/
def clearEntry (des : List Dirent) (name : List Char) : List Dirent :=
  match des.findIdx? (fun de => de.inum ≠ 0 ∧ namecmp name de.name) with
  | some k => des.set k ⟨0, []⟩
  | none => des

/-! ## `create` -/

def createFail (s : Sys σ) (ip dp : Fin NINODE) : Option (Fin NINODE) × Sys σ :=
  (none, iput (iput (writeNlink s ip 0) ip) dp)

def linkDots (room : ℕ → Bool) (s : Sys σ) (ip dp : Fin NINODE) : Except String (ℤ × Sys σ) :=
  match dirlink room s ip ['.'] (s.inode ip).inum with
  | .error e => .error e
  | .ok (r, s) => if r < 0 then .ok (-1, s) else dirlink room s ip ['.', '.'] (s.inode dp).inum

/-- `create` from the `ilock` of the inode `ialloc` returned, with `dp` locked: the new inode
gets one link, a directory its `.` and `..`, then its name in `dp`; a directory adds one link
to `dp` for its `..` once that has succeeded. -/
def createNew (room : ℕ → Bool) (s : Sys σ) (dp ip : Fin NINODE) (name : List Char)
    (type : IType) (major : ℤ) : Except String (Option (Fin NINODE) × Sys σ) :=
  match ilock s ip with
  | .error e => .error e
  | .ok s =>
    let s := iupdate (setInode s ip { s.inode ip with major := major, nlink := 1 }) ip
    match (if type = .T_DIR then linkDots room s ip dp else .ok (0, s)) with
    | .error e => .error e
    | .ok (r, s) =>
      if r < 0 then .ok (createFail s ip dp)
      else
        match dirlink room s dp name (s.inode ip).inum with
        | .error e => .error e
        | .ok (r, s) =>
          if r < 0 then .ok (createFail s ip dp)
          else
            let s := if type = .T_DIR then writeNlink s dp ((s.inode dp).nlink + 1) else s
            .ok (some ip, iput s dp)

/-- `create(path, type, major, minor)`: the inode it returns locked and with a reference, or
`none`. A name already present is returned only to `open` a file or a device. -/
def create (ninodes : ℕ) (room : ℕ → Bool) (s : Sys σ) (p : Fin NPROC) (path : List Char)
    (type : IType) (major : ℤ) : Except String (Option (Fin NINODE) × Sys σ) :=
  match namex s p path true with
  | .error e => .error e
  | .ok (none, _, s) => .ok (none, s)
  | .ok (some dp, name, s) =>
    match ilock s dp with
    | .error e => .error e
    | .ok s =>
      match dirlookup s dp name with
      | .error e => .error e
      | .ok (some ip, s) =>
        match ilock (iput s dp) ip with
        | .error e => .error e
        | .ok s =>
          if type = .T_FILE ∧ ((s.inode ip).type = .T_FILE ∨ (s.inode ip).type = .T_DEVICE) then
            .ok (some ip, s)
          else .ok (none, iput s ip)
      | .ok (none, s) =>
        match ialloc ninodes s (s.inode dp).dev type with
        | .error e => .error e
        | .ok (none, s) => .ok (none, iput s dp)
        | .ok (some ip, s) => createNew room s dp ip name type major

/-- A C `int` passed to a `short` parameter. -/
def toShort (x : ℤ) : ℤ := x.bmod (2 ^ 16)

def sys_mkdir (ninodes : ℕ) (room : ℕ → Bool) (s : Sys σ) (p : Fin NPROC) (path : List Char) :
    Except String (ℤ × Sys σ) :=
  match create ninodes room s p path .T_DIR 0 with
  | .error e => .error e
  | .ok (none, s) => .ok (-1, s)
  | .ok (some ip, s) => .ok (0, iput s ip)

def sys_mknod (ninodes : ℕ) (room : ℕ → Bool) (s : Sys σ) (p : Fin NPROC) (path : List Char)
    (major : ℤ) : Except String (ℤ × Sys σ) :=
  match create ninodes room s p path .T_DEVICE (toShort major) with
  | .error e => .error e
  | .ok (none, s) => .ok (-1, s)
  | .ok (some ip, s) => .ok (0, iput s ip)

/-! ## `sys_link` and `sys_unlink` -/

def linkBad (s : Sys σ) (ip : Fin NINODE) : Except String (ℤ × Sys σ) :=
  match ilock s ip with
  | .error e => .error e
  | .ok s => .ok (-1, iput (writeNlink s ip ((s.inode ip).nlink - 1)) ip)

def linkTo (room : ℕ → Bool) (s : Sys σ) (p : Fin NPROC) (new : List Char) (ip : Fin NINODE) :
    Except String (ℤ × Sys σ) :=
  match namex s p new true with
  | .error e => .error e
  | .ok (none, _, s) => linkBad s ip
  | .ok (some dp, name, s) =>
    match ilock s dp with
    | .error e => .error e
    | .ok s =>
      if (s.inode dp).dev ≠ (s.inode ip).dev then linkBad (iput s dp) ip
      else
        match dirlink room s dp name (s.inode ip).inum with
        | .error e => .error e
        | .ok (r, s) => if r < 0 then linkBad (iput s dp) ip else .ok (0, iput (iput s dp) ip)

/-- `sys_link(old, new)`: a directory cannot be linked. -/
def sys_link (room : ℕ → Bool) (s : Sys σ) (p : Fin NPROC) (old new : List Char) :
    Except String (ℤ × Sys σ) :=
  match namei s p old with
  | .error e => .error e
  | .ok (none, s) => .ok (-1, s)
  | .ok (some ip, s) =>
    match ilock s ip with
    | .error e => .error e
    | .ok s =>
      if (s.inode ip).type = .T_DIR then .ok (-1, iput s ip)
      else linkTo room (writeNlink s ip ((s.inode ip).nlink + 1)) p new ip

/-- `sys_unlink` once the checks have passed: the entry is cleared, a directory's parent loses
the link of its `..`, and the inode loses one link. -/
def removeName (s : Sys σ) (dp ip : Fin NINODE) (name : List Char) : Sys σ :=
  let s := setDirents s (s.inode dp).inum (clearEntry (s.disk (s.inode dp).inum).dirents name)
  let s := if (s.inode ip).type = .T_DIR then writeNlink s dp ((s.inode dp).nlink - 1) else s
  let s := iput s dp
  iput (writeNlink s ip ((s.inode ip).nlink - 1)) ip

/-- `sys_unlink(path)`: `.` and `..` cannot be unlinked, nor a directory with entries. -/
def sys_unlink (s : Sys σ) (p : Fin NPROC) (path : List Char) : Except String (ℤ × Sys σ) :=
  match namex s p path true with
  | .error e => .error e
  | .ok (none, _, s) => .ok (-1, s)
  | .ok (some dp, name, s) =>
    match ilock s dp with
    | .error e => .error e
    | .ok s =>
      if namecmp name ['.'] ∨ namecmp name ['.', '.'] then .ok (-1, iput s dp)
      else
        match dirlookup s dp name with
        | .error e => .error e
        | .ok (none, s) => .ok (-1, iput s dp)
        | .ok (some ip, s) =>
          match ilock s ip with
          | .error e => .error e
          | .ok s =>
            if (s.inode ip).nlink < 1 then .error "unlink: nlink < 1"
            else if (s.inode ip).type = .T_DIR ∧ isdirempty s ip = false then
              .ok (-1, iput (iput s ip) dp)
            else .ok (0, removeName s dp ip name)

/-! ## The namespace as a system -/

def started (s : Sys σ) (i : Fin NPROC) (ip : Fin NINODE) : Sys σ :=
  { s with
    fs := { s.fs with life := Function.update s.fs.life i .LIVE }
    cwd := Function.update s.cwd i ip }

/-- The calls, on a file system of `ninodes` inodes: a process starts in `/`, or a live
process makes a call. `room` is what `writei` can extend during the call. -/
inductive Step (ninodes : ℕ) : Sys σ → Sys σ → Prop
  | start {s s' : Sys σ} {i : Fin NPROC} {ip : Fin NINODE} : s.fs.life i = .UNUSED →
      namei s i ['/'] = .ok (some ip, s') → Step ninodes s (started s' i ip)
  | sys_chdir {s s' : Sys σ} {p : Fin NPROC} {path : List Char} {r : ℤ} :
      s.fs.life p = .LIVE → sys_chdir s p path = .ok (r, s') → Step ninodes s s'
  | sys_mkdir {s s' : Sys σ} {p : Fin NPROC} {path : List Char} {r : ℤ} (room : ℕ → Bool) :
      s.fs.life p = .LIVE → sys_mkdir ninodes room s p path = .ok (r, s') → Step ninodes s s'
  | sys_mknod {s s' : Sys σ} {p : Fin NPROC} {path : List Char} {major r : ℤ}
      (room : ℕ → Bool) :
      s.fs.life p = .LIVE → sys_mknod ninodes room s p path major = .ok (r, s') → Step ninodes s s'
  | sys_link {s s' : Sys σ} {p : Fin NPROC} {old new : List Char} {r : ℤ} (room : ℕ → Bool) :
      s.fs.life p = .LIVE → sys_link room s p old new = .ok (r, s') → Step ninodes s s'
  | sys_unlink {s s' : Sys σ} {p : Fin NPROC} {path : List Char} {r : ℤ} :
      s.fs.life p = .LIVE → sys_unlink s p path = .ok (r, s') → Step ninodes s s'

inductive Call
  | start (i : Fin NPROC)
  | sys_chdir (p : Fin NPROC) (path : List Char)
  | sys_mkdir (p : Fin NPROC) (path : List Char)
  | sys_mknod (p : Fin NPROC) (path : List Char) (major : ℤ)
  | sys_link (p : Fin NPROC) (old new : List Char)
  | sys_unlink (p : Fin NPROC) (path : List Char)

/-- A call run on the system with `room`: `none` when the process cannot make it or it
panics. -/
def exec (ninodes : ℕ) (room : ℕ → Bool) (s : Sys σ) : Call → Option (Sys σ)
  | .start i =>
    if s.fs.life i = .UNUSED then
      match namei s i ['/'] with
      | .ok (some ip, s') => some (started s' i ip)
      | _ => none
    else none
  | .sys_chdir p path =>
    if s.fs.life p = .LIVE then (sys_chdir s p path).toOption.map Prod.snd else none
  | .sys_mkdir p path =>
    if s.fs.life p = .LIVE then (sys_mkdir ninodes room s p path).toOption.map Prod.snd else none
  | .sys_mknod p path major =>
    if s.fs.life p = .LIVE then (sys_mknod ninodes room s p path major).toOption.map Prod.snd
    else none
  | .sys_link p old new =>
    if s.fs.life p = .LIVE then (sys_link room s p old new).toOption.map Prod.snd else none
  | .sys_unlink p path =>
    if s.fs.life p = .LIVE then (sys_unlink s p path).toOption.map Prod.snd else none

lemma exec_step {ninodes : ℕ} {room : ℕ → Bool} {s s' : Sys σ} {c : Call}
    (h : exec ninodes room s c = some s') : Step ninodes s s' := by
  cases c with
  | start i =>
    simp only [exec] at h
    split_ifs at h with hi
    split at h
    · rename_i ip s₁ hn
      cases h
      exact .start hi hn
    · cases h
  | sys_chdir p path =>
    simp only [exec] at h
    split_ifs at h with hp
    obtain ⟨r, hr⟩ := toOption_map_snd h
    exact .sys_chdir hp hr
  | sys_mkdir p path =>
    simp only [exec] at h
    split_ifs at h with hp
    obtain ⟨r, hr⟩ := toOption_map_snd h
    exact .sys_mkdir room hp hr
  | sys_mknod p path major =>
    simp only [exec] at h
    split_ifs at h with hp
    obtain ⟨r, hr⟩ := toOption_map_snd h
    exact .sys_mknod room hp hr
  | sys_link p old new =>
    simp only [exec] at h
    split_ifs at h with hp
    obtain ⟨r, hr⟩ := toOption_map_snd h
    exact .sys_link room hp hr
  | sys_unlink p path =>
    simp only [exec] at h
    split_ifs at h with hp
    obtain ⟨r, hr⟩ := toOption_map_snd h
    exact .sys_unlink hp hr

end Xv6.Link
