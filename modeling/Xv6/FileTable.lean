import Xv6.Param
import Xv6.Lib.Alloc
import Xv6.Lib.Tally
import Xv6.Lib.Reach

/-!
The open-file table of `file.c` and the descriptor calls of `sysfile.c`.

`ftable.file[NFILE]` holds each open file's type, reference count, access and object: a pipe,
named by its page, or an inode, named by its number. Each process slot has `ofile[NOFILE]`,
pointers into the table. The calls are `sys_open` (its path lookup and inode checks are taken
as their outcome), `sys_dup`, `sys_close`, `sys_pipe` with `pipealloc`, and the descriptor
loops of `kfork` and `kexit`. A process slot is `UNUSED`, live or a `ZOMBIE`, and only a live
process makes calls; each call is one step. `fileclose` reports what it passes the object of
the last reference to: nothing, `pipeclose` or `iput`. `pipeclose` frees the pipe's page
through the page allocator once both ends are closed.

While a call runs it holds references no descriptor accounts for: the file `filealloc` just
gave it, or the reference `sys_dup` has yet to add. `Inv` counts these in `fl`, and every call
starts and ends with none.
-/

namespace Xv6.FileTable

open Xv6.Param Xv6.Lib.Alloc Xv6.Lib.Tally Xv6.Lib.Reach

/-! ## The table and the calls -/

/-- The `type` of a `struct file`. -/
inductive FdType
  | FD_NONE | FD_PIPE | FD_INODE | FD_DEVICE
  deriving DecidableEq, Repr

/-- `struct file`: the pipe is named by its page and the inode by its number; `off` and
`major` are not modelled. -/
structure File where
  type : FdType
  ref : ℤ
  readable : Bool
  writable : Bool
  pipe : ℕ
  ip : ℕ
  deriving DecidableEq, Repr

def File.zero : File := ⟨.FD_NONE, 0, false, false, 0, 0⟩

/-- What the file layer sees of a process slot. -/
inductive Life
  | UNUSED | LIVE | ZOMBIE
  deriving DecidableEq, Repr

/-- The open ends of a pipe, `readopen` and `writeopen`. -/
structure Ends where
  readopen : Bool
  writeopen : Bool
  deriving DecidableEq, Repr

def Ends.isOpen (e : Ends) (w : Bool) : Bool := if w then e.writeopen else e.readopen

/-- The file layer over page allocator state `σ`. -/
structure FSys (σ : Type) where
  file : Fin NFILE → File
  ofile : Fin NPROC → Fin NOFILE → Option (Fin NFILE)
  life : Fin NPROC → Life
  pipes : ℕ → Ends
  mem : σ

def FSys.boot {σ : Type} (mem : σ) : FSys σ :=
  ⟨fun _ => File.zero, fun _ _ => none, fun _ => .UNUSED, fun _ => ⟨false, false⟩, mem⟩

def FSys.setFd {σ : Type} (s : FSys σ) (p : Fin NPROC) (fd : Fin NOFILE)
    (x : Option (Fin NFILE)) : FSys σ :=
  { s with ofile := Function.update s.ofile p (Function.update (s.ofile p) fd x) }

/-- What `fileclose` passes the object of the last reference to. -/
inductive Release
  | nothing
  | pipeclose (pi : ℕ) (writable : Bool)
  | iput (ip : ℕ)
  deriving DecidableEq, Repr

/-- The object of a file, as `fileclose` passes it on. -/
def releaseOf (ff : File) : Release :=
  match ff.type with
  | .FD_PIPE => .pipeclose ff.pipe ff.writable
  | .FD_INODE | .FD_DEVICE => .iput ff.ip
  | .FD_NONE => .nothing

/-- `O_WRONLY`, `O_RDWR` of `fcntl.h`. -/
def O_WRONLY : ℤ := 0x001
def O_RDWR : ℤ := 0x002

variable {σ : Type} (P : Pool σ)

/-- `filealloc`: the first file with no reference gets one. -/
def filealloc (file : Fin NFILE → File) : Option (Fin NFILE) × (Fin NFILE → File) :=
  match (List.finRange NFILE).find? (fun f => decide ((file f).ref = 0)) with
  | none => (none, file)
  | some f => (some f, Function.update file f { file f with ref := 1 })

/-- `filedup`: `none` is the panic `filedup`. -/
def filedup (file : Fin NFILE → File) (f : Fin NFILE) : Option (Fin NFILE → File) :=
  if (file f).ref < 1 then none
  else some (Function.update file f { file f with ref := (file f).ref + 1 })

/-- `pipeclose(pi, writable)`: one end closes; the page is freed once both are closed. -/
def pipeclose (s : FSys σ) (pi : ℕ) (writable : Bool) : FSys σ :=
  let e := if writable then { s.pipes pi with writeopen := false }
    else { s.pipes pi with readopen := false }
  let s := { s with pipes := Function.update s.pipes pi e }
  if e.readopen = false ∧ e.writeopen = false then { s with mem := P.free pi s.mem } else s

/-- `fileclose`: one reference goes; the last one frees the file and passes its object on
(`iput` belongs to the inode layer and is only reported). `none` is the panic `fileclose`. -/
def fileclose (s : FSys σ) (f : Fin NFILE) : Option (FSys σ × Release) :=
  if (s.file f).ref < 1 then none
  else if (s.file f).ref - 1 > 0 then
    some ({ s with file := Function.update s.file f { s.file f with ref := (s.file f).ref - 1 } },
      .nothing)
  else
    let ff := s.file f
    let s := { s with file := Function.update s.file f { ff with ref := 0, type := .FD_NONE } }
    match ff.type with
    | .FD_PIPE => some (pipeclose P s ff.pipe ff.writable, .pipeclose ff.pipe ff.writable)
    | .FD_INODE | .FD_DEVICE => some (s, .iput ff.ip)
    | .FD_NONE => some (s, .nothing)

/-- `fdalloc(f)` by process `p`: the first free descriptor takes over the reference. -/
def fdalloc (s : FSys σ) (p : Fin NPROC) (f : Fin NFILE) : Option (Fin NOFILE) × FSys σ :=
  match (List.finRange NOFILE).find? (fun fd => (s.ofile p fd).isNone) with
  | none => (none, s)
  | some fd => (some fd, s.setFd p fd (some f))

/-- `argfd`: a descriptor argument of process `p` that names an open file. -/
def argfd (s : FSys σ) (p : Fin NPROC) (fd : ℤ) : Option (Fin NOFILE × Fin NFILE) :=
  if h : 0 ≤ fd ∧ fd < NOFILE then
    (s.ofile p ⟨fd.toNat, by omega⟩).map fun f => (⟨fd.toNat, by omega⟩, f)
  else none

/-- `sys_dup(fd)`. -/
def sys_dup (s : FSys σ) (p : Fin NPROC) (fd : ℤ) : Option (ℤ × FSys σ) :=
  match argfd s p fd with
  | none => some (-1, s)
  | some (_, f) =>
    match fdalloc s p f with
    | (none, s) => some (-1, s)
    | (some fd', s) => (filedup s.file f).map fun file => ((fd' : ℤ), { s with file := file })

/-- `sys_close(fd)`. -/
def sys_close (s : FSys σ) (p : Fin NPROC) (fd : ℤ) : Option (ℤ × FSys σ) :=
  match argfd s p fd with
  | none => some (-1, s)
  | some (fd, f) => (fileclose P (s.setFd p fd none) f).map fun r => (0, r.1)

/-- `sys_open(path, omode)` after its path part: `ipo` is the inode that part found or made,
with whether it is a device, or `none` when it failed. The `iunlockput` of the failure path
belongs to the inode layer. -/
def sys_open (s : FSys σ) (p : Fin NPROC) (ipo : Option (ℕ × Bool)) (omode : ℤ) :
    Option (ℤ × FSys σ) :=
  match ipo with
  | none => some (-1, s)
  | some (ip, device) =>
    match filealloc s.file with
    | (none, file) => some (-1, { s with file := file })
    | (some f, file) =>
      match fdalloc { s with file := file } p f with
      | (none, s) => (fileclose P s f).map fun r => (-1, r.1)
      | (some fd, s) =>
        let ff := { s.file f with
          type := if device then .FD_DEVICE else .FD_INODE
          ip := ip
          readable := decide (Int.land omode O_WRONLY = 0)
          writable := decide (Int.land omode O_WRONLY ≠ 0 ∨ Int.land omode O_RDWR ≠ 0) }
        some (fd, { s with file := Function.update s.file f ff })

def closeBoth (s : FSys σ) (rf wf : Fin NFILE) : Option (FSys σ) :=
  (fileclose P s rf).bind fun r => (fileclose P r.1 wf).map fun r => r.1

/-- `pipealloc`: two files and a page. When one of them cannot be had, the files already
taken are closed (the `kfree` of the failure path has no page to free: the page is the last
thing taken). -/
def pipealloc (s : FSys σ) : Option (Option (Fin NFILE × Fin NFILE) × FSys σ) :=
  match filealloc s.file with
  | (none, file) => some (none, { s with file := file })
  | (some f0, file) =>
    match filealloc file with
    | (none, file) => (fileclose P { s with file := file } f0).map fun r => (none, r.1)
    | (some f1, file) =>
      match P.alloc s.mem with
      | (none, mem) => (closeBoth P { s with file := file, mem := mem } f0 f1).map
          fun s => (none, s)
      | (some pi, mem) =>
        let file := Function.update file f0
          { file f0 with type := .FD_PIPE, readable := true, writable := false, pipe := pi }
        let file := Function.update file f1
          { file f1 with type := .FD_PIPE, readable := false, writable := true, pipe := pi }
        some (some (f0, f1),
          { s with file := file, mem := mem, pipes := Function.update s.pipes pi ⟨true, true⟩ })

/-- `sys_pipe(fdarray)`: `copyok` is whether both `copyout`s of the descriptors succeed. -/
def sys_pipe (s : FSys σ) (p : Fin NPROC) (copyok : Bool) : Option (ℤ × FSys σ) :=
  match pipealloc P s with
  | none => none
  | some (none, s) => some (-1, s)
  | some (some (rf, wf), s) =>
    match fdalloc s p rf with
    | (none, s) => (closeBoth P s rf wf).map fun s => (-1, s)
    | (some fd0, s) =>
      match fdalloc s p wf with
      | (none, s) => (closeBoth P (s.setFd p fd0 none) rf wf).map fun s => (-1, s)
      | (some fd1, s) =>
        if copyok then some (0, s)
        else (closeBoth P ((s.setFd p fd0 none).setFd p fd1 none) rf wf).map fun s => (-1, s)

/-- One turn of the descriptor loop of `kfork`: `np->ofile[i] = filedup(p->ofile[i])`. -/
def forkFd (p np : Fin NPROC) (s : FSys σ) (i : Fin NOFILE) : Option (FSys σ) :=
  match s.ofile p i with
  | none => some s
  | some f => (filedup s.file f).map fun file => { s.setFd np i (some f) with file := file }

/-- The descriptor loop of `kfork`: the child `np` gets each open file of `p`. -/
def forkFiles (s : FSys σ) (p np : Fin NPROC) : Option (FSys σ) :=
  (List.finRange NOFILE).foldlM (forkFd p np) s

/-- One turn of the descriptor loop of `kexit`: `fileclose(f); p->ofile[fd] = 0;`. -/
def exitFd (p : Fin NPROC) (s : FSys σ) (fd : Fin NOFILE) : Option (FSys σ) :=
  match s.ofile p fd with
  | none => some s
  | some f => (fileclose P s f).map fun r => r.1.setFd p fd none

/-- The descriptor loop of `kexit`. -/
def exitFiles (s : FSys σ) (p : Fin NPROC) : Option (FSys σ) :=
  (List.finRange NOFILE).foldlM (exitFd P p) s

/-- The steps of the file layer: a call of a live process, `kfork` into an `UNUSED` slot
(`allocproc` makes it `USED` before the loop), `kexit`, the reaping of a `ZOMBIE` in `kwait`,
and the start of a process with no files (`userinit`). A call that panics is no step. -/
inductive Step : FSys σ → FSys σ → Prop
  | sys_open {s s' : FSys σ} {p : Fin NPROC} {ipo : Option (ℕ × Bool)} {omode r : ℤ} :
      s.life p = .LIVE → sys_open P s p ipo omode = some (r, s') → Step s s'
  | sys_dup {s s' : FSys σ} {p : Fin NPROC} {fd r : ℤ} :
      s.life p = .LIVE → sys_dup s p fd = some (r, s') → Step s s'
  | sys_close {s s' : FSys σ} {p : Fin NPROC} {fd r : ℤ} :
      s.life p = .LIVE → sys_close P s p fd = some (r, s') → Step s s'
  | sys_pipe {s s' : FSys σ} {p : Fin NPROC} {copyok : Bool} {r : ℤ} :
      s.life p = .LIVE → sys_pipe P s p copyok = some (r, s') → Step s s'
  | fork {s s' : FSys σ} {p np : Fin NPROC} : s.life p = .LIVE → s.life np = .UNUSED →
      forkFiles { s with life := Function.update s.life np .LIVE } p np = some s' → Step s s'
  | exit {s s' : FSys σ} {p : Fin NPROC} : s.life p = .LIVE → exitFiles P s p = some s' →
      Step s { s' with life := Function.update s'.life p .ZOMBIE }
  | reap {s : FSys σ} {i : Fin NPROC} : s.life i = .ZOMBIE →
      Step s { s with life := Function.update s.life i .UNUSED }
  | start {s : FSys σ} {i : Fin NPROC} : s.life i = .UNUSED →
      Step s { s with life := Function.update s.life i .LIVE }

/-! ## Counting descriptors -/

section Count

variable {s : FSys σ} {p : Fin NPROC} {fd : Fin NOFILE} {x : Option (Fin NFILE)}

@[simp] lemma FSys.setFd_file (s : FSys σ) (p fd x) : (s.setFd p fd x).file = s.file := rfl
@[simp] lemma FSys.setFd_life (s : FSys σ) (p fd x) : (s.setFd p fd x).life = s.life := rfl
@[simp] lemma FSys.setFd_pipes (s : FSys σ) (p fd x) : (s.setFd p fd x).pipes = s.pipes := rfl
@[simp] lemma FSys.setFd_mem (s : FSys σ) (p fd x) : (s.setFd p fd x).mem = s.mem := rfl

@[simp] lemma FSys.setFd_ofile (s : FSys σ) (p fd x) (q : Fin NPROC) (g : Fin NOFILE) :
    (s.setFd p fd x).ofile q g = if q = p ∧ g = fd then x else s.ofile q g := by
  by_cases hq : q = p
  · subst hq
    by_cases hg : g = fd
    · simp [FSys.setFd, hg]
    · simp [FSys.setFd, hg]
  · simp [FSys.setFd, hq]

/-- What each descriptor of a slot in use points to; the descriptors of `UNUSED` slots are
not counted. -/
def slots (s : FSys σ) (x : Fin NPROC × Fin NOFILE) : Option (Fin NFILE) :=
  if s.life x.1 = .UNUSED then none else s.ofile x.1 x.2

/-- The number of descriptors of slots in use that point to file `f`. -/
def count (s : FSys σ) (f : Fin NFILE) : ℕ := ∑ x, if slots s x = some f then 1 else 0

@[simp] lemma count_file (s : FSys σ) (file) (f : Fin NFILE) :
    count { s with file := file } f = count s f := rfl
@[simp] lemma count_pipes (s : FSys σ) (pipes) (f : Fin NFILE) :
    count { s with pipes := pipes } f = count s f := rfl
@[simp] lemma count_mem (s : FSys σ) (mem : σ) (f : Fin NFILE) :
    count { s with mem := mem } f = count s f := rfl

lemma slots_setFd (hp : s.life p ≠ .UNUSED) :
    slots (s.setFd p fd x) = Function.update (slots s) (p, fd) x := by
  funext y
  obtain ⟨q, g⟩ := y
  by_cases hy : (q, g) = (p, fd)
  · obtain ⟨rfl, rfl⟩ := Prod.mk.inj hy
    simp [slots, hp]
  · have : ¬(q = p ∧ g = fd) := fun h => hy (by rw [h.1, h.2])
    simp [slots, hy, this]

lemma count_setFd (hp : s.life p ≠ .UNUSED) (f : Fin NFILE) :
    count (s.setFd p fd x) f + (if s.ofile p fd = some f then 1 else 0) =
      count s f + (if x = some f then 1 else 0) := by
  have hs : slots s (p, fd) = s.ofile p fd := by simp [slots, hp]
  rw [count, count, slots_setFd hp, ← hs]
  exact sum_update_add (fun o => if o = some f then 1 else 0) (slots s) (p, fd) x

lemma slots_setLife {i : Fin NPROC} (l : Life) (h : ∀ fd, s.ofile i fd = none) :
    slots { s with life := Function.update s.life i l } = slots s := by
  funext y
  by_cases hy : y.1 = i
  · simp [slots, hy, h]
  · simp [slots, hy]

lemma count_pos {f : Fin NFILE} (hp : s.life p ≠ .UNUSED) (hf : s.ofile p fd = some f) :
    0 < count s f := by
  have h := @count_setFd σ s p fd none hp f
  simp only [hf, if_true, reduceCtorEq, if_false] at h
  omega

end Count

/-! ## The books of the file table

A file's references are its descriptors and the floating references `fl` of a call still
running. Each open end of a pipe is one file with references, and its page is not free. -/

/-- File `ff` is the `w` end of pipe `pi` while it has references. -/
def File.IsEnd (ff : File) (pi : ℕ) (w : Bool) : Prop :=
  ff.type = .FD_PIPE ∧ ff.pipe = pi ∧ ff.writable = w ∧ 0 < ff.ref

/-- The reference counts, with floating references `fl`. -/
structure Books (s : FSys σ) (fl : Fin NFILE → ℤ) : Prop where
  /-- A slot that is not live holds no descriptor. -/
  idle : ∀ i fd, s.life i ≠ .LIVE → s.ofile i fd = none
  ref_eq : ∀ f, (s.file f).ref = count s f + fl f
  none_of_zero : ∀ f, (s.file f).ref = 0 → (s.file f).type = .FD_NONE
  /-- No descriptor points to a free file. -/
  typed : ∀ f, (s.file f).type = .FD_NONE → count s f = 0

/-- The pipes: each open end is one file with references, and its page is not free. -/
structure PipeOK (s : FSys σ) : Prop where
  ends : ∀ pi w, (s.pipes pi).isOpen w = true ↔ ∃ f, (s.file f).IsEnd pi w
  end_unique : ∀ pi w f g, (s.file f).IsEnd pi w → (s.file g).IsEnd pi w → f = g
  page : ∀ pi w, (s.pipes pi).isOpen w = true → pi ∉ P.Free s.mem

/-- The invariant of the file layer. -/
structure Inv (s : FSys σ) (fl : Fin NFILE → ℤ) : Prop extends Books s fl, PipeOK P s

section Books

variable {P} {s : FSys σ} {fl : Fin NFILE → ℤ}

lemma count_boot (mem : σ) (f : Fin NFILE) : count (FSys.boot mem) f = 0 := by
  have h : ∀ x, slots (FSys.boot mem) x = none := fun _ => if_pos rfl
  simp only [count, h, reduceCtorEq, if_false, Finset.sum_const_zero]

lemma inv_boot (mem : σ) : Inv P (FSys.boot mem) 0 where
  idle _ _ _ := rfl
  ref_eq f := by rw [count_boot]; rfl
  none_of_zero _ _ := rfl
  typed f _ := count_boot mem f
  ends pi w := by cases w <;> simp [FSys.boot, File.zero, File.IsEnd, Ends.isOpen]
  end_unique _ _ _ _ h := by simp [FSys.boot, File.zero, File.IsEnd] at h
  page pi w h := by cases w <;> simp [FSys.boot, Ends.isOpen] at h

lemma Books.congr {s' : FSys σ} (hb : Books s fl) (hf : s'.file = s.file)
    (ho : s'.ofile = s.ofile) (hl : s'.life = s.life) : Books s' fl := by
  have hs : slots s' = slots s := by
    funext x; simp only [slots, ho, hl]
  have hc : count s' = count s := by
    funext f; simp only [count, hs]
  exact ⟨by rw [ho, hl]; exact hb.idle, by rw [hf, hc]; exact hb.ref_eq,
    by rw [hf]; exact hb.none_of_zero, by rw [hf, hc]; exact hb.typed⟩

lemma PipeOK.congr {s' : FSys σ} (hp : PipeOK P s) (hf : s'.file = s.file)
    (hq : s'.pipes = s.pipes) (hm : s'.mem = s.mem) : PipeOK P s' := by
  obtain ⟨file, ofile, life, pipes, mem⟩ := s'
  dsimp only at hf hq hm
  subst hf hq hm
  exact ⟨hp.ends, hp.end_unique, hp.page⟩

lemma Books.setFile (hb : Books s fl) (f : Fin NFILE) (ff : File)
    (hz : ff.ref = 0 → ff.type = .FD_NONE) (ht : ff.type = .FD_NONE → count s f = 0) :
    Books { s with file := Function.update s.file f ff }
      (Function.update fl f (fl f + (ff.ref - (s.file f).ref))) where
  idle := hb.idle
  ref_eq g := by
    show (Function.update s.file f ff g).ref = count s g + Function.update fl f _ g
    by_cases hg : g = f
    · subst hg; rw [Function.update_self, Function.update_self, hb.ref_eq g]; ring
    · rw [Function.update_of_ne hg, Function.update_of_ne hg]; exact hb.ref_eq g
  none_of_zero g := by
    show (Function.update s.file f ff g).ref = 0 → (Function.update s.file f ff g).type = _
    by_cases hg : g = f
    · subst hg; rw [Function.update_self]; exact hz
    · rw [Function.update_of_ne hg]; exact hb.none_of_zero g
  typed g := by
    show (Function.update s.file f ff g).type = _ → count s g = 0
    by_cases hg : g = f
    · subst hg; rw [Function.update_self]; exact ht
    · rw [Function.update_of_ne hg]; exact hb.typed g

lemma isEnd_update {f : Fin NFILE} {ff : File} (he : ∀ pi w, ff.IsEnd pi w ↔ (s.file f).IsEnd pi w)
    (g : Fin NFILE) (pi : ℕ) (w : Bool) :
    (Function.update s.file f ff g).IsEnd pi w ↔ (s.file g).IsEnd pi w := by
  by_cases hg : g = f
  · subst hg; simpa using he pi w
  · simp [hg]

lemma PipeOK.setFile (hp : PipeOK P s) (f : Fin NFILE) (ff : File)
    (he : ∀ pi w, ff.IsEnd pi w ↔ (s.file f).IsEnd pi w) :
    PipeOK P { s with file := Function.update s.file f ff } where
  ends pi w := by simpa only [isEnd_update he] using hp.ends pi w
  end_unique pi w g g' := by simpa only [isEnd_update he] using hp.end_unique pi w g g'
  page := hp.page

end Books

/-! ## The operations on the books -/

/-- The table after the last reference of `f` goes. -/
def freeFile (s : FSys σ) (f : Fin NFILE) : FSys σ :=
  { s with file := Function.update s.file f { s.file f with ref := 0, type := .FD_NONE } }

/-- What the last close of a file with entry `ff` does to its object: `pipeclose` of a pipe;
an inode goes to `iput`, outside this layer. -/
def closeObj (s : FSys σ) (ff : File) : FSys σ :=
  match ff.type with
  | .FD_PIPE => pipeclose P s ff.pipe ff.writable
  | _ => s

section Ops

variable {P} {s s' : FSys σ} {fl : Fin NFILE → ℤ} {f : Fin NFILE} {p : Fin NPROC}
  {fd : Fin NOFILE}

lemma filealloc_some {file file' : Fin NFILE → File} (h : filealloc file = (some f, file')) :
    (file f).ref = 0 ∧ file' = Function.update file f { file f with ref := 1 } := by
  unfold filealloc at h
  split at h
  · cases h
  · rename_i g hg
    simp only [Prod.mk.injEq, Option.some.injEq] at h
    obtain ⟨rfl, rfl⟩ := h
    exact ⟨by simpa using List.find?_some hg, rfl⟩

lemma filealloc_none {file file' : Fin NFILE → File} (h : filealloc file = (none, file')) :
    file' = file := by
  unfold filealloc at h
  split at h
  · exact (Prod.mk.inj h).2.symm
  · cases h

lemma filedup_some {file file' : Fin NFILE → File} (h : filedup file f = some file') :
    1 ≤ (file f).ref ∧ file' = Function.update file f { file f with ref := (file f).ref + 1 } := by
  unfold filedup at h
  split at h
  · cases h
  · exact ⟨by omega, (Option.some.inj h).symm⟩

lemma fdalloc_some {fd : Fin NOFILE} (h : fdalloc s p f = (some fd, s')) :
    s.ofile p fd = none ∧ s' = s.setFd p fd (some f) := by
  unfold fdalloc at h
  split at h
  · cases h
  · rename_i g hg
    simp only [Prod.mk.injEq, Option.some.injEq] at h
    obtain ⟨rfl, rfl⟩ := h
    exact ⟨by simpa using List.find?_some hg, rfl⟩

lemma fdalloc_none (h : fdalloc s p f = (none, s')) : s' = s := by
  unfold fdalloc at h
  split at h
  · exact (Prod.mk.inj h).2.symm
  · cases h

/-- **`fileclose`, said once.** It needs a reference; it drops one, and the last one frees
the file and hands its object on. -/
lemma fileclose_cases {r : Release} (h : fileclose P s f = some (s', r)) :
    1 ≤ (s.file f).ref ∧
      ((1 < (s.file f).ref ∧ r = .nothing ∧
          s' = { s with file := Function.update s.file f
                                  { s.file f with ref := (s.file f).ref - 1 } }) ∨
        ((s.file f).ref = 1 ∧ r = releaseOf (s.file f) ∧
          s' = closeObj P (freeFile s f) (s.file f))) := by
  unfold fileclose at h
  split_ifs at h with h1 h2
  · obtain ⟨rfl, rfl⟩ := Prod.mk.inj (Option.some.inj h)
    exact ⟨by omega, .inl ⟨by omega, rfl, rfl⟩⟩
  · refine ⟨by omega, .inr ⟨by omega, ?_⟩⟩
    rcases ht : (s.file f).type <;>
      simp only [ht, Option.some.injEq, Prod.mk.injEq] at h <;>
      obtain ⟨rfl, rfl⟩ := h <;>
      simp [releaseOf, closeObj, freeFile, ht]

lemma fileclose_some_of (h : 1 ≤ (s.file f).ref) : ∃ r, fileclose P s f = some r := by
  unfold fileclose
  rw [if_neg (by omega)]
  split_ifs
  · exact ⟨_, rfl⟩
  · dsimp only
    split <;> exact ⟨_, rfl⟩

@[simp] lemma pipeclose_file (s : FSys σ) (pi w) : (pipeclose P s pi w).file = s.file := by
  unfold pipeclose; dsimp only; split_ifs <;> rfl
@[simp] lemma pipeclose_ofile (s : FSys σ) (pi w) : (pipeclose P s pi w).ofile = s.ofile := by
  unfold pipeclose; dsimp only; split_ifs <;> rfl
@[simp] lemma pipeclose_life (s : FSys σ) (pi w) : (pipeclose P s pi w).life = s.life := by
  unfold pipeclose; dsimp only; split_ifs <;> rfl

lemma pipeclose_setFd (s : FSys σ) (pi w p fd x) :
    pipeclose P (s.setFd p fd x) pi w = (pipeclose P s pi w).setFd p fd x := by
  unfold pipeclose; simp only [FSys.setFd_pipes]; split_ifs <;> rfl

lemma fileclose_setFd (s : FSys σ) (f p fd x) :
    fileclose P (s.setFd p fd x) f = (fileclose P s f).map fun r => (r.1.setFd p fd x, r.2) := by
  unfold fileclose
  simp only [FSys.setFd_file]
  by_cases h1 : (s.file f).ref < 1
  · simp only [h1, if_true, Option.map_none]
  by_cases h2 : (s.file f).ref - 1 > 0
  · simp only [h1, h2, if_false, if_true, Option.map_some]; rfl
  · simp only [h1, h2, if_false]
    rcases (s.file f).type <;> simp only [Option.map_some, ← pipeclose_setFd] <;> rfl

lemma pipeclose_isOpen (s : FSys σ) (pi w q v) :
    ((pipeclose P s pi w).pipes q).isOpen v = (decide (¬(q = pi ∧ v = w)) && (s.pipes q).isOpen v) := by
  have hp : (pipeclose P s pi w).pipes = Function.update s.pipes pi
      (if w then { s.pipes pi with writeopen := false } else { s.pipes pi with readopen := false }) := by
    unfold pipeclose; dsimp only; split_ifs <;> rfl
  rw [hp]
  by_cases hq : q = pi
  · subst hq; cases w <;> cases v <;> simp [Ends.isOpen]
  · simp [hq]

lemma pipeclose_mem (s : FSys σ) (pi w) :
    (pipeclose P s pi w).mem = if (s.pipes pi).isOpen (!w) then s.mem else P.free pi s.mem := by
  unfold pipeclose
  dsimp only
  cases w <;> split_ifs <;> simp_all [Ends.isOpen]

end Ops

/-! ## What each operation does to the books -/

section Keep

variable {P} {s s' : FSys σ} {fl : Fin NFILE → ℤ} {f : Fin NFILE} {p : Fin NPROC}
  {fd : Fin NOFILE}

lemma Inv.filealloc (hi : Inv P s fl) {file : Fin NFILE → File}
    (h : filealloc s.file = (some f, file)) :
    Inv P { s with file := file } (Function.update fl f (fl f + 1)) ∧
      (s.file f).type = .FD_NONE := by
  obtain ⟨h0, rfl⟩ := filealloc_some h
  have hn := hi.none_of_zero f h0
  have he : ∀ pi w, ({ s.file f with ref := 1 } : File).IsEnd pi w ↔ (s.file f).IsEnd pi w := by
    intro pi w; simp [File.IsEnd, hn, h0]
  have hb := hi.toBooks.setFile f { s.file f with ref := 1 } (by simp) (fun _ => hi.typed f hn)
  simp only [h0, sub_zero] at hb
  exact ⟨⟨hb, hi.toPipeOK.setFile f _ he⟩, hn⟩

lemma Inv.addRef (hi : Inv P s fl) (f : Fin NFILE) (n : ℤ) (h0 : 0 < (s.file f).ref)
    (h1 : 0 < (s.file f).ref + n) :
    Inv P { s with file := Function.update s.file f { s.file f with ref := (s.file f).ref + n } }
      (Function.update fl f (fl f + n)) := by
  have he : ∀ pi w, ({ s.file f with ref := (s.file f).ref + n } : File).IsEnd pi w ↔
      (s.file f).IsEnd pi w := by
    intro pi w
    simp only [File.IsEnd]
    constructor <;> rintro ⟨ht, hq, hw, -⟩ <;> exact ⟨ht, hq, hw, by omega⟩
  have hb := hi.toBooks.setFile f { s.file f with ref := (s.file f).ref + n }
    (fun h => absurd h (ne_of_gt h1)) (hi.typed f)
  rw [show fl f + (({ s.file f with ref := (s.file f).ref + n } : File).ref - (s.file f).ref) =
    fl f + n by dsimp only; ring] at hb
  exact ⟨hb, hi.toPipeOK.setFile f _ he⟩

lemma Inv.filedup (hi : Inv P s fl) {file : Fin NFILE → File} (h : filedup s.file f = some file) :
    Inv P { s with file := file } (Function.update fl f (fl f + 1)) := by
  obtain ⟨h1, rfl⟩ := filedup_some h
  exact hi.addRef f 1 (by omega) (by omega)

lemma Books.setFd (hb : Books s fl) (hp : s.life p = .LIVE) (x : Option (Fin NFILE))
    (hx : ∀ g, x = some g → (s.file g).type ≠ .FD_NONE) (fl' : Fin NFILE → ℤ)
    (hfl : ∀ g, fl' g + (if x = some g then 1 else 0) =
      fl g + (if s.ofile p fd = some g then 1 else 0)) :
    Books (s.setFd p fd x) fl' where
  idle i g hi := by
    have hip : i ≠ p := fun h => hi (h ▸ hp)
    simpa [hip] using hb.idle i g hi
  ref_eq g := by
    have hc := @count_setFd σ s p fd x (by rw [hp]; decide) g
    have hg := hfl g
    have hr := hb.ref_eq g
    simp only [FSys.setFd_file]
    split_ifs at hc hg <;> omega
  none_of_zero := hb.none_of_zero
  typed g ht := by
    have hc := @count_setFd σ s p fd x (by rw [hp]; decide) g
    have h0 := hb.typed g ht
    have hx' : x ≠ some g := fun h => hx g h ht
    simp only [hx', if_false] at hc
    omega

lemma Inv.setFd_some (hi : Inv P s fl) (hp : s.life p = .LIVE) (hn : s.ofile p fd = none)
    (ht : (s.file f).type ≠ .FD_NONE) :
    Inv P (s.setFd p fd (some f)) (Function.update fl f (fl f - 1)) := by
  refine ⟨hi.toBooks.setFd hp _ (fun g hg => by cases hg; exact ht) _ fun g => ?_,
    hi.toPipeOK.congr rfl rfl rfl⟩
  by_cases hg : g = f
  · subst hg; simp [hn]
  · simp [hn, hg, Ne.symm hg]

lemma Inv.setFd_none (hi : Inv P s fl) (hp : s.life p = .LIVE) (hf : s.ofile p fd = some f) :
    Inv P (s.setFd p fd none) (Function.update fl f (fl f + 1)) := by
  refine ⟨hi.toBooks.setFd hp _ (fun g hg => by cases hg) _ fun g => ?_,
    hi.toPipeOK.congr rfl rfl rfl⟩
  by_cases hg : g = f
  · subst hg; simp [hf]
  · simp [hf, hg, Ne.symm hg]

@[simp] lemma freeFile_ofile (s : FSys σ) (f : Fin NFILE) : (freeFile s f).ofile = s.ofile := rfl
@[simp] lemma freeFile_life (s : FSys σ) (f : Fin NFILE) : (freeFile s f).life = s.life := rfl
@[simp] lemma freeFile_pipes (s : FSys σ) (f : Fin NFILE) : (freeFile s f).pipes = s.pipes := rfl
@[simp] lemma freeFile_mem (s : FSys σ) (f : Fin NFILE) : (freeFile s f).mem = s.mem := rfl

lemma isEnd_freeFile (g : Fin NFILE) (pi : ℕ) (w : Bool) :
    ((freeFile s f).file g).IsEnd pi w ↔ g ≠ f ∧ (s.file g).IsEnd pi w := by
  by_cases hg : g = f
  · subst hg; simp [freeFile, File.IsEnd]
  · simp [freeFile, hg]

lemma File.IsEnd.unique {ff : File} {pi q : ℕ} {w v : Bool} (h : ff.IsEnd pi w)
    (h' : ff.IsEnd q v) : q = pi ∧ v = w :=
  ⟨h'.2.1.symm.trans h.2.1, h'.2.2.1.symm.trans h.2.2.1⟩

/-- **The last close of a pipe end.** The end closes, and the page goes back to the allocator
once the other end is closed too; every other pipe keeps its books. -/
lemma PipeOK.closeEnd (hP : P.Lawful) (hp : PipeOK P s) {pi : ℕ} {w : Bool}
    (hf : (s.file f).IsEnd pi w) : PipeOK P (pipeclose P (freeFile s f) pi w) where
  ends q v := by
    simp only [pipeclose_isOpen, pipeclose_file, freeFile_pipes, isEnd_freeFile]
    by_cases hq : q = pi ∧ v = w
    · obtain ⟨rfl, rfl⟩ := hq
      simp only [and_self, not_true_eq_false, decide_false, Bool.false_and, Bool.false_eq_true,
        false_iff]
      rintro ⟨g, hgf, hg⟩
      exact hgf (hp.end_unique q v g f hg hf)
    · simp only [hq, not_false_eq_true, decide_true, Bool.true_and, hp.ends q v]
      constructor
      · rintro ⟨g, hg⟩
        exact ⟨g, fun hgf => hq (File.IsEnd.unique (hgf ▸ hf) hg), hg⟩
      · rintro ⟨g, -, hg⟩
        exact ⟨g, hg⟩
  end_unique q v g g' hg hg' := by
    simp only [pipeclose_file, isEnd_freeFile] at hg hg'
    exact hp.end_unique q v g g' hg.2 hg'.2
  page q v h := by
    simp only [pipeclose_isOpen, freeFile_pipes, Bool.and_eq_true, decide_eq_true_eq] at h
    obtain ⟨hq, ho⟩ := h
    rw [pipeclose_mem, freeFile_pipes, freeFile_mem]
    split_ifs with hw
    · exact hp.page q v ho
    · intro hm
      rcases hP.free_sub pi s.mem hm with rfl | hm
      · -- the page freed is `pi`, whose `v` end is open: so `v` is the other end
        have hv : v = !w := by cases v <;> cases w <;> simp_all
        exact hw (hv ▸ ho)
      · exact hp.page q v ho hm

lemma closeObj_pipe {t : FSys σ} {ff : File} (ht : ff.type = .FD_PIPE) :
    closeObj P t ff = pipeclose P t ff.pipe ff.writable := by
  simp [closeObj, ht]

lemma closeObj_of_ne {t : FSys σ} {ff : File} (ht : ff.type ≠ .FD_PIPE) : closeObj P t ff = t := by
  unfold closeObj; split
  · exact absurd ‹_› ht
  · rfl

/-- **`fileclose` on the books.** Closing a file that holds one floating reference keeps the
books and leaves it none; the object goes with the last reference and only then. -/
lemma Inv.fileclose (hP : P.Lawful) (hi : Inv P s fl) (hfl : fl f = 1) {r : Release}
    (h : fileclose P s f = some (s', r)) :
    Inv P s' (Function.update fl f 0) ∧
      r = if count s f = 0 then releaseOf (s.file f) else .nothing := by
  have href := hi.ref_eq f
  obtain ⟨-, ⟨hgt, rfl, rfl⟩ | ⟨heq, rfl, rfl⟩⟩ := fileclose_cases h
  · -- not the last reference: one fewer
    have hc : count s f ≠ 0 := by omega
    have hd := hi.addRef f (-1) (by omega) (by omega)
    rw [show fl f + -1 = 0 by omega, ← sub_eq_add_neg] at hd
    exact ⟨hd, by rw [if_neg hc]⟩
  · -- the last reference: the file is freed and its object handed on
    have hc : count s f = 0 := by omega
    have hb := hi.toBooks.setFile f { s.file f with ref := 0, type := .FD_NONE } (fun _ => rfl)
      (fun _ => hc)
    rw [show fl f + (({ s.file f with ref := 0, type := .FD_NONE } : File).ref - (s.file f).ref)
      = 0 by dsimp only; omega] at hb
    refine ⟨?_, by rw [if_pos hc]⟩
    by_cases ht : (s.file f).type = .FD_PIPE
    · rw [closeObj_pipe ht]
      exact ⟨hb.congr (by rw [pipeclose_file]; rfl) (by simp) (by simp),
        hi.toPipeOK.closeEnd hP ⟨ht, rfl, rfl, by omega⟩⟩
    · rw [closeObj_of_ne ht]
      refine ⟨hb, hi.toPipeOK.setFile f _ fun pi w => ?_⟩
      simp only [File.IsEnd, reduceCtorEq, false_and, false_iff]
      exact fun h => ht h.1

end Keep

/-! ## The calls keep the books

Each call starts and ends with no floating reference. -/

section Calls

variable {P} {s s' : FSys σ} {fl : Fin NFILE → ℤ} {f : Fin NFILE} {p : Fin NPROC} {r : ℤ}

lemma Inv.of_fl {fl' : Fin NFILE → ℤ} (hi : Inv P s fl) (h : ∀ g, fl g = fl' g) : Inv P s fl' :=
  funext h ▸ hi

@[simp] lemma FSys.setFd_setFile (t : FSys σ) (p fd x) (file : Fin NFILE → File) :
    { t.setFd p fd x with file := file } = { t with file := file }.setFd p fd x := rfl

lemma argfd_some {fd : ℤ} {fd' : Fin NOFILE} (h : argfd s p fd = some (fd', f)) :
    s.ofile p fd' = some f := by
  unfold argfd at h
  split at h
  · obtain ⟨g, hg, hgf⟩ := Option.map_eq_some_iff.mp h
    obtain ⟨rfl, rfl⟩ := Prod.mk.inj hgf
    exact hg
  · cases h

lemma Books.setEntry (hb : Books s fl) (f : Fin NFILE) (ff : File)
    (hr : ff.ref = (s.file f).ref) (h0 : (s.file f).ref ≠ 0) (ht : ff.type ≠ .FD_NONE) :
    Books { s with file := Function.update s.file f ff } fl := by
  have hb := hb.setFile f ff (fun h => absurd (hr ▸ h) h0) (fun h => absurd h ht)
  rwa [hr, sub_self, add_zero, Function.update_eq_self] at hb

lemma Inv.setEntry (hi : Inv P s fl) (f : Fin NFILE) (ff : File)
    (hr : ff.ref = (s.file f).ref) (h0 : (s.file f).ref ≠ 0) (ht : ff.type ≠ .FD_NONE)
    (he : ∀ pi w, ff.IsEnd pi w ↔ (s.file f).IsEnd pi w) :
    Inv P { s with file := Function.update s.file f ff } fl :=
  ⟨hi.toBooks.setEntry f ff hr h0 ht, hi.toPipeOK.setFile f ff he⟩

lemma Inv.alloc (hP : P.Lawful) (hi : Inv P s fl) {o : Option ℕ} {mem : σ}
    (h : P.alloc s.mem = (o, mem)) : Inv P { s with mem := mem } fl :=
  ⟨hi.toBooks.congr rfl rfl rfl,
    ⟨hi.ends, hi.end_unique, fun pi w ho hm => hi.page pi w ho (hP.free_alloc_sub h hm)⟩⟩

lemma Inv.closeBoth (hP : P.Lawful) (hi : Inv P s fl) {rf wf : Fin NFILE} (hne : rf ≠ wf)
    (h1 : fl rf = 1) (h2 : fl wf = 1) (h : closeBoth P s rf wf = some s') :
    Inv P s' (Function.update (Function.update fl rf 0) wf 0) := by
  obtain ⟨⟨s₁, r₁⟩, hc₁, h⟩ := Option.bind_eq_some_iff.mp h
  obtain ⟨⟨s₂, r₂⟩, hc₂, rfl⟩ := Option.map_eq_some_iff.mp h
  have hi₁ := (hi.fileclose hP h1 hc₁).1
  exact (hi₁.fileclose hP (by rw [Function.update_of_ne (Ne.symm hne)]; exact h2) hc₂).1

/-- **A new pipe.** Two files, neither the end of a pipe, become the read and the write end of
a page just allocated; every other pipe keeps its books. -/
lemma PipeOK.newPipe (hP : P.Lawful) (hp : PipeOK P s) {f0 f1 : Fin NFILE} (hne : f0 ≠ f1)
    (h0 : ∀ q v, ¬(s.file f0).IsEnd q v) (h1 : ∀ q v, ¬(s.file f1).IsEnd q v)
    {pi : ℕ} {mem : σ} (ha : P.alloc s.mem = (some pi, mem)) {e0 e1 : File}
    (he0 : ∀ q v, e0.IsEnd q v ↔ q = pi ∧ v = false)
    (he1 : ∀ q v, e1.IsEnd q v ↔ q = pi ∧ v = true) :
    PipeOK P { s with file := Function.update (Function.update s.file f0 e0) f1 e1, mem := mem,
                      pipes := Function.update s.pipes pi ⟨true, true⟩ } := by
  set F := Function.update (Function.update s.file f0 e0) f1 e1
  -- no file is an end of the page just handed out
  have hnot : ∀ g v, ¬(s.file g).IsEnd pi v := fun g v hg =>
    hp.page pi v ((hp.ends pi v).2 ⟨g, hg⟩) (hP.alloc_some ha).1
  -- the ends of the new pipe are the two files
  have hat : ∀ g v, (F g).IsEnd pi v ↔ g = if v then f1 else f0 := by
    intro g v
    by_cases hg1 : g = f1
    · subst hg1; cases v <;> simp [F, he1, Ne.symm hne]
    · by_cases hg0 : g = f0
      · subst hg0; cases v <;> simp [F, he0, hg1]
      · simp only [F, Function.update_of_ne hg1, Function.update_of_ne hg0]
        cases v <;> simp [hnot, hg0, hg1]
  -- every other pipe keeps its ends
  have hother : ∀ g q v, q ≠ pi → ((F g).IsEnd q v ↔ (s.file g).IsEnd q v) := by
    intro g q v hq
    by_cases hg1 : g = f1
    · subst hg1; simp [F, he1, hq, h1 q v]
    · by_cases hg0 : g = f0
      · subst hg0; simp [F, Function.update_of_ne hg1, he0, hq, h0 q v]
      · simp only [F, Function.update_of_ne hg1, Function.update_of_ne hg0]
  refine ⟨fun q v => ?_, fun q v g g' hg hg' => ?_, fun q v ho hm => ?_⟩ <;> dsimp only at *
  · by_cases hq : q = pi
    · subst hq
      simp only [Function.update_self]
      exact ⟨fun _ => ⟨_, (hat _ v).2 rfl⟩, fun _ => by cases v <;> rfl⟩
    · simp only [Function.update_of_ne hq, hp.ends q v, hother _ q v hq]
  · by_cases hq : q = pi
    · subst hq; rw [(hat g v).1 hg, (hat g' v).1 hg']
    · exact hp.end_unique q v g g' ((hother g q v hq).1 hg) ((hother g' q v hq).1 hg')
  · by_cases hq : q = pi
    · subst hq; exact hP.not_free_alloc ha hm
    · rw [Function.update_of_ne hq] at ho
      exact hp.page q v ho (hP.free_alloc_sub ha hm)

lemma inv_sys_close (hP : P.Lawful) (hi : Inv P s 0) (hp : s.life p = .LIVE) {fd : ℤ}
    (h : sys_close P s p fd = some (r, s')) : Inv P s' 0 := by
  unfold sys_close at h
  split at h
  · obtain ⟨rfl, rfl⟩ := Prod.mk.inj (Option.some.inj h)
    exact hi
  · rename_i fd' f hfd
    obtain ⟨⟨s₁, r₁⟩, hc, hr⟩ := Option.map_eq_some_iff.mp h
    obtain ⟨rfl, rfl⟩ := Prod.mk.inj hr
    -- the descriptor goes first; its reference floats until `fileclose` drops it
    have h₁ := hi.setFd_none hp (argfd_some hfd)
    exact (h₁.fileclose hP (by simp) hc).1.of_fl fun g => by by_cases hg : g = f <;> simp [hg]

lemma inv_sys_dup (hi : Inv P s 0) (hp : s.life p = .LIVE) {fd : ℤ}
    (h : sys_dup s p fd = some (r, s')) : Inv P s' 0 := by
  unfold sys_dup at h
  split at h
  · obtain ⟨rfl, rfl⟩ := Prod.mk.inj (Option.some.inj h)
    exact hi
  · rename_i fd' f hfd
    have hf := argfd_some hfd
    split at h
    · rename_i s₁ ha
      obtain ⟨rfl, rfl⟩ := Prod.mk.inj (Option.some.inj h)
      rw [fdalloc_none ha]
      exact hi
    · rename_i fd₁ s₁ ha
      obtain ⟨hn, rfl⟩ := fdalloc_some ha
      obtain ⟨file, hd, hr⟩ := Option.map_eq_some_iff.mp h
      obtain ⟨rfl, rfl⟩ := Prod.mk.inj hr
      -- the new descriptor takes a reference `filedup` has yet to add
      have ht : (s.file f).type ≠ .FD_NONE := fun ht =>
        (count_pos (by rw [hp]; decide) hf).ne' (hi.typed f ht)
      have h₁ := hi.setFd_some hp hn ht
      exact (h₁.filedup hd).of_fl fun g => by by_cases hg : g = f <;> simp [hg]

lemma inv_sys_open (hP : P.Lawful) (hi : Inv P s 0) (hp : s.life p = .LIVE)
    {ipo : Option (ℕ × Bool)} {omode : ℤ} (h : sys_open P s p ipo omode = some (r, s')) :
    Inv P s' 0 := by
  unfold sys_open at h
  split at h
  · obtain ⟨rfl, rfl⟩ := Prod.mk.inj (Option.some.inj h)
    exact hi
  · rename_i ip device
    split at h
    · rename_i file ha
      obtain ⟨rfl, rfl⟩ := Prod.mk.inj (Option.some.inj h)
      rw [filealloc_none ha]
      exact hi
    · rename_i f file ha
      obtain ⟨h₁, ht⟩ := hi.filealloc ha
      split at h
      · -- no descriptor: the new file is closed again
        rename_i s₂ hb
        rw [fdalloc_none hb] at h
        obtain ⟨⟨s₃, r₃⟩, hc, hr⟩ := Option.map_eq_some_iff.mp h
        obtain ⟨rfl, rfl⟩ := Prod.mk.inj hr
        exact (h₁.fileclose hP (by simp) hc).1.of_fl fun g => by
          by_cases hg : g = f <;> simp [hg]
      · rename_i fd s₂ hb
        obtain ⟨hn, rfl⟩ := fdalloc_some hb
        dsimp only at h
        obtain ⟨rfl, rfl⟩ := Prod.mk.inj (Option.some.inj h)
        -- the entry is filled in before the descriptor takes the reference: the two commute
        simp only [FSys.setFd_setFile, FSys.setFd_file]
        have hty : (if device then FdType.FD_DEVICE else .FD_INODE) ≠ .FD_NONE := by
          cases device <;> decide
        have hpi : (if device then FdType.FD_DEVICE else .FD_INODE) ≠ .FD_PIPE := by
          cases device <;> decide
        have h1 : (file f).ref = 1 := by rw [(filealloc_some ha).2]; simp
        have hft : (file f).type = .FD_NONE := by rw [(filealloc_some ha).2]; simpa using ht
        refine Inv.of_fl (Inv.setFd_some (Inv.setEntry h₁ f _ ?_ ?_ ?_ ?_) hp hn ?_) ?_
        · rfl
        · simp [h1]
        · exact hty
        · intro pi w
          simp only [File.IsEnd, hft, hpi, reduceCtorEq, false_and]
        · simpa using hty
        · intro g
          by_cases hg : g = f <;> simp [hg]

lemma inv_pipealloc_none (hP : P.Lawful) (hi : Inv P s 0)
    (h : pipealloc P s = some (none, s')) : Inv P s' 0 := by
  unfold pipealloc at h
  split at h
  · rename_i file ha
    obtain ⟨-, rfl⟩ := Prod.mk.inj (Option.some.inj h)
    rw [filealloc_none ha]
    exact hi
  · rename_i f0 file ha
    obtain ⟨h₁, -⟩ := hi.filealloc ha
    split at h
    · -- no second file: the first is closed again
      rename_i file' hb
      rw [filealloc_none hb] at h
      obtain ⟨⟨s₂, r₂⟩, hc, hr⟩ := Option.map_eq_some_iff.mp h
      obtain ⟨-, rfl⟩ := Prod.mk.inj hr
      exact (h₁.fileclose hP (by simp) hc).1.of_fl fun g => by by_cases hg : g = f0 <;> simp [hg]
    · rename_i f1 file' hb
      obtain ⟨h₂, -⟩ := h₁.filealloc hb
      have hne : f0 ≠ f1 := by
        rintro rfl
        have := (filealloc_some hb).1
        rw [(filealloc_some ha).2] at this
        simp at this
      split at h
      · -- no page: both files are closed again
        rename_i mem hm
        obtain ⟨s₃, hc, hr⟩ := Option.map_eq_some_iff.mp h
        obtain ⟨-, rfl⟩ := Prod.mk.inj hr
        refine ((h₂.alloc hP hm).closeBoth hP hne ?_ ?_ hc).of_fl fun g => ?_
        · simp [Function.update_of_ne hne]
        · simp [Function.update_of_ne (Ne.symm hne)]
        · by_cases hg0 : g = f0 <;> by_cases hg1 : g = f1 <;> simp_all
      · simp at h

lemma inv_pipealloc_some (hP : P.Lawful) (hi : Inv P s 0) {rf wf : Fin NFILE}
    (h : pipealloc P s = some (some (rf, wf), s')) :
    rf ≠ wf ∧ Inv P s' (Function.update (Function.update 0 rf 1) wf 1) ∧
      (s'.file rf).type = .FD_PIPE ∧ (s'.file wf).type = .FD_PIPE ∧ s'.life = s.life ∧
      s'.ofile = s.ofile := by
  unfold pipealloc at h
  split at h
  · simp at h
  · rename_i f0 file ha
    obtain ⟨h₁, ht0⟩ := hi.filealloc ha
    split at h
    · obtain ⟨⟨s₂, r₂⟩, -, hr⟩ := Option.map_eq_some_iff.mp h
      simp at hr
    · rename_i f1 file' hb
      obtain ⟨h₂, ht1⟩ := h₁.filealloc hb
      have hne : f0 ≠ f1 := by
        rintro rfl
        have := (filealloc_some hb).1
        rw [(filealloc_some ha).2] at this
        simp at this
      -- what the two `filealloc`s left in the two entries
      have hf0 : (file' f0).ref = 1 ∧ (file' f0).type = .FD_NONE := by
        rw [(filealloc_some hb).2, Function.update_of_ne hne, (filealloc_some ha).2]
        simpa using ht0
      have hf1 : (file' f1).ref = 1 ∧ (file' f1).type = .FD_NONE := by
        rw [(filealloc_some hb).2]
        simpa using ht1
      split at h
      · obtain ⟨s₃, -, hr⟩ := Option.map_eq_some_iff.mp h
        simp at hr
      · rename_i pi mem hm
        dsimp only at h
        obtain ⟨hrw, rfl⟩ := Prod.mk.inj (Option.some.inj h)
        obtain ⟨rfl, rfl⟩ := Prod.mk.inj (Option.some.inj hrw)
        set e0 : File :=
          { file' f0 with type := .FD_PIPE, readable := true, writable := false, pipe := pi }
        set e1 : File := { Function.update file' f0 e0 f1 with
          type := .FD_PIPE, readable := false, writable := true, pipe := pi }
        have he1 : e1 = { file' f1 with
            type := .FD_PIPE, readable := false, writable := true, pipe := pi } := by
          simp only [e1, Function.update_of_ne (Ne.symm hne)]
        have h₂' : Inv P _ (Function.update (Function.update 0 f0 1) f1 1) :=
          h₂.of_fl fun g => by simp [Function.update_of_ne (Ne.symm hne)]
        -- the two entries are set before the pipe's page and ends
        have hb₃ := (h₂'.toBooks.setEntry f0 e0 rfl (by simp [hf0.1]) (by simp [e0])).setEntry
          f1 e1 (by simp [he1, Function.update_of_ne (Ne.symm hne)])
          (by simp [Function.update_of_ne (Ne.symm hne), hf1.1]) (by simp [e1])
        refine ⟨hne, ⟨?_, h₂'.toPipeOK.newPipe hP hne ?_ ?_ hm ?_ ?_⟩,
          by simp [Function.update_of_ne hne, e0], by simp [e1], rfl, rfl⟩
        · apply hb₃.congr <;> rfl
        · intro q v; simp [File.IsEnd, hf0.2]
        · intro q v; simp [File.IsEnd, hf1.2]
        · intro q v; simp [File.IsEnd, e0, hf0.1, eq_comm]
        · intro q v; simp [File.IsEnd, he1, hf1.1, eq_comm]

lemma inv_sys_pipe (hP : P.Lawful) (hi : Inv P s 0) (hp : s.life p = .LIVE) {copyok : Bool}
    (h : sys_pipe P s p copyok = some (r, s')) : Inv P s' 0 := by
  unfold sys_pipe at h
  split at h
  · cases h
  · rename_i s₁ ha
    obtain ⟨-, rfl⟩ := Prod.mk.inj (Option.some.inj h)
    exact inv_pipealloc_none hP hi ha
  · rename_i rf wf s₁ ha
    obtain ⟨hne, h₁, hr, hw, hl, -⟩ := inv_pipealloc_some hP hi ha
    have hp₁ : s₁.life p = .LIVE := hl ▸ hp
    -- every path gives back the two floating references it holds
    have hz : ∀ fl : Fin NFILE → ℤ, (∀ g, g ≠ rf → g ≠ wf → fl g = 0) → fl rf = 0 → fl wf = 0 →
        ∀ g, fl g = (0 : Fin NFILE → ℤ) g := by
      intro fl h₀ h₁ h₂ g
      by_cases hg0 : g = rf
      · subst hg0; exact h₁
      · by_cases hg1 : g = wf
        · subst hg1; exact h₂
        · exact h₀ g hg0 hg1
    split at h
    · -- no descriptor for the read end
      rename_i s₂ hb
      rw [fdalloc_none hb] at h
      obtain ⟨s₃, hc, hr'⟩ := Option.map_eq_some_iff.mp h
      obtain ⟨-, rfl⟩ := Prod.mk.inj hr'
      refine (h₁.closeBoth hP hne (by simp [Function.update_of_ne hne]) (by simp) hc).of_fl
        (hz _ (fun g h0 h1 => ?_) (by simp [Function.update_of_ne hne]) (by simp))
      simp [Function.update_of_ne h0, Function.update_of_ne h1]
    · rename_i fd0 s₂ hb
      obtain ⟨hn0, rfl⟩ := fdalloc_some hb
      have h₂ := h₁.setFd_some hp₁ hn0 (by rw [hr]; decide)
      split at h
      · -- no descriptor for the write end: the read end's is given back first
        rename_i s₃ hb'
        rw [fdalloc_none hb'] at h
        obtain ⟨s₄, hc, hr'⟩ := Option.map_eq_some_iff.mp h
        obtain ⟨-, rfl⟩ := Prod.mk.inj hr'
        have hf0 : (s₁.setFd p fd0 (some rf)).ofile p fd0 = some rf := by simp
        have h₃ := h₂.setFd_none hp₁ hf0
        refine (h₃.closeBoth hP hne (by simp [Function.update_of_ne hne])
          (by simp [Function.update_of_ne (Ne.symm hne)]) hc).of_fl
          (hz _ (fun g h0 h1 => ?_) (by simp [Function.update_of_ne hne]) (by simp))
        simp [Function.update_of_ne h0, Function.update_of_ne h1]
      · rename_i fd1 s₃ hb'
        obtain ⟨hn1, rfl⟩ := fdalloc_some hb'
        have hfd : fd1 ≠ fd0 := by rintro rfl; simp at hn1
        have hwt : ((s₁.setFd p fd0 (some rf)).file wf).type ≠ .FD_NONE := by simp [hw]
        have h₃ := h₂.setFd_some hp₁ hn1 hwt
        split_ifs at h
        · obtain ⟨-, rfl⟩ := Prod.mk.inj (Option.some.inj h)
          refine h₃.of_fl (hz _ (fun g h0 h1 => ?_) ?_ ?_)
          · simp [Function.update_of_ne h0, Function.update_of_ne h1]
          · simp [Function.update_of_ne hne]
          · simp [Function.update_of_ne (Ne.symm hne)]
        · -- a failed copy: both descriptors are cleared, then both files closed
          obtain ⟨s₄, hc, hr'⟩ := Option.map_eq_some_iff.mp h
          obtain ⟨-, rfl⟩ := Prod.mk.inj hr'
          have hf0 : (((s₁.setFd p fd0 (some rf)).setFd p fd1 (some wf))).ofile p fd0 = some rf := by
            simp [Ne.symm hfd]
          have hf1 : ((((s₁.setFd p fd0 (some rf)).setFd p fd1 (some wf))).setFd p fd0 none).ofile p
              fd1 = some wf := by
            simp [hfd]
          have h₄ := (h₃.setFd_none hp₁ hf0).setFd_none hp₁ hf1
          refine (h₄.closeBoth hP hne (by simp [Function.update_of_ne hne])
            (by simp [Function.update_of_ne (Ne.symm hne)]) hc).of_fl
            (hz _ (fun g h0 h1 => ?_) (by simp [Function.update_of_ne hne]) (by simp))
          simp [Function.update_of_ne h0, Function.update_of_ne h1]

end Calls

/-! ## `kfork`, `kexit` and the process slots -/

section Procs

variable {P} {s s' : FSys σ} {fl : Fin NFILE → ℤ} {p np : Fin NPROC}

lemma Inv.setLife (hi : Inv P s fl) (i : Fin NPROC) (l : Life) (h : ∀ fd, s.ofile i fd = none) :
    Inv P { s with life := Function.update s.life i l } fl := by
  have hc : ∀ f, count { s with life := Function.update s.life i l } f = count s f := by
    intro f; simp only [count, slots_setLife l h]
  refine ⟨⟨fun j fd hj => ?_, ?_, hi.none_of_zero, ?_⟩, hi.toPipeOK.congr rfl rfl rfl⟩
  · by_cases hji : j = i
    · subst hji; exact h fd
    · exact hi.idle j fd (by simpa [hji] using hj)
  · simpa only [hc] using hi.ref_eq
  · simpa only [hc] using hi.typed

lemma fileclose_frame {r : Release} (h : fileclose P s f = some (s', r)) :
    s'.ofile = s.ofile ∧ s'.life = s.life := by
  obtain ⟨-, ⟨-, -, rfl⟩ | ⟨-, -, rfl⟩⟩ := fileclose_cases h
  · exact ⟨rfl, rfl⟩
  · by_cases ht : (s.file f).type = .FD_PIPE
    · rw [closeObj_pipe ht]; exact ⟨by simp, by simp⟩
    · rw [closeObj_of_ne ht]; exact ⟨rfl, rfl⟩

/-- One turn of `kfork`'s loop: the child's descriptor `i` takes a new reference to what the
parent's points to. -/
lemma Inv.fork_turn (hi : Inv P s 0) (hne : p ≠ np) (hp : s.life p ≠ .UNUSED)
    (hnp : s.life np = .LIVE) {i : Fin NOFILE} (hfree : s.ofile np i = none)
    (h : forkFd p np s i = some s') :
    Inv P s' 0 ∧ s'.life = s.life ∧ s'.ofile p = s.ofile p ∧
      ∀ j, j ≠ i → s'.ofile np j = s.ofile np j := by
  unfold forkFd at h
  split at h
  · obtain rfl := Option.some.inj h
    exact ⟨hi, rfl, rfl, fun _ _ => rfl⟩
  · rename_i f hf
    obtain ⟨file, hd, rfl⟩ := Option.map_eq_some_iff.mp h
    rw [FSys.setFd_setFile]
    have ht : (s.file f).type ≠ .FD_NONE := fun ht => (count_pos hp hf).ne' (hi.typed f ht)
    have ht' : ({ s with file := file }.file f).type ≠ .FD_NONE := by
      rw [(filedup_some hd).2]; simpa using ht
    refine ⟨((hi.filedup hd).setFd_some hnp hfree ht').of_fl fun g => ?_, rfl, ?_, ?_⟩
    · by_cases hg : g = f <;> simp [hg]
    · funext j; simp [hne]
    · intro j hj; simp [hj]

lemma Inv.forkLoop (hne : p ≠ np) (l : List (Fin NOFILE)) (hl : l.Nodup) (hi : Inv P s 0)
    (hp : s.life p ≠ .UNUSED) (hnp : s.life np = .LIVE) (hfree : ∀ i ∈ l, s.ofile np i = none)
    (h : l.foldlM (forkFd p np) s = some s') : Inv P s' 0 ∧ s'.life = s.life := by
  induction l generalizing s with
  | nil => obtain rfl := Option.some.inj h; exact ⟨hi, rfl⟩
  | cons i l ih =>
    simp only [List.foldlM_cons, Option.bind_eq_bind, Option.bind_eq_some_iff] at h
    obtain ⟨s₁, h₁, h₂⟩ := h
    obtain ⟨hi₁, hl₁, -, hnp₁⟩ := hi.fork_turn hne hp hnp (hfree i (by simp)) h₁
    have hfree₁ : ∀ j ∈ l, s₁.ofile np j = none := fun j hj => by
      rw [hnp₁ j (fun he => (List.nodup_cons.mp hl).1 (he ▸ hj))]
      exact hfree j (List.mem_cons_of_mem i hj)
    obtain ⟨hi₂, hl₂⟩ := ih (List.nodup_cons.mp hl).2 hi₁ (hl₁ ▸ hp) (hl₁ ▸ hnp) hfree₁ h₂
    exact ⟨hi₂, hl₂.trans hl₁⟩

/-- One turn of `kexit`'s loop: the descriptor's file is closed, then the descriptor cleared.
The two commute, and the proof clears first. -/
lemma Inv.exit_turn (hP : P.Lawful) (hi : Inv P s 0) (hp : s.life p = .LIVE) {fd : Fin NOFILE}
    (h : exitFd P p s fd = some s') :
    Inv P s' 0 ∧ s'.life = s.life ∧ s'.ofile p fd = none ∧
      ∀ g, s.ofile p g = none → s'.ofile p g = none := by
  unfold exitFd at h
  split at h
  · rename_i hn
    obtain rfl := Option.some.inj h
    exact ⟨hi, rfl, hn, fun _ h => h⟩
  · rename_i f hf
    obtain ⟨⟨t, r⟩, hc, rfl⟩ := Option.map_eq_some_iff.mp h
    have hc' : FileTable.fileclose P (s.setFd p fd none) f = some (t.setFd p fd none, r) := by
      rw [fileclose_setFd, hc]; rfl
    have hfr := fileclose_frame hc'
    refine ⟨((hi.setFd_none hp hf).fileclose hP (by simp) hc').1.of_fl fun g => ?_,
      by simpa using hfr.2, by simp, fun g hg => ?_⟩
    · by_cases hg : g = f <;> simp [hg]
    · rw [hfr.1]; simp [hg]

lemma Inv.exitLoop (hP : P.Lawful) (l : List (Fin NOFILE)) (hi : Inv P s 0)
    (hp : s.life p = .LIVE) (h : l.foldlM (exitFd P p) s = some s') :
    Inv P s' 0 ∧ s'.life = s.life ∧ (∀ fd ∈ l, s'.ofile p fd = none) ∧
      ∀ g, s.ofile p g = none → s'.ofile p g = none := by
  induction l generalizing s with
  | nil => obtain rfl := Option.some.inj h; exact ⟨hi, rfl, by simp, fun _ h => h⟩
  | cons fd l ih =>
    simp only [List.foldlM_cons, Option.bind_eq_bind, Option.bind_eq_some_iff] at h
    obtain ⟨s₁, h₁, h₂⟩ := h
    obtain ⟨hi₁, hl₁, hn₁, hk₁⟩ := hi.exit_turn hP hp h₁
    obtain ⟨hi₂, hl₂, hn₂, hk₂⟩ := ih hi₁ (hl₁ ▸ hp) h₂
    refine ⟨hi₂, hl₂.trans hl₁, ?_, fun g hg => hk₂ g (hk₁ g hg)⟩
    -- the descriptor cleared in this turn stays clear: later turns only clear
    rintro g (_ | ⟨_, hg⟩)
    · exact hk₂ fd hn₁
    · exact hn₂ g hg

/-- **Every step keeps the books** and leaves no floating reference. -/
lemma Inv.step (hP : P.Lawful) (hi : Inv P s 0) (h : Step P s s') : Inv P s' 0 := by
  cases h with
  | sys_open hp h => exact inv_sys_open hP hi hp h
  | sys_dup hp h => exact inv_sys_dup hi hp h
  | sys_close hp h => exact inv_sys_close hP hi hp h
  | sys_pipe hp h => exact inv_sys_pipe hP hi hp h
  | @fork _ p np hp hnp h =>
    have hne : p ≠ np := by rintro rfl; rw [hp] at hnp; cases hnp
    -- the child is made live with no descriptor, then gets its parent's
    have h₀ := hi.setLife np .LIVE fun fd => hi.idle np fd (by rw [hnp]; decide)
    refine (h₀.forkLoop hne _ (List.nodup_finRange NOFILE) ?_ ?_ ?_ h).1
    · simp [Function.update_of_ne hne, hp]
    · simp
    · intro i _; exact hi.idle np i (by rw [hnp]; decide)
  | @exit _ p hp h =>
    obtain ⟨h₁, -, hn, -⟩ := hi.exitLoop hP _ hp h
    exact h₁.setLife p .ZOMBIE fun fd => hn fd (List.mem_finRange fd)
  | reap hz => exact hi.setLife _ .UNUSED fun fd => hi.idle _ fd (by rw [hz]; decide)
  | start hu => exact hi.setLife _ .LIVE fun fd => hi.idle _ fd (by rw [hu]; decide)

/-- The books hold in every state reachable from boot. -/
lemma inv_reach (hP : P.Lawful) (hr : Reachable (fun s => ∃ mem, s = FSys.boot mem) (Step P) s) :
    Inv P s 0 :=
  hr.induct (P := fun s => Inv P s 0) (fun _ ⟨mem, h⟩ => h ▸ inv_boot mem)
    fun _ _ _ hi h => hi.step hP h

end Procs

/-! ## Exact reference counts -/

section Exact

variable {P} {s s' : FSys σ} {f : Fin NFILE} {p : Fin NPROC} {fd : Fin NOFILE}

lemma releaseOf_ne_nothing {ff : File} (h : ff.type ≠ .FD_NONE) : releaseOf ff ≠ .nothing := by
  unfold releaseOf
  split
  · exact Release.noConfusion
  · exact Release.noConfusion
  · exact Release.noConfusion
  · exact absurd ‹_› h

/-- What the close of a file held by a descriptor does, in a state with no floating
reference: it succeeds; it hands the object on exactly when this is the last descriptor;
and it frees the page of a pipe exactly when this closes its last open end. -/
lemma close_held (hP : P.Lawful) (hi : Inv P s 0) (hp : s.life p ≠ .UNUSED)
    (hf : s.ofile p fd = some f) :
    ∃ s' r, fileclose P s f = some (s', r) ∧
      r = (if count s f = 1 then releaseOf (s.file f) else .nothing) ∧
      releaseOf (s.file f) ≠ .nothing ∧
      s'.mem = if count s f = 1 ∧ (s.file f).type = .FD_PIPE ∧
          (s.pipes (s.file f).pipe).isOpen (!(s.file f).writable) = false
        then P.free (s.file f).pipe s.mem else s.mem := by
  have hlive : s.life p = .LIVE := by
    by_contra h; rw [hi.idle p fd h] at hf; cases hf
  have hc := count_pos hp hf
  have href : (s.file f).ref = count s f := by
    have h := hi.ref_eq f
    rwa [Pi.zero_apply, add_zero] at h
  have ht : (s.file f).type ≠ .FD_NONE := fun ht => hc.ne' (hi.typed f ht)
  obtain ⟨⟨s', r⟩, hcl⟩ := fileclose_some_of (P := P) (s := s) (f := f) (by omega)
  refine ⟨s', r, hcl, ?_, releaseOf_ne_nothing ht, ?_⟩
  · -- the release is read off the close with the descriptor already cleared
    have hcl' : FileTable.fileclose P (s.setFd p fd none) f = some (s'.setFd p fd none, r) := by
      rw [fileclose_setFd, hcl]; rfl
    have hcnt := @count_setFd σ s p fd none hp f
    simp only [hf, if_true, reduceCtorEq, if_false] at hcnt
    rw [((hi.setFd_none hlive hf).fileclose hP (by simp) hcl').2]
    by_cases h1 : count s f = 1
    · rw [if_pos (by omega), if_pos h1]; rfl
    · rw [if_neg (by omega), if_neg h1]
  · obtain ⟨-, ⟨hgt, -, rfl⟩ | ⟨heq, -, rfl⟩⟩ := fileclose_cases hcl
    · rw [if_neg (by omega)]
    · by_cases hty : (s.file f).type = .FD_PIPE
      · rw [closeObj_pipe hty, pipeclose_mem, freeFile_pipes, freeFile_mem]
        by_cases ho : (s.pipes (s.file f).pipe).isOpen (!(s.file f).writable) = true
        · rw [if_pos ho, if_neg (by simp [ho])]
        · rw [if_neg ho, if_pos ⟨by omega, hty, by simpa using ho⟩]
      · rw [closeObj_of_ne hty, if_neg (by simp [hty])]
        rfl

theorem file_refs_exact (hP : P.Lawful) {s : FSys σ}
    (hr : Reachable (fun s => ∃ mem, s = FSys.boot mem) (Step P) s) :
    (∀ f, (s.file f).ref = count s f ∧ ((s.file f).ref = 0 → (s.file f).type = .FD_NONE)) ∧
    (∀ p fd f, s.life p ≠ .UNUSED → s.ofile p fd = some f →
      ∃ s' r, fileclose P s f = some (s', r) ∧
        r = (if count s f = 1 then releaseOf (s.file f) else .nothing) ∧
        releaseOf (s.file f) ≠ .nothing ∧
        s'.mem = if count s f = 1 ∧ (s.file f).type = .FD_PIPE ∧
            (s.pipes (s.file f).pipe).isOpen (!(s.file f).writable) = false
          then P.free (s.file f).pipe s.mem else s.mem) ∧
    (∀ pi w, (s.pipes pi).isOpen w = true ↔ ∃! f, (s.file f).IsEnd pi w) ∧
    ∀ p fd f, s.life p ≠ .UNUSED → s.ofile p fd = some f → (s.file f).type = .FD_PIPE →
      (s.file f).pipe ∉ P.Free s.mem := by
  have hi := inv_reach hP hr
  have href : ∀ f, (s.file f).ref = count s f := fun f => by
    have h := hi.ref_eq f
    rwa [Pi.zero_apply, add_zero] at h
  refine ⟨fun f => ⟨href f, hi.none_of_zero f⟩, fun p fd f hp hf => close_held hP hi hp hf,
    fun pi w => ?_, fun p fd f hp hf ht => ?_⟩
  · rw [hi.ends pi w]
    exact ⟨fun ⟨f, hf⟩ => ⟨f, hf, fun g hg => hi.end_unique pi w g f hg hf⟩,
      fun ⟨f, hf, _⟩ => ⟨f, hf⟩⟩
  · -- a descriptor is a reference, so the file is an end of its pipe, which is open
    have hc := count_pos hp hf
    have hend : (s.file f).IsEnd (s.file f).pipe (s.file f).writable :=
      ⟨ht, rfl, rfl, by rw [href f]; exact_mod_cast hc⟩
    exact hi.page _ _ ((hi.ends _ _).2 ⟨f, hend⟩)

/-- Process 0 started from boot, with one free page. -/
def started : FSys (List ℕ) :=
  { FSys.boot [7] with life := Function.update (FSys.boot [7]).life 0 .LIVE }

/-- ... after its `sys_pipe`. -/
def piped : FSys (List ℕ) := ((sys_pipe listPool started 0 true).map Prod.snd).getD started

lemma reach_piped : Reachable (fun s => ∃ mem, s = FSys.boot mem) (Step listPool) piped :=
  .step (.step (.init ⟨[7], rfl⟩) (.start rfl))
    (.sys_pipe (p := 0) rfl (show sys_pipe listPool started 0 true = some (0, piped) from rfl))

theorem file_refs_exact_piped :
    (∀ f, (piped.file f).ref = count piped f ∧
      ((piped.file f).ref = 0 → (piped.file f).type = .FD_NONE)) ∧
    (∀ p fd f, piped.life p ≠ .UNUSED → piped.ofile p fd = some f →
      ∃ s' r, fileclose listPool piped f = some (s', r) ∧
        r = (if count piped f = 1 then releaseOf (piped.file f) else .nothing) ∧
        releaseOf (piped.file f) ≠ .nothing ∧
        s'.mem = if count piped f = 1 ∧ (piped.file f).type = .FD_PIPE ∧
            (piped.pipes (piped.file f).pipe).isOpen (!(piped.file f).writable) = false
          then listPool.free (piped.file f).pipe piped.mem else piped.mem) ∧
    (∀ pi w, (piped.pipes pi).isOpen w = true ↔ ∃! f, (piped.file f).IsEnd pi w) ∧
    ∀ p fd f, piped.life p ≠ .UNUSED → piped.ofile p fd = some f →
      (piped.file f).type = .FD_PIPE → (piped.file f).pipe ∉ listPool.Free piped.mem :=
  file_refs_exact listPool_lawful reach_piped

end Exact

end Xv6.FileTable
