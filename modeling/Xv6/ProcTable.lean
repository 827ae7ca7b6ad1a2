import Xv6.Param
import Xv6.Lib.Word

/-!
The process table of `proc.c`.

Each slot of `proc[]` holds the fields the table code reads and writes: the state, the
sleep channel, the `killed` flag, the exit status, the pid, the parent and the lottery
tickets. The page table, the open files and the name are not modelled; no operation here
decides anything by them. The kernel's globals beside the table are the CPUs' current
processes, `nextpid`, `initproc` and the generator state `rand_state` of the lottery.

Every operation is one function on the whole state, taken as one atomic step: in the
source each runs under `p->lock` or `wait_lock`. `kfork` is the exception: it publishes its
child in three critical sections, `allocproc` and the copy under `np->lock`, `np->parent = p`
under `wait_lock`, and `np->state = RUNNABLE` under `np->lock` again, and `forking` records
where each process is among them. Where the source can fail for a reason outside the table
(`kalloc`, `uvmcopy`, `copyout`), the function takes the outcome as a `Bool`.
-/

namespace Xv6.ProcTable

open Xv6.Param Xv6.Lib.Word

/-- `enum procstate`. -/
inductive Procstate
  | UNUSED | USED | SLEEPING | RUNNABLE | RUNNING | ZOMBIE
  deriving DecidableEq, Repr

/-- A sleep channel, the address `sleep` records and `wakeup` compares: the null pointer,
the address of slot `i` of `proc[]` (what `kwait` sleeps on), or any other object. -/
inductive Chan
  | null
  | proc (i : Fin NPROC)
  | obj (a : ℕ)
  deriving DecidableEq, Repr

/-- The fields of `struct proc` the process-table code uses. -/
structure Proc where
  state : Procstate
  chan : Chan
  killed : ℤ
  xstate : ℤ
  pid : ℤ
  parent : Option (Fin NPROC)
  tickets : ℤ
  deriving DecidableEq, Repr

def Proc.zero : Proc := ⟨.UNUSED, .null, 0, 0, 0, none, 0⟩

/-- Where a process is in `kfork`: not in it, past the first section with the child `np`,
or past the second. -/
inductive Forking
  | idle
  | parent (np : Fin NPROC)
  | run (np : Fin NPROC)
  deriving DecidableEq, Repr

def Forking.child : Forking → Option (Fin NPROC)
  | .idle => none
  | .parent np => some np
  | .run np => some np

/-- The state of the process subsystem. -/
structure Sys where
  /-- `proc[NPROC]`. -/
  proc : Fin NPROC → Proc
  /-- `cpus[c].proc`: the process CPU `c` runs, `none` while it is in `scheduler`. -/
  cpus : Fin NCPU → Option (Fin NPROC)
  nextpid : ℤ
  initproc : Option (Fin NPROC)
  rand_state : ℕ
  /-- How far each process is in a `kfork`: the place its kernel stack holds. -/
  forking : Fin NPROC → Forking

def boot : Sys := ⟨fun _ => Proc.zero, fun _ => none, 1, none, 1, fun _ => .idle⟩

def chanOf : Option (Fin NPROC) → Chan
  | none => .null
  | some i => .proc i

namespace Sys

def setProc (s : Sys) (i : Fin NPROC) (p : Proc) : Sys :=
  { s with proc := Function.update s.proc i p }

def setCpu (s : Sys) (c : Fin NCPU) (p : Option (Fin NPROC)) : Sys :=
  { s with cpus := Function.update s.cpus c p }

@[simp] lemma setProc_proc (s : Sys) (i : Fin NPROC) (p : Proc) (j : Fin NPROC) :
    (s.setProc i p).proc j = if j = i then p else s.proc j := by
  simp [setProc, Function.update_apply]

@[simp] lemma setProc_cpus (s : Sys) (i : Fin NPROC) (p : Proc) :
    (s.setProc i p).cpus = s.cpus := rfl
@[simp] lemma setProc_nextpid (s : Sys) (i : Fin NPROC) (p : Proc) :
    (s.setProc i p).nextpid = s.nextpid := rfl
@[simp] lemma setProc_initproc (s : Sys) (i : Fin NPROC) (p : Proc) :
    (s.setProc i p).initproc = s.initproc := rfl
@[simp] lemma setProc_rand_state (s : Sys) (i : Fin NPROC) (p : Proc) :
    (s.setProc i p).rand_state = s.rand_state := rfl
@[simp] lemma setProc_forking (s : Sys) (i : Fin NPROC) (p : Proc) :
    (s.setProc i p).forking = s.forking := rfl

@[simp] lemma setProc_setProc (s : Sys) (i : Fin NPROC) (p q : Proc) :
    (s.setProc i p).setProc i q = s.setProc i q := by
  simp [setProc]

@[simp] lemma setCpu_proc (s : Sys) (c : Fin NCPU) (p : Option (Fin NPROC)) :
    (s.setCpu c p).proc = s.proc := rfl
@[simp] lemma setCpu_cpus (s : Sys) (c : Fin NCPU) (p : Option (Fin NPROC)) (d : Fin NCPU) :
    (s.setCpu c p).cpus d = if d = c then p else s.cpus d := by
  simp [setCpu, Function.update_apply]
@[simp] lemma setCpu_initproc (s : Sys) (c : Fin NCPU) (p : Option (Fin NPROC)) :
    (s.setCpu c p).initproc = s.initproc := rfl
@[simp] lemma setCpu_forking (s : Sys) (c : Fin NCPU) (p : Option (Fin NPROC)) :
    (s.setCpu c p).forking = s.forking := rfl

end Sys

/-- `allocpid`: the next pid, and `nextpid` advanced in `int`. -/
def allocpid (s : Sys) : ℤ × Sys := (s.nextpid, { s with nextpid := i32 (s.nextpid + 1) })

def freeproc (p : Proc) : Proc :=
  { p with pid := 0, parent := none, chan := .null, killed := 0, xstate := 0,
           state := .UNUSED }

def firstUnused (t : Fin NPROC → Proc) : Option (Fin NPROC) :=
  (List.finRange NPROC).find? fun i => decide ((t i).state = .UNUSED)

/-- `allocproc`. The first `UNUSED` slot gets a pid, 10 tickets and state `USED`; `ok` is
false when `kalloc` of the trapframe or `proc_pagetable` fails, and `freeproc` then returns
the slot (the pid stays spent). The other fields keep what the slot held. -/
def allocproc (s : Sys) (ok : Bool) : Option (Fin NPROC) × Sys :=
  match firstUnused s.proc with
  | none => (none, s)
  | some i =>
    let (pid, s) := allocpid s
    let s := s.setProc i { s.proc i with pid := pid, tickets := 10, state := .USED }
    if ok then (some i, s) else (none, s.setProc i (freeproc (s.proc i)))

lemma firstUnused_state {t : Fin NPROC → Proc} {i : Fin NPROC} (h : firstUnused t = some i) :
    (t i).state = .UNUSED := by
  simpa using List.find?_some h

lemma allocproc_some {s s' : Sys} {ok : Bool} {i : Fin NPROC} (h : allocproc s ok = (some i, s')) :
    (s.proc i).state = .UNUSED ∧ ok = true ∧
      s' = ({ s with nextpid := i32 (s.nextpid + 1) } : Sys).setProc i
        { s.proc i with pid := s.nextpid, tickets := 10, state := .USED } := by
  unfold allocproc allocpid at h
  split at h
  · cases h
  · rename_i j hj
    dsimp only at h
    split_ifs at h with hok
    · cases h
      exact ⟨firstUnused_state hj, hok, rfl⟩
    · cases h

lemma allocproc_none {s s' : Sys} {ok : Bool} (h : allocproc s ok = (none, s')) :
    s' = s ∨ ∃ i, (s.proc i).state = .UNUSED ∧
      s' = ({ s with nextpid := i32 (s.nextpid + 1) } : Sys).setProc i
        (freeproc { s.proc i with pid := s.nextpid, tickets := 10, state := .USED }) := by
  unfold allocproc allocpid at h
  split at h
  · exact .inl (Prod.mk.inj h).2.symm
  · rename_i j hj
    dsimp only at h
    split_ifs at h
    · cases h
    · cases h
      exact .inr ⟨j, firstUnused_state hj, by simp⟩

/-- `userinit`: the first process, made `RUNNABLE` and remembered as `initproc`. The
source does not check `allocproc`'s result; its failure is a crash, here `none`. -/
def userinit (s : Sys) : Option Sys :=
  match allocproc s true with
  | (none, _) => none
  | (some i, s) =>
    some { s.setProc i { s.proc i with state := .RUNNABLE } with initproc := some i }

/-- The first critical section of `kfork` by process `p`, under `np->lock`: `allocproc`,
whose allocations succeed when `ok`, then `uvmcopy`, which succeeds when `copyok` and
otherwise frees the child. The child inherits the parent's tickets. -/
def kforkAlloc (s : Sys) (p : Fin NPROC) (ok copyok : Bool) : Option (Fin NPROC) × Sys :=
  match allocproc s ok with
  | (none, s) => (none, s)
  | (some np, s) =>
    if copyok then
      (some np, { s.setProc np { s.proc np with tickets := (s.proc p).tickets } with
                  forking := Function.update s.forking p (.parent np) })
    else (none, s.setProc np (freeproc (s.proc np)))

/-- The second section, under `wait_lock`: `np->parent = p`. -/
def kforkParent (s : Sys) (p np : Fin NPROC) : Sys :=
  { s.setProc np { s.proc np with parent := some p } with
    forking := Function.update s.forking p (.run np) }

/-- The third section, under `np->lock`: `np->state = RUNNABLE`. -/
def kforkRun (s : Sys) (p np : Fin NPROC) : Sys :=
  { s.setProc np { s.proc np with state := .RUNNABLE } with
    forking := Function.update s.forking p .idle }

/-- `kfork` by process `p`, its three sections run with nothing in between. It returns the
child's pid, read in the first. -/
def kfork (s : Sys) (p : Fin NPROC) (ok copyok : Bool) : ℤ × Sys :=
  match kforkAlloc s p ok copyok with
  | (none, s) => (-1, s)
  | (some np, s) => ((s.proc np).pid, kforkRun (kforkParent s p np) p np)

@[simp] lemma allocproc_cpus (s : Sys) (ok : Bool) : (allocproc s ok).2.cpus = s.cpus := by
  unfold allocproc allocpid
  split
  · rfl
  · cases ok <;> rfl

@[simp] lemma allocproc_forking (s : Sys) (ok : Bool) :
    (allocproc s ok).2.forking = s.forking := by
  unfold allocproc allocpid
  split
  · rfl
  · cases ok <;> rfl

@[simp] lemma kforkAlloc_cpus (s : Sys) (p : Fin NPROC) (ok copyok : Bool) :
    (kforkAlloc s p ok copyok).2.cpus = s.cpus := by
  unfold kforkAlloc
  rcases ha : allocproc s ok with ⟨_ | np, s₁⟩
  · simpa using (congrArg (fun r => r.2.cpus) ha).symm
  · have h := congrArg (fun r => r.2.cpus) ha
    simp only [allocproc_cpus] at h
    cases copyok <;> simp [h]

lemma kforkAlloc_forking {s s' : Sys} {p np : Fin NPROC} {ok copyok : Bool}
    (h : kforkAlloc s p ok copyok = (some np, s')) : s'.forking p = .parent np := by
  unfold kforkAlloc at h
  rcases ha : allocproc s ok with ⟨_ | i, s₁⟩ <;> rw [ha] at h <;> dsimp only at h
  · cases h
  · split_ifs at h <;> cases h
    simp

/-- `wakeup(chan)` called by `me`: every other process sleeping on `chan` becomes
`RUNNABLE`. -/
def wakeup (s : Sys) (me : Option (Fin NPROC)) (chan : Chan) : Sys :=
  { s with proc := fun i =>
      if some i ≠ me ∧ (s.proc i).state = .SLEEPING ∧ (s.proc i).chan = chan then
        { s.proc i with state := .RUNNABLE }
      else s.proc i }

/-- One iteration of `reparent`'s loop, at slot `pp`. -/
def reparentAt (p : Fin NPROC) (s : Sys) (pp : Fin NPROC) : Sys :=
  if (s.proc pp).parent = some p then
    wakeup (s.setProc pp { s.proc pp with parent := s.initproc }) (some p) (chanOf s.initproc)
  else s

/-- `reparent`: the children of `p` go to `initproc`, which is woken. -/
def reparent (s : Sys) (p : Fin NPROC) : Sys :=
  (List.finRange NPROC).foldl (reparentAt p) s

def toScheduler (s : Sys) (c : Fin NCPU) : Sys := s.setCpu c none

def yield (s : Sys) (c : Fin NCPU) (p : Fin NPROC) : Sys :=
  toScheduler (s.setProc p { s.proc p with state := .RUNNABLE }) c

def sleep (s : Sys) (c : Fin NCPU) (p : Fin NPROC) (chan : Chan) : Sys :=
  toScheduler (s.setProc p { s.proc p with chan := chan, state := .SLEEPING }) c

/-- `kexit(status)` by process `p` on CPU `c`: `none` is the panic `init exiting`. -/
def kexit (s : Sys) (c : Fin NCPU) (p : Fin NPROC) (status : ℤ) : Option Sys :=
  if s.initproc = some p then none
  else
    let s := reparent s p
    let s := wakeup s (some p) (chanOf (s.proc p).parent)
    some (toScheduler (s.setProc p { s.proc p with xstate := status, state := .ZOMBIE }) c)

def children (t : Fin NPROC → Proc) (p : Fin NPROC) : List (Fin NPROC) :=
  (List.finRange NPROC).filter fun pp => decide ((t pp).parent = some p)

/-- `kwait` by process `p` on CPU `c`, one pass of its loop: reap the first `ZOMBIE`
child, or fail, or sleep on `p`'s own address (result `none`). `copyfail` is a failed
`copyout` of the exit status, after which the child is not freed. -/
def kwait (s : Sys) (c : Fin NCPU) (p : Fin NPROC) (copyfail : Bool) : Option ℤ × Sys :=
  match (children s.proc p).find? (fun pp => decide ((s.proc pp).state = .ZOMBIE)) with
  | some pp =>
    if copyfail then (some (-1), s)
    else (some (s.proc pp).pid, s.setProc pp (freeproc (s.proc pp)))
  | none =>
    if children s.proc p = [] ∨ (s.proc p).killed ≠ 0 then (some (-1), s)
    else (none, sleep s c p (.proc p))

def findPid (t : Fin NPROC → Proc) (pid : ℤ) : Option (Fin NPROC) :=
  (List.finRange NPROC).find? fun i => decide ((t i).pid = pid)

/-- `kkill(pid)`: the first slot with that pid is marked killed, and woken if it sleeps. -/
def kkill (s : Sys) (pid : ℤ) : ℤ × Sys :=
  match findPid s.proc pid with
  | none => (-1, s)
  | some i =>
    (0, s.setProc i { s.proc i with
          killed := 1,
          state := if (s.proc i).state = .SLEEPING then .RUNNABLE else (s.proc i).state })

def setkilled (s : Sys) (p : Fin NPROC) : Sys := s.setProc p { s.proc p with killed := 1 }

/-- `sys_settickets(n)` by process `p`: below one ticket counts as one. -/
def sys_settickets (s : Sys) (p : Fin NPROC) (n : ℤ) : Sys :=
  s.setProc p { s.proc p with tickets := if n < 1 then 1 else n }

end Xv6.ProcTable
