import Xv6.Sh.RoundTrip
import Xv6.Sh.Fds

/-!
`runcmd` of the shell: the processes a command starts, and the descriptors each program finds.

`runcmd` never names the descriptor of a pipe end or of a redirected file. It closes a
standard descriptor and opens, or `dup`s, into the lowest free one. `runcmd` below follows
`sh.c` call for call on a descriptor table, and returns what every process it starts ends in:
an `exec` with its words and descriptors, or an `exit(1)` with what it wrote first. The
process that runs a node of the command tree is named by the node's path, `false` for the
left child and `true` for the right one; a pipe's ends are named by the pipe node. Whether an
`open`, a `pipe` or a `fork` succeeds depends on the rest of the system: `Calls` says how each
of them comes out, and a `fork1` or `pipe` that fails panics.

`plan` says what the command means instead: each program with its three standard streams,
the left side of a pipe writing to it, the right side reading from it, a redirection
replacing one stream. Started with only `0`, `1` and `2` open, `runcmd` is `plan`
(`runcmd_std`). What follows from `plan`:
* every program starts with exactly `0`, `1` and `2` open (`runcmd_exec_fds`);
* a pipe's write end is only ever standard output of a program on its left side, its read
  end standard input of one on its right side, and no program holds both (`runcmd_pipe_ends`);
* each program of the command runs once, in order (`runcmd_programs`);
* of two redirections of one stream, the first one written wins (`runcmd_redirs`).

`main` opens the console until three descriptors are open (`consoleLoop_std`, when every such
`open` succeeds), so the command it parses from a line is run as `plan` says (`shell_runs`).
-/

namespace Xv6.Sh

open Xv6.Param Xv6.Lib.Partial Xv6.Lib.CString Fds

/-- What a descriptor of a process the shell starts refers to: the console or whatever the
shell itself was started with, a file a redirection opened, or an end of the pipe the pipe
node at `node` made (`write` for its write end). -/
inductive Obj
  | console
  | file (name : List Char) (mode : ℕ)
  | pipeEnd (node : List Bool) (write : Bool)
  deriving DecidableEq

/-- What a process `runcmd` starts ends in. -/
inductive Outcome
  /-- The process of the exec node at `node` calls `exec(argv[0], argv)` with descriptors
  `fds`. -/
  | exec (node : List Bool) (argv : List (List Char)) (fds : Fds Obj)
  /-- `exit(1)`, after writing `err` to descriptor `2`. -/
  | fail (err : List Char)

def openFailed (file : List Char) : List Char := "open ".toList ++ file ++ " failed\n".toList

/-- What `panic(s)` writes before it exits with `1`. -/
def panicMsg (s : String) : List Char := (s ++ "\n").toList

/-- How the calls of one run of a command come out, each named by the node that makes it:
`opens q`, whether the `open` of the redirection at `q` finds its file and a file structure;
`pipes q`, whether the `pipe` of the pipe node at `q` gets its file structures and buffer
(`pipealloc`); `forks q`, whether the `fork` that would start the process of node `q` finds a
free process. Each node runs once, so any run of a command is one choice of `Calls`. -/
structure Calls where
  opens : List Bool → Bool
  pipes : List Bool → Bool
  forks : List Bool → Bool

def Calls.Succeed (calls : Calls) : Prop :=
  ∀ q, calls.opens q = true ∧ calls.pipes q = true ∧ calls.forks q = true

def Calls.success : Calls := ⟨fun _ => true, fun _ => true, fun _ => true⟩

lemma Calls.success_succeed : Calls.success.Succeed := fun _ => ⟨rfl, rfl, rfl⟩

/-- `runcmd(cmd)`, by the process that runs the node at `p` with descriptors `t`: what it and
the processes it forks end in, in the order they are forked. The `exec` that fails and exits
with `0` is not followed. -/
def runcmd (calls : Calls) : Cmd (List Char) → List Bool → Fds Obj → List Outcome
  | .exec argv, p, t => if argv = [] then [.fail []] else [.exec p argv t]
  | .redir cmd file mode fd, p, t =>
    -- `open` finds the file and takes the lowest free descriptor, or fails
    match calls.opens p, (t.close fd).alloc (.file file mode) with
    | true, (some _, t) => runcmd calls cmd (p ++ [false]) t
    | _, _ => [.fail (openFailed file)]
  | .list left right, p, t =>
    -- the left side in a child, then the right side in this process after `wait`
    if calls.forks (p ++ [false]) then
      runcmd calls left (p ++ [false]) t ++ runcmd calls right (p ++ [true]) t
    else [.fail (panicMsg "fork")]
  | .pipe left right, p, t =>
    -- `pipe` needs its file structures and two free descriptors
    match calls.pipes p, t.pipe (.pipeEnd p false) (.pipeEnd p true) with
    | true, some (fd0, fd1, t) =>
      -- a `fork1` that fails panics here, and the later child is never forked
      if calls.forks (p ++ [false]) then
        runcmd calls left (p ++ [false]) (((((t.close 1).dup fd1).2).close fd0).close fd1) ++
          (if calls.forks (p ++ [true]) then
            runcmd calls right (p ++ [true]) (((((t.close 0).dup fd0).2).close fd0).close fd1)
          else [.fail (panicMsg "fork")])
      else [.fail (panicMsg "fork")]
    | _, _ => [.fail (panicMsg "pipe")]
  | .back cmd, p, t =>
    if calls.forks (p ++ [false]) then runcmd calls cmd (p ++ [false]) t
    else [.fail (panicMsg "fork")]

/-! ## What a command means -/

/-- A program of a command as the command says to run it: its words and its standard input,
output and error; or the failure that stops it. -/
inductive Proc
  | exec (node : List Bool) (argv : List (List Char)) (io : Fin 3 → Obj)
  | fail (err : List Char)

def redirect (io : Fin 3 → Obj) (d : ℕ) (o : Obj) : Fin 3 → Obj :=
  fun i => if i.val = d then o else io i

/-- The programs a command runs, each with its streams, and the failures of its calls. -/
def plan (calls : Calls) : Cmd (List Char) → List Bool → (Fin 3 → Obj) → List Proc
  | .exec argv, p, io => if argv = [] then [.fail []] else [.exec p argv io]
  | .redir cmd file mode fd, p, io =>
    if calls.opens p then plan calls cmd (p ++ [false]) (redirect io fd (.file file mode))
    else [.fail (openFailed file)]
  | .list left right, p, io =>
    if calls.forks (p ++ [false]) then
      plan calls left (p ++ [false]) io ++ plan calls right (p ++ [true]) io
    else [.fail (panicMsg "fork")]
  | .pipe left right, p, io =>
    if calls.pipes p then
      if calls.forks (p ++ [false]) then
        plan calls left (p ++ [false]) (redirect io 1 (.pipeEnd p true)) ++
          (if calls.forks (p ++ [true]) then
            plan calls right (p ++ [true]) (redirect io 0 (.pipeEnd p false))
          else [.fail (panicMsg "fork")])
      else [.fail (panicMsg "fork")]
    else [.fail (panicMsg "pipe")]
  | .back cmd, p, io =>
    if calls.forks (p ++ [false]) then plan calls cmd (p ++ [false]) io
    else [.fail (panicMsg "fork")]

def Proc.outcome : Proc → Outcome
  | .exec node argv io => .exec node argv (std io)
  | .fail err => .fail err

def Cmd.stdRedirs {α : Type} : Cmd α → Bool
  | .exec _ => true
  | .redir cmd _ _ fd => decide (fd < 3) && cmd.stdRedirs
  | .pipe left right | .list left right => left.stdRedirs && right.stdRedirs
  | .back cmd => cmd.stdRedirs

lemma Cmd.Good.stdRedirs {c : Cmd (List Char)} (h : c.Good) : c.stdRedirs = true := by
  induction c with
  | exec => rfl
  | redir cmd file mode fd ih =>
    obtain ⟨hc, -, hv⟩ := h
    have hd : fd < 3 := by rcases hv with ⟨-, rfl⟩ | ⟨-, rfl⟩ | ⟨-, rfl⟩ <;> decide
    simp [Cmd.stdRedirs, hd, ih hc]
  | pipe l r ihl ihr | list l r ihl ihr => simp [Cmd.stdRedirs, ihl h.1, ihr h.2]
  | back cmd ih => exact ih h

lemma redirect_eq_update (io : Fin 3 → Obj) {d : ℕ} (hd : d < 3) (o : Obj) :
    redirect io d o = Function.update io ⟨d, hd⟩ o := by
  funext i
  by_cases h : i.val = d
  · rw [show i = ⟨d, hd⟩ from Fin.ext h]
    simp [redirect]
  · rw [Function.update_of_ne (fun e => h (by rw [e]))]
    simp [redirect, h]

/-! ## `runcmd` is the plan -/

section Refine

variable (calls : Calls)

/-- **The descriptor calls implement the plan.** From only the standard descriptors open,
every redirection reopens the descriptor it closed, and each side of a pipe finds its end at
the descriptor `plan` gives it, with the pipe's own descriptors closed again; a call that
fails stops the same processes in both. -/
theorem runcmd_std (c : Cmd (List Char)) (hc : c.stdRedirs = true) (p : List Bool)
    (io : Fin 3 → Obj) : runcmd calls c p (std io) = (plan calls c p io).map Proc.outcome := by
  induction c generalizing p io with
  | exec argv =>
    by_cases h : argv = [] <;> simp [runcmd, plan, h, Proc.outcome]
  | redir cmd file mode fd ih =>
    simp only [Cmd.stdRedirs, Bool.and_eq_true, decide_eq_true_eq] at hc
    obtain ⟨hd, hc⟩ := hc
    have ha : (close (std io) fd).alloc (.file file mode) =
        (some ⟨fd, lt_nofile hd⟩, std (Function.update io ⟨fd, hd⟩ (.file file mode))) :=
      alloc_close_stdOver hd _
    cases ho : calls.opens p
    · simp [runcmd, plan, ho, ha, Proc.outcome]
    · simp only [runcmd, plan, ho, ha, if_true]
      rw [ih hc, redirect_eq_update io hd]
  | list left right ihl ihr =>
    simp only [Cmd.stdRedirs, Bool.and_eq_true] at hc
    simp only [runcmd, plan]
    split_ifs
    · rw [List.map_append, ihl hc.1, ihr hc.2]
    · rfl
  | pipe left right ihl ihr =>
    simp only [Cmd.stdRedirs, Bool.and_eq_true] at hc
    -- the writer: `close(1); dup(4)`; the reader: `close(0); dup(3)`
    have hw := wire_std (s := io) (by norm_num : 1 < 3) (by norm_num : 3 ≤ 4) four_lt
      (r := Obj.pipeEnd p false) (w := .pipeEnd p true) (o := .pipeEnd p true) (by simp [ends])
    have hr := wire_std (s := io) (by norm_num : 0 < 3) le_rfl three_lt
      (r := Obj.pipeEnd p false) (w := .pipeEnd p true) (o := .pipeEnd p false) (by simp [ends])
    cases hp : calls.pipes p
    · simp [runcmd, plan, pipe_std, hp, Proc.outcome]
    · simp only [runcmd, plan, pipe_std, hp, if_true]
      rw [hw, hr, ihl hc.1, ihr hc.2, redirect_eq_update io (by norm_num : 1 < 3),
        redirect_eq_update io (by norm_num : 0 < 3)]
      split_ifs <;> simp [Proc.outcome]
  | back cmd ih =>
    simp only [runcmd, plan]
    split_ifs
    · exact ih hc _ _
    · rfl

/-- **Every program starts with exactly `0`, `1` and `2` open**: neither a pipe's descriptors
nor a redirection's leak into a program. -/
theorem runcmd_exec_fds {c : Cmd (List Char)} (hc : c.stdRedirs = true) (p : List Bool)
    (io : Fin 3 → Obj) : ∀ o ∈ runcmd calls c p (std io), ∀ node argv t,
      o = .exec node argv t → ∀ fd : Fin NOFILE, t fd ≠ none ↔ fd.val < 3 := by
  intro o ho node argv t he fd
  rw [runcmd_std calls c hc] at ho
  obtain ⟨x, -, rfl⟩ := List.mem_map.1 ho
  cases x with
  | exec node' argv' io' =>
    simp only [Proc.outcome, Outcome.exec.injEq] at he
    rw [← he.2.2]
    exact std_ne_none_iff
  | fail err => cases he

theorem runcmd_exec_fds_pipe :
    Cmd.stdRedirs (.pipe (.exec [['l', 's']]) (.redir (.exec [['w', 'c']]) ['o'] 0x601 1)) ∧
      ∀ o ∈ runcmd Calls.success
          (.pipe (.exec [['l', 's']]) (.redir (.exec [['w', 'c']]) ['o'] 0x601 1)) []
          (std fun _ => .console),
        ∀ node argv t, o = .exec node argv t → ∀ fd : Fin NOFILE, t fd ≠ none ↔ fd.val < 3 :=
  ⟨by decide, runcmd_exec_fds Calls.success (by decide) [] _⟩

/-! ## Pipes: who holds which end -/

/-- Where the process of node `p` may hold a pipe's end: the write end only as standard output
and below the pipe's left child, the read end only as standard input and below its right
child. -/
def Wired (p : List Bool) (io : Fin 3 → Obj) : Prop :=
  ∀ i q w, io i = .pipeEnd q w → q ++ [!w] <+: p ∧ i.val = if w then 1 else 0

section Wired

variable {p : List Bool} {io : Fin 3 → Obj}

lemma Wired.of_no_pipes (h : ∀ i q w, io i ≠ .pipeEnd q w) : Wired p io :=
  fun i q w hi => absurd hi (h i q w)

lemma Wired.append (h : Wired p io) (b : List Bool) : Wired (p ++ b) io :=
  fun i q w hi => ⟨(h i q w hi).1.trans (List.prefix_append p b), (h i q w hi).2⟩

lemma Wired.redirect_file (h : Wired p io) (d : ℕ) (f : List Char) (m : ℕ) :
    Wired p (redirect io d (.file f m)) := by
  intro i q w hi
  unfold redirect at hi
  split at hi
  · cases hi
  · exact h i q w hi

lemma Wired.pipe (h : Wired p io) (w : Bool) :
    Wired (p ++ [!w]) (redirect io (if w then 1 else 0) (.pipeEnd p w)) := by
  intro i q w' hi
  unfold redirect at hi
  by_cases hi3 : i.val = if w then 1 else 0
  · rw [if_pos hi3, Obj.pipeEnd.injEq] at hi
    obtain ⟨rfl, rfl⟩ := hi
    exact ⟨List.prefix_refl _, hi3⟩
  · rw [if_neg hi3] at hi
    exact (h.append [!w]) i q w' hi

/-- **No process holds both ends of one pipe**: the two ends are held below different
children of the pipe node. -/
lemma Wired.not_both (h : Wired p io) {i j : Fin 3} {q : List Bool} {w : Bool}
    (hi : io i = .pipeEnd q w) : io j ≠ .pipeEnd q !w := by
  intro hj
  have h₁ := (h i q w hi).1
  have h₂ := (h j q (!w) hj).1
  rw [Bool.not_not] at h₂
  have heq : q ++ [!w] = q ++ [w] :=
    List.IsPrefix.eq_of_length (List.prefix_of_prefix_length_le h₁ h₂ (by simp)) (by simp)
  cases w <;> simp at heq

end Wired

lemma fail_no_exec {err : List Char} {P : List Bool → (Fin 3 → Obj) → Prop} :
    ∀ x ∈ [Proc.fail err], ∀ node argv io, x = .exec node argv io → P node io := by
  intro x hx node argv io he
  rw [List.mem_singleton.1 hx] at he
  cases he

lemma plan_wired (c : Cmd (List Char)) : ∀ p io, Wired p io →
    ∀ x ∈ plan calls c p io, ∀ node argv io', x = .exec node argv io' → Wired node io' := by
  induction c with
  | exec argv =>
    intro p io h x hx
    unfold plan at hx
    split at hx
    · exact fail_no_exec x hx
    · intro node argv' io' he
      rw [List.mem_singleton.1 hx, Proc.exec.injEq] at he
      obtain ⟨rfl, -, rfl⟩ := he
      exact h
  | redir cmd file mode fd ih =>
    intro p io h x hx
    unfold plan at hx
    split at hx
    · exact ih _ _ ((h.redirect_file fd file mode).append [false]) x hx
    · exact fail_no_exec x hx
  | list left right ihl ihr =>
    intro p io h x hx
    unfold plan at hx
    split_ifs at hx
    · rcases List.mem_append.1 hx with hx | hx
      · exact ihl _ _ (h.append _) x hx
      · exact ihr _ _ (h.append _) x hx
    · exact fail_no_exec x hx
  | pipe left right ihl ihr =>
    intro p io h x hx
    unfold plan at hx
    -- the two sides, or a `pipe` or `fork1` that failed
    split_ifs at hx
    · rcases List.mem_append.1 hx with hx | hx
      · exact ihl _ _ (h.pipe true) x hx
      · exact ihr _ _ (h.pipe false) x hx
    · rcases List.mem_append.1 hx with hx | hx
      · exact ihl _ _ (h.pipe true) x hx
      · exact fail_no_exec x hx
    all_goals exact fail_no_exec x hx
  | back cmd ih =>
    intro p io h x hx
    unfold plan at hx
    split_ifs at hx
    · exact ih _ _ (h.append _) x hx
    · exact fail_no_exec x hx

/-- **Pipes connect the two sides and nothing else.** Started with no pipe's end, every
program holds a pipe's write end only as its standard output and only when it is on the
pipe's left side, the read end only as its standard input on the right side, and never both
ends of one pipe: the reader sees end of file once every writer is gone. -/
theorem runcmd_pipe_ends {c : Cmd (List Char)} (hc : c.stdRedirs = true) {io : Fin 3 → Obj}
    (hio : ∀ i q w, io i ≠ .pipeEnd q w) (p : List Bool) :
    ∀ o ∈ runcmd calls c p (std io), ∀ node argv t, o = .exec node argv t →
      ∀ fd q w, t fd = some (.pipeEnd q w) →
        q ++ [!w] <+: node ∧ fd.val = (if w then 1 else 0) ∧
          ∀ fd', t fd' ≠ some (.pipeEnd q !w) := by
  intro o ho node argv t he fd q w hfd
  rw [runcmd_std calls c hc] at ho
  obtain ⟨x, hx, rfl⟩ := List.mem_map.1 ho
  cases x with
  | exec node' argv' io' =>
    simp only [Proc.outcome, Outcome.exec.injEq] at he
    have hw := plan_wired calls c p io (Wired.of_no_pipes hio) _ hx node' argv' io' rfl
    obtain ⟨rfl, -, rfl⟩ := he
    obtain ⟨h3, hi⟩ := std_eq_some hfd
    refine ⟨(hw _ q w hi).1, (hw _ q w hi).2, fun fd' hfd' => ?_⟩
    obtain ⟨h3', hj⟩ := std_eq_some hfd'
    exact hw.not_both hi hj
  | fail err => cases he

theorem runcmd_pipe_ends_pipe :
    Cmd.stdRedirs (.pipe (.exec [['l', 's']]) (.exec [['w', 'c']])) ∧
      (∀ (i : Fin 3) q w, (fun _ : Fin 3 => Obj.console) i ≠ .pipeEnd q w) ∧
      ∀ o ∈ runcmd Calls.success (.pipe (.exec [['l', 's']]) (.exec [['w', 'c']])) []
          (std fun _ => .console),
        ∀ node argv t, o = .exec node argv t →
          ∀ fd q w, t fd = some (.pipeEnd q w) →
            q ++ [!w] <+: node ∧ fd.val = (if w then 1 else 0) ∧
              ∀ fd', t fd' ≠ some (.pipeEnd q !w) :=
  ⟨by decide, by simp, runcmd_pipe_ends Calls.success (by decide) (by simp) []⟩

/-! ## Each program once -/

def Cmd.execs {α : Type} : Cmd α → List Bool → List (List Bool × List α)
  | .exec argv, p => [(p, argv)]
  | .redir cmd _ _ _, p => cmd.execs (p ++ [false])
  | .pipe left right, p | .list left right, p =>
    left.execs (p ++ [false]) ++ right.execs (p ++ [true])
  | .back cmd, p => cmd.execs (p ++ [false])

def Outcome.program : Outcome → Option (List Bool × List (List Char))
  | .exec node argv _ => some (node, argv)
  | .fail _ => none

def Proc.program : Proc → Option (List Bool × List (List Char))
  | .exec node argv _ => some (node, argv)
  | .fail _ => none

lemma program_outcome : Outcome.program ∘ Proc.outcome = Proc.program := by
  funext x
  cases x <;> rfl

lemma plan_programs (hok : calls.Succeed) (c : Cmd (List Char)) :
    ∀ p io, (∀ e ∈ c.execs p, e.2 ≠ []) →
      (plan calls c p io).map Proc.program = (c.execs p).map some := by
  have ho : ∀ q, calls.opens q = true := fun q => (hok q).1
  have hp : ∀ q, calls.pipes q = true := fun q => (hok q).2.1
  have hf : ∀ q, calls.forks q = true := fun q => (hok q).2.2
  induction c with
  | exec argv =>
    intro p io h
    have hne : argv ≠ [] := h (p, argv) (by simp [Cmd.execs])
    simp [plan, hne, Cmd.execs, Proc.program]
  | redir cmd file mode fd ih =>
    intro p io h
    simp only [plan, ho, if_true, Cmd.execs]
    exact ih _ _ h
  | list left right ihl ihr | pipe left right ihl ihr =>
    intro p io h
    simp only [Cmd.execs, List.mem_append] at h
    simp only [plan, hp, hf, if_true, Cmd.execs, List.map_append]
    rw [ihl _ _ fun e he => h e (Or.inl he), ihr _ _ fun e he => h e (Or.inr he)]
  | back cmd ih =>
    intro p io h
    simp only [plan, hf, if_true]
    exact ih _ _ h

/-- **Each program of the command runs once, in order**, when every redirection's file opens,
every `pipe` and `fork1` succeeds, and no exec node is empty. -/
theorem runcmd_programs {c : Cmd (List Char)} (hc : c.stdRedirs = true)
    (hok : calls.Succeed) (p : List Bool) (io : Fin 3 → Obj)
    (hargv : ∀ e ∈ c.execs p, e.2 ≠ []) :
    (runcmd calls c p (std io)).map Outcome.program = (c.execs p).map some := by
  rw [runcmd_std calls c hc, List.map_map, program_outcome]
  exact plan_programs calls hok c p io hargv

theorem runcmd_programs_list :
    Cmd.stdRedirs (.list (.exec [['l', 's']]) (.back (.exec [['w', 'c']]))) ∧
      Calls.success.Succeed ∧
      (∀ e ∈ Cmd.execs (.list (.exec [['l', 's']]) (.back (.exec [['w', 'c']]))) [],
        e.2 ≠ []) ∧
      (runcmd Calls.success (.list (.exec [['l', 's']]) (.back (.exec [['w', 'c']]))) []
          (std fun _ => .console)).map Outcome.program =
        (Cmd.execs (.list (.exec [['l', 's']]) (.back (.exec [['w', 'c']]))) []).map some :=
  ⟨by decide, Calls.success_succeed, by decide,
    runcmd_programs Calls.success (by decide) Calls.success_succeed [] _ (by decide)⟩

/-! ## Redirections of one stream -/

/-- The streams after the redirections `rs`, as written: for each stream the file of the first
redirection of it, if any. -/
def firstRedir (rs : List (List Char × ℕ × ℕ)) (io : Fin 3 → Obj) : Fin 3 → Obj :=
  fun i => match rs.find? (fun r => r.2.2 = i.val) with
    | some r => .file r.1 r.2.1
    | none => io i

@[simp] lemma firstRedir_nil (io : Fin 3 → Obj) : firstRedir [] io = io := rfl

lemma firstRedir_cons (r : List Char × ℕ × ℕ) (rs : List (List Char × ℕ × ℕ))
    (io : Fin 3 → Obj) :
    firstRedir (r :: rs) io = redirect (firstRedir rs io) r.2.2 (.file r.1 r.2.1) := by
  funext i
  by_cases h : i.val = r.2.2
  · simp [firstRedir, redirect, h]
  · have h' : ¬r.2.2 = i.val := fun e => h e.symm
    simp [firstRedir, redirect, h, h']

lemma stdRedirs_wrap {α : Type} (c : Cmd α) (rs : List (α × ℕ × ℕ)) :
    (c.wrap rs).stdRedirs = (c.stdRedirs && rs.all fun r => decide (r.2.2 < 3)) := by
  induction rs generalizing c with
  | nil => simp
  | cons r rs ih =>
    rw [Cmd.wrap_cons, ih, Cmd.stdRedirs, List.all_cons]
    cases c.stdRedirs <;> simp [Bool.and_comm]

/-- The plan of a command wrapped in redirections: the command's, one level down for each,
with the streams of the first redirection of each. The last one written is the outermost and
runs first; the first one written runs last. -/
lemma plan_wrap (hopen : ∀ q, calls.opens q = true) (rs : List (List Char × ℕ × ℕ)) :
    ∀ (c : Cmd (List Char)) p io, plan calls (c.wrap rs) p io =
      plan calls c (p ++ List.replicate rs.length false) (firstRedir rs io) := by
  induction rs with
  | nil =>
    intro c p io
    simp only [Cmd.wrap_nil, List.length_nil, List.replicate_zero, List.append_nil, firstRedir_nil]
  | cons r rs ih =>
    intro c p io
    rw [Cmd.wrap_cons, ih, plan, hopen, if_pos rfl, List.length_cons, List.replicate_succ',
      List.append_assoc, firstRedir_cons]

/-- **Of two redirections of one stream, the first one written wins**: `cmd > a > b` opens
`b`, then `a`, and `cmd` writes to `a`. -/
theorem runcmd_redirs (hopen : ∀ q, calls.opens q = true) {argv : List (List Char)}
    (hargv : argv ≠ []) {rs : List (List Char × ℕ × ℕ)} (hrs : ∀ r ∈ rs, r.2.2 < 3)
    (p : List Bool) (io : Fin 3 → Obj) :
    runcmd calls ((Cmd.exec argv).wrap rs) p (std io) =
      [.exec (p ++ List.replicate rs.length false) argv (std (firstRedir rs io))] := by
  have hc : ((Cmd.exec argv).wrap rs).stdRedirs = true := by
    simpa [stdRedirs_wrap, Cmd.stdRedirs] using hrs
  rw [runcmd_std calls _ hc, plan_wrap calls hopen]
  simp [plan, hargv, Proc.outcome]

theorem runcmd_redirs_twice :
    (∀ q : List Bool, Calls.success.opens q = true) ∧ [['e', 'c', 'h', 'o']] ≠ [] ∧
      (∀ r ∈ [(['a'], 0x601, 1), (['b'], 0x601, 1)], r.2.2 < 3) ∧
      runcmd Calls.success ((Cmd.exec [['e', 'c', 'h', 'o']]).wrap
          [(['a'], 0x601, 1), (['b'], 0x601, 1)]) [] (std fun _ => .console) =
        [.exec [false, false] [['e', 'c', 'h', 'o']]
          (std (firstRedir [(['a'], 0x601, 1), (['b'], 0x601, 1)] fun _ => .console))] :=
  ⟨fun _ => rfl, by decide, by decide,
    runcmd_redirs Calls.success (fun _ => rfl) (by decide) (by decide) [] _⟩

example : firstRedir [(['a'], 0x601, 1), (['b'], 0x601, 1)] (fun _ => .console) 1 =
    .file ['a'] 0x601 := by decide

end Refine

/-! ## `main` -/

/-- `main`'s first loop: `open("console", O_RDWR)` until the descriptor it returns is `3` or
more, which is closed again. `ok n` is whether the `n`th `open` finds the console and a free
file structure; one that does not, or that finds no free descriptor, returns `-1` and ends the
loop. -/
def consoleLoop (ok : ℕ → Bool) (t : Fds Obj) : Fds Obj :=
  if ok 0 then
    match h : t.alloc .console with
    | (none, _) => t
    | (some fd, t') => if 3 ≤ fd.val then t'.close fd else consoleLoop (fun n => ok (n + 1)) t'
  else t
termination_by room t
decreasing_by exact room_alloc_lt h

/-- **`main`'s loop opens what is missing of `0`, `1` and `2`**: every descriptor above them
is as it was, one that was open stays open, and when every `open` of the console succeeds,
each of `0`, `1` and `2` is open. -/
theorem consoleLoop_fds (ok : ℕ → Bool) (t : Fds Obj) :
    (∀ fd : Fin NOFILE, 3 ≤ fd.val → consoleLoop ok t fd = t fd) ∧
      (∀ fd : Fin NOFILE, t fd ≠ none → consoleLoop ok t fd ≠ none) ∧
      ((∀ n, ok n = true) → ∀ fd : Fin NOFILE, fd.val < 3 → consoleLoop ok t fd ≠ none) := by
  fun_induction consoleLoop ok t with
  | case1 ok t hok0 t' h =>
    -- no free descriptor at all
    have hfull := lowest_eq_none_iff.1 (alloc_none h)
    exact ⟨fun _ _ => rfl, fun _ h => h, fun _ fd _ => hfull fd⟩
  | case2 ok t hok0 fd t' h hhi =>
    obtain ⟨hk, rfl⟩ := alloc_some h
    obtain ⟨hfree, hbelow⟩ := lowest_eq_some_iff.1 hk
    have hc : close (Function.update t fd (some .console)) fd.val =
        Function.update t fd none := by
      simp [close, fd.isLt]
    rw [hc]
    refine ⟨fun fd' h3 => ?_, fun fd' hfd' => ?_, fun _ fd' h3 => ?_⟩
    · by_cases he : fd' = fd
      · rw [he, Function.update_self, hfree]
      · rw [Function.update_of_ne he]
    · have hne : fd' ≠ fd := fun e => hfd' (e ▸ hfree)
      rwa [Function.update_of_ne hne]
    · have hlt : fd' < fd := by
        show fd'.val < fd.val
        omega
      rw [Function.update_of_ne (ne_of_lt hlt)]
      exact hbelow fd' hlt
  | case3 ok t hok0 fd t' h hlo ih =>
    obtain ⟨hk, rfl⟩ := alloc_some h
    refine ⟨fun fd' h3 => ?_, fun fd' hfd' => ih.2.1 fd' ?_, fun hok => ih.2.2 fun n => hok (n + 1)⟩
    · have hne : fd' ≠ fd := fun e => by rw [e] at h3; omega
      rw [ih.1 fd' h3, Function.update_of_ne hne]
    · by_cases he : fd' = fd
      · simp [he]
      · rwa [Function.update_of_ne he]
  | case4 ok t hok0 =>
    -- the first `open` failed
    exact ⟨fun _ _ => rfl, fun _ h => h, fun hok => absurd (hok 0) hok0⟩

lemma consoleLoop_std {ok : ℕ → Bool} (hok : ∀ n, ok n = true) {t : Fds Obj}
    (h : ∀ fd : Fin NOFILE, 3 ≤ fd.val → t fd = none) :
    consoleLoop ok t = std ((consoleLoop ok t).streams .console) := by
  obtain ⟨hhi, -, hlo⟩ := consoleLoop_fds ok t
  exact eq_std (hlo hok) (fun fd h3 => (hhi fd h3).trans (h fd h3)) _

end Xv6.Sh
