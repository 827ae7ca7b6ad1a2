import Xv6.Sh.Lex
import Xv6.Lib.Partial
import Xv6.Lib.CString

/-!
The shell's parser: `parsecmd` and the recursive descent under it (`parseline`, `parsepipe`,
`parseexec`, `parseblock`, `parseredirs`), and `nulterminate`.

The parse functions of `sh.c` call each other and loop. Here each takes a `fuel` of nested
calls and rounds and gives `none` when it is spent; `parsecmd` gives enough for every line
(`parsecmd_returns`). A panic is an error with its message. The tree keeps each word as the
pair of pointers `(q, eq)` that `sh.c` stores in `argv`/`eargv` and `file`/`efile`.

`parseexec`'s `ret` wraps the exec node whose `argv` its loop fills in place; here the loop
keeps the words apart and writes them into that node when it ends (`Cmd.setArgv`).
-/

namespace Xv6.Sh

open Xv6.Lib.Partial Xv6.Lib.CString

def MAXARGS : ℕ := 10

-- `fcntl.h`
def O_RDONLY : ℕ := 0x000
def O_WRONLY : ℕ := 0x001
def O_CREATE : ℕ := 0x200
def O_TRUNC : ℕ := 0x400

/-- A parsed command: `struct cmd` in its five kinds, with words of type `α`. -/
inductive Cmd (α : Type)
  | exec (argv : List α)
  | redir (cmd : Cmd α) (file : α) (mode fd : ℕ)
  | pipe (left right : Cmd α)
  | list (left right : Cmd α)
  | back (cmd : Cmd α)
  deriving DecidableEq

namespace Cmd

variable {α β : Type}

/-- The `argv` of the exec node at the bottom of a chain of redirections, written in place. -/
def setArgv : Cmd α → List α → Cmd α
  | .exec _, argv => .exec argv
  | .redir c f m d, argv => .redir (c.setArgv argv) f m d
  | c, _ => c

def words : Cmd α → List α
  | .exec argv => argv
  | .redir c f _ _ => c.words ++ [f]
  | .pipe l r => l.words ++ r.words
  | .list l r => l.words ++ r.words
  | .back c => c.words

def map (g : α → β) : Cmd α → Cmd β
  | .exec argv => .exec (argv.map g)
  | .redir c f m d => .redir (c.map g) (g f) m d
  | .pipe l r => .pipe (l.map g) (r.map g)
  | .list l r => .list (l.map g) (r.map g)
  | .back c => .back (c.map g)

end Cmd

/-- The `switch(tok)` of `parseredirs`: the redirection a symbol makes, and none for any
other token, the switch having no default. -/
def redirOf {α : Type} (tok : Char) (cmd : Cmd α) (file : α) : Cmd α :=
  if tok = '<' then .redir cmd file O_RDONLY 0
  else if tok = '>' then .redir cmd file (O_WRONLY ||| O_CREATE ||| O_TRUNC) 1
  else if tok = '+' then .redir cmd file (O_WRONLY ||| O_CREATE) 1
  else cmd

/-- A parse: `none` once the fuel is spent, a panic with its message, or a result. -/
abbrev Parse (α : Type) := ExceptT String Option α

def spent {α : Type} : Parse α := ExceptT.mk none

abbrev PCmd := Cmd (ℕ × ℕ)

variable (buf : List Char)

/-- `parseredirs`: a redirection symbol, then the file's word, while there are any. -/
def parseredirs : ℕ → PCmd → ℕ → Parse (PCmd × ℕ)
  | 0, _, _ => spent
  | n + 1, cmd, ps =>
    let (hit, ps) := peek buf ps ['<', '>']
    if hit then
      let tok := gettoken buf ps
      let f := gettoken buf tok.ps
      if f.ret ≠ 'a' then throw "missing file for redirection"
      else parseredirs n (redirOf tok.ret cmd (f.q, f.eq)) f.ps
    else pure (cmd, ps)

/-- The loop of `parseline` that wraps the command in a `backcmd` for each `&`. -/
def parsebacks : ℕ → PCmd → ℕ → Parse (PCmd × ℕ)
  | 0, _, _ => spent
  | n + 1, cmd, ps =>
    let (hit, ps) := peek buf ps ['&']
    if hit then parsebacks n (.back cmd) (gettoken buf ps).ps
    else pure (cmd, ps)

/-- The loop of `parseexec`: words, each followed by its redirections, until `|`, `)`, `&`,
`;` or the end. -/
def execLoop : ℕ → PCmd → List (ℕ × ℕ) → ℕ → Parse (PCmd × ℕ)
  | 0, _, _, _ => spent
  | n + 1, ret, argv, ps =>
    let (hit, ps) := peek buf ps ['|', ')', '&', ';']
    if hit then pure (ret.setArgv argv, ps)
    else
      let t := gettoken buf ps
      if t.ret = NUL then pure (ret.setArgv argv, t.ps)
      else if t.ret ≠ 'a' then throw "syntax"
      else if MAXARGS ≤ argv.length + 1 then throw "too many args"
      else do
        let (ret, ps) ← parseredirs buf n ret t.ps
        execLoop n ret (argv ++ [(t.q, t.eq)]) ps

mutual

def parseline : ℕ → ℕ → Parse (PCmd × ℕ)
  | 0, _ => spent
  | n + 1, ps => do
    let (cmd, ps) ← parsepipe n ps
    let (cmd, ps) ← parsebacks buf n cmd ps
    let (hit, ps) := peek buf ps [';']
    if hit then
      let (right, ps) ← parseline n (gettoken buf ps).ps
      pure (.list cmd right, ps)
    else pure (cmd, ps)
termination_by structural n => n

def parsepipe : ℕ → ℕ → Parse (PCmd × ℕ)
  | 0, _ => spent
  | n + 1, ps => do
    let (cmd, ps) ← parseexec n ps
    let (hit, ps) := peek buf ps ['|']
    if hit then
      let (right, ps) ← parsepipe n (gettoken buf ps).ps
      pure (.pipe cmd right, ps)
    else pure (cmd, ps)
termination_by structural n => n

def parseblock : ℕ → ℕ → Parse (PCmd × ℕ)
  | 0, _ => spent
  | n + 1, ps =>
    let (hit, ps) := peek buf ps ['(']
    if !hit then throw "parseblock"
    else do
      let (cmd, ps) ← parseline n (gettoken buf ps).ps
      let (hit, ps) := peek buf ps [')']
      if !hit then throw "syntax - missing )"
      else parseredirs buf n cmd (gettoken buf ps).ps
termination_by structural n => n

def parseexec : ℕ → ℕ → Parse (PCmd × ℕ)
  | 0, _ => spent
  | n + 1, ps =>
    let (hit, ps) := peek buf ps ['(']
    if hit then parseblock n ps
    else do
      let (ret, ps) ← parseredirs buf n (.exec []) ps
      execLoop buf n ret [] ps
termination_by structural n => n

end

/-- `nulterminate`: a NUL at the end of every word, written into the line. -/
def nulterminate : PCmd → List Char → List Char
  | .exec argv, b => argv.foldl (fun b w => b.set w.2 NUL) b
  | .redir c f _ _, b => (nulterminate c b).set f.2 NUL
  | .pipe l r, b => nulterminate r (nulterminate l b)
  | .list l r, b => nulterminate r (nulterminate l b)
  | .back c, b => nulterminate c b

/-- The fuel `parsecmd` gives the parser: four nested calls for each character of the line,
and five more. -/
def FUEL (s : List Char) : ℕ := 4 * s.length + 5

/-- `parsecmd(s)`: the command, and the line with its words NUL-terminated. Leftovers after
the command panic with `syntax` (after printing them). -/
def parsecmd (s : List Char) : Parse (PCmd × List Char) := do
  let (cmd, ps) ← parseline s (FUEL s) 0
  let (_, ps) := peek s ps []
  if ps ≠ s.length then throw "syntax"
  else pure (cmd, nulterminate cmd s)

example : (parsecmd ['l', 's', '|', 'w', 'c', ' ', '-', 'l']).run =
    some (.ok (.pipe (.exec [(0, 2)]) (.exec [(3, 5), (6, 8)]),
      ['l', 's', NUL, 'w', 'c', NUL, '-', 'l'])) := by decide

/-! ## What a parse returns

A parse from `i` returns a pointer between `i` and the end of the line, and every word it adds
to the command it started from is a word of the line. -/

namespace Cmd

variable {α : Type}

lemma words_redirOf (tok : Char) (c : Cmd α) (f : α) :
    ∀ w ∈ (redirOf tok c f).words, w ∈ c.words ∨ w = f := by
  intro w hw
  unfold redirOf at hw
  split_ifs at hw <;> simp_all [words]

lemma words_setArgv (c : Cmd α) (argv : List α) :
    ∀ w ∈ (c.setArgv argv).words, w ∈ c.words ∨ w ∈ argv := by
  induction c with
  | exec _ => exact fun w hw => .inr hw
  | redir c f m d ih =>
    intro w hw
    simp only [setArgv, words, List.mem_append, List.mem_singleton] at hw ⊢
    rcases hw with hw | rfl
    · exact (ih w hw).imp_left .inl
    · exact .inl (.inr rfl)
  | pipe l r => exact fun w hw => .inl hw
  | list l r => exact fun w hw => .inl hw
  | back c => exact fun w hw => .inl hw

end Cmd

section Fine

variable {buf}

/-- A result of a parse from `i` that started from the command `c₀`: a pointer no word runs
across, and words of the line added to `c₀`. -/
def Fine (buf : List Char) (i : ℕ) (c₀ : PCmd) (r : PCmd × ℕ) : Prop :=
  i ≤ r.2 ∧ r.2 ≤ buf.length ∧ TokStart buf r.2 ∧ ∀ w ∈ r.1.words, w ∈ c₀.words ∨ WordAt buf w.1 w.2

lemma Fine.trans {i i' : ℕ} {c₀ c₁ : PCmd} {r : PCmd × ℕ} (h : Fine buf i' c₁ r) (hi : i ≤ i')
    (hc : ∀ w ∈ c₁.words, w ∈ c₀.words ∨ WordAt buf w.1 w.2) : Fine buf i c₀ r :=
  ⟨hi.trans h.1, h.2.1, h.2.2.1, fun w hw => (h.2.2.2 w hw).elim (hc w) .inr⟩

lemma fine_self {i : ℕ} (c : PCmd) (hi : i ≤ buf.length) (ht : TokStart buf i) :
    Fine buf i c (c, skipws buf i) :=
  ⟨le_skipws buf i, skipws_le_length hi, tokStart_skipws ht, fun _ hw => .inl hw⟩

theorem parseredirs_fine : ∀ n c i, i ≤ buf.length → TokStart buf i →
    Holds (Fine buf i c) (parseredirs buf n c i)
  | 0, _, _, _, _ => Holds.spent
  | n + 1, c, i, hi, ht => by
    rw [parseredirs, peek_eq]
    dsimp only
    split
    · rename_i hit
      obtain ⟨-, -, -, -, -⟩ := gettoken_bounds (skipws_le_length hi)
      have ⟨hlt, htok⟩ := gettoken_after_hit hi hit
      obtain ⟨f₁, f₂, f₃, f₄, -⟩ := gettoken_bounds htok
      split
      · exact Holds.throw _
      · rename_i hf
        have hw := gettoken_word (tokStart_gettoken _ _) (not_not.1 hf)
        refine (parseredirs_fine n _ _ f₄ (tokStart_gettoken _ _)).mono fun r hr =>
          hr.trans ?_ fun w hw' => ?_
        · have := le_skipws buf i
          omega
        · rcases Cmd.words_redirOf _ _ _ w hw' with h | rfl
          · exact .inl h
          · exact .inr hw
    · exact Holds.pure (fine_self c hi ht)

theorem parsebacks_fine : ∀ n c i, i ≤ buf.length → TokStart buf i →
    Holds (Fine buf i c) (parsebacks buf n c i)
  | 0, _, _, _, _ => Holds.spent
  | n + 1, c, i, hi, ht => by
    rw [parsebacks, peek_eq]
    dsimp only
    split
    · rename_i hit
      have ⟨hlt, htok⟩ := gettoken_after_hit hi hit
      refine (parsebacks_fine n _ _ htok (tokStart_gettoken _ _)).mono fun r hr =>
        hr.trans ?_ fun w hw => .inl hw
      have := le_skipws buf i
      omega
    · exact Holds.pure (fine_self c hi ht)

theorem execLoop_fine : ∀ n ret argv i, i ≤ buf.length → TokStart buf i →
    (∀ w ∈ argv, WordAt buf w.1 w.2) → Holds (Fine buf i ret) (execLoop buf n ret argv i)
  | 0, _, _, _, _, _, _ => Holds.spent
  | n + 1, ret, argv, i, hi, ht, hargv => by
    rw [execLoop, peek_eq]
    dsimp only
    have hs := skipws_le_length hi
    -- the command so far, with the words read into its exec node
    have hset : ∀ w ∈ (ret.setArgv argv).words, w ∈ ret.words ∨ WordAt buf w.1 w.2 :=
      fun w hw => (Cmd.words_setArgv ret argv w hw).imp_right (hargv w)
    split
    · exact Holds.pure ⟨le_skipws buf i, hs, tokStart_skipws ht, hset⟩
    · obtain ⟨t₁, t₂, t₃, t₄, t₅⟩ := gettoken_bounds hs
      have hi' := le_skipws buf i
      split
      · exact Holds.pure ⟨by omega, t₄, tokStart_gettoken _ _, hset⟩
      split
      · exact Holds.throw _
      split
      · exact Holds.throw _
      rename_i hnul ha _
      have hw := gettoken_word (tokStart_skipws ht) (not_not.1 ha)
      refine Holds.bind (parseredirs_fine n ret _ t₄ (tokStart_gettoken _ _)) fun ⟨ret', j⟩ hr => ?_
      have hargv' : ∀ w ∈ argv ++ [((gettoken buf (skipws buf i)).q, (gettoken buf (skipws buf i)).eq)],
          WordAt buf w.1 w.2 := by
        intro w hw'
        rcases List.mem_append.1 hw' with h | h
        · exact hargv w h
        · rw [List.mem_singleton.1 h]
          exact hw
      refine (execLoop_fine n ret' _ j hr.2.1 hr.2.2.1 hargv').mono fun r hr' =>
        hr'.trans ?_ hr.2.2.2
      have := hr.1
      omega

/-- **A parse returns a pointer in the line, and every word of its command is a word of the
line.** -/
theorem parse_fine : ∀ n i, i ≤ buf.length → TokStart buf i →
    Holds (Fine buf i (.exec [])) (parseline buf n i) ∧
    Holds (Fine buf i (.exec [])) (parsepipe buf n i) ∧
    Holds (Fine buf i (.exec [])) (parseexec buf n i) ∧
    Holds (Fine buf i (.exec [])) (parseblock buf n i)
  | 0, _, _, _ => ⟨Holds.spent, Holds.spent, Holds.spent, Holds.spent⟩
  | n + 1, i, hi, ht => by
    have ih := parse_fine n
    have hs := skipws_le_length hi
    have hi' := le_skipws buf i
    refine ⟨?line, ?pipe, ?exec, ?block⟩
    case line =>
      rw [parseline]
      refine Holds.bind (ih i hi ht).2.1 fun ⟨c₁, j₁⟩ h₁ => ?_
      refine Holds.bind (parsebacks_fine n c₁ j₁ h₁.2.1 h₁.2.2.1) fun ⟨c₂, j₂⟩ h₂ => ?_
      have h₂' : Fine buf i (.exec []) (c₂, j₂) := h₂.trans h₁.1 h₁.2.2.2
      dsimp only
      rw [peek_eq]
      dsimp only
      split
      · rename_i hit
        have ⟨hlt, htok⟩ := gettoken_after_hit h₂.2.1 hit
        refine Holds.bind (ih _ htok (tokStart_gettoken _ _)).1 fun ⟨c₃, j₃⟩ h₃ =>
          Holds.pure ⟨?_, h₃.2.1, h₃.2.2.1, ?_⟩
        · have := le_skipws buf j₂
          have := h₂'.1
          have := h₃.1
          dsimp only at *
          omega
        · intro w hw
          simp only [Cmd.words, List.mem_append] at hw
          exact hw.elim (h₂'.2.2.2 w) (h₃.2.2.2 w)
      · exact Holds.pure ⟨h₂'.1.trans (le_skipws buf j₂), skipws_le_length h₂.2.1,
          tokStart_skipws h₂.2.2.1, h₂'.2.2.2⟩
    case pipe =>
      rw [parsepipe]
      refine Holds.bind (ih i hi ht).2.2.1 fun ⟨c₁, j₁⟩ h₁ => ?_
      dsimp only
      rw [peek_eq]
      dsimp only
      split
      · rename_i hit
        have ⟨hlt, htok⟩ := gettoken_after_hit h₁.2.1 hit
        refine Holds.bind (ih _ htok (tokStart_gettoken _ _)).2.1 fun ⟨c₂, j₂⟩ h₂ =>
          Holds.pure ⟨?_, h₂.2.1, h₂.2.2.1, ?_⟩
        · have := le_skipws buf j₁
          have := h₁.1
          have := h₂.1
          dsimp only at *
          omega
        · intro w hw
          simp only [Cmd.words, List.mem_append] at hw
          exact hw.elim (h₁.2.2.2 w) (h₂.2.2.2 w)
      · exact Holds.pure ⟨h₁.1.trans (le_skipws buf j₁), skipws_le_length h₁.2.1,
          tokStart_skipws h₁.2.2.1, h₁.2.2.2⟩
    case exec =>
      rw [parseexec, peek_eq]
      dsimp only
      split
      · exact ((ih _ hs (tokStart_skipws ht)).2.2.2).mono fun r hr => hr.trans hi' fun w hw => .inl hw
      · refine Holds.bind (parseredirs_fine n _ _ hs (tokStart_skipws ht)) fun ⟨c₁, j₁⟩ h₁ => ?_
        exact (execLoop_fine n c₁ [] j₁ h₁.2.1 h₁.2.2.1 (by simp)).mono fun r hr =>
          hr.trans (hi'.trans h₁.1) h₁.2.2.2
    case block =>
      rw [parseblock, peek_eq]
      dsimp only
      split
      · exact Holds.throw _
      rename_i hit
      have ⟨hlt, htok⟩ := gettoken_after_hit hi (by simpa using hit)
      refine Holds.bind (ih _ htok (tokStart_gettoken _ _)).1 fun ⟨c₁, j₁⟩ h₁ => ?_
      dsimp only
      rw [peek_eq]
      dsimp only
      split
      · exact Holds.throw _
      rename_i hit'
      have ⟨hlt', htok'⟩ := gettoken_after_hit h₁.2.1 (by simpa using hit')
      refine (parseredirs_fine n c₁ _ htok' (tokStart_gettoken _ _)).mono fun r hr =>
        hr.trans ?_ h₁.2.2.2
      have := h₁.1
      have := le_skipws buf j₁
      dsimp only at *
      omega

end Fine

/-! ## Every parse returns

Each round of a loop and each nested call reads a character, or descends from `parseline` to
`parsepipe`, `parseexec` and `parseblock`, which reads `(` before it calls `parseline` again: four
nested calls for each character of the line suffice. -/

section Returns

variable {buf}

theorem parseredirs_returns : ∀ n c i, i ≤ buf.length → buf.length - i + 1 ≤ n →
    Returns (parseredirs buf n c i)
  | 0, _, _, _, hn => by omega
  | n + 1, c, i, hi, hn => by
    rw [parseredirs, peek_eq]
    dsimp only
    split
    · rename_i hit
      have ⟨hlt, htok⟩ := gettoken_after_hit hi hit
      obtain ⟨f₁, f₂, f₃, f₄, -⟩ := gettoken_bounds htok
      split
      · exact Returns.throw _
      · refine parseredirs_returns n _ _ f₄ ?_
        have := le_skipws buf i
        omega
    · exact Returns.pure

theorem parsebacks_returns : ∀ n c i, i ≤ buf.length → buf.length - i + 1 ≤ n →
    Returns (parsebacks buf n c i)
  | 0, _, _, _, hn => by omega
  | n + 1, c, i, hi, hn => by
    rw [parsebacks, peek_eq]
    dsimp only
    split
    · rename_i hit
      have ⟨hlt, htok⟩ := gettoken_after_hit hi hit
      refine parsebacks_returns n _ _ htok ?_
      have := le_skipws buf i
      omega
    · exact Returns.pure

theorem execLoop_returns : ∀ n ret argv i, i ≤ buf.length → buf.length - i + 1 ≤ n →
    Returns (execLoop buf n ret argv i)
  | 0, _, _, _, _, hn => by omega
  | n + 1, ret, argv, i, hi, hn => by
    rw [execLoop, peek_eq]
    dsimp only
    have hs := skipws_le_length hi
    split
    · exact Returns.pure
    obtain ⟨t₁, t₂, t₃, t₄, t₅⟩ := gettoken_bounds hs
    split
    · exact Returns.pure
    split
    · exact Returns.throw _
    split
    · exact Returns.throw _
    rename_i hnul _ _
    -- a word reads at least one character
    have hq := t₅ hnul
    have hi' := le_skipws buf i
    refine Returns.bind (parseredirs_returns n ret _ t₄ (by omega))
      (parseredirs_fine n ret _ t₄ (tokStart_gettoken _ _))
      fun ⟨ret', j⟩ hr => execLoop_returns n ret' _ j hr.2.1 ?_
    have := hr.1
    dsimp only at this
    omega

/-- **The parse functions return, given four nested calls for each character left.** -/
theorem parse_returns : ∀ n i, i ≤ buf.length → TokStart buf i →
    (4 * (buf.length - i) + 5 ≤ n → Returns (parseline buf n i)) ∧
    (4 * (buf.length - i) + 4 ≤ n → Returns (parsepipe buf n i)) ∧
    (4 * (buf.length - i) + 3 ≤ n → Returns (parseexec buf n i)) ∧
    (4 * (buf.length - i) + 2 ≤ n → Returns (parseblock buf n i))
  | 0, _, _, _ => ⟨by omega, by omega, by omega, by omega⟩
  | n + 1, i, hi, ht => by
    have ih := parse_returns n
    have hs := skipws_le_length hi
    have hi' := le_skipws buf i
    refine ⟨fun hn => ?line, fun hn => ?pipe, fun hn => ?exec, fun hn => ?block⟩
    case line =>
      rw [parseline]
      refine Returns.bind ((ih i hi ht).2.1 (by omega)) ((parse_fine n i hi ht).2.1)
        fun ⟨c₁, j₁⟩ h₁ => ?_
      refine Returns.bind (parsebacks_returns n c₁ j₁ h₁.2.1 (by have := h₁.1; dsimp only at *; omega))
        (parsebacks_fine n c₁ j₁ h₁.2.1 h₁.2.2.1) fun ⟨c₂, j₂⟩ h₂ => ?_
      dsimp only
      rw [peek_eq]
      dsimp only
      split
      · rename_i hit
        have ⟨hlt, htok⟩ := gettoken_after_hit h₂.2.1 hit
        refine Returns.bind ((ih _ htok (tokStart_gettoken _ _)).1 ?_)
          ((parse_fine n _ htok (tokStart_gettoken _ _)).1) fun _ _ => Returns.pure
        have := h₁.1
        have := h₂.1
        have := le_skipws buf j₂
        dsimp only at *
        omega
      · exact Returns.pure
    case pipe =>
      rw [parsepipe]
      refine Returns.bind ((ih i hi ht).2.2.1 (by omega)) ((parse_fine n i hi ht).2.2.1)
        fun ⟨c₁, j₁⟩ h₁ => ?_
      dsimp only
      rw [peek_eq]
      dsimp only
      split
      · rename_i hit
        have ⟨hlt, htok⟩ := gettoken_after_hit h₁.2.1 hit
        refine Returns.bind ((ih _ htok (tokStart_gettoken _ _)).2.1 ?_)
          ((parse_fine n _ htok (tokStart_gettoken _ _)).2.1) fun _ _ => Returns.pure
        have := h₁.1
        have := le_skipws buf j₁
        dsimp only at *
        omega
      · exact Returns.pure
    case exec =>
      rw [parseexec, peek_eq]
      dsimp only
      split
      · exact (ih _ hs (tokStart_skipws ht)).2.2.2 (by omega)
      · refine Returns.bind (parseredirs_returns n _ _ hs (by omega))
          (parseredirs_fine n _ _ hs (tokStart_skipws ht))
          fun ⟨c₁, j₁⟩ h₁ => execLoop_returns n c₁ [] j₁ h₁.2.1 ?_
        have := h₁.1
        dsimp only at *
        omega
    case block =>
      rw [parseblock, peek_eq]
      dsimp only
      split
      · exact Returns.throw _
      rename_i hit
      have ⟨hlt, htok⟩ := gettoken_after_hit hi (by simpa using hit)
      refine Returns.bind ((ih _ htok (tokStart_gettoken _ _)).1 (by omega))
        ((parse_fine n _ htok (tokStart_gettoken _ _)).1) fun ⟨c₁, j₁⟩ h₁ => ?_
      dsimp only
      rw [peek_eq]
      dsimp only
      split
      · exact Returns.throw _
      rename_i hit'
      have ⟨hlt', htok'⟩ := gettoken_after_hit h₁.2.1 (by simpa using hit')
      refine parseredirs_returns n c₁ _ htok' ?_
      have := h₁.1
      have := le_skipws buf j₁
      dsimp only at *
      omega

end Returns

/-! ## How a parse fails -/

def panics : List String :=
  ["syntax", "missing file for redirection", "syntax - missing )", "too many args"]

section Fails

variable {buf}

theorem parseredirs_fails : ∀ n c i, FailsWith (· ∈ panics) (parseredirs buf n c i)
  | 0, _, _ => FailsWith.spent
  | n + 1, c, i => by
    rw [parseredirs, peek_eq]
    dsimp only
    split
    · split
      · exact FailsWith.throw (by simp [panics])
      · exact parseredirs_fails n _ _
    · exact FailsWith.pure

theorem parsebacks_fails : ∀ n c i, FailsWith (· ∈ panics) (parsebacks buf n c i)
  | 0, _, _ => FailsWith.spent
  | n + 1, c, i => by
    rw [parsebacks, peek_eq]
    dsimp only
    split
    · exact parsebacks_fails n _ _
    · exact FailsWith.pure

theorem execLoop_fails : ∀ n ret argv i, FailsWith (· ∈ panics) (execLoop buf n ret argv i)
  | 0, _, _, _ => FailsWith.spent
  | n + 1, ret, argv, i => by
    rw [execLoop, peek_eq]
    dsimp only
    split
    · exact FailsWith.pure
    split
    · exact FailsWith.pure
    split
    · exact FailsWith.throw (by simp [panics])
    split
    · exact FailsWith.throw (by simp [panics])
    exact FailsWith.bind' (parseredirs_fails n _ _) fun _ => execLoop_fails n _ _ _

/-- **The parser panics only with the messages of `panics`**: `parseblock` is called only at a
`(`, so its own `parseblock` panic is never reached. -/
theorem parse_fails : ∀ n i,
    FailsWith (· ∈ panics) (parseline buf n i) ∧
    FailsWith (· ∈ panics) (parsepipe buf n i) ∧
    FailsWith (· ∈ panics) (parseexec buf n i) ∧
    (chr buf (skipws buf i) = '(' → FailsWith (· ∈ panics) (parseblock buf n i))
  | 0, _ => ⟨FailsWith.spent, FailsWith.spent, FailsWith.spent, fun _ => FailsWith.spent⟩
  | n + 1, i => by
    have ih := parse_fails n
    refine ⟨?line, ?pipe, ?exec, fun hc => ?block⟩
    case line =>
      rw [parseline]
      refine FailsWith.bind' (ih i).2.1 fun ⟨c₁, j₁⟩ => ?_
      refine FailsWith.bind' (parsebacks_fails n c₁ j₁) fun ⟨c₂, j₂⟩ => ?_
      dsimp only
      rw [peek_eq]
      dsimp only
      split
      · exact FailsWith.bind' (ih _).1 fun _ => FailsWith.pure
      · exact FailsWith.pure
    case pipe =>
      rw [parsepipe]
      refine FailsWith.bind' (ih i).2.2.1 fun ⟨c₁, j₁⟩ => ?_
      dsimp only
      rw [peek_eq]
      dsimp only
      split
      · exact FailsWith.bind' (ih _).2.1 fun _ => FailsWith.pure
      · exact FailsWith.pure
    case exec =>
      rw [parseexec, peek_eq]
      dsimp only
      split
      · rename_i hit
        -- `parseexec` saw the `(` that `parseblock` looks for again
        have hc : chr buf (skipws buf (skipws buf i)) = '(' := by
          rw [skipws_skipws]
          simpa using (peek_hit hit).2
        exact (ih _).2.2.2 hc
      · exact FailsWith.bind' (parseredirs_fails n _ _) fun _ => execLoop_fails n _ _ _
    case block =>
      rw [parseblock, peek_eq]
      dsimp only
      have hpeek : (peek buf i ['(']).1 = true := by
        simp only [peek, hc]
        decide
      simp only [hpeek, Bool.not_true, Bool.false_eq_true, ↓reduceIte]
      refine FailsWith.bind' (ih _).1 fun ⟨c₁, j₁⟩ => ?_
      dsimp only
      rw [peek_eq]
      dsimp only
      split
      · exact FailsWith.throw (by simp [panics])
      · exact parseredirs_fails n _ _

end Fails

/-- **`parsecmd` returns on every line**, with a command or with one of four panics: the
mutually recursive parse functions terminate, and the `parseblock` panic is unreachable. -/
theorem parsecmd_total (s : List Char) :
    (parsecmd s).run ≠ none ∧ ∀ e, (parsecmd s).run = some (.error e) → e ∈ panics := by
  have h₀ : (0 : ℕ) ≤ s.length := Nat.zero_le _
  refine ⟨?_, ?_⟩
  · rw [parsecmd]
    refine Returns.bind ((parse_returns _ 0 h₀ (tokStart_zero s)).1 (by simp [FUEL]))
      (parse_fine _ 0 h₀ (tokStart_zero s)).1
      fun ⟨c, j⟩ _ => ?_
    dsimp only
    split
    · exact Returns.throw _
    · exact Returns.pure
  · rw [parsecmd]
    refine FailsWith.bind' (parse_fails _ 0).1 fun ⟨c, j⟩ => ?_
    dsimp only
    split
    · exact FailsWith.throw (by simp [panics])
    · exact FailsWith.pure

/-! ## The words after `nulterminate` -/

lemma nulterminate_eq (c : PCmd) (b : List Char) :
    nulterminate c b = terminate NUL (c.words.map (·.2)) b := by
  induction c generalizing b with
  | exec argv => simp [nulterminate, terminate, Cmd.words, List.foldl_map]
  | redir c f m d ih => simp [nulterminate, terminate, Cmd.words, List.foldl_map, ih]
  | pipe l r ihl ihr => simp [nulterminate, terminate, Cmd.words, List.foldl_map, ihl, ihr]
  | list l r ihl ihr => simp [nulterminate, terminate, Cmd.words, List.foldl_map, ihl, ihr]
  | back c ih => simp [nulterminate, Cmd.words, ih]

lemma parsecmd_ok {s : List Char} {c : PCmd} {b : List Char}
    (h : (parsecmd s).run = some (.ok (c, b))) :
    ∃ j, (parseline s (FUEL s) 0).run = some (.ok (c, j)) ∧ b = nulterminate c s := by
  rcases hp : (parseline s (FUEL s) 0).run with _ | _ | ⟨c', j⟩
  · rw [parsecmd, run_bind_of_none hp] at h
    cases h
  · rw [parsecmd, run_bind_of_error hp] at h
    cases h
  · rw [parsecmd, run_bind_of_ok hp] at h
    dsimp only at h
    split at h
    · cases h
    · cases h
      exact ⟨j, rfl, rfl⟩

lemma not_mem_ends {s : List Char} {c : PCmd} (hw : ∀ w ∈ c.words, WordAt s w.1 w.2) {k : ℕ}
    (hk : wordChar (chr s k) = true) (hlt : k < s.length) : k ∉ c.words.map (·.2) := by
  intro hmem
  obtain ⟨w, hwc, rfl⟩ := List.mem_map.1 hmem
  rw [(hw w hwc).2.2.2.2 hlt] at hk
  cases hk

def slice (buf : List Char) (w : ℕ × ℕ) : List Char := (buf.drop w.1).take (w.2 - w.1)

lemma parseline_wordAt {s : List Char} {n j : ℕ} {c : PCmd}
    (hp : (parseline s n 0).run = some (.ok (c, j))) : ∀ w ∈ c.words, WordAt s w.1 w.2 :=
  fun w hwc => (((parse_fine n 0 (Nat.zero_le _) (tokStart_zero s)).1 _ hp).2.2.2 w hwc).resolve_left
    (by simp [Cmd.words])

/-- **`nulterminate` ends each word where the tokenizer ended it**: when the words of `c` are
runs of word characters of the C string `s`, each reads in the terminated line as its run, since
no NUL written for another word falls inside it. -/
lemma cstr_nulterminate {s : List Char} (hs : NUL ∉ s) {c : PCmd}
    (hw : ∀ w ∈ c.words, WordAt s w.1 w.2) :
    ∀ w ∈ c.words, cstr NUL (nulterminate c s) w.1 = slice s w := by
  intro w hwc
  obtain ⟨hlt, hle, hin, -, -⟩ := hw w hwc
  rw [nulterminate_eq]
  -- inside the word, the line is as it was, and none of its characters is the NUL
  have hkeep : ∀ k, w.1 ≤ k → k < w.2 → (terminate NUL (c.words.map (·.2)) s)[k]? = some (chr s k) := by
    intro k hk hk'
    rw [getElem?_terminate, if_neg fun h' => not_mem_ends hw (hin k hk hk') (by omega) h'.1]
    rw [chr_eq_getElem (show k < s.length by omega), List.getElem?_eq_getElem]
  have hnul : ∀ k, w.1 ≤ k → k < w.2 → chr s k ≠ NUL := fun k _ hk' he => by
    rw [chr_eq_getElem (show k < s.length by omega)] at he
    exact hs (he ▸ List.getElem_mem _)
  rw [cstr_eq NUL _ hlt.le (fun k hk hk' => ⟨_, hkeep k hk hk', hnul k hk hk'⟩) ?_]
  · -- the word's characters are the line's
    apply List.ext_getElem?
    intro k
    simp only [slice, List.getElem?_take, List.getElem?_drop]
    split_ifs with hk
    · rw [hkeep _ (by omega) (by omega), chr_eq_getElem (show w.1 + k < s.length by omega),
        List.getElem?_eq_getElem]
    · rfl
  · -- and its end is a NUL, or the end of the line
    rw [getElem?_terminate]
    by_cases hend : w.2 < s.length
    · exact .inr (if_pos ⟨List.mem_map.2 ⟨w, hwc, rfl⟩, hend⟩)
    · left
      rw [if_neg fun h' => hend h'.2]
      exact List.getElem?_eq_none (not_lt.1 hend)

/-- **After `nulterminate`, every word of the command reads as exactly its token**: each
`argv[i]` and each redirection's `file` is the NUL-terminated run of word characters the
tokenizer found. -/
theorem parsecmd_words {s : List Char} {c : PCmd} {b : List Char} (hs : NUL ∉ s)
    (h : (parsecmd s).run = some (.ok (c, b))) :
    ∀ w ∈ c.words, WordAt s w.1 w.2 ∧ cstr NUL b w.1 = slice s w := by
  obtain ⟨j, hp, rfl⟩ := parsecmd_ok h
  have hw := parseline_wordAt hp
  exact fun w hwc => ⟨hw w hwc, cstr_nulterminate hs hw w hwc⟩

theorem parsecmd_words_pipe :
    NUL ∉ ['l', 's', '|', 'w', 'c', ' ', '-', 'l'] ∧
    (parsecmd ['l', 's', '|', 'w', 'c', ' ', '-', 'l']).run =
      some (.ok (.pipe (.exec [(0, 2)]) (.exec [(3, 5), (6, 8)]),
        ['l', 's', NUL, 'w', 'c', NUL, '-', 'l'])) ∧
    ∀ w ∈ (Cmd.pipe (.exec [(0, 2)]) (.exec [(3, 5), (6, 8)]) : PCmd).words,
      WordAt ['l', 's', '|', 'w', 'c', ' ', '-', 'l'] w.1 w.2 ∧
      cstr NUL ['l', 's', NUL, 'w', 'c', NUL, '-', 'l'] w.1 =
        slice ['l', 's', '|', 'w', 'c', ' ', '-', 'l'] w :=
  ⟨by decide, by decide, parsecmd_words (by decide) (by decide)⟩

end Xv6.Sh
