import Xv6.Sh.Parse

/-!
The parser read against a printer: a command tree printed as tokens (`flatLine`), with the
parentheses its shape needs, parses back to itself.

Each parse function is proved on a buffer that spells the tokens of a tree at its level
followed by any tokens that end that level: `parseexec` stops at `|`, `)`, `&`, `;`;
`parsepipe` at `)`, `&`, `;`; `parseline` at `)`. These are proofs of partial correctness (a
parse that returns, returns the tree), and `parse_returns` supplies that it returns.
-/

namespace Xv6.Sh

open Xv6.Lib.Partial Xv6.Lib.CString

/-! ## The printer -/

/-- The modes and descriptors `parseredirs` gives `<`, `>` and `>>`. -/
def ValidRedir (mode fd : ℕ) : Prop :=
  (mode = O_RDONLY ∧ fd = 0) ∨ (mode = O_WRONLY ||| O_CREATE ||| O_TRUNC ∧ fd = 1) ∨
    (mode = O_WRONLY ||| O_CREATE ∧ fd = 1)

instance (mode fd : ℕ) : Decidable (ValidRedir mode fd) :=
  inferInstanceAs (Decidable ((mode = O_RDONLY ∧ fd = 0) ∨
    (mode = O_WRONLY ||| O_CREATE ||| O_TRUNC ∧ fd = 1) ∨ (mode = O_WRONLY ||| O_CREATE ∧ fd = 1)))

/-- The symbol a redirection is written with. -/
def redirTok (mode fd : ℕ) : Tok :=
  if mode = O_RDONLY ∧ fd = 0 then .sym '<'
  else if mode = O_WRONLY ||| O_CREATE ||| O_TRUNC ∧ fd = 1 then .sym '>'
  else .sym '+'

mutual

/-- A command at the level of `parseline`: pipelines with their `&`, joined by `;`. -/
def flatLine : Cmd (List Char) → List Tok
  | .list l r => flatBacks l ++ .sym ';' :: flatLine r
  | c => flatBacks c
termination_by c => (sizeOf c, 3)

def flatBacks : Cmd (List Char) → List Tok
  | .back c => flatBacks c ++ [.sym '&']
  | c => flatPipe c
termination_by c => (sizeOf c, 2)

def flatPipe : Cmd (List Char) → List Tok
  | .pipe l r => flatExec l ++ .sym '|' :: flatPipe r
  | c => flatExec c
termination_by c => (sizeOf c, 1)

def flatExec : Cmd (List Char) → List Tok
  | .exec argv => argv.map .word
  | .redir c f m d => flatExec c ++ [redirTok m d, .word f]
  | .pipe l r => .sym '(' :: (flatExec l ++ .sym '|' :: flatPipe r) ++ [.sym ')']
  | .list l r => .sym '(' :: (flatBacks l ++ .sym ';' :: flatLine r) ++ [.sym ')']
  | .back c => .sym '(' :: (flatBacks c ++ [.sym '&']) ++ [.sym ')']
termination_by c => (sizeOf c, 0)

end

namespace Cmd

/-- A command the printer writes so that it parses back: its words are words (at most
`MAXARGS - 1` to an exec node), and its redirections are those of `<`, `>` and `>>`. -/
def Good : Cmd (List Char) → Prop
  | .exec argv => argv.length < MAXARGS ∧ ∀ w ∈ argv, (Tok.word w).Good
  | .redir c f m d => c.Good ∧ (Tok.word f).Good ∧ ValidRedir m d
  | .pipe l r => l.Good ∧ r.Good
  | .list l r => l.Good ∧ r.Good
  | .back c => c.Good

instance decGood : DecidablePred Good := fun c =>
  match c with
  | .exec argv => decidable_of_iff (argv.length < MAXARGS ∧ argv.all (fun w => decide (Tok.word w).Good))
      (by simp [Good])
  | .redir c f m d =>
    have := decGood c
    inferInstanceAs (Decidable (c.Good ∧ (Tok.word f).Good ∧ ValidRedir m d))
  | .pipe l r =>
    have := decGood l
    have := decGood r
    inferInstanceAs (Decidable (l.Good ∧ r.Good))
  | .list l r =>
    have := decGood l
    have := decGood r
    inferInstanceAs (Decidable (l.Good ∧ r.Good))
  | .back c =>
    have := decGood c
    inferInstanceAs (Decidable c.Good)

end Cmd

/-! ## Redirections and words as tokens -/

namespace Cmd

variable {α : Type}

/-- The command wrapped in the redirections `rs`, the last one outermost. -/
def wrap (c : Cmd α) (rs : List (α × ℕ × ℕ)) : Cmd α :=
  rs.foldl (fun c r => .redir c r.1 r.2.1 r.2.2) c

@[simp] lemma wrap_nil (c : Cmd α) : c.wrap [] = c := rfl

@[simp] lemma wrap_cons (c : Cmd α) (r : α × ℕ × ℕ) (rs : List (α × ℕ × ℕ)) :
    c.wrap (r :: rs) = (Cmd.redir c r.1 r.2.1 r.2.2).wrap rs := rfl

lemma wrap_append (c : Cmd α) (rs rs' : List (α × ℕ × ℕ)) :
    c.wrap (rs ++ rs') = (c.wrap rs).wrap rs' := by
  simp [wrap, List.foldl_append]

lemma setArgv_wrap (c : Cmd α) (rs : List (α × ℕ × ℕ)) (argv : List α) :
    (c.wrap rs).setArgv argv = (c.setArgv argv).wrap rs := by
  induction rs generalizing c with
  | nil => rfl
  | cons r rs ih => simp [ih, setArgv]

end Cmd

def redirToks (rs : List (List Char × ℕ × ℕ)) : List Tok :=
  rs.flatMap fun r => [redirTok r.2.1 r.2.2, .word r.1]

def execToks (ws : List (List Char × List (List Char × ℕ × ℕ))) : List Tok :=
  ws.flatMap fun p => .word p.1 :: redirToks p.2

@[simp] lemma redirToks_nil : redirToks [] = [] := rfl

@[simp] lemma redirToks_cons (r : List Char × ℕ × ℕ) (rs : List (List Char × ℕ × ℕ)) :
    redirToks (r :: rs) = redirTok r.2.1 r.2.2 :: .word r.1 :: redirToks rs := rfl

@[simp] lemma execToks_nil : execToks [] = [] := rfl

@[simp] lemma execToks_cons (p : List Char × List (List Char × ℕ × ℕ)) ws :
    execToks (p :: ws) = .word p.1 :: (redirToks p.2 ++ execToks ws) := rfl

def GoodRedirs (rs : List (List Char × ℕ × ℕ)) : Prop := ∀ r ∈ rs, ValidRedir r.2.1 r.2.2

section Redir

variable {mode fd : ℕ}

lemma redirTok_good (mode fd : ℕ) : (redirTok mode fd).Good := by
  unfold redirTok
  split_ifs <;> simp [Tok.Good]

lemma redirTok_lead (mode fd : ℕ) : (redirTok mode fd).lead ∈ ['<', '>'] := by
  unfold redirTok
  split_ifs <;> simp [Tok.lead, Tok.chars]

lemma redirOf_redirTok {α : Type} (h : ValidRedir mode fd) (c : Cmd α) (f : α) :
    redirOf (redirTok mode fd).code c f = .redir c f mode fd := by
  rcases h with ⟨rfl, rfl⟩ | ⟨rfl, rfl⟩ | ⟨rfl, rfl⟩
  · rfl
  · simp +decide [redirOf]
  · simp +decide [redirOf]

end Redir

/-! ## A buffer that spells tokens -/

/-- The line from `i` on spells the tokens `ts`. -/
def Spells (buf : List Char) (i : ℕ) (ts : List Tok) : Prop :=
  buf.drop i = spell ts ∧ ∀ t ∈ ts, t.Good

/-- The next tokens are symbols of `cs`, or there are none. -/
def Stops (cs : List Char) (more : List Tok) : Prop := ∀ t ∈ more.head?, ∃ c ∈ cs, t = .sym c

@[simp] lemma length_spell_cons (t : Tok) (ts : List Tok) :
    (spell (t :: ts)).length = t.chars.length + 1 + (spell ts).length := by
  simp [spell_cons]
  omega

/-- A word starts with a character of no symbol. -/
lemma Tok.contains_lead_word {w : List Char} (hw : (Tok.word w).Good) {toks : List Char}
    (htoks : ∀ c ∈ toks, c ∈ symbols) : toks.contains (Tok.word w).lead = false := by
  obtain ⟨c, cs, rfl⟩ := List.exists_cons_of_ne_nil hw.1
  have hc := (hw.2 c List.mem_cons_self).2
  simp only [wordChar, Bool.and_eq_true, Bool.not_eq_eq_eq_not, Bool.not_true, strchr] at hc
  simp only [Tok.lead, Tok.chars, List.headD_cons, List.contains_eq_any_beq, List.any_eq_false,
    beq_iff_eq]
  intro x hx hxc
  subst hxc
  have := htoks _ hx
  simp [this] at hc

section Spells

variable {buf : List Char} {i : ℕ} {t : Tok} {ts ts' : List Tok}

lemma Spells.tail (h : Spells buf i (t :: ts)) : Spells buf (i + t.chars.length + 1) ts :=
  ⟨drop_spell h.1, fun t' ht' => h.2 t' (List.mem_cons_of_mem _ ht')⟩

lemma Spells.of_append (h : Spells buf i (ts ++ ts')) : Spells buf (i + (spell ts).length) ts' := by
  refine ⟨?_, fun t' ht' => h.2 t' (List.mem_append_right _ ht')⟩
  rw [← List.drop_drop, h.1, spell_append, List.drop_left]

lemma Spells.gettoken_eq (h : Spells buf i (t :: ts)) :
    gettoken buf i = ⟨t.code, i, i + t.chars.length, i + t.chars.length + 1⟩ :=
  gettoken_spell h.1 (h.2 t List.mem_cons_self) fun t' ht' => h.2 t' (List.mem_cons_of_mem _ ht')

lemma Spells.peek_lead (h : Spells buf i (t :: ts)) (toks : List Char) :
    peek buf i toks = (toks.contains t.lead, i) :=
  peek_spell h.1 (h.2 t List.mem_cons_self) toks

lemma Spells.skipws_self (h : Spells buf i ts) : skipws buf i = i := by
  cases ts with
  | nil => exact skipws_of_drop_nil h.1
  | cons t ts => exact skipws_spell h.1 (h.2 t List.mem_cons_self)

lemma Spells.slice_word {w : List Char} (h : Spells buf i (.word w :: ts)) :
    slice buf (i, i + w.length) = w := by
  simp [slice, h.1]

lemma Spells.peek_stops {cs toks : List Char} {more : List Tok} (h : Spells buf i more)
    (hs : Stops cs more) (hcs : ∀ c ∈ cs, c ∉ toks ∧ c ≠ '+') : (peek buf i toks).1 = false := by
  cases more with
  | nil => simp [peek_end h.1]
  | cons t more =>
    obtain ⟨c, hc, rfl⟩ := hs t rfl
    rw [h.peek_lead]
    simp [Tok.lead, Tok.chars, (hcs c hc).2, (hcs c hc).1]

lemma Spells.peek_execToks {ws : List (List Char × List (List Char × ℕ × ℕ))} {more : List Tok}
    {cs toks : List Char} (h : Spells buf i (execToks ws ++ more))
    (hs : Stops cs more) (htoks : ∀ c ∈ toks, c ∈ symbols) (hcs : ∀ c ∈ cs, c ∉ toks ∧ c ≠ '+') :
    (peek buf i toks).1 = false := by
  cases ws with
  | nil => exact h.peek_stops hs hcs
  | cons p ws =>
    simp only [execToks_cons, List.cons_append] at h
    rw [h.peek_lead]
    exact Tok.contains_lead_word (h.2 _ List.mem_cons_self) htoks

end Spells

/-! ## The loops on spelled tokens -/

section Loops

variable {buf : List Char}

/-- **`parseredirs` reads the redirections it is given**, up to a token that is none. -/
theorem parseredirs_spell : ∀ (rs : List (List Char × ℕ × ℕ)) (n : ℕ) (c : PCmd) (i : ℕ)
    (more : List Tok), GoodRedirs rs → Spells buf i (redirToks rs ++ more) →
    (peek buf (i + (spell (redirToks rs)).length) ['<', '>']).1 = false →
    Returns (parseredirs buf n c i) →
    ∃ rs' : List ((ℕ × ℕ) × ℕ × ℕ),
      (parseredirs buf n c i).run = some (.ok (c.wrap rs', i + (spell (redirToks rs)).length)) ∧
      rs'.map (fun r => (slice buf r.1, r.2)) = rs
  | _, 0, _, _, _, _, _, _, hr => absurd rfl hr
  | [], n + 1, c, i, more, _, h, hp, _ => by
    simp only [redirToks_nil, spell_nil, List.length_nil, Nat.add_zero, List.nil_append] at h hp
    refine ⟨[], ?_, rfl⟩
    rw [parseredirs, peek_eq, hp, h.skipws_self]
    rfl
  | (f, m, d) :: rs, n + 1, c, i, more, hg, h, hp, hr => by
    obtain ⟨hv, hg'⟩ := List.forall_mem_cons.1 hg
    dsimp only at hv
    simp only [redirToks_cons, List.cons_append] at h
    have h₂ := h.tail
    have h₃ := h₂.tail
    simp only [Tok.chars_word] at h₃
    -- the symbol, then the file's word
    have hstep : parseredirs buf (n + 1) c i =
        parseredirs buf n (.redir c (i + (redirTok m d).chars.length + 1,
          i + (redirTok m d).chars.length + 1 + f.length) m d)
          (i + (redirTok m d).chars.length + 1 + f.length + 1) := by
      rw [parseredirs, h.peek_lead]
      dsimp only
      rw [if_pos (by simpa using redirTok_lead m d), h.gettoken_eq]
      dsimp only
      rw [h₂.gettoken_eq]
      simp only [Tok.code_word, Tok.chars_word, ne_eq, not_true_eq_false, if_false]
      rw [redirOf_redirTok hv]
    have hpos : i + (redirTok m d).chars.length + 1 + f.length + 1 + (spell (redirToks rs)).length =
        i + (spell (redirToks ((f, m, d) :: rs))).length := by
      simp only [redirToks_cons, length_spell_cons, Tok.chars_word]
      omega
    rw [hstep] at hr ⊢
    obtain ⟨rs', hrun, hmap⟩ := parseredirs_spell rs n _ _ more hg' h₃ (by rw [hpos]; exact hp) hr
    refine ⟨((i + (redirTok m d).chars.length + 1, i + (redirTok m d).chars.length + 1 + f.length),
      m, d) :: rs', ?_, ?_⟩
    · rw [hrun, hpos]
      rfl
    · simp [hmap, h₂.slice_word]

/-- **The loop of `parseline` reads one `backcmd` for each `&`.** -/
theorem parsebacks_spell : ∀ (k n : ℕ) (c : PCmd) (i : ℕ) (more : List Tok),
    Spells buf i (List.replicate k (.sym '&') ++ more) →
    (peek buf (i + 2 * k) ['&']).1 = false → Returns (parsebacks buf n c i) →
    (parsebacks buf n c i).run = some (.ok (Cmd.back^[k] c, i + 2 * k))
  | _, 0, _, _, _, _, _, hr => absurd rfl hr
  | 0, n + 1, c, i, more, h, hp, _ => by
    simp only [List.replicate_zero, List.nil_append, Nat.mul_zero, Nat.add_zero] at h hp
    rw [parsebacks, peek_eq, hp, h.skipws_self]
    rfl
  | k + 1, n + 1, c, i, more, h, hp, hr => by
    rw [List.replicate_succ, List.cons_append] at h
    have hlen : (Tok.sym '&').chars.length = 1 := by decide
    have h' := h.tail
    rw [hlen] at h'
    have hstep : parsebacks buf (n + 1) c i = parsebacks buf n (.back c) (i + 1 + 1) := by
      rw [parsebacks, h.peek_lead]
      dsimp only
      rw [if_pos (by decide), h.gettoken_eq, hlen]
    have hpos : i + 1 + 1 + 2 * k = i + 2 * (k + 1) := by omega
    rw [hstep] at hr ⊢
    rw [parsebacks_spell k n _ _ more h' (by rw [hpos]; exact hp) hr, hpos,
      Function.iterate_succ_apply]

/-- **The loop of `parseexec` reads the words and redirections it is given**, up to a symbol
that ends the command. -/
theorem execLoop_spell : ∀ (ws : List (List Char × List (List Char × ℕ × ℕ))) (n : ℕ)
    (ret : PCmd) (argv : List (ℕ × ℕ)) (i : ℕ) (more : List Tok),
    (∀ p ∈ ws, GoodRedirs p.2) → argv.length + ws.length < MAXARGS →
    Spells buf i (execToks ws ++ more) → Stops ['|', ')', '&', ';'] more →
    Returns (execLoop buf n ret argv i) →
    ∃ (ws' : List (ℕ × ℕ)) (rs' : List ((ℕ × ℕ) × ℕ × ℕ)),
      (execLoop buf n ret argv i).run =
        some (.ok ((ret.wrap rs').setArgv (argv ++ ws'), i + (spell (execToks ws)).length)) ∧
      ws'.map (slice buf) = ws.map (·.1) ∧
      rs'.map (fun r => (slice buf r.1, r.2)) = ws.flatMap (·.2)
  | _, 0, _, _, _, _, _, _, _, _, hr => absurd rfl hr
  | [], n + 1, ret, argv, i, more, _, _, h, hs, _ => by
    simp only [execToks_nil, List.nil_append, spell_nil, List.length_nil, Nat.add_zero] at h ⊢
    refine ⟨[], [], ?_, rfl, rfl⟩
    simp only [List.append_nil, Cmd.wrap_nil]
    -- the end of the line, or a symbol that ends the command
    cases more with
    | nil =>
      rw [execLoop, peek_end h.1]
      simp [gettoken_end h.1]
    | cons t more =>
      obtain ⟨c, hc, rfl⟩ := hs t rfl
      have hhit : ['|', ')', '&', ';'].contains (Tok.sym c).lead = true := by
        simp only [List.mem_cons, List.not_mem_nil, or_false] at hc
        rcases hc with rfl | rfl | rfl | rfl <;> decide
      rw [execLoop, h.peek_lead]
      dsimp only
      rw [if_pos hhit]
      rfl
  | (w, rs) :: ws, n + 1, ret, argv, i, more, hws, hlen, h, hs, hr => by
    obtain ⟨hg, hws'⟩ := List.forall_mem_cons.1 hws
    simp only [List.length_cons] at hlen
    simp only [execToks_cons, List.cons_append, List.append_assoc] at h
    have hw : (Tok.word w).Good := h.2 _ List.mem_cons_self
    have h₂ : Spells buf (i + w.length + 1) (redirToks rs ++ (execToks ws ++ more)) := by
      simpa using h.tail
    have h₃ := h₂.of_append
    -- a word, then its redirections
    have hstep : execLoop buf (n + 1) ret argv i =
        parseredirs buf n ret (i + w.length + 1) >>= fun r =>
          execLoop buf n r.1 (argv ++ [(i, i + w.length)]) r.2 := by
      have hnul : 'a' ≠ NUL := by decide
      have hmax : ¬ MAXARGS ≤ argv.length + 1 := by
        unfold MAXARGS at *
        omega
      rw [execLoop, h.peek_lead, Tok.contains_lead_word hw (by simp [symbols])]
      dsimp only
      rw [h.gettoken_eq]
      simp only [Tok.code_word, Tok.chars_word, hnul, hmax, ne_eq, not_true_eq_false,
        Bool.false_eq_true, if_false]
    rw [hstep] at hr ⊢
    obtain ⟨rs₁, hrun₁, hmap₁⟩ := parseredirs_spell rs n ret _ _ hg h₂
      (h₃.peek_execToks hs (by simp [symbols]) (by simp)) (Returns.of_bind hr)
    have hr₂ := Returns.of_bind_ok hr hrun₁
    obtain ⟨ws₂, rs₂, hrun₂, hm₁, hm₂⟩ := execLoop_spell ws n (ret.wrap rs₁)
      (argv ++ [(i, i + w.length)]) _ more hws' (by simp; omega) h₃ hs hr₂
    have hpos : i + w.length + 1 + (spell (redirToks rs)).length + (spell (execToks ws)).length =
        i + (spell (execToks ((w, rs) :: ws))).length := by
      simp only [execToks_cons, length_spell_cons, spell_append, List.length_append,
        Tok.chars_word]
      omega
    refine ⟨(i, i + w.length) :: ws₂, rs₁ ++ rs₂, ?_, ?_, ?_⟩
    · rw [run_bind_of_ok hrun₁]
      dsimp only
      rw [hrun₂, hpos, Cmd.wrap_append, List.append_assoc, List.singleton_append]
    · simp [hm₁, h.slice_word]
    · simp [hmap₁, hm₂]

end Loops

/-! ## The levels of the grammar

A command is read at three levels, `parseexec`, `parsepipe` and `parseline`, each up to a
symbol that ends it: `Reads` says that a parse reads the tokens a level prints, and no more, and
returns the tree they were printed from. -/

namespace Cmd

variable {α β : Type}

/-- The `&`s around a command, and the command under them. -/
def unback : Cmd α → ℕ × Cmd α
  | .back c => ((unback c).1 + 1, (unback c).2)
  | c => (0, c)

lemma iterate_unback (c : Cmd α) : Cmd.back^[(unback c).1] (unback c).2 = c := by
  induction c with
  | back c ih => rw [unback, Function.iterate_succ_apply', ih]
  | _ => rfl

lemma map_iterate_back (g : α → β) (k : ℕ) (c : Cmd α) :
    (Cmd.back^[k] c).map g = Cmd.back^[k] (c.map g) := by
  induction k with
  | zero => rfl
  | succ k ih => rw [Function.iterate_succ_apply', Function.iterate_succ_apply', map, ih]

lemma map_wrap (g : α → β) (c : Cmd α) (rs : List (α × ℕ × ℕ)) :
    (c.wrap rs).map g = (c.map g).wrap (rs.map fun r => (g r.1, r.2)) := by
  induction rs generalizing c with
  | nil => rfl
  | cons r rs ih => simp [ih, map]

lemma map_setArgv_wrap (g : α → β) (rs : List (α × ℕ × ℕ)) (argv : List α) :
    (((Cmd.exec []).wrap rs).setArgv argv).map g =
      (Cmd.exec (argv.map g)).wrap (rs.map fun r => (g r.1, r.2)) := by
  rw [setArgv_wrap, map_wrap]
  rfl

lemma map_congr {g g' : α → β} : ∀ c : Cmd α, (∀ w ∈ c.words, g w = g' w) → c.map g = c.map g'
  | .exec argv, h => by simpa [map, words] using h
  | .redir c f m d, h => by
    simp only [words, List.mem_append, List.mem_singleton] at h
    rw [map, map, map_congr c fun w hw => h w (.inl hw), h f (.inr rfl)]
  | .pipe l r, h | .list l r, h => by
    simp only [words, List.mem_append] at h
    rw [map, map, map_congr l fun w hw => h w (.inl hw), map_congr r fun w hw => h w (.inr hw)]
  | .back c, h => by rw [map, map, map_congr c h]

end Cmd

lemma flatBacks_unback (t : Cmd (List Char)) :
    flatBacks t = flatPipe (Cmd.unback t).2 ++ List.replicate (Cmd.unback t).1 (.sym '&') := by
  induction t with
  | back c ih => simp [flatBacks, Cmd.unback, ih, List.replicate_succ']
  | _ => simp [flatBacks, Cmd.unback]

@[simp] lemma length_spell_amps (k : ℕ) : (spell (List.replicate k (.sym '&'))).length = 2 * k := by
  induction k with
  | zero => rfl
  | succ k ih =>
    rw [List.replicate_succ, length_spell_cons, ih]
    have : (Tok.sym '&').chars.length = 1 := by decide
    omega

lemma exists_execToks : ∀ (w : List Char) (ws : List (List Char)) (rs : List (List Char × ℕ × ℕ)),
    GoodRedirs rs → ∃ ps : List (List Char × List (List Char × ℕ × ℕ)),
      execToks ps = (w :: ws).map .word ++ redirToks rs ∧ ps.map (·.1) = w :: ws ∧
      ps.flatMap (·.2) = rs ∧ ∀ p ∈ ps, GoodRedirs p.2
  | w, [], rs, hg => ⟨[(w, rs)], by simp, rfl, by simp, by simpa using hg⟩
  | w, v :: ws, rs, hg => by
    obtain ⟨ps, h₁, h₂, h₃, h₄⟩ := exists_execToks v ws rs hg
    refine ⟨(w, []) :: ps, ?_, ?_, ?_, ?_⟩
    · simp [h₁]
    · simp [h₂]
    · simp [h₃]
    · simpa [GoodRedirs] using h₄

section Stops

variable {cs cs' : List Char} {more : List Tok}

lemma Stops.nil : Stops cs [] := by simp [Stops]

lemma Stops.sym {c : Char} (h : c ∈ cs) : Stops cs (.sym c :: more) := by
  simpa [Stops] using h

lemma Stops.mono (h : Stops cs more) (hcs : ∀ c ∈ cs, c ∈ cs') : Stops cs' more :=
  fun t ht => (h t ht).elim fun c hc => ⟨c, hcs c hc.1, hc.2⟩

lemma Stops.amps (h : Stops cs more) (hamp : '&' ∈ cs') (hcs : ∀ c ∈ cs, c ∈ cs') (k : ℕ) :
    Stops cs' (List.replicate k (.sym '&') ++ more) := by
  cases k with
  | zero => exact h.mono hcs
  | succ k => exact Stops.sym hamp

end Stops

/-- From `i`, the parse `p` reads the tokens `ts`, when what follows them is a symbol of `cs`
or nothing, and returns a command whose words are those of `t`, in its shape. -/
def Reads (buf : List Char) (p : ℕ → ℕ → Parse (PCmd × ℕ)) (cs : List Char) (ts : List Tok)
    (t : Cmd (List Char)) : Prop :=
  ∀ n i more, Spells buf i (ts ++ more) → Stops cs more → Returns (p n i) →
    ∃ c : PCmd, (p n i).run = some (.ok (c, i + (spell ts).length)) ∧ c.map (slice buf) = t

def ExecReads (buf : List Char) (t : Cmd (List Char)) : Prop :=
  ∀ rs, GoodRedirs rs →
    Reads buf (parseexec buf) ['|', ')', '&', ';'] (flatExec t ++ redirToks rs) (t.wrap rs)

def PipeReads (buf : List Char) (t : Cmd (List Char)) : Prop :=
  Reads buf (parsepipe buf) [')', '&', ';'] (flatPipe t) t

/-- `parseline` reads the command. -/
def LineReads (buf : List Char) (t : Cmd (List Char)) : Prop :=
  Reads buf (parseline buf) [')'] (flatLine t) t

section Levels

variable {buf : List Char}

/-- **`parseexec` reads words and redirections**: the redirections before the first word, then
the word loop. -/
theorem parseexec_exec {argv : List (List Char)} (h : argv.length < MAXARGS) :
    ExecReads buf (.exec argv) := by
  intro rs hg n i more hs hstop hr
  cases n with
  | zero => exact absurd rfl hr
  | succ n =>
  simp only [flatExec] at hs ⊢
  -- without words, `parseredirs` reads the redirections; with words, the loop does
  obtain ⟨rs₀, ps, htoks, hrs, hargv, hg₀, hps⟩ : ∃ (rs₀ : List (List Char × ℕ × ℕ))
      (ps : List (List Char × List (List Char × ℕ × ℕ))),
      redirToks rs₀ ++ execToks ps = argv.map .word ++ redirToks rs ∧
      rs₀ ++ ps.flatMap (·.2) = rs ∧ ps.map (·.1) = argv ∧ GoodRedirs rs₀ ∧
      ∀ p ∈ ps, GoodRedirs p.2 := by
    rcases argv with _ | ⟨w, ws⟩
    · exact ⟨rs, [], by simp, by simp, rfl, hg, by simp⟩
    · obtain ⟨ps, h₁, h₂, h₃, h₄⟩ := exists_execToks w ws rs hg
      exact ⟨[], ps, by simp [h₁], by simp [h₃], h₂, by simp [GoodRedirs], h₄⟩
  rw [← htoks, List.append_assoc] at hs
  have hj := hs.of_append
  -- the first token is a redirection, a word, or one that ends the command: not `(`
  have hpeek : (peek buf i ['(']).1 = false := by
    cases rs₀ with
    | nil => exact hj.peek_execToks hstop (by simp [symbols]) (by simp)
    | cons r rs₀ =>
      simp only [redirToks_cons, List.cons_append] at hs
      rw [hs.peek_lead]
      have := redirTok_lead r.2.1 r.2.2
      simp only [List.mem_cons, List.not_mem_nil, or_false] at this
      rcases this with h' | h' <;> simp [h']
  have hstep : parseexec buf (n + 1) i =
      parseredirs buf n (.exec []) i >>= fun r => execLoop buf n r.1 [] r.2 := by
    rw [parseexec, peek_eq, hpeek, hs.skipws_self]
    rfl
  rw [hstep] at hr ⊢
  obtain ⟨rs₁, hrun₁, hm₁⟩ := parseredirs_spell rs₀ n (.exec []) i _ hg₀ hs
    (hj.peek_execToks hstop (by simp [symbols]) (by simp)) (Returns.of_bind hr)
  have hr₂ := Returns.of_bind_ok hr hrun₁
  have hlen : ([] : List (ℕ × ℕ)).length + ps.length < MAXARGS := by
    simpa [← hargv] using h
  obtain ⟨W, R, hrun₂, hm₂, hm₃⟩ := execLoop_spell ps n _ [] _ more hps hlen hj hstop hr₂
  refine ⟨(((Cmd.exec []).wrap rs₁).wrap R).setArgv ([] ++ W), ?_, ?_⟩
  · rw [run_bind_of_ok hrun₁]
    dsimp only
    rw [hrun₂, Nat.add_assoc, ← List.length_append, ← spell_append, htoks]
  · rw [← Cmd.wrap_append, List.nil_append, Cmd.map_setArgv_wrap, List.map_append, hm₁, hm₃, hm₂,
      hrs, hargv]

/-- **A redirection is read as one more redirection after the command.** -/
theorem parseexec_redir {c : Cmd (List Char)} {f : List Char} {m d : ℕ} (hc : ExecReads buf c)
    (hv : ValidRedir m d) : ExecReads buf (.redir c f m d) := by
  intro rs hg
  have h := hc ((f, m, d) :: rs) (List.forall_mem_cons.2 ⟨hv, hg⟩)
  have htoks : flatExec (.redir c f m d) ++ redirToks rs = flatExec c ++ redirToks ((f, m, d) :: rs) := by
    simp [flatExec]
  rw [htoks]
  exact h

/-- **A block is read by `parseblock`**: `(`, a line, `)`, and the redirections after it. -/
theorem parseexec_block {t : Cmd (List Char)} (ht : LineReads buf t)
    (hflat : flatExec t = .sym '(' :: flatLine t ++ [.sym ')']) : ExecReads buf t := by
  intro rs hg n i more hs hstop hr
  have hopen : (Tok.sym '(').chars.length = 1 := by decide
  have hclose : (Tok.sym ')').chars.length = 1 := by decide
  rw [hflat] at hs ⊢
  simp only [List.cons_append, List.append_assoc, List.nil_append] at hs
  have h₁ := hs.tail
  rw [hopen] at h₁
  have h₂ := h₁.of_append
  have h₃ := h₂.tail
  rw [hclose] at h₃
  cases n with
  | zero => exact absurd rfl hr
  | succ n =>
  -- `parseexec` sees the `(` and hands the block to `parseblock`
  have hstep : parseexec buf (n + 1) i = parseblock buf n i := by
    rw [parseexec, hs.peek_lead]
    dsimp only
    rw [if_pos (by decide)]
  rw [hstep] at hr ⊢
  cases n with
  | zero => exact absurd rfl hr
  | succ n =>
  rw [parseblock, hs.peek_lead] at hr ⊢
  dsimp only at hr ⊢
  rw [if_neg (by decide), hs.gettoken_eq] at hr ⊢
  dsimp only at hr ⊢
  rw [hopen] at hr ⊢
  obtain ⟨c, hrun, hmap⟩ := ht n _ _ h₁ (Stops.sym (by simp)) (Returns.of_bind hr)
  have hr' := Returns.of_bind_ok hr hrun
  rw [run_bind_of_ok hrun]
  dsimp only at hr' ⊢
  -- the `)`, then the redirections
  rw [h₂.peek_lead] at hr' ⊢
  dsimp only at hr' ⊢
  rw [if_neg (by decide), h₂.gettoken_eq] at hr' ⊢
  dsimp only at hr' ⊢
  rw [hclose] at hr' ⊢
  obtain ⟨rs₁, hrun₁, hm₁⟩ := parseredirs_spell rs n c _ more hg h₃
    (h₃.of_append.peek_stops hstop (by simp)) hr'
  refine ⟨c.wrap rs₁, ?_, by rw [Cmd.map_wrap, hmap, hm₁]⟩
  rw [hrun₁]
  congr 3
  simp only [spell_cons, spell_append, spell_nil, List.length_append, List.length_cons,
    List.length_nil, hopen, hclose]
  omega

/-- **`parsepipe` reads a command that is no pipe** as `parseexec` does, and stops there. -/
theorem parsepipe_exec {t : Cmd (List Char)} (he : ExecReads buf t) (hflat : flatPipe t = flatExec t) :
    PipeReads buf t := by
  intro n i more hs hstop hr
  cases n with
  | zero => exact absurd rfl hr
  | succ n =>
  rw [hflat] at hs ⊢
  rw [parsepipe] at hr ⊢
  have he' := he [] (by simp [GoodRedirs])
  simp only [redirToks_nil, List.append_nil, Cmd.wrap_nil] at he'
  obtain ⟨c, hrun, hmap⟩ := he' n i more hs (hstop.mono (by simp)) (Returns.of_bind hr)
  refine ⟨c, ?_, hmap⟩
  have hj := hs.of_append
  rw [run_bind_of_ok hrun]
  dsimp only
  rw [peek_eq, hj.peek_stops hstop (by simp), hj.skipws_self]
  rfl

/-- **`parsepipe` reads a pipe**: the left command, `|`, and the pipe on the right. -/
theorem parsepipe_pipe {l r : Cmd (List Char)} (hl : ExecReads buf l) (hr : PipeReads buf r) :
    PipeReads buf (.pipe l r) := by
  intro n i more hs hstop hret
  cases n with
  | zero => exact absurd rfl hret
  | succ n =>
  have hbar : (Tok.sym '|').chars.length = 1 := by decide
  simp only [flatPipe, List.cons_append, List.append_assoc] at hs ⊢
  have h₂ := hs.of_append
  have h₃ := h₂.tail
  rw [hbar] at h₃
  have hl' := hl [] (by simp [GoodRedirs])
  simp only [redirToks_nil, List.append_nil, Cmd.wrap_nil] at hl'
  rw [parsepipe] at hret ⊢
  obtain ⟨c₁, hrun₁, hm₁⟩ := hl' n i _ hs (Stops.sym (by simp)) (Returns.of_bind hret)
  have hret' := Returns.of_bind_ok hret hrun₁
  rw [run_bind_of_ok hrun₁]
  dsimp only at hret' ⊢
  rw [h₂.peek_lead] at hret' ⊢
  dsimp only at hret' ⊢
  rw [if_pos (by decide), h₂.gettoken_eq] at hret' ⊢
  dsimp only at hret' ⊢
  rw [hbar] at hret' ⊢
  obtain ⟨c₂, hrun₂, hm₂⟩ := hr n _ more h₃ hstop (Returns.of_bind hret')
  refine ⟨.pipe c₁ c₂, ?_, by rw [Cmd.map, hm₁, hm₂]⟩
  rw [run_bind_of_ok hrun₂]
  simp only [run_pure, spell_append, spell_cons, List.length_append, List.length_cons, hbar]
  congr 3
  omega

lemma pipe_backs_run {t : Cmd (List Char)} {n i : ℕ} {more : List Tok}
    (hb : PipeReads buf (Cmd.unback t).2) (hs : Spells buf i (flatBacks t ++ more))
    (hstop : Stops [';', ')'] more) (hr₁ : Returns (parsepipe buf n i))
    (hr₂ : ∀ c j, (parsepipe buf n i).run = some (.ok (c, j)) → Returns (parsebacks buf n c j)) :
    ∃ c₁ j c, (parsepipe buf n i).run = some (.ok (c₁, j)) ∧
      (parsebacks buf n c₁ j).run = some (.ok (c, i + (spell (flatBacks t)).length)) ∧
      c.map (slice buf) = t := by
  rw [flatBacks_unback, List.append_assoc] at hs
  obtain ⟨c₁, hrun₁, hm₁⟩ := hb n i _ hs (hstop.amps (by simp) (by simp) _) hr₁
  have h₂ := hs.of_append
  have hrun₂ := parsebacks_spell _ n c₁ _ more h₂
    (by simpa using h₂.of_append.peek_stops hstop (by simp)) (hr₂ _ _ hrun₁)
  refine ⟨c₁, _, Cmd.back^[(Cmd.unback t).1] c₁, hrun₁, ?_, ?_⟩
  · rw [hrun₂, flatBacks_unback, spell_append, List.length_append, length_spell_amps, Nat.add_assoc]
  · rw [Cmd.map_iterate_back, hm₁, Cmd.iterate_unback]

/-- **`parseline` reads a command that is no list**: a pipeline, its `&`s, and no `;`. -/
theorem parseline_backs {t : Cmd (List Char)} (hb : PipeReads buf (Cmd.unback t).2)
    (hflat : flatLine t = flatBacks t) : LineReads buf t := by
  intro n i more hs hstop hr
  cases n with
  | zero => exact absurd rfl hr
  | succ n =>
  rw [hflat] at hs ⊢
  rw [parseline] at hr ⊢
  obtain ⟨c₁, j, c, hrun₁, hrun₂, hmap⟩ := pipe_backs_run hb hs (hstop.mono (by simp))
    (Returns.of_bind hr) fun c j h => by
      have := Returns.of_bind_ok hr h
      exact Returns.of_bind this
  refine ⟨c, ?_, hmap⟩
  have hj := hs.of_append
  rw [run_bind_of_ok hrun₁]
  dsimp only
  rw [run_bind_of_ok hrun₂]
  dsimp only
  rw [peek_eq, hj.peek_stops hstop (by simp), hj.skipws_self]
  rfl

/-- **`parseline` reads a list**: a pipeline with its `&`s, `;`, and the line on the right. -/
theorem parseline_list {l r : Cmd (List Char)} (hl : PipeReads buf (Cmd.unback l).2)
    (hr : LineReads buf r) : LineReads buf (.list l r) := by
  intro n i more hs hstop hret
  cases n with
  | zero => exact absurd rfl hret
  | succ n =>
  have hsemi : (Tok.sym ';').chars.length = 1 := by decide
  simp only [flatLine, List.cons_append, List.append_assoc] at hs ⊢
  have h₂ := hs.of_append
  have h₃ := h₂.tail
  rw [hsemi] at h₃
  rw [parseline] at hret ⊢
  obtain ⟨c₁, j, c, hrun₁, hrun₂, hm₁⟩ := pipe_backs_run hl hs (Stops.sym (by simp))
    (Returns.of_bind hret) fun c j h => by
      have := Returns.of_bind_ok hret h
      exact Returns.of_bind this
  have hret₁ := Returns.of_bind_ok hret hrun₁
  have hret' := Returns.of_bind_ok hret₁ hrun₂
  rw [run_bind_of_ok hrun₁]
  dsimp only at hret' ⊢
  rw [run_bind_of_ok hrun₂]
  dsimp only at hret' ⊢
  rw [h₂.peek_lead] at hret' ⊢
  dsimp only at hret' ⊢
  rw [if_pos (by decide), h₂.gettoken_eq] at hret' ⊢
  dsimp only at hret' ⊢
  rw [hsemi] at hret' ⊢
  obtain ⟨c₂, hrun₃, hm₂⟩ := hr n _ more h₃ hstop (Returns.of_bind hret')
  refine ⟨.list c c₂, ?_, by rw [Cmd.map, hm₁, hm₂]⟩
  rw [run_bind_of_ok hrun₃]
  simp only [run_pure, spell_append, spell_cons, List.length_append, List.length_cons, hsemi]
  congr 3
  omega

end Levels

/-! ## The round trip -/

lemma flatExec_pipe (l r : Cmd (List Char)) :
    flatExec (.pipe l r) = .sym '(' :: flatLine (.pipe l r) ++ [.sym ')'] := by
  simp [flatExec, flatLine, flatBacks, flatPipe]

lemma flatExec_list (l r : Cmd (List Char)) :
    flatExec (.list l r) = .sym '(' :: flatLine (.list l r) ++ [.sym ')'] := by
  simp [flatExec, flatLine]

lemma flatExec_back (c : Cmd (List Char)) :
    flatExec (.back c) = .sym '(' :: flatLine (.back c) ++ [.sym ')'] := by
  simp [flatExec, flatLine, flatBacks]

lemma good_paren {ts : List Tok} (h : ∀ x ∈ ts, x.Good) :
    ∀ x ∈ .sym '(' :: ts ++ [.sym ')'], x.Good := by
  intro x hx
  simp only [List.mem_append, List.mem_cons, List.not_mem_nil, or_false] at hx
  rcases hx with (rfl | hx) | rfl
  · decide
  · exact h x hx
  · decide

/-- The printer writes only tokens the tokenizer reads whole. -/
theorem flat_good : ∀ t : Cmd (List Char), t.Good →
    (∀ x ∈ flatExec t, x.Good) ∧ (∀ x ∈ flatPipe t, x.Good) ∧ (∀ x ∈ flatBacks t, x.Good) ∧
      (∀ x ∈ flatLine t, x.Good)
  | .exec argv, h => by
    have he : ∀ x ∈ flatExec (.exec argv), x.Good := by simpa [flatExec] using h.2
    exact ⟨he, by simpa [flatPipe] using he, by simpa [flatBacks, flatPipe] using he,
      by simpa [flatLine, flatBacks, flatPipe] using he⟩
  | .redir c f m d, h => by
    have he : ∀ x ∈ flatExec (.redir c f m d), x.Good := by
      intro x hx
      simp only [flatExec, List.mem_append, List.mem_cons, List.not_mem_nil, or_false] at hx
      rcases hx with hx | rfl | rfl
      · exact (flat_good c h.1).1 x hx
      · exact redirTok_good m d
      · exact h.2.1
    exact ⟨he, by simpa [flatPipe] using he, by simpa [flatBacks, flatPipe] using he,
      by simpa [flatLine, flatBacks, flatPipe] using he⟩
  | .pipe l r, h => by
    have hp : ∀ x ∈ flatPipe (.pipe l r), x.Good := by
      intro x hx
      simp only [flatPipe, List.mem_append, List.mem_cons] at hx
      rcases hx with hx | rfl | hx
      · exact (flat_good l h.1).1 x hx
      · decide
      · exact (flat_good r h.2).2.1 x hx
    have hl : ∀ x ∈ flatLine (.pipe l r), x.Good := by simpa [flatLine, flatBacks] using hp
    exact ⟨by rw [flatExec_pipe]; exact good_paren hl, hp, by simpa [flatBacks] using hp, hl⟩
  | .list l r, h => by
    have hl : ∀ x ∈ flatLine (.list l r), x.Good := by
      intro x hx
      simp only [flatLine, List.mem_append, List.mem_cons] at hx
      rcases hx with hx | rfl | hx
      · exact (flat_good l h.1).2.2.1 x hx
      · decide
      · exact (flat_good r h.2).2.2.2 x hx
    have he : ∀ x ∈ flatExec (.list l r), x.Good := by
      rw [flatExec_list]
      exact good_paren hl
    exact ⟨he, by simpa [flatPipe] using he, by simpa [flatBacks, flatPipe] using he, hl⟩
  | .back c, h => by
    have hb : ∀ x ∈ flatBacks (.back c), x.Good := by
      intro x hx
      simp only [flatBacks, List.mem_append, List.mem_singleton] at hx
      rcases hx with hx | rfl
      · exact (flat_good c h).2.2.1 x hx
      · decide
    have hl : ∀ x ∈ flatLine (.back c), x.Good := by simpa [flatLine] using hb
    have he : ∀ x ∈ flatExec (.back c), x.Good := by
      rw [flatExec_back]
      exact good_paren hl
    exact ⟨he, by simpa [flatPipe] using he, hb, hl⟩

section Flat

variable {buf : List Char}

/-- **Each parse function reads what the printer writes at its level**, by recursion on the
command: a level that prints a command as the level below does reads it as that level does,
and `parseblock` reads a line in parentheses. -/
theorem flat_reads : ∀ t : Cmd (List Char), t.Good →
    ExecReads buf t ∧ PipeReads buf t ∧ PipeReads buf (Cmd.unback t).2 ∧ LineReads buf t
  | .exec argv, h => by
    have he : ExecReads buf (.exec argv) := parseexec_exec h.1
    have hp := parsepipe_exec he (by simp [flatPipe])
    exact ⟨he, hp, hp, parseline_backs hp (by simp [flatLine])⟩
  | .redir c f m d, h => by
    have he := parseexec_redir (f := f) (flat_reads c h.1).1 h.2.2
    have hp := parsepipe_exec he (by simp [flatPipe])
    exact ⟨he, hp, hp, parseline_backs hp (by simp [flatLine])⟩
  | .pipe l r, h => by
    have hp := parsepipe_pipe (flat_reads l h.1).1 (flat_reads r h.2).2.1
    have hl := parseline_backs (t := .pipe l r) hp (by simp [flatLine])
    exact ⟨parseexec_block hl (flatExec_pipe l r), hp, hp, hl⟩
  | .list l r, h => by
    have hl := parseline_list (flat_reads l h.1).2.2.1 (flat_reads r h.2).2.2.2
    have he := parseexec_block hl (flatExec_list l r)
    have hp := parsepipe_exec he (by simp [flatPipe])
    exact ⟨he, hp, hp, hl⟩
  | .back c, h => by
    -- the pipeline under the `&`s is the one under `c`'s
    have hb : PipeReads buf (Cmd.unback (.back c)).2 := (flat_reads c h).2.2.1
    have hl := parseline_backs hb (by simp [flatLine])
    have he := parseexec_block hl (flatExec_back c)
    exact ⟨he, parsepipe_exec he (by simp [flatPipe]), hb, hl⟩

end Flat

/-- **Round trip of the shell's syntax**: a command tree whose words are words, with at most
`MAXARGS - 1` arguments to a command and the redirections of `<`, `>` and `>>`, printed in the
shell's syntax, is parsed by `parsecmd` back into that tree; each word reads, in the line
`nulterminate` returns, as its own text. -/
theorem parsecmd_flatLine (t : Cmd (List Char)) (ht : t.Good) :
    ∃ c b, (parsecmd (spell (flatLine t))).run = some (.ok (c, b)) ∧
      c.map (fun w => cstr NUL b w.1) = t := by
  set s := spell (flatLine t) with hs_def
  have hsp : Spells s 0 (flatLine t ++ []) := ⟨by simp [s], by simpa using (flat_good t ht).2.2.2⟩
  have hret := (parse_returns (FUEL s) 0 (Nat.zero_le s.length) (tokStart_zero s)).1 (by simp [FUEL])
  obtain ⟨c, hrun, hmap⟩ := (flat_reads t ht).2.2.2 (FUEL s) 0 [] hsp Stops.nil hret
  rw [Nat.zero_add, ← hs_def] at hrun
  refine ⟨c, nulterminate c s, ?_, ?_⟩
  · -- nothing is left after the command
    rw [parsecmd, run_bind_of_ok hrun]
    dsimp only
    rw [peek_end (List.drop_length) [], if_neg (by simp)]
    rfl
  · rw [← hmap]
    exact Cmd.map_congr c fun w hw =>
      cstr_nulterminate (nul_not_mem_spell (flat_good t ht).2.2.2) (parseline_wordAt hrun) w hw

end Xv6.Sh
