import Mathlib

/-!
The shell's tokenizer: `gettoken` and `peek` of `sh.c`.

The command line is the buffer `buf` up to its terminating NUL, at `es = buf.length`. A pointer
into it is an index, and `*s` at or past `es` reads the NUL. `strchr(t, c)` is not null when
`c` is one of the characters of `t`; its loop stops at the NUL that ends `t` before comparing
it, so never for `c = 0`. The scans stop at `es` (`s < es`), not at a NUL: a line that is a C
string holds none, and the results that need that say so.

The parser is proved on buffers that spell a list of tokens, each followed by a blank
(`spell`). On such a buffer `gettoken` reads the tokens back one at a time, and `peek` sees the
first character of the next one.
-/

namespace Xv6.Sh

def NUL : Char := Char.ofNat 0

/-- `whitespace`, that is `" \t\r\n\v"`. -/
def whitespace : List Char := [' ', '\t', '\r', '\n', '\x0b']

/-- `symbols`, that is `"<|>&;()"`. -/
def symbols : List Char := ['<', '|', '>', '&', ';', '(', ')']

/-- `strchr(s, c)` (`ulib.c`) is not null: `c` is one of the characters before the NUL that
ends `s`. -/
def strchr (s : List Char) (c : Char) : Bool := s.contains c

/-- `*s`: the character at `s`, and the NUL at and past the end. -/
def chr (buf : List Char) (s : ℕ) : Char := buf.getD s NUL

/-- `while(s < es && strchr(whitespace, *s)) s++;` -/
def skipws (buf : List Char) (s : ℕ) : ℕ :=
  s + ((buf.drop s).takeWhile (strchr whitespace)).length

/-- A character a word goes on over: `!strchr(whitespace, c) && !strchr(symbols, c)`. -/
def wordChar (c : Char) : Bool := !strchr whitespace c && !strchr symbols c

/-- `while(s < es && !strchr(whitespace, *s) && !strchr(symbols, *s)) s++;` -/
def wordEnd (buf : List Char) (s : ℕ) : ℕ := s + ((buf.drop s).takeWhile wordChar).length

/-- What `gettoken(ps, es, &q, &eq)` returns and writes: the token's kind `ret` (`'a'` for a
word, `'+'` for `>>`, `0` at the end), where it starts and ends (`*q`, `*eq`), and where the
next token may start (`*ps`). -/
structure Token where
  ret : Char
  q : ℕ
  eq : ℕ
  ps : ℕ

/-- `gettoken`. -/
def gettoken (buf : List Char) (ps : ℕ) : Token :=
  let s := skipws buf ps
  let c := chr buf s
  -- `switch(*s)`
  let (ret, e) : Char × ℕ :=
    if c = NUL then (c, s)
    else if c ∈ ['|', '(', ')', ';', '&', '<'] then (c, s + 1)
    else if c = '>' then if chr buf (s + 1) = '>' then ('+', s + 2) else ('>', s + 1)
    else ('a', wordEnd buf s)
  ⟨ret, s, e, skipws buf e⟩

/-- `peek(ps, es, toks)`: whether the next character is one of `toks`, and the pointer moved
past the blanks before it. -/
def peek (buf : List Char) (ps : ℕ) (toks : List Char) : Bool × ℕ :=
  let s := skipws buf ps
  (decide (chr buf s ≠ NUL) && strchr toks (chr buf s), s)

/-! ## The characters under a pointer -/

section Chr

variable {buf cs : List Char} {s : ℕ} {c d : Char}

lemma chr_of_drop (h : buf.drop s = c :: cs) : chr buf s = c := by
  have := congrArg (·[0]?) h
  simp only [List.getElem?_drop, Nat.add_zero, List.getElem?_cons_zero] at this
  simp [chr, List.getD_eq_getElem?_getD, this]

lemma chr_succ_of_drop (h : buf.drop s = c :: d :: cs) : chr buf (s + 1) = d := by
  have h' : buf.drop (s + 1) = d :: cs := by
    rw [← List.drop_drop, h]
    rfl
  exact chr_of_drop h'

lemma chr_of_drop_nil (h : buf.drop s = []) : chr buf s = NUL := by
  have : buf.length ≤ s := List.drop_eq_nil_iff.1 h
  simp [chr, List.getD_eq_getElem?_getD, List.getElem?_eq_none this]

lemma chr_eq_getElem (hs : s < buf.length) : chr buf s = buf[s] := by
  simp [chr, List.getD_eq_getElem?_getD, List.getElem?_eq_getElem hs]

lemma drop_succ_of_drop (h : buf.drop s = c :: cs) : buf.drop (s + 1) = cs := by
  rw [← List.drop_drop, h]
  rfl

end Chr

/-! ## Skipping blanks -/

section Skip

variable {buf : List Char} {s : ℕ}

lemma le_skipws (buf : List Char) (s : ℕ) : s ≤ skipws buf s := Nat.le_add_right _ _

lemma skipws_le_length (hs : s ≤ buf.length) : skipws buf s ≤ buf.length := by
  have := (List.takeWhile_sublist (strchr whitespace) (l := buf.drop s)).length_le
  rw [List.length_drop] at this
  unfold skipws
  omega

lemma chr_skipws (buf : List Char) (s : ℕ) :
    skipws buf s = buf.length ∨ buf.length < s ∨
      (skipws buf s < buf.length ∧ strchr whitespace (chr buf (skipws buf s)) = false) := by
  rcases Nat.lt_or_ge buf.length s with hlt | hle
  · exact .inr (.inl hlt)
  obtain ⟨l₁, l₂, hl, htake, hrest⟩ : ∃ l₁ l₂, buf.drop s = l₁ ++ l₂ ∧
      (buf.drop s).takeWhile (strchr whitespace) = l₁ ∧ l₂ = (buf.drop s).dropWhile (strchr whitespace) :=
    ⟨_, _, List.takeWhile_append_dropWhile.symm, rfl, rfl⟩
  have hdrop : buf.drop (skipws buf s) = l₂ := by
    rw [skipws, htake, ← List.drop_drop, hl, List.drop_left]
  cases l₂ with
  | nil =>
    left
    have := congrArg List.length hdrop
    rw [List.length_drop, List.length_nil] at this
    have := skipws_le_length hle
    omega
  | cons c cs =>
    refine .inr (.inr ⟨?_, ?_⟩)
    · have := congrArg List.length hdrop
      rw [List.length_drop, List.length_cons] at this
      omega
    · rw [chr_of_drop hdrop]
      have hne : (buf.drop s).dropWhile (strchr whitespace) ≠ [] := by
        rw [← hrest]
        exact List.cons_ne_nil c cs
      have := List.head_dropWhile_not (strchr whitespace) hne
      simp only [← hrest, List.head_cons] at this
      simpa using this

lemma skipws_of_drop (h : buf.drop s = c :: cs) (hc : strchr whitespace c = false) :
    skipws buf s = s := by
  simp [skipws, h, hc]

lemma skipws_of_drop_nil (h : buf.drop s = []) : skipws buf s = s := by
  simp [skipws, h]

lemma skipws_skipws (buf : List Char) (s : ℕ) : skipws buf (skipws buf s) = skipws buf s := by
  rcases chr_skipws buf s with h | h | ⟨hlt, hc⟩
  · exact skipws_of_drop_nil (List.drop_eq_nil_iff.2 h.ge)
  · have : skipws buf s = s := by
      simp [skipws, List.drop_eq_nil_iff.2 h.le]
    rw [this]
    exact skipws_of_drop_nil (List.drop_eq_nil_iff.2 h.le)
  · obtain ⟨c, cs, hd⟩ : ∃ c cs, buf.drop (skipws buf s) = c :: cs :=
      List.exists_cons_of_ne_nil (by simp [List.drop_eq_nil_iff]; omega)
    rw [chr_of_drop hd] at hc
    exact skipws_of_drop hd hc

end Skip

/-! ## Scans

`skipws` and `wordEnd` are both a scan `s + ((buf.drop s).takeWhile p).length`: it passes
characters that satisfy `p` and stops at the end or at one that does not. -/

section Scan

variable (p : Char → Bool) {buf : List Char} {s : ℕ}

lemma scan_le_length (hs : s ≤ buf.length) : s + ((buf.drop s).takeWhile p).length ≤ buf.length := by
  have := (List.takeWhile_sublist p (l := buf.drop s)).length_le
  rw [List.length_drop] at this
  omega

lemma scan_all {k : ℕ} (hs : s ≤ k) (hk : k < s + ((buf.drop s).takeWhile p).length) :
    p (chr buf k) = true := by
  obtain ⟨t, ht⟩ := List.takeWhile_prefix p (l := buf.drop s)
  have hk' : k - s < ((buf.drop s).takeWhile p).length := by omega
  have h₁ : buf[k]? = ((buf.drop s).takeWhile p)[k - s]? := by
    rw [← List.getElem?_append_left hk', ht, List.getElem?_drop]
    congr 1
    omega
  obtain ⟨x, hx⟩ : ∃ x, ((buf.drop s).takeWhile p)[k - s]? = some x :=
    ⟨_, List.getElem?_eq_getElem hk'⟩
  have hchr : chr buf k = x := by simp [chr, List.getD_eq_getElem?_getD, h₁, hx]
  rw [hchr]
  exact List.mem_takeWhile_imp (List.mem_of_getElem? hx)

lemma scan_stop (hlt : s + ((buf.drop s).takeWhile p).length < buf.length) :
    p (chr buf (s + ((buf.drop s).takeWhile p).length)) = false := by
  have hdrop : buf.drop (s + ((buf.drop s).takeWhile p).length) = (buf.drop s).dropWhile p := by
    rw [← List.drop_drop]
    generalize buf.drop s = l
    conv_lhs => arg 2; rw [← List.takeWhile_append_dropWhile (p := p) (l := l)]
    exact List.drop_left
  have hne : (buf.drop s).dropWhile p ≠ [] := by
    rw [← hdrop]
    simp [List.drop_eq_nil_iff]
    omega
  obtain ⟨c, cs, hc⟩ := List.exists_cons_of_ne_nil hne
  have := List.head_dropWhile_not p hne
  simp only [hc, List.head_cons] at this
  rw [chr_of_drop (hdrop.trans hc)]
  exact this

end Scan

section Word

variable {buf : List Char} {s : ℕ}

lemma wordChar_of_white {c : Char} (h : strchr whitespace c = true) : wordChar c = false := by
  simp [wordChar, h]

lemma chr_lt_length (h : chr buf s ≠ NUL) : s < buf.length := by
  by_contra hle
  exact h (chr_of_drop_nil (List.drop_eq_nil_iff.2 (not_lt.1 hle)))

lemma chr_lt_length_of_mem {cs : List Char} (h : chr buf s ∈ cs) (hcs : NUL ∉ cs) :
    s < buf.length :=
  chr_lt_length fun h0 => hcs (h0 ▸ h)

lemma wordEnd_le_length (hs : s ≤ buf.length) : wordEnd buf s ≤ buf.length :=
  scan_le_length wordChar hs

lemma wordChar_of_lt_wordEnd {k : ℕ} (hs : s ≤ k) (hk : k < wordEnd buf s) :
    wordChar (chr buf k) = true :=
  scan_all wordChar hs hk

lemma wordChar_wordEnd (hlt : wordEnd buf s < buf.length) :
    wordChar (chr buf (wordEnd buf s)) = false :=
  scan_stop wordChar hlt

lemma lt_wordEnd (h : wordChar (chr buf s) = true) (hlt : s < buf.length) : s < wordEnd buf s := by
  obtain ⟨c, cs, hc⟩ := List.exists_cons_of_ne_nil
    (show buf.drop s ≠ [] by simp [List.drop_eq_nil_iff]; omega)
  rw [chr_of_drop hc] at h
  simp [wordEnd, hc, h]

end Word

/-- A word of the line: characters `[q, eq)` that a word goes on over, after the start of the
line or a character that ends words, and before the end of the line or a character that ends
words. -/
def WordAt (buf : List Char) (q eq : ℕ) : Prop :=
  q < eq ∧ eq ≤ buf.length ∧ (∀ k, q ≤ k → k < eq → wordChar (chr buf k) = true) ∧
    (0 < q → wordChar (chr buf (q - 1)) = false) ∧ (eq < buf.length → wordChar (chr buf eq) = false)

/-! ## What `gettoken` can return -/

section Gettoken

variable {buf : List Char} {ps : ℕ}

/-- **The cases of `gettoken`**: past the blanks at `s`, the end; a symbol of one character;
`>>`; `>`; or a word up to `wordEnd`. -/
lemma gettoken_cases (buf : List Char) (ps : ℕ) :
    ∃ r e, gettoken buf ps = ⟨r, skipws buf ps, e, skipws buf e⟩ ∧
      ((chr buf (skipws buf ps) = NUL ∧ r = NUL ∧ e = skipws buf ps) ∨
       (chr buf (skipws buf ps) ∈ ['|', '(', ')', ';', '&', '<'] ∧ r = chr buf (skipws buf ps) ∧
          e = skipws buf ps + 1) ∨
       (chr buf (skipws buf ps) = '>' ∧ chr buf (skipws buf ps + 1) = '>' ∧ r = '+' ∧
          e = skipws buf ps + 2) ∨
       (chr buf (skipws buf ps) = '>' ∧ chr buf (skipws buf ps + 1) ≠ '>' ∧ r = '>' ∧
          e = skipws buf ps + 1) ∨
       (chr buf (skipws buf ps) ≠ NUL ∧ chr buf (skipws buf ps) ∉ ['|', '(', ')', ';', '&', '<'] ∧
          chr buf (skipws buf ps) ≠ '>' ∧ r = 'a' ∧ e = wordEnd buf (skipws buf ps))) := by
  unfold gettoken
  dsimp only
  split_ifs with h₁ h₂ h₃ h₄
  · exact ⟨_, _, rfl, .inl ⟨h₁, h₁, rfl⟩⟩
  · exact ⟨_, _, rfl, .inr (.inl ⟨h₂, rfl, rfl⟩)⟩
  · exact ⟨_, _, rfl, .inr (.inr (.inl ⟨h₃, h₄, rfl, rfl⟩))⟩
  · exact ⟨_, _, rfl, .inr (.inr (.inr (.inl ⟨h₃, h₄, rfl, rfl⟩)))⟩
  · exact ⟨_, _, rfl, .inr (.inr (.inr (.inr ⟨h₁, h₂, h₃, rfl, rfl⟩)))⟩

/-- A word's first character is one `skipws` stopped at and the switch sent to its default. -/
lemma wordChar_of_default {c : Char} (hsym : c ∉ ['|', '(', ')', ';', '&', '<'])
    (hgt : c ≠ '>') (hw : strchr whitespace c = false) : wordChar c = true := by
  have hmem : c ∈ symbols ↔ c ∈ ['|', '(', ')', ';', '&', '<'] ∨ c = '>' := by
    simp only [symbols, List.mem_cons, List.not_mem_nil, or_false]
    tauto
  have hnot : strchr symbols c = false := by simpa [strchr] using fun h => (hmem.1 h).elim hsym hgt
  simp [wordChar, hw, hnot]

lemma wordChar_of_switch {c : Char} (h : c ∈ ['|', '(', ')', ';', '&', '<']) : wordChar c = false := by
  simp only [List.mem_cons, List.not_mem_nil, or_false] at h
  rcases h with rfl | rfl | rfl | rfl | rfl | rfl <;> decide

lemma not_white_skipws (h : chr buf (skipws buf ps) ≠ NUL) :
    strchr whitespace (chr buf (skipws buf ps)) = false := by
  rcases chr_skipws buf ps with he | hlt | ⟨-, hw⟩
  · rw [he, chr_of_drop_nil (List.drop_eq_nil_iff.2 le_rfl)] at h
    exact absurd rfl h
  · have : skipws buf ps = ps := by simp [skipws, List.drop_eq_nil_iff.2 hlt.le]
    rw [this, chr_of_drop_nil (List.drop_eq_nil_iff.2 hlt.le)] at h
    exact absurd rfl h
  · exact hw

/-- **`gettoken` moves forward and stays in the line**, and a token that is not the end is
not empty. -/
lemma gettoken_bounds (hps : ps ≤ buf.length) :
    ps ≤ (gettoken buf ps).q ∧ (gettoken buf ps).q ≤ (gettoken buf ps).eq ∧
      (gettoken buf ps).eq ≤ (gettoken buf ps).ps ∧ (gettoken buf ps).ps ≤ buf.length ∧
      ((gettoken buf ps).ret ≠ NUL → (gettoken buf ps).q < (gettoken buf ps).eq) := by
  have hs : skipws buf ps ≤ buf.length := skipws_le_length hps
  obtain ⟨r, e, hg, hcase⟩ := gettoken_cases buf ps
  -- every case ends the token within the line
  have he : skipws buf ps ≤ e ∧ e ≤ buf.length ∧ (r ≠ NUL → skipws buf ps < e) := by
    rcases hcase with ⟨-, rfl, rfl⟩ | ⟨hc, -, rfl⟩ | ⟨hc, hc₁, -, rfl⟩ | ⟨hc, -, -, rfl⟩ |
        ⟨hne, hsym, hgt, -, rfl⟩
    · exact ⟨le_rfl, hs, fun h => absurd rfl h⟩
    · have := chr_lt_length_of_mem hc (by decide)
      exact ⟨by omega, by omega, fun _ => by omega⟩
    · have := chr_lt_length_of_mem (List.mem_singleton.2 hc₁) (by decide)
      exact ⟨by omega, by omega, fun _ => by omega⟩
    · have := chr_lt_length_of_mem (List.mem_singleton.2 hc) (by decide)
      exact ⟨by omega, by omega, fun _ => by omega⟩
    · have hw := wordChar_of_default hsym hgt (not_white_skipws hne)
      have hlt := lt_wordEnd hw (chr_lt_length hne)
      exact ⟨hlt.le, wordEnd_le_length hs, fun _ => hlt⟩
  rw [hg]
  exact ⟨le_skipws buf ps, he.1, le_skipws buf e, skipws_le_length he.2.1, he.2.2⟩

/-! ### Where tokens start

The parser calls `gettoken` only at the start of the line and where `peek` and `gettoken` left
the pointer. No word runs across such a pointer, so a word `gettoken` finds there starts at the
start of the line or after a character that ends words. -/

/-- A pointer no word runs across: the start of the line, a pointer after a character that
ends words, or one at such a character or at a NUL. -/
def TokStart (buf : List Char) (i : ℕ) : Prop :=
  i = 0 ∨ wordChar (chr buf (i - 1)) = false ∨ wordChar (chr buf i) = false ∨ chr buf i = NUL

lemma tokStart_zero (buf : List Char) : TokStart buf 0 := .inl rfl

lemma tokStart_skipws (h : TokStart buf ps) : TokStart buf (skipws buf ps) := by
  rcases (le_skipws buf ps).eq_or_lt with heq | hlt
  · rw [← heq]
    exact h
  · have hk : skipws buf ps - 1 < ps + ((buf.drop ps).takeWhile (strchr whitespace)).length := by
      unfold skipws at hlt ⊢
      omega
    exact .inr (.inl (wordChar_of_white (scan_all _ (by omega) hk)))

lemma tokStart_gettoken (buf : List Char) (ps : ℕ) : TokStart buf (gettoken buf ps).ps := by
  obtain ⟨r, e, hg, hcase⟩ := gettoken_cases buf ps
  rw [hg]
  apply tokStart_skipws
  -- the token ends at `e`
  rcases hcase with ⟨hc, -, rfl⟩ | ⟨hc, -, rfl⟩ | ⟨-, hc₁, -, rfl⟩ | ⟨hc, -, -, rfl⟩ |
      ⟨-, -, -, -, rfl⟩
  · exact .inr (.inr (.inr hc))
  · refine .inr (.inl ?_)
    rw [Nat.add_sub_cancel]
    exact wordChar_of_switch hc
  · refine .inr (.inl ?_)
    rw [show skipws buf ps + 2 - 1 = skipws buf ps + 1 by omega, hc₁]
    decide
  · refine .inr (.inl ?_)
    rw [Nat.add_sub_cancel, hc]
    decide
  · rcases Nat.lt_or_ge (wordEnd buf (skipws buf ps)) buf.length with hlt | hge
    · exact .inr (.inr (.inl (wordChar_wordEnd hlt)))
    · exact .inr (.inr (.inr (chr_of_drop_nil (List.drop_eq_nil_iff.2 hge))))

/-- A token `gettoken` calls a word, read where no word runs across, is a word of the line. -/
lemma gettoken_word (hps : TokStart buf ps) (h : (gettoken buf ps).ret = 'a') :
    WordAt buf (gettoken buf ps).q (gettoken buf ps).eq := by
  obtain ⟨r, e, hg, hcase⟩ := gettoken_cases buf ps
  rw [hg] at h ⊢
  dsimp only at h ⊢
  rcases hcase with ⟨-, rfl, -⟩ | ⟨hc, rfl, -⟩ | ⟨-, -, rfl, -⟩ | ⟨-, -, rfl, -⟩ |
      ⟨hne, hsym, hgt, -, rfl⟩
  · simp [NUL] at h
  · rw [h] at hc
    simp at hc
  · simp at h
  · simp at h
  · have hw := wordChar_of_default hsym hgt (not_white_skipws hne)
    have hlt : skipws buf ps < buf.length := chr_lt_length hne
    -- the word's first character is not where a word ran across `skipws buf ps`
    have hleft : 0 < skipws buf ps → wordChar (chr buf (skipws buf ps - 1)) = false := by
      intro hpos
      rcases tokStart_skipws hps with h0 | hprev | hcur | hnul
      · omega
      · exact hprev
      · rw [hw] at hcur
        cases hcur
      · exact absurd hnul hne
    exact ⟨lt_wordEnd hw hlt, wordEnd_le_length hlt.le, fun k hk hk' => wordChar_of_lt_wordEnd hk hk',
      hleft, wordChar_wordEnd⟩

lemma peek_eq (buf : List Char) (ps : ℕ) (toks : List Char) :
    peek buf ps toks = ((peek buf ps toks).1, skipws buf ps) := rfl

lemma peek_hit {toks : List Char} (h : (peek buf ps toks).1 = true) :
    chr buf (skipws buf ps) ≠ NUL ∧ chr buf (skipws buf ps) ∈ toks := by
  simp only [peek, Bool.and_eq_true, decide_eq_true_eq] at h
  refine ⟨h.1, ?_⟩
  simpa [strchr] using h.2

lemma gettoken_after_hit {toks : List Char} (hps : ps ≤ buf.length)
    (h : (peek buf ps toks).1 = true) :
    skipws buf ps < (gettoken buf (skipws buf ps)).ps ∧ (gettoken buf (skipws buf ps)).ps ≤ buf.length := by
  have hne := (peek_hit h).1
  have hs := skipws_le_length hps
  obtain ⟨h₁, h₂, h₃, h₄, h₅⟩ := gettoken_bounds hs
  have hret : (gettoken buf (skipws buf ps)).ret ≠ NUL := by
    obtain ⟨r, e, hg, hcase⟩ := gettoken_cases buf (skipws buf ps)
    rw [skipws_skipws] at hcase
    rw [hg]
    rcases hcase with ⟨h0, -, -⟩ | ⟨hc, rfl, -⟩ | ⟨-, -, rfl, -⟩ | ⟨-, -, rfl, -⟩ | ⟨-, -, -, rfl, -⟩
    · exact absurd h0 hne
    · exact hne
    all_goals simp [NUL]
  exact ⟨by have := h₅ hret; omega, h₄⟩

end Gettoken

/-! ## Tokens spelled into a buffer -/

/-- A token of the shell's grammar: a word, or a symbol (`'+'` stands for `>>`). -/
inductive Tok
  | word (w : List Char)
  | sym (c : Char)
  deriving DecidableEq

namespace Tok

def chars : Tok → List Char
  | .word w => w
  | .sym c => if c = '+' then ['>', '>'] else [c]

def code : Tok → Char
  | .word _ => 'a'
  | .sym c => c

@[simp] lemma chars_word (w : List Char) : (word w).chars = w := rfl

@[simp] lemma code_word (w : List Char) : (word w).code = 'a' := rfl

@[simp] lemma code_sym (c : Char) : (sym c).code = c := rfl

/-- A token `gettoken` reads whole: a word of word characters of a C string (none of them the
NUL), or one of the symbols. -/
def Good : Tok → Prop
  | .word w => w ≠ [] ∧ ∀ c ∈ w, c ≠ NUL ∧ wordChar c = true
  | .sym c => c ∈ ['|', '(', ')', ';', '&', '<', '>', '+']

instance : DecidablePred Good := fun t =>
  match t with
  | .word w => decidable_of_iff (w ≠ [] ∧ w.all (fun c => decide (c ≠ NUL) && wordChar c) = true)
      (by simp [Good])
  | .sym c => inferInstanceAs (Decidable (c ∈ ['|', '(', ')', ';', '&', '<', '>', '+']))

def lead (t : Tok) : Char := t.chars.headD NUL

lemma lead_ne_nul {t : Tok} (ht : t.Good) : t.lead ≠ NUL := by
  cases t with
  | word w =>
    obtain ⟨hne, hw⟩ := ht
    obtain ⟨c, cs, rfl⟩ := List.exists_cons_of_ne_nil hne
    exact (hw c List.mem_cons_self).1
  | sym c =>
    simp only [Good, List.mem_cons, List.not_mem_nil, or_false] at ht
    rcases ht with rfl | rfl | rfl | rfl | rfl | rfl | rfl | rfl <;> decide

lemma lead_not_white {t : Tok} (ht : t.Good) : strchr whitespace t.lead = false := by
  cases t with
  | word w =>
    obtain ⟨hne, hw⟩ := ht
    obtain ⟨c, cs, rfl⟩ := List.exists_cons_of_ne_nil hne
    have := (hw c List.mem_cons_self).2
    simp only [lead, chars, List.headD_cons]
    simp only [wordChar, Bool.and_eq_true, Bool.not_eq_eq_eq_not, Bool.not_true] at this
    exact this.1
  | sym c =>
    simp only [Good, List.mem_cons, List.not_mem_nil, or_false] at ht
    rcases ht with rfl | rfl | rfl | rfl | rfl | rfl | rfl | rfl <;> decide

lemma chars_eq_cons {t : Tok} (ht : t.Good) : ∃ cs, t.chars = t.lead :: cs := by
  cases t with
  | word w =>
    obtain ⟨c, cs, rfl⟩ := List.exists_cons_of_ne_nil ht.1
    exact ⟨cs, rfl⟩
  | sym c =>
    by_cases hc : c = '+'
    · subst hc
      exact ⟨['>'], rfl⟩
    · exact ⟨[], by simp [lead, chars, hc]⟩

lemma nul_not_mem_chars {t : Tok} (ht : t.Good) : NUL ∉ t.chars := by
  cases t with
  | word w => exact fun h => (ht.2 NUL h).1 rfl
  | sym c =>
    simp only [Good, List.mem_cons, List.not_mem_nil, or_false] at ht
    rcases ht with rfl | rfl | rfl | rfl | rfl | rfl | rfl | rfl <;> decide

end Tok

/-- The tokens `ts` written one after another, each followed by a blank. -/
def spell (ts : List Tok) : List Char := ts.flatMap fun t => t.chars ++ [' ']

@[simp] lemma spell_nil : spell [] = [] := rfl

@[simp] lemma spell_cons (t : Tok) (ts : List Tok) :
    spell (t :: ts) = t.chars ++ ' ' :: spell ts := by
  simp [spell]

@[simp] lemma spell_append (ts ts' : List Tok) : spell (ts ++ ts') = spell ts ++ spell ts' := by
  simp [spell]

/-- Spelled tokens make a C string: no NUL stands among them. -/
lemma nul_not_mem_spell {ts : List Tok} (hts : ∀ t ∈ ts, t.Good) : NUL ∉ spell ts := by
  induction ts with
  | nil => simp
  | cons t ts ih =>
    rw [spell_cons, List.mem_append, List.mem_cons]
    rintro (h | h | h)
    · exact Tok.nul_not_mem_chars (hts t List.mem_cons_self) h
    · exact absurd h (by decide)
    · exact ih (fun t' ht' => hts t' (List.mem_cons_of_mem _ ht')) h

section Spelled

variable {buf : List Char} {i : ℕ} {t : Tok} {ts : List Tok}

lemma drop_spell (h : buf.drop i = spell (t :: ts)) :
    buf.drop (i + t.chars.length + 1) = spell ts := by
  rw [← List.drop_drop, ← List.drop_drop, h, spell_cons, List.drop_left]
  rfl

lemma chr_spell (h : buf.drop i = spell (t :: ts)) (ht : t.Good) : chr buf i = t.lead := by
  obtain ⟨cs, hcs⟩ := Tok.chars_eq_cons ht
  rw [spell_cons, hcs] at h
  exact chr_of_drop h

lemma skipws_spell (h : buf.drop i = spell (t :: ts)) (ht : t.Good) : skipws buf i = i := by
  obtain ⟨cs, hcs⟩ := Tok.chars_eq_cons ht
  rw [spell_cons, hcs, List.cons_append] at h
  exact skipws_of_drop h (Tok.lead_not_white ht)

lemma skipws_blank (h : buf.drop i = ' ' :: spell ts) (hts : ∀ t ∈ ts, t.Good) :
    skipws buf i = i + 1 := by
  have h₁ : buf.drop (i + 1) = spell ts := drop_succ_of_drop h
  have hi : skipws buf i = i + 1 + ((buf.drop (i + 1)).takeWhile (strchr whitespace)).length := by
    simp only [skipws, h, List.takeWhile_cons, h₁]
    have : strchr whitespace ' ' = true := by decide
    simp only [this, if_true, List.length_cons]
    omega
  rw [hi, h₁]
  cases ts with
  | nil => rfl
  | cons t ts =>
    have ht := hts t List.mem_cons_self
    obtain ⟨cs, hcs⟩ := Tok.chars_eq_cons ht
    simp [hcs, Tok.lead_not_white ht]

lemma peek_spell (h : buf.drop i = spell (t :: ts)) (ht : t.Good) (toks : List Char) :
    peek buf i toks = (toks.contains t.lead, i) := by
  simp [peek, skipws_spell h ht, chr_spell h ht, Tok.lead_ne_nul ht, strchr]

lemma peek_end (h : buf.drop i = []) (toks : List Char) : peek buf i toks = (false, i) := by
  simp [peek, skipws_of_drop_nil h, chr_of_drop_nil h]

lemma gettoken_end (h : buf.drop i = []) : gettoken buf i = ⟨NUL, i, i, i⟩ := by
  simp [gettoken, skipws_of_drop_nil h, chr_of_drop_nil h]

lemma wordEnd_spell {w : List Char} (h : buf.drop i = spell (.word w :: ts))
    (hw : ∀ c ∈ w, wordChar c = true) : wordEnd buf i = i + w.length := by
  have hb : wordChar ' ' = false := by decide
  simp only [spell_cons, Tok.chars] at h
  simp [wordEnd, h, List.takeWhile_append_of_pos hw, hb]

/-- **`gettoken` reads a spelled token whole**, and leaves the pointer at the next one. -/
lemma gettoken_spell (h : buf.drop i = spell (t :: ts)) (ht : t.Good) (hts : ∀ t ∈ ts, t.Good) :
    gettoken buf i = ⟨t.code, i, i + t.chars.length, i + t.chars.length + 1⟩ := by
  have hs := skipws_spell h ht
  have hc := chr_spell h ht
  -- the blank after the token, then the next token
  have hblank : buf.drop (i + t.chars.length) = ' ' :: spell ts := by
    rw [← List.drop_drop, h, spell_cons, List.drop_left]
  have hnext := skipws_blank hblank hts
  cases t with
  | word w =>
    obtain ⟨hne, hw⟩ := ht
    obtain ⟨c, cs, rfl⟩ := List.exists_cons_of_ne_nil hne
    obtain ⟨hne, hwc⟩ := hw c List.mem_cons_self
    have hcl : Tok.lead (.word (c :: cs)) = c := rfl
    rw [hcl] at hc
    have hsym : c ∉ ['|', '(', ')', ';', '&', '<'] := fun hm => by
      simp only [List.mem_cons, List.not_mem_nil, or_false] at hm
      rcases hm with rfl | rfl | rfl | rfl | rfl | rfl <;> simp [wordChar] at hwc <;> contradiction
    have hgt : c ≠ '>' := by
      rintro rfl
      simp [wordChar] at hwc
      contradiction
    simp only [gettoken, hs, hc, hne, hsym, hgt, if_false, wordEnd_spell h (fun c hc => (hw c hc).2), Tok.code,
      Tok.chars] at hnext ⊢
    rw [hnext]
  | sym c =>
    have hmem : c ∈ ['|', '(', ')', ';', '&', '<'] ∨ c = '>' ∨ c = '+' := by
      simp only [Tok.Good, List.mem_cons, List.not_mem_nil, or_false] at ht ⊢
      tauto
    rcases hmem with hone | rfl | rfl
    · -- a symbol of one character
      have hc₀ : c ≠ NUL ∧ c ≠ '>' ∧ c ≠ '+' := by
        simp only [List.mem_cons, List.not_mem_nil, or_false] at hone
        rcases hone with rfl | rfl | rfl | rfl | rfl | rfl <;> decide
      simp only [Tok.lead, Tok.chars, hc₀.2.2, if_false, List.headD_cons, List.length_singleton]
        at hc hnext
      simp [gettoken, hs, hc, hc₀.1, hone, Tok.code, Tok.chars, hc₀.2.2, hnext]
    · -- `>`, with the blank after it
      have hc₁ : chr buf (i + 1) = ' ' := by
        simp only [spell_cons, Tok.chars] at h
        exact chr_succ_of_drop (by simpa using h)
      simp +decide [Tok.lead, Tok.chars] at hc hnext
      simp +decide [gettoken, hs, hc, hc₁, Tok.code, Tok.chars, hnext]
    · -- `>>`
      have hc₁ : chr buf (i + 1) = '>' := by
        simp only [spell_cons, Tok.chars] at h
        exact chr_succ_of_drop (by simpa using h)
      simp +decide [Tok.lead, Tok.chars] at hc hnext
      simp +decide [gettoken, hs, hc, hc₁, Tok.code, Tok.chars, hnext]

end Spelled

end Xv6.Sh
