import Mathlib

/-!
The regular-expression matcher of `grep.c` (`match`, `matchhere`, `matchstar`), over C strings
read as lists of characters: the list ends where the string has its `NUL`.

A pattern is a sequence of atoms (`parse`): a literal character, `.` for any character,
`c*` for zero or more of the one-character atom `c`, and `$` for the end of the text when it is
the last character of the pattern; a `*` that follows no atom, and a `$` or `^` anywhere else,
is a literal. `Derives as s r` says that the atoms `as` read a prefix of `s` and leave `r`.
`matchhere` finds such a prefix (`matchhere_iff`) and `match` finds one in some suffix of the
text, or at its start after `^` (`match_iff`). The mutual recursion of `matchhere` and
`matchstar` terminates on every input: each call shortens the pattern, or keeps it and
shortens the text.
-/

namespace Xv6.Grep.Regex

/-! ### The matcher -/

mutual

/-- `matchhere(re, text)`: whether `re` matches at the beginning of `text`. -/
def matchhere : List Char → List Char → Bool
  | [], _ => true
  | c :: '*' :: re, text => matchstar c re text
  | ['$'], text => text.isEmpty
  | c :: re, t :: text => (c == '.' || c == t) && matchhere re text
  | _ :: _, [] => false
termination_by re text => (re.length, text.length)

/-- `matchstar(c, re, text)`: whether `c*re` matches at the beginning of `text`, trying zero
repetitions first, then one more while the next character is a `c`. -/
def matchstar (c : Char) (re : List Char) : List Char → Bool
  | [] => matchhere re []
  | t :: rest => matchhere re (t :: rest) || ((t == c || c == '.') && matchstar c re rest)
termination_by text => (re.length + 1, text.length)

end

/-- The loop of `match` over the suffixes of `text`, the empty one last. -/
def matchFrom (re : List Char) : List Char → Bool
  | [] => matchhere re []
  | t :: rest => matchhere re (t :: rest) || matchFrom re rest

/-- `match(re, text)`: whether `re` matches somewhere in `text`; after `^`, at its start. -/
def «match» : List Char → List Char → Bool
  | '^' :: re, text => matchhere re text
  | re, text => matchFrom re text

/-! ### One lemma per case of `matchhere` -/

section Cases

variable {c t : Char} {re text : List Char}

@[simp] lemma matchhere_nil (text : List Char) : matchhere [] text = true := matchhere.eq_1 text

lemma matchhere_star (c : Char) (re text : List Char) :
    matchhere (c :: '*' :: re) text = matchstar c re text := matchhere.eq_2 text c re

lemma matchhere_dollar (text : List Char) : matchhere ['$'] text = text.isEmpty :=
  matchhere.eq_3 text

/-- An atom that is neither starred nor a final `$` reads one character. -/
lemma matchhere_one (hs : ∀ re', re ≠ '*' :: re') (hd : ¬(c = '$' ∧ re = [])) :
    matchhere (c :: re) (t :: text) = ((c == '.' || c == t) && matchhere re text) :=
  matchhere.eq_4 c re t text hs fun h₁ h₂ => hd ⟨h₁, h₂⟩

lemma matchhere_one_nil (hs : ∀ re', re ≠ '*' :: re') (hd : ¬(c = '$' ∧ re = [])) :
    matchhere (c :: re) [] = false :=
  matchhere.eq_5 c re hs fun h₁ h₂ => hd ⟨h₁, h₂⟩

lemma matchstar_nil (c : Char) (re : List Char) : matchstar c re [] = matchhere re [] :=
  matchstar.eq_1 c re

lemma matchstar_cons (c t : Char) (re rest : List Char) :
    matchstar c re (t :: rest) =
      (matchhere re (t :: rest) || (t == c || c == '.') && matchstar c re rest) :=
  matchstar.eq_2 c re t rest

end Cases

/-! ### The patterns the matcher reads -/

/-- An atom that reads one character: a literal, or `.`. -/
inductive Single where
  | lit (c : Char)
  | any
  deriving DecidableEq, Repr

/-- Whether a one-character atom reads the character `t`. -/
def Single.ok : Single → Char → Bool
  | .lit c, t => c == t
  | .any, _ => true

/-- An atom of a pattern. -/
inductive Atom where
  | one (a : Single)
  | star (a : Single)
  | eol
  deriving DecidableEq, Repr

/-- The one-character atom a pattern character stands for. -/
def single (c : Char) : Single := if c = '.' then .any else .lit c

/-- The atoms of a pattern: `c*` for a character followed by `*`, `$` as the last character for
the end of the text, and every other character one atom. -/
def parse : List Char → List Atom
  | [] => []
  | c :: '*' :: re => .star (single c) :: parse re
  | ['$'] => [.eol]
  | c :: re => .one (single c) :: parse re

lemma parse_star (c : Char) (re : List Char) :
    parse (c :: '*' :: re) = .star (single c) :: parse re := parse.eq_2 c re

lemma parse_one {c : Char} {re : List Char} (hs : ∀ re', re ≠ '*' :: re')
    (hd : ¬(c = '$' ∧ re = [])) : parse (c :: re) = .one (single c) :: parse re :=
  parse.eq_4 c re hs fun h₁ h₂ => hd ⟨h₁, h₂⟩

lemma single_ok (c t : Char) : (single c).ok t = (c == '.' || c == t) := by
  unfold single Single.ok
  by_cases h : c = '.' <;> simp [h]

/-- **What a sequence of atoms reads**: `Derives as s r` when the atoms `as` read a prefix of
`s` and leave `r`; `eol` reads nothing, at the end of the text. -/
inductive Derives : List Atom → List Char → List Char → Prop
  | nil (s : List Char) : Derives [] s s
  | one {a : Single} {as : List Atom} {t : Char} {s r : List Char} :
      a.ok t → Derives as s r → Derives (.one a :: as) (t :: s) r
  | starNil {a : Single} {as : List Atom} {s r : List Char} :
      Derives as s r → Derives (.star a :: as) s r
  | starCons {a : Single} {as : List Atom} {t : Char} {s r : List Char} :
      a.ok t → Derives (.star a :: as) s r → Derives (.star a :: as) (t :: s) r
  | eol : Derives [.eol] [] []

section Derives

variable {a : Single} {as : List Atom} {t : Char} {s r : List Char}

lemma derives_nil_iff : Derives [] s r ↔ r = s := by
  constructor
  · intro h
    cases h
    rfl
  · rintro rfl
    exact .nil _

lemma derives_one_cons_iff :
    Derives (.one a :: as) (t :: s) r ↔ a.ok t ∧ Derives as s r := by
  constructor
  · intro h
    cases h with
    | one ha hd => exact ⟨ha, hd⟩
  · rintro ⟨ha, hd⟩
    exact .one ha hd

lemma not_derives_one_nil : ¬Derives (.one a :: as) [] r := by
  intro h
  cases h

/-- A starred atom reads nothing, or one character it accepts and then again the starred atom. -/
lemma derives_star_iff : Derives (.star a :: as) s r ↔
    Derives as s r ∨ ∃ t s', s = t :: s' ∧ a.ok t ∧ Derives (.star a :: as) s' r := by
  constructor
  · intro h
    cases h with
    | starNil hd => exact .inl hd
    | starCons ha hd => exact .inr ⟨_, _, rfl, ha, hd⟩
  · rintro (hd | ⟨t, s', rfl, ha, hd⟩)
    · exact .starNil hd
    · exact .starCons ha hd

lemma derives_eol_iff : Derives [.eol] s r ↔ s = [] ∧ r = [] := by
  constructor
  · intro h
    cases h with
    | eol => exact ⟨rfl, rfl⟩
  · rintro ⟨rfl, rfl⟩
    exact .eol

end Derives

/-! ### Correctness -/

/-- `matchstar`'s test of the next character is the starred atom's. -/
lemma star_ok (c t : Char) : (t == c || c == '.') = (single c).ok t := by
  rw [single_ok, Bool.or_comm]
  congr 1
  by_cases h : t = c
  · rw [h]
  · rw [beq_eq_false_iff_ne.2 h, beq_eq_false_iff_ne.2 (Ne.symm h)]

/-- **`matchstar` reads `c*re`**, given that `matchhere` reads `re`: by induction on the text,
each round either matches `re` here or takes one more `c`. -/
lemma matchstar_iff {c : Char} {re : List Char}
    (hre : ∀ text, matchhere re text = true ↔ ∃ r, Derives (parse re) text r) :
    ∀ text, matchstar c re text = true ↔ ∃ r, Derives (.star (single c) :: parse re) text r := by
  intro text
  induction text with
  | nil =>
    rw [matchstar_nil, hre]
    constructor
    · rintro ⟨r, h⟩
      exact ⟨r, .starNil h⟩
    · rintro ⟨r, h⟩
      rcases derives_star_iff.1 h with h | ⟨t, s', he, -, -⟩
      · exact ⟨r, h⟩
      · cases he
  | cons t rest ih =>
    rw [matchstar_cons, Bool.or_eq_true, hre, Bool.and_eq_true, ih, star_ok]
    constructor
    · rintro (⟨r, h⟩ | ⟨hok, r, h⟩)
      · exact ⟨r, .starNil h⟩
      · exact ⟨r, .starCons hok h⟩
    · rintro ⟨r, h⟩
      rcases derives_star_iff.1 h with h | ⟨t', s', he, hok, h⟩
      · exact .inl ⟨r, h⟩
      · obtain ⟨rfl, rfl⟩ := List.cons.inj he
        exact .inr ⟨hok, r, h⟩

/-- **`matchhere` reads the atoms of the pattern**: it returns `1` exactly when the atoms of
`re` read a prefix of `text`. By induction on the length of the pattern, one case per case of
`matchhere`. -/
theorem matchhere_iff : (re : List Char) →
    ∀ text, matchhere re text = true ↔ ∃ r, Derives (parse re) text r
  | [] => fun text => by simp [parse, derives_nil_iff]
  | c :: re => fun text => by
    by_cases hs : ∃ re', re = '*' :: re'
    · obtain ⟨re', rfl⟩ := hs
      rw [matchhere_star, parse_star]
      exact matchstar_iff (matchhere_iff re') text
    push Not at hs
    by_cases hd : c = '$' ∧ re = []
    · obtain ⟨rfl, rfl⟩ := hd
      rw [matchhere_dollar, show parse ['$'] = [.eol] by rw [parse]]
      cases text <;> simp [derives_eol_iff]
    cases text with
    | nil =>
      rw [matchhere_one_nil hs hd, parse_one hs hd]
      simp [not_derives_one_nil]
    | cons t text =>
      rw [matchhere_one hs hd, parse_one hs hd, Bool.and_eq_true, matchhere_iff re text]
      simp only [derives_one_cons_iff, single_ok]
      constructor
      · rintro ⟨hok, r, hr⟩
        exact ⟨r, hok, hr⟩
      · rintro ⟨r, hok, hr⟩
        exact ⟨hok, r, hr⟩
termination_by re => re.length

/-- **What `match` looks for**: after a leading `^`, a prefix of the text that the rest of the
pattern reads; otherwise such a prefix of some suffix of the text, the empty one included. -/
def Searches : List Char → List Char → Prop
  | '^' :: re, text => ∃ r, Derives (parse re) text r
  | re, text => ∃ s, s <:+ text ∧ ∃ r, Derives (parse re) s r

/-- The loop of `match` tries every suffix of the text. -/
lemma matchFrom_iff (re : List Char) :
    ∀ text, matchFrom re text = true ↔ ∃ s, s <:+ text ∧ ∃ r, Derives (parse re) s r := by
  intro text
  induction text with
  | nil =>
    rw [matchFrom, matchhere_iff]
    simp only [List.suffix_nil, exists_eq_left]
  | cons t rest ih =>
    rw [matchFrom, Bool.or_eq_true, matchhere_iff, ih]
    simp only [List.suffix_cons_iff]
    constructor
    · rintro (hd | ⟨s, hs, hd⟩)
      · exact ⟨_, .inl rfl, hd⟩
      · exact ⟨s, .inr hs, hd⟩
    · rintro ⟨s, rfl | hs, hd⟩
      · exact .inl hd
      · exact .inr ⟨s, hs, hd⟩

/-- **`match` matches its grammar**: for every pattern and text, `match` returns `1` exactly
when a suffix of the text (the text itself after `^`) has a prefix that the atoms of the
pattern read. -/
theorem match_iff (re text : List Char) : «match» re text = true ↔ Searches re text := by
  by_cases ha : ∃ re', re = '^' :: re'
  · obtain ⟨re', rfl⟩ := ha
    rw [«match», Searches]
    exact matchhere_iff re' text
  · push Not at ha
    rw [«match».eq_2 re text ha, Searches.eq_2 re text ha]
    exact matchFrom_iff re text

end Xv6.Grep.Regex
