import Xv6.Printint
import Xv6.Lib.Word

/-!
`vprintf` of the user's `printf.c`: the format interpreter behind `printf` and `fprintf`.

`vprintf` walks the format one character at a time in two states. In state `0` a character is
printed as it is and a `%` moves to state `'%'`; there the character after the `%` decides,
with up to two more characters of look-ahead, which conversion it is, and the conversion takes
the next argument. An argument is the 64-bit slot `va_arg` reads, cut to the type the
conversion names; the string of `%s` is read at the address the argument holds (`mem`).
`%%` prints a `%`, and a `%` followed by a character that starts no conversion is printed
with it.

A format is meant as a list of directives (`Piece`): characters to print, conversions, `%%`,
and unknown `%c`s. Printed as text (`spell`), a list of directives whose characters are not
`%` and whose unknown characters start no conversion is read back by `vprintf` directive by
directive (`vprintf_spell`): each conversion takes exactly one argument, in order; any further
arguments are never read; with too few, `va_arg` runs off the end (`none`); and a `%` that
ends the format prints nothing.
-/

namespace Xv6.Printf

open Xv6.Printint Xv6.Lib.Word

def NUL : Char := Char.ofNat 0

/-- The loop of `printptr`: each turn prints `digits[x >> 60]` and shifts `x` left by four
bits, in `uint64`. -/
def ptrDigits : ℕ → ℕ → List Char
  | 0, _ => []
  | k + 1, x => udigits.getD (x / 2 ^ 60) ' ' :: ptrDigits k (x * 16 % 2 ^ 64)

def printptr (x : ℕ) : List Char := '0' :: 'x' :: ptrDigits 16 (x % 2 ^ 64)

/-- The conversions of `vprintf`. -/
inductive Conv
  | d | ld | lld | u | lu | llu | x | lx | llx | p | c | s
  deriving DecidableEq, Repr

/-- What a conversion prints of the argument slot `a`: `va_arg` of the type it names, passed to
`printint`'s `long long` (a `uint64` wraps to a negative one from `2^63`), `printptr`, `putc`'s
`char`, or the characters of the string at address `a`, `(null)` for a null pointer. -/
def Conv.print (mem : ℕ → List Char) : Conv → ℕ → List Char
  | .d, a => User.printint (toSigned 31 a) 10 true
  | .ld, a | .lld, a => User.printint (toSigned 63 a) 10 true
  | .u, a => User.printint (a % 2 ^ 32 : ℕ) 10 false
  | .lu, a | .llu, a => User.printint (toSigned 63 a) 10 false
  | .x, a => User.printint (a % 2 ^ 32 : ℕ) 16 false
  | .lx, a | .llx, a => User.printint (toSigned 63 a) 16 false
  | .p, a => printptr a
  | .c, a => [Char.ofNat (a % 2 ^ 32 % 256)]
  | .s, a => if a = 0 then "(null)".toList else mem a

/-- The chain of tests of state `'%'` on `c0` and the two characters after it: the conversion,
and how many characters after `c0` it takes (`i += 1`, `i += 2`); `none` for `%%` and for a
character that starts no conversion. -/
def convOf (c0 c1 c2 : Char) : Option (Conv × ℕ) :=
  if c0 = 'd' then some (.d, 0)
  else if c0 = 'l' ∧ c1 = 'd' then some (.ld, 1)
  else if c0 = 'l' ∧ c1 = 'l' ∧ c2 = 'd' then some (.lld, 2)
  else if c0 = 'u' then some (.u, 0)
  else if c0 = 'l' ∧ c1 = 'u' then some (.lu, 1)
  else if c0 = 'l' ∧ c1 = 'l' ∧ c2 = 'u' then some (.llu, 2)
  else if c0 = 'x' then some (.x, 0)
  else if c0 = 'l' ∧ c1 = 'x' then some (.lx, 1)
  else if c0 = 'l' ∧ c1 = 'l' ∧ c2 = 'x' then some (.llx, 2)
  else if c0 = 'p' then some (.p, 0)
  else if c0 = 'c' then some (.c, 0)
  else if c0 = 's' then some (.s, 0)
  else none

/-- The loop of `vprintf(fd, fmt, ap)` from `fmt[i]` on, in state `'%'` (`pct`) or `0`: the
characters it writes to `fd`, or `none` when a conversion finds no argument left. The format
ends at its end or at a `NUL`; `c1` and `c2` are read only up to it. -/
def vprintfLoop (mem : ℕ → List Char) (pct : Bool) (fmt : List Char) (args : List ℕ) :
    Option (List Char) :=
  match fmt with
  | [] => some []
  | c0 :: fmt =>
    if c0 = NUL then some []
    else if pct = false then
      if c0 = '%' then vprintfLoop mem true fmt args
      else (c0 :: ·) <$> vprintfLoop mem false fmt args
    else
      let c1 := fmt.headD NUL
      let c2 := if c1 = NUL then NUL else (fmt.drop 1).headD NUL
      match convOf c0 c1 c2 with
      | some (k, skip) =>
        match args with
        | [] => none
        | a :: args => (k.print mem a ++ ·) <$> vprintfLoop mem false (fmt.drop skip) args
      | none =>
        -- `%%`, or an unknown `%` sequence printed to draw attention
        ((if c0 = '%' then ['%'] else ['%', c0]) ++ ·) <$> vprintfLoop mem false fmt args
termination_by fmt.length
decreasing_by all_goals simp only [List.length_drop, List.length_cons]; omega

def vprintf (mem : ℕ → List Char) (fmt : List Char) (args : List ℕ) : Option (List Char) :=
  vprintfLoop mem false fmt args

/-! ## Formats as directives -/

/-- A directive of a format: a character printed as it is, a conversion, `%%`, or `%` and a
character that starts no conversion. -/
inductive Piece
  | lit (c : Char)
  | conv (k : Conv)
  | percent
  | unknown (c : Char)
  deriving DecidableEq

def Conv.spell : Conv → List Char
  | .d => ['d'] | .ld => ['l', 'd'] | .lld => ['l', 'l', 'd']
  | .u => ['u'] | .lu => ['l', 'u'] | .llu => ['l', 'l', 'u']
  | .x => ['x'] | .lx => ['l', 'x'] | .llx => ['l', 'l', 'x']
  | .p => ['p'] | .c => ['c'] | .s => ['s']

def Piece.spell : Piece → List Char
  | .lit c => [c]
  | .conv k => '%' :: k.spell
  | .percent => ['%', '%']
  | .unknown c => ['%', c]

def spell (ps : List Piece) : List Char := ps.flatMap Piece.spell

def convStarts : List Char := ['d', 'l', 'u', 'x', 'p', 'c', 's', '%']

/-- A directive that reads back as itself: a printed character is no `%`, an unknown one
begins no conversion, and neither ends the string. -/
def Piece.Good : Piece → Prop
  | .lit c => c ≠ '%' ∧ c ≠ NUL
  | .conv _ => True
  | .percent => True
  | .unknown c => c ∉ convStarts ∧ c ≠ NUL

instance : DecidablePred Piece.Good := fun p =>
  match p with
  | .lit c => inferInstanceAs (Decidable (c ≠ '%' ∧ c ≠ NUL))
  | .conv _ => inferInstanceAs (Decidable True)
  | .percent => inferInstanceAs (Decidable True)
  | .unknown c => inferInstanceAs (Decidable (c ∉ convStarts ∧ c ≠ NUL))

def Piece.run (mem : ℕ → List Char) : Piece → List ℕ → Option (List Char × List ℕ)
  | .lit c, args => some ([c], args)
  | .conv _, [] => none
  | .conv k, a :: args => some (k.print mem a, args)
  | .percent, args => some (['%'], args)
  | .unknown c, args => some (['%', c], args)

def runAll (mem : ℕ → List Char) : List Piece → List ℕ → Option (List Char × List ℕ)
  | [], args => some ([], args)
  | p :: ps, args =>
    (p.run mem args).bind fun r => (runAll mem ps r.2).map fun r' => (r.1 ++ r'.1, r'.2)

/-- What a format means: the characters its directives print, the conversions taking the
arguments in order. -/
def render (mem : ℕ → List Char) (ps : List Piece) (args : List ℕ) : Option (List Char) :=
  (runAll mem ps args).map Prod.fst

def convCount (ps : List Piece) : ℕ := ps.countP fun p => p matches .conv _

/-! ## The loop, one directive at a time -/

section Loop

variable (mem : ℕ → List Char)

lemma loop_nil (pct : Bool) (args : List ℕ) : vprintfLoop mem pct [] args = some [] := by
  rw [vprintfLoop]

lemma loop_lit {c : Char} (hn : c ≠ NUL) (hp : c ≠ '%') (fmt : List Char) (args : List ℕ) :
    vprintfLoop mem false (c :: fmt) args = (c :: ·) <$> vprintfLoop mem false fmt args := by
  rw [vprintfLoop]
  simp [hn, hp]

lemma loop_pct (fmt : List Char) (args : List ℕ) :
    vprintfLoop mem false ('%' :: fmt) args = vprintfLoop mem true fmt args := by
  rw [vprintfLoop]
  simp [NUL]

lemma loop_conv {c0 : Char} (hn : c0 ≠ NUL) {fmt : List Char} {k : Conv} {skip : ℕ}
    (h : convOf c0 (fmt.headD NUL)
      (if fmt.headD NUL = NUL then NUL else (fmt.drop 1).headD NUL) = some (k, skip))
    (a : ℕ) (args : List ℕ) :
    vprintfLoop mem true (c0 :: fmt) (a :: args) =
      (k.print mem a ++ ·) <$> vprintfLoop mem false (fmt.drop skip) args := by
  rw [vprintfLoop]
  simp only [hn, if_false, Bool.true_eq_false]
  rw [h]

lemma loop_conv_none {c0 : Char} (hn : c0 ≠ NUL) {fmt : List Char} {k : Conv} {skip : ℕ}
    (h : convOf c0 (fmt.headD NUL)
      (if fmt.headD NUL = NUL then NUL else (fmt.drop 1).headD NUL) = some (k, skip)) :
    vprintfLoop mem true (c0 :: fmt) [] = none := by
  rw [vprintfLoop]
  simp only [hn, if_false, Bool.true_eq_false]
  rw [h]

lemma loop_other {c0 : Char} (hn : c0 ≠ NUL) {fmt : List Char}
    (h : convOf c0 (fmt.headD NUL)
      (if fmt.headD NUL = NUL then NUL else (fmt.drop 1).headD NUL) = none)
    (args : List ℕ) :
    vprintfLoop mem true (c0 :: fmt) args =
      ((if c0 = '%' then ['%'] else ['%', c0]) ++ ·) <$> vprintfLoop mem false fmt args := by
  rw [vprintfLoop]
  simp only [hn, if_false, Bool.true_eq_false]
  rw [h]

lemma convOf_spell (k : Conv) (rest : List Char) :
    convOf (k.spell.headD NUL) ((k.spell.tail ++ rest).headD NUL)
      (if (k.spell.tail ++ rest).headD NUL = NUL then NUL
        else ((k.spell.tail ++ rest).drop 1).headD NUL) = some (k, k.spell.length - 1) := by
  cases k <;> simp [Conv.spell, convOf, NUL]

lemma convOf_of_not_mem {c0 : Char} (h : c0 ∉ convStarts) (c1 c2 : Char) :
    convOf c0 c1 c2 = none := by
  simp only [convStarts, List.mem_cons, List.not_mem_nil, or_false, not_or] at h
  obtain ⟨hd, hl, hu, hx, hp, hc, hs, -⟩ := h
  simp [convOf, hd, hl, hu, hx, hp, hc, hs]

/-- **One directive at a time**: a directive that reads back as itself, followed by any
format, prints as the directive does and leaves the loop at the rest of the format. -/
lemma loop_piece {p : Piece} (hp : p.Good) (rest : List Char) (args : List ℕ) :
    vprintfLoop mem false (p.spell ++ rest) args =
      (p.run mem args).bind fun r => (r.1 ++ ·) <$> vprintfLoop mem false rest r.2 := by
  cases p with
  | lit c =>
    obtain ⟨hp, hn⟩ := hp
    simp [Piece.spell, Piece.run, loop_lit mem hn hp]
  | percent =>
    simp only [Piece.spell, Piece.run, List.cons_append, loop_pct]
    rw [loop_other mem (by simp [NUL]) (by simp [convOf])]
    simp
  | unknown c =>
    obtain ⟨hs, hn⟩ := hp
    have hne : c ≠ '%' := fun e => hs (by simp [e, convStarts])
    simp only [Piece.spell, Piece.run, List.cons_append, loop_pct]
    rw [loop_other mem hn (convOf_of_not_mem hs _ _)]
    simp [hne]
  | conv k =>
    -- the conversion's letters, then what follows them
    have hsp : k.spell = k.spell.headD NUL :: k.spell.tail := by cases k <;> rfl
    have hn : k.spell.headD NUL ≠ NUL := by cases k <;> simp [Conv.spell, NUL]
    have hdrop : (k.spell.tail ++ rest).drop (k.spell.length - 1) = rest := by
      cases k <;> simp [Conv.spell]
    simp only [Piece.spell, List.cons_append, loop_pct]
    rw [hsp, List.cons_append]
    cases args with
    | nil =>
      rw [loop_conv_none mem hn (convOf_spell k rest)]
      rfl
    | cons a args =>
      rw [loop_conv mem hn (convOf_spell k rest), hdrop]
      rfl

lemma loop_spell {ps : List Piece} (hps : ∀ p ∈ ps, p.Good) (rest : List Char)
    (args : List ℕ) :
    vprintfLoop mem false (spell ps ++ rest) args =
      (runAll mem ps args).bind fun r => (r.1 ++ ·) <$> vprintfLoop mem false rest r.2 := by
  induction ps generalizing args with
  | nil => simp [spell, runAll]
  | cons p ps ih =>
    have hp := hps p List.mem_cons_self
    have ih' := ih fun q hq => hps q (List.mem_cons_of_mem p hq)
    rw [spell, List.flatMap_cons, List.append_assoc, ← spell, loop_piece mem hp, runAll]
    cases hr : p.run mem args with
    | none => rfl
    | some r =>
      simp only [Option.bind_some, ih' r.2]
      cases runAll mem ps r.2 with
      | none => rfl
      | some v => simp [List.append_assoc, Function.comp_def]

lemma vprintf_eq_render {ps : List Piece} (hps : ∀ p ∈ ps, p.Good) (args : List ℕ) :
    vprintf mem (spell ps) args = render mem ps args := by
  have h := loop_spell mem hps [] args
  rw [List.append_nil] at h
  rw [vprintf, h, render]
  cases runAll mem ps args <;> simp [loop_nil]

end Loop

/-! ## The arguments a format reads -/

section Args

variable (mem : ℕ → List Char)

/-- **Each conversion takes one argument**: the directives print when there are as many
arguments as conversions, and leave the arguments after those. -/
lemma runAll_isSome_iff (ps : List Piece) (args : List ℕ) :
    (runAll mem ps args).isSome ↔ convCount ps ≤ args.length := by
  induction ps generalizing args with
  | nil => simp [runAll, convCount]
  | cons p ps ih =>
    cases p with
    | conv k =>
      cases args with
      | nil => simp [runAll, Piece.run, convCount]
      | cons a args =>
        have := ih args
        simp only [convCount, List.countP_cons] at this ⊢
        simp [runAll, Piece.run, Option.isSome_map, this]
    | lit c | percent | unknown c =>
      have := ih args
      simp only [convCount, List.countP_cons] at this ⊢
      simp [runAll, Piece.run, Option.isSome_map, this]

/-- **Arguments past the conversions are never read.** -/
lemma runAll_append (ps : List Piece) {args : List ℕ} (h : convCount ps ≤ args.length)
    (more : List ℕ) :
    runAll mem ps (args ++ more) = (runAll mem ps args).map fun r => (r.1, r.2 ++ more) := by
  induction ps generalizing args with
  | nil => simp [runAll]
  | cons p ps ih =>
    cases p with
    | conv k =>
      cases args with
      | nil => simp [convCount] at h
      | cons a args =>
        have h' : convCount ps ≤ args.length := by
          simp only [convCount, List.countP_cons, List.length_cons] at h ⊢
          simp at h
          omega
        simp only [runAll, Piece.run, List.cons_append, Option.bind_some, ih h']
        cases runAll mem ps args <;> rfl
    | lit c | percent | unknown c =>
      have h' : convCount ps ≤ args.length := by
        simpa [convCount, List.countP_cons] using h
      simp only [runAll, Piece.run, Option.bind_some, ih h']
      cases runAll mem ps args <;> rfl

end Args

/-! ## What `vprintf` prints -/

/-- **`vprintf` reads a format directive by directive.** For a format written from directives
whose printed characters are not `%` and whose unknown characters begin no conversion,
`vprintf` prints what the directives mean, each conversion taking the next argument; and a
`%` left at the end of the format prints nothing. -/
theorem vprintf_spell (mem : ℕ → List Char) {ps : List Piece} (hps : ∀ p ∈ ps, p.Good)
    (args : List ℕ) :
    vprintf mem (spell ps) args = render mem ps args ∧
      vprintf mem (spell ps ++ ['%']) args = render mem ps args := by
  refine ⟨vprintf_eq_render mem hps args, ?_⟩
  rw [vprintf, loop_spell mem hps, render]
  cases runAll mem ps args <;> simp [loop_pct, loop_nil]

theorem vprintf_spell_wc :
    (∀ p ∈ [Piece.conv .d, .lit ' ', .conv .s, .lit '\n'], p.Good) ∧
      vprintf (fun _ => ['w', 'c']) (spell [.conv .d, .lit ' ', .conv .s, .lit '\n']) [7, 1] =
        render (fun _ => ['w', 'c']) [.conv .d, .lit ' ', .conv .s, .lit '\n'] [7, 1] ∧
      vprintf (fun _ => ['w', 'c']) (spell [.conv .d, .lit ' ', .conv .s, .lit '\n'] ++ ['%'])
          [7, 1] =
        render (fun _ => ['w', 'c']) [.conv .d, .lit ' ', .conv .s, .lit '\n'] [7, 1] :=
  ⟨by decide, vprintf_spell _ (by decide) _⟩

/-- **`vprintf` reads one argument per conversion, and no more.** For such a format, `vprintf`
runs to the end exactly when there are at least as many arguments as conversions, and
arguments past those change nothing. -/
theorem vprintf_args (mem : ℕ → List Char) {ps : List Piece} (hps : ∀ p ∈ ps, p.Good)
    (args more : List ℕ) :
    ((vprintf mem (spell ps) args).isSome ↔ convCount ps ≤ args.length) ∧
      (convCount ps ≤ args.length →
        vprintf mem (spell ps) (args ++ more) = vprintf mem (spell ps) args) := by
  rw [vprintf_eq_render mem hps, vprintf_eq_render mem hps, render, render, Option.isSome_map]
  refine ⟨runAll_isSome_iff mem ps args, fun h => ?_⟩
  rw [runAll_append mem ps h more]
  cases runAll mem ps args <;> rfl

theorem vprintf_args_wc :
    (∀ p ∈ [Piece.conv .d, .lit ' ', .conv .s, .lit '\n'], p.Good) ∧
      ((vprintf (fun _ => ['w', 'c']) (spell [.conv .d, .lit ' ', .conv .s, .lit '\n'])
          [7]).isSome ↔ convCount [.conv .d, .lit ' ', .conv .s, .lit '\n'] ≤ [7].length) ∧
      (convCount [.conv .d, .lit ' ', .conv .s, .lit '\n'] ≤ [7].length →
        vprintf (fun _ => ['w', 'c']) (spell [.conv .d, .lit ' ', .conv .s, .lit '\n'])
            ([7] ++ [1]) =
          vprintf (fun _ => ['w', 'c']) (spell [.conv .d, .lit ' ', .conv .s, .lit '\n']) [7]) :=
  ⟨by decide, vprintf_args _ (by decide) _ _⟩

end Xv6.Printf
