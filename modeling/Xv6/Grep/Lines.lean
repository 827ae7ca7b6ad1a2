import Xv6.Grep.Regex

/-!
`grep(pattern, fd)` of `grep.c`: the loop that reads its input into `buf[1024]` and prints
every line `match` accepts, with `strchr` of `ulib.c`.

The input is the list of bytes `fd` delivers. How many bytes each `read` returns is the
environment's choice, at least one until the input ends: at most `chunk pos + 1` for the read
that starts at byte `pos`. `buf` carries the bytes of a partial line from one read to the next.
What `grep` should print is every newline-terminated line of the input that `match` accepts,
with its newline, in order (`joinLines`). It does so for every chunking as long as each line is
shorter than `1023` bytes and holds no NUL (`grep_eq_matching`). A line of `1023` bytes or more
fills `buf`; the next `read` asks for no byte, returns `0`, and `grep` stops without printing
anything (`grepLoop_of_long_line`).
-/

namespace Xv6.Grep

open Regex

/-! ### The model -/

/-- `strchr(s, c)` of `ulib.c`: the index of the first `c` of the C string `s`, which ends at
its first NUL, or at the end of the list. -/
def strchr : List Char → Char → Option ℕ
  | [], _ => none
  | x :: s, c => if x = '\x00' then none else if x = c then some 0 else (strchr s c).map (· + 1)

lemma strchr_lt {s : List Char} {c : Char} {i : ℕ} (h : strchr s c = some i) : i < s.length := by
  induction s generalizing i with
  | nil => cases h
  | cons x s ih =>
    rw [strchr] at h
    split_ifs at h with h0 hc
    · cases h
      simp
    · obtain ⟨j, hj, rfl⟩ := Option.map_eq_some_iff.1 h
      have := ih hj
      simp only [List.length_cons]
      omega

/-- The inner loop of `grep`: while `strchr(p, '\n')` finds a newline `q`, the line from `p` to
`q` is given to `match` and, when it matches, written with its newline; then `p = q+1`.
Returns what was written and the bytes from the last `p` to the end of `buf`. -/
def scan (re : List Char) (p : List Char) : List Char × List Char :=
  match h : strchr p '\n' with
  | none => ([], p)
  | some i =>
    -- `*q = 0` ends the line for `match`; `*q = '\n'` puts the newline back for `write`
    let r := scan re (p.drop (i + 1))
    ((if «match» re (p.take i) then p.take i ++ ['\n'] else []) ++ r.1, r.2)
termination_by p.length
decreasing_by
  have := strchr_lt h
  rw [List.length_drop]
  omega

/-- The outer loop of `grep`, with `buf` holding the `m` bytes carried over and `input` the bytes
`fd` has still to deliver, `pos` of them delivered already. `read(fd, buf+m, sizeof(buf)-m-1)`
returns the next `min (1023 - m) (chunk pos + 1)` bytes, fewer at the end of the input; the loop
ends when it returns `0`. After the inner loop, `m -= p - buf; memmove(buf, p, m)` keeps the
bytes from `p` on. -/
def grepLoop (re : List Char) (chunk : ℕ → ℕ) (pos : ℕ) (buf input : List Char) : List Char :=
  let got := input.take (min (1024 - buf.length - 1) (chunk pos + 1))
  if h : got = [] then []
  else
    let r := scan re (buf ++ got)
    r.1 ++ grepLoop re chunk (pos + got.length) r.2 (input.drop got.length)
termination_by input.length
decreasing_by
  have hpos := List.length_pos_of_ne_nil h
  have hle : got.length ≤ input.length := List.length_take_le' _ _
  change (input.drop got.length).length < input.length
  rw [List.length_drop]
  omega

/-- What `grep(pattern, fd)` writes to `1` when `fd` delivers `input` in the chunks `chunk`
allows. -/
def grep (re : List Char) (chunk : ℕ → ℕ) (input : List Char) : List Char :=
  grepLoop re chunk 0 [] input

def joinLines (ls : List (List Char)) : List Char := ls.flatMap (· ++ ['\n'])

@[simp] lemma joinLines_nil : joinLines [] = [] := rfl

@[simp] lemma joinLines_cons (l : List Char) (ls : List (List Char)) :
    joinLines (l :: ls) = l ++ '\n' :: joinLines ls := by
  simp [joinLines]

lemma joinLines_append (ls ls' : List (List Char)) :
    joinLines (ls ++ ls') = joinLines ls ++ joinLines ls' := by
  simp [joinLines]

lemma take_append_drop_length {α : Type*} (l : List α) (k : ℕ) :
    l.take k ++ l.drop (l.take k).length = l := by
  rw [List.length_take]
  rcases le_total k l.length with h | h
  · rw [min_eq_left h, List.take_append_drop]
  · rw [min_eq_right h, List.take_of_length_le h, List.drop_length, List.append_nil]

/-! ### `strchr` and the inner loop -/

section Scan

variable {re l s p : List Char}

lemma strchr_of_not_mem {c : Char} (h : c ∉ s) : strchr s c = none := by
  induction s with
  | nil => rfl
  | cons x s ih =>
    rw [List.mem_cons, not_or] at h
    rw [strchr, if_neg (Ne.symm h.1), ih h.2]
    split_ifs <;> rfl

lemma strchr_line (hn : '\n' ∉ l) (h0 : '\x00' ∉ l) (s : List Char) :
    strchr (l ++ '\n' :: s) '\n' = some l.length := by
  induction l with
  | nil => rfl
  | cons x l ih =>
    rw [List.mem_cons, not_or] at hn h0
    rw [List.cons_append, strchr, if_neg (Ne.symm h0.1), if_neg (Ne.symm hn.1), ih hn.2 h0.2]
    rfl

lemma scan_of_not_mem (h : '\n' ∉ p) : scan re p = ([], p) := by
  rw [scan]
  split
  · rfl
  · rename_i i hi
    rw [strchr_of_not_mem h] at hi
    cases hi

lemma scan_line (hn : '\n' ∉ l) (h0 : '\x00' ∉ l) (s : List Char) :
    scan re (l ++ '\n' :: s) =
      ((if «match» re l then l ++ ['\n'] else []) ++ (scan re s).1, (scan re s).2) := by
  rw [scan]
  split
  · rename_i hi
    rw [strchr_line hn h0] at hi
    cases hi
  · rename_i i hi
    rw [strchr_line hn h0, Option.some.injEq] at hi
    subst hi
    have hd : (l ++ '\n' :: s).drop (l.length + 1) = s := by
      rw [← List.singleton_append, ← List.append_assoc, List.drop_left' (by simp)]
    rw [List.take_left' rfl, hd]

/-- **The inner loop prints the matching complete lines of `buf`** and keeps the partial line
after them. -/
lemma scan_joinLines {ls : List (List Char)} (hls : ∀ l ∈ ls, '\n' ∉ l ∧ '\x00' ∉ l)
    {part : List Char} (hpart : '\n' ∉ part) :
    scan re (joinLines ls ++ part) = (joinLines (ls.filter («match» re)), part) := by
  induction ls with
  | nil => exact scan_of_not_mem hpart
  | cons l ls ih =>
    obtain ⟨hn, h0⟩ := hls l List.mem_cons_self
    rw [joinLines_cons, List.append_assoc, List.cons_append, scan_line hn h0,
      ih fun l' hl' => hls l' (List.mem_cons_of_mem _ hl')]
    by_cases hm : «match» re l = true
    · simp [hm]
    · simp [hm]

end Scan

/-! ### Lines across reads -/

section Split

variable {l buf input : List Char} {ls : List (List Char)} {rest : List Char}

lemma length_le_of_prefix (hbuf : '\n' ∉ buf) (h : buf ++ input = l ++ '\n' :: rest) :
    buf.length ≤ l.length := by
  rcases List.append_eq_append_iff.1 h with ⟨a', rfl, -⟩ | ⟨c', rfl, hc⟩
  · simp
  · cases c' with
    | nil => simp
    | cons x c' =>
      rw [List.cons_append, List.cons.injEq] at hc
      exact absurd (List.mem_append_right l (hc.1 ▸ List.mem_cons_self)) hbuf

/-- **Where a read leaves `buf` in the lines**: bytes from a line boundary up to any point of the
input are some whole lines and then a part of the next line, or of the unterminated rest. -/
lemma split_lines (hls : ∀ l ∈ ls, '\n' ∉ l) (hrest : '\n' ∉ rest) :
    ∀ x y : List Char, x ++ y = joinLines ls ++ rest → ∃ ls₁ ls₂ part, ls = ls₁ ++ ls₂ ∧
      x = joinLines ls₁ ++ part ∧ '\n' ∉ part ∧ part ++ y = joinLines ls₂ ++ rest := by
  induction ls with
  | nil =>
    intro x y h
    refine ⟨[], [], x, rfl, rfl, fun hx => hrest ?_, h⟩
    rw [joinLines_nil, List.nil_append] at h
    exact h ▸ List.mem_append_left y hx
  | cons l ls ih =>
    intro x y h
    have hl := hls l List.mem_cons_self
    rw [joinLines_cons, List.append_assoc, List.cons_append] at h
    rcases List.append_eq_append_iff.1 h with ⟨a', hla, hy⟩ | ⟨c', hx, hc⟩
    · -- `x` ends inside the first line
      refine ⟨[], l :: ls, x, rfl, rfl, fun hn => hl (hla ▸ List.mem_append_left a' hn), ?_⟩
      rw [hy, ← List.append_assoc, ← hla, joinLines_cons, List.append_assoc, List.cons_append]
    · cases c' with
      | nil =>
        rw [List.append_nil] at hx
        refine ⟨[], l :: ls, x, rfl, rfl, hx ▸ hl, ?_⟩
        rw [List.nil_append] at hc
        rw [hx, ← hc, joinLines_cons, List.append_assoc, List.cons_append]
      | cons z c' =>
        -- `x` takes the whole first line and its newline
        rw [List.cons_append, List.cons.injEq] at hc
        obtain ⟨rfl, hc⟩ := hc
        obtain ⟨ls₁, ls₂, part, rfl, hx', hpart, hy⟩ :=
          ih (fun l' hl' => hls l' (List.mem_cons_of_mem _ hl')) c' y hc.symm
        refine ⟨l :: ls₁, ls₂, part, rfl, ?_, hpart, hy⟩
        rw [hx, hx', joinLines_cons, List.append_assoc, List.cons_append]

end Split

/-! ### The outer loop -/

section Loop

variable (re : List Char) (chunk : ℕ → ℕ)

lemma grepLoop_of_take_nil {pos : ℕ} {buf input : List Char}
    (h : input.take (min (1024 - buf.length - 1) (chunk pos + 1)) = []) :
    grepLoop re chunk pos buf input = [] := by
  rw [grepLoop.eq_1, dif_pos h]

lemma grepLoop_of_read {pos : ℕ} {buf input got : List Char}
    (hg : input.take (min (1024 - buf.length - 1) (chunk pos + 1)) = got) (h : got ≠ []) :
    grepLoop re chunk pos buf input =
      (scan re (buf ++ got)).1 ++
        grepLoop re chunk (pos + got.length) (scan re (buf ++ got)).2 (input.drop got.length) := by
  subst hg
  rw [grepLoop.eq_1, dif_neg h]

/-- **The loop prints the matching lines**, for every chunking: from a state where `buf` is a
partial line of at most `1023` bytes and `buf` and the unread input are whole short lines and an
unterminated rest. By induction on the bytes still to be read. -/
theorem grepLoop_lines {rest : List Char} (hrest : '\n' ∉ rest) :
    ∀ (input : List Char) (ls : List (List Char)) (pos : ℕ) (buf : List Char),
      (∀ l ∈ ls, '\n' ∉ l ∧ '\x00' ∉ l ∧ l.length < 1023) → '\n' ∉ buf →
      buf.length ≤ 1023 → buf ++ input = joinLines ls ++ rest →
      grepLoop re chunk pos buf input = joinLines (ls.filter («match» re))
  | input, ls, pos, buf, hls, hbuf, hlen, he => by
    by_cases hgot : input.take (min (1024 - buf.length - 1) (chunk pos + 1)) = []
    · -- the read returned `0`: the input is over, or `buf` is full
      rw [grepLoop_of_take_nil re chunk hgot]
      cases ls with
      | nil => rfl
      | cons l ls =>
        exfalso
        rw [joinLines_cons, List.append_assoc, List.cons_append] at he
        have hl := length_le_of_prefix hbuf he
        have hl' := (hls l List.mem_cons_self).2.2
        rcases List.take_eq_nil_iff.1 hgot with hk | rfl
        · omega
        · rw [List.append_nil] at he
          exact hbuf (he ▸ List.mem_append_right l List.mem_cons_self)
    · obtain ⟨got, hg⟩ : ∃ got, input.take (min (1024 - buf.length - 1) (chunk pos + 1)) = got :=
        ⟨_, rfl⟩
      rw [hg] at hgot
      rw [grepLoop_of_read re chunk hg hgot]
      have hxy : (buf ++ got) ++ input.drop got.length = joinLines ls ++ rest := by
        rw [List.append_assoc, ← hg, take_append_drop_length, he]
      obtain ⟨ls₁, ls₂, part, rfl, hx, hpart, hy⟩ :=
        split_lines (fun l hl => (hls l hl).1) hrest _ _ hxy
      have hls₁ : ∀ l ∈ ls₁, '\n' ∉ l ∧ '\x00' ∉ l :=
        fun l hl => ⟨(hls l (List.mem_append_left _ hl)).1, (hls l (List.mem_append_left _ hl)).2.1⟩
      have hscan : scan re (buf ++ got) = (joinLines (ls₁.filter («match» re)), part) := by
        rw [hx]
        exact scan_joinLines hls₁ hpart
      -- `buf` stays within `1023` bytes: the carried part is at most what the read filled
      have hpart_len : part.length ≤ 1023 := by
        have h1 : (buf ++ got).length = (joinLines ls₁).length + part.length := by
          rw [hx, List.length_append]
        have h2 : got.length ≤ 1024 - buf.length - 1 := by
          rw [← hg, List.length_take]
          omega
        rw [List.length_append] at h1
        omega
      have hlt : (input.drop got.length).length < input.length := by
        have := List.length_pos_of_ne_nil hgot
        have : got.length ≤ input.length := hg ▸ List.length_take_le' _ _
        rw [List.length_drop]
        omega
      rw [hscan, grepLoop_lines hrest (input.drop got.length) ls₂ _ part
        (fun l hl => hls l (List.mem_append_right _ hl)) hpart hpart_len hy,
        List.filter_append, joinLines_append]
termination_by input => input.length
decreasing_by exact hlt

/-- **A line of `1023` bytes stops the loop**: while the first `1023` bytes of `buf` and the
unread input hold no newline, no read completes a line, `buf` fills up, the read after that asks
for no byte, and nothing is printed. By induction on the bytes still to be read. -/
theorem grepLoop_of_long_line :
    ∀ (input : List Char) (pos : ℕ) (buf : List Char), buf.length ≤ 1023 →
      '\n' ∉ (buf ++ input).take 1023 → grepLoop re chunk pos buf input = []
  | input, pos, buf, hlen, hn => by
    by_cases hgot : input.take (min (1024 - buf.length - 1) (chunk pos + 1)) = []
    · exact grepLoop_of_take_nil re chunk hgot
    · obtain ⟨got, hg⟩ : ∃ got, input.take (min (1024 - buf.length - 1) (chunk pos + 1)) = got :=
        ⟨_, rfl⟩
      rw [hg] at hgot
      rw [grepLoop_of_read re chunk hg hgot]
      have hk : got.length ≤ 1024 - buf.length - 1 := by
        rw [← hg, List.length_take]
        omega
      -- `buf` and the bytes read lie within the first `1023` bytes, so they hold no newline
      have hpre : buf ++ got <+: (buf ++ input).take 1023 := by
        have h1 : buf ++ got <+: buf ++ input := by
          rw [← hg]
          exact (List.prefix_append_right_inj _).2 (List.take_prefix _ _)
        rw [List.prefix_iff_eq_take.1 h1]
        exact List.take_prefix_take_left (by rw [List.length_append]; omega)
      have hscan : scan re (buf ++ got) = ([], buf ++ got) :=
        scan_of_not_mem fun h => hn (hpre.mem h)
      have hlt : (input.drop got.length).length < input.length := by
        have := List.length_pos_of_ne_nil hgot
        have : got.length ≤ input.length := hg ▸ List.length_take_le' _ _
        rw [List.length_drop]
        omega
      rw [hscan, List.nil_append]
      refine grepLoop_of_long_line (input.drop got.length) _ (buf ++ got) ?_ ?_
      · rw [List.length_append]
        omega
      · rwa [List.append_assoc, ← hg, take_append_drop_length]
termination_by input => input.length
decreasing_by exact hlt

end Loop

/-! ### What `grep` prints -/

/-- **`grep` prints exactly the matching lines when every line fits `buf`**: for every pattern
and every chunking of the input into reads, an input of lines without NUL, each shorter than
`1023` bytes, and an unterminated rest makes `grep` print the lines `match` accepts, each with its
newline, in order. -/
theorem grep_eq_matching (re : List Char) (chunk : ℕ → ℕ) {ls : List (List Char)}
    {rest : List Char} (hls : ∀ l ∈ ls, '\n' ∉ l ∧ '\x00' ∉ l ∧ l.length < 1023)
    (hrest : '\n' ∉ rest) :
    grep re chunk (joinLines ls ++ rest) = joinLines (ls.filter («match» re)) :=
  grepLoop_lines re chunk hrest _ ls 0 [] hls List.not_mem_nil (by simp) (List.nil_append _)

/-- **`grep` prints nothing after a first line of `1023` bytes**, whatever the pattern, the
chunking and the lines that follow. -/
theorem grep_of_long_line (re : List Char) (chunk : ℕ → ℕ) {input : List Char}
    (h : '\n' ∉ input.take 1023) : grep re chunk input = [] :=
  grepLoop_of_long_line re chunk input 0 [] (by simp) (by rwa [List.nil_append])

lemma match_lit {c : Char} (hdot : c ≠ '.') (hd : c ≠ '$') (hc : c ≠ '^') (text : List Char) :
    «match» [c] text = text.contains c := by
  rw [«match».eq_2 [c] text fun re' h => hc (List.cons.inj h).1]
  have hs : ∀ re' : List Char, [] ≠ '*' :: re' := fun re' => (List.cons_ne_nil _ re').symm
  induction text with
  | nil => rw [matchFrom, matchhere_one_nil hs fun h => hd h.1, List.contains_nil]
  | cons t s ih =>
    rw [matchFrom, matchhere_one hs fun h => hd h.1, matchhere_nil, ih, List.contains_cons,
      beq_eq_false_iff_ne.2 hdot, Bool.false_or, Bool.and_true]

/-- **`grep` drops a matching line after a line of `1023` bytes**: with the pattern `b`, the
input of `1023` bytes `a`, a newline, `b` and a newline makes `grep` print nothing, for every
chunking, where the line `b` matches and should be printed. -/
theorem grep_drops_line_after_long_line (chunk : ℕ → ℕ) :
    grep ['b'] chunk (joinLines [List.replicate 1023 'a', ['b']]) = [] ∧
      joinLines ([List.replicate 1023 'a', ['b']].filter («match» ['b'])) = ['b', '\n'] := by
  constructor
  · apply grep_of_long_line
    rw [joinLines_cons, List.take_left' (List.length_replicate ..)]
    exact fun h => absurd (List.mem_replicate.1 h).2 (by decide)
  · have hb : (List.replicate 1023 'a').contains 'b' = false := Bool.eq_false_iff.2 fun h =>
      absurd (List.mem_replicate.1 (List.contains_iff_mem.1 h)).2 (by decide)
    rw [List.filter_cons, List.filter_cons, match_lit (by decide) (by decide) (by decide),
      match_lit (by decide) (by decide) (by decide), hb]
    rfl

end Xv6.Grep
