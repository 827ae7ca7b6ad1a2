import Xv6.Param
import Xv6.Lib.RingQueue
import Xv6.Lib.Reach

/-!
Console input (`console.c`): a ring of `INPUT_BUF_SIZE` bytes and three `uint` indices that
wrap modulo `2^32`. Bytes from `r` to `w` are committed and wait for `consoleread`; bytes from
`w` to `e` are the line being edited, which `consoleintr` erases with backspace and `^U`, and
commits on a newline, on `^D`, or when the ring is full.

What the console is for is `Abs`: the stream of committed bytes, how much of it has been read,
and the line. `Sim` relates the ring to it, and `consoleintr` and each round of `consoleread`
move the ring as `Abs.intr` and `absRead` move the stream (`Sim.intr`, `Sim.read`).
Each round of `consoleread` runs under `cons.lock` until the call sleeps on an empty ring or
returns, so every interleaving of interrupts and reads is a sequence of such steps (`Step`).
-/

namespace Xv6.Console

open Xv6.Param Xv6.Lib.RingQueue Xv6.Lib.Reach

def INPUT_BUF_SIZE : ℕ := 128

def C (x : Char) : ℕ := x.toNat - '@'.toNat

/-- `x - y` of two `uint`s, which wraps at most once. -/
def sub32 (x y : ℕ) : ℕ := if y ≤ x then x - y else x + 2 ^ 32 - y

lemma sub32_eq_mod {x y : ℕ} (hx : x < 2 ^ 32) (hy : y < 2 ^ 32) :
    sub32 x y = (x + 2 ^ 32 - y) % 2 ^ 32 := by
  unfold sub32
  split <;> omega

lemma sub32_lt {x y : ℕ} (hx : x < 2 ^ 32) (hy : y < 2 ^ 32) : sub32 x y < 2 ^ 32 := by
  rw [sub32_eq_mod hx hy]
  exact Nat.mod_lt _ (by norm_num)

/-- `cons` without its lock: the ring and the read, write and edit indices. -/
structure Cons where
  buf : List UInt8
  buf_length : buf.length = INPUT_BUF_SIZE
  r : ℕ
  w : ℕ
  e : ℕ
  r_lt : r < 2 ^ 32
  w_lt : w < 2 ^ 32
  e_lt : e < 2 ^ 32

section Code

def Cons.at (cs : Cons) (i : ℕ) : UInt8 := cs.buf.getD (i % INPUT_BUF_SIZE) 0

def Cons.put (cs : Cons) (c : UInt8) : Cons :=
  { cs with
    buf := cs.buf.set (cs.e % INPUT_BUF_SIZE) c
    buf_length := by rw [List.length_set, cs.buf_length]
    e := (cs.e + 1) % 2 ^ 32
    e_lt := Nat.mod_lt _ (by norm_num) }

def Cons.erase (cs : Cons) : Cons :=
  { cs with e := sub32 cs.e 1, e_lt := sub32_lt cs.e_lt (by norm_num) }

def Cons.commit (cs : Cons) : Cons := { cs with w := cs.e, w_lt := cs.e_lt }

def Cons.next (cs : Cons) : Cons :=
  { cs with r := (cs.r + 1) % 2 ^ 32, r_lt := Nat.mod_lt _ (by norm_num) }

def Cons.back (cs : Cons) : Cons :=
  { cs with r := sub32 cs.r 1, r_lt := sub32_lt cs.r_lt (by norm_num) }

def Cons.init : Cons :=
  ⟨List.replicate INPUT_BUF_SIZE 0, List.length_replicate, 0, 0, 0, by norm_num, by norm_num,
    by norm_num⟩

/-- The loop of `^U`, for at most `k` bytes: erase while the line is not empty and the byte
before `e` is not a newline. -/
def killLine : ℕ → Cons → Cons
  | 0, cs => cs
  | k + 1, cs =>
    if cs.e ≠ cs.w ∧ cs.at (sub32 cs.e 1) ≠ '\n'.toUInt8 then killLine k cs.erase else cs

/-- `consoleintr(c)`. The loop of `^U` erases at most `e - w` bytes, which bounds it. -/
def consoleintr (cs : Cons) (c : UInt8) : Cons :=
  if c.toNat = C 'P' then cs
  else if c.toNat = C 'U' then killLine (sub32 cs.e cs.w) cs
  else if c.toNat = C 'H' ∨ c = 0x7f then (if cs.e ≠ cs.w then cs.erase else cs)
  else if c ≠ 0 ∧ sub32 cs.e cs.r < INPUT_BUF_SIZE then
    let c := if c = '\r'.toUInt8 then '\n'.toUInt8 else c
    let cs := cs.put c
    if c = '\n'.toUInt8 ∨ c.toNat = C 'D' ∨ sub32 cs.e cs.r = INPUT_BUF_SIZE then cs.commit
    else cs
  else cs

/-- Where a call of `consoleread` stands after a round: asleep in its wait loop with `n` bytes
still wanted and `got` copied out, or returned with `got` copied out and its value. -/
inductive ReadAt
  | wait (n : ℤ) (got : List UInt8)
  | ret (got : List UInt8) (v : ℤ)
  deriving DecidableEq, Repr

/-- One round of `consoleread(user_dst, dst, target)` from the head of its loop, with `n` bytes
still wanted and `got` copied out, for at most `k` bytes. `copyok j` says whether the
`copyout` of byte `j` succeeds, and `killed` is `killed(myproc())` when the ring is empty. -/
def readLoop (target : ℤ) (copyok : ℕ → Bool) (killed : Bool) :
    ℕ → Cons → ℤ → List UInt8 → Cons × ReadAt
  | 0, cs, n, got => (cs, .ret got (target - n))
  | k + 1, cs, n, got =>
    if ¬0 < n then (cs, .ret got (target - n))
    else if cs.r = cs.w then
      if killed then (cs, .ret got (-1)) else (cs, .wait n got)
    else
      let c := cs.at cs.r
      let cs := cs.next
      if c.toNat = C 'D' then
        -- end of file: a `^D` after some bytes is put back for the next call
        ((if n < target then cs.back else cs), .ret got (target - n))
      else if copyok got.length = false then (cs, .ret got (target - n))
      else if c = '\n'.toUInt8 then (cs, .ret (got ++ [c]) (target - (n - 1)))
      else readLoop target copyok killed k cs (n - 1) (got ++ [c])

/-- A round of a call to `consoleread`: the loop, with one step for each byte it can still
take. -/
def consoleread (cs : Cons) (target n : ℤ) (got : List UInt8) (copyok : ℕ → Bool)
    (killed : Bool) : Cons × ReadAt :=
  readLoop target copyok killed n.toNat cs n got

end Code

/-! ## What the console is for -/

/-- The console input as a stream: the bytes committed, in order; how many of them have been
read; and the line being edited. -/
structure Abs where
  sent : List UInt8
  taken : ℕ
  line : List UInt8

def Abs.queue (a : Abs) : List UInt8 := a.sent.drop a.taken

/-- A byte after which the line is committed: a newline or `^D`. -/
def Ends (c : UInt8) : Prop := c = '\n'.toUInt8 ∨ c.toNat = C 'D'

instance (c : UInt8) : Decidable (Ends c) := by unfold Ends; infer_instance

/-- An input byte on the stream: `^P` prints, `^U` drops the line, backspace and delete drop
its last byte, and any other byte but `0` joins the line while the stream has room, `\r` as a
newline; the line is committed with a newline, a `^D`, or the last byte of room. -/
def Abs.intr (a : Abs) (c : UInt8) : Abs :=
  if c.toNat = C 'P' then a
  else if c.toNat = C 'U' then { a with line := [] }
  else if c.toNat = C 'H' ∨ c = 0x7f then { a with line := a.line.dropLast }
  else if c ≠ 0 ∧ a.queue.length + a.line.length < INPUT_BUF_SIZE then
    let c := if c = '\r'.toUInt8 then '\n'.toUInt8 else c
    if Ends c ∨ a.queue.length + a.line.length + 1 = INPUT_BUF_SIZE then
      { a with sent := a.sent ++ (a.line ++ [c]), line := [] }
    else { a with line := a.line ++ [c] }
  else a

/-- A round of a read on the stream: bytes are taken from the front of what is committed, up
to a newline, as many as wanted, or to a `^D`, which ends the read and is taken only by a read
that has copied nothing. -/
def absRead (target : ℤ) (copyok : ℕ → Bool) (killed : Bool) :
    ℕ → Abs → ℤ → List UInt8 → Abs × ReadAt
  | 0, a, n, got => (a, .ret got (target - n))
  | k + 1, a, n, got =>
    if ¬0 < n then (a, .ret got (target - n))
    else
      match a.queue with
      | [] => if killed then (a, .ret got (-1)) else (a, .wait n got)
      | c :: _ =>
        if c.toNat = C 'D' then
          ((if n < target then a else { a with taken := a.taken + 1 }), .ret got (target - n))
        else if copyok got.length = false then
          ({ a with taken := a.taken + 1 }, .ret got (target - n))
        else if c = '\n'.toUInt8 then
          ({ a with taken := a.taken + 1 }, .ret (got ++ [c]) (target - (n - 1)))
        else absRead target copyok killed k { a with taken := a.taken + 1 } (n - 1) (got ++ [c])

/-! ## The ring holds the stream -/

/-- The committed bytes the ring holds for `consoleread`: the cells from `r` to `w`. -/
def Cons.committed (cs : Cons) : List UInt8 :=
  (List.range (sub32 cs.w cs.r)).map fun i => cs.at (cs.r + i)

/-- **The ring holds the stream**: from `r` the cells hold the unread committed bytes and then
the line; `r`, `w` and `e` are the number of bytes read, committed, and committed or typed,
modulo `2^32`; and the line holds no byte that would have committed it. -/
structure Sim (cs : Cons) (a : Abs) : Prop where
  taken_le : a.taken ≤ a.sent.length
  holds : Holds INPUT_BUF_SIZE cs.buf (cs.r % INPUT_BUF_SIZE) (a.queue ++ a.line)
  r_eq : cs.r = a.taken % 2 ^ 32
  w_eq : cs.w = a.sent.length % 2 ^ 32
  e_eq : cs.e = (a.sent.length + a.line.length) % 2 ^ 32
  line_ok : ∀ c ∈ a.line, ¬Ends c

section Sim

variable {cs : Cons} {a : Abs}

lemma Sim.le (h : Sim cs a) : a.queue.length + a.line.length ≤ INPUT_BUF_SIZE := by
  simpa using h.holds.le

lemma Abs.queue_length (a : Abs) : a.queue.length = a.sent.length - a.taken := by
  simp [Abs.queue]

lemma Abs.with_line (a : Abs) {l : List UInt8} (hl : a.line = l) : { a with line := l } = a := by
  cases a
  cases hl
  rfl

lemma Abs.intr_sent (a : Abs) (c : UInt8) :
    ∃ t, (a.intr c).sent = a.sent ++ t ∧ (a.intr c).taken = a.taken := by
  unfold Abs.intr
  simp only [apply_ite Abs.sent, apply_ite Abs.taken]
  split_ifs <;> simp

lemma Abs.queue_prefix_intr (ht : a.taken ≤ a.sent.length) (c : UInt8) :
    a.queue <+: (a.intr c).queue := by
  obtain ⟨t, hs, hta⟩ := a.intr_sent c
  rw [Abs.queue, Abs.queue, hs, hta, List.drop_append_of_le_length ht]
  exact List.prefix_append _ _

lemma Abs.read_intr (ht : a.taken ≤ a.sent.length) (c : UInt8) :
    (a.intr c).sent.take (a.intr c).taken = a.sent.take a.taken := by
  obtain ⟨t, hs, hta⟩ := a.intr_sent c
  rw [hs, hta, List.take_append_of_le_length ht]

lemma Abs.queue_take_one {c : UInt8} {q : List UInt8} (hq : a.queue = c :: q) :
    ({ a with taken := a.taken + 1 } : Abs).queue = q := by
  rw [Abs.queue, ← List.tail_drop]
  show a.queue.tail = q
  rw [hq, List.tail_cons]

lemma Sim.sub_w_r (h : Sim cs a) : sub32 cs.w cs.r = a.queue.length := by
  have hle := h.le
  have hq := a.queue_length
  have ht := h.taken_le
  unfold INPUT_BUF_SIZE at hle
  rw [sub32_eq_mod cs.w_lt cs.r_lt, h.w_eq, h.r_eq]
  omega

lemma Sim.sub_e_r (h : Sim cs a) : sub32 cs.e cs.r = a.queue.length + a.line.length := by
  have hle := h.le
  have hq := a.queue_length
  have ht := h.taken_le
  unfold INPUT_BUF_SIZE at hle
  rw [sub32_eq_mod cs.e_lt cs.r_lt, h.e_eq, h.r_eq]
  omega

lemma Sim.sub_e_w (h : Sim cs a) : sub32 cs.e cs.w = a.line.length := by
  have hle := h.le
  unfold INPUT_BUF_SIZE at hle
  rw [sub32_eq_mod cs.e_lt cs.w_lt, h.e_eq, h.w_eq]
  omega

lemma Sim.r_eq_w_iff (h : Sim cs a) : cs.r = cs.w ↔ a.queue = [] := by
  have hle := h.le
  have hq := a.queue_length
  have ht := h.taken_le
  unfold INPUT_BUF_SIZE at hle
  rw [h.w_eq, h.r_eq, ← List.length_eq_zero_iff]
  omega

lemma Sim.e_eq_w_iff (h : Sim cs a) : cs.e = cs.w ↔ a.line = [] := by
  have hle := h.le
  unfold INPUT_BUF_SIZE at hle
  rw [h.e_eq, h.w_eq, ← List.length_eq_zero_iff]
  omega

lemma Sim.at_r (h : Sim cs a) {c : UInt8} {q : List UInt8} (hq : a.queue = c :: q) :
    cs.at cs.r = c := by
  have hh := h.holds
  rw [hq, List.cons_append] at hh
  rw [Cons.at, List.getD_eq_getElem?_getD, hh.pop.1]
  rfl

lemma Sim.committed (h : Sim cs a) : cs.committed = a.queue := by
  apply List.ext_getElem
  · rw [Cons.committed, List.length_map, List.length_range, h.sub_w_r]
  · intro i h₁ h₂
    have hc := h.holds.cell i (by rw [List.length_append]; omega)
    have hidx : (cs.r + i) % INPUT_BUF_SIZE = (cs.r % INPUT_BUF_SIZE + i) % INPUT_BUF_SIZE := by
      unfold INPUT_BUF_SIZE
      omega
    simp only [Cons.committed, List.getElem_map, List.getElem_range]
    rw [Cons.at, List.getD_eq_getElem?_getD, hidx, hc, List.getElem_append_left h₂]
    rfl

/-- **The indices stay in order**: `r ≤ w ≤ e ≤ r + INPUT_BUF_SIZE`, as differences modulo
`2^32`. -/
lemma Sim.bounds (h : Sim cs a) :
    sub32 cs.w cs.r ≤ sub32 cs.e cs.r ∧ sub32 cs.e cs.r ≤ INPUT_BUF_SIZE := by
  have hle := h.le
  rw [h.sub_w_r, h.sub_e_r]
  omega

lemma Sim.at_last (h : Sim cs a) (hl : a.line ≠ []) :
    cs.at (sub32 cs.e 1) = a.line.getLast hl := by
  have hle := h.le
  have hq := a.queue_length
  have ht := h.taken_le
  have hne : a.queue ++ a.line ≠ [] := by simp [hl]
  have hk : (a.queue ++ a.line).length - 1 < (a.queue ++ a.line).length := by
    have := List.length_pos_iff.mpr hne
    omega
  have hc := h.holds.cell _ hk
  rw [← List.getLast_eq_getElem hne, List.getLast_append_of_ne_nil hne hl] at hc
  have hidx : sub32 cs.e 1 % INPUT_BUF_SIZE =
      (cs.r % INPUT_BUF_SIZE + ((a.queue ++ a.line).length - 1)) % INPUT_BUF_SIZE := by
    have hpos : 0 < a.line.length := List.length_pos_iff.mpr hl
    unfold INPUT_BUF_SIZE at hle ⊢
    rw [sub32_eq_mod cs.e_lt (by norm_num), h.e_eq, h.r_eq, List.length_append]
    omega
  rw [Cons.at, List.getD_eq_getElem?_getD, hidx, hc]
  rfl

lemma Sim.erase (h : Sim cs a) (hl : a.line ≠ []) :
    Sim cs.erase { a with line := a.line.dropLast } := by
  have hpos : 0 < a.line.length := List.length_pos_iff.mpr hl
  refine ⟨h.taken_le, h.holds.prefix ?_, h.r_eq, h.w_eq, ?_, ?_⟩
  · exact (List.prefix_append_right_inj a.queue).mpr (List.dropLast_prefix a.line)
  · show sub32 cs.e 1 = _
    have hle := h.le
    unfold INPUT_BUF_SIZE at hle
    rw [sub32_eq_mod cs.e_lt (by norm_num), h.e_eq, List.length_dropLast]
    dsimp only
    omega
  · exact fun c hc => h.line_ok c (List.dropLast_subset _ hc)

lemma Sim.commit (h : Sim cs a) :
    Sim cs.commit { a with sent := a.sent ++ a.line, line := [] } := by
  have hq : (a.sent ++ a.line).drop a.taken = a.queue ++ a.line :=
    List.drop_append_of_le_length h.taken_le
  refine ⟨by simp; have := h.taken_le; omega, ?_, h.r_eq, ?_, ?_, by simp⟩
  · show Holds _ _ _ ((a.sent ++ a.line).drop a.taken ++ [])
    rw [hq, List.append_nil]
    exact h.holds
  · show cs.e = _
    rw [h.e_eq, List.length_append]
  · show cs.e = _
    rw [h.e_eq, List.length_append, List.length_nil, Nat.add_zero]

lemma Sim.holds_put (h : Sim cs a) (hlt : a.queue.length + a.line.length < INPUT_BUF_SIZE)
    (c : UInt8) :
    Holds INPUT_BUF_SIZE (cs.put c).buf ((cs.put c).r % INPUT_BUF_SIZE)
      (a.queue ++ a.line ++ [c]) := by
  have hp := h.holds.push (by simpa using hlt) c
  have hq := a.queue_length
  have ht := h.taken_le
  have hidx : cs.e % INPUT_BUF_SIZE =
      (cs.r % INPUT_BUF_SIZE + (a.queue ++ a.line).length) % INPUT_BUF_SIZE := by
    unfold INPUT_BUF_SIZE at hlt ⊢
    rw [h.e_eq, h.r_eq, List.length_append]
    omega
  show Holds _ (cs.buf.set (cs.e % INPUT_BUF_SIZE) c) _ _
  rw [hidx]
  exact hp

lemma Sim.put (h : Sim cs a) (hlt : a.queue.length + a.line.length < INPUT_BUF_SIZE)
    {c : UInt8} (hc : ¬Ends c) : Sim (cs.put c) { a with line := a.line ++ [c] } := by
  refine ⟨h.taken_le, ?_, h.r_eq, h.w_eq, ?_, ?_⟩
  · rw [← List.append_assoc]
    exact h.holds_put hlt c
  · show (cs.e + 1) % 2 ^ 32 = _
    rw [h.e_eq, List.length_append, List.length_singleton, Nat.mod_add_mod, Nat.add_assoc]
  · intro x hx
    rcases List.mem_append.mp hx with hx | hx
    · exact h.line_ok x hx
    · rw [List.mem_singleton.mp hx]
      exact hc

lemma Sim.put_commit (h : Sim cs a) (hlt : a.queue.length + a.line.length < INPUT_BUF_SIZE)
    (c : UInt8) : Sim (cs.put c).commit { a with sent := a.sent ++ (a.line ++ [c]), line := [] } := by
  have hq : (a.sent ++ (a.line ++ [c])).drop a.taken = a.queue ++ a.line ++ [c] := by
    rw [List.drop_append_of_le_length h.taken_le, Abs.queue, List.append_assoc]
  refine ⟨by simp; have := h.taken_le; omega, ?_, h.r_eq, ?_, ?_, by simp⟩
  · show Holds _ _ _ ((a.sent ++ (a.line ++ [c])).drop a.taken ++ [])
    rw [hq, List.append_nil]
    exact h.holds_put hlt c
  · show (cs.e + 1) % 2 ^ 32 = _
    rw [h.e_eq, Nat.mod_add_mod]
    simp [Nat.add_assoc]
  · show (cs.e + 1) % 2 ^ 32 = _
    rw [h.e_eq, Nat.mod_add_mod]
    simp [Nat.add_assoc]

/-- **The loop of `^U`** erases the whole line: no byte of it is a newline. -/
lemma Sim.killLine {k : ℕ} (h : Sim cs a) (hk : a.line.length ≤ k) :
    Sim (killLine k cs) { a with line := [] } := by
  -- induction on the bytes the loop may still erase, the line shrinking by one each time
  induction k generalizing cs a with
  | zero =>
    have hl : a.line = [] := List.length_eq_zero_iff.mp (by omega)
    rw [killLine, a.with_line hl]
    exact h
  | succ k ih =>
    by_cases hl : a.line = []
    · have hew : cs.e = cs.w := h.e_eq_w_iff.mpr hl
      rw [killLine, if_neg (by simp [hew]), a.with_line hl]
      exact h
    · have hew : cs.e ≠ cs.w := mt h.e_eq_w_iff.mp hl
      have hnl : cs.at (sub32 cs.e 1) ≠ '\n'.toUInt8 := by
        rw [h.at_last hl]
        exact fun he => h.line_ok _ (List.getLast_mem hl) (.inl he)
      rw [killLine, if_pos ⟨hew, hnl⟩]
      have hk' := ih (h.erase hl) (by simp; omega)
      exact hk'

lemma Sim.sub_put_r (h : Sim cs a) (hlt : a.queue.length + a.line.length < INPUT_BUF_SIZE)
    (c : UInt8) : sub32 (cs.put c).e (cs.put c).r = a.queue.length + a.line.length + 1 := by
  have hq := a.queue_length
  have ht := h.taken_le
  unfold INPUT_BUF_SIZE at hlt
  show sub32 ((cs.e + 1) % 2 ^ 32) cs.r = _
  rw [sub32_eq_mod (Nat.mod_lt _ (by norm_num)) cs.r_lt, h.e_eq, h.r_eq]
  omega

/-- **An interrupt moves the ring as it moves the stream.** -/
theorem Sim.intr (h : Sim cs a) (c : UInt8) : Sim (consoleintr cs c) (a.intr c) := by
  unfold consoleintr Abs.intr
  by_cases hP : c.toNat = C 'P'
  · rw [if_pos hP, if_pos hP]
    exact h
  rw [if_neg hP, if_neg hP]
  by_cases hU : c.toNat = C 'U'
  · rw [if_pos hU, if_pos hU, h.sub_e_w]
    exact h.killLine le_rfl
  rw [if_neg hU, if_neg hU]
  by_cases hH : c.toNat = C 'H' ∨ c = 0x7f
  · rw [if_pos hH, if_pos hH]
    by_cases hl : a.line = []
    · rw [if_neg (not_not.mpr (h.e_eq_w_iff.mpr hl)), a.with_line (by rw [hl]; rfl)]
      exact h
    · rw [if_pos (mt h.e_eq_w_iff.mp hl)]
      exact h.erase hl
  rw [if_neg hH, if_neg hH]
  by_cases hin : c ≠ 0 ∧ a.queue.length + a.line.length < INPUT_BUF_SIZE
  · have hin' : c ≠ 0 ∧ sub32 cs.e cs.r < INPUT_BUF_SIZE := by
      rw [h.sub_e_r]
      exact hin
    rw [if_pos hin', if_pos hin]
    dsimp only
    -- the byte stored, after \r becomes a newline
    generalize (if c = '\r'.toUInt8 then '\n'.toUInt8 else c) = c
    rw [h.sub_put_r hin.2]
    unfold Ends
    by_cases hE : (c = '\n'.toUInt8 ∨ c.toNat = C 'D') ∨
        a.queue.length + a.line.length + 1 = INPUT_BUF_SIZE
    · rw [if_pos (or_assoc.mp hE), if_pos hE]
      exact h.put_commit hin.2 c
    · rw [if_neg (mt or_assoc.mpr hE), if_neg hE]
      exact h.put hin.2 (fun he => hE (.inl he))
  · have hin' : ¬(c ≠ 0 ∧ sub32 cs.e cs.r < INPUT_BUF_SIZE) := by
      rw [h.sub_e_r]
      exact hin
    rw [if_neg hin', if_neg hin]
    exact h

lemma Cons.back_next (cs : Cons) : cs.next.back = cs := by
  obtain ⟨buf, hb, r, w, e, hr, hw, he⟩ := cs
  simp only [Cons.next, Cons.back, Cons.mk.injEq, true_and, and_true]
  rw [sub32_eq_mod (Nat.mod_lt _ (by norm_num)) (by norm_num)]
  omega

lemma Sim.next (h : Sim cs a) {c : UInt8} {q : List UInt8} (hq : a.queue = c :: q) :
    Sim cs.next { a with taken := a.taken + 1 } := by
  have hlen : a.taken < a.sent.length := by
    have hl := congrArg List.length hq
    rw [a.queue_length, List.length_cons] at hl
    omega
  have hh := h.holds
  rw [hq, List.cons_append] at hh
  have hidx : cs.next.r % INPUT_BUF_SIZE = (cs.r % INPUT_BUF_SIZE + 1) % INPUT_BUF_SIZE := by
    show (cs.r + 1) % 2 ^ 32 % INPUT_BUF_SIZE = _
    unfold INPUT_BUF_SIZE
    omega
  refine ⟨hlen, ?_, ?_, h.w_eq, h.e_eq, h.line_ok⟩
  · rw [Abs.queue_take_one hq, hidx]
    exact hh.pop.2
  · show (cs.r + 1) % 2 ^ 32 = _
    rw [h.r_eq, Nat.mod_add_mod]

/-- **A round of a read moves the ring as it moves the stream**, and returns what the round on
the stream returns. -/
theorem Sim.read (target : ℤ) (copyok : ℕ → Bool) (killed : Bool) (k : ℕ) (h : Sim cs a)
    (n : ℤ) (got : List UInt8) :
    Sim (readLoop target copyok killed k cs n got).1 (absRead target copyok killed k a n got).1 ∧
      (readLoop target copyok killed k cs n got).2 =
        (absRead target copyok killed k a n got).2 := by
  -- induction on the loop's fuel, the ring and the stream moving in step
  induction k generalizing cs a n got with
  | zero => exact ⟨h, rfl⟩
  | succ k ih =>
    rw [readLoop, absRead]
    by_cases hn : ¬0 < n
    · rw [if_pos hn, if_pos hn]
      exact ⟨h, rfl⟩
    rw [if_neg hn, if_neg hn]
    cases hq : a.queue with
    | nil =>
      rw [if_pos (h.r_eq_w_iff.mpr hq)]
      cases killed <;> exact ⟨h, rfl⟩
    | cons c q =>
      rw [if_neg (mt h.r_eq_w_iff.mp (by simp [hq])), h.at_r hq]
      dsimp only
      have hnext := h.next hq
      by_cases hD : c.toNat = C 'D'
      · rw [if_pos hD, if_pos hD]
        by_cases hlt : n < target
        · -- the `^D` is put back: `r--` undoes `r++`
          rw [if_pos hlt, if_pos hlt, Cons.back_next]
          exact ⟨h, rfl⟩
        · rw [if_neg hlt, if_neg hlt]
          exact ⟨hnext, rfl⟩
      rw [if_neg hD, if_neg hD]
      by_cases hc : copyok got.length = false
      · rw [if_pos hc, if_pos hc]
        exact ⟨hnext, rfl⟩
      rw [if_neg hc, if_neg hc]
      by_cases hnl : c = '\n'.toUInt8
      · rw [if_pos hnl, if_pos hnl]
        exact ⟨hnext, rfl⟩
      rw [if_neg hnl, if_neg hnl]
      exact ih hnext (n - 1) (got ++ [c])

end Sim

/-! ## Reading the stream -/

/-- The bytes a read copies out of the stream: all but `^D`. -/
def copied (l : List UInt8) : List UInt8 := l.filter fun c => c.toNat ≠ C 'D'

@[simp] lemma copied_nil : copied [] = [] := rfl

lemma copied_append (l l' : List UInt8) : copied (l ++ l') = copied l ++ copied l' :=
  List.filter_append _ _

lemma copied_cons_of_ne {c : UInt8} (hc : c.toNat ≠ C 'D') (l : List UInt8) :
    copied (c :: l) = c :: copied l := by
  simp [copied, hc]

lemma copied_cons_of_eq {c : UInt8} (hc : c.toNat = C 'D') (l : List UInt8) :
    copied (c :: l) = copied l := by
  simp [copied, hc]

def ReadAt.got : ReadAt → List UInt8
  | .wait _ got => got
  | .ret got _ => got

/-- A round of a call for `target` bytes, `killed` or not, ends well: asleep, still wanting
bytes, with no newline copied; or returned with the number of bytes it copied, or `-1` if
killed, a newline at most the last of them. -/
def ReadAt.Ok (killed : Bool) (target : ℤ) : ReadAt → Prop
  | .wait n got => 0 < n ∧ n + got.length = target ∧ '\n'.toUInt8 ∉ got
  | .ret got v => (killed ∧ v = -1 ∨ v = got.length) ∧ '\n'.toUInt8 ∉ got.dropLast

lemma ReadAt.ok_ret {killed : Bool} {target n : ℤ} {got : List UInt8}
    (hn : n + got.length = target) (hnl : '\n'.toUInt8 ∉ got) :
    (ReadAt.ret got (target - n)).Ok killed target :=
  ⟨.inr (by omega), fun h => hnl (List.dropLast_subset _ h)⟩

lemma ReadAt.Ok.of_killed {killed : Bool} {target : ℤ} {r : ReadAt} (h : r.Ok killed target) :
    r.Ok true target := by
  cases r with
  | wait n got => exact h
  | ret got v => exact ⟨h.1.imp (fun h' => ⟨rfl, h'.2⟩) id, h.2⟩

section Read

variable {target : ℤ} {copyok : ℕ → Bool} {killed : Bool}

/-- **Every round ends well**, from a call that has copied no newline and counts what it
copied. -/
theorem absRead_ok (k : ℕ) (a : Abs) {n : ℤ} {got : List UInt8} (hn : n + got.length = target)
    (hnl : '\n'.toUInt8 ∉ got) : (absRead target copyok killed k a n got).2.Ok killed target := by
  -- induction on the fuel, one byte copied at each call
  induction k generalizing a n got with
  | zero => exact ReadAt.ok_ret hn hnl
  | succ k ih =>
    rw [absRead]
    by_cases hn0 : ¬0 < n
    · rw [if_pos hn0]
      exact ReadAt.ok_ret hn hnl
    rw [if_neg hn0]
    cases hq : a.queue with
    | nil =>
      cases killed
      · exact ⟨by omega, hn, hnl⟩
      · exact ⟨.inl ⟨rfl, rfl⟩, fun h => hnl (List.dropLast_subset _ h)⟩
    | cons c q =>
      dsimp only
      by_cases hD : c.toNat = C 'D'
      · rw [if_pos hD]
        split_ifs <;> exact ReadAt.ok_ret hn hnl
      rw [if_neg hD]
      by_cases hc : copyok got.length = false
      · rw [if_pos hc]
        exact ReadAt.ok_ret hn hnl
      rw [if_neg hc]
      by_cases hl : c = '\n'.toUInt8
      · rw [if_pos hl]
        refine ⟨.inr ?_, by rw [List.dropLast_concat]; exact hnl⟩
        simp only [List.length_append, List.length_singleton]
        omega
      rw [if_neg hl]
      refine ih _ (by simp only [List.length_append, List.length_singleton]; omega) ?_
      simp only [List.mem_append, List.mem_singleton, not_or]
      exact ⟨hnl, Ne.symm hl⟩

/-- **A round takes bytes from the front of the stream**, and copies out all of them but
`^D`, when every copyout succeeds. -/
theorem absRead_takes (hok : ∀ j, copyok j = true) (k : ℕ) (a : Abs) (n : ℤ)
    (got : List UInt8) :
    ∃ m, (absRead target copyok killed k a n got).1 = { a with taken := a.taken + m } ∧
      (absRead target copyok killed k a n got).2.got = got ++ copied (a.queue.take m) := by
  induction k generalizing a n got with
  | zero => exact ⟨0, rfl, by simp [absRead, ReadAt.got]⟩
  | succ k ih =>
    rw [absRead]
    by_cases hn0 : ¬0 < n
    · rw [if_pos hn0]
      exact ⟨0, rfl, by simp [ReadAt.got]⟩
    rw [if_neg hn0]
    cases hq : a.queue with
    | nil => cases killed <;> exact ⟨0, rfl, by simp [ReadAt.got]⟩
    | cons c q =>
      dsimp only
      by_cases hD : c.toNat = C 'D'
      · rw [if_pos hD]
        by_cases hlt : n < target
        · rw [if_pos hlt]
          exact ⟨0, rfl, by simp [ReadAt.got]⟩
        · rw [if_neg hlt]
          exact ⟨1, rfl, by simp [ReadAt.got, copied_cons_of_eq hD]⟩
      rw [if_neg hD, if_neg (by simp [hok])]
      by_cases hl : c = '\n'.toUInt8
      · rw [if_pos hl]
        exact ⟨1, rfl, by simp [ReadAt.got, copied_cons_of_ne hD]⟩
      rw [if_neg hl]
      obtain ⟨m, h₁, h₂⟩ := ih { a with taken := a.taken + 1 } (n - 1) (got ++ [c])
      refine ⟨m + 1, ?_, ?_⟩
      · rw [h₁, Nat.add_assoc, Nat.add_comm 1 m]
      · rw [h₂, Abs.queue_take_one hq, List.take_succ_cons, copied_cons_of_ne hD,
          List.append_assoc, List.singleton_append]

/-- **A `^D` after copied bytes is left for the next call**: a round that returns short of its
target after copying bytes, the last not a newline, stopped at a `^D` that it left first in
the stream. -/
theorem absRead_leaves_eof (hok : ∀ j, copyok j = true) {k : ℕ} {a : Abs} {n : ℤ}
    {got got' : List UInt8} {v : ℤ} (hk : n.toNat ≤ k) (hn : n + got.length = target)
    (hr : (absRead target copyok false k a n got).2 = .ret got' v) (hne : got' ≠ [])
    (hv : v < target) (hlast : got'.getLast? ≠ some '\n'.toUInt8) :
    ∃ c q, (absRead target copyok false k a n got).1.queue = c :: q ∧ c.toNat = C 'D' := by
  induction k generalizing a n got with
  | zero =>
    rw [absRead] at hr
    cases hr
    omega
  | succ k ih =>
    rw [absRead] at hr ⊢
    by_cases hn0 : ¬0 < n
    · rw [if_pos hn0] at hr
      cases hr
      omega
    rw [if_neg hn0] at hr ⊢
    cases hq : a.queue with
    | nil =>
      rw [hq] at hr
      cases hr
    | cons c q =>
      rw [hq] at hr
      dsimp only at hr ⊢
      by_cases hD : c.toNat = C 'D'
      · rw [if_pos hD] at hr ⊢
        by_cases hlt : n < target
        · rw [if_pos hlt]
          exact ⟨c, q, hq, hD⟩
        · -- the call had copied nothing: it takes the `^D` and returns `0`
          rw [if_neg hlt] at hr
          cases hr
          have : got'.length = 0 := by omega
          exact absurd (List.length_eq_zero_iff.mp this) hne
      rw [if_neg hD, if_neg (by simp [hok])] at hr ⊢
      by_cases hl : c = '\n'.toUInt8
      · rw [if_pos hl] at hr
        cases hr
        simp [hl] at hlast
      rw [if_neg hl] at hr ⊢
      exact ih (by omega) (by simp only [List.length_append, List.length_singleton]; omega) hr

theorem absRead_eof_first {k : ℕ} {a : Abs} {c : UInt8} {q : List UInt8} (hq : a.queue = c :: q)
    (hD : c.toNat = C 'D') (hk : target.toNat ≤ k) :
    (absRead target copyok killed k a target []).2 = .ret [] 0 := by
  cases k with
  | zero => simp [absRead]
  | succ k =>
    rw [absRead]
    by_cases h0 : ¬0 < target
    · rw [if_pos h0, sub_self]
    · rw [if_neg h0, hq]
      dsimp only
      rw [if_pos hD, if_neg (lt_irrefl _), sub_self]

end Read

/-! ## Readers and interrupts -/

/-- A call of `consoleread` asleep in its wait loop: its `target`, the bytes `n` it still
wants, and the bytes it has copied out. -/
structure Pending where
  target : ℤ
  n : ℤ
  got : List UInt8
  deriving DecidableEq, Repr

/-- What a call of `consoleread` returned: its `target`, the bytes it copied out, and its
value. -/
structure Ret where
  target : ℤ
  got : List UInt8
  v : ℤ
  deriving DecidableEq, Repr

/-- The console, the call of `consoleread` each process is asleep in, and what the calls
returned, in order; beside them, as a ghost, the stream that the interrupts committed and the
calls read. -/
structure ConsSys where
  cons : Cons
  stream : Abs
  reading : Fin NPROC → Option Pending
  returned : List Ret

def ConsSys.boot : ConsSys := ⟨Cons.init, ⟨[], 0, []⟩, fun _ => none, []⟩

def ConsSys.intr (s : ConsSys) (c : UInt8) : ConsSys :=
  { s with cons := consoleintr s.cons c, stream := s.stream.intr c }

def ConsSys.settle (s : ConsSys) (p : Fin NPROC) (target : ℤ) (cs : Cons) (a : Abs) :
    ReadAt → ConsSys
  | .wait n got =>
    { s with
      cons := cs
      stream := a
      reading := Function.update s.reading p (some ⟨target, n, got⟩) }
  | .ret got v =>
    { s with
      cons := cs
      stream := a
      reading := Function.update s.reading p none
      returned := s.returned ++ [⟨target, got, v⟩] }

/-- A round of process `p`'s call under `cons.lock`, every copyout succeeding; the stream
moves by the same round on it. -/
def ConsSys.round (s : ConsSys) (p : Fin NPROC) (pd : Pending) (killed : Bool) : ConsSys :=
  let r := consoleread s.cons pd.target pd.n pd.got (fun _ => true) killed
  s.settle p pd.target r.1
    (absRead pd.target (fun _ => true) killed pd.n.toNat s.stream pd.n pd.got).1 r.2

/-- The steps of the console: an input byte, or a round of a call of any process, new or
woken, killed or not. -/
inductive Step : ConsSys → ConsSys → Prop
  | intr (s : ConsSys) (c : UInt8) : Step s (s.intr c)
  | call (s : ConsSys) (p : Fin NPROC) (target : ℤ) (killed : Bool)
      (hp : s.reading p = none) : Step s (s.round p ⟨target, target, []⟩ killed)
  | wake (s : ConsSys) (p : Fin NPROC) (pd : Pending) (killed : Bool)
      (hp : s.reading p = some pd) : Step s (s.round p pd killed)

/-- The runs in which calls of `consoleread` do not overlap and no reader is killed. -/
inductive Solo : ConsSys → ConsSys → Prop
  | intr (s : ConsSys) (c : UInt8) : Solo s (s.intr c)
  | call (s : ConsSys) (p : Fin NPROC) (target : ℤ) (hidle : ∀ q, s.reading q = none) :
      Solo s (s.round p ⟨target, target, []⟩ false)
  | wake (s : ConsSys) (p : Fin NPROC) (pd : Pending) (hp : s.reading p = some pd) :
      Solo s (s.round p pd false)

lemma Solo.step {s s' : ConsSys} (h : Solo s s') : Step s s' := by
  cases h with
  | intr c => exact .intr s c
  | call p target hidle => exact .call s p target false (hidle p)
  | wake p pd hp => exact .wake s p pd false hp

def Ret.EofShort (x : Ret) : Prop :=
  x.got ≠ [] ∧ x.v < x.target ∧ x.got.getLast? ≠ some '\n'.toUInt8

section Sys

variable {s : ConsSys} {p : Fin NPROC} {target : ℤ} {cs : Cons} {a : Abs}

@[simp] lemma ConsSys.settle_cons (r : ReadAt) : (s.settle p target cs a r).cons = cs := by
  cases r <;> rfl

@[simp] lemma ConsSys.settle_stream (r : ReadAt) : (s.settle p target cs a r).stream = a := by
  cases r <;> rfl

lemma ConsSys.settle_reading_ne {q : Fin NPROC} (hq : q ≠ p) (r : ReadAt) :
    (s.settle p target cs a r).reading q = s.reading q := by
  cases r <;> simp [ConsSys.settle, Function.update_of_ne hq]

lemma ConsSys.settle_ret_returned (got : List UInt8) (v : ℤ) :
    (s.settle p target cs a (.ret got v)).returned = s.returned ++ [⟨target, got, v⟩] := rfl

lemma ConsSys.settle_ret_idle (hidle : ∀ q, q ≠ p → s.reading q = none) (got : List UInt8)
    (v : ℤ) (q : Fin NPROC) : (s.settle p target cs a (.ret got v)).reading q = none := by
  by_cases hqp : q = p
  · subst hqp
    simp [ConsSys.settle]
  · rw [ConsSys.settle_reading_ne hqp]
    exact hidle q hqp

lemma ConsSys.round_eq (h : Sim s.cons s.stream) (p : Fin NPROC) (pd : Pending)
    (killed : Bool) :
    s.round p pd killed =
      s.settle p pd.target
        (readLoop pd.target (fun _ => true) killed pd.n.toNat s.cons pd.n pd.got).1
        (absRead pd.target (fun _ => true) killed pd.n.toNat s.stream pd.n pd.got).1
        (absRead pd.target (fun _ => true) killed pd.n.toNat s.stream pd.n pd.got).2 := by
  simp only [ConsSys.round, consoleread]
  rw [(Sim.read pd.target (fun _ => true) killed pd.n.toNat h pd.n pd.got).2]

/-- What every reachable state keeps: the ring holds the stream, and every call asleep or
returned ended its rounds well. -/
structure Inv (s : ConsSys) : Prop where
  sim : Sim s.cons s.stream
  reading : ∀ p pd, s.reading p = some pd → (ReadAt.wait pd.n pd.got).Ok true pd.target
  returned : ∀ x ∈ s.returned, (ReadAt.ret x.got x.v).Ok true x.target

lemma inv_boot : Inv ConsSys.boot where
  sim := ⟨le_rfl, holds_nil List.length_replicate (by decide), rfl, rfl, rfl,
    fun _ h => absurd h List.not_mem_nil⟩
  reading := fun _ _ h => absurd h (by simp [ConsSys.boot])
  returned := fun _ h => absurd h List.not_mem_nil

lemma Inv.intr (h : Inv s) (c : UInt8) : Inv (s.intr c) :=
  ⟨h.sim.intr c, h.reading, h.returned⟩

lemma Inv.round (h : Inv s) (p : Fin NPROC) {pd : Pending} (killed : Bool)
    (hn : pd.n + pd.got.length = pd.target) (hnl : '\n'.toUInt8 ∉ pd.got) :
    Inv (s.round p pd killed) := by
  have hsr := Sim.read pd.target (fun _ => true) killed pd.n.toNat h.sim pd.n pd.got
  have hok : (absRead pd.target (fun _ => true) killed pd.n.toNat s.stream pd.n pd.got).2.Ok
      killed pd.target := absRead_ok _ _ hn hnl
  rw [s.round_eq h.sim]
  generalize absRead pd.target (fun _ => true) killed pd.n.toNat s.stream pd.n pd.got = r
    at hsr hok
  obtain ⟨a', r⟩ := r
  refine ⟨by simpa using hsr.1, fun q qd hq => ?_, fun x hx => ?_⟩
  · -- the process of the round sleeps with what the round left, the others as they were
    by_cases hqp : q = p
    · subst hqp
      cases r with
      | wait n got =>
        simp only [ConsSys.settle, Function.update_self, Option.some.injEq] at hq
        subst hq
        exact hok
      | ret got v => simp [ConsSys.settle] at hq
    · rw [ConsSys.settle_reading_ne hqp] at hq
      exact h.reading q qd hq
  · cases r with
    | wait n got => exact h.returned x hx
    | ret got v =>
      simp only [ConsSys.settle, List.mem_append, List.mem_singleton] at hx
      rcases hx with hx | rfl
      · exact h.returned x hx
      · exact hok.of_killed

theorem inv_reachable (hr : Reachable (· = ConsSys.boot) Step s) : Inv s := by
  refine Reachable.induct (fun s (h : s = ConsSys.boot) => h ▸ inv_boot) ?_ hr
  intro s s' _ h hs
  cases hs with
  | intr c => exact h.intr c
  | call p target killed hp => exact h.round p killed (by simp) (by simp)
  | wake p pd killed hp =>
    obtain ⟨-, hn, hnl⟩ := h.reading p pd hp
    exact h.round p killed hn hnl

lemma copied_take_add (a : Abs) (m : ℕ) :
    copied (a.sent.take (a.taken + m)) = copied (a.sent.take a.taken) ++ copied (a.queue.take m) := by
  rw [List.take_add, copied_append]
  rfl

/-- What the runs of `Solo` keep besides `Inv`: one call at a time; every call returned the
number of bytes it copied; the bytes copied, in order, are the stream as read so far less its
`^D`s; and a `^D` left by a call that returned short waits first in the stream, and the next
call returns `0`. -/
structure SoloInv (s : ConsSys) : Prop where
  inv : Inv s
  one : ∀ p q, s.reading p ≠ none → q ≠ p → s.reading q = none
  alive : ∀ x ∈ s.returned, x.v = x.got.length
  copying : ∀ p pd, s.reading p = some pd →
    s.returned.flatMap Ret.got ++ pd.got = copied (s.stream.sent.take s.stream.taken)
  copied_idle : (∀ p, s.reading p = none) →
    s.returned.flatMap Ret.got = copied (s.stream.sent.take s.stream.taken)
  eof : ∀ x, s.returned.getLast? = some x → x.EofShort →
    (∀ p, s.reading p = none) ∧ ∃ c q, s.stream.queue = c :: q ∧ c.toNat = C 'D'
  next : ∀ i (h : i + 1 < s.returned.length), s.returned[i].EofShort →
    s.returned[i + 1].got = [] ∧ s.returned[i + 1].v = 0

lemma soloInv_boot : SoloInv ConsSys.boot where
  inv := inv_boot
  one := fun _ _ h => absurd rfl h
  alive := fun _ h => absurd h List.not_mem_nil
  copying := fun _ _ h => absurd h (by simp [ConsSys.boot])
  copied_idle := fun _ => rfl
  eof := fun _ h => absurd h (by simp [ConsSys.boot])
  next := fun _ h => absurd h (by simp [ConsSys.boot])

lemma SoloInv.intr (h : SoloInv s) (c : UInt8) : SoloInv (s.intr c) := by
  have ht := h.inv.sim.taken_le
  have hread := Abs.read_intr ht c
  refine ⟨h.inv.intr c, h.one, h.alive, fun p pd hp => ?_, fun hidle => ?_, fun x hx hE => ?_,
    h.next⟩
  · rw [show (s.intr c).stream = s.stream.intr c from rfl, hread]
    exact h.copying p pd hp
  · rw [show (s.intr c).stream = s.stream.intr c from rfl, hread]
    exact h.copied_idle hidle
  · obtain ⟨hidle, d, q, hq, hD⟩ := h.eof x hx hE
    obtain ⟨t, ht'⟩ := Abs.queue_prefix_intr ht c
    refine ⟨hidle, d, q ++ t, ?_, hD⟩
    rw [show (s.intr c).stream = s.stream.intr c from rfl, ← ht', hq, List.cons_append]

lemma SoloInv.settle_wait (h : SoloInv s) {n : ℤ} {got : List UInt8}
    (hinv : Inv (s.settle p target cs a (.wait n got)))
    (hidle : ∀ q, q ≠ p → s.reading q = none)
    (hcopy : s.returned.flatMap Ret.got ++ got = copied (a.sent.take a.taken))
    (heof : ∀ x, s.returned.getLast? = some x → ¬x.EofShort) :
    SoloInv (s.settle p target cs a (.wait n got)) := by
  refine ⟨hinv, fun q q' hq hq' => ?_, h.alive, fun q qd hq => ?_, fun hall => ?_,
    fun x hx hE => absurd hE (heof x hx), h.next⟩
  · by_cases hqp : q = p
    · subst hqp
      rw [ConsSys.settle_reading_ne hq']
      exact hidle q' hq'
    · rw [ConsSys.settle_reading_ne hqp] at hq
      exact absurd (hidle q hqp) hq
  · by_cases hqp : q = p
    · subst hqp
      simp only [ConsSys.settle, Function.update_self, Option.some.injEq] at hq
      subst hq
      exact hcopy
    · rw [ConsSys.settle_reading_ne hqp, hidle q hqp] at hq
      cases hq
  · exact absurd (hall p) (by simp [ConsSys.settle])

lemma SoloInv.settle_ret (h : SoloInv s) {got : List UInt8} {v : ℤ}
    (hinv : Inv (s.settle p target cs a (.ret got v)))
    (hidle : ∀ q, q ≠ p → s.reading q = none) (hv : v = got.length)
    (hcopy : s.returned.flatMap Ret.got ++ got = copied (a.sent.take a.taken))
    (hleave : Ret.EofShort ⟨target, got, v⟩ → ∃ c q, a.queue = c :: q ∧ c.toNat = C 'D')
    (hfirst : ∀ x, s.returned.getLast? = some x → x.EofShort → got = [] ∧ v = 0) :
    SoloInv (s.settle p target cs a (.ret got v)) := by
  have hnone : ∀ q, (s.settle p target cs a (.ret got v)).reading q = none :=
    ConsSys.settle_ret_idle hidle got v
  refine ⟨hinv, fun q _ hq => absurd (hnone q) hq, fun x hx => ?_,
    fun q qd hq => absurd hq (by rw [hnone q]; simp), fun _ => ?_, fun x hx hE => ?_,
    fun i hi hE => ?_⟩
  · rw [ConsSys.settle_ret_returned, List.mem_append, List.mem_singleton] at hx
    rcases hx with hx | rfl
    · exact h.alive x hx
    · exact hv
  · rw [ConsSys.settle_ret_returned, ConsSys.settle_stream, List.flatMap_append, ← hcopy]
    simp
  · rw [ConsSys.settle_ret_returned, List.getLast?_concat, Option.some.injEq] at hx
    subst hx
    exact ⟨hnone, by simpa using hleave hE⟩
  · simp only [ConsSys.settle_ret_returned, List.length_append, List.length_singleton] at hi hE ⊢
    rcases Nat.lt_or_ge (i + 1) s.returned.length with hlt | hge
    · -- two calls that had both returned before the round
      rw [List.getElem_append_left (by omega)] at hE
      rw [List.getElem_append_left hlt]
      exact h.next i hlt hE
    · -- the round's call follows the last call that had returned
      have hi' : i = s.returned.length - 1 := by omega
      rw [List.getElem_append_left (by omega)] at hE
      rw [List.getElem_append_right (by omega)]
      subst hi'
      have hlast : s.returned.getLast? = some s.returned[s.returned.length - 1] := by
        rw [List.getLast?_eq_getElem?, List.getElem?_eq_getElem]
      simpa using hfirst _ hlast hE

lemma SoloInv.round (h : SoloInv s) (p : Fin NPROC) {pd : Pending}
    (hidle : ∀ q, q ≠ p → s.reading q = none) (hn : pd.n + pd.got.length = pd.target)
    (hnl : '\n'.toUInt8 ∉ pd.got)
    (hcopy : s.returned.flatMap Ret.got ++ pd.got = copied (s.stream.sent.take s.stream.taken))
    (hfresh : ∀ x, s.returned.getLast? = some x → x.EofShort → pd.n = pd.target ∧ pd.got = []) :
    SoloInv (s.round p pd false) := by
  have hinv := h.inv.round p false hn hnl
  have hok : (absRead pd.target (fun _ => true) false pd.n.toNat s.stream pd.n pd.got).2.Ok
      false pd.target := absRead_ok _ _ hn hnl
  obtain ⟨m, hm, hgot⟩ := @absRead_takes pd.target (fun _ => true) false (fun _ => rfl)
    pd.n.toNat s.stream pd.n pd.got
  have hleave : ∀ got v,
      (absRead pd.target (fun _ => true) false pd.n.toNat s.stream pd.n pd.got).2 = .ret got v →
      got ≠ [] → v < pd.target → got.getLast? ≠ some '\n'.toUInt8 →
      ∃ c q, (absRead pd.target (fun _ => true) false pd.n.toNat s.stream pd.n pd.got).1.queue =
        c :: q ∧ c.toNat = C 'D' :=
    fun _ _ hr hne hv hl => absRead_leaves_eof (fun _ => rfl) le_rfl hn hr hne hv hl
  -- after a call that left a `^D`, the new call takes it and returns `0`
  have hfirst : ∀ x, s.returned.getLast? = some x → x.EofShort →
      (absRead pd.target (fun _ => true) false pd.n.toNat s.stream pd.n pd.got).2 = .ret [] 0 := by
    intro x hx hE
    obtain ⟨-, c, q, hq, hD⟩ := h.eof x hx hE
    obtain ⟨hn', hg'⟩ := hfresh x hx hE
    rw [hn', hg']
    exact absRead_eof_first hq hD le_rfl
  rw [s.round_eq h.inv.sim] at hinv ⊢
  generalize absRead pd.target (fun _ => true) false pd.n.toNat s.stream pd.n pd.got = r at *
  obtain ⟨a', r⟩ := r
  dsimp only at hm hgot
  subst hm
  have hread : s.returned.flatMap Ret.got ++ r.got =
      copied (s.stream.sent.take (s.stream.taken + m)) := by
    rw [hgot, ← List.append_assoc, hcopy, copied_take_add]
  cases r with
  | wait n got =>
    refine h.settle_wait hinv hidle hread fun x hx hE => ?_
    cases hfirst x hx hE
  | ret got v =>
    refine h.settle_ret hinv hidle (hok.1.resolve_left (by simp)) hread
      (fun hE => hleave got v rfl hE.1 hE.2.1 hE.2.2) fun x hx hE => ?_
    cases hfirst x hx hE
    exact ⟨rfl, rfl⟩

theorem soloInv_reachable (hr : Reachable (· = ConsSys.boot) Solo s) : SoloInv s := by
  refine Reachable.induct (fun s (h : s = ConsSys.boot) => h ▸ soloInv_boot) ?_ hr
  intro s s' _ h hs
  cases hs with
  | intr c => exact h.intr c
  | call p target hidle =>
    refine h.round p (fun q _ => hidle q) (by simp) (by simp) ?_ fun _ _ _ => ⟨rfl, rfl⟩
    simpa using h.copied_idle hidle
  | wake p pd hp =>
    obtain ⟨-, hn, hnl⟩ := h.inv.reading p pd hp
    refine h.round p (fun q hq => h.one p q (by simp [hp]) hq) hn hnl (h.copying p pd hp) ?_
    intro x hx hE
    exact absurd hp (by simp [(h.eof x hx hE).1 p])

/-- **Console input is a line-edited FIFO, for calls that do not overlap.** In every
interleaving of input bytes with rounds of calls of `consoleread`, killed or not: the indices
stay in order, `r ≤ w ≤ e ≤ r + INPUT_BUF_SIZE` modulo `2^32`; no input byte, an erase
included, removes committed bytes; and every call returns at most one line. In the runs in
which calls do not overlap and no reader is killed: every call returns the number of bytes it
copied; when no call is in progress, the bytes returned, in order, then the committed bytes
still in the ring, are the committed stream less its `^D`s; and after a call that returned
short after copying bytes, at a `^D`, the next call returns `0`. -/
theorem console_fifo {s t : ConsSys} (hs : Reachable (· = ConsSys.boot) Step s)
    (ht : Reachable (· = ConsSys.boot) Solo t) :
    (sub32 s.cons.w s.cons.r ≤ sub32 s.cons.e s.cons.r ∧
      sub32 s.cons.e s.cons.r ≤ INPUT_BUF_SIZE) ∧
    (∀ c, s.cons.committed <+: (consoleintr s.cons c).committed) ∧
    (∀ x ∈ s.returned, '\n'.toUInt8 ∉ x.got.dropLast) ∧
    (∀ x ∈ t.returned, x.v = x.got.length) ∧
    ((∀ p, t.reading p = none) →
      t.returned.flatMap Ret.got ++ copied t.cons.committed = copied t.stream.sent) ∧
    ∀ i (h : i + 1 < t.returned.length), t.returned[i].EofShort →
      t.returned[i + 1].got = [] ∧ t.returned[i + 1].v = 0 := by
  have hi := inv_reachable hs
  have hj := soloInv_reachable ht
  refine ⟨hi.sim.bounds, fun c => ?_, fun x hx => (hi.returned x hx).2, hj.alive,
    fun hidle => ?_, hj.next⟩
  · rw [hi.sim.committed, (hi.sim.intr c).committed]
    exact Abs.queue_prefix_intr hi.sim.taken_le c
  · rw [hj.copied_idle hidle, hj.inv.sim.committed, Abs.queue, ← copied_append,
      List.take_append_drop]

theorem console_fifo_boot :
    (sub32 ConsSys.boot.cons.w ConsSys.boot.cons.r ≤ sub32 ConsSys.boot.cons.e ConsSys.boot.cons.r ∧
      sub32 ConsSys.boot.cons.e ConsSys.boot.cons.r ≤ INPUT_BUF_SIZE) ∧
    (∀ c, ConsSys.boot.cons.committed <+: (consoleintr ConsSys.boot.cons c).committed) ∧
    (∀ x ∈ ConsSys.boot.returned, '\n'.toUInt8 ∉ x.got.dropLast) ∧
    (∀ x ∈ ConsSys.boot.returned, x.v = x.got.length) ∧
    ((∀ p, ConsSys.boot.reading p = none) →
      ConsSys.boot.returned.flatMap Ret.got ++ copied ConsSys.boot.cons.committed =
        copied ConsSys.boot.stream.sent) ∧
    ∀ i (h : i + 1 < ConsSys.boot.returned.length), ConsSys.boot.returned[i].EofShort →
      ConsSys.boot.returned[i + 1].got = [] ∧ ConsSys.boot.returned[i + 1].v = 0 :=
  console_fifo (Reachable.init rfl) (Reachable.init rfl)

end Sys

/-! ## Calls that overlap -/

/-- An event of a run: an input byte, a new call of process `p` for `target` bytes, or the
wakeup of `p`'s call. -/
inductive Ev
  | key (c : UInt8)
  | read (p : Fin NPROC) (target : ℤ)
  | wake (p : Fin NPROC)

def exec (s : ConsSys) : Ev → Option ConsSys
  | .key c => some (s.intr c)
  | .read p target => if s.reading p = none then some (s.round p ⟨target, target, []⟩ false) else none
  | .wake p => (s.reading p).map fun pd => s.round p pd false

lemma exec_step {s s' : ConsSys} {e : Ev} (h : exec s e = some s') : Step s s' := by
  cases e with
  | key c =>
    cases h
    exact .intr s c
  | read p target =>
    simp only [exec] at h
    split_ifs at h with hp
    cases h
    exact .call s p target false hp
  | wake p =>
    cases hp : s.reading p with
    | none => simp [exec, hp] at h
    | some pd =>
      simp only [exec, hp, Option.map_some, Option.some.injEq] at h
      subst h
      exact .wake s p pd false hp

/-- Two calls that overlap: a full ring of `a`s commits; process `0` reads them and sleeps
for more; process `1` starts a call and sleeps; the line `b\n` wakes both, and `1` takes it;
then `0` takes `c\n`. -/
def overlapRun : List Ev :=
  List.replicate INPUT_BUF_SIZE (.key 97) ++
    [.read 0 200, .read 1 10, .key 98, .key 10, .wake 1, .key 99, .key 10, .wake 0]

/-- What the run leaves: no call in progress, nothing committed left to read, every call
returned the bytes it copied, and two calls, neither of whose orders returns the committed
stream. -/
def interleaved : Option ConsSys → Bool
  | some s => (List.finRange NPROC).all (fun p => s.reading p = none) &&
      s.cons.committed.isEmpty && s.returned.all (fun x => x.v = x.got.length) &&
      match s.returned with
      | [x, y] => x.got ++ y.got ≠ copied s.stream.sent && y.got ++ x.got ≠ copied s.stream.sent
      | _ => false
  | none => false

lemma interleaved_overlapRun : interleaved (runAll exec ConsSys.boot overlapRun) = true := by
  decide +kernel

/-- **Overlapping calls interleave the stream.** A run without kills, whose copyouts all
succeed, ends with every call returned and every committed byte read, and yet no order of the
calls' results concatenates to the committed stream: a call that slept after copying a full
ring returns those bytes with a later line, and the line between them goes to the other
call. -/
theorem console_readers_interleave :
    ∃ s, Reachable (· = ConsSys.boot) Step s ∧ (∀ p, s.reading p = none) ∧
      s.cons.committed = [] ∧ (∀ x ∈ s.returned, x.v = x.got.length) ∧
      ∀ l : List Ret, l.Perm s.returned → l.flatMap Ret.got ≠ copied s.stream.sent := by
  have hp := interleaved_overlapRun
  cases hr : runAll exec ConsSys.boot overlapRun with
  | none => rw [hr] at hp; cases hp
  | some s =>
    rw [hr] at hp
    simp only [interleaved, Bool.and_eq_true] at hp
    obtain ⟨⟨⟨hidle, hemp⟩, hlen⟩, hpair⟩ := hp
    simp only [List.all_eq_true, List.mem_finRange, decide_eq_true_eq, forall_const] at hidle hlen
    have h0 : Reachable (· = ConsSys.boot) Step ConsSys.boot := Reachable.init rfl
    have hreach : Reachable (· = ConsSys.boot) Step s :=
      h0.steps (runAll_steps (fun s e s' (h : exec s e = some s') => (exec_step h : Step s s')) hr)
    refine ⟨s, hreach, hidle, List.isEmpty_iff.mp hemp, hlen, fun l hl => ?_⟩
    split at hpair
    · rename_i x y hxy
      simp only [Bool.and_eq_true, decide_eq_true_eq] at hpair
      rw [hxy, List.perm_pair] at hl
      rcases hl with rfl | rfl
      · simpa using hpair.1
      · simpa using hpair.2
    · cases hpair

end Xv6.Console
