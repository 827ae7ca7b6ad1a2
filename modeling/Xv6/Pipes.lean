import Xv6.Lib.RingQueue
import Xv6.Lib.Reach

/-!
Pipes (`pipe.c`): a ring of `PIPESIZE` bytes between two `uint` counters, which wrap modulo
`2^32`.

Each round of `pipewrite`'s loop and the critical section of `piperead` run under `pi->lock`.
`sleep` gives the lock up, and its caller re-checks its condition once it wakes, so a woken
call is treated as running its round again from the same place. Any interleaving of calls from
any number of writers and readers is then a sequence of such steps (`Step`). A ghost record
keeps the bytes stored, in storage order, and the bytes returned, in completion order. The ring
holds exactly the bytes stored and not yet returned (`Inv`, through `Lib.RingQueue`), whatever
the counters' wrapping, because `PIPESIZE` divides `2^32`.
-/

namespace Xv6.Pipes

open Xv6.Lib.RingQueue Xv6.Lib.Reach

def PIPESIZE : ℕ := 512

/-- `struct pipe` without its lock: `PIPESIZE` bytes of data and the two `uint` counters. -/
structure Pipe where
  data : List UInt8
  data_length : data.length = PIPESIZE
  nread : ℕ
  nwrite : ℕ
  nread_lt : nread < 2 ^ 32
  nwrite_lt : nwrite < 2 ^ 32
  readopen : Bool
  writeopen : Bool

section Code

def Pipe.put (pi : Pipe) (ch : UInt8) : Pipe :=
  { pi with
    data := pi.data.set (pi.nwrite % PIPESIZE) ch
    data_length := by rw [List.length_set, pi.data_length]
    nwrite := (pi.nwrite + 1) % 2 ^ 32
    nwrite_lt := Nat.mod_lt _ (by norm_num) }

def Pipe.next (pi : Pipe) : Pipe :=
  { pi with nread := (pi.nread + 1) % 2 ^ 32, nread_lt := Nat.mod_lt _ (by norm_num) }

/-- The pipe `pipealloc` sets up in a page that `kalloc` filled with `5`s. -/
def pipealloc : Pipe :=
  ⟨List.replicate PIPESIZE 5, List.length_replicate, 0, 0, Nat.two_pow_pos 32, Nat.two_pow_pos 32,
    true, true⟩

/-- `pipeclose(pi, writable)`: the pipe with that end closed, and whether its page is freed. -/
def pipeclose (pi : Pipe) (writable : Bool) : Pipe × Bool :=
  let pi := if writable then { pi with writeopen := false } else { pi with readopen := false }
  (pi, !pi.readopen && !pi.writeopen)

/-- Where a call of `pipewrite(pi, addr, n)` stands: at the head of its loop with `i` bytes
copied, or returned. -/
inductive WriteAt
  | loop (i : ℕ)
  | ret (r : ℤ)
  deriving DecidableEq, Repr

/-- One round of `pipewrite`'s loop with `i` bytes copied. `src j` is the byte `copyin` reads
at `addr + j`, none when it fails, and `killed` is `killed(pr)`. On a full pipe the round
sleeps, leaving everything as it was. -/
def pipewrite (pi : Pipe) (n : ℤ) (src : ℕ → Option UInt8) (killed : Bool) (i : ℕ) :
    Pipe × WriteAt :=
  if ¬(i : ℤ) < n then (pi, .ret i)
  else if pi.readopen = false ∨ killed = true then (pi, .ret (-1))
  else if pi.nwrite = (pi.nread + PIPESIZE) % 2 ^ 32 then (pi, .loop i)
  else
    match src i with
    | none => (pi, .ret i)
    | some ch => (pi.put ch, .loop (i + 1))

/-- The copy loop of `piperead` at byte `i`, with `k` rounds left. `copyok j` says whether the
`copyout` of byte `j` succeeds. The result is the bytes copied out, what `piperead` returns,
and the pipe. -/
def readLoop (copyok : ℕ → Bool) : ℕ → ℕ → Pipe → List UInt8 × ℤ × Pipe
  | 0, i, pi => ([], i, pi)
  | k + 1, i, pi =>
    if pi.nread = pi.nwrite then ([], i, pi)
    else
      let ch := pi.data.getD (pi.nread % PIPESIZE) 0
      if copyok i = false then ([], if i = 0 then -1 else i, pi)
      else
        let r := readLoop copyok k (i + 1) pi.next
        (ch :: r.1, r.2.1, r.2.2)

/-- `piperead(pi, addr, n)` from the head of its wait loop. Either it sleeps, giving none and
the pipe as it was, or it returns the bytes it copied out and its value. -/
def piperead (pi : Pipe) (n : ℤ) (copyok : ℕ → Bool) (killed : Bool) :
    Option (List UInt8 × ℤ) × Pipe :=
  if pi.nread = pi.nwrite ∧ pi.writeopen = true then
    if killed then (some ([], -1), pi) else (none, pi)
  else
    let r := readLoop copyok n.toNat 0 pi
    (some (r.1, r.2.1), r.2.2)

end Code

/-! ## Any interleaving of calls -/

/-- The pipe with a ghost record of the bytes `pipewrite` stored, in storage order, and of the
bytes `piperead` returned, in completion order. -/
structure PipeSys where
  pipe : Pipe
  stored : List UInt8
  returned : List UInt8

def roundBytes (src : ℕ → Option UInt8) (i : ℕ) : WriteAt → List UInt8
  | .loop j => if j = i + 1 then (src i).toList else []
  | .ret _ => []

def PipeSys.init : PipeSys := ⟨pipealloc, [], []⟩

/-- **The steps on a pipe**: a round of some `pipewrite`, a critical section of some
`piperead`, or a `pipeclose`. -/
inductive Step : PipeSys → PipeSys → Prop
  | write (s : PipeSys) (n : ℤ) (src : ℕ → Option UInt8) (killed : Bool) (i : ℕ) :
      Step s ⟨(pipewrite s.pipe n src killed i).1,
        s.stored ++ roundBytes src i (pipewrite s.pipe n src killed i).2, s.returned⟩
  | read (s : PipeSys) (n : ℤ) (copyok : ℕ → Bool) (killed : Bool) :
      Step s ⟨(piperead s.pipe n copyok killed).2, s.stored,
        s.returned ++ ((piperead s.pipe n copyok killed).1.map Prod.fst).getD []⟩
  | close (s : PipeSys) (writable : Bool) :
      Step s ⟨(pipeclose s.pipe writable).1, s.stored, s.returned⟩

/-! ## The ring holds the unread bytes -/

section Inv

def PipeSys.unread (s : PipeSys) : List UInt8 := s.stored.drop s.returned.length

/-- **The pipe holds the unread bytes**: the bytes returned are a prefix of the bytes stored,
the ring holds the rest from `nread`, and the counters are the two totals modulo `2^32`. -/
structure Inv (s : PipeSys) : Prop where
  ordered : s.returned <+: s.stored
  holds : Holds PIPESIZE s.pipe.data (s.pipe.nread % PIPESIZE) s.unread
  nread_eq : s.pipe.nread = s.returned.length % 2 ^ 32
  nwrite_eq : s.pipe.nwrite = s.stored.length % 2 ^ 32

lemma mod_PIPESIZE (x : ℕ) : x % 2 ^ 32 % PIPESIZE = x % PIPESIZE :=
  Nat.mod_mod_of_dvd x ⟨2 ^ 23, by norm_num [PIPESIZE]⟩

variable {s : PipeSys}

lemma Inv.stored_eq (h : Inv s) : s.stored = s.returned ++ s.unread :=
  (List.prefix_iff_eq_append.1 h.ordered).symm

lemma Inv.nwrite_eq' (h : Inv s) :
    s.pipe.nwrite = (s.returned.length + s.unread.length) % 2 ^ 32 := by
  rw [h.nwrite_eq, h.stored_eq, List.length_append]

lemma Inv.nwrite_mod (h : Inv s) :
    s.pipe.nwrite % PIPESIZE = (s.pipe.nread % PIPESIZE + s.unread.length) % PIPESIZE := by
  rw [h.nwrite_eq', h.nread_eq, mod_PIPESIZE, mod_PIPESIZE, Nat.mod_add_mod]

lemma Inv.full_iff (h : Inv s) :
    s.pipe.nwrite = (s.pipe.nread + PIPESIZE) % 2 ^ 32 ↔ s.unread.length = PIPESIZE := by
  have hle := h.holds.le
  rw [h.nwrite_eq', h.nread_eq, Nat.mod_add_mod]
  constructor
  · intro he
    exact mod_add_inj (by unfold PIPESIZE at hle; omega) (by norm_num [PIPESIZE]) he
  · intro he
    rw [he]

lemma Inv.empty_iff (h : Inv s) : s.pipe.nread = s.pipe.nwrite ↔ s.unread = [] := by
  have hle := h.holds.le
  rw [h.nwrite_eq', h.nread_eq, ← List.length_eq_zero_iff]
  constructor
  · intro he
    exact (mod_add_inj (by norm_num) (by unfold PIPESIZE at hle; omega)
      (show (s.returned.length + 0) % 2 ^ 32 = _ by rwa [Nat.add_zero])).symm
  · intro he
    rw [he, Nat.add_zero]

lemma Inv.unread_put (h : Inv s) (pi : Pipe) (ch : UInt8) :
    (⟨pi, s.stored ++ [ch], s.returned⟩ : PipeSys).unread = s.unread ++ [ch] :=
  List.drop_append_of_le_length h.ordered.length_le

lemma Inv.unread_next (h : Inv s) {y : UInt8} {q : List UInt8} (hq : s.unread = y :: q)
    (pi : Pipe) : (⟨pi, s.stored, s.returned ++ [y]⟩ : PipeSys).unread = q := by
  show s.stored.drop (s.returned ++ [y]).length = q
  rw [h.stored_eq, hq]
  simp

lemma Inv.put (h : Inv s) (hlt : s.unread.length < PIPESIZE) (ch : UInt8) :
    Inv ⟨s.pipe.put ch, s.stored ++ [ch], s.returned⟩ := by
  have hu := h.unread_put (s.pipe.put ch) ch
  refine ⟨h.ordered.trans (List.prefix_append _ _), ?_, h.nread_eq, ?_⟩
  · rw [hu]
    have hp := h.holds.push hlt ch
    rw [← h.nwrite_mod] at hp
    exact hp
  · show (s.pipe.nwrite + 1) % 2 ^ 32 = (s.stored ++ [ch]).length % 2 ^ 32
    rw [h.nwrite_eq, List.length_append, List.length_singleton, Nat.mod_add_mod]

lemma Inv.next (h : Inv s) {y : UInt8} {q : List UInt8} (hq : s.unread = y :: q) :
    s.pipe.data.getD (s.pipe.nread % PIPESIZE) 0 = y ∧
      Inv ⟨s.pipe.next, s.stored, s.returned ++ [y]⟩ := by
  have hh := h.holds
  rw [hq] at hh
  obtain ⟨hy, hq'⟩ := hh.pop
  have hst := h.stored_eq
  rw [hq] at hst
  have hu := h.unread_next hq s.pipe.next
  refine ⟨by rw [List.getD_eq_getElem?_getD, hy]; rfl, ⟨?_, ?_, ?_, h.nwrite_eq⟩⟩
  · rw [hst]
    exact ⟨q, by rw [List.append_assoc, List.singleton_append]⟩
  · rw [hu]
    show Holds PIPESIZE s.pipe.data ((s.pipe.nread + 1) % 2 ^ 32 % PIPESIZE) q
    rw [mod_PIPESIZE, ← Nat.mod_add_mod]
    exact hq'
  · show (s.pipe.nread + 1) % 2 ^ 32 = (s.returned ++ [y]).length % 2 ^ 32
    rw [h.nread_eq, List.length_append, List.length_singleton, Nat.mod_add_mod]

end Inv

/-! ## Every step keeps the invariant -/

section Steps

variable {s s' : PipeSys}

lemma Inv.nil_stored (h : Inv s) : Inv ⟨s.pipe, s.stored ++ [], s.returned⟩ := by
  rw [List.append_nil]
  exact h

lemma Inv.nil_returned (h : Inv s) : Inv ⟨s.pipe, s.stored, s.returned ++ []⟩ := by
  rw [List.append_nil]
  exact h

lemma Inv.close (h : Inv s) (writable : Bool) :
    Inv ⟨(pipeclose s.pipe writable).1, s.stored, s.returned⟩ := by
  cases writable <;> exact ⟨h.ordered, h.holds, h.nread_eq, h.nwrite_eq⟩

/-- **A round of `pipewrite`** keeps the invariant, with the byte it stored appended. -/
theorem Inv.write (h : Inv s) (n : ℤ) (src : ℕ → Option UInt8) (killed : Bool) (i : ℕ) :
    Inv ⟨(pipewrite s.pipe n src killed i).1,
      s.stored ++ roundBytes src i (pipewrite s.pipe n src killed i).2, s.returned⟩ := by
  unfold pipewrite
  by_cases hn : ¬(i : ℤ) < n
  · rw [if_pos hn]
    exact h.nil_stored
  rw [if_neg hn]
  by_cases hro : s.pipe.readopen = false ∨ killed = true
  · rw [if_pos hro]
    exact h.nil_stored
  rw [if_neg hro]
  by_cases hfull : s.pipe.nwrite = (s.pipe.nread + PIPESIZE) % 2 ^ 32
  · -- a full pipe: the round sleeps
    rw [if_pos hfull]
    show Inv ⟨s.pipe, s.stored ++ roundBytes src i (.loop i), s.returned⟩
    rw [roundBytes, if_neg (by omega)]
    exact h.nil_stored
  rw [if_neg hfull]
  have hlt : s.unread.length < PIPESIZE := lt_of_le_of_ne h.holds.le (mt h.full_iff.2 hfull)
  rcases hsrc : src i with _ | ch
  · exact h.nil_stored
  · show Inv ⟨s.pipe.put ch, s.stored ++ roundBytes src i (.loop (i + 1)), s.returned⟩
    rw [roundBytes, if_pos rfl, hsrc]
    exact h.put hlt ch

/-- **`piperead`'s copy loop** takes the unread bytes it copies out, and returns their number
past `i`, or `-1` when the `copyout` of the first byte fails. -/
theorem readLoop_inv (copyok : ℕ → Bool) {k i : ℕ} {s : PipeSys} {bytes : List UInt8} {r : ℤ}
    {pi' : Pipe} (h : Inv s) (hR : readLoop copyok k i s.pipe = (bytes, r, pi')) :
    Inv ⟨pi', s.stored, s.returned ++ bytes⟩ ∧
      (r = (i + bytes.length : ℕ) ∨ r = -1 ∧ i = 0 ∧ bytes = []) := by
  -- induction on the rounds left; each round takes the first unread byte
  induction k generalizing i s bytes r pi' with
  | zero =>
    cases hR
    exact ⟨h.nil_returned, .inl rfl⟩
  | succ k ih =>
    rw [readLoop] at hR
    by_cases hemp : s.pipe.nread = s.pipe.nwrite
    · rw [if_pos hemp] at hR
      cases hR
      exact ⟨h.nil_returned, .inl rfl⟩
    rw [if_neg hemp] at hR
    dsimp only at hR
    by_cases hok : copyok i = false
    · rw [if_pos hok] at hR
      cases hR
      refine ⟨h.nil_returned, ?_⟩
      by_cases hi : i = 0
      · rw [if_pos hi]
        exact .inr ⟨rfl, hi, rfl⟩
      · rw [if_neg hi]
        exact .inl rfl
    rw [if_neg hok] at hR
    obtain ⟨y, q, hq⟩ : ∃ y q, s.unread = y :: q :=
      List.exists_cons_of_ne_nil (mt h.empty_iff.2 hemp)
    obtain ⟨hy, h₁⟩ := h.next hq
    obtain ⟨hinv, hr⟩ := ih h₁ (rfl : readLoop copyok k (i + 1) s.pipe.next = _)
    simp only [Prod.mk.injEq] at hR
    obtain ⟨rfl, rfl, rfl⟩ := hR
    rw [hy]
    refine ⟨by rwa [List.append_cons], ?_⟩
    rcases hr with hr | ⟨-, hi, -⟩
    · exact .inl (by rw [hr, List.length_cons]; push_cast; ring)
    · omega

/-- **A copy loop whose every `copyout` succeeds takes the first `k` unread bytes**, and returns
their number past `i`. -/
theorem readLoop_take {copyok : ℕ → Bool} (hok : ∀ j, copyok j = true) (k : ℕ) :
    ∀ (s : PipeSys) (i : ℕ), Inv s → (readLoop copyok k i s.pipe).1 = s.unread.take k ∧
      (readLoop copyok k i s.pipe).2.1 = (i + min k s.unread.length : ℕ) := by
  -- induction on the rounds left, as in `readLoop_inv`
  induction k with
  | zero =>
    intro s i _
    simp [readLoop]
  | succ k ih =>
    intro s i h
    rcases hq : s.unread with _ | ⟨y, q⟩
    · -- an empty pipe: the loop stops
      rw [readLoop, if_pos (h.empty_iff.2 hq)]
      simp
    · obtain ⟨hy, h₁⟩ := h.next hq
      obtain ⟨ht, hr⟩ := ih _ (i + 1) h₁
      rw [h.unread_next hq] at ht hr
      have hne : s.unread ≠ [] := by
        rw [hq]
        exact List.cons_ne_nil y q
      rw [readLoop, if_neg (mt h.empty_iff.1 hne)]
      dsimp only
      rw [if_neg (by simp [hok]), hy]
      refine ⟨by rw [ht, List.take_succ_cons], ?_⟩
      rw [hr, List.length_cons]
      omega

lemma readLoop_first (copyok : ℕ → Bool) {k : ℕ} {pi pi' : Pipe}
    (hR : readLoop copyok k 0 pi = ([], 0, pi')) : k = 0 ∨ pi.nread = pi.nwrite := by
  cases k with
  | zero => exact .inl rfl
  | succ k =>
    rw [readLoop] at hR
    by_cases hemp : pi.nread = pi.nwrite
    · exact .inr hemp
    rw [if_neg hemp] at hR
    dsimp only at hR
    by_cases hok : copyok 0 = false
    · rw [if_pos hok, if_pos rfl] at hR
      simp at hR
    · rw [if_neg hok] at hR
      simp at hR

/-- **A critical section of `piperead`** keeps the invariant with the bytes it returned
appended. It returns their number, or `-1` with no byte; and it returns `0` only when `n ≤ 0`
or the pipe was empty with its write end closed. -/
theorem piperead_inv (h : Inv s) {n : ℤ} {copyok : ℕ → Bool} {killed : Bool}
    {res : Option (List UInt8 × ℤ)} {pi' : Pipe} (hR : piperead s.pipe n copyok killed = (res, pi')) :
    Inv ⟨pi', s.stored, s.returned ++ (res.map Prod.fst).getD []⟩ ∧
      ∀ bytes r, res = some (bytes, r) → (r = bytes.length ∨ r = -1 ∧ bytes = []) ∧
        (r = 0 → n ≤ 0 ∨ s.pipe.nread = s.pipe.nwrite ∧ s.pipe.writeopen = false) := by
  unfold piperead at hR
  by_cases hwait : s.pipe.nread = s.pipe.nwrite ∧ s.pipe.writeopen = true
  · -- the wait loop: killed, or asleep
    rw [if_pos hwait] at hR
    cases killed
    · cases hR
      exact ⟨h.nil_returned, fun _ _ he => by cases he⟩
    · cases hR
      refine ⟨h.nil_returned, fun bytes r he => ?_⟩
      cases he
      exact ⟨.inr ⟨rfl, rfl⟩, by omega⟩
  rw [if_neg hwait] at hR
  obtain ⟨hinv, hr⟩ := readLoop_inv copyok h (rfl : readLoop copyok n.toNat 0 s.pipe = _)
  cases hR
  refine ⟨hinv, fun bytes r he => ?_⟩
  cases he
  refine ⟨by rw [Nat.zero_add] at hr; exact hr.imp id fun h => ⟨h.1, h.2.2⟩, fun h0 => ?_⟩
  -- nothing copied: the loop had no round, or the pipe was empty
  have hnil : (readLoop copyok n.toNat 0 s.pipe).1 = [] := by
    rcases hr with hr | ⟨hr, -⟩
    · rw [h0, Nat.zero_add] at hr
      exact List.length_eq_zero_iff.1 (by exact_mod_cast hr.symm)
    · rw [h0] at hr
      cases hr
  have hfirst : readLoop copyok n.toNat 0 s.pipe = ([], 0, (readLoop copyok n.toNat 0 s.pipe).2.2) := by
    rw [← hnil, ← h0]
  rcases readLoop_first copyok hfirst with hk | hemp
  · exact .inl (by omega)
  · refine .inr ⟨hemp, ?_⟩
    simpa [hemp] using hwait

theorem Inv.step (h : Inv s) (hs : Step s s') : Inv s' := by
  cases hs with
  | write n src killed i => exact h.write n src killed i
  | read n copyok killed => exact (piperead_inv h (Prod.eta _).symm).1
  | close writable => exact h.close writable

lemma inv_init : Inv PipeSys.init :=
  ⟨List.prefix_refl [], holds_nil List.length_replicate (by decide), rfl, rfl⟩

lemma inv_reach {s : PipeSys} (hr : Reachable (· = PipeSys.init) Step s) : Inv s :=
  hr.induct (fun _ he => he ▸ inv_init) fun _ _ _ h hs => h.step hs

end Steps

/-! ## A lossless FIFO of `PIPESIZE` bytes -/

section Fifo

/-- **The pipe is a lossless FIFO byte stream** in every reachable state, however far the
counters have wrapped. The bytes returned are a prefix of the bytes stored. `nwrite - nread`
modulo `2^32` is the number of unread bytes, at most `PIPESIZE`. Each `piperead` takes exactly
the next bytes it copies out and returns their number, or `-1` with no byte (killed, or its
first `copyout` failed). It returns `0` only when `n ≤ 0` or the pipe is empty with its write
end closed. -/
theorem pipe_fifo {s : PipeSys} (hr : Reachable (· = PipeSys.init) Step s) :
    s.returned <+: s.stored ∧
      (s.pipe.nwrite + 2 ^ 32 - s.pipe.nread) % 2 ^ 32 = s.stored.length - s.returned.length ∧
      s.stored.length - s.returned.length ≤ PIPESIZE ∧
      ∀ n copyok killed bytes r pi', piperead s.pipe n copyok killed = (some (bytes, r), pi') →
        s.returned ++ bytes <+: s.stored ∧ pi'.nread = (s.pipe.nread + bytes.length) % 2 ^ 32 ∧
        (r = bytes.length ∨ r = -1 ∧ bytes = []) ∧
        (r = 0 → n ≤ 0 ∨ s.pipe.nread = s.pipe.nwrite ∧ s.pipe.writeopen = false) := by
  have h := inv_reach hr
  have hlen : s.stored.length = s.returned.length + s.unread.length := by
    rw [h.stored_eq, List.length_append]
  have hle := h.holds.le
  refine ⟨h.ordered, ?_, by unfold PIPESIZE at hle ⊢; omega, fun n copyok killed bytes r pi' hR => ?_⟩
  · rw [h.nwrite_eq', h.nread_eq, hlen]
    unfold PIPESIZE at hle
    omega
  · obtain ⟨h', hret⟩ := piperead_inv h hR
    refine ⟨h'.ordered, ?_, hret bytes r rfl⟩
    rw [h'.nread_eq, h.nread_eq]
    simp only [Option.map_some, Option.getD_some, List.length_append, Nat.mod_add_mod]

theorem pipe_fifo_init :
    PipeSys.init.returned <+: PipeSys.init.stored ∧
      (PipeSys.init.pipe.nwrite + 2 ^ 32 - PipeSys.init.pipe.nread) % 2 ^ 32 =
        PipeSys.init.stored.length - PipeSys.init.returned.length ∧
      PipeSys.init.stored.length - PipeSys.init.returned.length ≤ PIPESIZE ∧
      ∀ n copyok killed bytes r pi',
        piperead PipeSys.init.pipe n copyok killed = (some (bytes, r), pi') →
        PipeSys.init.returned ++ bytes <+: PipeSys.init.stored ∧
          pi'.nread = (PipeSys.init.pipe.nread + bytes.length) % 2 ^ 32 ∧
          (r = bytes.length ∨ r = -1 ∧ bytes = []) ∧
          (r = 0 → n ≤ 0 ∨ PipeSys.init.pipe.nread = PipeSys.init.pipe.nwrite ∧
            PipeSys.init.pipe.writeopen = false) :=
  pipe_fifo (.init rfl)

def twoSrc : ℕ → Option UInt8 := fun j => ([7, 8] : List UInt8)[j]?

/-- The pipe after the two rounds of `pipewrite(pi, addr, 2)` that store `7` and `8`. -/
def twoBytes : PipeSys :=
  let s₁ : PipeSys := ⟨(pipewrite PipeSys.init.pipe 2 twoSrc false 0).1,
    PipeSys.init.stored ++ roundBytes twoSrc 0 (pipewrite PipeSys.init.pipe 2 twoSrc false 0).2,
    PipeSys.init.returned⟩
  ⟨(pipewrite s₁.pipe 2 twoSrc false 1).1,
    s₁.stored ++ roundBytes twoSrc 1 (pipewrite s₁.pipe 2 twoSrc false 1).2, s₁.returned⟩

/-- **A `piperead` whose `copyout` fails after the first byte consumes that byte**: with `7`
and `8` in the pipe, `piperead(pi, addr, 2)` whose second `copyout` fails returns `1` and moves
`nread` to `1`. And `piperead(pi, addr, 0)` returns `0` from a pipe that is not empty. -/
theorem piperead_partial :
    Reachable (· = PipeSys.init) Step twoBytes ∧ twoBytes.stored = [7, 8] ∧
      (piperead twoBytes.pipe 2 (fun j => j == 0) false).1 = some ([7], 1) ∧
      (piperead twoBytes.pipe 2 (fun j => j == 0) false).2.nread = 1 ∧
      (piperead twoBytes.pipe 0 (fun _ => true) false).1 = some ([], 0) ∧
      twoBytes.pipe.nread ≠ twoBytes.pipe.nwrite :=
  ⟨((Reachable.init rfl : Reachable (· = PipeSys.init) Step PipeSys.init).step
      (Step.write _ 2 twoSrc false 0)).step (Step.write _ 2 twoSrc false 1),
    by decide, by decide, by decide, by decide, by decide⟩

end Fifo

/-! ## One call of `pipewrite` -/

section Call

/-- One call of `pipewrite(pi, addr, n)` run round after round from `i` bytes copied, the
`k`-th round seeing `killed(pr)` as the `k`-th of `kills`, with no other call in between: on a
full pipe a round sleeps and the next one retries. The pipe, and where the call stands. -/
def writeCall (n : ℤ) (src : ℕ → Option UInt8) : List Bool → Pipe → ℕ → Pipe × WriteAt
  | [], pi, i => (pi, .loop i)
  | killed :: kills, pi, i =>
    match pipewrite pi n src killed i with
    | (pi', .loop j) => writeCall n src kills pi' j
    | r => r

lemma writeCall_cons_loop {n : ℤ} {src : ℕ → Option UInt8} {killed : Bool} {kills : List Bool}
    {pi pi' : Pipe} {i j : ℕ} (h : pipewrite pi n src killed i = (pi', .loop j)) :
    writeCall n src (killed :: kills) pi i = writeCall n src kills pi' j := by
  rw [writeCall, h]

lemma writeCall_cons_ret {n : ℤ} {src : ℕ → Option UInt8} {killed : Bool} {kills : List Bool}
    {pi pi' : Pipe} {i : ℕ} {r : ℤ} (h : pipewrite pi n src killed i = (pi', .ret r)) :
    writeCall n src (killed :: kills) pi i = (pi', .ret r) := by
  rw [writeCall, h]

variable {s : PipeSys} {n : ℤ} {src : ℕ → Option UInt8} {i : ℕ}

lemma Inv.pipewrite_put (h : Inv s) (hro : s.pipe.readopen = true)
    (hlt : s.unread.length < PIPESIZE) (hi : (i : ℤ) < n) {ch : UInt8} (hsrc : src i = some ch) :
    pipewrite s.pipe n src false i = (s.pipe.put ch, .loop (i + 1)) := by
  have hfull : ¬s.pipe.nwrite = (s.pipe.nread + PIPESIZE) % 2 ^ 32 :=
    mt h.full_iff.1 (Nat.ne_of_lt hlt)
  unfold pipewrite
  rw [if_neg (not_not.2 hi), if_neg (by simp [hro]), if_neg hfull, hsrc]

lemma Inv.pipewrite_full (h : Inv s) (hro : s.pipe.readopen = true)
    (hfull : s.unread.length = PIPESIZE) (hi : (i : ℤ) < n) :
    pipewrite s.pipe n src false i = (s.pipe, .loop i) := by
  unfold pipewrite
  rw [if_neg (not_not.2 hi), if_neg (by simp [hro]), if_pos (h.full_iff.2 hfull)]

lemma pipewrite_killed {pi : Pipe} (hi : (i : ℤ) < n) :
    pipewrite pi n src true i = (pi, .ret (-1)) := by
  unfold pipewrite
  rw [if_neg (not_not.2 hi), if_pos (Or.inr rfl)]

/-- **A writer that is not killed stores a byte each round** while the pipe has room: `k` rounds
store `k` bytes and leave the call at `i + k`. -/
theorem writeCall_fill (src : ℕ → Option UInt8) {ch : UInt8} (hsrc : ∀ j, src j = some ch)
    (rest : List Bool) (k : ℕ) :
    ∀ (s : PipeSys) (i : ℕ), Inv s → s.pipe.readopen = true → s.unread.length + k ≤ PIPESIZE →
      ((i + k : ℕ) : ℤ) ≤ n → ∃ s' : PipeSys, Inv s' ∧
        s'.unread = s.unread ++ List.replicate k ch ∧ s'.pipe.readopen = true ∧
        writeCall n src (List.replicate k false ++ rest) s.pipe i =
          writeCall n src rest s'.pipe (i + k) := by
  -- induction on the rounds; each stores one byte through `Inv.put`
  induction k with
  | zero =>
    intro s i h hro _ _
    exact ⟨s, h, by rw [List.replicate_zero, List.append_nil], hro, rfl⟩
  | succ k ih =>
    intro s i h hro hk hn
    have hround : pipewrite s.pipe n src false i = (s.pipe.put ch, .loop (i + 1)) :=
      h.pipewrite_put hro (by omega) (by omega) (hsrc i)
    have hk₁ : (⟨s.pipe.put ch, s.stored ++ [ch], s.returned⟩ : PipeSys).unread.length + k ≤
        PIPESIZE := by
      rw [h.unread_put, List.length_append, List.length_singleton]
      omega
    obtain ⟨s', h', hu, hro', hw⟩ := ih _ (i + 1) (h.put (by omega) ch) hro hk₁ (by omega)
    refine ⟨s', h', ?_, hro', ?_⟩
    · rw [hu, h.unread_put, List.append_assoc, List.singleton_append, ← List.replicate_succ]
    · rw [List.replicate_succ, List.cons_append, writeCall_cons_loop hround, hw,
        Nat.add_assoc, Nat.add_comm 1 k]

/-- A writer of `PIPESIZE + 1` bytes of `7` on a new pipe: it stores `PIPESIZE` of them, sleeps
on the full pipe, and is killed while it sleeps. -/
def killedWriter : Pipe × WriteAt :=
  writeCall (PIPESIZE + 1) (fun _ => some 7) (List.replicate (PIPESIZE + 1) false ++ [true])
    pipealloc 0

/-- **`pipewrite` returns `-1` after storing bytes.** The killed writer returns `-1`, which
`filewrite` passes on as the result of `write`, though it stored `PIPESIZE` bytes, and a
`piperead` then receives all of them. -/
theorem pipewrite_killed_after_storing :
    killedWriter.2 = .ret (-1) ∧
      (piperead killedWriter.1 PIPESIZE (fun _ => true) false).1 =
        some (List.replicate PIPESIZE (7 : UInt8), (PIPESIZE : ℤ)) := by
  -- the writer stores `PIPESIZE` bytes, sleeps once on the full pipe, and is then killed
  obtain ⟨s, h, hu, hro, hw⟩ := writeCall_fill (n := PIPESIZE + 1) (fun _ => some 7)
    (fun _ => rfl) [false, true] PIPESIZE PipeSys.init 0 inv_init rfl (by simp [PipeSys.unread, PipeSys.init])
    (by push_cast; omega)
  rw [show PipeSys.init.unread = [] from rfl, List.nil_append] at hu
  have hfull : s.unread.length = PIPESIZE := by rw [hu, List.length_replicate]
  have hkilled : killedWriter = (s.pipe, .ret (-1)) := by
    rw [killedWriter, List.replicate_succ', List.append_assoc, List.singleton_append]
    refine hw.trans ?_
    rw [writeCall_cons_loop (h.pipewrite_full hro hfull (by push_cast; omega)),
      writeCall_cons_ret (pipewrite_killed (by push_cast; omega))]
  -- the reader then takes all of them
  have hne : ¬(s.pipe.nread = s.pipe.nwrite ∧ s.pipe.writeopen = true) := fun he =>
    (List.ne_nil_of_length_pos (by rw [hfull]; decide)) (h.empty_iff.1 he.1)
  obtain ⟨ht, hr⟩ := readLoop_take (fun _ => rfl) PIPESIZE s 0 h
  refine ⟨by rw [hkilled], ?_⟩
  rw [hkilled]
  dsimp only
  rw [piperead, if_neg hne]
  dsimp only
  rw [Int.toNat_natCast, ht, hr, hu, List.take_replicate, min_self, List.length_replicate, min_self,
    Nat.zero_add]

end Call

end Xv6.Pipes
