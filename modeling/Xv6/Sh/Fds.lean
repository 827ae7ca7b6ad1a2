import Xv6.FileTable

/-!
A process's descriptor table as the shell uses it: `close`, `dup`, `open` and `pipe` of
`sysfile.c`, on what each descriptor refers to.

Every call that makes a descriptor takes the lowest free one (`fdalloc`), and the shell relies
on it: `close(1); dup(p[1])` puts the pipe's write end at descriptor `1` because `0` is open.
The operations here are generic in what a descriptor refers to; at the open-file table of
`FileTable` they are what `fdalloc`, `sys_dup`, `sys_close` and `sys_pipe` do to the calling
process's `ofile` (`fdalloc_eq`, `sys_dup_ofile`, `sys_close_ofile`, `sys_pipe_ofile`).

A table with only `0`, `1` and `2` open is `std s`: closing one of them and opening a file
fills the same descriptor again, and a pipe's ends land at `3` and `4`.
-/

namespace Xv6.Sh

open Xv6.Param

/-- A process's descriptors, `p->ofile`: what each one refers to. -/
abbrev Fds (β : Type) := Fin NOFILE → Option β

namespace Fds

variable {β : Type}

/-- The descriptor `fdalloc` takes: the lowest free one. -/
def lowest (t : Fds β) : Option (Fin NOFILE) :=
  (List.finRange NOFILE).find? fun fd => (t fd).isNone

/-- `fdalloc`: the lowest free descriptor refers to `o`. -/
def alloc (t : Fds β) (o : β) : Option (Fin NOFILE) × Fds β :=
  match lowest t with
  | none => (none, t)
  | some fd => (some fd, Function.update t fd (some o))

/-- `close(fd)`: a descriptor out of range or not open is refused, and nothing changes. -/
def close (t : Fds β) (fd : ℕ) : Fds β :=
  if h : fd < NOFILE then Function.update t ⟨fd, h⟩ none else t

/-- `dup(fd)`: the lowest free descriptor refers to what `fd` refers to. -/
def dup (t : Fds β) (fd : ℕ) : Option (Fin NOFILE) × Fds β :=
  if h : fd < NOFILE then
    match t ⟨fd, h⟩ with
    | some o => alloc t o
    | none => (none, t)
  else (none, t)

/-- `pipe(p)`: the read end, then the write end, each at the lowest free descriptor. When the
write end finds none, the read end's descriptor is freed again. -/
def pipe (t : Fds β) (r w : β) : Option (Fin NOFILE × Fin NOFILE × Fds β) :=
  match alloc t r with
  | (none, _) => none
  | (some fd0, t₁) =>
    match alloc t₁ w with
    | (none, _) => none
    | (some fd1, t₂) => some (fd0, fd1, t₂)

/-! ## The lowest free descriptor -/

lemma lowest_eq_some_iff {t : Fds β} {k : Fin NOFILE} :
    lowest t = some k ↔ t k = none ∧ ∀ j, j < k → t j ≠ none := by
  rw [lowest, ← Fin.find?_eq_find?_finRange, Fin.find?_eq_some_iff]
  simp [Option.isNone_iff_eq_none, Option.isSome_iff_ne_none]

lemma lowest_eq_none_iff {t : Fds β} : lowest t = none ↔ ∀ fd, t fd ≠ none := by
  rw [lowest, ← Fin.find?_eq_find?_finRange, Fin.find?_eq_none_iff]
  simp [Option.isSome_iff_ne_none]

lemma alloc_of_lowest {t : Fds β} {k : Fin NOFILE} (h : lowest t = some k) (o : β) :
    alloc t o = (some k, Function.update t k (some o)) := by
  simp [alloc, h]

/-- A free descriptor below which every one is taken is the one `fdalloc` takes. -/
lemma alloc_eq {t : Fds β} {k : Fin NOFILE} (hk : t k = none) (hlt : ∀ j, j < k → t j ≠ none)
    (o : β) : alloc t o = (some k, Function.update t k (some o)) :=
  alloc_of_lowest (lowest_eq_some_iff.2 ⟨hk, hlt⟩) o

lemma alloc_some {t t' : Fds β} {o : β} {k : Fin NOFILE} (h : alloc t o = (some k, t')) :
    lowest t = some k ∧ t' = Function.update t k (some o) := by
  unfold alloc at h
  split at h
  · cases h
  · rename_i k₀ hk₀
    simp only [Prod.mk.injEq, Option.some.injEq] at h
    obtain ⟨rfl, rfl⟩ := h
    exact ⟨hk₀, rfl⟩

lemma alloc_none {t t' : Fds β} {o : β} (h : alloc t o = (none, t')) : lowest t = none := by
  unfold alloc at h
  split at h
  · assumption
  · cases h

/-- How far the lowest free descriptor is from the end of the table; `0` when none is free.
Every `alloc` that succeeds makes it smaller. -/
def room (t : Fds β) : ℕ := (lowest t).elim 0 fun k => NOFILE - k.val

lemma room_alloc_lt {t t' : Fds β} {o : β} {k : Fin NOFILE} (h : alloc t o = (some k, t')) :
    room t' < room t := by
  obtain ⟨hk, rfl⟩ := alloc_some h
  obtain ⟨-, hbelow⟩ := lowest_eq_some_iff.1 hk
  unfold room
  rw [hk]
  cases hk' : lowest (Function.update t k (some o)) with
  | none => simp only [Option.elim_none, Option.elim_some]; omega
  | some k' =>
    -- the next free descriptor is above `k`: `k` is taken now, and all below it were
    obtain ⟨hfree', -⟩ := lowest_eq_some_iff.1 hk'
    have hne : k' ≠ k := fun e => by rw [e] at hfree'; simp at hfree'
    have hlt : k < k' := by
      rcases lt_trichotomy k' k with hlt | heq | hgt
      · exact absurd (by rwa [Function.update_of_ne hne] at hfree') (hbelow k' hlt)
      · exact absurd heq hne
      · exact hgt
    simp only [Option.elim_some]
    have : k.val < k'.val := hlt
    omega

/-! ## The open-file table's calls on the caller's descriptors -/

section Kernel

open Xv6.FileTable

variable {σ : Type} (P : Xv6.Lib.Alloc.Pool σ) {s s' : FSys σ} {p : Fin NPROC}

lemma setFd_ofile_self (s : FSys σ) (p : Fin NPROC) (fd : Fin NOFILE) (x : Option (Fin NFILE)) :
    (s.setFd p fd x).ofile p = Function.update (s.ofile p) fd x := by
  funext g
  simp [Function.update_apply]

/-- **`fdalloc` takes the descriptor `alloc` takes**, in the calling process's table. -/
lemma fdalloc_eq (s : FSys σ) (p : Fin NPROC) (f : Fin NFILE) :
    (fdalloc s p f).1 = (alloc (s.ofile p) f).1 ∧
      (fdalloc s p f).2.ofile p = (alloc (s.ofile p) f).2 := by
  unfold fdalloc alloc
  rw [← lowest]
  cases lowest (s.ofile p) with
  | none => exact ⟨rfl, rfl⟩
  | some fd => exact ⟨rfl, setFd_ofile_self s p fd (some f)⟩

/-- **`sys_dup` changes the caller's descriptors as `dup` does.** -/
theorem sys_dup_ofile {fd r : ℤ} (hfd : 0 ≤ fd) (h : sys_dup s p fd = some (r, s')) :
    s'.ofile p = (dup (s.ofile p) fd.toNat).2 := by
  unfold sys_dup argfd at h
  unfold dup
  by_cases hlt : fd < NOFILE
  · have hn : fd.toNat < NOFILE := by omega
    rw [dif_pos ⟨hfd, hlt⟩] at h
    rw [dif_pos hn]
    cases hf : s.ofile p ⟨fd.toNat, hn⟩ with
    | none =>
      simp only [hf, Option.map_none] at h
      cases h
      rfl
    | some f =>
      simp only [hf, Option.map_some] at h
      have ha := fdalloc_eq s p f
      rcases hfa : fdalloc s p f with ⟨_ | fd', s₁⟩
      · rw [hfa] at h ha
        cases h
        exact ha.2
      · rw [hfa] at h ha
        obtain ⟨file, -, hs⟩ := Option.map_eq_some_iff.1 h
        cases hs
        exact ha.2
  · rw [dif_neg fun h' => hlt h'.2] at h
    cases h
    rw [dif_neg (by omega)]

/-- **`sys_close` changes the caller's descriptors as `close` does.** -/
theorem sys_close_ofile {fd r : ℤ} (hfd : 0 ≤ fd) (h : sys_close P s p fd = some (r, s')) :
    s'.ofile p = close (s.ofile p) fd.toNat := by
  unfold sys_close argfd at h
  unfold close
  by_cases hlt : fd < NOFILE
  · have hn : fd.toNat < NOFILE := by omega
    rw [dif_pos ⟨hfd, hlt⟩] at h
    rw [dif_pos hn]
    cases hf : s.ofile p ⟨fd.toNat, hn⟩ with
    | none =>
      simp only [hf, Option.map_none] at h
      cases h
      funext g
      by_cases hg : g = ⟨fd.toNat, hn⟩
      · subst hg
        simp [hf]
      · simp [hg]
    | some f =>
      simp only [hf, Option.map_some] at h
      obtain ⟨⟨s₁, rel⟩, hc, hs⟩ := Option.map_eq_some_iff.1 h
      cases hs
      rw [(fileclose_frame hc).1, setFd_ofile_self]
  · rw [dif_neg fun h' => hlt h'.2] at h
    cases h
    rw [dif_neg (by omega)]

lemma pipealloc_ofile {s₁ : FSys σ} {x : Option (Fin NFILE × Fin NFILE)}
    (h : pipealloc P s = some (x, s₁)) : s₁.ofile = s.ofile := by
  unfold pipealloc at h
  rcases hf0 : filealloc s.file with ⟨_ | f0, file₀⟩ <;> rw [hf0] at h <;> dsimp only at h
  · cases h
    rfl
  rcases hf1 : filealloc file₀ with ⟨_ | f1, file₁⟩ <;> rw [hf1] at h <;> dsimp only at h
  · obtain ⟨⟨s₂, rel⟩, hc, hs⟩ := Option.map_eq_some_iff.1 h
    cases hs
    exact (fileclose_frame hc).1
  rcases hm : P.alloc s.mem with ⟨_ | pi, mem⟩ <;> rw [hm] at h <;> dsimp only at h
  · obtain ⟨s₂, hc, hs⟩ := Option.map_eq_some_iff.1 h
    cases hs
    unfold closeBoth at hc
    obtain ⟨⟨s₃, r₃⟩, hc₁, hc₂⟩ := Option.bind_eq_some_iff.1 hc
    obtain ⟨⟨s₄, r₄⟩, hc₃, hs₄⟩ := Option.map_eq_some_iff.1 hc₂
    cases hs₄
    rw [(fileclose_frame hc₃).1, (fileclose_frame hc₁).1]
  · cases h
    rfl

/-- **A `pipe` call that succeeds puts its ends where `pipe` does.** -/
theorem sys_pipe_ofile (h : sys_pipe P s p true = some (0, s')) :
    ∃ rf wf fd0 fd1, pipe (s.ofile p) rf wf = some (fd0, fd1, s'.ofile p) := by
  unfold sys_pipe at h
  rcases hpa : pipealloc P s with _ | ⟨_ | ⟨rf, wf⟩, s₁⟩ <;> rw [hpa] at h
  · cases h
  · cases h
  have hs₁ := pipealloc_ofile P hpa
  dsimp only at h
  have h₀ := fdalloc_eq s₁ p rf
  rcases hfa₀ : fdalloc s₁ p rf with ⟨_ | fd0, s₂⟩ <;> rw [hfa₀] at h h₀
  · obtain ⟨s₃, -, hs⟩ := Option.map_eq_some_iff.1 h
    cases hs
  dsimp only at h
  have h₁ := fdalloc_eq s₂ p wf
  rcases hfa₁ : fdalloc s₂ p wf with ⟨_ | fd1, s₃⟩ <;> rw [hfa₁] at h h₁
  · obtain ⟨s₄, -, hs⟩ := Option.map_eq_some_iff.1 h
    cases hs
  simp only [if_true, Option.some.injEq, Prod.mk.injEq] at h
  obtain ⟨-, rfl⟩ := h
  refine ⟨rf, wf, fd0, fd1, ?_⟩
  -- the two `fdalloc`s are the two `alloc`s of `pipe`
  rw [hs₁] at h₀
  unfold pipe
  rcases ha₀ : alloc (s.ofile p) rf with ⟨_ | k₀, t₁⟩ <;> rw [ha₀] at h₀
  · cases h₀.1
  obtain ⟨hk₀, ht₁⟩ := h₀
  cases hk₀
  dsimp only
  rw [ht₁] at h₁
  rcases ha₁ : alloc t₁ wf with ⟨_ | k₁, t₂⟩ <;> rw [ha₁] at h₁
  · cases h₁.1
  obtain ⟨hk₁, ht₂⟩ := h₁
  cases hk₁
  rw [ht₂]

end Kernel

/-! ## Tables with the standard descriptors open -/

lemma three_lt : 3 < NOFILE := by decide

lemma four_lt : 4 < NOFILE := by decide

lemma lt_nofile {d : ℕ} (hd : d < 3) : d < NOFILE := by unfold NOFILE; omega

/-- Descriptors `0`, `1` and `2` referring to `s 0`, `s 1` and `s 2`, and the others as in
`u`. -/
def stdOver (s : Fin 3 → β) (u : Fds β) : Fds β :=
  fun fd => if h : fd.val < 3 then some (s ⟨fd.val, h⟩) else u fd

/-- Only `0`, `1` and `2` open, as `main` of the shell leaves them. -/
def std (s : Fin 3 → β) : Fds β := stdOver s fun _ => none

/-- A pipe's read end at `3` and write end at `4`, and nothing else. -/
def ends (r w : β) : Fds β :=
  fun fd => if fd.val = 3 then some r else if fd.val = 4 then some w else none

variable {s : Fin 3 → β} {u : Fds β}

lemma stdOver_lt {fd : Fin NOFILE} (h : fd.val < 3) : stdOver s u fd = some (s ⟨fd.val, h⟩) :=
  dif_pos h

lemma stdOver_ge {fd : Fin NOFILE} (h : 3 ≤ fd.val) : stdOver s u fd = u fd :=
  dif_neg (by omega)

lemma std_ne_none_iff {fd : Fin NOFILE} : std s fd ≠ none ↔ fd.val < 3 := by
  by_cases h : fd.val < 3
  · simp [std, stdOver_lt h, h]
  · simp [std, stdOver_ge (show 3 ≤ fd.val by omega), h]

lemma std_eq_some {fd : Fin NOFILE} {o : β} (h : std s fd = some o) :
    ∃ h3 : fd.val < 3, s ⟨fd.val, h3⟩ = o := by
  have h3 : fd.val < 3 := std_ne_none_iff.1 (by rw [h]; simp)
  rw [std, stdOver_lt h3, Option.some.injEq] at h
  exact ⟨h3, h⟩

/-- What the standard descriptors refer to, `d` for one that is not open. -/
def streams (t : Fds β) (d : β) : Fin 3 → β := fun i => (t ⟨i.val, lt_nofile i.isLt⟩).getD d

/-- A table with the standard descriptors open and no other is `std` of its streams. -/
lemma eq_std {t : Fds β} (hlo : ∀ fd : Fin NOFILE, fd.val < 3 → t fd ≠ none)
    (hhi : ∀ fd : Fin NOFILE, 3 ≤ fd.val → t fd = none) (d : β) : t = std (streams t d) := by
  funext fd
  by_cases h3 : fd.val < 3
  · rw [std, stdOver_lt h3]
    obtain ⟨o, ho⟩ := Option.ne_none_iff_exists'.1 (hlo fd h3)
    simp [streams, ho]
  · rw [std, stdOver_ge (by omega), hhi fd (by omega)]

lemma update_stdOver {d : ℕ} (hd : d < 3) (o : β) :
    Function.update (stdOver s u) ⟨d, lt_nofile hd⟩ (some o) =
      stdOver (Function.update s ⟨d, hd⟩ o) u := by
  funext fd
  by_cases hfd : fd.val = d
  · rw [show fd = ⟨d, lt_nofile hd⟩ from Fin.ext hfd]
    simp [stdOver, hd]
  · rw [Function.update_of_ne (fun h => hfd (congrArg Fin.val h))]
    by_cases h3 : fd.val < 3
    · rw [stdOver_lt h3, stdOver_lt h3, Function.update_of_ne (fun h => hfd (congrArg Fin.val h))]
    · rw [stdOver_ge (by omega), stdOver_ge (by omega)]

/-- **Reopening a standard descriptor fills it again**: after `close(d)`, `d` is the lowest
free descriptor, whatever is open above the standard ones. -/
theorem alloc_close_stdOver {d : ℕ} (hd : d < 3) (o : β) :
    alloc (close (stdOver s u) d) o =
      (some ⟨d, lt_nofile hd⟩, stdOver (Function.update s ⟨d, hd⟩ o) u) := by
  have hc : close (stdOver s u) d = Function.update (stdOver s u) ⟨d, lt_nofile hd⟩ none := by
    simp [close, lt_nofile hd]
  -- every descriptor below `d` is a standard one, and open
  have hbelow : ∀ j, j < (⟨d, lt_nofile hd⟩ : Fin NOFILE) →
      Function.update (stdOver s u) ⟨d, lt_nofile hd⟩ none j ≠ none := by
    intro j hj
    have hj' : j.val < d := hj
    rw [Function.update_of_ne (fun h => by rw [h] at hj'; simp at hj'), stdOver_lt (by omega)]
    simp
  rw [hc, alloc_eq (Function.update_self _ _ _) hbelow, Function.update_idem, update_stdOver hd]

/-- `dup(e)` of a descriptor above the standard ones, right after `close(d)` of a standard
one, puts what `e` refers to at `d`. -/
theorem dup_close_stdOver {d e : ℕ} (hd : d < 3) (he : 3 ≤ e) (hen : e < NOFILE) {o : β}
    (hu : u ⟨e, hen⟩ = some o) :
    dup (close (stdOver s u) d) e =
      (some ⟨d, lt_nofile hd⟩, stdOver (Function.update s ⟨d, hd⟩ o) u) := by
  have hne : (⟨e, hen⟩ : Fin NOFILE) ≠ ⟨d, lt_nofile hd⟩ :=
    fun h => by simp only [Fin.mk.injEq] at h; omega
  have hce : close (stdOver s u) d ⟨e, hen⟩ = some o := by
    simp only [close, lt_nofile hd, dif_pos]
    rw [Function.update_of_ne hne, stdOver_ge he, hu]
  simp only [dup, hen, dif_pos, hce]
  exact alloc_close_stdOver hd o

lemma close_stdOver {e : ℕ} (he : 3 ≤ e) : close (stdOver s u) e = stdOver s (close u e) := by
  unfold close
  split
  · funext fd
    by_cases h3 : fd.val < 3
    · have hne : fd ≠ ⟨e, by omega⟩ := fun h => by rw [h] at h3; simp at h3; omega
      rw [Function.update_of_ne hne, stdOver_lt h3, stdOver_lt h3]
    · rw [Function.update_apply, stdOver_ge (by omega), stdOver_ge (by omega),
        Function.update_apply]
  · rfl

/-- **A pipe's ends land at `3` and `4`.** -/
theorem pipe_std (r w : β) :
    pipe (std s) r w = some (⟨3, three_lt⟩, ⟨4, four_lt⟩, stdOver s (ends r w)) := by
  have h₀ : alloc (std s) r =
      (some ⟨3, three_lt⟩, Function.update (std s) ⟨3, three_lt⟩ (some r)) := by
    refine alloc_eq (by simp [std, stdOver]) (fun j hj => ?_) r
    have hj' : j.val < 3 := hj
    simp [std, stdOver_lt hj']
  have h₁ : alloc (Function.update (std s) ⟨3, three_lt⟩ (some r)) w =
      (some ⟨4, four_lt⟩, stdOver s (ends r w)) := by
    have h4 : Function.update (std s) ⟨3, three_lt⟩ (some r) ⟨4, four_lt⟩ = none := by
      simp [std, stdOver]
    refine (alloc_eq h4 (fun j hj => ?_) w).trans ?_
    · have hj' : j.val < 4 := hj
      by_cases h3 : j = ⟨3, three_lt⟩
      · simp [h3]
      · rw [Function.update_of_ne h3]
        have : j.val ≠ 3 := fun h => h3 (Fin.ext h)
        simp [std, stdOver_lt (show j.val < 3 by omega)]
    · congr 1
      funext fd
      simp only [Function.update_apply, std, stdOver, ends, Fin.ext_iff]
      split_ifs <;> first | rfl | omega
  simp [pipe, h₀, h₁]

lemma close_close_ends (r w : β) : close (close (ends r w) 3) 4 = fun _ => none := by
  funext fd
  simp only [close, three_lt, four_lt, dif_pos, Function.update_apply, ends]
  split_ifs <;> simp_all [Fin.ext_iff]

/-- **A pipe's child wired to one end**: `close(d); dup(e); close(3); close(4)` on the pipe's
table leaves only the standard descriptors open, `d` referring to the end that was at `e`. -/
theorem wire_std {d e : ℕ} (hd : d < 3) (he : 3 ≤ e) (hen : e < NOFILE) {r w o : β}
    (ho : ends r w ⟨e, hen⟩ = some o) :
    close (close (dup (close (stdOver s (ends r w)) d) e).2 3) 4 =
      std (Function.update s ⟨d, hd⟩ o) := by
  rw [dup_close_stdOver hd he hen ho, close_stdOver le_rfl, close_stdOver (by norm_num),
    close_close_ends]
  rfl

end Fds

end Xv6.Sh
