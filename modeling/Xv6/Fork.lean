import Xv6.ProcStep

/-!
The `kfork`s in progress.

Between its sections `kfork` leaves its child where other CPUs see it: after the first,
`USED` with no parent, where a holder of `wait_lock` finds it; after the second, `USED` with
the parent `p`. `ForkOK` is what the sections keep. A slot is `USED` only as the child of one
`kfork` in progress; the child has no parent, or the parent `p`, as the section reached says;
a process inside `kfork` is `RUNNING` or `RUNNABLE`, since it takes no step there but its
sections and `yield`; and a free slot has no parent, so that `allocproc` hands out a child
with none. Every step keeps `ForkOK` in a state whose CPUs run `RUNNING` processes, which
`Running` shows of every reachable state.
-/

namespace Xv6.Fork

open Xv6.Param Xv6.ProcTable Xv6.Sched Xv6.ProcStep

/-- The states of a process inside `kfork`: on a CPU, or waiting for one after a `yield`. -/
def Awake (st : Procstate) : Prop := st = .RUNNING ∨ st = .RUNNABLE

/-- Every CPU runs a `RUNNING` process. -/
def OnCpu (s : Sys) : Prop := ∀ c p, s.cpus c = some p → (s.proc p).state = .RUNNING

/-- What the sections of the `kfork`s in progress leave in the table. -/
structure ForkOK (s : Sys) : Prop where
  free : ∀ i, (s.proc i).state = .UNUSED → (s.proc i).parent = none
  parent : ∀ p np, s.forking p = .parent np →
    (s.proc np).state = .USED ∧ (s.proc np).parent = none
  run : ∀ p np, s.forking p = .run np → (s.proc np).state = .USED ∧ (s.proc np).parent = some p
  used : ∀ i, (s.proc i).state = .USED → ∃ p, (s.forking p).child = some i
  unique : ∀ p q np, (s.forking p).child = some np → (s.forking q).child = some np → p = q
  live : ∀ p, s.forking p ≠ .idle → Awake (s.proc p).state

lemma forkOK_boot : ForkOK boot where
  free _ _ := rfl
  parent _ _ h := by cases h
  run _ _ h := by cases h
  used _ h := by cases h
  unique _ _ _ h := by cases h
  live _ h := absurd rfl h

/-- A change of states and parents outside every `kfork`: a state stays or goes from
`SLEEPING` to `RUNNABLE`, and a parent changes only on a slot neither free nor `USED`. The
wakeups, `kkill`, `reparent` and the calls that touch neither are such changes. -/
structure Wakes (s s' : Sys) : Prop where
  forking : s'.forking = s.forking
  state : ∀ i, (s'.proc i).state = (s.proc i).state ∨
    (s.proc i).state = .SLEEPING ∧ (s'.proc i).state = .RUNNABLE
  parent : ∀ i, (s'.proc i).parent = (s.proc i).parent ∨
    (s.proc i).state ≠ .UNUSED ∧ (s.proc i).state ≠ .USED

namespace Wakes

variable {s t u : Sys}

lemma refl (s : Sys) : Wakes s s := ⟨rfl, fun _ => .inl rfl, fun _ => .inl rfl⟩

lemma trans (h₁ : Wakes s t) (h₂ : Wakes t u) : Wakes s u := by
  refine ⟨h₂.forking.trans h₁.forking, fun i => ?_, fun i => ?_⟩
  · rcases h₁.state i with e₁ | ⟨e₁, e₁'⟩ <;> rcases h₂.state i with e₂ | ⟨e₂, e₂'⟩
    · exact .inl (e₂.trans e₁)
    · exact .inr ⟨e₁ ▸ e₂, e₂'⟩
    · exact .inr ⟨e₁, e₂.trans e₁'⟩
    · rw [e₁'] at e₂; cases e₂
  · -- a slot whose parent changes in either step was neither free nor `USED` before both
    have hst : (t.proc i).state ≠ .UNUSED ∧ (t.proc i).state ≠ .USED →
        (s.proc i).state ≠ .UNUSED ∧ (s.proc i).state ≠ .USED := by
      rcases h₁.state i with e | ⟨e, -⟩
      · exact fun h => e ▸ h
      · exact fun _ => by simp [e]
    rcases h₁.parent i with e₁ | e₁ <;> rcases h₂.parent i with e₂ | e₂
    · exact .inl (e₂.trans e₁)
    · exact .inr (hst e₂)
    · exact .inr e₁
    · exact .inr e₁

lemma of_slots (hf : t.forking = s.forking)
    (h : ∀ i, (t.proc i).parent = (s.proc i).parent ∧ ((t.proc i).state = (s.proc i).state ∨
      (s.proc i).state = .SLEEPING ∧ (t.proc i).state = .RUNNABLE)) : Wakes s t :=
  ⟨hf, fun i => (h i).2, fun i => .inl (h i).1⟩

lemma wakeup (s : Sys) (me : Option (Fin NPROC)) (chan : Chan) :
    Wakes s (ProcTable.wakeup s me chan) := by
  refine of_slots rfl fun i => ?_
  simp only [ProcTable.wakeup]
  split_ifs with h
  · exact ⟨rfl, .inr ⟨h.2.1, rfl⟩⟩
  · exact ⟨rfl, .inl rfl⟩

lemma kkill (s : Sys) (pid : ℤ) : Wakes s (ProcTable.kkill s pid).2 := by
  unfold ProcTable.kkill
  split
  · exact refl s
  · rename_i i _
    refine of_slots rfl fun j => ?_
    by_cases hj : j = i
    · subst hj
      by_cases hs : (s.proc j).state = .SLEEPING <;> simp [hs]
    · simp [hj]

lemma setProc {i : Fin NPROC} {q : Proc} (hs : q.state = (s.proc i).state)
    (hp : q.parent = (s.proc i).parent ∨
      (s.proc i).state ≠ .UNUSED ∧ (s.proc i).state ≠ .USED) :
    Wakes s (s.setProc i q) := by
  refine ⟨rfl, fun j => .inl ?_, fun j => ?_⟩
  · by_cases hj : j = i
    · subst hj; simp [hs]
    · simp [hj]
  · by_cases hj : j = i
    · subst hj; simpa using hp
    · exact .inl (by simp [hj])

end Wakes

namespace ForkOK

variable {s s' : Sys}

lemma child_used (h : ForkOK s) {p np : Fin NPROC} (hp : (s.forking p).child = some np) :
    (s.proc np).state = .USED := by
  cases hf : s.forking p with
  | idle => simp [hf, Forking.child] at hp
  | parent i =>
    simp only [hf, Forking.child, Option.some.injEq] at hp
    exact hp ▸ (h.parent p i hf).1
  | run i =>
    simp only [hf, Forking.child, Option.some.injEq] at hp
    exact hp ▸ (h.run p i hf).1

/-- A process that is not awake is in no `kfork`. -/
lemma idle_of_not_awake (h : ForkOK s) {i : Fin NPROC} (hi : ¬Awake (s.proc i).state) :
    s.forking i = .idle := by
  by_contra hne
  exact hi (h.live i hne)

lemma wakes (h : ForkOK s) (hw : Wakes s s') : ForkOK s' := by
  -- a slot that is `USED`, or free, after the change was so before
  have hused : ∀ i, (s'.proc i).state = .USED → (s.proc i).state = .USED := fun i hi => by
    rcases hw.state i with e | ⟨-, e⟩ <;> rw [e] at hi
    · exact hi
    · cases hi
  have hfree : ∀ i, (s'.proc i).state = .UNUSED → (s.proc i).state = .UNUSED := fun i hi => by
    rcases hw.state i with e | ⟨-, e⟩ <;> rw [e] at hi
    · exact hi
    · cases hi
  -- a `USED` slot keeps its state and parent
  have hkeep : ∀ i, (s.proc i).state = .USED →
      (s'.proc i).state = .USED ∧ (s'.proc i).parent = (s.proc i).parent := fun i hi => by
    refine ⟨?_, ?_⟩
    · rcases hw.state i with e | ⟨e, -⟩
      · rw [e, hi]
      · rw [hi] at e; cases e
    · rcases hw.parent i with e | e
      · exact e
      · exact absurd hi e.2
  have hf := hw.forking
  refine ⟨fun i hi => ?_, fun p np hp => ?_, fun p np hp => ?_, fun i hi => ?_,
    fun p q np => ?_, fun p hp => ?_⟩
  · rcases hw.parent i with e | e
    · rw [e]; exact h.free i (hfree i hi)
    · exact absurd (hfree i hi) e.1
  · rw [hf] at hp
    obtain ⟨hu, hpar⟩ := h.parent p np hp
    obtain ⟨hu', hpar'⟩ := hkeep np hu
    exact ⟨hu', hpar'.trans hpar⟩
  · rw [hf] at hp
    obtain ⟨hu, hpar⟩ := h.run p np hp
    obtain ⟨hu', hpar'⟩ := hkeep np hu
    exact ⟨hu', hpar'.trans hpar⟩
  · rw [hf]; exact h.used i (hused i hi)
  · rw [hf]; exact h.unique p q np
  · rw [hf] at hp
    -- an awake process stays awake: it is not `SLEEPING`
    have ha := h.live p hp
    rcases hw.state p with e | ⟨e, -⟩
    · rw [e]; exact ha
    · rcases ha with ha | ha <;> rw [ha] at e <;> cases e

/-- Writing a slot outside every `kfork`: a slot neither `USED` before nor after, free only
without a parent, and awake if it is inside a `kfork`. -/
lemma setProc (h : ForkOK s) {i : Fin NPROC} {q : Proc} (hi : (s.proc i).state ≠ .USED)
    (hq : q.state ≠ .USED) (hfree : q.state = .UNUSED → q.parent = none)
    (hlive : s.forking i ≠ .idle → Awake q.state) : ForkOK (s.setProc i q) := by
  -- the children of the `kfork`s in progress are `USED`, so none of them is `i`
  have hne : ∀ p np, (s.forking p).child = some np → np ≠ i := fun p np hp he =>
    hi (he ▸ h.child_used hp)
  refine ⟨fun j hj => ?_, fun p np hp => ?_, fun p np hp => ?_, fun j hj => ?_,
    h.unique, fun p hp => ?_⟩
  · by_cases hji : j = i
    · subst hji; simp_all
    · simp only [Sys.setProc_proc, if_neg hji] at hj ⊢
      exact h.free j hj
  · simp only [Sys.setProc_forking] at hp
    have hnp := hne p np (by simp [hp, Forking.child])
    simpa [hnp] using h.parent p np hp
  · simp only [Sys.setProc_forking] at hp
    have hnp := hne p np (by simp [hp, Forking.child])
    simpa [hnp] using h.run p np hp
  · by_cases hji : j = i
    · subst hji; simp_all
    · simp only [Sys.setProc_proc, if_neg hji] at hj
      exact h.used j hj
  · by_cases hpi : p = i
    · subst hpi; simpa using hlive hp
    · simpa [hpi] using h.live p hp

/-- The scheduler makes a `RUNNABLE` slot `RUNNING`. -/
lemma setRunning (h : ForkOK s) {p : Fin NPROC} (hp : (s.proc p).state = .RUNNABLE) :
    ForkOK (s.setProc p { s.proc p with state := .RUNNING }) :=
  h.setProc (by simp [hp]) (by simp) (by simp) fun _ => .inl rfl

/-- `reparent` by a process in no `kfork` moves only children in use and not `USED`: a
`USED` child of `q` would be the child of a `kfork` of `q`. -/
lemma wakes_reparentAt (h : ForkOK s) {q : Fin NPROC} (hq : s.forking q = .idle)
    (pp : Fin NPROC) : Wakes s (reparentAt q s pp) := by
  unfold reparentAt
  split_ifs with hpp
  · have hfree : (s.proc pp).state ≠ .UNUSED := fun hu => by simp [h.free pp hu] at hpp
    have hused : (s.proc pp).state ≠ .USED := by
      intro hu
      obtain ⟨p, hp⟩ := h.used pp hu
      cases hf : s.forking p with
      | idle => simp [hf, Forking.child] at hp
      | parent i =>
        simp only [hf, Forking.child, Option.some.injEq] at hp
        subst hp
        simp [(h.parent p _ hf).2] at hpp
      | run i =>
        -- the parent `p` is `q`, which is in no `kfork`
        simp only [hf, Forking.child, Option.some.injEq] at hp
        subst hp
        rw [(h.run p _ hf).2, Option.some.injEq] at hpp
        subst hpp
        rw [hq] at hf
        cases hf
    exact (Wakes.setProc (q := { s.proc pp with parent := s.initproc }) rfl
      (.inr ⟨hfree, hused⟩)).trans (Wakes.wakeup _ _ _)
  · exact Wakes.refl s

lemma wakes_reparent (h : ForkOK s) {q : Fin NPROC} (hq : s.forking q = .idle) :
    Wakes s (reparent s q) := by
  -- each iteration of the loop keeps `ForkOK`, so the next one too moves only such children
  suffices hl : ∀ (l : List (Fin NPROC)) (t : Sys), Wakes s t →
      Wakes s (l.foldl (reparentAt q) t) from hl _ s (Wakes.refl s)
  intro l
  induction l with
  | nil => exact fun _ ht => ht
  | cons pp l ih =>
    intro t ht
    have hqt : t.forking q = .idle := by rw [ht.forking]; exact hq
    exact ih _ (ht.trans ((h.wakes ht).wakes_reparentAt hqt pp))

lemma congr (h : ForkOK s) (hp : s'.proc = s.proc) (hf : s'.forking = s.forking) :
    ForkOK s' :=
  h.wakes ⟨hf, fun i => .inl (by rw [hp]), fun i => .inl (by rw [hp])⟩

lemma setCpu (h : ForkOK s) (c : Fin NCPU) (x : Option (Fin NPROC)) : ForkOK (s.setCpu c x) :=
  h.congr rfl rfl

lemma toScheduler (h : ForkOK s) (c : Fin NCPU) : ForkOK (ProcTable.toScheduler s c) :=
  h.setCpu c none

lemma rand_state (h : ForkOK s) (r : ℕ) : ForkOK { s with rand_state := r } :=
  h.congr rfl rfl

lemma setIdle (h : ForkOK s) {p : Fin NPROC} {q : Proc} (hp : Awake (s.proc p).state)
    (hf : s.forking p = .idle) (hq : q.state ≠ .USED) (hfree : q.state = .UNUSED → q.parent = none) :
    ForkOK (s.setProc p q) :=
  h.setProc (fun hu => by rcases hp with hp | hp <;> simp [hu] at hp) hq hfree
    fun hne => absurd hf hne

/-- `yield` leaves an awake process, in a `kfork` or not, `RUNNABLE`. -/
lemma yield (h : ForkOK s) {c : Fin NCPU} {p : Fin NPROC} (hp : (s.proc p).state = .RUNNING) :
    ForkOK (ProcTable.yield s c p) :=
  (h.setProc (by simp [hp]) (by simp) (by simp) fun _ => .inr rfl).toScheduler c

lemma scheduler (h : ForkOK s) (c : Fin NCPU) : ForkOK (Sched.scheduler s c) := by
  unfold Sched.scheduler
  split
  · exact h.rand_state _
  · rename_i p rs hround
    exact ((h.setRunning (schedulerRound_runnable hround)).setCpu c (some p)).rand_state rs

lemma userinit (h : ForkOK s) (hs : ProcTable.userinit s = some s') : ForkOK s' := by
  unfold ProcTable.userinit at hs
  rcases ha : allocproc s true with ⟨_ | i, s₁⟩ <;> rw [ha] at hs <;> dsimp only at hs
  · cases hs
  · obtain ⟨hU, -, rfl⟩ := allocproc_some ha
    cases hs
    -- the slot goes from `UNUSED` to `RUNNABLE` at once
    have h₀ : ForkOK ({ s with nextpid := i32 (s.nextpid + 1) } : Sys) := h.congr rfl rfl
    have h₁ : ForkOK ((({ s with nextpid := i32 (s.nextpid + 1) } : Sys).setProc i
        { s.proc i with pid := s.nextpid, tickets := 10, state := .RUNNABLE })) :=
      h₀.setProc (by simp [hU]) (by simp) (by simp) fun _ => .inr rfl
    refine h₁.congr ?_ rfl
    simp [Sys.setProc]

lemma freed (h : ForkOK s) {i : Fin NPROC} (hU : (s.proc i).state = .UNUSED) (n : ℤ) (q : Proc) :
    ForkOK ((({ s with nextpid := n } : Sys)).setProc i (freeproc q)) := by
  have hidle : s.forking i = .idle := h.idle_of_not_awake (by simp [Awake, hU])
  have h₀ : ForkOK ({ s with nextpid := n } : Sys) := h.congr rfl rfl
  exact h₀.setProc (by simp [hU]) (by simp [freeproc]) (by simp [freeproc])
    fun hne => absurd hidle hne

/-- Starting a `kfork`: the awake `p`, in no `kfork`, takes the free slot `np` for a `USED`
child with no parent. -/
lemma begin (h : ForkOK s) {p np : Fin NPROC} (hp : Awake (s.proc p).state)
    (hf : s.forking p = .idle) (hU : (s.proc np).state = .UNUSED) {q : Proc}
    (hq : q.state = .USED) (hqp : q.parent = none) :
    ForkOK { s.setProc np q with forking := Function.update s.forking p (.parent np) } := by
  have hpn : p ≠ np := fun he => by rcases hp with hp | hp <;> rw [he, hU] at hp <;> cases hp
  have hidle : s.forking np = .idle := h.idle_of_not_awake (by simp [Awake, hU])
  -- no `kfork` in progress has the free slot `np` for its child
  have hnot : ∀ x, (s.forking x).child ≠ some np := fun x hx => by
    simp [h.child_used hx] at hU
  refine ⟨fun j hj => ?_, fun x n hx => ?_, fun x n hx => ?_, fun j hj => ?_,
    fun x y n hx hy => ?_, fun x hx => ?_⟩
  · by_cases hj' : j = np
    · subst hj'; simp [hq] at hj
    · simp only [Sys.setProc_proc, if_neg hj'] at hj ⊢
      exact h.free j hj
  · by_cases hxp : x = p
    · subst hxp
      simp only [Function.update_self, Forking.parent.injEq] at hx
      subst hx
      simp [hq, hqp]
    · simp only [Function.update_of_ne hxp] at hx
      have hn : n ≠ np := fun he => hnot x (by simp [hx, he, Forking.child])
      simpa [hn] using h.parent x n hx
  · by_cases hxp : x = p
    · subst hxp; simp at hx
    · simp only [Function.update_of_ne hxp] at hx
      have hn : n ≠ np := fun he => hnot x (by simp [hx, he, Forking.child])
      simpa [hn] using h.run x n hx
  · by_cases hj' : j = np
    · exact ⟨p, by simp [hj', Forking.child]⟩
    · simp only [Sys.setProc_proc, if_neg hj'] at hj
      obtain ⟨x, hx⟩ := h.used j hj
      have hxp : x ≠ p := fun he => by simp [he, hf, Forking.child] at hx
      exact ⟨x, by simpa [Function.update_of_ne hxp] using hx⟩
  · by_cases hxp : x = p <;> by_cases hyp : y = p
    · exact hxp.trans hyp.symm
    · simp only [hxp, Function.update_self, Forking.child, Option.some.injEq] at hx
      simp only [Function.update_of_ne hyp] at hy
      exact absurd (hx ▸ hy) (hnot y)
    · simp only [hyp, Function.update_self, Forking.child, Option.some.injEq] at hy
      simp only [Function.update_of_ne hxp] at hx
      exact absurd (hy ▸ hx) (hnot x)
    · simp only [Function.update_of_ne hxp, Function.update_of_ne hyp] at hx hy
      exact h.unique x y n hx hy
  · by_cases hxp : x = p
    · subst hxp; simpa [hpn] using hp
    · simp only [Function.update_of_ne hxp] at hx
      have hxn : x ≠ np := fun he => hx (he ▸ hidle)
      simpa [hxn] using h.live x hx

/-- The first section of `kfork` by an awake process in no `kfork`. -/
lemma kforkAlloc (h : ForkOK s) {p : Fin NPROC} (hp : Awake (s.proc p).state)
    (hf : s.forking p = .idle) (ok copyok : Bool) :
    ForkOK (ProcTable.kforkAlloc s p ok copyok).2 := by
  unfold ProcTable.kforkAlloc
  rcases ha : allocproc s ok with ⟨_ | np, s₁⟩ <;> dsimp only
  · rcases allocproc_none ha with rfl | ⟨i, hU, rfl⟩
    · exact h
    · exact h.freed hU _ _
  obtain ⟨hU, -, rfl⟩ := allocproc_some ha
  cases copyok
  · simpa using h.freed hU _ _
  · -- the child, `USED`, keeps the parent the free slot had: none
    have h₀ : ForkOK ({ s with nextpid := i32 (s.nextpid + 1) } : Sys) := h.congr rfl rfl
    have hpn : p ≠ np := fun he => by rcases hp with hp | hp <;> rw [he, hU] at hp <;> cases hp
    have := h₀.begin hp hf hU (q :=
      { s.proc np with pid := s.nextpid, tickets := (s.proc p).tickets, state := .USED })
      rfl (h.free np hU)
    simpa [Sys.setProc, hpn] using this

/-- The second section: the child of `p` takes `p` for its parent. -/
lemma kforkParent (h : ForkOK s) {p np : Fin NPROC} (hf : s.forking p = .parent np) :
    ForkOK (ProcTable.kforkParent s p np) := by
  obtain ⟨hU, -⟩ := h.parent p np hf
  -- every `kfork` keeps its child
  have hchild : ∀ x, ((ProcTable.kforkParent s p np).forking x).child = (s.forking x).child := by
    intro x
    by_cases hxp : x = p
    · subst hxp; simp [ProcTable.kforkParent, hf, Forking.child]
    · simp [ProcTable.kforkParent, Function.update_of_ne hxp]
  have hne : ∀ x n, x ≠ p → (s.forking x).child = some n → n ≠ np := fun x n hxp hx he =>
    hxp (h.unique x p np (he ▸ hx) (by simp [hf, Forking.child]))
  refine ⟨fun j hj => ?_, fun x n hx => ?_, fun x n hx => ?_, fun j hj => ?_,
    fun x y n hx hy => ?_, fun x hx => ?_⟩
  · by_cases hj' : j = np
    · subst hj'; simp [ProcTable.kforkParent, hU] at hj
    · simp only [ProcTable.kforkParent, Sys.setProc_proc, if_neg hj'] at hj ⊢
      exact h.free j hj
  · by_cases hxp : x = p
    · subst hxp; simp [ProcTable.kforkParent] at hx
    · simp only [ProcTable.kforkParent, Function.update_of_ne hxp] at hx
      have hn := hne x n hxp (by simp [hx, Forking.child])
      simpa [ProcTable.kforkParent, hn] using h.parent x n hx
  · by_cases hxp : x = p
    · subst hxp
      simp only [ProcTable.kforkParent, Function.update_self, Forking.run.injEq] at hx
      subst hx
      simp [ProcTable.kforkParent, hU]
    · simp only [ProcTable.kforkParent, Function.update_of_ne hxp] at hx
      have hn := hne x n hxp (by simp [hx, Forking.child])
      simpa [ProcTable.kforkParent, hn] using h.run x n hx
  · have hj₀ : (s.proc j).state = .USED := by
      by_cases hj' : j = np
      · subst hj'; exact hU
      · simpa [ProcTable.kforkParent, hj'] using hj
    obtain ⟨x, hx⟩ := h.used j hj₀
    exact ⟨x, (hchild x).trans hx⟩
  · rw [hchild] at hx hy
    exact h.unique x y n hx hy
  · -- the states stay, and so does who is in a `kfork`
    have hx' : s.forking x ≠ .idle := by
      by_cases hxp : x = p
      · subst hxp; simp [hf]
      · simpa [ProcTable.kforkParent, Function.update_of_ne hxp] using hx
    by_cases hxn : x = np
    · subst hxn; simpa [ProcTable.kforkParent] using h.live x hx'
    · simpa [ProcTable.kforkParent, hxn] using h.live x hx'

/-- The third section: the child of `p` becomes `RUNNABLE`, and `p` leaves `kfork`. -/
lemma kforkRun (h : ForkOK s) {p np : Fin NPROC} (hf : s.forking p = .run np) :
    ForkOK (ProcTable.kforkRun s p np) := by
  obtain ⟨hU, -⟩ := h.run p np hf
  have hidle : s.forking np = .idle := h.idle_of_not_awake (by simp [Awake, hU])
  have hne : ∀ x n, x ≠ p → (s.forking x).child = some n → n ≠ np := fun x n hxp hx he =>
    hxp (h.unique x p np (he ▸ hx) (by simp [hf, Forking.child]))
  refine ⟨fun j hj => ?_, fun x n hx => ?_, fun x n hx => ?_, fun j hj => ?_,
    fun x y n hx hy => ?_, fun x hx => ?_⟩
  · by_cases hj' : j = np
    · subst hj'; simp [ProcTable.kforkRun] at hj
    · simp only [ProcTable.kforkRun, Sys.setProc_proc, if_neg hj'] at hj ⊢
      exact h.free j hj
  · by_cases hxp : x = p
    · subst hxp; simp [ProcTable.kforkRun] at hx
    · simp only [ProcTable.kforkRun, Function.update_of_ne hxp] at hx
      have hn := hne x n hxp (by simp [hx, Forking.child])
      simpa [ProcTable.kforkRun, hn] using h.parent x n hx
  · by_cases hxp : x = p
    · subst hxp; simp [ProcTable.kforkRun] at hx
    · simp only [ProcTable.kforkRun, Function.update_of_ne hxp] at hx
      have hn := hne x n hxp (by simp [hx, Forking.child])
      simpa [ProcTable.kforkRun, hn] using h.run x n hx
  · have hj' : j ≠ np := fun he => by subst he; simp [ProcTable.kforkRun] at hj
    simp only [ProcTable.kforkRun, Sys.setProc_proc, if_neg hj'] at hj
    obtain ⟨x, hx⟩ := h.used j hj
    have hxp : x ≠ p := fun he => by
      subst he
      simp only [hf, Forking.child, Option.some.injEq] at hx
      exact hj' hx.symm
    exact ⟨x, by simpa [ProcTable.kforkRun, Function.update_of_ne hxp] using hx⟩
  · have hxp : x ≠ p := fun he => by subst he; simp [ProcTable.kforkRun, Forking.child] at hx
    have hyp : y ≠ p := fun he => by subst he; simp [ProcTable.kforkRun, Forking.child] at hy
    simp only [ProcTable.kforkRun, Function.update_of_ne hxp, Function.update_of_ne hyp] at hx hy
    exact h.unique x y n hx hy
  · have hxp : x ≠ p := fun he => by subst he; simp [ProcTable.kforkRun] at hx
    simp only [ProcTable.kforkRun, Function.update_of_ne hxp] at hx
    have hxn : x ≠ np := fun he => hx (he ▸ hidle)
    simpa [ProcTable.kforkRun, hxn] using h.live x hx

lemma sleep (h : ForkOK s) {c : Fin NCPU} {p : Fin NPROC} (hp : (s.proc p).state = .RUNNING)
    (hf : s.forking p = .idle) (chan : Chan) : ForkOK (ProcTable.sleep s c p chan) :=
  (h.setIdle (.inl hp) hf (by simp) (by simp)).toScheduler c

lemma kexit (h : ForkOK s) {c : Fin NCPU} {p : Fin NPROC} {status : ℤ}
    (hp : (s.proc p).state = .RUNNING) (hf : s.forking p = .idle)
    (hk : ProcTable.kexit s c p status = some s') : ForkOK s' := by
  unfold ProcTable.kexit at hk
  split_ifs at hk
  cases hk
  set t := wakeup (reparent s p) (some p) (chanOf ((reparent s p).proc p).parent)
  have hw : Wakes s t := (h.wakes_reparent hf).trans (Wakes.wakeup _ _ _)
  -- `p` is still running, and still in no `kfork`, when it becomes a `ZOMBIE`
  have ht : (t.proc p).state = .RUNNING := by
    rcases hw.state p with e | ⟨e, -⟩
    · rw [e, hp]
    · rw [hp] at e; cases e
  have htf : t.forking p = .idle := by rw [hw.forking]; exact hf
  exact ((h.wakes hw).setIdle (.inl ht) htf (by simp) (by simp)).toScheduler c

lemma kwait (h : ForkOK s) {c : Fin NCPU} {p : Fin NPROC} (hp : (s.proc p).state = .RUNNING)
    (hf : s.forking p = .idle) (copyfail : Bool) : ForkOK (ProcTable.kwait s c p copyfail).2 := by
  unfold ProcTable.kwait
  split
  · rename_i pp hpp
    have hz : (s.proc pp).state = .ZOMBIE := by simpa using List.find?_some hpp
    split_ifs
    · exact h
    · -- a `ZOMBIE` is in no `kfork`
      exact h.setProc (by simp [hz]) (by simp [freeproc]) (by simp [freeproc])
        fun hne => absurd (h.idle_of_not_awake (by simp [Awake, hz])) hne
  · split_ifs
    · exact h
    · exact h.sleep hp hf _

/-- **Every step keeps the `kfork`s in progress in order**, in a state whose CPUs run
`RUNNING` processes. -/
theorem step (hrun : OnCpu s) (h : ForkOK s) (hs : Step s s') : ForkOK s' := by
  cases hs with
  | userinit _ hs => exact h.userinit hs
  | scheduler c _ => exact h.scheduler c
  | forkAlloc c p ok copyok hc hf => exact h.kforkAlloc (.inl (hrun c p hc)) hf ok copyok
  | forkParent c p np _ hf => exact h.kforkParent hf
  | forkRun c p np _ hf => exact h.kforkRun hf
  | settickets c p n _ _ _ => exact h.wakes (Wakes.setProc rfl (.inl rfl))
  | yield c p hc => exact h.yield (hrun c p hc)
  | sleep c p chan hc hf _ => exact h.sleep (hrun c p hc) hf chan
  | wakeup c chan => exact h.wakes (Wakes.wakeup _ _ _)
  | kill c p pid _ _ _ => exact h.wakes (Wakes.kkill _ _)
  | setkilled c p _ _ => exact h.wakes (Wakes.setProc rfl (.inl rfl))
  | exit c p status hc hf hk => exact h.kexit (hrun c p hc) hf hk
  | wait c p copyfail hc hf => exact h.kwait (hrun c p hc) hf copyfail

end ForkOK

end Xv6.Fork
