import Mathlib

/-!
A circular doubly linked list with a head sentinel, as C code keeps one through `next` and
`prev` pointers. The nodes are the head, `none`, and the elements `some a`. A list of elements
`l` stands for the cycle of the head followed by `l`: its `next` map is `succ l` and its `prev`
map is `succ l.reverse`.

The pointer code of such a list is two updates: `unlink` takes an element out and
`pushFront` puts one right after the head. Each leaves pointers that are again those of a
list (`Links.unlink`, `Links.pushFront`), and a loop that follows the pointers from the head
meets the elements in order (`Links.walk_eq_find?`).
-/

namespace Xv6.Lib.CList

variable {α : Type*} [DecidableEq α]

/-- The node after `x` in the cycle of the head followed by the elements of `l`. -/
def succ : List α → Option α → Option α
  | [], _ => none
  | a :: _, none => some a
  | a :: l, some x => if x = a then l.head? else succ l (some x)

/-- Node `x` is the head or an element of `l`. -/
def OnList (l : List α) (x : Option α) : Prop := ∀ a, x = some a → a ∈ l

/-- `next` and `prev` link the head and the elements of `l`, each once and in order, into one
circular doubly linked list. Nodes off the list are not constrained. -/
structure Links (next prev : Option α → Option α) (l : List α) : Prop where
  nodup : l.Nodup
  next_eq : ∀ x, OnList l x → next x = succ l x
  prev_eq : ∀ x, OnList l x → prev x = succ l.reverse x

/-- `b->next->prev = b->prev; b->prev->next = b->next;` -/
def unlink (next prev : Option α → Option α) (b : α) :
    (Option α → Option α) × (Option α → Option α) :=
  let prev := Function.update prev (next (some b)) (prev (some b))
  let next := Function.update next (prev (some b)) (next (some b))
  (next, prev)

/-- `b->next = head.next; b->prev = &head; head.next->prev = b; head.next = b;` -/
def pushFront (next prev : Option α → Option α) (b : α) :
    (Option α → Option α) × (Option α → Option α) :=
  let next := Function.update next (some b) (next none)
  let prev := Function.update prev (some b) none
  let prev := Function.update prev (next none) (some b)
  let next := Function.update next none (some b)
  (next, prev)

/-- A loop that follows `next` from node `x` and stops at the first element with `p`, or at
the head; it follows at most `n` elements. -/
def walk (next : Option α → Option α) (p : α → Bool) : ℕ → Option α → Option α
  | 0, _ => none
  | _ + 1, none => none
  | n + 1, some a => if p a then some a else walk next p n (next (some a))

/-! ## The successor map -/

section Succ

variable {u v l : List α} {a b : α} {x : Option α}

@[simp] lemma succ_nil (x : Option α) : succ ([] : List α) x = none := by cases x <;> rfl

@[simp] lemma succ_cons_none (a : α) (l : List α) : succ (a :: l) none = some a := rfl

@[simp] lemma succ_cons_self (a : α) (l : List α) : succ (a :: l) (some a) = l.head? := by
  simp [succ]

lemma succ_cons_of_ne (h : b ≠ a) (l : List α) : succ (a :: l) (some b) = succ l (some b) := by
  simp [succ, h]

lemma succ_none (l : List α) : succ l none = l.head? := by cases l <;> rfl

omit [DecidableEq α] in
lemma onList_none (l : List α) : OnList l none := fun _ h => by cases h

omit [DecidableEq α] in
lemma onList_of_forall_mem (h : ∀ a, a ∈ l) (x : Option α) : OnList l x := fun a _ => h a

/-- After an element comes what follows it in the list. -/
lemma succ_mid (hb : b ∉ u) : succ (u ++ b :: v) (some b) = v.head? := by
  induction u with
  | nil => simp
  | cons c u ih =>
    have hbc : b ≠ c := fun h => hb (h ▸ List.mem_cons_self)
    rw [List.cons_append, succ_cons_of_ne hbc, ih fun h => hb (List.mem_cons_of_mem _ h)]

/-- The last node of the head followed by `u` is followed by `v`. -/
lemma succ_getLast (hnd : (u ++ v).Nodup) : succ (u ++ v) u.getLast? = v.head? := by
  induction u with
  | nil => simp [succ_none]
  | cons c u ih =>
    cases u with
    | nil => simp
    | cons d w =>
      obtain ⟨e, he⟩ : ∃ e, (d :: w).getLast? = some e :=
        ⟨_, List.getLast?_eq_some_getLast (List.cons_ne_nil d w)⟩
      have hmem : e ∈ d :: w := List.mem_of_getLast? he
      have hec : e ≠ c := fun h =>
        (List.nodup_cons.mp hnd).1 (List.mem_append_left _ (h ▸ hmem))
      rw [List.getLast?_cons_cons, he, List.cons_append, succ_cons_of_ne hec, ← he]
      exact ih (List.nodup_cons.mp hnd).2

/-- **Taking `b` out** changes only the successor of the node before it. -/
lemma succ_erase_mid (hnd : (u ++ b :: v).Nodup) (hx : OnList (u ++ v) x)
    (hne : x ≠ u.getLast?) : succ (u ++ b :: v) x = succ (u ++ v) x := by
  induction u with
  | nil =>
    obtain ⟨a, rfl⟩ := Option.ne_none_iff_exists'.mp hne
    have hab : a ≠ b := fun h => (List.nodup_cons.mp hnd).1 (h ▸ hx a rfl)
    simp [succ_cons_of_ne hab]
  | cons c u ih =>
    cases x with
    | none => simp
    | some a =>
      by_cases hac : a = c
      · subst hac
        -- the node before `b` is not `a`, so `u` goes on after `a`
        cases u with
        | nil => exact absurd rfl hne
        | cons d w => simp
      · rw [List.cons_append, List.cons_append, succ_cons_of_ne hac, succ_cons_of_ne hac]
        refine ih (List.nodup_cons.mp hnd).2 (fun a' h => ?_) ?_
        · cases h
          exact (List.mem_cons.mp (hx a rfl)).resolve_left hac
        · cases u with
          | nil => simp
          | cons d w => rwa [← List.getLast?_cons_cons (a := c)]

end Succ

/-! ## The pointer updates -/

section Links

variable {next prev : Option α → Option α} {u v l : List α} {b : α}

lemma links_nil : Links (fun _ => none) (fun _ => none) ([] : List α) :=
  ⟨List.nodup_nil, fun x _ => by simp, fun x _ => by simp⟩

omit [DecidableEq α] in
lemma onList_reverse {x : Option α} : OnList l.reverse x ↔ OnList l x := by
  simp [OnList]

/-- Read backwards, the list is linked by `prev`. -/
lemma Links.reverse (h : Links next prev l) : Links prev next l.reverse :=
  ⟨List.nodup_reverse.mpr h.nodup, fun x hx => h.prev_eq x (onList_reverse.mp hx),
    fun x hx => by rw [List.reverse_reverse]; exact h.next_eq x (onList_reverse.mp hx)⟩

/-- **`unlink`** leaves the links of the list without `b`. -/
lemma Links.unlink (h : Links next prev (u ++ b :: v)) :
    Links (unlink next prev b).1 (unlink next prev b).2 (u ++ v) := by
  have hnd := h.nodup
  have hbu : b ∉ u := fun hb => (List.nodup_middle.mp hnd |> List.nodup_cons.mp).1
    (List.mem_append_left _ hb)
  have hbv : b ∉ v := fun hb => (List.nodup_middle.mp hnd |> List.nodup_cons.mp).1
    (List.mem_append_right _ hb)
  have hnd' : (u ++ v).Nodup := (List.nodup_middle.mp hnd |> List.nodup_cons.mp).2
  have hon : ∀ x, OnList (u ++ v) x → OnList (u ++ b :: v) x := fun x hx a ha => by
    rcases List.mem_append.mp (hx a ha) with h | h
    · exact List.mem_append_left _ h
    · exact List.mem_append_right _ (List.mem_cons_of_mem _ h)
  -- the two neighbours of `b`
  have hn : next (some b) = v.head? := by
    rw [h.next_eq _ fun a ha => by cases ha; simp, succ_mid hbu]
  have hrev : (u ++ b :: v).reverse = v.reverse ++ b :: u.reverse := by simp
  have hp : prev (some b) = u.getLast? := by
    rw [h.prev_eq _ fun a ha => by cases ha; simp, hrev, succ_mid (by simpa using hbv),
      List.head?_reverse]
  have hvb : v.head? ≠ some b := fun hv => hbv (List.mem_of_head? hv)
  have hnd'' : (v.reverse ++ u.reverse).Nodup := by
    rw [← List.reverse_append]; exact List.nodup_reverse.mpr hnd'
  have hndr : (v.reverse ++ b :: u.reverse).Nodup := by
    rw [← hrev]; exact List.nodup_reverse.mpr hnd
  refine ⟨hnd', fun x hx => ?_, fun x hx => ?_⟩
  · simp only [CList.unlink, Function.update_of_ne hvb.symm, hn, hp]
    by_cases hxl : x = u.getLast?
    · rw [hxl, Function.update_self, succ_getLast hnd']
    · rw [Function.update_of_ne hxl, h.next_eq x (hon x hx), succ_erase_mid hnd hx hxl]
  · have hxr : OnList (v.reverse ++ u.reverse) x := fun a ha => by
      simpa [or_comm] using hx a ha
    simp only [CList.unlink, hn, hp, List.reverse_append]
    by_cases hxv : x = v.head?
    · rw [hxv, Function.update_self, ← List.getLast?_reverse, succ_getLast hnd'',
        List.head?_reverse]
    · have hxv' : x ≠ v.reverse.getLast? := by rwa [List.getLast?_reverse]
      rw [Function.update_of_ne hxv, h.prev_eq x (hon x hx), hrev,
        succ_erase_mid hndr hxr hxv']

/-- **`pushFront`** of an element not on the list puts it first. -/
lemma Links.pushFront (h : Links next prev l) (hb : b ∉ l) :
    Links (pushFront next prev b).1 (pushFront next prev b).2 (b :: l) := by
  have hnone : next none = l.head? := by rw [h.next_eq none (onList_none l), succ_none]
  have hhb : l.head? ≠ some b := fun hl => hb (List.mem_of_head? hl)
  have hon : ∀ x, OnList (b :: l) x → x ≠ some b → OnList l x := fun x hx hxb a ha =>
    (List.mem_cons.mp (hx a ha)).resolve_left fun hab => hxb (hab ▸ ha)
  have hndr : (l.reverse ++ b :: []).Nodup := by
    rw [← List.reverse_cons]; exact List.nodup_reverse.mpr (List.nodup_cons.mpr ⟨hb, h.nodup⟩)
  refine ⟨List.nodup_cons.mpr ⟨hb, h.nodup⟩, fun x hx => ?_, fun x hx => ?_⟩
  · simp only [CList.pushFront, Function.update_of_ne (Option.some_ne_none b).symm, hnone]
    rcases x with _ | a
    · simp
    · rw [Function.update_of_ne (Option.some_ne_none a)]
      by_cases hab : a = b
      · subst hab; simp
      · rw [Function.update_of_ne (fun he => hab (Option.some_injective _ he)),
          h.next_eq _ (hon _ hx fun he => hab (Option.some_injective _ he)),
          succ_cons_of_ne hab]
  · simp only [CList.pushFront, Function.update_of_ne (Option.some_ne_none b).symm, hnone,
      List.reverse_cons]
    by_cases hxh : x = l.head?
    · rw [hxh, Function.update_self, ← List.getLast?_reverse, succ_getLast hndr]
      rfl
    · rw [Function.update_of_ne hxh]
      by_cases hxb : x = some b
      · rw [hxb, Function.update_self, succ_mid (by simpa using hb)]
        rfl
      · have hxl : x ≠ l.reverse.getLast? := by rwa [List.getLast?_reverse]
        have hxr : OnList (l.reverse ++ []) x := fun a ha => by simpa using hon x hx hxb a ha
        have he := succ_erase_mid hndr hxr hxl
        rw [List.append_nil] at he
        rw [Function.update_of_ne hxb, h.prev_eq x (hon x hx hxb), he]

/-- `unlink` and then `pushFront` move an element of the list to its front. -/
lemma Links.moveFront (h : Links next prev l) (hb : b ∈ l) :
    Links (CList.pushFront (CList.unlink next prev b).1 (CList.unlink next prev b).2 b).1
      (CList.pushFront (CList.unlink next prev b).1 (CList.unlink next prev b).2 b).2
      (b :: l.erase b) := by
  obtain ⟨u, v, rfl⟩ := List.append_of_mem hb
  have hbu : b ∉ u := fun hb' => (List.nodup_middle.mp h.nodup |> List.nodup_cons.mp).1
    (List.mem_append_left _ hb')
  have he : (u ++ b :: v).erase b = u ++ v := by
    rw [List.erase_append_right _ hbu, List.erase_cons_head]
  rw [he]
  exact h.unlink.pushFront (List.nodup_middle.mp h.nodup |> List.nodup_cons.mp).1

/-- `pushFront` of each element of `w` in turn, none of them on the list, puts them in front
in reverse order. -/
lemma Links.pushFront_foldl (h : Links next prev l) {w : List α} (hw : (w ++ l).Nodup) :
    Links (w.foldl (fun np b => CList.pushFront np.1 np.2 b) (next, prev)).1
      (w.foldl (fun np b => CList.pushFront np.1 np.2 b) (next, prev)).2 (w.reverse ++ l) := by
  induction w generalizing next prev l with
  | nil => simpa using h
  | cons a w ih =>
    have ha : a ∉ l := fun hal => (List.nodup_cons.mp hw).1 (List.mem_append_right _ hal)
    have hw' : (w ++ a :: l).Nodup := List.nodup_middle.mpr hw
    simpa using ih (h.pushFront ha) hw'

/-- **The loop that follows `next`** from the head meets the elements in order: it finds the
first element with `p`, given at least as many steps as elements. -/
lemma Links.walk_eq_find? (h : Links next prev l) (p : α → Bool) {n : ℕ} (hn : l.length ≤ n) :
    walk next p n (next none) = l.find? p := by
  -- the walk from the node before a suffix `w` of `l` follows `w`
  have key : ∀ (w u : List α) (n : ℕ), l = u ++ w → w.length ≤ n →
      walk next p n w.head? = w.find? p := by
    intro w
    induction w with
    | nil => intro u n _ _; cases n <;> rfl
    | cons a w ih =>
      intro u n hl hn
      obtain ⟨m, rfl⟩ : ∃ m, n = m + 1 := ⟨n - 1, by simp at hn; omega⟩
      have hau : a ∉ u := by
        have := h.nodup; rw [hl] at this
        exact fun hau => (List.nodup_middle.mp this |> List.nodup_cons.mp).1
          (List.mem_append_left _ hau)
      have hnext : next (some a) = w.head? := by
        rw [h.next_eq _ fun b hb => by cases hb; simp [hl], hl, succ_mid hau]
      by_cases hp : p a
      · simp [walk, hp]
      · simp only [List.head?_cons, walk, hp, Bool.false_eq_true, if_false, hnext,
          List.find?_cons_of_neg (by simpa using hp)]
        exact ih (u ++ [a]) m (by simp [hl]) (by simp at hn; omega)
  rw [h.next_eq none (onList_none l), succ_none]
  exact key l [] n rfl hn

end Links

end Xv6.Lib.CList
