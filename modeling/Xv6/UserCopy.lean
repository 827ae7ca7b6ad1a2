import Xv6.Encrypt

/-!
The three copies between the kernel and user memory (`vm.c`): `copyout`, `copyin` and
`copyinstr`, on the address space of `Encrypt`.

Over what a user program sees (`view`), `copyout` writes exactly its source and `copyin` reads
exactly the bytes asked for. Each returns `0` only when every byte of its range can be written,
or read, and does so whenever `kalloc` can also give a page to each unmapped page of the range;
a `copyout` that fails has written a prefix of its source that ends where a page begins.
`copyinstr` finds its pages with `walkaddr` alone: when it succeeds, it has copied what `copyin`
reads, up to the first `NUL`; but a string that runs into a lazy page, which `copyin` would
fault in as zeros, makes it fail.
-/

namespace Xv6.UserCopy

open Xv6.Param Xv6.Riscv Xv6.Encrypt

def bytesAt (mem : ℕ → UInt8) (p n : ℕ) : List UInt8 := (List.range n).map fun j => mem (p + j)

/-- The inner loop of `copyinstr` over the `n` bytes from `p` of one page: whether it met a
`NUL`, and the bytes it stored in `dst`, the `NUL` last. -/
def strLoop (mem : ℕ → UInt8) : ℕ → ℕ → Bool × List UInt8
  | 0, _ => (false, [])
  | n + 1, p =>
    if mem p = 0 then (true, [0])
    else
      let r := strLoop mem n (p + 1)
      (r.1, mem p :: r.2)

/-- The loop of `copyinstr(pagetable, dst, srcva, max)`, with `fuel` rounds: `0` and the bytes
stored in `dst`, or `-1` and those stored before it stopped. Pages come from `walkaddr` only. -/
def copyinstrLoop : ℕ → Space → ℕ → ℕ → ℤ × List UInt8
  | 0, _, _, _ => (-1, [])
  | fuel + 1, s, srcva, max =>
    if max = 0 then (-1, [])
    else
      let va0 := PGROUNDDOWN srcva
      if walkaddr s va0 = false then (-1, [])
      else
        let n := min (PGSIZE - (srcva - va0)) max
        let r := strLoop s.mem n srcva
        if r.1 then (0, r.2)
        else
          let r' := copyinstrLoop fuel s (va0 + PGSIZE) (max - n)
          (r'.1, r.2 ++ r'.2)

def copyinstr (s : Space) (srcva max : ℕ) : ℤ × List UInt8 := copyinstrLoop max s srcva max

def pagesEnd (va n : ℕ) : ℕ := if n = 0 then va / PGSIZE else (va + n - 1) / PGSIZE + 1

/-- The pages of `kalloc` that the faults of `[va, va + n)` take: one for each unmapped page,
and one for each page-table page above them that is missing. -/
def faults (s : Space) (va n : ℕ) : ℕ := need s (va / PGSIZE) (pagesEnd va n)

/-! ## Pages -/

section Pages

variable {s : Space}

lemma inPages_pagesEnd (va n : ℕ) : InPages (va / PGSIZE) (pagesEnd va n) va n := by
  intro hn
  rw [pagesEnd, if_neg (by omega)]
  omega

lemma walkaddr_page {a b : ℕ} (h : a / PGSIZE = b / PGSIZE) : walkaddr s a = walkaddr s b := by
  have hmax : decide (a < MAXVA) = decide (b < MAXVA) := by
    rw [MAXVA_eq]
    unfold PGSIZE at h
    simp only [decide_eq_decide]
    omega
  simp only [walkaddr, hmax, h]

lemma view_of_walkaddr {a : ℕ} (h : walkaddr s a = true) : view s a = some (s.mem a) := by
  simp only [walkaddr, Bool.and_eq_true, decide_eq_true_eq] at h
  obtain ⟨hmax, h⟩ := h
  rcases hf : s.flags (a / PGSIZE) with _ | f <;> rw [hf] at h
  · cases h
  · exact view_of_user hmax hf h

lemma readBytes_of_walkaddr {va n : ℕ} (h : ∀ j < n, walkaddr s (va + j) = true) :
    readBytes s va n = bytesAt s.mem va n := by
  refine List.map_congr_left fun j hj => ?_
  rw [view_of_walkaddr (h j (List.mem_range.mp hj))]
  rfl

lemma faults_of_walkaddr {va n : ℕ} (h : ∀ j < n, walkaddr s (va + j) = true) :
    faults s va n = 0 := by
  have hU : unmapped s (va / PGSIZE) (pagesEnd va n) = ∅ := by
    refine Finset.filter_eq_empty_iff.mpr fun v hv hnone => ?_
    rw [Finset.mem_Ico, pagesEnd] at hv
    split_ifs at hv with hn
    · omega
    -- the first byte of the range on page `v`
    have hj : max va (v * PGSIZE) - va < n := by unfold PGSIZE at *; omega
    have hw := h _ hj
    rw [show va + (max va (v * PGSIZE) - va) = max va (v * PGSIZE) by omega] at hw
    have hpage : max va (v * PGSIZE) / PGSIZE = v := by unfold PGSIZE at *; omega
    simp [walkaddr, hpage, hnone] at hw
  simp [faults, need, hU]

end Pages

/-! ## `copyout` and `copyin` -/

section Copy

/-- **`copyout` and `copyin` move exactly the bytes asked for.** `copyout` returns `0` or `-1`.
When it returns `0`, every byte of `[va, va + |src|)` was writable (below `MAXVA`, on a page
mapped with `PTE_U` and `PTE_W`, or on an unmapped page below `p->sz`) and the view now holds
`src` there and is unchanged elsewhere. It returns `0` whenever every byte is writable and
`kalloc` can give a page to each unmapped page of the range. When it returns `-1`, it has
written a prefix of `src`, nothing or up to where a page begins. `copyin` keeps the view; it
returns `0` or `-1`; when `0`, every byte of `[va, va + len)` could be read and it read them
as the view holds them; and it returns `0` whenever every byte can be read and `kalloc` can
give a page to each unmapped page of the range. -/
theorem copy_moves_exact (s : Space) (va : ℕ) (src : List UInt8) (len : ℕ) :
    ((copyout s va src).1 = 0 ∨ (copyout s va src).1 = -1) ∧
    ((copyout s va src).1 = 0 →
      (∀ a, va ≤ a → a < va + src.length → writable s a) ∧
      view (copyout s va src).2 = overwrite (view s) va src) ∧
    ((∀ a, va ≤ a → a < va + src.length → writable s a) → faults s va src.length ≤ s.free →
      (copyout s va src).1 = 0) ∧
    ((copyout s va src).1 = -1 → ∃ k < src.length, (k = 0 ∨ (va + k) % PGSIZE = 0) ∧
      view (copyout s va src).2 = overwrite (view s) va (src.take k)) ∧
    view (copyin s va len).2.2 = view s ∧
    ((copyin s va len).1 = 0 ∨ (copyin s va len).1 = -1) ∧
    ((copyin s va len).1 = 0 →
      (∀ a, va ≤ a → a < va + len → (view s a).isSome) ∧
      (copyin s va len).2.1 = readBytes s va len) ∧
    ((∀ a, va ≤ a → a < va + len → (view s a).isSome) → faults s va len ≤ s.free →
      (copyin s va len).1 = 0) := by
  obtain ⟨k, hk, hw, hret, hsucc⟩ :=
    copyoutLoop_exact src.length s va src _ _ le_rfl (inPages_pagesEnd va src.length)
  obtain ⟨hw', hret', hsucc'⟩ := copyinLoop_exact len s va len _ _ le_rfl (inPages_pagesEnd va len)
  refine ⟨hret.imp (fun h => h.1) (fun h => h.1), fun h0 => ?_, hsucc, fun h1 => ?_,
    by rw [copyin, hw'.view_eq, overwrite_nil], hret'.imp (fun h => h.1) id, fun h0 => ?_,
    hsucc'⟩
  · obtain ⟨-, rfl, hwr⟩ := hret.resolve_right fun h => by rw [copyout, h.1] at h0; cases h0
    rw [List.take_length] at hw
    exact ⟨hwr, hw.view_eq⟩
  · obtain ⟨-, hlt, hb⟩ := hret.resolve_left fun h => by rw [copyout, h.1] at h1; cases h1
    exact ⟨k, hlt, hb, hw.view_eq⟩
  · obtain ⟨-, hbytes, hread⟩ := hret'.resolve_right fun h => by rw [copyin, h] at h0; cases h0
    exact ⟨hread, hbytes⟩

/-- Two pages of heap below `p->sz`, neither faulted in yet, under page-table pages already in
place, and one page left in `kalloc`. -/
def twoLazy : Space where
  flags := fun _ => none
  mem := fun _ => 0
  tables1 i := i = 0
  tables0 j := j = (0, 0)
  sz := 2 * PGSIZE
  free := 1
  sz_le := by rw [MAXVA_eq]; unfold PGSIZE; norm_num

/-- **Faults can run out of pages.** A `copyout` of two bytes across the boundary of two lazy
pages finds both bytes writable, but `kalloc` has a page for the first fault only: it returns
`-1`, having written the first byte. -/
theorem copyout_runs_out :
    (∀ a, PGSIZE - 1 ≤ a → a < PGSIZE - 1 + [1, 2].length → writable twoLazy a) ∧
      (copyout twoLazy (PGSIZE - 1) [1, 2]).1 = -1 := by
  refine ⟨fun a h₁ h₂ => ?_, by decide⟩
  obtain rfl | rfl : a = PGSIZE - 1 ∨ a = PGSIZE := by
    simp only [List.length_cons, List.length_nil] at h₂
    unfold PGSIZE at *
    omega
  all_goals decide

end Copy

/-! ## `copyinstr` -/

section Str

variable (mem : ℕ → UInt8)

lemma bytesAt_succ (p n : ℕ) : bytesAt mem p (n + 1) = mem p :: bytesAt mem (p + 1) n := by
  simp only [bytesAt, List.range_succ_eq_map, List.map_cons, List.map_map, Nat.add_zero]
  congr 1
  refine List.map_congr_left fun j _ => ?_
  simp [Nat.add_assoc, Nat.add_comm 1 j]

lemma bytesAt_add (p m n : ℕ) : bytesAt mem p (m + n) = bytesAt mem p m ++ bytesAt mem (p + m) n := by
  simp only [bytesAt, List.range_add, List.map_append, List.map_map]
  congr 1
  refine List.map_congr_left fun j _ => ?_
  simp [Nat.add_assoc]

lemma strLoop_of_none {n p : ℕ} (h : ∀ j < n, mem (p + j) ≠ 0) :
    strLoop mem n p = (false, bytesAt mem p n) := by
  induction n generalizing p with
  | zero => rfl
  | succ n ih =>
    have h0 : mem p ≠ 0 := by simpa using h 0 (by omega)
    have hrest : ∀ j < n, mem (p + 1 + j) ≠ 0 := fun j hj => by
      rw [Nat.add_assoc, Nat.add_comm 1 j]
      exact h (j + 1) (by omega)
    rw [strLoop, if_neg h0, ih hrest, bytesAt_succ]

lemma strLoop_of_nul {n p i : ℕ} (hi : i < n) (hb : ∀ j < i, mem (p + j) ≠ 0)
    (h0 : mem (p + i) = 0) : strLoop mem n p = (true, bytesAt mem p i ++ [0]) := by
  induction i generalizing n p with
  | zero =>
    obtain ⟨n, rfl⟩ : ∃ m, n = m + 1 := ⟨n - 1, by omega⟩
    rw [Nat.add_zero] at h0
    rw [strLoop, if_pos h0]
    rfl
  | succ i ih =>
    obtain ⟨n, rfl⟩ : ∃ m, n = m + 1 := ⟨n - 1, by omega⟩
    have hp : mem p ≠ 0 := by simpa using hb 0 (by omega)
    have hrest : ∀ j < i, mem (p + 1 + j) ≠ 0 := fun j hj => by
      rw [Nat.add_assoc, Nat.add_comm 1 j]
      exact hb (j + 1) (by omega)
    have h0' : mem (p + 1 + i) = 0 := by rwa [Nat.add_assoc, Nat.add_comm 1 i]
    rw [strLoop, if_neg hp, ih (by omega) hrest h0', bytesAt_succ]
    rfl

end Str

section CopyStr

variable {s : Space}

/-- **`copyinstr` copies a string from mapped pages.** When it returns `0`, it has copied the
bytes of `[srcva, srcva + i]` for an `i < max`: no `NUL` before the last, a `NUL` last, each on
a page `walkaddr` finds. -/
lemma copyinstrLoop_ok (fuel : ℕ) (srcva max : ℕ) (h : (copyinstrLoop fuel s srcva max).1 = 0) :
    ∃ i < max, (∀ j < i, s.mem (srcva + j) ≠ 0) ∧ s.mem (srcva + i) = 0 ∧
      (∀ j ≤ i, walkaddr s (srcva + j) = true) ∧
      (copyinstrLoop fuel s srcva max).2 = bytesAt s.mem srcva i ++ [0] := by
  induction fuel generalizing srcva max with
  | zero => simp [copyinstrLoop] at h
  | succ fuel ih =>
    by_cases hmax : max = 0
    · simp [copyinstrLoop, hmax] at h
    by_cases hw : walkaddr s (PGROUNDDOWN srcva) = false
    · simp [copyinstrLoop, hmax, hw] at h
    obtain ⟨hn0, hnlen, -, hdiv, hin, hnext, -⟩ := page_round srcva max (by omega)
    set n := min (PGSIZE - (srcva - PGROUNDDOWN srcva)) max with hn
    -- the bytes of the page all lie on the page `walkaddr` found
    have hwpage : ∀ j < n, walkaddr s (srcva + j) = true := fun j hj => by
      rw [walkaddr_page (hin j hj)]
      simpa using hw
    by_cases hnul : ∃ j < n, s.mem (srcva + j) = 0
    · -- the first `NUL` of the page ends the string
      classical
      let i := Nat.find hnul
      have hi : i < n ∧ s.mem (srcva + i) = 0 := Nat.find_spec hnul
      have hb : ∀ j < i, s.mem (srcva + j) ≠ 0 := fun j hj h0 =>
        Nat.find_min hnul hj ⟨by omega, h0⟩
      have e : copyinstrLoop (fuel + 1) s srcva max = (0, bytesAt s.mem srcva i ++ [0]) := by
        simp only [copyinstrLoop, if_neg hmax, hw, ← hn, strLoop_of_nul _ hi.1 hb hi.2]
        rfl
      rw [e]
      exact ⟨i, by omega, hb, hi.2, fun j hj => hwpage j (by omega), rfl⟩
    · -- no `NUL` on the page: the string goes on from the next one
      have hnone : ∀ j < n, s.mem (srcva + j) ≠ 0 := fun j hj h0 => hnul ⟨j, hj, h0⟩
      have e : copyinstrLoop (fuel + 1) s srcva max =
          ((copyinstrLoop fuel s (PGROUNDDOWN srcva + PGSIZE) (max - n)).1,
            bytesAt s.mem srcva n ++ (copyinstrLoop fuel s (PGROUNDDOWN srcva + PGSIZE) (max - n)).2) := by
        simp only [copyinstrLoop, if_neg hmax, hw, ← hn, strLoop_of_none _ hnone]
        rfl
      have hrest : max - n ≠ 0 := fun h' => by
        rw [e, h'] at h
        cases fuel <;> simp [copyinstrLoop] at h
      rw [hnext.resolve_left hrest] at e
      rw [e] at h ⊢
      obtain ⟨i, hi, hb, h0, hwk, heq⟩ := ih _ _ h
      refine ⟨n + i, by omega, fun j hj => ?_, by rwa [← Nat.add_assoc], fun j hj => ?_, ?_⟩
      · by_cases hjn : j < n
        · exact hnone j hjn
        · have := hb (j - n) (by omega)
          rwa [Nat.add_assoc, Nat.add_sub_cancel' (by omega)] at this
      · by_cases hjn : j < n
        · exact hwpage j hjn
        · have := hwk (j - n) (by omega)
          rwa [Nat.add_assoc, Nat.add_sub_cancel' (by omega)] at this
      · rw [heq, bytesAt_add, List.append_assoc]

/-- **What `copyinstr` copies, `copyin` reads.** When `copyinstr` returns `0`, it has copied
the bytes a user read of `[srcva, srcva + i]` gives, for an `i < max`, a `NUL` last and none
before; and `copyin` of those `i + 1` bytes returns `0` with the same bytes. -/
theorem copyinstr_copyin {srcva max : ℕ} (h : (copyinstr s srcva max).1 = 0) :
    ∃ i < max, (copyinstr s srcva max).2 = readBytes s srcva (i + 1) ∧
      (readBytes s srcva (i + 1)).getLast? = some 0 ∧ 0 ∉ readBytes s srcva i ∧
      (copyin s srcva (i + 1)).1 = 0 ∧ (copyin s srcva (i + 1)).2.1 = readBytes s srcva (i + 1) := by
  obtain ⟨i, hi, hb, h0, hwk, heq⟩ := copyinstrLoop_ok max srcva max h
  have hw : ∀ j < i + 1, walkaddr s (srcva + j) = true := fun j hj => hwk j (by omega)
  have hread : readBytes s srcva (i + 1) = bytesAt s.mem srcva i ++ [0] := by
    rw [readBytes_of_walkaddr hw, bytesAt_add]
    simp [bytesAt, h0]
  have hok := (copy_moves_exact s srcva [] (i + 1)).2.2.2.2.2.2.2
    (fun a ha ha' => by
      rw [show a = srcva + (a - srcva) by omega, view_of_walkaddr (hw _ (by omega))]
      rfl)
    (by rw [faults_of_walkaddr hw]; exact Nat.zero_le _)
  refine ⟨i, hi, by rw [copyinstr, heq, hread], by rw [hread]; simp, ?_, hok, ?_⟩
  · rw [readBytes_of_walkaddr fun j hj => hw j (by omega)]
    simp only [bytesAt, List.mem_map, List.mem_range, not_exists, not_and]
    exact fun j hj h => hb j hj h
  · exact ((copy_moves_exact s srcva [] (i + 1)).2.2.2.2.2.2.1 hok).2

/-- A heap page already touched, holding `1`s, and the page above it still lazy: below
`p->sz`, unmapped, with a page left in `kalloc` for it. -/
def lazyTail : Space where
  flags := fun v => if v = 0 then some ⟨true, true⟩ else none
  mem := fun _ => 1
  tables1 i := i = 0
  tables0 j := j = (0, 0)
  sz := 2 * PGSIZE
  free := 1
  sz_le := by rw [MAXVA_eq]; unfold PGSIZE; norm_num

/-- **`copyinstr` does not fault lazy pages in.** A string of four bytes at the end of a
touched heap page runs into a lazy page: `copyin` of eight bytes there reads the four bytes
and then the zeros of the new page, a `NUL` among them, but `copyinstr` with `max = 8` returns
`-1`. -/
theorem copyinstr_misses_lazy_page :
    PGSIZE - 4 < lazyTail.sz ∧ (copyin lazyTail (PGSIZE - 4) 8).1 = 0 ∧
      (copyin lazyTail (PGSIZE - 4) 8).2.1 = [1, 1, 1, 1, 0, 0, 0, 0] ∧
      (copyinstr lazyTail (PGSIZE - 4) 8).1 = -1 := by
  decide

end CopyStr

end Xv6.UserCopy
