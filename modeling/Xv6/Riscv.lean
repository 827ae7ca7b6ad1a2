import Xv6.Param

/-!
The Sv39 encodings of `riscv.h` and the top of the user address space (`memlayout.h`).

A page-table entry packs a physical page number above ten flag bits, and a virtual address
below `2 ^ 39` packs three nine-bit table indices above a twelve-bit page offset. Each
macro is read here as arithmetic on those fields; the round trips the page tables rely on
follow from that reading.
-/

namespace Xv6.Riscv

open Xv6.Param Xv6.Lib.Word

/-- `PGSHIFT`: bits of offset within a page. -/
def PGSHIFT : ℕ := 12

def PTE_V : ℕ := 1 <<< 0
def PTE_R : ℕ := 1 <<< 1
def PTE_W : ℕ := 1 <<< 2
def PTE_X : ℕ := 1 <<< 3
def PTE_U : ℕ := 1 <<< 4

/-- `PA2PTE(pa)`: the page number of `pa`, placed above the flag bits. -/
def PA2PTE (pa : ℕ) : ℕ := (pa >>> 12) <<< 10

/-- `PTE2PA(pte)`: the shift left is computed in `uint64`. -/
def PTE2PA (pte : ℕ) : ℕ := ((pte >>> 10) <<< 12) % 2 ^ 64

def PTE_FLAGS (pte : ℕ) : ℕ := pte &&& 0x3FF

def PXMASK : ℕ := 0x1FF

def PXSHIFT (level : ℕ) : ℕ := PGSHIFT + 9 * level

/-- `PX(level, va)`: the nine-bit index of `va` into a page-table page of that level. -/
def PX (level va : ℕ) : ℕ := (va >>> PXSHIFT level) &&& PXMASK

/-- `MAXVA`: one bit less than Sv39 allows, so that no address needs sign extension. -/
def MAXVA : ℕ := 1 <<< (9 + 9 + 9 + 12 - 1)

def TRAMPOLINE : ℕ := MAXVA - PGSIZE

def TRAPFRAME : ℕ := TRAMPOLINE - PGSIZE

/-- `~x` on a `uint64`. -/
def bnot64 (x : ℕ) : ℕ := 2 ^ 64 - 1 - x

lemma MAXVA_eq : MAXVA = 2 ^ 38 := by
  rw [MAXVA, Nat.one_shiftLeft]

lemma TRAMPOLINE_eq : TRAMPOLINE = 2 ^ 38 - 4096 := by
  rw [TRAMPOLINE, MAXVA_eq, PGSIZE]

lemma TRAPFRAME_eq : TRAPFRAME = 2 ^ 38 - 8192 := by
  rw [TRAPFRAME, TRAMPOLINE_eq, PGSIZE]
  norm_num

/-! ## Rounding sizes below `MAXVA` -/

section Round

variable {sz sz' : ℕ}

/-- Below `MAXVA` the `uint64` sum inside `PGROUNDUP` does not wrap. -/
lemma PGROUNDUP_eq (h : sz ≤ MAXVA) : PGROUNDUP sz = (sz + PGSIZE - 1) / PGSIZE * PGSIZE := by
  rw [MAXVA_eq] at h
  rw [PGROUNDUP, Nat.mod_eq_of_lt (by unfold PGSIZE; omega)]

lemma PGROUNDUP_mod (sz : ℕ) : PGROUNDUP sz % PGSIZE = 0 := Nat.mul_mod_left _ _

/-- The number of pages below `PGROUNDUP(sz)`. -/
lemma PGROUNDUP_div (h : sz ≤ MAXVA) : PGROUNDUP sz / PGSIZE = (sz + PGSIZE - 1) / PGSIZE := by
  rw [PGROUNDUP_eq h, Nat.mul_div_cancel _ (by decide)]

lemma PGROUNDUP_le_MAXVA (h : sz ≤ MAXVA) : PGROUNDUP sz ≤ MAXVA := by
  rw [PGROUNDUP_eq h]
  rw [MAXVA_eq] at h ⊢
  unfold PGSIZE
  omega

lemma PGROUNDUP_mono (h : sz ≤ sz') (h' : sz' ≤ MAXVA) : PGROUNDUP sz ≤ PGROUNDUP sz' := by
  rw [PGROUNDUP_eq (h.trans h'), PGROUNDUP_eq h']
  exact Nat.mul_le_mul_right _ (Nat.div_le_div_right (by omega))

lemma PGROUNDUP_of_mod (h : sz % PGSIZE = 0) (h' : sz ≤ MAXVA) : PGROUNDUP sz = sz := by
  rw [PGROUNDUP_eq h']
  unfold PGSIZE at h ⊢
  omega

/-- Where `uvmalloc` stops mapping: the first page past `PGROUNDUP(newsz)`. -/
lemma grow_end (h : sz ≤ sz') (hnew : sz' ≤ MAXVA) :
    PGROUNDUP sz / PGSIZE + (sz' - PGROUNDUP sz + PGSIZE - 1) / PGSIZE = PGROUNDUP sz' / PGSIZE := by
  rw [PGROUNDUP_eq (h.trans hnew), PGROUNDUP_eq hnew]
  unfold PGSIZE
  omega

end Round

/-! ## The macros as arithmetic -/

lemma PTE2PA_eq (pte : ℕ) : PTE2PA pte = 4096 * (pte / 2 ^ 10) % 2 ^ 64 := by
  rw [PTE2PA, Nat.shiftLeft_eq, Nat.shiftRight_eq_div_pow, Nat.mul_comm]

lemma PTE_FLAGS_eq (pte : ℕ) : PTE_FLAGS pte = pte % 2 ^ 10 :=
  Nat.and_two_pow_sub_one_eq_mod pte 10

lemma PX_eq (level va : ℕ) : PX level va = va / 2 ^ (12 + 9 * level) % 512 := by
  rw [PX, PXMASK, Nat.shiftRight_eq_div_pow, PXSHIFT, PGSHIFT]
  exact Nat.and_two_pow_sub_one_eq_mod _ 9

lemma PX_lt (level va : ℕ) : PX level va < 512 := by
  rw [PX_eq]
  exact Nat.mod_lt _ (by norm_num)

/-- The valid bit is the low bit. -/
lemma and_PTE_V (pte : ℕ) : pte &&& PTE_V = pte % 2 := by
  rw [PTE_V, Nat.shiftLeft_zero]
  exact Nat.and_one_is_mod pte

lemma and_PTE_U (pte : ℕ) : pte &&& PTE_U = 16 * (pte / 16 % 2) := by
  rw [PTE_U, Nat.shiftLeft_eq, Nat.one_mul, Nat.and_two_pow]
  rcases Nat.mod_two_eq_zero_or_one (pte / 16) with h | h <;>
    simp [Nat.testBit_eq_decide_div_mod_eq, h]

/-- `PTE_U` is one of the ten flag bits. -/
lemma and_PTE_U_eq_flags (pte : ℕ) : pte &&& PTE_U = PTE_FLAGS pte &&& PTE_U := by
  rw [and_PTE_U, and_PTE_U, PTE_FLAGS_eq]
  omega

/-- `PTE_R | PTE_W | PTE_X` reads flag bits only. -/
lemma and_RWX_eq_flags (pte : ℕ) :
    pte &&& (PTE_R ||| PTE_W ||| PTE_X) = PTE_FLAGS pte &&& (PTE_R ||| PTE_W ||| PTE_X) := by
  rw [PTE_FLAGS, Nat.land_assoc,
    show (0x3FF : ℕ) &&& (PTE_R ||| PTE_W ||| PTE_X) = PTE_R ||| PTE_W ||| PTE_X by decide]

/-- `PTE_W` is one of the ten flag bits. -/
lemma and_PTE_W_eq_flags (pte : ℕ) : pte &&& PTE_W = PTE_FLAGS pte &&& PTE_W := by
  rw [PTE_FLAGS, Nat.land_assoc, show (0x3FF : ℕ) &&& PTE_W = PTE_W by decide]

lemma PTE_FLAGS_lt (pte : ℕ) : PTE_FLAGS pte < 2 ^ 10 := by
  rw [PTE_FLAGS_eq]
  exact Nat.mod_lt _ (by norm_num)

/-! ## Entries built from a page and flags -/

/-- `PA2PTE(pa) | flags`, for flags that fit in the ten flag bits. -/
lemma PA2PTE_or {f : ℕ} (pa : ℕ) (hf : f < 2 ^ 10) :
    PA2PTE pa ||| f = 2 ^ 10 * (pa / 4096) + f := by
  rw [PA2PTE, ← Nat.shiftLeft_add_eq_or_of_lt hf, Nat.shiftLeft_eq, Nat.shiftRight_eq_div_pow,
    Nat.mul_comm]

section Fields

variable {a f : ℕ}

lemma PTE_FLAGS_fields (hf : f < 2 ^ 10) : PTE_FLAGS (2 ^ 10 * a + f) = f := by
  rw [PTE_FLAGS_eq]
  omega

lemma PTE2PA_fields (hf : f < 2 ^ 10) (ha : a < 2 ^ 52) : PTE2PA (2 ^ 10 * a + f) = 4096 * a := by
  rw [PTE2PA_eq, show (2 ^ 10 * a + f) / 2 ^ 10 = a by omega]
  omega

lemma and_PTE_V_fields : (2 ^ 10 * a + f) &&& PTE_V = f % 2 := by
  rw [and_PTE_V]
  omega

end Fields

/-- **Round trip.** A page-aligned physical address below `2 ^ 56` is recovered from any
entry built from it, and so are the flags. -/
theorem PTE2PA_PA2PTE_or {pa f : ℕ} (hpa : pa % PGSIZE = 0) (hlt : pa < 2 ^ 56)
    (hf : f < 2 ^ 10) :
    PTE2PA (PA2PTE pa ||| f) = pa ∧ PTE_FLAGS (PA2PTE pa ||| f) = f := by
  unfold PGSIZE at hpa
  rw [PA2PTE_or pa hf, PTE2PA_fields hf (by omega), PTE_FLAGS_fields hf]
  omega

/-- An entry that `walk` builds is a pointer: it has none of `PTE_R`, `PTE_W`, `PTE_X`. -/
lemma PA2PTE_V_and_RWX (pa : ℕ) : (PA2PTE pa ||| PTE_V) &&& (PTE_R ||| PTE_W ||| PTE_X) = 0 := by
  rw [and_RWX_eq_flags, PA2PTE_or pa (by decide), PTE_FLAGS_fields (by decide)]
  decide

lemma PTE2PA_mod (pte : ℕ) : PTE2PA pte % PGSIZE = 0 := by
  rw [PTE2PA_eq, PGSIZE]
  omega

lemma or_PTE_V_mod_two (x : ℕ) : (x ||| PTE_V) % 2 = 1 := by
  have h := Nat.or_mod_two_pow (a := x) (b := PTE_V) (n := 1)
  rw [pow_one] at h
  rw [h]
  rcases Nat.mod_two_eq_zero_or_one x with h' | h' <;> rw [h'] <;> rfl

/-- The entry `mappages` writes is valid, points to `pa` and has the flags `perm | PTE_V`. -/
theorem mappages_PTE {pa perm : ℕ} (hpa : pa % PGSIZE = 0) (hlt : pa < 2 ^ 56)
    (hperm : perm < 2 ^ 10) :
    (PA2PTE pa ||| perm ||| PTE_V) &&& PTE_V ≠ 0 ∧ PTE2PA (PA2PTE pa ||| perm ||| PTE_V) = pa ∧
      PTE_FLAGS (PA2PTE pa ||| perm ||| PTE_V) = perm ||| PTE_V := by
  have hf : perm ||| PTE_V < 2 ^ 10 := Nat.or_lt_two_pow hperm (by decide)
  rw [Nat.lor_assoc]
  obtain ⟨h1, h2⟩ := PTE2PA_PA2PTE_or hpa hlt hf
  refine ⟨?_, h1, h2⟩
  rw [PA2PTE_or pa hf, and_PTE_V_fields, or_PTE_V_mod_two]
  decide

/-! ## Clearing `PTE_U` -/

/-- `*pte &= ~PTE_U` on a 64-bit entry: the page number keeps its low 54 bits and the flags
lose `PTE_U`. -/
lemma and_bnot64_PTE_U (x : ℕ) :
    x &&& bnot64 PTE_U = 2 ^ 10 * (x / 2 ^ 10 % 2 ^ 54) + (x % 2 ^ 10 &&& bnot64 PTE_U) := by
  have hmask : bnot64 PTE_U = 2 ^ 10 * (2 ^ 54 - 1) + bnot64 PTE_U % 2 ^ 10 := by
    rw [bnot64, PTE_U]; rfl
  have hlow : bnot64 PTE_U % 2 ^ 10 < 2 ^ 10 := Nat.mod_lt _ (by norm_num)
  have hfield : (x % 2 ^ 10 &&& bnot64 PTE_U) % 2 ^ 10 = x % 2 ^ 10 &&& bnot64 PTE_U :=
    Nat.mod_eq_of_lt (by rw [Nat.land_comm]; exact Nat.and_lt_two_pow _ (Nat.mod_lt _ (by norm_num)))
  conv_lhs => rw [← Nat.div_add_mod x (2 ^ 10), hmask]
  rw [and_two_pow_mul_add _ _ (Nat.mod_lt _ (by norm_num)) hlow, Nat.and_two_pow_sub_one_eq_mod,
    ← hfield, Nat.and_mod_two_pow, Nat.mod_mod]

lemma lt_of_and_bnot64_PTE_U (x : ℕ) : x % 2 ^ 10 &&& bnot64 PTE_U < 2 ^ 10 := by
  rw [Nat.land_comm]
  exact Nat.and_lt_two_pow _ (Nat.mod_lt _ (by norm_num))

lemma PTE2PA_and_bnot64_PTE_U (x : ℕ) : PTE2PA (x &&& bnot64 PTE_U) = PTE2PA x := by
  have hlt := lt_of_and_bnot64_PTE_U x
  rw [and_bnot64_PTE_U, PTE2PA_eq, PTE2PA_eq]
  omega

lemma PTE_FLAGS_and_bnot64_PTE_U (x : ℕ) :
    PTE_FLAGS (x &&& bnot64 PTE_U) = PTE_FLAGS x &&& bnot64 PTE_U := by
  have hlt := lt_of_and_bnot64_PTE_U x
  rw [and_bnot64_PTE_U, PTE_FLAGS_eq, PTE_FLAGS_eq]
  omega

/-- Clearing `PTE_U` keeps the valid bit. -/
lemma and_bnot64_PTE_U_V (x : ℕ) : (x &&& bnot64 PTE_U) &&& PTE_V = x &&& PTE_V := by
  have h := Nat.and_mod_two_pow (a := x) (b := bnot64 PTE_U) (n := 1)
  rw [pow_one] at h
  rw [and_PTE_V, and_PTE_V, h, show bnot64 PTE_U % 2 = 1 by decide, Nat.and_one_is_mod, Nat.mod_mod]

/-! ## Virtual addresses -/

/-- **Index extraction.** Below `2 ^ 39` the page number of a virtual address is the three
indices read as base-512 digits. -/
theorem vpn_eq_PX {va : ℕ} (h : va < 2 ^ 39) :
    va / PGSIZE = 2 ^ 18 * PX 2 va + 2 ^ 9 * PX 1 va + PX 0 va := by
  simp only [PX_eq, PGSIZE]
  omega

/-- The indices of the page numbered by three base-512 digits are those digits. -/
lemma PX_of_digits {i j k : ℕ} (hi : i < 512) (hj : j < 512) (hk : k < 512) :
    PX 2 ((2 ^ 18 * i + 2 ^ 9 * j + k) * PGSIZE) = i ∧
      PX 1 ((2 ^ 18 * i + 2 ^ 9 * j + k) * PGSIZE) = j ∧
      PX 0 ((2 ^ 18 * i + 2 ^ 9 * j + k) * PGSIZE) = k := by
  simp only [PX_eq, PGSIZE]
  norm_num
  omega

/-- The indices of a virtual address only depend on its page. -/
lemma PX_page (level va : ℕ) : PX level (va / PGSIZE * PGSIZE) = PX level va := by
  have h : 2 ^ (12 + 9 * level) = 4096 * 2 ^ (9 * level) := by rw [pow_add]; norm_num
  rw [PX_eq, PX_eq, h, ← Nat.div_div_eq_div_mul, ← Nat.div_div_eq_div_mul, PGSIZE,
    Nat.mul_div_cancel _ (by norm_num)]

/-- Two virtual addresses below `2 ^ 39` with the same three indices are in the same page. -/
lemma vpn_eq_of_PX {va va' : ℕ} (h : va < 2 ^ 39) (h' : va' < 2 ^ 39) (h2 : PX 2 va = PX 2 va')
    (h1 : PX 1 va = PX 1 va') (h0 : PX 0 va = PX 0 va') : va / PGSIZE = va' / PGSIZE := by
  rw [vpn_eq_PX h, vpn_eq_PX h', h2, h1, h0]

lemma PX_two_lt_of_lt_MAXVA {va : ℕ} (h : va < MAXVA) : PX 2 va < 256 := by
  rw [MAXVA_eq] at h
  rw [PX_eq]
  omega

end Xv6.Riscv
