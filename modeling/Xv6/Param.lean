import Xv6.Lib.Word

/-!
The kernel's configuration constants (`param.h`), the memory layout and page arithmetic
(`memlayout.h`, `riscv.h`), and C's `int` as the models below use it: a 32-bit two's
complement integer.
-/

namespace Xv6.Param

open Xv6.Lib.Word

-- `param.h`
def NPROC : ℕ := 64
def NCPU : ℕ := 8
def NOFILE : ℕ := 16
def NFILE : ℕ := 100
/-- `MAXOPBLOCKS`: the most blocks one file-system operation writes. -/
def MAXOPBLOCKS : ℕ := 10
def LOGBLOCKS : ℕ := MAXOPBLOCKS * 3
def NINODE : ℕ := 50
def NDEV : ℕ := 10
def ROOTDEV : ℕ := 1
def NBUF : ℕ := MAXOPBLOCKS * 3

instance : NeZero NPROC := ⟨by decide⟩
instance : NeZero NCPU := ⟨by decide⟩
instance : NeZero NINODE := ⟨by decide⟩

-- `riscv.h` and `fs.h`
def PGSIZE : ℕ := 4096
def BSIZE : ℕ := 1024
def NDIRECT : ℕ := 12
def NINDIRECT : ℕ := BSIZE / 4
def MAXFILE : ℕ := NDIRECT + NINDIRECT

-- `memlayout.h`
def KERNBASE : ℕ := 0x80000000
def PHYSTOP : ℕ := KERNBASE + 128 * 1024 * 1024

/-- `PGROUNDUP(sz)`, computed in `uint64`. -/
def PGROUNDUP (sz : ℕ) : ℕ := (sz + PGSIZE - 1) % 2 ^ 64 / PGSIZE * PGSIZE
def PGROUNDDOWN (a : ℕ) : ℕ := a / PGSIZE * PGSIZE

def INT_MAX : ℤ := 2 ^ 31 - 1

/-- A value computed in C `int`: reduced to 32 bits. -/
def i32 (x : ℤ) : ℤ := toSigned 31 x

lemma i32_of_mem {x : ℤ} (h₁ : -2 ^ 31 ≤ x) (h₂ : x ≤ INT_MAX) : i32 x = x :=
  toSigned_of_mem 31 h₁ (by unfold INT_MAX at h₂; omega)

end Xv6.Param
