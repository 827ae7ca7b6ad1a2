import Mathlib

/-!
`printint` of the kernel's `printf.c` and of the user's `printf.c`: a `long long` printed in
base 10 or 16, signed or not.

The two differ only in their table of digits (lower case in the kernel, upper case in user
space) and in where the characters go, so both are `printint` applied to their table. The
digits are written into `buf[20]` least significant first by a `do … while` loop (`fill`), the
sign after them, and `buf` is then printed from its end. What they must print is the number as
Lean prints numerals, `Nat.toDigits`, after a `-` for a negative signed value.
-/

namespace Xv6.Printint

def kdigits : List Char :=
  ['0', '1', '2', '3', '4', '5', '6', '7', '8', '9', 'a', 'b', 'c', 'd', 'e', 'f']

def udigits : List Char :=
  ['0', '1', '2', '3', '4', '5', '6', '7', '8', '9', 'A', 'B', 'C', 'D', 'E', 'F']

/-- The loop `do { buf[i++] = digits[x % base]; } while((x /= base) != 0);`: the characters
it writes, in order, in at most `fuel` rounds. -/
def fill (digits : List Char) (base : ℕ) : ℕ → ℕ → List Char
  | 0, _ => []
  | fuel + 1, x =>
    digits.getD (x % base) ' ' :: if x / base = 0 then [] else fill digits base fuel (x / base)

/-- Whether `printint` prints a sign, and its `unsigned long long x`: `-xx` for a negative
signed value, `xx` otherwise. -/
def absOf (xx : ℤ) (sign : Bool) : Bool × ℕ :=
  if sign ∧ xx < 0 then (true, ((-xx) % 2 ^ 64).toNat) else (false, (xx % 2 ^ 64).toNat)

/-- `buf` once `printint` has filled it: the digits, least significant first, then the sign.
The loop runs at most `x + 1` rounds, as each divides `x` by `base`, which `printf` passes as
`10` or `16`. -/
def buf (digits : List Char) (xx : ℤ) (base : ℕ) (sign : Bool) : List Char :=
  let ax := absOf xx sign
  fill digits base (ax.2 + 1) ax.2 ++ if ax.1 then ['-'] else []

/-- What `printint(xx, base, sign)` prints with the table `digits`: `buf` from its end,
`while(--i >= 0)`. -/
def printint (digits : List Char) (xx : ℤ) (base : ℕ) (sign : Bool) : List Char :=
  (buf digits xx base sign).reverse

namespace Kernel

def printint (xx : ℤ) (base : ℕ) (sign : Bool) : List Char := Printint.printint kdigits xx base sign

end Kernel

namespace User

def printint (xx : ℤ) (base : ℕ) (sign : Bool) : List Char := Printint.printint udigits xx base sign

end User

/-! ### The loop is `Nat.toDigits` -/

lemma kdigits_getD {d : ℕ} (hd : d < 16) : kdigits.getD d ' ' = Nat.digitChar d := by
  interval_cases d <;> rfl

lemma udigits_getD {d : ℕ} (hd : d < 16) : udigits.getD d ' ' = (kdigits.getD d ' ').toUpper := by
  interval_cases d <;> rfl

/-- **The loop writes the digits of `Nat.toDigits` in reverse**, round for round: core's
`toDigitsCore` runs the same division with the same fuel, consing each digit in front. -/
lemma fill_reverse {base : ℕ} (hb₀ : 0 < base) (hb : base ≤ 16) (fuel : ℕ) :
    ∀ x ds, (fill kdigits base fuel x).reverse ++ ds = Nat.toDigitsCore base fuel x ds := by
  induction fuel with
  | zero => intro x ds; rfl
  | succ fuel ih =>
    intro x ds
    have hd : x % base < 16 := lt_of_lt_of_le (Nat.mod_lt _ hb₀) hb
    rw [fill, Nat.toDigitsCore, kdigits_getD hd]
    split_ifs with h0
    · rfl
    · rw [List.reverse_cons, List.append_assoc, List.singleton_append, ih]

lemma fill_udigits {base : ℕ} (hb₀ : 0 < base) (hb : base ≤ 16) (fuel : ℕ) :
    ∀ x, fill udigits base fuel x = (fill kdigits base fuel x).map Char.toUpper := by
  induction fuel with
  | zero => intro x; rfl
  | succ fuel ih =>
    intro x
    have hd : x % base < 16 := lt_of_lt_of_le (Nat.mod_lt _ hb₀) hb
    rw [fill, fill, udigits_getD hd, List.map_cons]
    split_ifs
    · rfl
    · rw [ih]

lemma fill_eq_toDigits {base : ℕ} (hb₀ : 0 < base) (hb : base ≤ 16) (x : ℕ) :
    fill kdigits base (x + 1) x = (Nat.toDigits base x).reverse := by
  have h := fill_reverse hb₀ hb (x + 1) x []
  rw [List.append_nil] at h
  rw [Nat.toDigits, ← h, List.reverse_reverse]

/-! ### What `printint` prints -/

/-- A negative `long long` loses its sign to an `unsigned long long` of its magnitude, even
`LLONG_MIN`, whose negation wraps to `2^63`. -/
lemma absOf_eq {xx : ℤ} (hxx : -2 ^ 63 ≤ xx ∧ xx < 2 ^ 63) (sign : Bool) :
    absOf xx sign = if sign ∧ xx < 0 then (true, xx.natAbs) else (false, (xx % 2 ^ 64).toNat) := by
  unfold absOf
  split_ifs with h
  · rw [Prod.mk.injEq]
    exact ⟨rfl, by omega⟩
  · rfl

lemma kernel_printint_eq {xx : ℤ} (hxx : -2 ^ 63 ≤ xx ∧ xx < 2 ^ 63) {base : ℕ} (hb₀ : 0 < base)
    (hb : base ≤ 16) (sign : Bool) :
    Kernel.printint xx base sign = if sign ∧ xx < 0 then '-' :: Nat.toDigits base xx.natAbs
      else Nat.toDigits base (xx % 2 ^ 64).toNat := by
  unfold Kernel.printint printint buf
  rw [absOf_eq hxx]
  split_ifs <;> simp [fill_eq_toDigits hb₀ hb]

lemma user_printint_eq (xx : ℤ) {base : ℕ} (hb₀ : 0 < base) (hb : base ≤ 16) (sign : Bool) :
    User.printint xx base sign = (Kernel.printint xx base sign).map Char.toUpper := by
  unfold User.printint Kernel.printint printint buf
  dsimp only
  rw [fill_udigits hb₀ hb]
  split_ifs <;> simp [List.map_reverse]

lemma buf_length (digits : List Char) (xx : ℤ) (base : ℕ) (sign : Bool) :
    (buf digits xx base sign).length = (printint digits xx base sign).length := by
  rw [printint, List.length_reverse]

/-- **`printint` prints every 64-bit value correctly**: for every `long long` `xx`, base `10`
or `16` and signedness, the kernel prints `-` and the digits of `|xx|` for a negative signed
value, `LLONG_MIN` included, and otherwise the digits of `xx` as an unsigned value; the user's
`printint` prints the same in upper case. Neither writes more than the `20` characters of
`buf`. -/
theorem printint_correct (xx : ℤ) (hxx : -2 ^ 63 ≤ xx ∧ xx < 2 ^ 63) (base : ℕ)
    (hb : base = 10 ∨ base = 16) (sign : Bool) :
    Kernel.printint xx base sign = (if sign ∧ xx < 0 then '-' :: Nat.toDigits base xx.natAbs
      else Nat.toDigits base (xx % 2 ^ 64).toNat) ∧
    User.printint xx base sign = (if sign ∧ xx < 0 then '-' :: Nat.toDigits base xx.natAbs
      else Nat.toDigits base (xx % 2 ^ 64).toNat).map Char.toUpper ∧
    (buf kdigits xx base sign).length ≤ 20 ∧ (buf udigits xx base sign).length ≤ 20 := by
  have hb₀ : 0 < base := by omega
  have hb16 : base ≤ 16 := by omega
  have hk := kernel_printint_eq hxx hb₀ hb16 sign
  -- the digits of a value below `base ^ e` number at most `e`
  have hlen : (Kernel.printint xx base sign).length ≤ 20 := by
    rw [hk]
    split_ifs with hneg
    · have hd : (Nat.toDigits base xx.natAbs).length ≤ 19 :=
        Nat.toDigits_length _ _ _ (by norm_num) (by rcases hb with rfl | rfl <;> omega)
      rw [List.length_cons]
      omega
    · exact Nat.toDigits_length _ _ _ (by norm_num) (by rcases hb with rfl | rfl <;> omega)
  refine ⟨hk, by rw [user_printint_eq xx hb₀ hb16, hk], ?_, ?_⟩
  · rw [buf_length]
    exact hlen
  · rw [buf_length, ← User.printint, user_printint_eq xx hb₀ hb16, List.length_map]
    exact hlen

example : Kernel.printint (-2 ^ 63) 10 true = "-9223372036854775808".toList := by decide

example : User.printint (-1) 16 false = "FFFFFFFFFFFFFFFF".toList := by decide

theorem printint_correct_llong_min :
    (-2 ^ 63 ≤ (-2 ^ 63 : ℤ) ∧ (-2 ^ 63 : ℤ) < 2 ^ 63) ∧ ((10 : ℕ) = 10 ∨ (10 : ℕ) = 16) ∧
    Kernel.printint (-2 ^ 63) 10 true = (if true ∧ (-2 ^ 63 : ℤ) < 0
      then '-' :: Nat.toDigits 10 (-2 ^ 63 : ℤ).natAbs
      else Nat.toDigits 10 ((-2 ^ 63 : ℤ) % 2 ^ 64).toNat) ∧
    User.printint (-2 ^ 63) 10 true = (if true ∧ (-2 ^ 63 : ℤ) < 0
      then '-' :: Nat.toDigits 10 (-2 ^ 63 : ℤ).natAbs
      else Nat.toDigits 10 ((-2 ^ 63 : ℤ) % 2 ^ 64).toNat).map Char.toUpper ∧
    (buf kdigits (-2 ^ 63) 10 true).length ≤ 20 ∧ (buf udigits (-2 ^ 63) 10 true).length ≤ 20 :=
  ⟨⟨by norm_num, by norm_num⟩, .inl rfl,
    printint_correct (-2 ^ 63) ⟨by norm_num, by norm_num⟩ 10 (.inl rfl) true⟩

end Xv6.Printint
