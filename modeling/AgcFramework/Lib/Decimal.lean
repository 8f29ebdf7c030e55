import Mathlib.Data.Nat.Digits.Lemmas
import AgcFramework.Lib.CString

/-!
# Decimal numerals

The numerals that `%d` prints and the numbers that `atoi` reads.

## Main definitions

* `decimal n`: the numeral of a natural number
* `digitsValue`, `atoi`, `atol`: the value of a sequence of digits, and the number at the start of a
  text

## Main results

* `digitsValue_decimal`: the numeral of `n` has the value `n`
* `atoi_decimal`: `atoi` reads back the numeral of a number that fits an `int`
-/

namespace Decimal

/-- The digit of a number below ten. -/
def digit (d : ℕ) : Byte := (48 + d).toUInt8

/-- `isdigit`. -/
def isDigit (b : Byte) : Bool := 48 ≤ b ∧ b ≤ 57

/-- `isspace` in the C locale. -/
def isSpace (b : Byte) : Bool := b = 32 ∨ (9 ≤ b ∧ b ≤ 13)

/-- The numeral of a natural number. -/
def decimal (n : ℕ) : List Byte :=
  if n = 0 then [digit 0] else (Nat.digits 10 n).reverse.map digit

/-- The text that `%d` makes of an `int`. -/
def decimalInt (i : ℤ) : List Byte :=
  if i < 0 then 45 :: decimal i.natAbs else decimal i.natAbs

/-- The value of a sequence of digits. -/
def digitsValue (bs : List Byte) : ℕ := bs.foldl (fun a b => 10 * a + (b.toNat - 48)) 0

/-- `atoi`: white space is skipped, a sign and the digits behind it are read. The number saturates
as a `long` and is cut to an `int`. -/
def atoi (s : List Byte) : ℤ :=
  let s := s.dropWhile isSpace
  let value : ℤ := match s with
    | 45 :: s => -digitsValue (s.takeWhile isDigit)
    | 43 :: s => digitsValue (s.takeWhile isDigit)
    | s => digitsValue (s.takeWhile isDigit)
  (BitVec.ofInt 32 (max (-2 ^ 63) (min (2 ^ 63 - 1) value))).toInt

/-- `atol`: the number before it is cut to an `int`. -/
def atol (s : List Byte) : ℤ :=
  let s := s.dropWhile isSpace
  let value : ℤ := match s with
    | 45 :: s => -digitsValue (s.takeWhile isDigit)
    | 43 :: s => digitsValue (s.takeWhile isDigit)
    | s => digitsValue (s.takeWhile isDigit)
  max (-2 ^ 63) (min (2 ^ 63 - 1) value)

theorem isDigit_digit {d : ℕ} (h : d < 10) : isDigit (digit d) = true := by
  interval_cases d <;> decide

theorem toNat_digit {d : ℕ} (h : d < 10) : (digit d).toNat - 48 = d := by
  interval_cases d <;> decide

theorem decimal_ne_nil (n : ℕ) : decimal n ≠ [] := by
  unfold decimal
  split
  · simp
  · rename_i hn
    simpa using Nat.digits_ne_nil_iff_ne_zero.mpr hn

theorem isDigit_of_mem_decimal {n : ℕ} {b : Byte} (h : b ∈ decimal n) : isDigit b = true := by
  unfold decimal at h
  split at h
  · rw [List.mem_singleton.mp h]
    exact isDigit_digit (by decide)
  · obtain ⟨d, hd, rfl⟩ := List.mem_map.mp h
    exact isDigit_digit (Nat.digits_lt_base (by decide) (List.mem_reverse.mp hd))

/-- The numeral of `n` has the value `n`. -/
theorem digitsValue_decimal (n : ℕ) : digitsValue (decimal n) = n := by
  unfold decimal
  split
  · rename_i hn
    rw [hn]
    rfl
  · have hfold : ∀ l : List ℕ, (∀ d ∈ l, d < 10) →
        digitsValue (l.reverse.map digit) = Nat.ofDigits 10 l := by
      intro l hl
      induction l with
      | nil => rfl
      | cons d l ih =>
        have hd := toNat_digit (hl d List.mem_cons_self)
        have hl' := ih fun x hx => hl x (List.mem_cons_of_mem d hx)
        rw [Nat.ofDigits_cons, ← hl']
        simp only [List.reverse_cons, List.map_append, List.map_singleton, digitsValue,
          List.foldl_append, List.foldl_cons, List.foldl_nil, hd]
        exact Nat.add_comm _ _
    rw [hfold _ fun d hd => Nat.digits_lt_base (by decide) hd]
    exact Nat.ofDigits_digits 10 n

theorem nul_notMem_decimal (n : ℕ) : (0 : Byte) ∉ decimal n := by
  intro h
  exact absurd (isDigit_of_mem_decimal h) (by decide)

theorem decimal_injective : Function.Injective decimal := by
  intro n m h
  rw [← digitsValue_decimal n, h, digitsValue_decimal]

@[simp] theorem decimalInt_natCast (n : ℕ) : decimalInt n = decimal n := by
  simp [decimalInt]

/-- A larger number has no fewer digits. -/
theorem length_decimal_le {n m : ℕ} (h : n ≤ m) : (decimal n).length ≤ (decimal m).length := by
  by_cases hn : n = 0
  · have hzero : (decimal 0).length = 1 := rfl
    rw [hn, hzero]
    exact List.length_pos_of_ne_nil (decimal_ne_nil m)
  · have hm : m ≠ 0 := by omega
    simpa [decimal, hn, hm] using Nat.le_length_digits_le 10 n m h

theorem nul_notMem_decimalInt (i : ℤ) : (0 : Byte) ∉ decimalInt i := by
  unfold decimalInt
  split
  · simpa using nul_notMem_decimal _
  · exact nul_notMem_decimal _

/-- The digits of a numeral are those before a text that does not go on with a digit. -/
theorem takeWhile_decimal (n : ℕ) {s : List Byte} (hs : ∀ b ∈ s.head?, isDigit b = false) :
    (decimal n ++ s).takeWhile isDigit = decimal n := by
  rw [List.takeWhile_append_of_pos fun b hb => isDigit_of_mem_decimal hb]
  cases s with
  | nil => simp
  | cons b s => simp [hs b rfl]

theorem isSpace_of_isDigit {b : Byte} (h : isDigit b = true) : isSpace b = false := by
  simp only [isDigit, isSpace, decide_eq_true_eq, decide_eq_false_iff_not, UInt8.le_iff_toNat_le,
    UInt8.ext_iff] at h ⊢
  simp at h ⊢
  omega

/-- What `atoi` makes of a numeral: the number saturates and is cut to an `int`. -/
theorem atoi_decimal_eq (n : ℕ) {s : List Byte} (hs : ∀ b ∈ s.head?, isDigit b = false) :
    atoi (decimal n ++ s) = (BitVec.ofInt 32 (min (2 ^ 63 - 1) (n : ℤ))).toInt := by
  have htake := takeWhile_decimal n hs
  obtain ⟨b, bs, hb⟩ := List.exists_cons_of_ne_nil (decimal_ne_nil n)
  have hdigit : isDigit b = true := isDigit_of_mem_decimal (n := n) (by rw [hb]; simp)
  have hspace : (decimal n ++ s).dropWhile isSpace = decimal n ++ s := by
    rw [hb, List.cons_append, List.dropWhile_cons_of_neg (by simp [isSpace_of_isDigit hdigit])]
  have hvalue := digitsValue_decimal n
  unfold atoi
  simp only [hspace]
  rw [hb] at htake hvalue ⊢
  -- a numeral starts with a digit, so there is no sign
  split
  · rename_i h
    rw [(List.cons.inj h).1] at hdigit
    exact absurd hdigit (by decide)
  · rename_i h
    rw [(List.cons.inj h).1] at hdigit
    exact absurd hdigit (by decide)
  · rw [htake, hvalue, max_eq_right]
    refine le_min (by decide) ?_
    have : (0 : ℤ) ≤ n := Int.natCast_nonneg n
    omega

/-- `atoi` reads back the numeral of a number that fits an `int`. -/
theorem atoi_decimal {n : ℕ} (hn : n < 2 ^ 31) {s : List Byte}
    (hs : ∀ b ∈ s.head?, isDigit b = false) : atoi (decimal n ++ s) = n := by
  rw [atoi_decimal_eq n hs, min_eq_right (by omega), BitVec.toInt_ofInt]
  exact Int.bmod_eq_of_le (by omega) (by omega)

end Decimal
