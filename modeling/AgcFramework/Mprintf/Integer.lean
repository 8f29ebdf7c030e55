import AgcFramework.Mprintf.Model

/-!
# The integer conversions

`%d`, `%i`, `%u`, `%o`, `%x`, `%X` and `%p` make their text from the end of the buffer: the digits,
zeros up to the precision, a sign and the prefix of the alternate form. The width and the precision
are limited, so that the text fits.

## Main definitions

* `readInt base t`: the number that a text stands for
* `argValue`: the number that a conversion is given

## Main results

* `radixText_eq`: the text, part by part
* `convert_radix`: the text fits the buffer and reads back to the number
-/

open Exec

namespace Mprintf

/-! ## The loops -/

/-- The numeral of a number. -/
def numeral (charset base v : ℕ) : List Byte :=
  (if v = 0 then [0] else (Nat.digits base v).reverse).map fun d => aDigits.getD (charset + d) 0

variable {charset base v : ℕ} {t : List Byte}

theorem push_of_lt (h : t.length < etBUFSIZE - 1) (b : Byte) : push t b = .ok (b :: t) := if_pos h

theorem numeral_of_lt (h : v < base) : numeral charset base v = [aDigits.getD (charset + v) 0] := by
  unfold numeral
  split_ifs with hv
  · rw [hv]
    rfl
  · rw [Nat.digits_of_lt base v hv h]
    rfl

theorem numeral_of_div (hbase : 1 < base) (h : 0 < v / base) :
    numeral charset base v =
      numeral charset base (v / base) ++ [aDigits.getD (charset + v % base) 0] := by
  have hv : v ≠ 0 := by
    rintro rfl
    simp at h
  rw [numeral, numeral, if_neg hv, if_neg h.ne', Nat.digits_def' hbase (Nat.pos_of_ne_zero hv),
    List.reverse_cons, List.map_append]
  rfl

theorem length_numeral_le (hbase : 1 < base) {k : ℕ} (hk : 0 < k) (h : v < base ^ k) :
    (numeral charset base v).length ≤ k := by
  rw [numeral, List.length_map]
  split_ifs
  · exact hk
  · rw [List.length_reverse]
    exact (Nat.digits_length_le_iff hbase v).mpr h

/-- The digits come out from the last one, each in front of the others. -/
theorem radixLoop_eq (hbase : 1 < base) (k : ℕ) (h : v < base ^ k) (hpos : 0 < k)
    (hroom : t.length + (numeral charset base v).length < etBUFSIZE) :
    radixLoop charset base k v t = .ok (numeral charset base v ++ t) := by
  induction k generalizing v t with
  | zero => exact absurd hpos (Nat.lt_irrefl 0)
  | succ k ih =>
    rw [radixLoop]
    split_ifs with hdiv
    · have hsplit : numeral charset base v = numeral charset base (v / base) ++
          [aDigits.getD (charset + v % base) 0] := numeral_of_div hbase hdiv
      rw [hsplit, List.length_append, List.length_singleton] at hroom
      rw [push_of_lt (by omega), ok_bind]
      have hlt : v / base < base ^ k := by
        rw [Nat.div_lt_iff_lt_mul (by omega)]
        rwa [pow_succ] at h
      have hk : 0 < k := by
        rcases Nat.eq_zero_or_pos k with rfl | hk
        · rw [pow_zero] at hlt
          omega
        · exact hk
      rw [ih hlt hk (by rw [List.length_cons]; omega), hsplit, List.append_assoc]
      rfl
    · have hv : v < base := by
        rw [Nat.pos_iff_ne_zero, not_not, Nat.div_eq_zero_iff] at hdiv
        omega
      rw [numeral_of_lt hv, List.length_singleton] at hroom
      rw [push_of_lt (by omega), ok_bind, numeral_of_lt hv, Nat.mod_eq_of_lt hv]
      rfl

theorem zeroLoop_eq (n : ℕ) (hroom : t.length + n < etBUFSIZE) :
    zeroLoop n t = .ok (List.replicate n (ch '0') ++ t) := by
  induction n generalizing t with
  | zero => rfl
  | succ n ih =>
    rw [zeroLoop, push_of_lt (by omega), ok_bind, ih (by rw [List.length_cons]; omega),
      List.replicate_succ', List.append_assoc]
    rfl

theorem pushLoop_eq (bs : List Byte) (hroom : t.length + bs.length < etBUFSIZE) :
    pushLoop bs t = .ok (bs.reverse ++ t) := by
  induction bs generalizing t with
  | nil => rfl
  | cons b bs ih =>
    rw [List.length_cons] at hroom
    rw [pushLoop, push_of_lt (by omega), ok_bind, ih (by rw [List.length_cons]; omega),
      List.reverse_cons, List.append_assoc]
    rfl

/-! ## The text -/

/-- The precision with the zeros that fill the width. -/
def fullPrecision (d : Directive) (sign : Option Byte) : ℤ :=
  let room : ℤ := d.width - if sign.isSome then 1 else 0
  if d.flags.zeropad ∧ d.precision < room then room else d.precision

/-- The digits of a number, with the zeros in front. -/
def digitsText (i : EtInfo) (d : Directive) (sign : Option Byte) (v : ℕ) : List Byte :=
  let t := numeral i.charset i.base v
  List.replicate (fullPrecision d sign - t.length).toNat (ch '0') ++ t

/-- The prefix of the alternate form, as it is read. -/
def altText (i : EtInfo) (d : Directive) (v : ℕ) (t : List Byte) : List Byte :=
  let pre := (aPrefix.drop i.altPrefix).takeWhile (· ≠ 0)
  if d.flags.alternateform ∧ v ≠ 0 ∧ i.altPrefix ≠ 0 ∧ t.head? ≠ pre.head? then pre.reverse else []

/-- The digits fill the precision at least. -/
theorem length_digitsText (i : EtInfo) (d : Directive) (sign : Option Byte) (v : ℕ) :
    (digitsText i d sign v).length =
      max (fullPrecision d sign).toNat (numeral i.charset i.base v).length := by
  rw [digitsText, List.length_append, List.length_replicate]
  omega

theorem fullPrecision_le (d : Directive) (sign : Option Byte) (hprec : d.precision ≤ 310) :
    fullPrecision d sign + sign.toList.length ≤ 340 := by
  have hwidth : d.width ≤ 340 := d.width_le
  unfold fullPrecision
  cases sign with
  | none =>
    simp only [Option.isSome_none, Option.toList_none, List.length_nil]
    split_ifs <;> omega
  | some b =>
    simp only [Option.isSome_some, Option.toList_some, List.length_singleton]
    split_ifs <;> omega

/-- The text of a number, part by part. -/
theorem radixText_eq (i : EtInfo) (d : Directive) (sign : Option Byte) (hbase : 7 < i.base)
    (hv : v < 2 ^ 64) (hprec : d.precision ≤ 310) :
    radixText i d sign v =
      .ok (altText i d v (sign.toList ++ digitsText i d sign v) ++
        (sign.toList ++ digitsText i d sign v)) := by
  have hnumeral : (numeral i.charset i.base v).length ≤ 22 := by
    apply length_numeral_le (by omega) (by decide)
    calc v < 2 ^ 64 := hv
      _ ≤ 8 ^ 22 := by norm_num
      _ ≤ i.base ^ 22 := Nat.pow_le_pow_left hbase 22
  have hfull := fullPrecision_le d sign hprec
  have hlen := length_digitsText i d sign v
  have hsign : sign.toList.length ≤ 1 := by cases sign <;> simp
  have hsize : etBUFSIZE = 350 := rfl
  have hpow : v < i.base ^ 64 :=
    hv.trans_le (Nat.pow_le_pow_left (by omega) 64)
  have hzeros := zeroLoop_eq (t := numeral i.charset i.base v)
    (fullPrecision d sign - (numeral i.charset i.base v).length).toNat (by omega)
  have hpush := pushLoop_eq (t := digitsText i d sign v) sign.toList (by omega)
  have hrev : sign.toList.reverse = sign.toList := by cases sign <;> rfl
  rw [hrev] at hpush
  unfold radixText
  rw [radixLoop_eq (by omega) 64 hpow (by decide) (by rw [List.length_nil]; omega), ok_bind,
    List.append_nil]
  show (zeroLoop (fullPrecision d sign - _).toNat _ >>= _) = _
  rw [hzeros, ok_bind]
  show (pushLoop sign.toList (digitsText i d sign v) >>= _) = _
  rw [hpush, ok_bind]
  have hpre : ((aPrefix.drop i.altPrefix).takeWhile (· ≠ 0)).length ≤ 6 :=
    ((List.takeWhile_sublist _).trans (List.drop_sublist _ _)).length_le
  unfold altText
  simp only
  split_ifs
  · apply pushLoop_eq
    rw [List.length_append]
    omega
  · rfl

/-! ## Reading it back -/

/-- The value of a digit, or `base` and more. -/
def digitVal (b : Byte) : ℕ :=
  if 48 ≤ b ∧ b ≤ 57 then b.toNat - 48
  else if 65 ≤ b ∧ b ≤ 70 then b.toNat - 55
  else if 97 ≤ b ∧ b ≤ 102 then b.toNat - 87
  else 255

/-- The number of a text that has digits only. -/
def readDigits (base : ℕ) (t : List Byte) : Option ℕ :=
  if t ≠ [] ∧ t.all (digitVal · < base) then some (Nat.ofDigits base (t.map digitVal).reverse)
  else none

/-- The number of a text, behind a `0x` if the base is 16. -/
def readNat (base : ℕ) : List Byte → Option ℕ
  | 48 :: b :: t => readDigits base (if base = 16 ∧ (b = 120 ∨ b = 88) then t else 48 :: b :: t)
  | t => readDigits base t

/-- The number that a text stands for: a sign or a blank, and what is behind it. -/
def readInt (base : ℕ) : List Byte → Option ℤ
  | 45 :: t => (readNat base t).map fun n : ℕ => -(n : ℤ)
  | 43 :: t => (readNat base t).map fun n : ℕ => (n : ℤ)
  | 32 :: t => (readNat base t).map fun n : ℕ => (n : ℤ)
  | t => (readNat base t).map fun n : ℕ => (n : ℤ)

@[simp] theorem readInt_minus (base : ℕ) (t : List Byte) :
    readInt base (ch '-' :: t) = (readNat base t).map fun n : ℕ => -(n : ℤ) := rfl

@[simp] theorem readInt_plus (base : ℕ) (t : List Byte) :
    readInt base (ch '+' :: t) = (readNat base t).map fun n : ℕ => (n : ℤ) := rfl

@[simp] theorem readInt_blank (base : ℕ) (t : List Byte) :
    readInt base (ch ' ' :: t) = (readNat base t).map fun n : ℕ => (n : ℤ) := rfl

/-- A hexadecimal number with its prefix. -/
theorem readInt_hex {b : Byte} (hb : b = 120 ∨ b = 88) (t : List Byte) :
    readInt 16 (48 :: b :: t) = (readDigits 16 t).map fun n : ℕ => (n : ℤ) := by
  have hnat : readNat 16 (48 :: b :: t) = readDigits 16 t := by
    rw [readNat, if_pos ⟨rfl, hb⟩]
  rw [← hnat]
  rfl

theorem digitVal_digit {d : ℕ} (hcharset : charset = 0 ∨ charset = 16) (hd : d < 16) :
    digitVal (aDigits.getD (charset + d) 0) = d := by
  have hall : ∀ d < 16, digitVal (aDigits.getD (0 + d) 0) = d ∧
      digitVal (aDigits.getD (16 + d) 0) = d := by decide
  rcases hcharset with rfl | rfl
  · exact (hall d hd).1
  · exact (hall d hd).2

theorem digit_lt (hbase : 1 < base) {d : ℕ}
    (hd : d ∈ if v = 0 then [0] else (Nat.digits base v).reverse) : d < base := by
  split_ifs at hd
  · rw [List.mem_singleton.mp hd]
    omega
  · exact Nat.digits_lt_base hbase (List.mem_reverse.mp hd)

theorem map_digitVal_numeral (hcharset : charset = 0 ∨ charset = 16) (hbase : 1 < base)
    (hle : base ≤ 16) :
    (numeral charset base v).map digitVal = if v = 0 then [0] else (Nat.digits base v).reverse := by
  have hdigit : ∀ d ∈ (if v = 0 then [0] else (Nat.digits base v).reverse),
      digitVal (aDigits.getD (charset + d) 0) = id d := fun d hd =>
    digitVal_digit hcharset ((digit_lt hbase hd).trans_le hle)
  rw [numeral, List.map_map]
  exact (List.map_congr_left hdigit).trans (List.map_id _)

theorem ofDigits_numeral (hcharset : charset = 0 ∨ charset = 16) (hbase : 1 < base)
    (hle : base ≤ 16) : Nat.ofDigits base ((numeral charset base v).map digitVal).reverse = v := by
  rw [map_digitVal_numeral hcharset hbase hle]
  split_ifs with hv
  · rw [hv]
    rfl
  · rw [List.reverse_reverse]
    exact Nat.ofDigits_digits base v

theorem numeral_ne_nil : numeral charset base v ≠ [] := by
  intro h
  rw [numeral, List.map_eq_nil_iff] at h
  split_ifs at h with hv
  exact Nat.digits_ne_nil_iff_ne_zero.mpr hv (List.reverse_eq_nil_iff.mp h)

theorem digitVal_numeral_lt (hcharset : charset = 0 ∨ charset = 16) (hbase : 1 < base)
    (hle : base ≤ 16) {b : Byte} (hb : b ∈ numeral charset base v) : digitVal b < base := by
  have hmem := List.mem_map_of_mem (f := digitVal) hb
  rw [map_digitVal_numeral hcharset hbase hle] at hmem
  exact digit_lt hbase hmem

/-- Zeros in front of a numeral do not change what it stands for. -/
theorem readDigits_zeros (n : ℕ) (hcharset : charset = 0 ∨ charset = 16) (hbase : 1 < base)
    (hle : base ≤ 16) :
    readDigits base (List.replicate n (ch '0') ++ numeral charset base v) = some v := by
  have hzero : digitVal (ch '0') = 0 := by decide
  unfold readDigits
  rw [if_pos]
  · rw [List.map_append, List.reverse_append, List.map_replicate, hzero, List.reverse_replicate,
      Nat.ofDigits_append_replicate_zero, ofDigits_numeral hcharset hbase hle]
  · refine ⟨List.append_ne_nil_of_right_ne_nil _ numeral_ne_nil, ?_⟩
    refine List.all_eq_true.mpr fun b hb => decide_eq_true ?_
    rcases List.mem_append.mp hb with hb | hb
    · rw [List.eq_of_mem_replicate hb, hzero]
      omega
    · exact digitVal_numeral_lt hcharset hbase hle hb

theorem digitVal_lt_of_readDigits {n : ℕ} (h : readDigits base t = some n) :
    t ≠ [] ∧ ∀ b ∈ t, digitVal b < base := by
  unfold readDigits at h
  split_ifs at h with ht
  exact ⟨ht.1, fun b hb => of_decide_eq_true (List.all_eq_true.mp ht.2 b hb)⟩

/-- Digits do not begin with a `0x`. -/
theorem readNat_of_readDigits {n : ℕ} (hle : base ≤ 16) (h : readDigits base t = some n) :
    readNat base t = some n := by
  obtain ⟨-, hdigits⟩ := digitVal_lt_of_readDigits h
  unfold readNat
  split
  · rename_i b t
    have hb := hdigits b (List.mem_cons_of_mem _ List.mem_cons_self)
    rw [if_neg]
    · exact h
    · rintro ⟨-, rfl | rfl⟩
      · exact absurd hb (by rw [show digitVal 120 = 255 from rfl]; omega)
      · exact absurd hb (by rw [show digitVal 88 = 255 from rfl]; omega)
  · exact h

/-- Digits do not begin with a sign. -/
theorem readInt_of_readNat {n : ℕ} (hle : base ≤ 16) (h : readNat base t = some n)
    (hhead : ∀ b ∈ t.head?, digitVal b < base) : readInt base t = some (n : ℤ) := by
  unfold readInt
  split
  · exact absurd (hhead 45 rfl) (by rw [show digitVal 45 = 255 from rfl]; omega)
  · exact absurd (hhead 43 rfl) (by rw [show digitVal 43 = 255 from rfl]; omega)
  · exact absurd (hhead 32 rfl) (by rw [show digitVal 32 = 255 from rfl]; omega)
  · rw [h]
    rfl

/-! ## The conversions of the table -/

/-- The number that a conversion is given, by the type that it reads. -/
def argValue (i : EtInfo) (d : Directive) : VaArg R → Option ℤ
  | .int v =>
    if d.long || d.longlong || i.type = .pointer then none
    else some (if i.signed then v.toInt else v.toNat)
  | .long v =>
    if d.long || d.longlong || i.type = .pointer then
      some (if i.signed then v.toInt else v.toNat)
    else none
  | _ => none

/-- What the table says of the integer conversions. -/
theorem fmtinfo_radix {i : EtInfo} (hi : i ∈ fmtinfo) (ht : i.type = .radix ∨ i.type = .pointer) :
    7 < i.base ∧ i.base ≤ 16 ∧ (i.charset = 0 ∨ i.charset = 16) ∧ i.string = false ∧
    (i.signed = true → i.base = 10 ∧ i.altPrefix = 0) ∧
    (i.altPrefix = 0 ∨
      (i.base = 16 ∧ (aPrefix.drop i.altPrefix).takeWhile (· ≠ 0) = [120, 48]) ∨
      (i.base = 16 ∧ (aPrefix.drop i.altPrefix).takeWhile (· ≠ 0) = [88, 48]) ∨
      (i.base = 8 ∧ (aPrefix.drop i.altPrefix).takeWhile (· ≠ 0) = [48])) := by
  revert i
  decide

section Table

variable {i : EtInfo} (hi : i ∈ fmtinfo) (ht : i.type = .radix ∨ i.type = .pointer)

include hi ht

theorem readDigits_digitsText (d : Directive) (sign : Option Byte) (v : ℕ) :
    readDigits i.base (digitsText i d sign v) = some v := by
  obtain ⟨hbase, hle, hcharset, -⟩ := fmtinfo_radix hi ht
  exact readDigits_zeros _ hcharset (by omega) hle

/-- Digits alone read back to their number. -/
theorem readInt_digitsText (d : Directive) (sign : Option Byte) (v : ℕ) :
    readNat i.base (digitsText i d sign v) = some v ∧
      readInt i.base (digitsText i d sign v) = some (v : ℤ) := by
  obtain ⟨-, hle, -⟩ := fmtinfo_radix hi ht
  have hdigits := readDigits_digitsText hi ht d sign v
  have hnat := readNat_of_readDigits hle hdigits
  refine ⟨hnat, readInt_of_readNat hle hnat fun b hb => ?_⟩
  exact (digitVal_lt_of_readDigits hdigits).2 b (List.mem_of_mem_head? hb)

/-- The text of an unsigned number reads back, with or without its prefix. -/
theorem readInt_unsigned (d : Directive) (v : ℕ) :
    readInt i.base (altText i d v (digitsText i d none v) ++ digitsText i d none v) =
      some (v : ℤ) := by
  obtain ⟨-, -, hcharset, -, -, hpre⟩ := fmtinfo_radix hi ht
  have hplain := readInt_digitsText hi ht d none v
  have hdigits := readDigits_digitsText hi ht d none v
  unfold altText
  simp only
  split_ifs with halt
  · rcases hpre with hpre | ⟨hbase, hpre⟩ | ⟨hbase, hpre⟩ | ⟨hbase, hpre⟩
    · exact absurd hpre halt.2.2.1
    · rw [hbase] at hdigits
      rw [hpre, hbase]
      show readInt 16 (48 :: 120 :: digitsText i d none v) = _
      rw [readInt_hex (Or.inl rfl), hdigits]
      rfl
    · rw [hbase] at hdigits
      rw [hpre, hbase]
      show readInt 16 (48 :: 88 :: digitsText i d none v) = _
      rw [readInt_hex (Or.inr rfl), hdigits]
      rfl
    · -- one zero more
      have hzeros := readDigits_zeros (v := v)
        ((fullPrecision d none - (numeral i.charset i.base v).length).toNat + 1) hcharset
        (by omega) (by omega : i.base ≤ 16)
      have hnat := readNat_of_readDigits (by omega) hzeros
      rw [hpre]
      refine readInt_of_readNat (by omega) hnat fun b hb => ?_
      exact (digitVal_lt_of_readDigits hzeros).2 b (List.mem_of_mem_head? hb)
  · exact hplain.2

/-- The text of a signed number reads back, with or without a sign. -/
theorem readInt_signed (d : Directive) {v : ℤ} {sign : Option Byte} {n : ℕ}
    (h : signedValue d v = .ok (sign, n)) :
    readInt i.base (sign.toList ++ digitsText i d sign n) = some v ∧ n = v.natAbs := by
  have hread := fun sign n => readInt_digitsText hi ht d sign n
  unfold signedValue at h
  split_ifs at h with hneg hmin hplus hblank
  · cases h
    refine ⟨?_, rfl⟩
    show readInt i.base (ch '-' :: digitsText i d (some (ch '-')) v.natAbs) = _
    rw [readInt_minus, (hread _ _).1, Option.map_some]
    congr 1
    omega
  all_goals
    have hv : ((v.natAbs : ℕ) : ℤ) = v := by omega
    cases h
    refine ⟨?_, rfl⟩
  · show readInt i.base (ch '+' :: digitsText i d (some (ch '+')) v.natAbs) = _
    rw [readInt_plus, (hread _ _).1, Option.map_some, hv]
  · show readInt i.base (ch ' ' :: digitsText i d (some (ch ' ')) v.natAbs) = _
    rw [readInt_blank, (hread _ _).1, Option.map_some, hv]
  · show readInt i.base (digitsText i d none v.natAbs) = _
    rw [(hread _ _).2, hv]

/-- The text of a number: it fits the buffer, has at least as many bytes as the precision says, and
reads back. -/
theorem radixText_reads (d : Directive) (hprec : d.precision ≤ 310) {v : ℤ}
    (hv : v < 2 ^ 64) (hsigned : i.signed = true → v ≠ -2 ^ 63 ∧ -2 ^ 63 ≤ v)
    (hunsigned : i.signed = false → 0 ≤ v) :
    ∃ sign n t, (if i.signed then signedValue d v else pure (none, v.toNat)) = .ok (sign, n) ∧
      radixText i d sign n = .ok t ∧ t.length < etBUFSIZE ∧ d.precision ≤ t.length ∧
      readInt i.base t = some v := by
  obtain ⟨hbase, hle, hcharset, -, hplain, -⟩ := fmtinfo_radix hi ht
  -- the lengths of the parts
  have hlen : ∀ sign n, n < 2 ^ 64 →
      (sign.toList ++ digitsText i d sign n).length ≤ 340 ∧
        d.precision ≤ (sign.toList ++ digitsText i d sign n).length := by
    intro sign n hn
    have hnumeral : (numeral i.charset i.base n).length ≤ 22 := by
      apply length_numeral_le (by omega) (by decide)
      calc n < 2 ^ 64 := hn
        _ ≤ 8 ^ 22 := by norm_num
        _ ≤ i.base ^ 22 := Nat.pow_le_pow_left hbase 22
    have hfull := fullPrecision_le d sign hprec
    have hdigits := length_digitsText i d sign n
    have hsign : sign.toList.length ≤ 1 := by cases sign <;> simp
    have hge : d.precision ≤ fullPrecision d sign := by
      unfold fullPrecision
      simp only
      rcases Decidable.em (d.flags.zeropad ∧
        d.precision < d.width - if sign.isSome then 1 else 0) with hzero | hzero
      · rw [if_pos hzero]
        exact hzero.2.le
      · rw [if_neg hzero]
    rw [List.length_append]
    omega
  have halt : ∀ (n : ℕ) (t : List Byte), (altText i d n t).length ≤ 6 := by
    intro n t
    unfold altText
    simp only
    split_ifs
    · rw [List.length_reverse]
      exact ((List.takeWhile_sublist _).trans (List.drop_sublist _ _)).length_le
    · exact Nat.zero_le 6
  have hsize : etBUFSIZE = 350 := rfl
  rcases hs : i.signed with _ | _
  · have hpos := hunsigned hs
    have hn : v.toNat < 2 ^ 64 := by omega
    refine ⟨none, v.toNat, _, rfl, radixText_eq i d none hbase hn hprec, ?_, ?_, ?_⟩
    · have := hlen none v.toNat hn
      have := halt v.toNat ((none : Option Byte).toList ++ digitsText i d none v.toNat)
      rw [List.length_append]
      omega
    · have := hlen none v.toNat hn
      rw [List.length_append]
      omega
    · have hread := readInt_unsigned hi ht d v.toNat
      rw [Int.toNat_of_nonneg hpos] at hread
      exact hread
  · obtain ⟨hmin, hge⟩ := hsigned hs
    obtain ⟨sign, n, hvalue⟩ : ∃ sign n, signedValue d v = .ok (sign, n) := by
      unfold signedValue
      rcases Decidable.em (v < 0) with hneg | hneg
      · rw [if_pos hneg, if_neg hmin]
        exact ⟨_, _, rfl⟩
      · rw [if_neg hneg]
        exact ⟨_, _, rfl⟩
    obtain ⟨hread, rfl⟩ := readInt_signed hi ht d hvalue
    have hn : v.natAbs < 2 ^ 64 := by omega
    have hnone : altText i d v.natAbs (sign.toList ++ digitsText i d sign v.natAbs) = [] := by
      unfold altText
      simp only
      rw [if_neg]
      exact fun h => h.2.2.1 (hplain hs).2
    refine ⟨sign, v.natAbs, _, hvalue, radixText_eq i d sign hbase hn hprec, ?_, ?_, ?_⟩
    · have := hlen sign v.natAbs hn
      rw [hnone, List.nil_append]
      omega
    · have := hlen sign v.natAbs hn
      rw [hnone, List.nil_append]
      omega
    · rw [hnone, List.nil_append]
      exact hread

end Table

/-- The numbers that an argument can be. -/
theorem argValue_bounds {i : EtInfo} {d : Directive} {a : VaArg R} {v : ℤ}
    (h : argValue i d a = some v) :
    v < 2 ^ 64 ∧ (i.signed = true → -2 ^ 63 ≤ v) ∧ (i.signed = false → 0 ≤ v) := by
  cases a with
  | int x =>
    simp only [argValue] at h
    split_ifs at h with _ hs
    · have hlt := BitVec.toInt_lt (x := x)
      have hle := BitVec.le_toInt x
      obtain rfl := Option.some.inj h
      refine ⟨by omega, fun _ => by omega, fun hf => ?_⟩
      rw [hs] at hf
      cases hf
    · obtain rfl := Option.some.inj h
      have hlt := x.isLt
      exact ⟨by omega, fun ht => absurd ht hs, fun _ => by omega⟩
  | long x =>
    simp only [argValue] at h
    split_ifs at h with _ hs
    · have hlt := BitVec.toInt_lt (x := x)
      have hle := BitVec.le_toInt x
      obtain rfl := Option.some.inj h
      refine ⟨by omega, fun _ => by omega, fun hf => ?_⟩
      rw [hs] at hf
      cases hf
    · obtain rfl := Option.some.inj h
      have hlt := x.isLt
      exact ⟨by omega, fun ht => absurd ht hs, fun _ => by omega⟩
  | real x => cases h
  | str s => cases h
  | intPtr => cases h

/-- A conversion reads its argument with the type that it has, and makes the text of its value. -/
theorem convertRadix_eq {i : EtInfo} {d d' : Directive} {a : VaArg R} {v : ℤ}
    {sign : Option Byte} {n : ℕ} {t : List Byte} (ap : List (VaArg R))
    (h : argValue i d a = some v)
    (hlong : (d'.long || d'.longlong) = (d.long || d.longlong || decide (i.type = .pointer)))
    (hvalue : (if i.signed then signedValue d' v else pure (none, v.toNat)) = .ok (sign, n))
    (htext : radixText i d' sign n = .ok t) :
    convertRadix i d' (a :: ap) = .ok (t, ap) := by
  cases a with
  | int x =>
    simp only [argValue, Bool.or_eq_true, decide_eq_true_eq] at h
    split_ifs at h with hno hs
    all_goals
      have hshort : (d'.long || d'.longlong) = false := by
        rw [hlong]
        simpa using hno
      obtain rfl := Option.some.inj h
      simp only [convertRadix, hshort, Bool.false_eq_true, if_false, vaInt, ok_bind, radixValue]
    · rw [if_pos hs] at hvalue ⊢
      rw [hvalue, ok_bind, htext]
      rfl
    · rw [if_neg hs] at hvalue ⊢
      obtain ⟨rfl, rfl⟩ := Prod.mk.inj (Except.ok.inj hvalue)
      rw [pure_eq_ok, ok_bind, Int.toNat_natCast] at *
      rw [htext]
      rfl
  | long x =>
    simp only [argValue, Bool.or_eq_true, decide_eq_true_eq] at h
    split_ifs at h with hyes hs
    all_goals
      have hwide : (d'.long || d'.longlong) = true := by
        rw [hlong]
        simpa using hyes
      obtain rfl := Option.some.inj h
      simp only [convertRadix, hwide, if_true, vaLong, ok_bind, radixValue]
    · rw [if_pos hs] at hvalue ⊢
      rw [hvalue, ok_bind, htext]
      rfl
    · rw [if_neg hs] at hvalue ⊢
      obtain ⟨rfl, rfl⟩ := Prod.mk.inj (Except.ok.inj hvalue)
      rw [pure_eq_ok, ok_bind, Int.toNat_natCast] at *
      rw [htext]
      rfl
  | real x => cases h
  | str s => cases h
  | intPtr => cases h

/-- The limit of the precision of a conversion that is not one of a string. -/
theorem limited_of_not_string {i : EtInfo} (h : i.string = false) (d : Directive) :
    (limited i d).precision = min d.precision 310 ∧
      ((limited i d).long || (limited i d).longlong) = (d.long || d.longlong) := by
  have hsize : (etBUFSIZE : ℤ) = 350 := rfl
  unfold limited
  split_ifs with hlimit
  · refine ⟨?_, rfl⟩
    show (etBUFSIZE : ℤ) - 40 = _
    omega
  · refine ⟨?_, rfl⟩
    have : ¬ (etBUFSIZE : ℤ) - 40 < d.precision := fun hlt => hlimit ⟨hlt, h⟩
    omega

/-- **Integers are printed within the buffer, and read back.** Whatever the flags, the width and the
precision of an integer conversion, its text has fewer than the 350 bytes of the buffer and at least
as many as the precision says, which is limited to 310; and read with its base, it is the number
that was passed. The one value whose negation overflows is left out. -/
theorem convert_radix (F : Floats R) {i : EtInfo}
    (hi : i ∈ fmtinfo) (ht : i.type = .radix ∨ i.type = .pointer) (d : Directive) (a : VaArg R)
    (ap : List (VaArg R)) (malloc : Bool) {v : ℤ} (h : argValue i d a = some v)
    (hmin : v ≠ -2 ^ 63) :
    ∃ t, convert F i d (a :: ap) malloc = .ok (.text t, ap) ∧ t.length < etBUFSIZE ∧
      min d.precision 310 ≤ t.length ∧ readInt i.base t = some v := by
  obtain ⟨hlt, hge, hpos⟩ := argValue_bounds h
  have hstring := (fmtinfo_radix hi ht).2.2.2.1
  obtain ⟨hprec, hlong⟩ := limited_of_not_string hstring d
  have hreads : ∀ d' : Directive, d'.precision = (limited i d).precision → _ := fun d' hd' =>
    radixText_reads hi ht d' (by omega) hlt (fun hs => ⟨hmin, hge hs⟩) hpos
  unfold convert
  simp only
  rcases ht with ht | ht
  · obtain ⟨sign, n, t, hvalue, htext, hlen, hge, hread⟩ := hreads (limited i d) rfl
    refine ⟨t, ?_, hlen, hprec ▸ hge, hread⟩
    simp only [ht]
    rw [convertRadix_eq ap h (by rw [hlong, ht]; simp) hvalue htext]
    rfl
  · obtain ⟨sign, n, t, hvalue, htext, hlen, hge, hread⟩ :=
      hreads { limited i d with long := true, longlong := true } rfl
    refine ⟨t, ?_, hlen, hprec ▸ hge, hread⟩
    simp only [ht]
    rw [convertRadix_eq ap h (by rw [ht]; simp) hvalue htext]
    rfl

/-- The value -5 with a sign, zeros and a field width, in decimal. -/
theorem convert_radix_minus_five :
    ∃ t, convert Floats.rational ⟨ch 'd', 10, 1, .radix, 0, 0⟩
        ⟨⟨false, true, false, false, false, true⟩, 8, -1, false, false, by decide⟩
        [.int (-5)] true = .ok (.text t, []) ∧ t.length < etBUFSIZE ∧
      min (-1) 310 ≤ (t.length : ℤ) ∧ readInt 10 t = some (-5) :=
  convert_radix Floats.rational (i := ⟨ch 'd', 10, 1, .radix, 0, 0⟩) (by decide)
    (Or.inl rfl) _ (.int (-5)) [] true rfl (by decide)

end Mprintf
