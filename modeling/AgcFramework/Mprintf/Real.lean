import Mathlib.Algebra.Order.Field.Rat
import Mathlib.Data.Rat.Floor
import AgcFramework.Mprintf.Directive

/-!
# The floating point conversions

A number is scaled to one between 1 and 10 with the exponent of ten that was taken off, its digits
are taken one after another, and its text is made from the start of the buffer. The precision is
limited to 165, and the exponent is not: a number with enough digits before its point is written
behind the end of the buffer.

The arithmetic is a parameter. The scaling ends in every arithmetic, because its loops look at the
exponent.

## Main definitions

* `Floats R`: the arithmetic of `long double`
* `Floats.rational`: the arithmetic without rounding
* `scaled`: the scaled number and its exponent
* `realText`: the text of `etFLOAT`, `etEXP` and `etGENERIC`
* `RealFits`: the digits can be taken, and the text fits into the buffer

## Main results

* `scaled_ok`: the scaling comes to its end
* `realText_ok_iff`: the text is made without a fault exactly if `RealFits`
-/

open Exec

namespace Mprintf

/-- The floating point arithmetic. `R` is `LONGDOUBLE_TYPE`, of which the doubles are a part. -/
structure Floats (R : Type) where
  /-- The constant `m * 10^e`, a double. -/
  const (m : ℕ) (e : ℤ) : R
  lt : R → R → Bool
  le : R → R → Bool
  neg : R → R
  add : R → R → R
  sub : R → R → R
  mul : R → R → R
  /-- The product of two doubles, which is a double. -/
  mulDouble : R → R → R
  ofInt : ℤ → R
  /-- `(int)`, which is undefined for a number that is not in the range of an `int`. -/
  toInt : R → Option (BitVec 32)

/-- The arithmetic of the rational numbers, in which nothing is rounded. -/
def Floats.rational : Floats ℚ where
  const m e := m * 10 ^ e
  lt x y := decide (x < y)
  le x y := decide (x ≤ y)
  neg x := -x
  add x y := x + y
  sub x y := x - y
  mul x y := x * y
  mulDouble x y := x * y
  ofInt z := z
  toInt x :=
    let z : ℤ := if x < 0 then -⌊-x⌋ else ⌊x⌋
    if -2 ^ 31 ≤ z ∧ z < 2 ^ 31 then some (BitVec.ofInt 32 z) else none

variable {R : Type} (F : Floats R)

/-! ## The scaling -/

/-- The loop over `rounder`, from 0.5. -/
def Floats.rounder : ℕ → R
  | 0 => F.const 5 (-1)
  | n + 1 => F.mulDouble (Floats.rounder n) (F.const 1 (-1))

/-- `while (realvalue >= bound && exp <= 350) { realvalue *= factor; exp += step; }` -/
def Floats.shrinkLoop (bound factor : R) (step : ℕ) : ℕ → R → ℤ → Exec (R × ℤ)
  | 0, _, _ => .error .fuel
  | k + 1, realvalue, exp =>
    if F.le bound realvalue ∧ exp ≤ 350 then
      Floats.shrinkLoop bound factor step k (F.mul realvalue factor) (exp + step)
    else pure (realvalue, exp)

/-- `while (realvalue < bound && exp >= -350) { realvalue *= factor; exp -= step; }` -/
def Floats.growLoop (bound factor : R) (step : ℕ) : ℕ → R → ℤ → Exec (R × ℤ)
  | 0, _, _ => .error .fuel
  | k + 1, realvalue, exp =>
    if F.lt realvalue bound ∧ -350 ≤ exp then
      Floats.growLoop bound factor step k (F.mul realvalue factor) (exp - step)
    else pure (realvalue, exp)

/-- The number of turns that a loop is given: the exponent goes from 382 to -351 at most. -/
def turns : ℕ := 734

/-- A number scaled to 10.0 > realvalue >= 1.0, and its exponent; none is `NaN`. -/
def Floats.normalize (realvalue : R) : Exec (Option (R × ℤ)) :=
  if F.lt (F.const 0 0) realvalue then do
    let (realvalue, exp) ←
      F.shrinkLoop (F.const 1 32) (F.const 1 (-32)) 32 turns realvalue 0
    let (realvalue, exp) ←
      F.shrinkLoop (F.const 1 8) (F.const 1 (-8)) 8 turns realvalue exp
    let (realvalue, exp) ←
      F.shrinkLoop (F.const 10 0) (F.const 1 (-1)) 1 turns realvalue exp
    let (realvalue, exp) ←
      F.growLoop (F.const 1 (-8)) (F.const 1 8) 8 turns realvalue exp
    let (realvalue, exp) ←
      F.growLoop (F.const 1 0) (F.const 10 0) 1 turns realvalue exp
    pure (if 350 < exp ∨ exp < -350 then none else some (realvalue, exp))
  else pure (some (realvalue, 0))

/-- The number behind its rounding, which may have one more digit. -/
def Floats.carry (realvalue : R) (exp : ℤ) : R × ℤ :=
  if F.le (F.const 10 0) realvalue then (F.mul realvalue (F.const 1 (-1)), exp + 1)
  else (realvalue, exp)

/-- The precision: 6 if there is none, and 165 at most. `%g` counts the digit before the point. -/
def realPrecision (i : EtInfo) (d : Directive) : ℕ :=
  let precision :=
    if d.precision < 0 then 6 else min d.precision.toNat (etBUFSIZE / 2 - 10)
  if i.type = .generic ∧ 0 < precision then precision - 1 else precision

/-- The sign in front of a number, and the number without it. -/
def realSign (d : Directive) (realvalue : R) : Option Byte × R :=
  if F.lt realvalue (F.const 0 0) then (some (ch '-'), F.neg realvalue)
  else
    (if d.flags.plussign then some (ch '+')
      else if d.flags.blanksign then some (ch ' ') else none, realvalue)

/-- The number without its sign, rounded and scaled. -/
def scaled (i : EtInfo) (precision : ℕ) (realvalue : R) : Exec (Option (R × ℤ)) := do
  let rounder := F.rounder precision
  let realvalue := if i.type = .float then F.add realvalue rounder else realvalue
  let r ← F.normalize realvalue
  pure (r.map fun (realvalue, exp) =>
    if i.type = .float then (realvalue, exp) else F.carry (F.add realvalue rounder) exp)

/-! ## The text -/

/-- `et_getdigit`, where `cnt` digits have been taken. -/
def etGetdigit (val : R) (cnt : ℕ) : Exec (Byte × R) :=
  if 16 ≤ cnt then pure (ch '0', val)
  else
    match F.toInt val with
    | none => .error .fault
    | some digit =>
      if digit.toInt + 48 ≤ INT_MAX then
        pure ((digit + 48#32).toNat.toUInt8,
          F.mul (F.sub val (F.ofInt digit.toInt)) (F.const 10 0))
      else .error .fault

/-- Digits into the buffer. `nsd` is the number of those taken before. -/
def digitLoop : ℕ → List Byte → R → ℕ → Exec (List Byte × R × ℕ)
  | 0, t, realvalue, nsd => pure (t, realvalue, nsd)
  | n + 1, t, realvalue, nsd => do
    let (b, realvalue) ← etGetdigit F realvalue nsd
    let t ← emit etBUFSIZE t b
    digitLoop n t realvalue (nsd + 1)

/-- The zeros behind the point and before the first digit that is not zero:
`for (; e2 < 0 && precision > 0; precision--, e2++)`. -/
def leadLoop : ℕ → ℤ → List Byte → Exec (ℕ × List Byte)
  | 0, _, t => pure (0, t)
  | precision + 1, e2, t =>
    if e2 < 0 then do
      let t ← emit etBUFSIZE t (ch '0')
      leadLoop precision (e2 + 1) t
    else pure (precision + 1, t)

/-- The digits prior to the point. -/
def intDigits (e2 : ℤ) (t : List Byte) (realvalue : R) : Exec (List Byte × R × ℕ) :=
  if e2 < 0 then do
    let t ← emit etBUFSIZE t (ch '0')
    pure (t, realvalue, 0)
  else digitLoop F (e2.toNat + 1) t realvalue 0

/-- The digits behind the point; those prior to it have brought `e2` down to -1. -/
def fractionDigits (e2 : ℤ) (precision : ℕ) (t : List Byte) (realvalue : R) (nsd : ℕ) :
    Exec (List Byte) := do
  let (precision, t) ← leadLoop precision (min e2 (-1) + 1) t
  let (t, _, _) ← digitLoop F precision t realvalue nsd
  pure t

/-- `if (flag_dp) *(bufpt++) = '.'`. -/
def emitPoint (dp : Bool) (t : List Byte) : Exec (List Byte) :=
  if dp then emit etBUFSIZE t (ch '.') else pure t

/-- The sign, the digits prior to the point, the point and the digits behind it. -/
def realDigits (sign : Option Byte) (dp : Bool) (e2 : ℤ) (precision : ℕ) (realvalue : R) :
    Exec (List Byte) := do
  let t ← emitLoop etBUFSIZE sign.toList []
  let (t, realvalue, nsd) ← intDigits F e2 t realvalue
  let t ← emitPoint dp t
  fractionDigits F e2 precision t realvalue nsd

/-- `while (bufpt[-1] == '0')`, over what stands before `bufpt`, from its end. -/
def trimLoop : List Byte → Exec (List Byte)
  | [] => .error .fault
  | b :: t => if b = ch '0' then trimLoop t else pure (b :: t)

/-- Without the zeros at the end, and without the point if no digits follow it; `!` gives it a
zero. -/
def trimZeros (rtz altform2 : Bool) (t : List Byte) : Exec (List Byte) :=
  if rtz then do
    let r ← trimLoop t.reverse
    if r.head? = some (ch '.') then
      if altform2 then emit etBUFSIZE r.reverse (ch '0') else pure r.tail.reverse
    else pure r.reverse
  else pure t

/-- The text of the `eNNN` suffix. -/
def exponent (i : EtInfo) (exp : ℤ) : List Byte :=
  [aDigits.getD i.charset 0, if exp < 0 then ch '-' else ch '+'] ++
    (if 100 ≤ exp.natAbs then [Decimal.digit (exp.natAbs / 100)] else []) ++
    [Decimal.digit (exp.natAbs % 100 / 10), Decimal.digit (exp.natAbs % 10)]

/-- Leading zeros if the width asks for them. The bytes behind the sign move to the right, within
the width and so within the buffer. -/
def zeroPad (d : Directive) (sign : Option Byte) (t : List Byte) : List Byte :=
  if d.flags.zeropad ∧ d.flags.leftjustify = false ∧ t.length < d.width then
    t.take sign.toList.length ++ List.replicate (d.width - t.length) (ch '0') ++
      t.drop sign.toList.length
  else t

/-- The test of `%e`, and of `%g` by its exponent: the `xtype` becomes `etEXP`. -/
def isExp (i : EtInfo) (precision : ℕ) (exp : ℤ) : Bool :=
  if i.type = .generic then exp < -4 || (precision : ℤ) < exp else i.type = .exp

/-- The digits behind the point, of which `%g` has fewer. -/
def decimals (i : EtInfo) (precision : ℕ) (exp : ℤ) : ℕ :=
  if i.type = .generic ∧ isExp i precision exp = false then (precision - exp).toNat else precision

/-- `e2`: the exponent, if the text has no suffix for it. -/
def placed (i : EtInfo) (precision : ℕ) (exp : ℤ) : ℤ := if isExp i precision exp then 0 else exp

/-- `flag_dp`. -/
def showsPoint (d : Directive) (precision : ℕ) : Bool :=
  0 < precision || d.flags.alternateform || d.flags.altform2

/-- The `eNNN` suffix, if there is one. -/
def emitExponent (i : EtInfo) (precision : ℕ) (exp : ℤ) (t : List Byte) : Exec (List Byte) :=
  if i.type = .exp ∨ (isExp i precision exp ∧ exp ≠ 0) then emitLoop etBUFSIZE (exponent i exp) t
  else pure t

/-- `flag_rtz && flag_dp`. -/
def trims (i : EtInfo) (d : Directive) (precision : ℕ) : Bool :=
  i.type = .generic && !d.flags.alternateform && showsPoint d precision

/-- The text of a scaled number. -/
def scaledText (i : EtInfo) (d : Directive) (sign : Option Byte) (precision : ℕ) (realvalue : R)
    (exp : ℤ) : Exec (List Byte) := do
  let n := decimals i precision exp
  let t ← realDigits F sign (showsPoint d n) (placed i precision exp) n realvalue
  let t ← trimZeros (trims i d n) d.flags.altform2 t
  let t ← emitExponent i precision exp t
  let _ ← emit etBUFSIZE t 0
  pure (zeroPad d sign t)

/-- The text of a floating point number. -/
def realText (i : EtInfo) (d : Directive) (realvalue : R) : Exec (List Byte) := do
  let precision := realPrecision i d
  let (sign, realvalue) := realSign F d realvalue
  match ← scaled F i precision realvalue with
  | none => pure (CStr.ofString "NaN").bytes
  | some (realvalue, exp) => scaledText F i d sign precision realvalue exp

/-! ## The end of the scaling -/

section Scaling

/-- Each turn adds to the exponent, until it is above 350. -/
theorem shrinkLoop_ok (bound factor : R) {step : ℕ} (hstep : 0 < step) (k : ℕ) (x : R) (e : ℤ)
    (hk : (351 - e).toNat < k) :
    ∃ y e', F.shrinkLoop bound factor step k x e = .ok (y, e') ∧ e ≤ e' ∧
      e' ≤ max e (350 + step) := by
  induction k generalizing x e with
  | zero => exact absurd hk (Nat.not_lt_zero _)
  | succ k ih =>
    rw [Floats.shrinkLoop]
    split_ifs with h
    · obtain ⟨y, e', hy, hge, hle⟩ := ih (F.mul x factor) (e + step) (by omega)
      exact ⟨y, e', hy, by omega, by omega⟩
    · exact ⟨x, e, rfl, Int.le_refl e, Int.le_max_left _ _⟩

/-- Each turn takes from the exponent, until it is below -350. -/
theorem growLoop_ok (bound factor : R) {step : ℕ} (hstep : 0 < step) (k : ℕ) (x : R) (e : ℤ)
    (hk : (e + 351).toNat < k) :
    ∃ y e', F.growLoop bound factor step k x e = .ok (y, e') ∧ e' ≤ e := by
  induction k generalizing x e with
  | zero => exact absurd hk (Nat.not_lt_zero _)
  | succ k ih =>
    rw [Floats.growLoop]
    split_ifs with h
    · obtain ⟨y, e', hy, he'⟩ := ih (F.mul x factor) (e - step) (by omega)
      exact ⟨y, e', hy, by omega⟩
    · exact ⟨x, e, rfl, Int.le_refl e⟩

/-- The loops end, in every arithmetic. -/
theorem normalize_ok (x : R) : ∃ r, F.normalize x = .ok r := by
  unfold Floats.normalize
  split_ifs
  · -- each loop is given enough turns for the exponents that the one before it can leave
    have hturns : turns = 734 := rfl
    obtain ⟨x₁, e₁, h₁, hge₁, hle₁⟩ := shrinkLoop_ok F (F.const 1 32) (F.const 1 (-32))
      (by decide : 0 < 32) turns x 0 (by omega)
    obtain ⟨x₂, e₂, h₂, hge₂, hle₂⟩ := shrinkLoop_ok F (F.const 1 8) (F.const 1 (-8))
      (by decide : 0 < 8) turns x₁ e₁ (by omega)
    obtain ⟨x₃, e₃, h₃, hge₃, hle₃⟩ := shrinkLoop_ok F (F.const 10 0) (F.const 1 (-1))
      (by decide : 0 < 1) turns x₂ e₂ (by omega)
    obtain ⟨x₄, e₄, h₄, hle₄⟩ := growLoop_ok F (F.const 1 (-8)) (F.const 1 8)
      (by decide : 0 < 8) turns x₃ e₃ (by omega)
    obtain ⟨x₅, e₅, h₅, -⟩ := growLoop_ok F (F.const 1 0) (F.const 10 0)
      (by decide : 0 < 1) turns x₄ e₄ (by omega)
    refine ⟨if 350 < e₅ ∨ e₅ < -350 then none else some (x₅, e₅), ?_⟩
    simp only [h₁, h₂, h₃, h₄, h₅, ok_bind, pure_eq_ok]
  · exact ⟨_, rfl⟩

/-- The scaling comes to its end. -/
theorem scaled_ok (i : EtInfo) (precision : ℕ) (x : R) :
    ∃ r, scaled F i precision x = .ok r := by
  obtain ⟨r, hr⟩ := normalize_ok F (if i.type = .float then F.add x (F.rounder precision) else x)
  exact ⟨_, bind_eq_ok.mpr ⟨r, hr, rfl⟩⟩

end Scaling

/-! ## The bytes that are written -/

section Written

variable {size : ℕ} {t t' : List Byte} {F}

theorem emit_eq_ok {b : Byte} : emit size t b = .ok t' ↔ t.length < size ∧ t' = t ++ [b] := by
  unfold emit
  split_ifs with h
  · exact ⟨fun ht => ⟨h, (Except.ok.inj ht).symm⟩, fun ht => by rw [ht.2]⟩
  · exact ⟨nofun, fun ht => absurd ht.1 h⟩

theorem emitLoop_eq_ok (bs : List Byte) (ht : t.length ≤ size) :
    emitLoop size bs t = .ok t' ↔ t.length + bs.length ≤ size ∧ t' = t ++ bs := by
  induction bs generalizing t with
  | nil =>
    rw [List.append_nil]
    exact ⟨fun h => ⟨ht, (Except.ok.inj h).symm⟩, fun h => by rw [h.2]; rfl⟩
  | cons b bs ih =>
    rw [emitLoop, bind_eq_ok]
    simp only [emit_eq_ok]
    constructor
    · rintro ⟨u, ⟨hlt, rfl⟩, h⟩
      obtain ⟨hle, rfl⟩ := (ih (by simpa using hlt)).mp h
      refine ⟨by simpa [Nat.add_assoc, Nat.add_comm 1] using hle, ?_⟩
      rw [List.append_assoc, List.singleton_append]
    · rintro ⟨hle, rfl⟩
      rw [List.length_cons] at hle
      refine ⟨t ++ [b], ⟨by omega, rfl⟩, (ih ?_).mpr ⟨?_, ?_⟩⟩
      · rw [List.length_append, List.length_singleton]
        omega
      · rw [List.length_append, List.length_singleton]
        omega
      · rw [List.append_assoc, List.singleton_append]

/-- The next digit is one of an `int`, also as a character. -/
def DigitFits (F : Floats R) (x : R) : Prop :=
  ∃ v, F.toInt x = some v ∧ v.toInt + 48 ≤ INT_MAX

/-- What a number is once its digit has been taken. -/
def rest (F : Floats R) (x : R) : R :=
  match F.toInt x with
  | some v => F.mul (F.sub x (F.ofInt v.toInt)) (F.const 10 0)
  | none => x

theorem etGetdigit_eq_ok {x y : R} {cnt : ℕ} :
    (∃ b, etGetdigit F x cnt = .ok (b, y)) ↔
      (cnt < 16 → DigitFits F x) ∧ y = if cnt < 16 then rest F x else x := by
  unfold etGetdigit DigitFits rest
  rcases Nat.lt_or_ge cnt 16 with hcnt | hcnt
  · rw [if_neg (Nat.not_le.mpr hcnt), if_pos hcnt]
    cases F.toInt x with
    | none => simp [hcnt]
    | some v =>
      simp only [Option.some.injEq, exists_eq_left']
      split_ifs with h
      · simp [h, eq_comm]
      · simp [h, hcnt]
  · rw [if_pos hcnt, if_neg (Nat.not_lt.mpr hcnt)]
    simp [Nat.not_lt.mpr hcnt, eq_comm]

/-- Digits that can be taken, and that have room, are written. -/
theorem digitLoop_ok_iff (n : ℕ) (x : R) (nsd : ℕ) (ht : t.length ≤ etBUFSIZE) :
    (∃ r, digitLoop F n t x nsd = .ok r) ↔
      t.length + n ≤ etBUFSIZE ∧ ∀ k < n, nsd + k < 16 → DigitFits F ((rest F)^[k] x) := by
  induction n generalizing t x nsd with
  | zero => simp [digitLoop, ht]
  | succ n ih =>
    -- the first digit is that of `x`, and the next ones are those of what it leaves
    rw [digitLoop]
    simp only [bind_eq_ok]
    have hroom : ∀ b : Byte, (t ++ [b]).length = t.length + 1 := fun b => List.length_append
    constructor
    · rintro ⟨r, ⟨b, y⟩, hdigit, u, hemit, hloop⟩
      obtain ⟨hlt, rfl⟩ := emit_eq_ok.mp hemit
      obtain ⟨hfits, rfl⟩ := etGetdigit_eq_ok.mp ⟨b, hdigit⟩
      obtain ⟨hle, hall⟩ := (ih _ _ (by rw [hroom]; exact hlt)).mp ⟨r, hloop⟩
      rw [hroom] at hle
      refine ⟨by omega, fun k hk hcnt => ?_⟩
      cases k with
      | zero => exact hfits hcnt
      | succ k =>
        have hnext := hall k (by omega) (by omega)
        rwa [if_pos (by omega), ← Function.iterate_succ_apply] at hnext
    · rintro ⟨hle, hall⟩
      obtain ⟨b, hdigit⟩ : ∃ b, etGetdigit F x nsd = .ok (b, if nsd < 16 then rest F x else x) :=
        etGetdigit_eq_ok.mpr ⟨fun h => hall 0 (by omega) h, rfl⟩
      obtain ⟨r, hloop⟩ := (ih (t := t ++ [b]) (if nsd < 16 then rest F x else x) (nsd + 1)
        (by rw [hroom]; omega)).mpr ⟨by rw [hroom]; omega, fun k hk hcnt => by
          rw [if_pos (by omega), ← Function.iterate_succ_apply]
          exact hall (k + 1) (by omega) (by omega)⟩
      exact ⟨r, _, hdigit, _, emit_eq_ok.mpr ⟨by omega, rfl⟩, hloop⟩

/-- The digits stand behind what was there, and the number is what they have left of it. -/
theorem of_digitLoop {n : ℕ} {x y : R} {nsd m : ℕ}
    (h : digitLoop F n t x nsd = .ok (t', y, m)) :
    t'.length = t.length + n ∧ t <+: t' ∧ m = nsd + n ∧ (m ≤ 16 → y = (rest F)^[n] x) := by
  induction n generalizing t x nsd with
  | zero =>
    obtain ⟨rfl, rfl, rfl⟩ : t = t' ∧ x = y ∧ nsd = m := by simpa [digitLoop] using h
    exact ⟨rfl, List.prefix_rfl, rfl, fun _ => rfl⟩
  | succ n ih =>
    rw [digitLoop] at h
    obtain ⟨⟨b, z⟩, hdigit, h⟩ := bind_eq_ok.mp h
    obtain ⟨u, hemit, h⟩ := bind_eq_ok.mp h
    obtain ⟨-, rfl⟩ := emit_eq_ok.mp hemit
    obtain ⟨-, hz⟩ := etGetdigit_eq_ok.mp ⟨b, hdigit⟩
    obtain ⟨hlen, hprefix, rfl, hy⟩ := ih h
    rw [List.length_append, List.length_singleton] at hlen
    refine ⟨by omega, (List.prefix_append t [b]).trans hprefix, by omega, fun hm => ?_⟩
    rw [hy hm, hz, if_pos (by omega), Function.iterate_succ_apply]

/-- The zeros behind the point that come before a digit. -/
theorem leadLoop_eq_ok {p p' : ℕ} {e2 : ℤ} (ht : t.length ≤ etBUFSIZE) :
    leadLoop p e2 t = .ok (p', t') ↔
      t.length + min p (-e2).toNat ≤ etBUFSIZE ∧ p' = p - (-e2).toNat ∧
        t' = t ++ List.replicate (min p (-e2).toNat) (ch '0') := by
  induction p generalizing t e2 with
  | zero =>
    rw [leadLoop, pure_eq_ok, Except.ok.injEq, Prod.mk.injEq, Nat.zero_min, Nat.zero_sub,
      List.replicate_zero, List.append_nil]
    exact ⟨fun h => ⟨ht, h.1.symm, h.2.symm⟩, fun h => ⟨h.2.1.symm, h.2.2.symm⟩⟩
  | succ p ih =>
    rw [leadLoop]
    split_ifs with hneg
    · -- one zero of the `z + 1` that are missing
      obtain ⟨z, hz⟩ : ∃ z, (-e2).toNat = z + 1 := ⟨(-e2).toNat - 1, by omega⟩
      have hz' : (-(e2 + 1)).toNat = z := by omega
      have hreplicate : List.replicate (min (p + 1) (z + 1)) (ch '0') =
          [ch '0'] ++ List.replicate (min p z) (ch '0') := by
        rw [Nat.succ_min_succ, List.replicate_succ, List.singleton_append]
      have hroom : (t ++ [ch '0']).length = t.length + 1 := List.length_append
      rw [bind_eq_ok, hz, hreplicate, ← List.append_assoc]
      simp only [emit_eq_ok]
      constructor
      · rintro ⟨u, ⟨hlt, rfl⟩, h⟩
        obtain ⟨hle, rfl, rfl⟩ := (ih (by omega)).mp h
        rw [hz']
        exact ⟨by omega, by omega, rfl⟩
      · rintro ⟨hle, rfl, rfl⟩
        refine ⟨_, ⟨by omega, rfl⟩, (ih (by omega)).mpr ?_⟩
        rw [hz']
        exact ⟨by omega, by omega, rfl⟩
    · have hz : (-e2).toNat = 0 := by omega
      rw [hz, Nat.min_zero, Nat.sub_zero, List.replicate_zero, List.append_nil, pure_eq_ok,
        Except.ok.injEq, Prod.mk.injEq]
      exact ⟨fun h => ⟨ht, h.1.symm, h.2.symm⟩, fun h => ⟨h.2.1.symm, h.2.2.symm⟩⟩

theorem intDigits_ok_iff (e2 : ℤ) (x : R) (ht : t.length ≤ etBUFSIZE) :
    (∃ r, intDigits F e2 t x = .ok r) ↔
      t.length + (e2.toNat + 1) ≤ etBUFSIZE ∧
        (0 ≤ e2 → ∀ k < e2.toNat + 1, k < 16 → DigitFits F ((rest F)^[k] x)) := by
  unfold intDigits
  split_ifs with h
  · simp only [bind_eq_ok, emit_eq_ok, pure_eq_ok]
    constructor
    · rintro ⟨r, u, ⟨hlt, rfl⟩, -⟩
      exact ⟨by omega, fun hpos => absurd hpos (by omega)⟩
    · rintro ⟨hle, -⟩
      exact ⟨_, _, ⟨by omega, rfl⟩, rfl⟩
  · rw [digitLoop_ok_iff _ _ _ ht]
    simp only [Nat.zero_add, show 0 ≤ e2 by omega, true_imp_iff]

theorem of_intDigits {e2 : ℤ} {x y : R} {m : ℕ} (h : intDigits F e2 t x = .ok (t', y, m)) :
    t'.length = t.length + (e2.toNat + 1) ∧ t <+: t' ∧
      m = (if e2 < 0 then 0 else e2.toNat + 1) ∧ (m ≤ 16 → y = (rest F)^[m] x) := by
  unfold intDigits at h
  split_ifs at h with hneg
  · obtain ⟨u, hemit, h⟩ := bind_eq_ok.mp h
    obtain ⟨-, rfl⟩ := emit_eq_ok.mp hemit
    cases h
    rw [if_pos hneg]
    exact ⟨by rw [List.length_append, List.length_singleton]; omega, List.prefix_append _ _, rfl,
      fun _ => rfl⟩
  · obtain ⟨hlen, hprefix, rfl, hy⟩ := of_digitLoop h
    rw [if_neg hneg, Nat.zero_add] at *
    exact ⟨hlen, hprefix, rfl, hy⟩

/-- The number of digits that are taken of a number. -/
def digitsTaken (e2 : ℤ) (precision : ℕ) : ℕ :=
  if e2 < 0 then precision - (-(e2 + 1)).toNat else e2.toNat + 1 + precision

/-- The length of a number up to its last digit. -/
def digitsLength (sign : Option Byte) (dp : Bool) (e2 : ℤ) (precision : ℕ) : ℕ :=
  sign.toList.length + (e2.toNat + 1) + dp.toNat + precision

theorem fractionDigits_ok_iff {e2 : ℤ} (precision : ℕ) {m : ℕ} {x y : R}
    (ht : t.length ≤ etBUFSIZE) (hm : m = if e2 < 0 then 0 else e2.toNat + 1)
    (hy : m ≤ 16 → y = (rest F)^[m] x) :
    (∃ r, fractionDigits F e2 precision t y m = .ok r) ↔
      t.length + precision ≤ etBUFSIZE ∧
        ∀ k, m ≤ k → k < digitsTaken e2 precision → k < 16 → DigitFits F ((rest F)^[k] x) := by
  have htaken : digitsTaken e2 precision = m + (precision - (-(min e2 (-1) + 1)).toNat) := by
    unfold digitsTaken
    split_ifs at hm ⊢
    all_goals omega
  have hroom : ∀ n, (t ++ List.replicate n (ch '0')).length = t.length + n := fun n => by
    rw [List.length_append, List.length_replicate]
  -- the digits are counted from the first one
  have hshift : (∀ k < precision - (-(min e2 (-1) + 1)).toNat, m + k < 16 →
      DigitFits F ((rest F)^[k] y)) ↔
      ∀ k, m ≤ k → k < digitsTaken e2 precision → k < 16 → DigitFits F ((rest F)^[k] x) := by
    constructor
    · intro h k hmk hk hcnt
      obtain ⟨j, rfl⟩ := Nat.exists_eq_add_of_le hmk
      have hj := h j (by omega) hcnt
      rwa [hy (by omega), ← Function.iterate_add_apply, Nat.add_comm] at hj
    · intro h k hk hcnt
      rw [hy (by omega), ← Function.iterate_add_apply, Nat.add_comm]
      exact h (m + k) (by omega) (by omega) hcnt
  rw [← hshift]
  unfold fractionDigits
  simp only [bind_eq_ok, Prod.exists, leadLoop_eq_ok ht]
  constructor
  · rintro ⟨r, _, u, ⟨hle, rfl, rfl⟩, v, z, n, hdigits, -⟩
    obtain ⟨hall, hfits⟩ := (digitLoop_ok_iff _ y m (by rw [hroom]; omega)).mp ⟨_, hdigits⟩
    rw [hroom] at hall
    exact ⟨by omega, hfits⟩
  · rintro ⟨hle, hfits⟩
    obtain ⟨⟨v, z, n⟩, hdigits⟩ := (digitLoop_ok_iff
      (t := t ++ List.replicate (min precision (-(min e2 (-1) + 1)).toNat) (ch '0')) _ y m
      (by rw [hroom]; omega)).mpr ⟨by rw [hroom]; omega, hfits⟩
    exact ⟨v, _, _, ⟨by omega, rfl, rfl⟩, v, z, n, hdigits, rfl⟩

theorem of_fractionDigits {e2 : ℤ} {precision m : ℕ} {y : R} (ht : t.length ≤ etBUFSIZE)
    (h : fractionDigits F e2 precision t y m = .ok t') :
    t'.length = t.length + precision ∧ t <+: t' := by
  obtain ⟨⟨p, u⟩, hlead, h⟩ := bind_eq_ok.mp h
  obtain ⟨-, rfl, rfl⟩ := (leadLoop_eq_ok ht).mp hlead
  obtain ⟨⟨v, z, n⟩, hdigits, h⟩ := bind_eq_ok.mp h
  cases h
  obtain ⟨hlen, hprefix, -⟩ := of_digitLoop hdigits
  rw [List.length_append, List.length_replicate] at hlen
  exact ⟨by omega, (List.prefix_append _ _).trans hprefix⟩

/-- The point, if it is shown. -/
theorem emitPoint_eq_ok {dp : Bool} (ht : t.length ≤ etBUFSIZE) :
    emitPoint dp t = .ok t' ↔
      t.length + dp.toNat ≤ etBUFSIZE ∧ t' = t ++ if dp then [ch '.'] else [] := by
  cases dp with
  | false => simp [emitPoint, ht, eq_comm]
  | true => simp [emitPoint, emit_eq_ok]

/-- The digits of a number are written exactly if they can be taken and have room. -/
theorem realDigits_ok_iff (sign : Option Byte) (dp : Bool) (e2 : ℤ) (precision : ℕ) (x : R) :
    (∃ r, realDigits F sign dp e2 precision x = .ok r) ↔
      digitsLength sign dp e2 precision ≤ etBUFSIZE ∧
        ∀ k < digitsTaken e2 precision, k < 16 → DigitFits F ((rest F)^[k] x) := by
  have hsize : etBUFSIZE = 350 := rfl
  have hsign : sign.toList.length ≤ 1 := by cases sign <;> simp
  have hpoint : ∀ t : List Byte,
      (t ++ if dp then [ch '.'] else []).length = t.length + dp.toNat := by
    intro t
    cases dp
    all_goals simp
  have htaken : digitsTaken e2 precision =
      (if e2 < 0 then 0 else e2.toNat + 1) + (digitsTaken e2 precision -
        if e2 < 0 then 0 else e2.toNat + 1) := by
    unfold digitsTaken
    split_ifs
    all_goals omega
  unfold realDigits digitsLength
  simp only [bind_eq_ok, Prod.exists]
  constructor
  · rintro ⟨r, u, hu, v, y, m, hv, w, hw, hr⟩
    obtain ⟨-, rfl⟩ := (emitLoop_eq_ok _ (Nat.zero_le _)).mp hu
    rw [List.nil_append] at hv
    obtain ⟨hlen, -, hm, hy⟩ := of_intDigits hv
    obtain ⟨hle, hint⟩ := (intDigits_ok_iff e2 x (by omega)).mp ⟨_, hv⟩
    obtain ⟨hle', rfl⟩ := (emitPoint_eq_ok (by omega)).mp hw
    obtain ⟨hle'', hfrac⟩ := (fractionDigits_ok_iff precision (by rw [hpoint]; exact hle')
      hm hy).mp ⟨r, hr⟩
    rw [hpoint] at hle''
    refine ⟨by omega, fun k hk hcnt => ?_⟩
    -- the first `m` digits stand prior to the point, the others behind it
    rcases Nat.lt_or_ge k m with hkm | hkm
    · rw [hm] at hkm
      split_ifs at hkm with hneg
      · exact absurd hkm (Nat.not_lt_zero k)
      · exact hint (by omega) k hkm hcnt
    · exact hfrac k hkm hk hcnt
  · rintro ⟨hle, hfits⟩
    have hu : emitLoop etBUFSIZE sign.toList [] = .ok sign.toList :=
      (emitLoop_eq_ok _ (Nat.zero_le _)).mpr ⟨by simp only [List.length_nil]; omega, rfl⟩
    obtain ⟨⟨v, y, m⟩, hv⟩ := (intDigits_ok_iff (F := F) (t := sign.toList) e2 x
      (by omega)).mpr ⟨by omega, fun hpos k hk hcnt => hfits k (by
        rw [htaken, if_neg (by omega)]
        omega) hcnt⟩
    obtain ⟨hlen, -, hm, hy⟩ := of_intDigits hv
    have hw : emitPoint dp v = .ok (v ++ if dp then [ch '.'] else []) :=
      (emitPoint_eq_ok (by omega)).mpr ⟨by omega, rfl⟩
    obtain ⟨r, hr⟩ : ∃ r, fractionDigits F e2 precision (v ++ if dp then [ch '.'] else []) y m =
        .ok r :=
      (fractionDigits_ok_iff precision (by rw [hpoint]; omega) hm hy).mpr
        ⟨by rw [hpoint]; omega, fun k _ hk hcnt => hfits k hk hcnt⟩
    exact ⟨r, _, hu, v, y, m, hv, _, hw, hr⟩

/-- What is written: as many bytes, the point among them if it is shown. -/
theorem of_realDigits {sign : Option Byte} {dp : Bool} {e2 : ℤ} {precision : ℕ} {x : R}
    (h : realDigits F sign dp e2 precision x = .ok t) :
    t.length = digitsLength sign dp e2 precision ∧ (dp = true → ch '.' ∈ t) := by
  have hsize : etBUFSIZE = 350 := rfl
  have hsign : sign.toList.length ≤ 1 := by cases sign <;> simp
  obtain ⟨hle, -⟩ := (realDigits_ok_iff sign dp e2 precision x).mp ⟨t, h⟩
  unfold digitsLength at hle ⊢
  obtain ⟨u, hu, h⟩ := bind_eq_ok.mp h
  obtain ⟨-, rfl⟩ := (emitLoop_eq_ok _ (Nat.zero_le _)).mp hu
  rw [List.nil_append] at h
  obtain ⟨⟨v, y, m⟩, hv, h⟩ := bind_eq_ok.mp h
  obtain ⟨hlen, -⟩ := of_intDigits hv
  obtain ⟨w, hw, hr⟩ := bind_eq_ok.mp h
  obtain ⟨hle', rfl⟩ := (emitPoint_eq_ok (by omega)).mp hw
  have hpoint : (v ++ if dp then [ch '.'] else []).length = v.length + dp.toNat := by
    cases dp
    all_goals simp
  obtain ⟨hlen', hprefix⟩ := of_fractionDigits (by rw [hpoint]; exact hle') hr
  rw [hpoint] at hlen'
  refine ⟨by omega, fun hdp => hprefix.subset ?_⟩
  rw [if_pos hdp]
  exact List.mem_append_right v (List.mem_singleton_self _)

/-- The zeros end at the point, at the latest. -/
theorem trimLoop_ok (ht : ch '.' ∈ t) : ∃ u, trimLoop t = .ok u ∧ u.length ≤ t.length := by
  induction t with
  | nil => exact absurd ht List.not_mem_nil
  | cons b t ih =>
    rw [trimLoop]
    split_ifs with hb
    · rcases List.mem_cons.mp ht with rfl | ht
      · exact absurd hb (by decide)
      · obtain ⟨u, hu, hlen⟩ := ih ht
        exact ⟨u, hu, hlen.trans (Nat.le_succ _)⟩
    · exact ⟨b :: t, rfl, Nat.le_refl _⟩

theorem trimZeros_ok {rtz : Bool} (altform2 : Bool) (ht : rtz = true → ch '.' ∈ t)
    (hroom : t.length < etBUFSIZE) :
    ∃ u, trimZeros rtz altform2 t = .ok u ∧ u.length ≤ t.length + 1 := by
  cases rtz with
  | false => exact ⟨t, rfl, Nat.le_succ _⟩
  | true =>
    obtain ⟨r, hr, hlen⟩ := trimLoop_ok (List.mem_reverse.mpr (ht rfl))
    rw [List.length_reverse] at hlen
    rw [trimZeros, if_pos rfl, hr, ok_bind]
    split_ifs
    · refine ⟨r.reverse ++ [ch '0'], emit_eq_ok.mpr ⟨?_, rfl⟩, ?_⟩
      · rw [List.length_reverse]
        omega
      · rw [List.length_append, List.length_reverse, List.length_singleton]
        omega
    · refine ⟨_, rfl, ?_⟩
      rw [List.length_reverse, List.length_tail]
      omega
    · refine ⟨_, rfl, ?_⟩
      rw [List.length_reverse]
      omega

theorem length_exponent_le (i : EtInfo) (exp : ℤ) : (exponent i exp).length ≤ 5 := by
  unfold exponent
  split_ifs
  all_goals simp

theorem emitExponent_ok (i : EtInfo) (precision : ℕ) (exp : ℤ) (ht : t.length + 5 ≤ etBUFSIZE) :
    ∃ u, emitExponent i precision exp t = .ok u ∧ u.length ≤ t.length + 5 := by
  have hlen := length_exponent_le i exp
  unfold emitExponent
  split_ifs
  · refine ⟨t ++ exponent i exp, (emitLoop_eq_ok _ (by omega)).mpr ⟨by omega, rfl⟩, ?_⟩
    rw [List.length_append]
    omega
  · exact ⟨t, rfl, Nat.le_add_right _ _⟩

end Written

/-! ## The texts that fit -/

section Fits

/-- Only `%f` writes as many digits as the exponent says. -/
theorem digitsLength_le {i : EtInfo} (sign : Option Byte) (dp : Bool) {precision : ℕ} (exp : ℤ)
    (hfloat : i.type = .exp ∨ i.type = .generic) :
    digitsLength sign dp (placed i precision exp) (decimals i precision exp) ≤ precision + 7 := by
  have hsign : sign.toList.length ≤ 1 := by cases sign <;> simp
  have hdp : dp.toNat ≤ 1 := Bool.toNat_le dp
  unfold digitsLength placed decimals isExp
  rcases hfloat with ht | ht
  · simp only [ht, reduceCtorEq, if_false, decide_true, if_true, false_and]
    omega
  · simp only [ht, if_true, true_and, Bool.or_eq_true, decide_eq_true_eq, Bool.or_eq_false_iff,
      decide_eq_false_iff_not]
    split_ifs
    all_goals omega

/-- A scaled number whose text can be made: its digits are those of an `int`, and the text of `%f`
fits into the buffer with its NUL. -/
def ScaledFits (F : Floats R) (i : EtInfo) (d : Directive) (sign : Option Byte) (precision : ℕ)
    (x : R) (exp : ℤ) : Prop :=
  (i.type = .float →
    sign.toList.length + (exp.toNat + 1) + (showsPoint d precision).toNat + precision <
      etBUFSIZE) ∧
  ∀ k < digitsTaken (placed i precision exp) (decimals i precision exp), k < 16 →
    DigitFits F ((rest F)^[k] x)

theorem scaledText_ok_iff {i : EtInfo}
    (hi : i.type = .float ∨ i.type = .exp ∨ i.type = .generic) (d : Directive)
    (sign : Option Byte) {precision : ℕ} (hprec : precision ≤ 165) (x : R) (exp : ℤ) :
    (∃ t, scaledText F i d sign precision x exp = .ok t) ↔
      ScaledFits F i d sign precision x exp := by
  have hsize : etBUFSIZE = 350 := rfl
  unfold scaledText ScaledFits
  rcases hi with ht | ht
  · -- `%f`: no zeros are removed, and there is no suffix
    have hexp : isExp i precision exp = false := by
      unfold isExp
      simp [ht]
    have hdec : decimals i precision exp = precision := by
      unfold decimals
      simp [ht]
    have htrim : ∀ n, trims i d n = false := by
      intro n
      unfold trims
      simp [ht]
    simp only [hdec, hexp, htrim, placed, trimZeros, emitExponent, ht, Bool.false_eq_true, if_false,
      reduceCtorEq, false_and, or_self, pure_eq_ok, ok_bind, bind_eq_ok, emit_eq_ok, true_imp_iff]
    constructor
    · rintro ⟨t, u, hu, _, ⟨hlt, -⟩, -⟩
      obtain ⟨-, hfits⟩ := (realDigits_ok_iff _ _ _ _ _).mp ⟨u, hu⟩
      rw [(of_realDigits hu).1] at hlt
      exact ⟨hlt, hfits⟩
    · rintro ⟨hlt, hfits⟩
      obtain ⟨u, hu⟩ := (realDigits_ok_iff (F := F) sign (showsPoint d precision) exp precision
        x).mpr ⟨Nat.le_of_lt hlt, hfits⟩
      refine ⟨_, u, hu, _, ⟨?_, rfl⟩, rfl⟩
      rw [(of_realDigits hu).1]
      exact hlt
  · -- the digits, the point and the suffix of `%e` and `%g` have room
    have hnot : i.type ≠ .float := by
      rcases ht with ht | ht
      all_goals
        rw [ht]
        decide
    have hroom : digitsLength sign (showsPoint d (decimals i precision exp))
        (placed i precision exp) (decimals i precision exp) ≤ precision + 7 :=
      digitsLength_le sign _ exp ht
    simp only [hnot, false_imp_iff, true_and, bind_eq_ok, emit_eq_ok]
    constructor
    · rintro ⟨t, u, hu, -⟩
      exact ((realDigits_ok_iff _ _ _ _ _).mp ⟨u, hu⟩).2
    · intro hfits
      obtain ⟨u, hu⟩ := (realDigits_ok_iff (F := F) sign
        (showsPoint d (decimals i precision exp)) (placed i precision exp)
        (decimals i precision exp) x).mpr ⟨by omega, hfits⟩
      obtain ⟨hlen, hdot⟩ := of_realDigits hu
      have htrims : trims i d (decimals i precision exp) = true → ch '.' ∈ u :=
        fun h => hdot (Bool.and_eq_true_iff.mp h).2
      obtain ⟨v, hv, hlenv⟩ := trimZeros_ok d.flags.altform2 htrims (by omega)
      obtain ⟨w, hw, hlenw⟩ := emitExponent_ok i precision exp (t := v) (by omega)
      exact ⟨_, u, hu, v, hv, w, hw, _, ⟨by omega, rfl⟩, rfl⟩

/-- The precision of a floating point conversion. -/
theorem realPrecision_le (i : EtInfo) (d : Directive) : realPrecision i d ≤ 165 := by
  have hsize : etBUFSIZE / 2 - 10 = 165 := rfl
  unfold realPrecision
  rw [hsize]
  simp only
  split_ifs
  all_goals omega

/-- A number whose text can be made: its scaled number is `NaN`, or fits. -/
def RealFits (F : Floats R) (i : EtInfo) (d : Directive) (x : R) : Prop :=
  ∀ y exp, scaled F i (realPrecision i d) (realSign F d x).2 = .ok (some (y, exp)) →
    ScaledFits F i d (realSign F d x).1 (realPrecision i d) y exp

/-- **The text of a floating point number is made without a fault exactly if it fits.** -/
theorem realText_ok_iff {i : EtInfo}
    (hi : i.type = .float ∨ i.type = .exp ∨ i.type = .generic) (d : Directive) (x : R) :
    (∃ t, realText F i d x = .ok t) ↔ RealFits F i d x := by
  obtain ⟨r, hr⟩ := scaled_ok F i (realPrecision i d) (realSign F d x).2
  unfold realText RealFits
  simp only [hr, ok_bind, Except.ok.injEq]
  cases r with
  | none => simp
  | some r =>
    obtain ⟨y, exp⟩ := r
    refine (scaledText_ok_iff F hi d _ (realPrecision_le i d) y exp).trans ⟨?_, ?_⟩
    · intro h y' exp' heq
      obtain ⟨rfl, rfl⟩ := Prod.mk.inj (Option.some.inj heq)
      exact h
    · exact fun h => h y exp rfl

/-- `%.40f` of 1e308: its 350 bytes leave no room for the NUL. -/
example : realText Floats.rational ⟨ch 'f', 0, 1, .float, 0, 0⟩
    ⟨⟨false, false, false, false, false, false⟩, 0, 40, false, false, by decide⟩
    (10 ^ 308) = .error .fault := by decide +kernel

end Fits

end Mprintf
