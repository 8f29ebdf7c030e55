import AgcFramework.Lib.Decimal
import AgcFramework.Lib.Exec

/-!
# The directives of the formatter

The table of the conversions, the arguments, and what stands between a `%` and its conversion
character. The text of a conversion is made in a buffer of 350 bytes on the stack, from its end for
an integer and from its start for everything else.

## Main definitions

* `fmtinfo`: the table of the conversions
* `VaArg`: an argument
* `Directive`, `parseDirective`: what stands between a `%` and its conversion character
* `push`, `emit`: a byte into the buffer
-/

open Exec

namespace Mprintf

/-! ## The tables -/

/-- `etBUFSIZE`. -/
def etBUFSIZE : ℕ := 350

/-- `etSPACESIZE`. -/
def etSPACESIZE : ℕ := 73

/-- The conversion paradigms. -/
inductive EtType
  | radix
  | float
  | exp
  | generic
  | size
  | string
  | dynstring
  | percent
  | charx
  | sqlescape
  | sqlescape2
  | sqlescape3
  | sqlescape4
  | pointer
  deriving DecidableEq, Repr

/-- `et_info`. -/
structure EtInfo where
  fmttype : Byte
  base : ℕ
  flags : ℕ
  type : EtType
  charset : ℕ
  /-- `prefix`: the offset of the prefix of the alternate form -/
  altPrefix : ℕ
  deriving DecidableEq, Repr

/-- `FLAG_SIGNED`. -/
def EtInfo.signed (i : EtInfo) : Bool := i.flags.testBit 0

/-- `FLAG_INTERN`. -/
def EtInfo.intern (i : EtInfo) : Bool := i.flags.testBit 1

/-- `FLAG_STRING`. -/
def EtInfo.string (i : EtInfo) : Bool := i.flags.testBit 2

/-- The byte of an ASCII character. -/
def ch (c : Char) : Byte := c.toNat.toUInt8

/-- `aDigits`. -/
def aDigits : List Byte := (CStr.ofString "0123456789ABCDEF0123456789abcdef").bytes

/-- `aPrefix`. -/
def aPrefix : List Byte := [ch '-', ch 'x', ch '0', 0, ch 'X', ch '0']

/-- `fmtinfo`. -/
def fmtinfo : List EtInfo :=
  [⟨ch 'd', 10, 1, .radix, 0, 0⟩,
   ⟨ch 's', 0, 4, .string, 0, 0⟩,
   ⟨ch 'g', 0, 1, .generic, 30, 0⟩,
   ⟨ch 'z', 0, 6, .dynstring, 0, 0⟩,
   ⟨ch 'q', 0, 4, .sqlescape, 0, 0⟩,
   ⟨ch 'Q', 0, 4, .sqlescape2, 0, 0⟩,
   ⟨ch 'w', 0, 4, .sqlescape3, 0, 0⟩,
   ⟨ch 'y', 0, 4, .sqlescape4, 0, 0⟩,
   ⟨ch 'c', 0, 0, .charx, 0, 0⟩,
   ⟨ch 'o', 8, 0, .radix, 0, 2⟩,
   ⟨ch 'u', 10, 0, .radix, 0, 0⟩,
   ⟨ch 'x', 16, 0, .radix, 16, 1⟩,
   ⟨ch 'X', 16, 0, .radix, 0, 4⟩,
   ⟨ch 'f', 0, 1, .float, 0, 0⟩,
   ⟨ch 'e', 0, 1, .exp, 30, 0⟩,
   ⟨ch 'E', 0, 1, .exp, 14, 0⟩,
   ⟨ch 'G', 0, 1, .generic, 14, 0⟩,
   ⟨ch 'i', 10, 1, .radix, 0, 0⟩,
   ⟨ch 'n', 0, 0, .size, 0, 0⟩,
   ⟨ch '%', 0, 0, .percent, 0, 0⟩,
   ⟨ch 'p', 16, 0, .pointer, 0, 1⟩]

/-! ## The arguments -/

/-- An argument. The 64-bit ones are `long`, `int64_t`, their unsigned types and the pointers of
`%p`. -/
inductive VaArg (R : Type)
  | int (v : BitVec 32)
  | long (v : BitVec 64)
  | real (x : R)
  | str (s : Option CStr)
  /-- `int *` -/
  | intPtr

variable {R : Type}

/-- `va_arg(ap, int)`, also for an `unsigned int`. -/
def vaInt : List (VaArg R) → Exec (BitVec 32 × List (VaArg R))
  | .int v :: ap => .ok (v, ap)
  | _ => .error .fault

/-- `va_arg` of a 64-bit type. -/
def vaLong : List (VaArg R) → Exec (BitVec 64 × List (VaArg R))
  | .long v :: ap => .ok (v, ap)
  | _ => .error .fault

/-- `va_arg(ap, char *)`. -/
def vaStr : List (VaArg R) → Exec (Option CStr × List (VaArg R))
  | .str s :: ap => .ok (s, ap)
  | _ => .error .fault

/-- `va_arg(ap, double)`. -/
def vaReal : List (VaArg R) → Exec (R × List (VaArg R))
  | .real x :: ap => .ok (x, ap)
  | _ => .error .fault

/-! ## Between the `%` and the conversion -/

/-- The flags. -/
structure Flags where
  leftjustify : Bool
  plussign : Bool
  blanksign : Bool
  alternateform : Bool
  altform2 : Bool
  zeropad : Bool
  deriving DecidableEq, Repr

/-- What stands between a `%` and its conversion character. -/
structure Directive where
  flags : Flags
  width : ℕ
  /-- `-1` is none -/
  precision : ℤ
  long : Bool
  longlong : Bool
  width_le : width ≤ etBUFSIZE - 10
  deriving DecidableEq

/-- The loop over the flags. -/
def flagLoop : List Byte → Flags → Flags × List Byte
  | [], f => (f, [])
  | b :: s, f =>
    if b = ch '-' then flagLoop s { f with leftjustify := true }
    else if b = ch '+' then flagLoop s { f with plussign := true }
    else if b = ch ' ' then flagLoop s { f with blanksign := true }
    else if b = ch '#' then flagLoop s { f with alternateform := true }
    else if b = ch '!' then flagLoop s { f with altform2 := true }
    else if b = ch '0' then flagLoop s { f with zeropad := true }
    else (f, b :: s)

/-- A number in the format: `n = n * 10 + c - '0'`, from the left. -/
def numberLoop : List Byte → ℕ → Exec (ℕ × List Byte)
  | [], n => pure (n, [])
  | b :: s, n =>
    if Decimal.isDigit b then do
      checkInt (n * 10 + b.toNat)
      numberLoop s (n * 10 + b.toNat - 48)
    else pure (n, b :: s)

/-- An `int` argument with its sign taken off. -/
def vaAbs (ap : List (VaArg R)) : Exec (Bool × ℕ × List (VaArg R)) := do
  let (v, ap) ← vaInt ap
  checkInt v.toInt.natAbs
  pure (decide (v.toInt < 0), v.toInt.natAbs, ap)

/-- The field width, and the flags that a negative one changes. -/
def parseWidth (s : List Byte) (f : Flags) (ap : List (VaArg R)) :
    Exec (Flags × ℕ × List Byte × List (VaArg R)) :=
  match s with
  | b :: s' =>
    if b = ch '*' then do
      let (negative, width, ap) ← vaAbs ap
      pure ({ f with leftjustify := f.leftjustify || negative }, width, s', ap)
    else do
      let (width, s) ← numberLoop (b :: s') 0
      pure (f, width, s, ap)
  | [] => pure (f, 0, [], ap)

/-- The precision. -/
def parsePrecision (s : List Byte) (ap : List (VaArg R)) :
    Exec (ℤ × List Byte × List (VaArg R)) :=
  match s with
  | b :: s =>
    if b = ch '.' then
      match s with
      | b' :: s' =>
        if b' = ch '*' then do
          let (_, precision, ap) ← vaAbs ap
          pure (precision, s', ap)
        else do
          let (precision, s) ← numberLoop (b' :: s') 0
          pure (precision, s, ap)
      | [] => pure (0, [], ap)
    else pure (-1, b :: s, ap)
  | [] => pure (-1, [], ap)

/-- The conversion type modifier: `l` and `ll`. -/
def parseModifier (s : List Byte) : Bool × Bool × List Byte :=
  match s with
  | b :: s =>
    if b = ch 'l' then
      match s with
      | b' :: s' => if b' = ch 'l' then (true, true, s') else (true, false, b' :: s')
      | [] => (true, false, [])
    else (false, false, b :: s)
  | [] => (false, false, [])

/-- What stands behind a `%`, up to the conversion character. -/
def parseDirective (s : List Byte) (ap : List (VaArg R)) :
    Exec (Directive × List Byte × List (VaArg R)) := do
  let (f, s) := flagLoop s ⟨false, false, false, false, false, false⟩
  let (f, width, s, ap) ← parseWidth s f ap
  let (precision, s, ap) ← parsePrecision s ap
  let (long, longlong, s) := parseModifier s
  pure (⟨f, min width (etBUFSIZE - 10), precision, long, longlong, Nat.min_le_right _ _⟩, s, ap)

/-! ## The buffer -/

/-- `*(--bufpt) = b`, where `t` is what stands from `bufpt` to the last byte of `buf`. -/
def push (t : List Byte) (b : Byte) : Exec (List Byte) :=
  if t.length < etBUFSIZE - 1 then .ok (b :: t) else .error .fault

/-- `bufpt[j++] = b`, where `t` is what stands before `j` in a buffer of `size` bytes. -/
def emit (size : ℕ) (t : List Byte) (b : Byte) : Exec (List Byte) :=
  if t.length < size then .ok (t ++ [b]) else .error .fault

/-- Bytes at the end, one after another. -/
def emitLoop (size : ℕ) : List Byte → List Byte → Exec (List Byte)
  | [], t => pure t
  | b :: bs, t => do
    let t ← emit size t b
    emitLoop size bs t

end Mprintf
