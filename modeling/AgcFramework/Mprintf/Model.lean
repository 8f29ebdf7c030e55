import AgcFramework.Mprintf.Real

/-!
# The formatter

`vxprintf` walks over a format and gives the text of each piece to a consumer. A conversion makes
its text in the buffer of 350 bytes; an escaped string that is longer is made in an allocation.

An argument of another type than the one that is read, a number that does not fit its `int` and an
access outside of a buffer are faults.

## Main definitions

* `convert`: the text of a conversion
* `vxprintf`: the calls of the consumer, and what is returned
-/

open Exec

namespace Mprintf

variable {R : Type}

/-! ## The conversions -/

/-- The digits of a number, from the last one; a `uint64_t` has 64 of them at most. -/
def radixLoop (charset base : ℕ) : ℕ → ℕ → List Byte → Exec (List Byte)
  | 0, _, _ => .error .fuel
  | k + 1, v, t => do
    let t ← push t (aDigits.getD (charset + v % base) 0)
    if 0 < v / base then radixLoop charset base k (v / base) t else pure t

/-- Zeros in front. -/
def zeroLoop : ℕ → List Byte → Exec (List Byte)
  | 0, t => pure t
  | n + 1, t => do
    let t ← push t (ch '0')
    zeroLoop n t

/-- Bytes in front, one after another. -/
def pushLoop : List Byte → List Byte → Exec (List Byte)
  | [], t => pure t
  | b :: bs, t => do
    let t ← push t b
    pushLoop bs t

/-- The text of a number, with the sign it gets, if any. -/
def radixText (i : EtInfo) (d : Directive) (sign : Option Byte) (longvalue : ℕ) :
    Exec (List Byte) := do
  let room : ℤ := d.width - if sign.isSome then 1 else 0
  let precision := if d.flags.zeropad ∧ d.precision < room then room else d.precision
  let t ← radixLoop i.charset i.base 64 longvalue []
  let t ← zeroLoop (precision - t.length).toNat t
  let t ← pushLoop sign.toList t
  -- the prefix of the alternate form, unless the text already begins like it
  let pre := (aPrefix.drop i.altPrefix).takeWhile (· ≠ 0)
  if d.flags.alternateform ∧ longvalue ≠ 0 ∧ i.altPrefix ≠ 0 ∧ t.head? ≠ pre.head? then
    pushLoop pre t
  else pure t

/-- The value of a signed conversion, whose negation is checked. -/
def signedValue (d : Directive) (v : ℤ) : Exec (Option Byte × ℕ) :=
  if v < 0 then
    if v = -2 ^ 63 then .error .fault else pure (some (ch '-'), v.natAbs)
  else
    pure (if d.flags.plussign then some (ch '+')
      else if d.flags.blanksign then some (ch ' ') else none, v.natAbs)

/-- The sign and the `longvalue` of an argument. -/
def radixValue {w : ℕ} (i : EtInfo) (d : Directive) (v : BitVec w) : Exec (Option Byte × ℕ) :=
  if i.signed then signedValue d v.toInt else pure (none, v.toNat)

/-- `etRADIX`, and `etPOINTER` behind the flags it sets. -/
def convertRadix (i : EtInfo) (d : Directive) (ap : List (VaArg R)) :
    Exec (List Byte × List (VaArg R)) := do
  if d.long || d.longlong then
    let (v, ap) ← vaLong ap
    let (sign, longvalue) ← radixValue i d v
    let t ← radixText i d sign longvalue
    pure (t, ap)
  else
    let (v, ap) ← vaInt ap
    let (sign, longvalue) ← radixValue i d v
    let t ← radixText i d sign longvalue
    pure (t, ap)

/-- `etFLOAT`, `etEXP` and `etGENERIC`. -/
def convertReal (F : Floats R) (i : EtInfo) (d : Directive) (ap : List (VaArg R)) :
    Exec (List Byte × List (VaArg R)) := do
  let (realvalue, ap) ← vaReal ap
  let t ← realText F i d realvalue
  pure (t, ap)

/-- `etSTRING` and `etDYNSTRING`. -/
def convertString (d : Directive) (ap : List (VaArg R)) : Exec (List Byte × List (VaArg R)) := do
  let (s, ap) ← vaStr ap
  let bytes := (s.map CStr.bytes).getD []
  checkInt bytes.length
  pure (if 0 ≤ d.precision ∧ d.precision < bytes.length then bytes.take d.precision.toNat
    else bytes, ap)

/-- `etCHARX`. -/
def convertChar (d : Directive) (ap : List (VaArg R)) : Exec (List Byte × List (VaArg R)) := do
  let (v, ap) ← vaInt ap
  let c : Byte := v.toNat.toUInt8
  if 0 ≤ d.precision then
    if d.precision ≤ etBUFSIZE then pure (List.replicate d.precision.toNat c, ap)
    else .error .fault
  else pure ([c], ap)

/-- The test for a byte that is escaped. -/
def escapes (xtype : EtType) (b : Byte) : Bool :=
  b = ch '\'' || (xtype = .sqlescape3 && b = ch '\\')

/-- The loop that escapes. -/
def escapeLoop (xtype : EtType) (size : ℕ) : List Byte → List Byte → Exec (List Byte)
  | [], t => pure t
  | b :: s, t => do
    let t ← emit size t b
    if escapes xtype b then
      if xtype = .sqlescape4 then do
        -- the byte goes one further, and a backslash over it
        let t ← emit size t b
        escapeLoop xtype size s (t.take (t.length - 2) ++ [ch '\\', b])
      else do
        let t ← emit size t b
        escapeLoop xtype size s t
    else escapeLoop xtype size s t

/-- The number of bytes that are reserved: those of the text and of the escapes, the NUL and the
quotes. -/
def escapeSize (xtype : EtType) (escarg : List Byte) (needQuote : Bool) : ℕ :=
  escarg.countP (escapes xtype) + escarg.length + 1 + if needQuote then 2 else 0

/-- `if (needQuote) bufpt[j++] = '\''`. -/
def emitQuote (needQuote : Bool) (size : ℕ) (t : List Byte) : Exec (List Byte) :=
  if needQuote then emit size t (ch '\'') else pure t

/-- The text that is escaped: that of a null pointer is `NULL` or `(NULL)`. -/
def escarg (xtype : EtType) : Option CStr → List Byte
  | some s => s.bytes
  | none => (CStr.ofString (if xtype = .sqlescape2 then "NULL" else "(NULL)")).bytes

/-- The text of an escaping conversion; none if the allocation fails. -/
def escapeText (xtype : EtType) (s : Option CStr) (malloc : Bool) :
    Exec (Option (List Byte)) := do
  let needQuote : Bool := s.isSome && xtype = .sqlescape2
  let n := escapeSize xtype (escarg xtype s) needQuote
  checkInt n
  if etBUFSIZE < n ∧ malloc = false then pure none
  else do
    let size := max n etBUFSIZE
    let t ← emitQuote needQuote size []
    let t ← escapeLoop xtype size (escarg xtype s) t
    let t ← emitQuote needQuote size t
    let _ ← emit size t 0
    pure (some t)

/-- What a conversion comes to. -/
inductive Converted
  /-- The text, and whether it was made in an allocation. -/
  | text (t : List Byte)
  /-- `%n`, which has no text and no width. -/
  | stored
  /-- An allocation failed. -/
  | failed

/-- `etSIZE`. -/
def convertSize : List (VaArg R) → Exec (Converted × List (VaArg R))
  | .intPtr :: ap => .ok (.stored, ap)
  | _ => .error .fault

/-- `etSQLESCAPE` to `etSQLESCAPE4`. -/
def convertEscape (xtype : EtType) (ap : List (VaArg R)) (malloc : Bool) :
    Exec (Converted × List (VaArg R)) := do
  let (s, ap) ← vaStr ap
  let t ← escapeText xtype s malloc
  pure (match t with
    | some t => .text t
    | none => .failed, ap)

/-- The precision limited to prevent overflowing `buf`, except for the strings. -/
def limited (i : EtInfo) (d : Directive) : Directive :=
  if (etBUFSIZE : ℤ) - 40 < d.precision ∧ i.string = false then
    { d with precision := etBUFSIZE - 40 }
  else d

/-- The switch over the conversions. `malloc` says whether an allocation succeeds. -/
def convert (F : Floats R) (i : EtInfo) (d : Directive) (ap : List (VaArg R)) (malloc : Bool) :
    Exec (Converted × List (VaArg R)) :=
  let d := limited i d
  match i.type with
  | .pointer => do
    let (t, ap) ← convertRadix i { d with long := true, longlong := true } ap
    pure (.text t, ap)
  | .radix => do
    let (t, ap) ← convertRadix i d ap
    pure (.text t, ap)
  | .float | .exp | .generic => do
    let (t, ap) ← convertReal F i d ap
    pure (.text t, ap)
  | .size => convertSize ap
  | .percent => pure (.text [ch '%'], ap)
  | .charx => do
    let (t, ap) ← convertChar d ap
    pure (.text t, ap)
  | .string | .dynstring => do
    let (t, ap) ← convertString d ap
    pure (.text t, ap)
  | .sqlescape | .sqlescape2 | .sqlescape3 | .sqlescape4 => convertEscape i.type ap malloc

/-! ## The walk over the format -/

/-- The texts of the spaces, of which at most `etSPACESIZE` are given to the consumer at once. -/
def pad (nspace : ℕ) : List (List Byte) :=
  List.replicate (nspace / etSPACESIZE) (List.replicate etSPACESIZE (ch ' ')) ++
    if 0 < nspace % etSPACESIZE then [List.replicate (nspace % etSPACESIZE) (ch ' ')] else []

/-- The texts of a field: its own, and the spaces on one of its sides. -/
def field (d : Directive) (t : List Byte) : List (List Byte) :=
  (if d.flags.leftjustify then [] else pad (d.width - t.length)) ++
    (if t = [] then [] else [t]) ++
    if d.flags.leftjustify then pad (d.width - t.length) else []

/-- What a run of the formatter comes to. -/
structure Printed where
  /-- The texts that `func` is given, in order. -/
  calls : List (List Byte)
  /-- What `%n` stores. -/
  stored : List ℕ
  ret : ℤ
  deriving DecidableEq, Repr

/-- The calls before what follows. -/
def Printed.after (calls : List (List Byte)) (stored : List ℕ) (p : Printed) : Printed :=
  { p with calls := calls ++ p.calls, stored := stored ++ p.stored }

/-- A directive, in the format behind the literal text: its conversion, its field and what follows.
`malloc` says whether its allocation succeeds, if it makes one. -/
def directive (useExtended : Bool) (F : Floats R)
    (next : List Byte → List (VaArg R) → ℕ → Exec Printed) (malloc : Bool) (fmt : List Byte)
    (ap : List (VaArg R)) (count : ℕ) : Exec Printed :=
  match fmt with
  | [] => pure ⟨[], [], count⟩
  | [_] => pure ⟨[[ch '%']], [], -1⟩
  | _ :: s => do
    let (d, s, ap) ← parseDirective s ap
    match s with
    | [] => pure ⟨[], [], -1⟩
    | c :: s =>
      match fmtinfo.find? (·.fmttype = c) with
      | none => pure ⟨[], [], -1⟩
      | some i =>
        if useExtended = false ∧ i.intern then pure ⟨[], [], -1⟩
        else do
          let (converted, ap) ← convert F i d ap malloc
          match converted with
          | .failed => pure ⟨[], [], -1⟩
          | .stored => do
            let p ← next s ap count
            pure (p.after [] [count])
          | .text t => do
            checkInt (count + max d.width t.length)
            let p ← next s ap (count + max d.width t.length)
            pure (p.after (field d t) [])

/-- The loop over the format. `count` is the number of bytes given to the consumer, `n` the number
of directives so far, and `malloc` says whether the allocation of each directive succeeds. -/
def loop (useExtended : Bool) (F : Floats R)
    (malloc : ℕ → Bool) : ℕ → List Byte → List (VaArg R) → ℕ → ℕ → Exec Printed
  | 0, _, _, _, _ => .error .fuel
  | k + 1, fmt, ap, count, n => do
    let literal := fmt.takeWhile (· ≠ ch '%')
    checkInt (count + literal.length)
    let p ← directive useExtended F
      (fun s ap count => loop useExtended F malloc k s ap count (n + 1)) (malloc n)
      (fmt.dropWhile (· ≠ ch '%')) ap (count + literal.length)
    pure (p.after (if literal = [] then [] else [literal]) [])

/-- `vxprintf`. -/
def vxprintf (useExtended : Bool) (F : Floats R)
    (malloc : ℕ → Bool) (fmt : CStr) (ap : List (VaArg R)) : Exec Printed := do
  let p ← loop useExtended F malloc (fmt.bytes.length + 1) fmt.bytes ap 0 0
  pure (p.after [[]] [])

end Mprintf
