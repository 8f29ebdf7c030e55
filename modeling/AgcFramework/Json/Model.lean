import AgcFramework.Lib.CString
import AgcFramework.Lib.Exec

/-!
# The JSON items

The printer and the parser of `agc_json.c`. A pointer into a text is the rest of the text, and its
end is the terminating NUL; a null result is `none`. Allocations succeed. The counts that the code
keeps in an `int` are checked. A number stays the text it was read from, since what is made of it
is floating point.

## Main definitions

* `Json`: the items
* `printStringPtr`, `printValue`: the printer
* `parseString`, `parseValue`, `cJSONParse`: the parser
-/

open Exec

/-- The byte of an ASCII character. -/
def ch (c : Char) : Byte := c.toNat.toUInt8

/-- A `cJSON` item with what hangs below it. -/
inductive Json
  | null
  | false
  | true
  | number (text : List Byte)
  | string (valuestring : CStr)
  | array (items : List Json)
  | object (members : List (CStr × Json))

/-! ## Strings -/

/-- The lower-case hexadecimal digit of a number below sixteen. -/
def hexDigit (d : ℕ) : Byte := if d < 10 then (48 + d).toUInt8 else (87 + d).toUInt8

/-- What `print_string_ptr` writes for a byte. -/
def escapeByte (b : Byte) : List Byte :=
  if 31 < b ∧ b ≠ ch '"' ∧ b ≠ ch '\\' then [b]
  else if b = ch '\\' then [ch '\\', ch '\\']
  else if b = ch '"' then [ch '\\', ch '"']
  else if b = 8 then [ch '\\', ch 'b']
  else if b = 12 then [ch '\\', ch 'f']
  else if b = 10 then [ch '\\', ch 'n']
  else if b = 13 then [ch '\\', ch 'r']
  else if b = 9 then [ch '\\', ch 't']
  -- `u%04x`
  else [ch '\\', ch 'u', ch '0', ch '0', hexDigit (b.toNat / 16), hexDigit (b.toNat % 16)]

/-- What the first loop of `print_string_ptr` adds to `len` for a byte. -/
def escapeLength (b : Byte) : ℕ :=
  if b = ch '"' ∨ b = ch '\\' ∨ b = 8 ∨ b = 12 ∨ b = 10 ∨ b = 13 ∨ b = 9 then 2
  else if b < 32 then 6
  else 1

/-- `print_string_ptr`. -/
def printStringPtr (str : CStr) : Exec (List Byte) := do
  checkInt ((str.bytes.map escapeLength).sum + 3)
  pure (ch '"' :: str.bytes.flatMap escapeByte ++ [ch '"'])

/-- `is_hexdigit`. -/
def isHexdigit (b : Byte) : Bool :=
  (ch '0' ≤ b ∧ b ≤ ch '9') ∨ (ch 'a' ≤ b ∧ b ≤ ch 'f') ∨ (ch 'A' ≤ b ∧ b ≤ ch 'F')

/-- The value of a hexadecimal digit. -/
def hexValue (b : Byte) : ℕ :=
  if b ≤ ch '9' then b.toNat - 48
  else if b ≤ ch 'F' then b.toNat - 55
  else b.toNat - 87

/-- `scan_unicode`: four hexadecimal digits. -/
def scanUnicode : List Byte → Option ℕ
  | a :: b :: c :: d :: _ =>
    if isHexdigit a && isHexdigit b && isHexdigit c && isHexdigit d then
      some (((hexValue a * 16 + hexValue b) * 16 + hexValue c) * 16 + hexValue d)
    else none
  | _ => none

/-- The bytes that `parse_string` writes for a code point. -/
def utf8 (uc : ℕ) : List Byte :=
  let tail (uc : ℕ) : Byte := ((uc ||| 0x80) &&& 0xBF).toUInt8
  if uc < 0x80 then [uc.toUInt8]
  else if uc < 0x800 then [(uc >>> 6 ||| 0xC0).toUInt8, tail uc]
  else if uc < 0x10000 then [(uc >>> 12 ||| 0xE0).toUInt8, tail (uc >>> 6), tail uc]
  else [(uc >>> 18 ||| 0xF0).toUInt8, tail (uc >>> 12), tail (uc >>> 6), tail uc]

/-- The case `u` of `parse_string`, on the text behind the letter: the bytes written and the rest of
the text. -/
def transcode (text : List Byte) : List Byte × List Byte :=
  match scanUnicode text with
  | none => ([], text)
  | some uc =>
    let text := text.drop 4
    if (0xDC00 ≤ uc ∧ uc ≤ 0xDFFF) ∨ uc = 0 then ([], text)
    else if 0xD800 ≤ uc ∧ uc ≤ 0xDBFF then
      match text with
      | b :: u :: second =>
        if b ≠ ch '\\' ∨ u ≠ ch 'u' then ([], text)
        else
          match scanUnicode second with
          | none => ([], text)
          | some uc2 =>
            if uc2 < 0xDC00 ∨ 0xDFFF < uc2 then ([], second.drop 4)
            else (utf8 (0x10000 ||| ((uc &&& 0x3FF) <<< 10) ||| (uc2 &&& 0x3FF)), second.drop 4)
      | _ => ([], text)
    else (utf8 uc, text)

/-- The cases of the `switch` of `parse_string` other than `u`. -/
def unescape (e : Byte) : Byte :=
  if e = ch 'b' then 8
  else if e = ch 'f' then 12
  else if e = ch 'n' then 10
  else if e = ch 'r' then 13
  else if e = ch 't' then 9
  else e

/-- One round of the second loop of `parse_string`, at the byte `c` before `text`. -/
def decodeUnit (c : Byte) (text : List Byte) : List Byte × List Byte :=
  if c ≠ ch '\\' then ([c], text)
  else
    match text with
    | [] => ([0], [])
    | e :: text => if e = ch 'u' then transcode text else ([unescape e], text)

theorem length_transcode (text : List Byte) : (transcode text).2.length ≤ text.length := by
  unfold transcode
  split
  · exact Nat.le_refl _
  · have hdrop : (text.drop 4).length ≤ text.length := by simp
    simp only
    split
    · exact hdrop
    · split
      · split
        · rename_i second hsecond
          have hlen : second.length ≤ text.length := by
            have := congrArg List.length hsecond
            simp only [List.length_drop, List.length_cons] at this
            omega
          have hdrop' : (second.drop 4).length ≤ text.length := by
            simp only [List.length_drop]
            omega
          split
          · exact hdrop
          · split
            · exact hdrop
            · split
              · exact hdrop'
              · exact hdrop'
        · exact hdrop
      · exact hdrop

theorem length_decodeUnit (c : Byte) (text : List Byte) :
    (decodeUnit c text).2.length ≤ text.length := by
  unfold decodeUnit
  split
  · exact Nat.le_refl _
  · split
    · exact Nat.le_refl _
    · split
      · exact (length_transcode _).trans (Nat.le_succ _)
      · exact Nat.le_succ _

/-- The second loop of `parse_string`: the bytes written and the rest of the text. -/
def decode (text : List Byte) : List Byte × List Byte :=
  match text with
  | [] => ([], [])
  | c :: text =>
    if c = ch '"' then ([], c :: text)
    else
      let written := (decodeUnit c text).1
      let r := decode (decodeUnit c text).2
      (written ++ r.1, r.2)
termination_by text.length
decreasing_by exact Nat.lt_succ_of_le (length_decodeUnit c text)

/-- The first loop of `parse_string`, which counts `len`. Behind a backslash at the end of the text
it reads past the NUL. -/
def scanLength : List Byte → Exec ℕ
  | [] => pure 0
  | [c] => if c = ch '"' then pure 0 else if c = ch '\\' then .error .fault else pure 1
  | c :: d :: text =>
    if c = ch '"' then pure 0
    else do
      let len ← if c = ch '\\' then scanLength text else scanLength (d :: text)
      pure (len + 1)

/-- `parse_string`: the string and the rest of the text. -/
def parseString (str : List Byte) : Exec (Option (CStr × List Byte)) :=
  match str with
  | [] => pure none
  | c :: text =>
    if c ≠ ch '"' then pure none
    else do
      let len ← scanLength text
      checkInt (len + 1)
      let r := decode text
      pure (some (CStr.ofBuffer r.1, match r.2 with
        | q :: text => if q = ch '"' then text else q :: text
        | [] => []))

/-! ## Printing -/

/-- The tabs of an indented line. -/
def tabs (n : ℕ) : List Byte := List.replicate n 9

/-- The entries of an array as `print_array` composes them. -/
def joinItems (fmt : Bool) : List (List Byte) → List Byte
  | [] => []
  | [entry] => entry
  | entry :: entries =>
    entry ++ ch ',' :: (if fmt then [ch ' '] else []) ++ joinItems fmt entries

/-- The entries of an object, each with its name, as `print_object` composes them. -/
def joinMembers (fmt : Bool) (depth : ℕ) : List (List Byte × List Byte) → List Byte
  | [] => []
  | (name, entry) :: entries =>
    (if fmt then tabs depth else []) ++ name ++ ch ':' :: (if fmt then [9] else []) ++ entry ++
      (if entries.isEmpty then [] else [ch ',']) ++ (if fmt then [10] else []) ++
      joinMembers fmt depth entries

section Print

-- what `print_number` makes of a number
variable (printNumber : List Byte → List Byte)

mutual

/-- `print_value`, with `print_array` and `print_object`. -/
def printValue (fmt : Bool) (depth : ℕ) : Json → Exec (List Byte)
  | .null => pure [ch 'n', ch 'u', ch 'l', ch 'l']
  | .false => pure [ch 'f', ch 'a', ch 'l', ch 's', ch 'e']
  | .true => pure [ch 't', ch 'r', ch 'u', ch 'e']
  | .number text => pure (printNumber text)
  | .string valuestring => printStringPtr valuestring
  | .array items => do
    checkInt items.length
    let entries ← printItems fmt (depth + 1) items
    pure (ch '[' :: joinItems fmt entries ++ [ch ']'])
  | .object members => do
    checkInt members.length
    let entries ← printMembers fmt (depth + 1) members
    pure (ch '{' :: (if fmt then [10] else []) ++ joinMembers fmt (depth + 1) entries ++
      (if fmt then tabs depth else []) ++ [ch '}'])

/-- The first loop of `print_array`. -/
def printItems (fmt : Bool) (depth : ℕ) : List Json → Exec (List (List Byte))
  | [] => pure []
  | item :: items => do
    let ret ← printValue fmt depth item
    let entries ← printItems fmt depth items
    pure (ret :: entries)

/-- The first loop of `print_object`. -/
def printMembers (fmt : Bool) (depth : ℕ) :
    List (CStr × Json) → Exec (List (List Byte × List Byte))
  | [] => pure []
  | (name, item) :: members => do
    let str ← printStringPtr name
    let ret ← printValue fmt depth item
    let entries ← printMembers fmt depth members
    pure ((str, ret) :: entries)

end

/-- `cJSON_PrintUnformatted`. -/
def cJSONPrintUnformatted (item : Json) : Exec CStr := do
  let out ← printValue printNumber false 0 item
  pure (CStr.ofBuffer (out ++ [0]))

end Print

/-! ## Parsing -/

/-- `skip`. -/
def skip (text : List Byte) : List Byte := text.dropWhile fun b => b ≤ 32

/-- The digits at the start are skipped. -/
def skipDigits (text : List Byte) : List Byte :=
  text.dropWhile fun b => ch '0' ≤ b ∧ b ≤ ch '9'

/-- The exponent of a number is skipped. -/
def skipExponent (text : List Byte) : List Byte :=
  match text with
  | e :: text' =>
    if e = ch 'e' ∨ e = ch 'E' then
      match text' with
      | sign :: text'' =>
        if sign = ch '+' ∨ sign = ch '-' then skipDigits text'' else skipDigits text'
      | [] => []
    else text
  | [] => []

/-- The fraction of a number is skipped. -/
def skipFraction (text : List Byte) : List Byte :=
  match text with
  | dot :: d :: text' =>
    if dot = ch '.' ∧ ch '0' ≤ d ∧ d ≤ ch '9' then skipDigits (d :: text') else text
  | _ => text

/-- The integer part of a number is skipped, without its sign. -/
def skipInteger (text : List Byte) : List Byte :=
  let text := match text with
    | z :: text' => if z = ch '0' then text' else text
    | [] => []
  match text with
  | d :: _ => if ch '1' ≤ d ∧ d ≤ ch '9' then skipDigits text else text
  | [] => []

/-- `parse_number`: the text of the number and the rest. -/
def parseNumber (num : List Byte) : List Byte × List Byte :=
  let text := match num with
    | sign :: text => if sign = ch '-' then text else num
    | [] => []
  let rest := skipExponent (skipFraction (skipInteger text))
  (num.take (num.length - rest.length), rest)

mutual

/-- `parse_value`. -/
def parseValue : ℕ → List Byte → Exec (Option (Json × List Byte))
  | 0, _ => .error .fuel
  | fuel + 1, value =>
    if [ch 'n', ch 'u', ch 'l', ch 'l'].isPrefixOf value then pure (some (.null, value.drop 4))
    else if [ch 'f', ch 'a', ch 'l', ch 's', ch 'e'].isPrefixOf value then
      pure (some (.false, value.drop 5))
    else if [ch 't', ch 'r', ch 'u', ch 'e'].isPrefixOf value then
      pure (some (.true, value.drop 4))
    else
      match value with
      | [] => pure none
      | c :: _ =>
        if c = ch '"' then
          andThen (parseString value) fun (s, rest) => pure (some (.string s, rest))
        else if c = ch '-' ∨ (ch '0' ≤ c ∧ c ≤ ch '9') then
          pure (some (.number (parseNumber value).1, (parseNumber value).2))
        else if c = ch '[' then parseArray fuel value
        else if c = ch '{' then parseObject fuel value
        else pure none

/-- `parse_array`. -/
def parseArray : ℕ → List Byte → Exec (Option (Json × List Byte))
  | 0, _ => .error .fuel
  | _ + 1, [] => pure none
  | fuel + 1, c :: value =>
    if c ≠ ch '[' then pure none
    else if (skip value).head? = some (ch ']') then pure (some (.array [], (skip value).tail))
    else
      andThen (parseValue fuel (skip (skip value))) fun (item, value) =>
        arrayLoop fuel [item] (skip value)

/-- The loop of `parse_array`, behind the items read so far. -/
def arrayLoop : ℕ → List Json → List Byte → Exec (Option (Json × List Byte))
  | 0, _, _ => .error .fuel
  | _ + 1, _, [] => pure none
  | fuel + 1, items, c :: value =>
    if c = ch ',' then
      andThen (parseValue fuel (skip value)) fun (item, value) =>
        arrayLoop fuel (items ++ [item]) (skip value)
    else if c = ch ']' then pure (some (.array items, value))
    else pure none

/-- `parse_object`. -/
def parseObject : ℕ → List Byte → Exec (Option (Json × List Byte))
  | 0, _ => .error .fuel
  | _ + 1, [] => pure none
  | fuel + 1, c :: value =>
    if c ≠ ch '{' then pure none
    else if (skip value).head? = some (ch '}') then pure (some (.object [], (skip value).tail))
    else
      andThen (parseMember fuel (skip (skip value))) fun (member, value) =>
        objectLoop fuel [member] (skip value)

/-- The loop of `parse_object`, behind the members read so far. -/
def objectLoop : ℕ → List (CStr × Json) → List Byte → Exec (Option (Json × List Byte))
  | 0, _, _ => .error .fuel
  | _ + 1, _, [] => pure none
  | fuel + 1, members, c :: value =>
    if c = ch ',' then
      andThen (parseMember fuel (skip value)) fun (member, value) =>
        objectLoop fuel (members ++ [member]) (skip value)
    else if c = ch '}' then pure (some (.object members, value))
    else pure none

/-- A name, a colon and a value, as `parse_object` reads them. -/
def parseMember : ℕ → List Byte → Exec (Option ((CStr × Json) × List Byte))
  | 0, _ => .error .fuel
  | fuel + 1, value =>
    andThen (parseString value) fun (name, value) =>
      match skip value with
      | [] => pure none
      | c :: value =>
        if c ≠ ch ':' then pure none
        else
          andThen (parseValue fuel (skip value)) fun (item, value) =>
            pure (some ((name, item), value))

end

/-- `cJSON_Parse`. -/
def cJSONParse (fuel : ℕ) (value : CStr) : Exec (Option Json) := do
  let r ← parseValue fuel (skip value.bytes)
  pure (r.map Prod.fst)
