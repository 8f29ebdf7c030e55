import AgcFramework.Lib.Buffer

/-!
# Cutting a text into tokens

`agc_separate_string` cuts a text in place: the delimiters become NUL, and the array gets the
positions of the tokens. A second pass takes quotes, escapes and spaces out of each token, again in
place. The buffer is exactly the text with its NUL, so that an access behind it is a fault.

## Main definitions

* `cleanupSeparatedString`: the second pass over one token
* `separateStringBlankDelim`, `separateStringCharDelim`: the two ways of cutting
* `agcSeparateString`: `agc_separate_string` of `agc_utils.c`
-/

open Exec

namespace Separate

/-- `ESCAPE_META`. -/
def ESCAPE_META : Byte := 92

/-- A single quote. -/
def QUOTE : Byte := 39

/-- A double quote. -/
def DQUOTE : Byte := 34

def SPACE : Byte := 32
def CARET : Byte := 94

/-! ## The pass over a token -/

/-- `unescape_char`. -/
def unescapeChar (escaped : Byte) : Byte :=
  if escaped = 110 then 10
  else if escaped = 114 then 13
  else if escaped = 116 then 9
  else if escaped = 115 then SPACE
  else escaped

/-- What a backslash and the byte behind it stand for, if they are an escape. -/
def escape (delim e : Byte) : Option Byte :=
  if e = QUOTE ∨ e = DQUOTE ∨ (delim ≠ 0 ∧ e = delim) ∨ e = ESCAPE_META then some e
  else if unescapeChar e ≠ e then some (unescapeChar e)
  else none

/-- The locals of `cleanup_separated_string`. -/
structure Cleanup where
  buf : List Byte
  ptr : ℕ
  dest : ℕ
  fin : Option ℕ
  insideQuotes : Bool

/-- The skipping of the spaces in front. -/
def skipSpaces (buf : List Byte) : ℕ → ℕ → Exec ℕ
  | 0, _ => .error .fuel
  | fuel + 1, ptr => do
    if (← Buffer.get buf ptr) = SPACE then skipSpaces buf fuel (ptr + 1) else pure ptr

/-- `*ptr == '\''`, and the quote is the end of a quotation or there is another one. -/
def isQuotation (buf : List Byte) (ptr : ℕ) (insideQuotes : Bool) (c : Byte) : Exec Bool :=
  if c = QUOTE then
    if insideQuotes then pure true
    else do
      let later ← strchr QUOTE (buf.drop (ptr + 1))
      pure later.isSome
  else pure false

/-- The escape at `ptr`, if there is one. -/
def escapeAt (buf : List Byte) (ptr : ℕ) (delim c : Byte) : Exec (Option Byte) :=
  if c = ESCAPE_META then do
    let e ← Buffer.get buf (ptr + 1)
    pure (escape delim e)
  else pure none

/-- An iteration of the loop, with `c` at `ptr`. -/
def cleanupStep (delim c : Byte) (s : Cleanup) : Exec Cleanup := do
  match ← escapeAt s.buf s.ptr delim c with
  | some e =>
    let buf ← Buffer.put s.buf s.dest e
    pure { s with buf := buf, ptr := s.ptr + 2, dest := s.dest + 1, fin := some (s.dest + 1) }
  | none =>
    if ← isQuotation s.buf s.ptr s.insideQuotes c then
      let fin := if s.insideQuotes then s.fin else some s.dest
      pure { s with ptr := s.ptr + 1, insideQuotes := !s.insideQuotes, fin := fin }
    else
      let buf ← Buffer.put s.buf s.dest c
      let fin := if c ≠ SPACE ∨ s.insideQuotes then some (s.dest + 1) else s.fin
      pure { s with buf := buf, ptr := s.ptr + 1, dest := s.dest + 1, fin := fin }

/-- The loop. -/
def cleanupLoop (delim : Byte) : ℕ → Cleanup → Exec Cleanup
  | 0, _ => .error .fuel
  | fuel + 1, s => do
    let c ← Buffer.get s.buf s.ptr
    if c = 0 then pure s
    else do
      let s ← cleanupStep delim c s
      cleanupLoop delim fuel s

/-- `cleanup_separated_string`: the buffer and the start of the token. -/
def cleanupSeparatedString (fuel : ℕ) (buf : List Byte) (str : ℕ) (delim : Byte) :
    Exec (List Byte × ℕ) := do
  let start ← skipSpaces buf fuel str
  let s ← cleanupLoop delim fuel ⟨buf, start, start, none, false⟩
  match s.fin with
  | none => pure (s.buf, start)
  | some fin => do
    let buf ← Buffer.put s.buf fin 0
    pure (buf, start)

/-- The loop over the tokens at the end of both ways of cutting. -/
def cleanupAll (delim : Byte) (fuel : ℕ) : List Byte → List ℕ → Exec (List Byte × List ℕ)
  | buf, [] => pure (buf, [])
  | buf, str :: array => do
    let (buf, start) ← cleanupSeparatedString fuel buf str delim
    let (buf, array) ← cleanupAll delim fuel buf array
    pure (buf, start :: array)

/-! ## Cutting -/

/-- `enum tokenizer_state` of `separate_string_blank_delim`. -/
inductive BlankState
  | start
  | skipInitialSpace
  | findDelim
  | skipEndingSpace
  deriving DecidableEq

/-- The locals of `separate_string_blank_delim`; the length of the array is `count`. -/
structure Blank where
  buf : List Byte
  ptr : ℕ
  array : List ℕ
  insideQuotes : Bool
  state : BlankState

/-- An iteration, with `c` at `ptr`. -/
def blankStep (c : Byte) (s : Blank) : Exec Blank :=
  match s.state with
  | .start => pure { s with array := s.array ++ [s.ptr], state := .skipInitialSpace }
  | .skipInitialSpace =>
    if c = SPACE then pure { s with ptr := s.ptr + 1 } else pure { s with state := .findDelim }
  | .findDelim =>
    if c = ESCAPE_META then pure { s with ptr := s.ptr + 2 }
    else if c = QUOTE then pure { s with ptr := s.ptr + 1, insideQuotes := !s.insideQuotes }
    else if c = SPACE ∧ s.insideQuotes = false then do
      let buf ← Buffer.put s.buf s.ptr 0
      pure { s with buf := buf, ptr := s.ptr + 1, state := .skipEndingSpace }
    else pure { s with ptr := s.ptr + 1 }
  | .skipEndingSpace =>
    if c = SPACE then pure { s with ptr := s.ptr + 1 } else pure { s with state := .start }

/-- The loop. -/
def blankLoop (arraylen : ℕ) : ℕ → Blank → Exec Blank
  | 0, _ => .error .fuel
  | fuel + 1, s => do
    let c ← Buffer.get s.buf s.ptr
    if c ≠ 0 ∧ s.array.length < arraylen then do
      let s ← blankStep c s
      blankLoop arraylen fuel s
    else pure s

/-- `separate_string_blank_delim` on the text at `ptr`. -/
def separateStringBlankDelim (fuel : ℕ) (buf : List Byte) (ptr arraylen : ℕ) :
    Exec (List Byte × List ℕ) := do
  let s ← blankLoop arraylen fuel ⟨buf, ptr, [], false, .start⟩
  cleanupAll 0 fuel s.buf s.array

/-- `enum tokenizer_state` of `separate_string_char_delim`. -/
inductive CharState
  | start
  | findDelim
  deriving DecidableEq

/-- The locals of `separate_string_char_delim`; the length of the array is `count`. -/
structure Chars where
  buf : List Byte
  ptr : ℕ
  array : List ℕ
  insideQuotes : Bool
  state : CharState

/-- An iteration, with `c` at `ptr`. -/
def charStep (delim c : Byte) (s : Chars) : Exec Chars :=
  match s.state with
  | .start => pure { s with array := s.array ++ [s.ptr], state := .findDelim }
  | .findDelim =>
    if c = ESCAPE_META then pure { s with ptr := s.ptr + 2 }
    else do
      if ← isQuotation s.buf s.ptr s.insideQuotes c then
        pure { s with ptr := s.ptr + 1, insideQuotes := !s.insideQuotes }
      else if c = delim ∧ s.insideQuotes = false then do
        let buf ← Buffer.put s.buf s.ptr 0
        pure { s with buf := buf, ptr := s.ptr + 1, state := .start }
      else pure { s with ptr := s.ptr + 1 }

/-- The loop. -/
def charLoop (delim : Byte) (arraylen : ℕ) : ℕ → Chars → Exec Chars
  | 0, _ => .error .fuel
  | fuel + 1, s => do
    let c ← Buffer.get s.buf s.ptr
    if c ≠ 0 ∧ s.array.length < arraylen then do
      let s ← charStep delim c s
      charLoop delim arraylen fuel s
    else pure s

/-- `separate_string_char_delim` on the text at `ptr`. -/
def separateStringCharDelim (fuel : ℕ) (buf : List Byte) (ptr : ℕ) (delim : Byte) (arraylen : ℕ) :
    Exec (List Byte × List ℕ) := do
  let s ← charLoop delim arraylen fuel ⟨buf, ptr, [], false, .start⟩
  cleanupAll delim fuel s.buf s.array

/-- The test for a text that names its delimiter: two carets, and two bytes at least behind them. -/
def namesDelim (buf : List Byte) : Exec Bool := do
  if (← Buffer.get buf 0) = CARET then
    if (← Buffer.get buf 1) = CARET then
      if (← Buffer.get buf 2) = 0 then pure false else pure ((← Buffer.get buf 3) ≠ 0)
    else pure false
  else pure false

/-- The start of the text and the delimiter. -/
def textAndDelim (buf : List Byte) (delim : Byte) : Exec (ℕ × Byte) := do
  if ← namesDelim buf then pure (3, ← Buffer.get buf 2) else pure (0, delim)

/-- `agc_separate_string`: the buffer and the pointers that it stored, whose number is what it
returns. -/
def agcSeparateString (fuel : ℕ) (buf : List Byte) (delim : Byte) (arraylen : ℕ) :
    Exec (List Byte × List ℕ) :=
  if arraylen = 0 then pure (buf, [])
  else do
    let (ptr, delim) ← textAndDelim buf delim
    if delim = SPACE then separateStringBlankDelim fuel buf ptr arraylen
    else separateStringCharDelim fuel buf ptr delim arraylen

end Separate
