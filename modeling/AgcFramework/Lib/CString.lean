import Mathlib.Data.List.TakeWhile
import Mathlib.Tactic.Common

/-!
# C strings

A C string is a sequence of bytes other than NUL. Case-insensitive comparison is that of the C
locale, which folds the ASCII letters only.

## Main definitions

* `CStr`: a sequence of bytes without NUL
* `CStr.ofBuffer`: the string at the start of a buffer
* `CStr.ofString`: the string of a literal
* `CStr.SameName`: equality up to the case of ASCII letters, the relation of `strcasecmp`
-/

/-- A byte. -/
abbrev Byte := UInt8

/-- A C string. -/
structure CStr where
  bytes : List Byte
  nul_notMem : 0 ∉ bytes
  deriving DecidableEq

namespace CStr

@[ext] theorem ext {s t : CStr} (h : s.bytes = t.bytes) : s = t := by
  cases s
  cases t
  cases h
  rfl

/-- The string at the start of a buffer: the bytes before the first NUL. -/
def ofBuffer (buf : List Byte) : CStr where
  bytes := buf.takeWhile (· ≠ 0)
  nul_notMem := by
    intro h
    simpa using List.mem_takeWhile_imp h

theorem ne_zero_of_mem (s : CStr) {b : Byte} (hb : b ∈ s.bytes) : decide (b ≠ 0) = true := by
  simp only [decide_eq_true_eq]
  rintro rfl
  exact s.nul_notMem hb

/-- A buffer that holds the string and its NUL starts with the string. -/
@[simp] theorem ofBuffer_bytes (s : CStr) (rest : List Byte) :
    ofBuffer (s.bytes ++ 0 :: rest) = s := by
  ext1
  simp only [ofBuffer]
  rw [List.takeWhile_append_of_pos fun b hb => s.ne_zero_of_mem hb]
  simp

@[simp] theorem ofBuffer_self (s : CStr) : ofBuffer s.bytes = s := by
  ext1
  exact List.takeWhile_eq_self_iff.mpr fun b hb => s.ne_zero_of_mem hb

/-- What is behind a NUL does not matter. -/
theorem ofBuffer_append_nul (bs rest : List Byte) : ofBuffer (bs ++ 0 :: rest) = ofBuffer bs := by
  ext1
  simp only [ofBuffer]
  induction bs with
  | nil => simp
  | cons b bs ih =>
    by_cases hb : b = 0
    · simp [hb]
    · simp only [List.cons_append, List.takeWhile_cons, ih]

/-- The string of a literal of ASCII characters. -/
def ofString (s : String) : CStr := ofBuffer (s.toList.map fun c => c.toNat.toUInt8)

/-- A byte other than NUL, repeated. -/
def replicate (n : ℕ) (b : Byte) (hb : b ≠ 0) : CStr where
  bytes := List.replicate n b
  nul_notMem h := hb (List.eq_of_mem_replicate h).symm

/-- `tolower` in the C locale. -/
def toLower (b : Byte) : Byte := if 65 ≤ b ∧ b ≤ 90 then b + 32 else b

/-- `toupper` in the C locale. -/
def toUpper (b : Byte) : Byte := if 97 ≤ b ∧ b ≤ 122 then b - 32 else b

/-- The string with its letters folded. -/
def fold (s : CStr) : List Byte := s.bytes.map toLower

/-- `strcasecmp(s, t) == 0`. -/
def SameName (s t : CStr) : Prop := s.fold = t.fold

instance (s t : CStr) : Decidable (s.SameName t) := inferInstanceAs (Decidable (s.fold = t.fold))

theorem SameName.refl (s : CStr) : s.SameName s := rfl

theorem SameName.symm {s t : CStr} (h : s.SameName t) : t.SameName s := Eq.symm h

theorem SameName.trans {s t u : CStr} (h : s.SameName t) (h' : t.SameName u) : s.SameName u :=
  Eq.trans h h'

end CStr
