import Mathlib.Logic.Relation
import AgcFramework.Mprintf.Integer
import AgcFramework.Mprintf.Statement

/-!
# When the formatter faults

The formatter comes to its end on every format. What can go wrong on the way are the numbers that it
keeps in an `int`, the arguments, which have to be of the types that are read, and the text of a
`%f`, whose digits may not fit into the buffer. Nothing else does: the texts of the integers, of the
characters and of the escaped strings have the room that they need.

## Main definitions

* `DirectiveFits`: what is between a `%` and its conversion character can be read
* `Accepts`: a conversion finds an argument that it can convert
* `Turn`, `Turn.Step`: the walk over the format, directive by directive
* `Turn.Faulty`, `Turn.Rejected`, `Turn.Ends`: the three ways in which it ends

## Main results

* `parseDirective_ok_iff`, `convert_ok_iff`: a directive is read, and converted, without a fault
  exactly if `DirectiveFits` and `Accepts`
* `vxprintf_returns`: how the formatter ends, and what it returns
-/

open Exec

namespace Mprintf

variable {R : Type}

/-! ## Between the `%` and the conversion -/

section Reading

variable {s : List Byte} {ap : List (VaArg R)}

/-- A number of the format that stays within an `int` while its digits are added: with the digit
itself as a character it does. -/
def NumberFits (s : List Byte) : Prop :=
  Decimal.digitsValue (s.takeWhile Decimal.isDigit) + 48 ≤ INT_MAX

/-- An `int` argument that can be negated. -/
def StarFits (ap : List (VaArg R)) : Prop :=
  ∃ v ap', ap = .int v :: ap' ∧ v.toInt.natAbs ≤ INT_MAX

/-- A width, or a precision behind its point. -/
def CountFits (s : List Byte) (ap : List (VaArg R)) : Prop :=
  if s.head? = some (ch '*') then StarFits ap else NumberFits s

/-- What is between a `%` and its conversion: the width and the precision. -/
def DirectiveFits (s : List Byte) (ap : List (VaArg R)) : Prop :=
  let (f, s) := flagLoop s ⟨false, false, false, false, false, false⟩
  CountFits s ap ∧ ∀ f' width s' ap', parseWidth s f ap = .ok (f', width, ch '.' :: s', ap') →
    CountFits s' ap'

/-- Further digits do not make a number less. -/
theorem le_foldl_digits (s : List Byte) (n : ℕ) :
    n ≤ s.foldl (fun a b => 10 * a + (b.toNat - 48)) n := by
  induction s generalizing n with
  | nil => exact Nat.le_refl n
  | cons b s ih =>
    have hstep : n ≤ 10 * n + (b.toNat - 48) := by omega
    exact hstep.trans (ih _)

theorem numberLoop_ok_iff (s : List Byte) {n : ℕ} (hn : n + 48 ≤ INT_MAX) :
    (∃ r, numberLoop s n = .ok r) ↔
      (s.takeWhile Decimal.isDigit).foldl (fun a b => 10 * a + (b.toNat - 48)) n + 48 ≤
        INT_MAX := by
  induction s generalizing n with
  | nil => exact ⟨fun _ => hn, fun _ => ⟨_, rfl⟩⟩
  | cons b s ih =>
    rw [numberLoop]
    split_ifs with hdigit
    · have hge : 48 ≤ b.toNat := by
        simp only [Decimal.isDigit, Bool.decide_and, Bool.and_eq_true, decide_eq_true_eq] at hdigit
        exact UInt8.le_iff_toNat_le.mp hdigit.1
      have hvalue : 10 * n + (b.toNat - 48) = n * 10 + b.toNat - 48 := by omega
      rw [List.takeWhile_cons_of_pos hdigit, List.foldl_cons, hvalue]
      simp only [bind_eq_ok, checkInt_eq_ok]
      constructor
      · rintro ⟨r, _, hle, h⟩
        exact (ih (by omega)).mp ⟨r, h⟩
      · intro h
        -- the value only grows, so each prefix of the digits has one that fits
        have hle := le_foldl_digits (s.takeWhile Decimal.isDigit) (n * 10 + b.toNat - 48)
        obtain ⟨r, hr⟩ := (ih (by omega)).mpr h
        exact ⟨r, (), by omega, hr⟩
    · rw [List.takeWhile_cons_of_neg hdigit]
      exact ⟨fun _ => hn, fun _ => ⟨_, rfl⟩⟩

theorem vaAbs_ok_iff : (∃ r, vaAbs ap = .ok r) ↔ StarFits ap := by
  unfold vaAbs StarFits
  simp only [bind_eq_ok, checkInt_eq_ok, Prod.exists]
  constructor
  · rintro ⟨_, _, _, v, ap', h, _, hle, -⟩
    unfold vaInt at h
    split at h
    · cases h
      exact ⟨v, ap', rfl, hle⟩
    · cases h
  · rintro ⟨v, ap', rfl, hle⟩
    exact ⟨_, _, _, v, ap', rfl, (), hle, rfl⟩

theorem numberFits_iff (s : List Byte) : (∃ r, numberLoop s 0 = .ok r) ↔ NumberFits s :=
  numberLoop_ok_iff s (by decide)

theorem countFits_nil (ap : List (VaArg R)) : CountFits [] ap := by
  have h : (0 : ℕ) + 48 ≤ INT_MAX := by decide
  rw [CountFits, if_neg (by simp)]
  exact h

theorem parseWidth_ok_iff (s : List Byte) (f : Flags) (ap : List (VaArg R)) :
    (∃ r, parseWidth s f ap = .ok r) ↔ CountFits s ap := by
  cases s with
  | nil => exact ⟨fun _ => countFits_nil ap, fun _ => ⟨_, rfl⟩⟩
  | cons b s =>
    simp only [parseWidth, CountFits, List.head?_cons, Option.some.injEq]
    split_ifs with hstar
    · exact (exists_bind_iff fun _ => ⟨_, rfl⟩).trans vaAbs_ok_iff
    · exact (exists_bind_iff fun _ => ⟨_, rfl⟩).trans (numberFits_iff _)

theorem parsePrecision_ok_iff (s : List Byte) (ap : List (VaArg R)) :
    (∃ r, parsePrecision s ap = .ok r) ↔ ∀ s', s = ch '.' :: s' → CountFits s' ap := by
  unfold parsePrecision
  split
  · rename_i b s
    split_ifs with hdot
    · subst hdot
      simp only [List.cons.injEq, true_and, forall_eq']
      cases s with
      | nil => exact ⟨fun _ => countFits_nil ap, fun _ => ⟨_, rfl⟩⟩
      | cons b s =>
        simp only [CountFits, List.head?_cons, Option.some.injEq]
        split_ifs with hstar
        · exact (exists_bind_iff fun _ => ⟨_, rfl⟩).trans vaAbs_ok_iff
        · exact (exists_bind_iff fun _ => ⟨_, rfl⟩).trans (numberFits_iff _)
    · exact ⟨fun _ s' hs => absurd (List.cons.inj hs).1 hdot, fun _ => ⟨_, rfl⟩⟩
  · exact ⟨nofun, fun _ => ⟨_, rfl⟩⟩

/-- A directive is read without a fault exactly if its numbers fit. -/
theorem parseDirective_ok_iff (s : List Byte) (ap : List (VaArg R)) :
    (∃ r, parseDirective s ap = .ok r) ↔ DirectiveFits s ap := by
  unfold parseDirective DirectiveFits
  rcases flagLoop s ⟨false, false, false, false, false, false⟩ with ⟨f, s⟩
  simp only [bind_eq_ok, Prod.exists, pure_eq_ok, Except.ok.injEq]
  -- the precision is looked for in what the width has left
  constructor
  · rintro ⟨-, -, -, f', n, s', ap', hwidth, m, s'', ap'', hprec, -⟩
    refine ⟨(parseWidth_ok_iff s f ap).mp ⟨_, hwidth⟩, fun g w s₁ ap₁ h => ?_⟩
    obtain ⟨rfl, rfl, rfl, rfl⟩ : f' = g ∧ n = w ∧ s' = ch '.' :: s₁ ∧ ap' = ap₁ := by
      rw [hwidth] at h
      simpa using h
    exact (parsePrecision_ok_iff _ _).mp ⟨_, hprec⟩ s₁ rfl
  · rintro ⟨hwidth, hprec⟩
    obtain ⟨⟨f', n, s', ap'⟩, hw⟩ := (parseWidth_ok_iff s f ap).mpr hwidth
    obtain ⟨⟨m, s'', ap''⟩, hp⟩ := (parsePrecision_ok_iff s' ap').mpr fun s₁ hs =>
      hprec f' n s₁ ap' (by rw [hw, hs])
    exact ⟨_, _, _, f', n, s', ap', hw, m, s'', ap'', hp, rfl⟩

end Reading

/-! ## The conversions -/

section Converting

variable {F : Floats R} {i : EtInfo}

/-- An argument of the type that a conversion reads, which it can convert: a number that can be
negated, a floating point number whose text fits, a string whose length, or that of its escaped
text with the NUL, is an `int`. -/
def Accepts (F : Floats R) (i : EtInfo) (d : Directive) (ap : List (VaArg R)) : Prop :=
  match i.type with
  | .radix | .pointer =>
    ∃ a ap' v, ap = a :: ap' ∧ argValue i d a = some v ∧ v ≠ -2 ^ 63
  | .float | .exp | .generic => ∃ x ap', ap = .real x :: ap' ∧ RealFits F i (limited i d) x
  | .size => ∃ ap', ap = .intPtr :: ap'
  | .percent => True
  | .charx => ∃ v ap', ap = .int v :: ap'
  | .string | .dynstring =>
    ∃ s ap', ap = .str s :: ap' ∧ ((s.map CStr.bytes).getD []).length ≤ INT_MAX
  | .sqlescape | .sqlescape2 | .sqlescape3 | .sqlescape4 =>
    ∃ s ap', ap = .str s :: ap' ∧ (escapedArg i.type s).length + 1 ≤ INT_MAX

theorem vaInt_eq_ok {ap : List (VaArg R)} {r : BitVec 32 × List (VaArg R)} :
    vaInt ap = .ok r ↔ ap = .int r.1 :: r.2 := by
  unfold vaInt
  split
  · obtain ⟨v, ap'⟩ := r
    simp
  · rename_i h
    exact ⟨nofun, fun hr => absurd hr (h _ _)⟩

theorem vaLong_eq_ok {ap : List (VaArg R)} {r : BitVec 64 × List (VaArg R)} :
    vaLong ap = .ok r ↔ ap = .long r.1 :: r.2 := by
  unfold vaLong
  split
  · obtain ⟨v, ap'⟩ := r
    simp
  · rename_i h
    exact ⟨nofun, fun hr => absurd hr (h _ _)⟩

theorem vaStr_eq_ok {ap : List (VaArg R)} {r : Option CStr × List (VaArg R)} :
    vaStr ap = .ok r ↔ ap = .str r.1 :: r.2 := by
  unfold vaStr
  split
  · obtain ⟨v, ap'⟩ := r
    simp
  · rename_i h
    exact ⟨nofun, fun hr => absurd hr (h _ _)⟩

/-- The value of a signed conversion can be negated. -/
theorem ne_of_radixValue {w : ℕ} {d : Directive} {v : BitVec w} {r : Option Byte × ℕ}
    (h : radixValue i d v = .ok r) : (if i.signed then v.toInt else (v.toNat : ℤ)) ≠ -2 ^ 63 := by
  unfold radixValue at h
  split_ifs at h ⊢ with hsigned
  · rintro hv
    rw [hv, signedValue, if_pos (by decide), if_pos rfl] at h
    cases h
  · omega

/-- An integer conversion reads an argument of its type, and negates it. -/
theorem convertRadix_ok_iff (hi : i ∈ fmtinfo) (ht : i.type = .radix ∨ i.type = .pointer)
    {d d' : Directive} (ap : List (VaArg R)) (hprec : d'.precision ≤ 310)
    (hlong : (d'.long || d'.longlong) = (d.long || d.longlong || decide (i.type = .pointer))) :
    (∃ r, convertRadix i d' ap = .ok r) ↔
      ∃ a ap' v, ap = a :: ap' ∧ argValue i d a = some v ∧ v ≠ -2 ^ 63 := by
  constructor
  · rintro ⟨r, h⟩
    unfold convertRadix at h
    split_ifs at h with hwide
    · obtain ⟨⟨v, ap'⟩, hv, h⟩ := bind_eq_ok.mp h
      obtain ⟨x, hx, -⟩ := bind_eq_ok.mp h
      refine ⟨_, ap', _, vaLong_eq_ok.mp hv, ?_, ne_of_radixValue hx⟩
      rw [hlong] at hwide
      exact if_pos (by simpa using hwide)
    · obtain ⟨⟨v, ap'⟩, hv, h⟩ := bind_eq_ok.mp h
      obtain ⟨x, hx, -⟩ := bind_eq_ok.mp h
      refine ⟨_, ap', _, vaInt_eq_ok.mp hv, ?_, ne_of_radixValue hx⟩
      rw [hlong] at hwide
      exact if_neg (by simpa using hwide)
  · rintro ⟨a, ap', v, rfl, hvalue, hmin⟩
    -- the digits of any value fit the buffer
    obtain ⟨hlt, hge, hpos⟩ := argValue_bounds hvalue
    obtain ⟨sign, n, t, hsign, htext, -⟩ :=
      radixText_reads hi ht d' hprec hlt (fun hs => ⟨hmin, hge hs⟩) hpos
    exact ⟨_, convertRadix_eq ap' hvalue hlong hsign htext⟩

/-- The text of an escaping conversion, or none, if its length is an `int`. -/
theorem escapeText_ok_iff (xtype : EtType) (s : Option CStr) (malloc : Bool) :
    (∃ r, escapeText xtype s malloc = .ok r) ↔ (escapedArg xtype s).length + 1 ≤ INT_MAX := by
  constructor
  · rintro ⟨r, h⟩
    obtain ⟨u, hle, -⟩ := bind_eq_ok.mp h
    rw [escapeSize_eq] at hle
    exact checkInt_eq_ok.mp hle
  · intro hmax
    -- a text that is longer than the buffer takes an allocation, which may fail
    rcases Decidable.em (etBUFSIZE < (escapedArg xtype s).length + 1 ∧ malloc = false) with
      hno | hno
    · refine ⟨none, bind_eq_ok.mpr ⟨(), ?_, ?_⟩⟩
      · rw [escapeSize_eq]
        exact checkInt_of_le hmax
      · rw [escapeSize_eq, if_pos hno]
        rfl
    · refine ⟨_, escapeText_eq xtype s malloc hmax fun hlt => ?_⟩
      simpa [hlt] using hno

theorem convertChar_ok_iff {d : Directive} (hprec : d.precision ≤ 310) (ap : List (VaArg R)) :
    (∃ r, convertChar d ap = .ok r) ↔ ∃ v ap', ap = .int v :: ap' := by
  have hsize : (etBUFSIZE : ℤ) = 350 := rfl
  unfold convertChar
  simp only [bind_eq_ok, vaInt_eq_ok, Prod.exists]
  constructor
  · rintro ⟨_, _, v, ap', h, -⟩
    exact ⟨v, ap', h⟩
  · rintro ⟨v, ap', rfl⟩
    split_ifs
    · exact ⟨_, _, v, ap', rfl, rfl⟩
    · omega
    · exact ⟨_, _, v, ap', rfl, rfl⟩

theorem convertString_ok_iff (d : Directive) (ap : List (VaArg R)) :
    (∃ r, convertString d ap = .ok r) ↔
      ∃ s ap', ap = .str s :: ap' ∧ ((s.map CStr.bytes).getD []).length ≤ INT_MAX := by
  unfold convertString
  simp only [bind_eq_ok, vaStr_eq_ok, checkInt_eq_ok, Prod.exists]
  constructor
  · rintro ⟨_, _, s, ap', h, _, hle, -⟩
    exact ⟨s, ap', h, hle⟩
  · rintro ⟨s, ap', rfl, hle⟩
    exact ⟨_, _, s, ap', rfl, (), hle, rfl⟩

theorem vaReal_eq_ok {ap : List (VaArg R)} {r : R × List (VaArg R)} :
    vaReal ap = .ok r ↔ ap = .real r.1 :: r.2 := by
  unfold vaReal
  split
  · obtain ⟨x, ap'⟩ := r
    simp
  · rename_i h
    exact ⟨nofun, fun hr => absurd hr (h _ _)⟩

theorem convertReal_ok_iff (hi : i.type = .float ∨ i.type = .exp ∨ i.type = .generic)
    (d : Directive) (ap : List (VaArg R)) :
    (∃ r, convertReal F i d ap = .ok r) ↔ ∃ x ap', ap = .real x :: ap' ∧ RealFits F i d x := by
  unfold convertReal
  simp only [← realText_ok_iff F hi, bind_eq_ok, vaReal_eq_ok, Prod.exists]
  constructor
  · rintro ⟨_, _, x, ap', h, t, ht, -⟩
    exact ⟨x, ap', h, t, ht⟩
  · rintro ⟨x, ap', rfl, t, ht⟩
    exact ⟨_, _, x, ap', rfl, t, ht, rfl⟩

theorem convertEscape_ok_iff (xtype : EtType) (ap : List (VaArg R)) (malloc : Bool) :
    (∃ r, convertEscape xtype ap malloc = .ok r) ↔
      ∃ s ap', ap = .str s :: ap' ∧ (escapedArg xtype s).length + 1 ≤ INT_MAX := by
  unfold convertEscape
  simp only [← escapeText_ok_iff _ _ malloc, bind_eq_ok, vaStr_eq_ok, Prod.exists]
  constructor
  · rintro ⟨_, _, s, ap', h, t, ht, -⟩
    exact ⟨s, ap', h, t, ht⟩
  · rintro ⟨s, ap', rfl, t, ht⟩
    exact ⟨_, _, s, ap', rfl, t, ht, rfl⟩

theorem convertSize_ok_iff (ap : List (VaArg R)) :
    (∃ r, convertSize ap = .ok r) ↔ ∃ ap', ap = .intPtr :: ap' := by
  unfold convertSize
  split
  · exact ⟨fun _ => ⟨_, rfl⟩, fun _ => ⟨_, rfl⟩⟩
  · rename_i h
    exact ⟨nofun, fun ⟨ap', hap⟩ => absurd hap (h ap')⟩

/-- A conversion that is not one of a string. -/
theorem fmtinfo_charx (hi : i ∈ fmtinfo) (ht : i.type = .charx) : i.string = false := by
  revert i
  decide

/-- A conversion is made without a fault exactly if it accepts its argument. -/
theorem convert_ok_iff (F : Floats R) (hi : i ∈ fmtinfo) (d : Directive) (ap : List (VaArg R))
    (malloc : Bool) : (∃ r, convert F i d ap malloc = .ok r) ↔ Accepts F i d ap := by
  unfold convert Accepts
  simp only
  cases ht : i.type with
  | radix =>
    obtain ⟨hprec, hlong⟩ := limited_of_not_string (fmtinfo_radix hi (Or.inl ht)).2.2.2.1 d
    exact (exists_bind_iff fun _ => ⟨_, rfl⟩).trans
      (convertRadix_ok_iff hi (Or.inl ht) ap (by omega) (by simp [hlong, ht]))
  | pointer =>
    obtain ⟨hprec, -⟩ := limited_of_not_string (fmtinfo_radix hi (Or.inr ht)).2.2.2.1 d
    refine (exists_bind_iff fun _ => ⟨_, rfl⟩).trans
      (convertRadix_ok_iff hi (Or.inr ht) ap ?_ (by simp [ht]))
    show (limited i d).precision ≤ 310
    omega
  | float =>
    exact (exists_bind_iff fun _ => ⟨_, rfl⟩).trans (convertReal_ok_iff (by simp [ht]) _ ap)
  | exp =>
    exact (exists_bind_iff fun _ => ⟨_, rfl⟩).trans (convertReal_ok_iff (by simp [ht]) _ ap)
  | generic =>
    exact (exists_bind_iff fun _ => ⟨_, rfl⟩).trans (convertReal_ok_iff (by simp [ht]) _ ap)
  | size => exact convertSize_ok_iff ap
  | percent => exact ⟨fun _ => trivial, fun _ => ⟨_, rfl⟩⟩
  | charx =>
    obtain ⟨hprec, -⟩ := limited_of_not_string (fmtinfo_charx hi ht) d
    exact (exists_bind_iff fun _ => ⟨_, rfl⟩).trans (convertChar_ok_iff (by omega) ap)
  | string => exact (exists_bind_iff fun _ => ⟨_, rfl⟩).trans (convertString_ok_iff _ ap)
  | dynstring => exact (exists_bind_iff fun _ => ⟨_, rfl⟩).trans (convertString_ok_iff _ ap)
  | sqlescape => exact convertEscape_ok_iff _ ap malloc
  | sqlescape2 => exact convertEscape_ok_iff _ ap malloc
  | sqlescape3 => exact convertEscape_ok_iff _ ap malloc
  | sqlescape4 => exact convertEscape_ok_iff _ ap malloc

end Converting

/-! ## The walk -/

/-- A turn of the loop over the format. -/
structure Turn (R : Type) where
  fmt : List Byte
  ap : List (VaArg R)
  count : ℕ
  /-- The number of directives so far. -/
  directives : ℕ

namespace Turn

variable (useExtended : Bool) (F : Floats R) (malloc : ℕ → Bool)

/-- The count behind the literal text. -/
def counted (p : Turn R) : ℕ := p.count + (p.fmt.takeWhile (· ≠ ch '%')).length

/-- What is behind the next `%`. -/
def Behind (p : Turn R) (s : List Byte) : Prop := p.fmt.dropWhile (· ≠ ch '%') = ch '%' :: s

/-- The turn comes to a conversion, with what is left of the format and of the arguments. -/
def Comes (p : Turn R) (i : EtInfo) (d : Directive) (rest : List Byte) (ap : List (VaArg R)) :
    Prop :=
  ∃ s c, p.Behind s ∧ parseDirective s p.ap = .ok (d, c :: rest, ap) ∧
    fmtinfo.find? (·.fmttype = c) = some i ∧ ¬ (useExtended = false ∧ i.intern = true)

/-- A turn that is followed by another one: a text within its field, or `%n`. -/
inductive Step : Turn R → Turn R → Prop
  | text {p : Turn R} {i : EtInfo} {d : Directive} {rest t : List Byte} {ap ap' : List (VaArg R)}
      (hle : p.counted ≤ INT_MAX) (hcomes : p.Comes useExtended i d rest ap)
      (hconvert : convert F i d ap (malloc p.directives) = .ok (.text t, ap'))
      (hfield : p.counted + max d.width t.length ≤ INT_MAX) :
      Step p ⟨rest, ap', p.counted + max d.width t.length, p.directives + 1⟩
  | stored {p : Turn R} {i : EtInfo} {d : Directive} {rest : List Byte} {ap ap' : List (VaArg R)}
      (hle : p.counted ≤ INT_MAX) (hcomes : p.Comes useExtended i d rest ap)
      (hconvert : convert F i d ap (malloc p.directives) = .ok (.stored, ap')) :
      Step p ⟨rest, ap', p.counted, p.directives + 1⟩

/-- A turn that faults: a count that is no `int`, a directive whose numbers do not fit, or a
conversion without an argument that it accepts. -/
def Faulty (p : Turn R) : Prop :=
  INT_MAX < p.counted ∨ (∃ s, p.Behind s ∧ ¬ DirectiveFits s p.ap) ∨
  ∃ i d rest ap, p.Comes useExtended i d rest ap ∧
    (¬ Accepts F i d ap ∨ ∃ t ap', convert F i d ap (malloc p.directives) = .ok (.text t, ap') ∧
      INT_MAX < p.counted + max d.width t.length)

/-- A turn that returns -1: a `%` at the end, an unknown conversion, one that is not allowed, or an
allocation that fails. -/
def Rejected (p : Turn R) : Prop :=
  p.counted ≤ INT_MAX ∧ ∃ s, p.Behind s ∧
    (s = [] ∨ ∃ d s' ap, parseDirective s p.ap = .ok (d, s', ap) ∧
      ∀ c ∈ s'.head?, ∀ i, fmtinfo.find? (·.fmttype = c) = some i →
        (useExtended = false ∧ i.intern = true) ∨
          ∃ ap', convert F i d ap (malloc p.directives) = .ok (.failed, ap'))

/-- A turn without a directive. -/
def Ends (p : Turn R) : Prop := p.counted ≤ INT_MAX ∧ ch '%' ∉ p.fmt

/-- What the loop returns from a turn on. -/
def ret (k : ℕ) (p : Turn R) : Exec ℤ :=
  Printed.ret <$> loop useExtended F malloc k p.fmt p.ap p.count p.directives

variable {useExtended F malloc} {p q : Turn R}

theorem not_mem_or_behind (p : Turn R) : ch '%' ∉ p.fmt ∨ ∃ s, p.Behind s := by
  rcases hdrop : p.fmt.dropWhile (· ≠ ch '%') with _ | ⟨b, s⟩
  · left
    intro hmem
    exact absurd (List.dropWhile_eq_nil_iff.mp hdrop _ hmem) (by simp)
  · right
    have hb := List.head?_dropWhile_not (fun x => decide (x ≠ ch '%')) p.fmt
    rw [hdrop] at hb
    obtain rfl : b = ch '%' := by simpa using hb
    exact ⟨s, hdrop⟩

/-- The calls before what follows do not change what is returned. -/
theorem ret_after (x : Exec Printed) (calls : List (List Byte)) (stored : List ℕ) :
    Printed.ret <$> (x >>= fun r => pure (r.after calls stored)) = Printed.ret <$> x := by
  cases x with
  | error e => rfl
  | ok r => rfl

/-- The count is checked behind the literal text. -/
theorem ret_of_lt (k : ℕ) (hlt : INT_MAX < p.counted) :
    p.ret useExtended F malloc (k + 1) = .error .fault := by
  have hcheck : checkInt p.counted = .error .fault := if_neg (Nat.not_le.mpr hlt)
  rw [ret, loop]
  show Printed.ret <$> (checkInt p.counted >>= _) = _
  rw [hcheck]
  rfl

/-- What a turn returns is what its directive does. -/
theorem ret_succ (k : ℕ) (hle : p.counted ≤ INT_MAX) :
    p.ret useExtended F malloc (k + 1) =
      Printed.ret <$> directive useExtended F
        (fun s ap count => loop useExtended F malloc k s ap count (p.directives + 1))
        (malloc p.directives) (p.fmt.dropWhile (· ≠ ch '%')) p.ap p.counted := by
  rw [ret, loop]
  show Printed.ret <$> (checkInt p.counted >>= _) = _
  rw [checkInt_of_le hle, ok_bind]
  exact ret_after _ _ _

/-- Every turn is of one of the four kinds. -/
theorem kinds (p : Turn R) :
    p.Faulty useExtended F malloc ∨ p.Rejected useExtended F malloc ∨ p.Ends ∨
      ∃ q, p.Step useExtended F malloc q := by
  rcases Nat.lt_or_ge INT_MAX p.counted with hlt | hle
  · exact Or.inl (Or.inl hlt)
  rcases p.not_mem_or_behind with hmem | ⟨s, hs⟩
  · exact Or.inr (Or.inr (Or.inl ⟨hle, hmem⟩))
  rcases Classical.em (DirectiveFits s p.ap) with hfits | hfits
  swap
  · exact Or.inl (Or.inr (Or.inl ⟨s, hs, hfits⟩))
  obtain ⟨⟨d, s', ap⟩, hparse⟩ := (parseDirective_ok_iff s p.ap).mpr hfits
  cases s' with
  | nil => exact Or.inr (Or.inl ⟨hle, s, hs, Or.inr ⟨d, [], ap, hparse, by simp⟩⟩)
  | cons c rest =>
    rcases hfind : fmtinfo.find? (·.fmttype = c) with _ | i
    · refine Or.inr (Or.inl ⟨hle, s, hs, Or.inr ⟨d, _, ap, hparse, fun c' hc i hi => ?_⟩⟩)
      obtain rfl : c = c' := by simpa using hc
      rw [hfind] at hi
      cases hi
    -- an unknown conversion is rejected, and so is one that is not allowed
    have hrejected : ∀ h : (useExtended = false ∧ i.intern = true) ∨
        ∃ ap', convert F i d ap (malloc p.directives) = .ok (.failed, ap'),
        p.Rejected useExtended F malloc := by
      intro h
      refine ⟨hle, s, hs, Or.inr ⟨d, _, ap, hparse, fun c' hc i' hi => ?_⟩⟩
      obtain rfl : c = c' := by simpa using hc
      rw [hfind] at hi
      cases hi
      exact h
    rcases Classical.em (useExtended = false ∧ i.intern = true) with hintern | hintern
    · exact Or.inr (Or.inl (hrejected (Or.inl hintern)))
    have hcomes : p.Comes useExtended i d rest ap := ⟨s, c, hs, hparse, hfind, hintern⟩
    rcases Classical.em (Accepts F i d ap) with haccepts | haccepts
    swap
    · exact Or.inl (Or.inr (Or.inr ⟨i, d, rest, ap, hcomes, Or.inl haccepts⟩))
    obtain ⟨⟨converted, ap'⟩, hconvert⟩ := (convert_ok_iff F (List.mem_of_find?_eq_some hfind) d ap
      (malloc p.directives)).mpr haccepts
    cases converted with
    | failed => exact Or.inr (Or.inl (hrejected (Or.inr ⟨ap', hconvert⟩)))
    | stored => exact Or.inr (Or.inr (Or.inr ⟨_, .stored hle hcomes hconvert⟩))
    | text t =>
      rcases Nat.lt_or_ge INT_MAX (p.counted + max d.width t.length) with hlt | hfield
      · exact Or.inl (Or.inr (Or.inr
          ⟨i, d, rest, ap, hcomes, Or.inr ⟨t, ap', hconvert, hlt⟩⟩))
      · exact Or.inr (Or.inr (Or.inr ⟨_, .text hle hcomes hconvert hfield⟩))

theorem ret_of_ends (k : ℕ) (h : p.Ends) :
    p.ret useExtended F malloc (k + 1) = .ok (p.counted : ℤ) := by
  have hdrop : p.fmt.dropWhile (· ≠ ch '%') = [] := by
    refine List.dropWhile_eq_nil_iff.mpr fun b hb => ?_
    simp only [ne_eq, decide_not, Bool.not_eq_eq_eq_not, Bool.not_true, decide_eq_false_iff_not]
    rintro rfl
    exact h.2 hb
  rw [ret_succ k h.1, hdrop]
  rfl

theorem ret_of_rejected (k : ℕ) (h : p.Rejected useExtended F malloc) :
    p.ret useExtended F malloc (k + 1) = .ok (-1) := by
  obtain ⟨hle, s, hs, h⟩ := h
  rw [ret_succ k hle, hs]
  cases s with
  | nil => rfl
  | cons b s =>
    -- what is behind the `%` is not empty: an unknown conversion, or one that comes to nothing
    rcases h with h | ⟨d, s', ap, hparse, h⟩
    · cases h
    rw [directive, hparse, ok_bind]
    cases s' with
    | nil => rfl
    | cons c rest =>
      rcases hfind : fmtinfo.find? (·.fmttype = c) with _ | i
      · simp only [hfind]
        rfl
      · simp only [hfind]
        rcases h c rfl i hfind with hintern | ⟨ap', hconvert⟩
        · rw [if_pos hintern]
          rfl
        · split_ifs
          · rfl
          · rw [hconvert]
            rfl
    · intro hnil
      cases hnil

/-- What a turn returns that comes to a conversion. -/
theorem ret_of_comes (k : ℕ) {i : EtInfo} {d : Directive} {rest : List Byte}
    {ap : List (VaArg R)} (hle : p.counted ≤ INT_MAX) (h : p.Comes useExtended i d rest ap) :
    p.ret useExtended F malloc (k + 1) = (convert F i d ap (malloc p.directives) >>= fun x =>
      match x.1 with
      | .failed => .ok (-1)
      | .stored => ret useExtended F malloc k ⟨rest, x.2, p.counted, p.directives + 1⟩
      | .text t => checkInt (p.counted + max d.width t.length) >>= fun _ =>
          ret useExtended F malloc k
            ⟨rest, x.2, p.counted + max d.width t.length, p.directives + 1⟩) := by
  obtain ⟨s, c, hs, hparse, hfind, hallowed⟩ := h
  have hsuffix := ((parseDirective_suffix s p.ap).2 _ _ _ hparse).length_le
  rw [ret_succ k hle, hs]
  cases s with
  | nil => exact absurd hsuffix (by simp)
  | cons b s =>
    rw [directive, hparse, ok_bind]
    simp only [hfind]
    rw [if_neg hallowed]
    · rcases convert F i d ap (malloc p.directives) with e | ⟨converted, ap'⟩
      · rfl
      · cases converted with
        | failed => rfl
        | stored => exact ret_after _ _ _
        | text t =>
          show Printed.ret <$> (checkInt _ >>= _) = (checkInt _ >>= _)
          rw [map_bind]
          refine congrArg _ (funext fun _ => ?_)
          exact ret_after _ _ _
    · intro hnil
      cases hnil

/-- A turn that faults makes the formatter fault. -/
theorem ret_of_faulty (k : ℕ) (h : p.Faulty useExtended F malloc) :
    p.ret useExtended F malloc (k + 1) = .error .fault := by
  rcases Nat.lt_or_ge INT_MAX p.counted with hlt | hle
  · exact ret_of_lt k hlt
  rcases h with hlt | ⟨s, hs, hfits⟩ | ⟨i, d, rest, ap, hcomes, h⟩
  · exact absurd hlt (Nat.not_lt.mpr hle)
  · have hparse : parseDirective s p.ap = .error .fault :=
      (parseDirective_suffix s p.ap).1.eq_fault fun h => hfits ((parseDirective_ok_iff _ _).mp h)
    rw [ret_succ k hle, hs]
    cases s with
    | nil => cases hparse
    | cons b s =>
      rw [directive, hparse]
      · rfl
      · intro hnil
        cases hnil
  · obtain ⟨-, c, -, -, hfind, -⟩ := id hcomes
    have hi := List.mem_of_find?_eq_some hfind
    rw [ret_of_comes k hle hcomes]
    rcases h with haccepts | ⟨t, ap', hconvert, hlt⟩
    · rw [(convert_stops F hi d ap (malloc p.directives)).eq_fault fun h =>
        haccepts ((convert_ok_iff F hi d ap _).mp h)]
      rfl
    · rw [hconvert, ok_bind]
      simp only
      rw [checkInt, if_neg (Nat.not_le.mpr hlt)]
      rfl

/-- A turn that is followed by another one returns what that one does. -/
theorem ret_of_step (k : ℕ) (h : p.Step useExtended F malloc q) :
    p.ret useExtended F malloc (k + 1) = q.ret useExtended F malloc k := by
  cases h with
  | text hle hcomes hconvert hfield =>
    rw [ret_of_comes k hle hcomes, hconvert, ok_bind]
    simp only
    rw [checkInt_of_le hfield, ok_bind]
  | stored hle hcomes hconvert =>
    rw [ret_of_comes k hle hcomes, hconvert, ok_bind]

/-- A conversion leaves less of the format. -/
theorem Comes.length_lt {i : EtInfo} {d : Directive} {rest : List Byte} {ap : List (VaArg R)}
    (h : p.Comes useExtended i d rest ap) : rest.length < p.fmt.length := by
  obtain ⟨s, c, hs, hparse, -⟩ := h
  have hlen := ((parseDirective_suffix s p.ap).2 _ _ _ hparse).length_le
  have hdrop := (List.dropWhile_suffix (l := p.fmt) (· ≠ ch '%')).length_le
  rw [hs, List.length_cons] at hdrop
  rw [List.length_cons] at hlen
  omega

theorem Step.length_lt (h : p.Step useExtended F malloc q) : q.fmt.length < p.fmt.length := by
  cases h with
  | text hle hcomes hconvert hfield => exact hcomes.length_lt
  | stored hle hcomes hconvert => exact hcomes.length_lt

/-- The walk returns what the turn does that it comes to. -/
theorem ret_of_reaches (h : Relation.ReflTransGen (Step useExtended F malloc) p q) {x : Exec ℤ}
    (hx : ∀ k, q.ret useExtended F malloc (k + 1) = x) {k : ℕ} (hk : p.fmt.length < k) :
    p.ret useExtended F malloc k = x := by
  -- by induction on the walk from its first turn, each of which leaves less of the format
  induction h using Relation.ReflTransGen.head_induction_on generalizing k with
  | refl =>
    obtain ⟨k, rfl⟩ := Nat.exists_eq_succ_of_ne_zero (Nat.ne_of_gt (Nat.zero_lt_of_lt hk))
    exact hx k
  | head hstep _ ih =>
    have hlt := hstep.length_lt
    obtain ⟨k, rfl⟩ := Nat.exists_eq_succ_of_ne_zero (Nat.ne_of_gt (Nat.zero_lt_of_lt hk))
    rw [ret_of_step k hstep]
    exact ih (by omega)

/-- The walk comes to a turn that no other one follows. -/
theorem exists_last (p : Turn R) :
    ∃ q, Relation.ReflTransGen (Step useExtended F malloc) p q ∧
      (q.Faulty useExtended F malloc ∨ q.Rejected useExtended F malloc ∨ q.Ends) := by
  induction hn : p.fmt.length using Nat.strong_induction_on generalizing p with
  | _ n ih =>
    subst hn
    -- the first three kinds are the last turn of a walk
    have hkinds : p.Faulty useExtended F malloc ∨ p.Rejected useExtended F malloc ∨ p.Ends ∨
        ∃ q, p.Step useExtended F malloc q := p.kinds
    rcases hkinds with h | h | h | ⟨q, hstep⟩
    · exact ⟨p, .refl, Or.inl h⟩
    · exact ⟨p, .refl, Or.inr (Or.inl h)⟩
    · exact ⟨p, .refl, Or.inr (Or.inr h)⟩
    · obtain ⟨r, hr, h⟩ := ih _ hstep.length_lt q rfl
      exact ⟨r, .head hstep hr, h⟩

end Turn

/-- The turn that the formatter begins with. -/
def startTurn (fmt : CStr) (ap : List (VaArg R)) : Turn R := ⟨fmt.bytes, ap, 0, 0⟩

section Run

variable {useExtended : Bool} {F : Floats R} {malloc : ℕ → Bool} {fmt : CStr}
  {ap : List (VaArg R)}

theorem ret_startTurn :
    Printed.ret <$> vxprintf useExtended F malloc fmt ap =
      (startTurn fmt ap).ret useExtended F malloc (fmt.bytes.length + 1) :=
  Turn.ret_after _ _ _

/-- A value that is not -1 is the number of bytes that were given to the consumer. -/
theorem vxprintf_ret {p : Printed} (h : vxprintf useExtended F malloc fmt ap = .ok p) :
    p.ret = -1 ∨ p.ret = p.calls.flatten.length := by
  obtain ⟨q, hq, hp⟩ := bind_eq_ok.mp h
  cases hp
  refine (loop_ret _ _ _ _ _ hq).imp id fun hret => ?_
  show q.ret = (([] :: q.calls).flatten.length : ℤ)
  rw [hret, List.flatten_cons, List.nil_append, Nat.cast_zero, zero_add]

/-- What the formatter returns, by a turn that the walk comes to. -/
theorem vxprintf_of_reaches {q : Turn R} {x : Exec ℤ}
    (h : Relation.ReflTransGen (Turn.Step useExtended F malloc) (startTurn fmt ap) q)
    (hx : ∀ k, q.ret useExtended F malloc (k + 1) = x) :
    Printed.ret <$> vxprintf useExtended F malloc fmt ap = x := by
  rw [ret_startTurn]
  exact Turn.ret_of_reaches h hx (Nat.lt_succ_self _)

theorem map_eq_ok {x : Exec Printed} {n : ℤ} :
    Printed.ret <$> x = .ok n ↔ ∃ p, x = .ok p ∧ p.ret = n := by
  cases x with
  | error e => exact ⟨nofun, fun ⟨p, hp, _⟩ => nomatch hp⟩
  | ok p =>
    refine ⟨fun h => ⟨p, rfl, Except.ok.inj h⟩, ?_⟩
    rintro ⟨_, hp, rfl⟩
    cases hp
    rfl

theorem map_eq_fault {x : Exec Printed} :
    Printed.ret <$> x = .error .fault ↔ x = .error .fault := by
  cases x with
  | error e =>
    exact ⟨fun h => congrArg _ (Except.error.inj h), fun h => congrArg _ (Except.error.inj h)⟩
  | ok p => exact ⟨nofun, nofun⟩

end Run

/-- **The formatter returns.** Whatever the format and the arguments are, it comes to its end. It
faults exactly if the walk over the format comes to a turn whose count is no `int`, whose numbers do
not fit, or whose conversion does not accept its argument; it returns -1 exactly if the walk comes
to a turn that is rejected, and the number of bytes that it gave to its consumer exactly if the walk
comes to the end of the format. -/
theorem vxprintf_returns (useExtended : Bool) (F : Floats R) (malloc : ℕ → Bool) (fmt : CStr)
    (ap : List (VaArg R)) :
    let Reaches := Relation.ReflTransGen (Turn.Step useExtended F malloc) (startTurn fmt ap)
    let run := vxprintf useExtended F malloc fmt ap
    (run = .error .fault ∨ ∃ p, run = .ok p ∧ (p.ret = -1 ∨ p.ret = p.calls.flatten.length)) ∧
    (run = .error .fault ↔ ∃ q, Reaches q ∧ q.Faulty useExtended F malloc) ∧
    ((∃ p, run = .ok p ∧ p.ret = -1) ↔ ∃ q, Reaches q ∧ q.Rejected useExtended F malloc) ∧
    ((∃ p, run = .ok p ∧ p.ret = p.calls.flatten.length) ↔ ∃ q, Reaches q ∧ q.Ends) := by
  intro Reaches run
  have hfault : ∀ q, Reaches q → q.Faulty useExtended F malloc → run = .error .fault :=
    fun q hq h => map_eq_fault.mp (vxprintf_of_reaches hq fun k => Turn.ret_of_faulty k h)
  have hrejected : ∀ q, Reaches q → q.Rejected useExtended F malloc →
      ∃ p, run = .ok p ∧ p.ret = -1 :=
    fun q hq h => map_eq_ok.mp (vxprintf_of_reaches hq fun k => Turn.ret_of_rejected k h)
  have hends : ∀ q, Reaches q → q.Ends → ∃ p, run = .ok p ∧ p.ret = p.calls.flatten.length := by
    intro q hq h
    obtain ⟨p, hp, hret⟩ := map_eq_ok.mp (vxprintf_of_reaches hq fun k => Turn.ret_of_ends k h)
    refine ⟨p, hp, (vxprintf_ret hp).resolve_left fun hneg => ?_⟩
    omega
  obtain ⟨q, hq, hlast⟩ : ∃ q, Reaches q ∧
      (q.Faulty useExtended F malloc ∨ q.Rejected useExtended F malloc ∨ q.Ends) :=
    (startTurn fmt ap).exists_last
  -- the last turn decides, and the other two outcomes are not its own
  rcases hlast with h | h | h
  · have hrun := hfault q hq h
    refine ⟨Or.inl hrun, ⟨fun _ => ⟨q, hq, h⟩, fun ⟨r, hr, h⟩ => hfault r hr h⟩,
      ⟨fun ⟨p, hp, _⟩ => ?_, fun ⟨r, hr, h⟩ => hrejected r hr h⟩,
      ⟨fun ⟨p, hp, _⟩ => ?_, fun ⟨r, hr, h⟩ => hends r hr h⟩⟩
    all_goals
      rw [hrun] at hp
      cases hp
  · obtain ⟨p, hp, hret⟩ := hrejected q hq h
    refine ⟨Or.inr ⟨p, hp, Or.inl hret⟩, ⟨fun hf => ?_, fun ⟨r, hr, h⟩ => hfault r hr h⟩,
      ⟨fun _ => ⟨q, hq, h⟩, fun ⟨r, hr, h⟩ => hrejected r hr h⟩,
      ⟨fun ⟨p', hp', hret'⟩ => ?_, fun ⟨r, hr, h⟩ => hends r hr h⟩⟩
    · rw [hp] at hf
      cases hf
    · rw [hp] at hp'
      cases hp'
      omega
  · obtain ⟨p, hp, hret⟩ := hends q hq h
    refine ⟨Or.inr ⟨p, hp, Or.inr hret⟩, ⟨fun hf => ?_, fun ⟨r, hr, h⟩ => hfault r hr h⟩,
      ⟨fun ⟨p', hp', hret'⟩ => ?_, fun ⟨r, hr, h⟩ => hrejected r hr h⟩,
      ⟨fun _ => ⟨q, hq, h⟩, fun ⟨r, hr, h⟩ => hends r hr h⟩⟩
    · rw [hp] at hf
      cases hf
    · rw [hp] at hp'
      cases hp'
      omega

end Mprintf
