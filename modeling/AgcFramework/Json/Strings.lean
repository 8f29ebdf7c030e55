import Mathlib.Tactic.IntervalCases
import AgcFramework.Json.Model

/-!
# The texts of a string

Between the quotes of a string a byte stands for itself, a backslash and a letter stand for a byte,
and a hexadecimal escape stands for a character, whose bytes are those of its UTF-8 encoding; a
character behind the basic plane takes a pair of escapes. The printer writes one of these texts.

The parser puts a pair together with `|` where a sum is meant. On the planes with an odd number the
two are the same; of a character of an even plane it makes the one a plane below, and the texts
with such pairs are left out here.

## Main definitions

* `StringUnit text bytes`: the unit of a text that stands for the bytes
* `StringText str out`: `out` is a text of the string, with its quotes

## Main results

* `utf8_eq`: the parser encodes a character in UTF-8
* `decode_unit`: the parser reads a unit as its bytes
* `parseString_text`: the parser reads a string from each of its texts
* `stringText_print`: what the printer makes is a text of the string
-/

open Exec

variable {b c e : Byte} {s t bs text out : List Byte}

/-! ## Units -/

/-- The letters behind a backslash, with the bytes that they stand for. -/
def escapes : List (Byte × Byte) :=
  [(ch '"', ch '"'), (ch '\\', ch '\\'), (ch '/', ch '/'), (ch 'b', 8), (ch 'f', 12), (ch 'n', 10),
    (ch 'r', 13), (ch 't', 9)]

/-- A hexadecimal digit in either case, with its value. -/
def HexDigit (b : Byte) (v : ℕ) : Prop :=
  v < 16 ∧ (b = hexDigit v ∨ (9 < v ∧ b = (55 + v).toUInt8))

/-- Four hexadecimal digits, with their value. -/
inductive HexText : ℕ → List Byte → Prop
  | mk {a b c d : Byte} {va vb vc vd : ℕ} (ha : HexDigit a va) (hb : HexDigit b vb)
      (hc : HexDigit c vc) (hd : HexDigit d vd) :
      HexText (((va * 16 + vb) * 16 + vc) * 16 + vd) [a, b, c, d]

/-- A unit of the text of a string, with the bytes that it stands for. -/
inductive StringUnit : List Byte → List Byte → Prop
  /-- A byte that stands for itself. -/
  | plain {b : Byte} (h0 : b ≠ 0) (hq : b ≠ ch '"') (hb : b ≠ ch '\\') : StringUnit [b] [b]
  | escape {e b : Byte} (h : (e, b) ∈ escapes) : StringUnit [ch '\\', e] [b]
  /-- A character of the basic plane. -/
  | basic {c : Char} {hex : List Byte} (h0 : c.toNat ≠ 0) (hc : c.toNat < 0x10000)
      (hhex : HexText c.toNat hex) : StringUnit (ch '\\' :: ch 'u' :: hex) (String.utf8EncodeChar c)
  /-- A character of a plane with an odd number. -/
  | pair {c : Char} {high low : List Byte} (hc : 0x10000 ≤ c.toNat)
      (hodd : c.toNat / 0x10000 % 2 = 1)
      (hhigh : HexText (0xD800 + (c.toNat - 0x10000) / 0x400) high)
      (hlow : HexText (0xDC00 + (c.toNat - 0x10000) % 0x400) low) :
      StringUnit (ch '\\' :: ch 'u' :: high ++ ch '\\' :: ch 'u' :: low) (String.utf8EncodeChar c)

/-- A text of the string, with its quotes, whose length fits an `int`. -/
def StringText (str : CStr) (out : List Byte) : Prop :=
  ∃ units : List (List Byte × List Byte), (∀ u ∈ units, StringUnit u.1 u.2) ∧
    units.flatMap Prod.snd = str.bytes ∧
      out = ch '"' :: units.flatMap Prod.fst ++ [ch '"'] ∧ out.length ≤ INT_MAX

/-! ## Characters -/

theorem HexDigit.spec {v : ℕ} (h : HexDigit b v) :
    isHexdigit b = true ∧ hexValue b = v ∧ b ≠ 0 ∧ b ≠ ch '"' ∧ b ≠ ch '\\' := by
  have hlower : ∀ v < 16, isHexdigit (hexDigit v) = true ∧ hexValue (hexDigit v) = v ∧
      hexDigit v ≠ 0 ∧ hexDigit v ≠ ch '"' ∧ hexDigit v ≠ ch '\\' := by decide
  have hupper : ∀ v < 16, 9 < v → isHexdigit (55 + v).toUInt8 = true ∧
      hexValue (55 + v).toUInt8 = v ∧ (55 + v).toUInt8 ≠ 0 ∧ (55 + v).toUInt8 ≠ ch '"' ∧
        (55 + v).toUInt8 ≠ ch '\\' := by decide
  obtain ⟨hv, rfl | ⟨h9, rfl⟩⟩ := h
  · exact hlower v hv
  · exact hupper v hv h9

theorem HexText.scan {n : ℕ} (h : HexText n t) (text : List Byte) :
    scanUnicode (t ++ text) = some n ∧ (t ++ text).drop 4 = text := by
  cases h with
  | mk ha hb hc hd =>
    obtain ⟨ha, hva, -⟩ := ha.spec
    obtain ⟨hb, hvb, -⟩ := hb.spec
    obtain ⟨hc, hvc, -⟩ := hc.spec
    obtain ⟨hd, hvd, -⟩ := hd.spec
    simp [scanUnicode, ha, hb, hc, hd, hva, hvb, hvc, hvd]

theorem HexText.not_mem {n : ℕ} (h : HexText n t) :
    ∀ b ∈ t, b ≠ 0 ∧ b ≠ ch '"' ∧ b ≠ ch '\\' := by
  cases h with
  | mk ha hb hc hd =>
    intro x hx
    simp only [List.mem_cons, List.not_mem_nil, or_false] at hx
    rcases hx with rfl | rfl | rfl | rfl
    · exact ha.spec.2.2
    · exact hb.spec.2.2
    · exact hc.spec.2.2
    · exact hd.spec.2.2

/-- A byte of an encoding behind the first one. -/
theorem tail_eq (uc : ℕ) : ((uc ||| 0x80) &&& 0xBF).toUInt8 = UInt8.ofNat (uc % 64 + 128) := by
  have hbyte : ∀ x < 256, (x ||| 0x80) &&& 0xBF = x % 64 + 128 := by decide +kernel
  have hlow : uc % 256 % 64 = uc % 64 := Nat.mod_mod_of_dvd uc (by decide)
  have hlt := hbyte (uc % 256) (Nat.mod_lt uc (by decide))
  rw [hlow] at hlt
  apply UInt8.toNat_inj.mp
  simp only [Nat.toUInt8_eq, UInt8.toNat_ofNat', show 2 ^ 8 = 256 from rfl]
  rw [← hlt, show 256 = 2 ^ 8 from rfl, Nat.and_mod_two_pow, Nat.or_mod_two_pow,
    Nat.and_mod_two_pow, Nat.or_mod_two_pow, Nat.mod_mod]

theorem toNat_lt (c : Char) : c.toNat < 0x110000 := by
  have hvalid : c.toNat < 0xD800 ∨ (0xDFFF < c.toNat ∧ c.toNat < 0x110000) := c.valid
  omega

/-- **The parser encodes a character in UTF-8.** -/
theorem utf8_eq (c : Char) : utf8 c.toNat = String.utf8EncodeChar c := by
  have hhead : (∀ x < 32, (x ||| 0xC0) = x % 0x20 + 0xC0) ∧
      (∀ x < 16, (x ||| 0xE0) = x % 0x10 + 0xE0) ∧
        ∀ x < 8, (x ||| 0xF0) = x % 8 + 0xF0 := by decide
  obtain ⟨h2, h3, h4⟩ := hhead
  have hlt := toNat_lt c
  have hval : c.val.toNat = c.toNat := rfl
  simp only [utf8, String.utf8EncodeChar, hval, tail_eq, Nat.shiftRight_eq_div_pow]
  generalize c.toNat = v at hlt
  rcases Nat.lt_or_ge v 0x80 with h80 | h80
  · rw [if_pos h80, if_pos (Nat.le_of_lt_succ h80)]
  rw [if_neg (Nat.not_lt.mpr h80), if_neg (Nat.not_le.mpr h80)]
  rcases Nat.lt_or_ge v 0x800 with h800 | h800
  · rw [if_pos h800, if_pos (Nat.le_of_lt_succ h800), h2 _ (by omega)]
  rw [if_neg (Nat.not_lt.mpr h800), if_neg (Nat.not_le.mpr h800)]
  rcases Nat.lt_or_ge v 0x10000 with h10000 | h10000
  · rw [if_pos h10000, if_pos (Nat.le_of_lt_succ h10000), h3 _ (by omega)]
  · rw [if_neg (Nat.not_lt.mpr h10000), if_neg (Nat.not_le.mpr h10000), h4 _ (by omega)]

/-! ## What the parser makes of a unit -/

theorem decode_cons (hc : c ≠ ch '"') :
    decode (c :: text) =
      ((decodeUnit c text).1 ++ (decode (decodeUnit c text).2).1,
        (decode (decodeUnit c text).2).2) := by
  rw [decode, if_neg hc]

theorem decode_quote (text : List Byte) : decode (ch '"' :: text) = ([], ch '"' :: text) := by
  rw [decode, if_pos rfl]

theorem transcode_basic {c : Char} (h0 : c.toNat ≠ 0) (hc : c.toNat < 0x10000)
    (hhex : HexText c.toNat t) (text : List Byte) :
    transcode (t ++ text) = (String.utf8EncodeChar c, text) := by
  obtain ⟨hscan, hdrop⟩ := hhex.scan text
  have hvalid : c.toNat < 0xD800 ∨ (0xDFFF < c.toNat ∧ c.toNat < 0x110000) := c.valid
  have hlow : ¬ ((0xDC00 ≤ c.toNat ∧ c.toNat ≤ 0xDFFF) ∨ c.toNat = 0) := by omega
  have hhigh : ¬ (0xD800 ≤ c.toNat ∧ c.toNat ≤ 0xDBFF) := by omega
  simp only [transcode, hscan, hdrop, if_neg hlow, if_neg hhigh, utf8_eq]

/-- The two halves of a character of an odd plane are put together. -/
theorem pair_eq {n : ℕ} (hn : 0x10000 ≤ n) (hlt : n < 0x110000) (hodd : n / 0x10000 % 2 = 1) :
    (0x10000 ||| (((0xD800 + (n - 0x10000) / 0x400) &&& 0x3FF) <<< 10) |||
      ((0xDC00 + (n - 0x10000) % 0x400) &&& 0x3FF)) = n := by
  have hhigh : (0xD800 + (n - 0x10000) / 0x400) &&& 0x3FF = (n - 0x10000) / 0x400 := by
    rw [show 0x3FF = 2 ^ 10 - 1 from rfl, Nat.and_two_pow_sub_one_eq_mod]
    omega
  have hlow : (0xDC00 + (n - 0x10000) % 0x400) &&& 0x3FF = (n - 0x10000) % 0x400 := by
    rw [show 0x3FF = 2 ^ 10 - 1 from rfl, Nat.and_two_pow_sub_one_eq_mod]
    omega
  have hsum : ((n - 0x10000) / 0x400) <<< 10 ||| (n - 0x10000) % 0x400 = n - 0x10000 := by
    rw [← Nat.shiftLeft_add_eq_or_of_lt (by omega), Nat.shiftLeft_eq]
    omega
  -- the plane is odd, so that the bit of 0x10000 is clear in what is joined to it
  have hplane : ((n - 0x10000) / 0x10000) <<< 16 ||| (n - 0x10000) % 0x10000 = n - 0x10000 := by
    rw [← Nat.shiftLeft_add_eq_or_of_lt (by omega), Nat.shiftLeft_eq]
    omega
  have hjoin : ∀ q < 16, q % 2 = 0 → 1 ||| q = q + 1 := by decide
  rw [hhigh, hlow, Nat.or_assoc, hsum, ← hplane, ← Nat.or_assoc,
    show 0x10000 = 1 <<< 16 from rfl, ← Nat.shiftLeft_or_distrib,
    ← show 0x10000 = 1 <<< 16 from rfl, hjoin _ (by omega) (by omega),
    ← Nat.shiftLeft_add_eq_or_of_lt (by omega), Nat.shiftLeft_eq]
  omega

theorem transcode_pair {c : Char} {high low : List Byte} (hc : 0x10000 ≤ c.toNat)
    (hodd : c.toNat / 0x10000 % 2 = 1)
    (hhigh : HexText (0xD800 + (c.toNat - 0x10000) / 0x400) high)
    (hlow : HexText (0xDC00 + (c.toNat - 0x10000) % 0x400) low) (text : List Byte) :
    transcode (high ++ (ch '\\' :: ch 'u' :: (low ++ text))) = (String.utf8EncodeChar c, text) := by
  have hlt := toNat_lt c
  obtain ⟨hscan, hdrop⟩ := hhigh.scan (ch '\\' :: ch 'u' :: (low ++ text))
  obtain ⟨hscan', hdrop'⟩ := hlow.scan text
  have hnone : ¬ ((0xDC00 ≤ 0xD800 + (c.toNat - 0x10000) / 0x400 ∧
      0xD800 + (c.toNat - 0x10000) / 0x400 ≤ 0xDFFF) ∨
        0xD800 + (c.toNat - 0x10000) / 0x400 = 0) := by omega
  have hfirst : 0xD800 ≤ 0xD800 + (c.toNat - 0x10000) / 0x400 ∧
      0xD800 + (c.toNat - 0x10000) / 0x400 ≤ 0xDBFF := by omega
  have hsecond : ¬ (0xDC00 + (c.toNat - 0x10000) % 0x400 < 0xDC00 ∨
      0xDFFF < 0xDC00 + (c.toNat - 0x10000) % 0x400) := by omega
  have hbytes : ¬ (ch '\\' ≠ ch '\\' ∨ ch 'u' ≠ ch 'u') := by decide
  simp only [transcode, hscan, hdrop, if_neg hnone, if_pos hfirst, if_neg hbytes, hscan', hdrop',
    if_neg hsecond, pair_eq hc hlt hodd, utf8_eq]

-- a character of plane 2 comes out as one of plane 1
example : transcode (CStr.ofString "d840\\udc00").bytes = (utf8 0x10000, []) := by decide

/-- **A unit is read as its bytes.** -/
theorem decode_unit (h : StringUnit t bs) (text : List Byte) :
    decode (t ++ text) = (bs ++ (decode text).1, (decode text).2) := by
  have hquote : ch '\\' ≠ ch '"' := by decide
  cases h with
  | @plain b h0 hq hb =>
    have hunit : decodeUnit b text = ([b], text) := by
      simp [decodeUnit, hb]
    rw [List.singleton_append, decode_cons hq, hunit]
  | @escape e b h =>
    have hspec : (escapes.all fun p => decide (p.1 ≠ ch 'u' ∧ unescape p.1 = p.2)) = true := by
      decide
    obtain ⟨hu, hun⟩ := of_decide_eq_true (List.all_eq_true.mp hspec _ h)
    have hunit : decodeUnit (ch '\\') (e :: text) = ([b], text) := by
      simp only at hu hun
      simp [decodeUnit, hu, hun]
    simp only [List.cons_append, List.nil_append]
    rw [decode_cons hquote, hunit]
    rfl
  | @basic c hex h0 hc hhex =>
    have hunit : decodeUnit (ch '\\') (ch 'u' :: (hex ++ text)) =
        (String.utf8EncodeChar c, text) := by
      simp [decodeUnit, transcode_basic h0 hc hhex]
    simp only [List.cons_append]
    rw [decode_cons hquote, hunit]
  | @pair c high low hc hodd hhigh hlow =>
    have hunit : decodeUnit (ch '\\') (ch 'u' :: (high ++ (ch '\\' :: ch 'u' :: (low ++ text)))) =
        (String.utf8EncodeChar c, text) := by
      simp [decodeUnit, transcode_pair hc hodd hhigh hlow]
    simp only [List.cons_append, List.append_assoc]
    rw [decode_cons hquote, hunit]

/-! ## The count of the first loop -/

theorem scanLength_cons (hq : c ≠ ch '"') (hbs : c ≠ ch '\\') (ht : text ≠ []) :
    scanLength (c :: text) = scanLength text >>= fun len => pure (len + 1) := by
  cases text with
  | nil => exact absurd rfl ht
  | cons d text => simp [scanLength, hq, hbs]

theorem scanLength_backslash (d : Byte) (text : List Byte) :
    scanLength (ch '\\' :: d :: text) = scanLength text >>= fun len => pure (len + 1) := by
  have hquote : ch '\\' ≠ ch '"' := by decide
  simp [scanLength, hquote]

/-- Bytes that are neither quotes nor backslashes are counted one by one. -/
theorem scanLength_append (ht : ∀ b ∈ t, b ≠ ch '"' ∧ b ≠ ch '\\') (htext : text ≠ []) {n : ℕ}
    (h : scanLength text = .ok n) : scanLength (t ++ text) = .ok (n + t.length) := by
  induction t with
  | nil => exact h
  | cons b t ih =>
    obtain ⟨hq, hbs⟩ := ht b List.mem_cons_self
    have ih := ih fun b' hb' => ht b' (List.mem_cons_of_mem b hb')
    have hne : t ++ text ≠ [] := fun hnil => htext (List.append_eq_nil_iff.mp hnil).2
    rw [List.cons_append, scanLength_cons hq hbs hne, ih]
    rfl

/-- The count of a unit is at most the length of its text. -/
theorem scanLength_unit (h : StringUnit t bs) (htext : text ≠ []) {n : ℕ}
    (hn : scanLength text = .ok n) :
    ∃ k, scanLength (t ++ text) = .ok k ∧ k ≤ n + t.length := by
  cases h with
  | @plain b h0 hq hb =>
    refine ⟨n + 1, ?_, Nat.le_refl _⟩
    rw [List.singleton_append, scanLength_cons hq hb htext, hn]
    rfl
  | @escape e b h =>
    refine ⟨n + 1, ?_, Nat.le_succ _⟩
    simp only [List.cons_append, List.nil_append]
    rw [scanLength_backslash, hn]
    rfl
  | @basic c hex h0 hc hhex =>
    have hdigits := scanLength_append (fun b hb => (hhex.not_mem b hb).2) htext hn
    refine ⟨n + hex.length + 1, ?_, ?_⟩
    · simp only [List.cons_append]
      rw [scanLength_backslash, hdigits]
      rfl
    · simp only [List.length_cons]
      omega
  | @pair c high low hc hodd hhigh hlow =>
    have hdigits := scanLength_append (fun b hb => (hlow.not_mem b hb).2) htext hn
    have hsecond : scanLength (ch '\\' :: ch 'u' :: (low ++ text)) = .ok (n + low.length + 1) := by
      rw [scanLength_backslash, hdigits]
      rfl
    have hfirst := scanLength_append (fun b hb => (hhigh.not_mem b hb).2) (List.cons_ne_nil _ _)
      hsecond
    refine ⟨n + low.length + 1 + high.length + 1, ?_, ?_⟩
    · simp only [List.cons_append, List.append_assoc]
      rw [scanLength_backslash, hfirst]
      rfl
    · simp only [List.length_cons, List.length_append]
      omega

/-! ## Texts -/

section Units

variable {units : List (List Byte × List Byte)}

theorem decode_units (h : ∀ u ∈ units, StringUnit u.1 u.2) (text : List Byte) :
    decode (units.flatMap Prod.fst ++ ch '"' :: text) =
      (units.flatMap Prod.snd, ch '"' :: text) := by
  induction units with
  | nil => exact decode_quote text
  | cons u units ih =>
    have ih := ih fun v hv => h v (List.mem_cons_of_mem u hv)
    rw [List.flatMap_cons, List.append_assoc, decode_unit (h u List.mem_cons_self), ih,
      List.flatMap_cons]

theorem scanLength_units (h : ∀ u ∈ units, StringUnit u.1 u.2) (text : List Byte) :
    ∃ n, scanLength (units.flatMap Prod.fst ++ ch '"' :: text) = .ok n ∧
      n ≤ (units.flatMap Prod.fst).length := by
  induction units with
  | nil =>
    refine ⟨0, ?_, Nat.le_refl _⟩
    cases text with
    | nil => rfl
    | cons d text => rfl
  | cons u units ih =>
    obtain ⟨n, hn, hle⟩ := ih fun v hv => h v (List.mem_cons_of_mem u hv)
    obtain ⟨k, hk, hkle⟩ := scanLength_unit (h u List.mem_cons_self) (by simp) hn
    refine ⟨k, ?_, ?_⟩
    · rw [List.flatMap_cons, List.append_assoc, hk]
    · rw [List.flatMap_cons, List.length_append]
      omega

end Units

section Texts

variable {str : CStr}

/-- **A string is read from each of its texts.** -/
theorem parseString_text (h : StringText str out) (text : List Byte) :
    parseString (out ++ text) = .ok (some (str, text)) := by
  obtain ⟨units, hunits, hbytes, rfl, hlen⟩ := h
  obtain ⟨n, hn, hle⟩ := scanLength_units hunits text
  have hint : n + 1 ≤ INT_MAX := by
    simp only [List.length_append, List.length_cons, List.length_nil] at hlen
    omega
  simp only [List.cons_append, List.append_assoc, List.nil_append, parseString, ne_eq,
    not_true_eq_false, if_false, hn, ok_bind, checkInt_of_le hint, decode_units hunits, hbytes,
    CStr.ofBuffer_self, if_true, pure_eq_ok]

/-- Nothing in the text of a unit is a NUL. -/
theorem StringUnit.nul_notMem (h : StringUnit t bs) : (0 : Byte) ∉ t := by
  have hbs : (0 : Byte) ≠ ch '\\' ∧ (0 : Byte) ≠ ch 'u' := by decide
  have hhex : ∀ {n : ℕ} {t : List Byte}, HexText n t → (0 : Byte) ∉ t :=
    fun ht hmem => (ht.not_mem 0 hmem).1 rfl
  cases h with
  | plain h0 hq hb => simpa using Ne.symm h0
  | @escape e b h =>
    have hspec : (escapes.all fun p => decide ((0 : Byte) ≠ p.1)) = true := by decide
    have he : (0 : Byte) ≠ e := of_decide_eq_true (List.all_eq_true.mp hspec _ h)
    simp [hbs, he]
  | basic h0 hc ht => simp [hbs, hhex ht]
  | pair hc hodd hhigh hlow => simp [hbs, hhex hhigh, hhex hlow]

theorem StringText.nul_notMem (h : StringText str out) : (0 : Byte) ∉ out := by
  obtain ⟨units, hunits, -, rfl, -⟩ := h
  have hq : (0 : Byte) ≠ ch '"' := by decide
  simp only [List.cons_append, List.mem_cons, List.mem_append, List.mem_flatMap, List.mem_nil_iff,
    or_false, hq, false_or]
  rintro ⟨u, hu, h0⟩
  exact (hunits u hu).nul_notMem h0

/-- A text begins with a quote. -/
theorem StringText.head (h : StringText str out) : ∃ rest, out = ch '"' :: rest := by
  obtain ⟨units, -, -, rfl, -⟩ := h
  exact ⟨_, rfl⟩

end Texts

/-! ## What the printer makes -/

/-- What is written for a byte: the byte itself, a backslash and a letter, or a hexadecimal
escape. -/
theorem escapeByte_cases (b : Byte) :
    (escapeByte b = [b] ∧ escapeLength b = 1 ∧ b ≠ ch '"' ∧ b ≠ ch '\\') ∨
    (∃ e, escapeByte b = [ch '\\', e] ∧ escapeLength b = 2 ∧ (e, b) ∈ escapes) ∨
    (escapeByte b = [ch '\\', ch 'u', ch '0', ch '0', hexDigit (b.toNat / 16),
      hexDigit (b.toNat % 16)] ∧ escapeLength b = 6 ∧ b.toNat < 32) := by
  by_cases hraw : 31 < b ∧ b ≠ ch '"' ∧ b ≠ ch '\\'
  · obtain ⟨h31, hq, hbs⟩ := hraw
    have hlen : escapeLength b = 1 := by
      have hctl : b ≠ 8 ∧ b ≠ 12 ∧ b ≠ 10 ∧ b ≠ 13 ∧ b ≠ 9 := by
        refine ⟨?_, ?_, ?_, ?_, ?_⟩ <;> (rintro rfl; exact absurd h31 (by decide))
      have h32 : ¬ b < 32 := by
        rw [UInt8.lt_iff_toNat_lt] at h31 ⊢
        simp only [UInt8.reduceToNat] at h31 ⊢
        omega
      simp [escapeLength, hq, hbs, hctl, h32]
    exact Or.inl ⟨by simp [escapeByte, h31, hq, hbs], hlen, hq, hbs⟩
  · refine Or.inr ?_
    -- the bytes with an escape of one letter, and the control bytes without one
    by_cases hshort : b = ch '\\' ∨ b = ch '"' ∨ b = 8 ∨ b = 12 ∨ b = 10 ∨ b = 13 ∨ b = 9
    · refine Or.inl ?_
      rcases hshort with rfl | rfl | rfl | rfl | rfl | rfl | rfl
      · exact ⟨ch '\\', by decide⟩
      · exact ⟨ch '"', by decide⟩
      · exact ⟨ch 'b', by decide⟩
      · exact ⟨ch 'f', by decide⟩
      · exact ⟨ch 'n', by decide⟩
      · exact ⟨ch 'r', by decide⟩
      · exact ⟨ch 't', by decide⟩
    · simp only [not_or] at hshort
      obtain ⟨hbs, hq, h8, h12, h10, h13, h9⟩ := hshort
      have hlt : b.toNat < 32 := by
        have h31 : ¬ 31 < b := fun h => hraw ⟨h, hq, hbs⟩
        rw [UInt8.lt_iff_toNat_lt] at h31
        simp only [UInt8.reduceToNat] at h31
        omega
      have h32 : b < 32 := UInt8.lt_iff_toNat_lt.mpr hlt
      refine Or.inr ⟨?_, ?_, hlt⟩
      · rw [escapeByte, if_neg hraw]
        simp [hbs, hq, h8, h12, h10, h13, h9]
      · simp [escapeLength, hbs, hq, h8, h12, h10, h13, h9, h32]

/-- The hexadecimal escape of a control byte. -/
theorem stringUnit_control (hb : b.toNat < 32) (h0 : b ≠ 0) :
    StringUnit [ch '\\', ch 'u', ch '0', ch '0', hexDigit (b.toNat / 16), hexDigit (b.toNat % 16)]
      [b] := by
  have hvalid : b.toUInt32.isValidChar := by
    left
    rw [UInt8.toNat_toUInt32]
    omega
  have hchar : (Char.mk b.toUInt32 hvalid).toNat = b.toNat := UInt8.toNat_toUInt32 b
  have hutf : String.utf8EncodeChar (Char.mk b.toUInt32 hvalid) = [b] := by
    rw [← utf8_eq, hchar]
    simp [utf8, show b.toNat < 0x80 by omega]
  have hdigit : ∀ v < 16, HexDigit (hexDigit v) v := fun v hv => ⟨hv, Or.inl rfl⟩
  have hhex := HexText.mk (hdigit 0 (by decide)) (hdigit 0 (by decide))
    (hdigit (b.toNat / 16) (by omega)) (hdigit (b.toNat % 16) (by omega))
  rw [show ((0 * 16 + 0) * 16 + b.toNat / 16) * 16 + b.toNat % 16 = b.toNat by omega, ← hchar]
    at hhex
  have h0' : (Char.mk b.toUInt32 hvalid).toNat ≠ 0 := fun h =>
    h0 (UInt8.toNat_inj.mp (hchar.symm.trans h))
  have hunit := StringUnit.basic h0' (by rw [hchar]; omega) hhex
  rw [hutf, hchar] at hunit
  exact hunit

/-- What is written for a byte is a unit that stands for it. -/
theorem stringUnit_escapeByte (h0 : b ≠ 0) : StringUnit (escapeByte b) [b] := by
  rcases escapeByte_cases b with ⟨he, -, hq, hbs⟩ | ⟨e, he, -, hmem⟩ | ⟨he, -, hlt⟩
  · rw [he]
    exact .plain h0 hq hbs
  · rw [he]
    exact .escape hmem
  · rw [he]
    exact stringUnit_control hlt h0

theorem length_escapeByte (b : Byte) : (escapeByte b).length = escapeLength b := by
  rcases escapeByte_cases b with ⟨h, hlen, -⟩ | ⟨e, h, hlen, -⟩ | ⟨h, hlen, -⟩
  all_goals
    rw [h, hlen]
    rfl

theorem length_escape (s : List Byte) :
    (s.flatMap escapeByte).length = (s.map escapeLength).sum := by
  rw [List.length_flatMap]
  congr 1
  exact List.map_congr_left fun b _ => length_escapeByte b

/-- **What the printer makes is a text of the string.** -/
theorem stringText_print {str : CStr} (h : printStringPtr str = .ok out) : StringText str out := by
  obtain ⟨u, hlen, hout⟩ := bind_eq_ok.mp h
  rw [checkInt_eq_ok] at hlen
  cases hout
  refine ⟨str.bytes.map fun b => (escapeByte b, [b]), ?_, ?_, ?_, ?_⟩
  · intro u hu
    obtain ⟨b, hb, rfl⟩ := List.mem_map.mp hu
    exact stringUnit_escapeByte fun h => str.nul_notMem (h ▸ hb)
  · simp [List.flatMap_map]
  · simp [List.flatMap_map]
  · simp only [List.length_append, List.length_cons, List.length_nil, length_escape]
    omega
