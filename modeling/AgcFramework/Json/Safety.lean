import AgcFramework.Json.Model

/-!
# The parser on any text

`parse_string` counts the bytes of a string in a first loop and writes them in a second one, which
takes other steps over the escapes; and the parser calls itself for every nested item. Whatever the
text is, the bytes fit and the parser returns, unless it reads behind the end of the text.

## Main definitions

* `Overruns text`: the text ends in a backslash, or an `int` does not count it
* `Good text r`: a result of the parser on the text, behind which less of the text is left

## Main results

* `decode_fits`: a string is not longer than the memory that is reserved for it
* `cJSONParse_returns`: `cJSON_Parse` returns, or the text overruns
-/

open Exec

variable {b c : Byte} {text t : List Byte} {n : ℕ}

/-! ## The two loops over a string -/

/-- A byte that is neither a quote nor a backslash is counted as one. -/
theorem scanLength_plain (hq : c ≠ ch '"') (hbs : c ≠ ch '\\')
    (h : scanLength (c :: text) = .ok n) :
    ∃ m, scanLength text = .ok m ∧ n = m + 1 := by
  cases text with
  | nil =>
    rw [scanLength, if_neg hq, if_neg hbs] at h
    cases h
    exact ⟨0, rfl, rfl⟩
  | cons d text =>
    rw [scanLength, if_neg hq, if_neg hbs] at h
    obtain ⟨m, hm, h⟩ := bind_eq_ok.mp h
    cases h
    exact ⟨m, hm, rfl⟩

/-- A backslash and the byte behind it are counted as one. -/
theorem scanLength_escaped (h : scanLength (ch '\\' :: text) = .ok n) :
    ∃ d rest m, text = d :: rest ∧ scanLength rest = .ok m ∧ n = m + 1 := by
  cases text with
  | nil => cases h
  | cons d text =>
    rw [scanLength, if_neg (by decide), if_pos rfl] at h
    obtain ⟨m, hm, h⟩ := bind_eq_ok.mp h
    cases h
    exact ⟨d, text, m, rfl, hm, rfl⟩

theorem isHexdigit_ne (h : isHexdigit c = true) : c ≠ ch '"' ∧ c ≠ ch '\\' := by
  constructor
  · rintro rfl
    exact absurd h (by decide)
  · rintro rfl
    exact absurd h (by decide)

/-- Four hexadecimal digits are counted as four. -/
theorem scanLength_unicode {uc : ℕ} (hu : scanUnicode text = some uc)
    (h : scanLength text = .ok n) : ∃ m, scanLength (text.drop 4) = .ok m ∧ n = m + 4 := by
  unfold scanUnicode at hu
  split at hu
  · rename_i a b c d rest
    split_ifs at hu with hhex
    simp only [Bool.and_eq_true] at hhex
    obtain ⟨⟨⟨ha, hb⟩, hc⟩, hd⟩ := hhex
    obtain ⟨n₁, h₁, rfl⟩ := scanLength_plain (isHexdigit_ne ha).1 (isHexdigit_ne ha).2 h
    obtain ⟨n₂, h₂, rfl⟩ := scanLength_plain (isHexdigit_ne hb).1 (isHexdigit_ne hb).2 h₁
    obtain ⟨n₃, h₃, rfl⟩ := scanLength_plain (isHexdigit_ne hc).1 (isHexdigit_ne hc).2 h₂
    obtain ⟨n₄, h₄, rfl⟩ := scanLength_plain (isHexdigit_ne hd).1 (isHexdigit_ne hd).2 h₃
    exact ⟨n₄, h₄, rfl⟩
  · cases hu

theorem length_utf8 (uc : ℕ) : (utf8 uc).length ≤ 4 := by
  unfold utf8
  simp only
  split_ifs
  all_goals simp

/-- What a hexadecimal escape writes, with what the rest of the text is counted for, is not more
than what the escape was counted for. -/
theorem transcode_fits (h : scanLength text = .ok n) :
    ∃ m, scanLength (transcode text).2 = .ok m ∧ (transcode text).1.length + m ≤ n := by
  unfold transcode
  split
  · exact ⟨n, h, by simp⟩
  · rename_i uc huc
    obtain ⟨m, hm, rfl⟩ := scanLength_unicode huc h
    have hlen := length_utf8 uc
    generalize text.drop 4 = rest at hm
    simp only
    split_ifs
    · exact ⟨m, hm, by simp⟩
    · -- a pair of surrogates
      split
      · rename_i b u second
        split_ifs with hpair
        · exact ⟨m, hm, by simp⟩
        · rw [not_or, not_not, not_not] at hpair
          obtain ⟨rfl, rfl⟩ := hpair
          obtain ⟨d, rest, k, hrest, hk, rfl⟩ := scanLength_escaped hm
          obtain ⟨rfl, rfl⟩ := List.cons.inj hrest
          split
          · exact ⟨k + 1, hm, by simp⟩
          · rename_i uc2 huc2
            obtain ⟨j, hj, rfl⟩ := scanLength_unicode huc2 hk
            split_ifs
            · refine ⟨j, hj, ?_⟩
              simp only [List.length_nil]
              omega
            · have hlen' := length_utf8 (0x10000 ||| ((uc &&& 0x3FF) <<< 10) ||| (uc2 &&& 0x3FF))
              refine ⟨j, hj, ?_⟩
              simp only
              omega
      · exact ⟨m, hm, by simp⟩
    · refine ⟨m, hm, ?_⟩
      simp only
      omega

/-- **A string fits the memory that is reserved for it**: whatever the text behind its quote is, the
second loop of `parse_string` writes no more bytes than the first one has counted. -/
theorem decode_fits (text : List Byte) {n : ℕ} (h : scanLength text = .ok n) :
    (decode text).1.length ≤ n := by
  induction hlen : text.length using Nat.strongRecOn generalizing text n with
  | ind k ih =>
    cases text with
    | nil =>
      rw [decode]
      exact Nat.zero_le _
    | cons c text =>
      rw [List.length_cons] at hlen
      rw [decode]
      split_ifs with hq
      · exact Nat.zero_le _
      · have hunit := length_decodeUnit c text
        -- the unit is shorter than what it is counted for, and the loops are in step behind it
        suffices hstep : ∃ m, scanLength (decodeUnit c text).2 = .ok m ∧
            (decodeUnit c text).1.length + m ≤ n by
          obtain ⟨m, hm, hle⟩ := hstep
          have hrest := ih _ (by omega) _ hm rfl
          rw [List.length_append]
          omega
        by_cases hbs : c = ch '\\'
        · subst hbs
          obtain ⟨d, rest, m, rfl, hm, rfl⟩ := scanLength_escaped h
          unfold decodeUnit
          rw [if_neg (not_not.mpr rfl)]
          simp only
          split_ifs
          · obtain ⟨j, hj, hle⟩ := transcode_fits hm
            exact ⟨j, hj, by omega⟩
          · exact ⟨m, hm, by simp; omega⟩
        · obtain ⟨m, hm, rfl⟩ := scanLength_plain hq hbs h
          unfold decodeUnit
          rw [if_pos hbs]
          exact ⟨m, hm, by simp; omega⟩

/-- An escape of one byte and one of three. -/
theorem decode_fits_escapes :
    (decode (CStr.ofString "a\\n\\u20ac\"").bytes).1.length ≤ 7 := by
  refine decode_fits _ ?_
  rfl

/-! ## What is left of the text -/

theorem transcode_suffix (text : List Byte) : (transcode text).2 <:+ text := by
  have hdrop := List.drop_suffix 4 text
  unfold transcode
  split
  · exact List.suffix_refl _
  · generalize text.drop 4 = rest at hdrop
    simp only
    split_ifs
    · exact hdrop
    · split
      · rename_i b u second
        have hsecond : second.drop 4 <:+ text :=
          (List.drop_suffix 4 second).trans (((List.suffix_cons u second).trans
            (List.suffix_cons b _)).trans hdrop)
        split_ifs
        · exact hdrop
        · split
          · exact hdrop
          · split_ifs
            · exact hsecond
            · exact hsecond
      · exact hdrop
    · exact hdrop

theorem decodeUnit_suffix (c : Byte) (text : List Byte) : (decodeUnit c text).2 <:+ text := by
  unfold decodeUnit
  split_ifs
  · exact List.suffix_refl _
  · split
    · exact List.suffix_refl _
    · rename_i e text
      split_ifs
      · exact (transcode_suffix text).trans (List.suffix_cons e text)
      · exact List.suffix_cons e text

theorem decode_suffix (text : List Byte) : (decode text).2 <:+ text := by
  induction hlen : text.length using Nat.strongRecOn generalizing text with
  | ind k ih =>
    cases text with
    | nil => simp [decode]
    | cons c text =>
      rw [List.length_cons] at hlen
      rw [decode]
      split_ifs
      · exact List.suffix_refl _
      · have hunit := length_decodeUnit c text
        have hrest := ih _ (by omega) (decodeUnit c text).2 rfl
        exact hrest.trans ((decodeUnit_suffix c text).trans (List.suffix_cons c text))

theorem skip_suffix (text : List Byte) : skip text <:+ text := List.dropWhile_suffix _

theorem skipDigits_suffix (text : List Byte) : skipDigits text <:+ text := List.dropWhile_suffix _

theorem skipExponent_suffix (text : List Byte) : skipExponent text <:+ text := by
  unfold skipExponent
  split
  · rename_i e text'
    split_ifs
    · split
      · rename_i sign text''
        split_ifs
        · exact (skipDigits_suffix text'').trans ((List.suffix_cons sign text'').trans
            (List.suffix_cons e _))
        · exact (skipDigits_suffix _).trans (List.suffix_cons e _)
      · exact List.nil_suffix
    · exact List.suffix_refl _
  · exact List.suffix_refl _

theorem skipFraction_suffix (text : List Byte) : skipFraction text <:+ text := by
  unfold skipFraction
  split
  · rename_i dot d text'
    split_ifs
    · exact (skipDigits_suffix _).trans (List.suffix_cons dot _)
    · exact List.suffix_refl _
  · exact List.suffix_refl _

theorem skipInteger_suffix (text : List Byte) : skipInteger text <:+ text := by
  rcases text with _ | ⟨z, text⟩
  · exact List.suffix_refl _
  · simp only [skipInteger]
    split_ifs
    · rcases text with _ | ⟨d, text⟩
      · exact List.suffix_cons _ _
      · simp only
        split_ifs
        · exact (skipDigits_suffix _).trans (List.suffix_cons _ _)
        · exact List.suffix_cons _ _
    all_goals simp only
    all_goals split_ifs
    · exact skipDigits_suffix _
    · exact List.suffix_refl _

/-- At a digit the integer part has that digit at least. -/
theorem skipInteger_cons (h : ch '0' ≤ c ∧ c ≤ ch '9') (text : List Byte) :
    skipInteger (c :: text) <:+ text := by
  unfold skipInteger
  by_cases hz : c = ch '0'
  · simp only [if_pos hz]
    split
    · split_ifs
      · exact skipDigits_suffix _
      · exact List.suffix_refl _
    · exact List.suffix_refl _
  · have h1 : ch '1' ≤ c ∧ c ≤ ch '9' := by
      refine ⟨?_, h.2⟩
      have hne : c.toNat ≠ 48 := fun he => hz (UInt8.toNat_inj.mp he)
      have hle : 48 ≤ c.toNat := UInt8.le_iff_toNat_le.mp h.1
      refine UInt8.le_iff_toNat_le.mpr ?_
      show 49 ≤ c.toNat
      omega
    simp only [if_neg hz, if_pos h1]
    have hskip : skipDigits (c :: text) = skipDigits text :=
      List.dropWhile_cons_of_pos (decide_eq_true h)
    rw [hskip]
    exact skipDigits_suffix text

theorem parseNumber_suffix (h : c = ch '-' ∨ ch '0' ≤ c ∧ c ≤ ch '9') (text : List Byte) :
    (parseNumber (c :: text)).2 <:+ text := by
  have htail : ∀ u, skipExponent (skipFraction (skipInteger u)) <:+ skipInteger u := fun u =>
    (skipExponent_suffix _).trans (skipFraction_suffix _)
  unfold parseNumber
  simp only
  by_cases hs : c = ch '-'
  · rw [if_pos hs]
    exact (htail text).trans (skipInteger_suffix text)
  · rw [if_neg hs]
    exact (htail _).trans (skipInteger_cons (h.resolve_left hs) text)

/-! ## The results of the parser -/

/-- The text ends in a backslash, behind which the first loop of `parse_string` would read, or it
has more bytes than an `int` counts. -/
def Overruns (text : List Byte) : Prop := text.getLast? = some (ch '\\') ∨ INT_MAX ≤ text.length

/-- A result on the text: an item with less of the text behind it, a null result, or a fault on a
text that overruns. -/
def Good {β : Type} (text : List Byte) : Exec (Option (β × List Byte)) → Prop
  | .error .fuel => False
  | .error .fault => Overruns text
  | .ok none => True
  | .ok (some (_, rest)) => rest <:+ text ∧ rest.length < text.length

section Good

variable {β γ : Type} {r : Exec (Option (β × List Byte))}

theorem Overruns.of_suffix (h : Overruns t) (hs : t <:+ text) : Overruns text := by
  obtain ⟨u, rfl⟩ := hs
  refine h.imp (fun hlast => ?_) fun hle => ?_
  · rw [List.getLast?_append, hlast]
    rfl
  · rw [List.length_append]
    omega

theorem Good.of_suffix (h : Good t r) (hs : t <:+ text) : Good text r := by
  unfold Good at h ⊢
  split
  · exact h
  · exact Overruns.of_suffix h hs
  · trivial
  · exact ⟨h.1.trans hs, h.2.trans_le hs.length_le⟩

theorem Good.item {a : β} (hs : t <:+ text) (hlt : t.length < text.length) :
    Good text (.ok (some (a, t))) := ⟨hs, hlt⟩

/-- One call of the parser after another. -/
theorem Good.andThen (h : Good text r) {f : β × List Byte → Exec (Option (γ × List Byte))}
    (hf : ∀ a rest, rest <:+ text → rest.length < text.length → Good text (f (a, rest))) :
    Good text (Exec.andThen r f) := by
  rcases r with e | o
  · cases e with
    | fault => exact h
    | fuel => exact h
  · cases o with
    | none => trivial
    | some x => exact hf x.1 x.2 h.1 h.2

end Good

/-- The first loop of `parse_string` counts the bytes, or reads behind the end of the text. -/
theorem scanLength_total (text : List Byte) :
    (∃ n ≤ text.length, scanLength text = .ok n) ∨
      (scanLength text = .error .fault ∧ text.getLast? = some (ch '\\')) := by
  induction hlen : text.length using Nat.strongRecOn generalizing text with
  | ind k ih =>
    match text with
    | [] => exact Or.inl ⟨0, Nat.zero_le _, rfl⟩
    | [c] =>
      by_cases hq : c = ch '"'
      · exact Or.inl ⟨0, Nat.zero_le _, if_pos hq⟩
      · by_cases hbs : c = ch '\\'
        · subst hbs
          exact Or.inr ⟨rfl, rfl⟩
        · exact Or.inl ⟨1, hlen.le, (if_neg hq).trans (if_neg hbs)⟩
    | c :: d :: text =>
      rw [List.length_cons, List.length_cons] at hlen
      rw [scanLength]
      split_ifs with hq hbs
      · exact Or.inl ⟨0, Nat.zero_le _, rfl⟩
      · -- the byte behind a backslash is not looked at
        rcases ih _ (by omega) text rfl with ⟨n, hn, h⟩ | ⟨h, hlast⟩
        · exact Or.inl ⟨n + 1, by omega, by rw [h]; rfl⟩
        · refine Or.inr ⟨by rw [h]; rfl, ?_⟩
          rw [List.getLast?_cons, List.getLast?_cons, hlast]
          rfl
      · rcases ih (d :: text).length (by rw [List.length_cons]; omega) (d :: text) rfl with
          ⟨n, hn, h⟩ | ⟨h, hlast⟩
        · rw [List.length_cons] at hn
          exact Or.inl ⟨n + 1, by omega, by rw [h]; rfl⟩
        · refine Or.inr ⟨by rw [h]; rfl, ?_⟩
          rw [List.getLast?_cons, hlast]
          rfl

theorem parseString_good (text : List Byte) : Good text (parseString text) := by
  unfold parseString
  split
  · trivial
  · rename_i c text
    split_ifs
    · trivial
    · have hover : Overruns text → Overruns (c :: text) := fun h =>
        h.of_suffix (List.suffix_cons c text)
      rcases scanLength_total text with ⟨n, hn, h⟩ | ⟨h, hlast⟩
      · rw [h, ok_bind]
        by_cases hmax : n + 1 ≤ INT_MAX
        · rw [checkInt_of_le hmax, ok_bind]
          have hdecode := decode_suffix text
          have hgood : ∀ rest : List Byte, rest <:+ text →
              rest <:+ c :: text ∧ rest.length < (c :: text).length := fun rest hrest =>
            ⟨hrest.trans (List.suffix_cons c text), Nat.lt_succ_of_le hrest.length_le⟩
          rcases hd : (decode text).2 with _ | ⟨q, rest⟩
          · simp only [hd]
            exact hgood [] List.nil_suffix
          · rw [hd] at hdecode
            simp only [hd]
            split_ifs
            · exact hgood rest ((List.suffix_cons q rest).trans hdecode)
            · exact hgood (q :: rest) hdecode
        · have hcheck : checkInt (n + 1) = .error .fault := if_neg hmax
          rw [hcheck]
          exact hover (Or.inr (by omega))
      · rw [h]
        exact hover (Or.inl hlast)

/-! ## The recursion -/

/-- With enough fuel for a text, every function of the parser has a good result on it. -/
structure ParserGood (fuel : ℕ) : Prop where
  value : ∀ text : List Byte, 2 * text.length + 2 ≤ fuel → Good text (parseValue fuel text)
  array : ∀ text : List Byte, 2 * text.length + 1 ≤ fuel → Good text (parseArray fuel text)
  items : ∀ (items : List Json) (text : List Byte), 2 * text.length + 1 ≤ fuel →
    Good text (arrayLoop fuel items text)
  object : ∀ text : List Byte, 2 * text.length + 1 ≤ fuel → Good text (parseObject fuel text)
  members : ∀ (members : List (CStr × Json)) (text : List Byte), 2 * text.length + 1 ≤ fuel →
    Good text (objectLoop fuel members text)
  member : ∀ text : List Byte, 2 * text.length + 1 ≤ fuel → Good text (parseMember fuel text)

/-- A word of the grammar. -/
theorem Good.word {item : Json} {word : List Byte} (h : word.isPrefixOf text = true)
    (hpos : 0 < word.length) : Good text (.ok (some (item, text.drop word.length))) := by
  have hle := (List.isPrefixOf_iff_prefix.mp h).length_le
  refine Good.item (List.drop_suffix _ _) ?_
  rw [List.length_drop]
  omega

namespace ParserGood

variable {fuel : ℕ} (h : ParserGood fuel)

include h

theorem succ_value (text : List Byte) (hf : 2 * text.length + 2 ≤ fuel + 1) :
    Good text (parseValue (fuel + 1) text) := by
  cases text with
  | nil => trivial
  | cons c text =>
    rw [parseValue]
    split_ifs with hnull hfalse htrue hq hnum
    · exact Good.word hnull (by decide)
    · exact Good.word hfalse (by decide)
    · exact Good.word htrue (by decide)
    · exact (parseString_good _).andThen fun a rest hs hlt => Good.item hs hlt
    · have hrest := parseNumber_suffix hnum text
      exact Good.item (hrest.trans (List.suffix_cons c text)) (Nat.lt_succ_of_le hrest.length_le)
    · exact h.array _ (by omega)
    · exact h.object _ (by omega)
    · trivial

/-- A value behind white space, in what is left of the text. -/
theorem value_behind {rest : List Byte} (hs : rest <:+ text) (hf : 2 * rest.length + 2 ≤ fuel) :
    Good text (parseValue fuel (skip rest)) := by
  have hskip := skip_suffix rest
  have hle := hskip.length_le
  exact (h.value _ (by omega)).of_suffix (hskip.trans hs)

theorem member_behind {rest : List Byte} (hs : rest <:+ text) (hf : 2 * rest.length + 1 ≤ fuel) :
    Good text (parseMember fuel (skip rest)) := by
  have hskip := skip_suffix rest
  have hle := hskip.length_le
  exact (h.member _ (by omega)).of_suffix (hskip.trans hs)

theorem items_behind (items : List Json) {rest : List Byte} (hs : rest <:+ text)
    (hf : 2 * rest.length + 1 ≤ fuel) : Good text (arrayLoop fuel items (skip rest)) := by
  have hskip := skip_suffix rest
  have hle := hskip.length_le
  exact (h.items items _ (by omega)).of_suffix (hskip.trans hs)

theorem members_behind (members : List (CStr × Json)) {rest : List Byte} (hs : rest <:+ text)
    (hf : 2 * rest.length + 1 ≤ fuel) : Good text (objectLoop fuel members (skip rest)) := by
  have hskip := skip_suffix rest
  have hle := hskip.length_le
  exact (h.members members _ (by omega)).of_suffix (hskip.trans hs)

theorem succ_array (text : List Byte) (hf : 2 * text.length + 1 ≤ fuel + 1) :
    Good text (parseArray (fuel + 1) text) := by
  cases text with
  | nil => trivial
  | cons c text =>
    rw [List.length_cons] at hf
    have hskip := skip_suffix text
    have hle := hskip.length_le
    have hs := hskip.trans (List.suffix_cons c text)
    rw [parseArray]
    split_ifs
    · trivial
    · have htail := (List.tail_suffix (skip text)).trans hskip
      exact Good.item (htail.trans (List.suffix_cons c text)) (Nat.lt_succ_of_le htail.length_le)
    · refine (h.value_behind hs (by omega)).andThen fun item rest hrest hlt => ?_
      rw [List.length_cons] at hlt
      exact h.items_behind _ hrest (by omega)

theorem succ_object (text : List Byte) (hf : 2 * text.length + 1 ≤ fuel + 1) :
    Good text (parseObject (fuel + 1) text) := by
  cases text with
  | nil => trivial
  | cons c text =>
    rw [List.length_cons] at hf
    have hskip := skip_suffix text
    have hle := hskip.length_le
    have hs := hskip.trans (List.suffix_cons c text)
    rw [parseObject]
    split_ifs
    · trivial
    · have htail := (List.tail_suffix (skip text)).trans hskip
      exact Good.item (htail.trans (List.suffix_cons c text)) (Nat.lt_succ_of_le htail.length_le)
    · refine (h.member_behind hs (by omega)).andThen fun member rest hrest hlt => ?_
      rw [List.length_cons] at hlt
      exact h.members_behind _ hrest (by omega)

theorem succ_items (items : List Json) (text : List Byte)
    (hf : 2 * text.length + 1 ≤ fuel + 1) : Good text (arrayLoop (fuel + 1) items text) := by
  cases text with
  | nil => trivial
  | cons c text =>
    rw [List.length_cons] at hf
    have hs := List.suffix_cons c text
    rw [arrayLoop]
    split_ifs
    · refine (h.value_behind hs (by omega)).andThen fun item rest hrest hlt => ?_
      rw [List.length_cons] at hlt
      exact h.items_behind _ hrest (by omega)
    · exact Good.item hs (Nat.lt_succ_self _)
    · trivial

theorem succ_members (members : List (CStr × Json)) (text : List Byte)
    (hf : 2 * text.length + 1 ≤ fuel + 1) : Good text (objectLoop (fuel + 1) members text) := by
  cases text with
  | nil => trivial
  | cons c text =>
    rw [List.length_cons] at hf
    have hs := List.suffix_cons c text
    rw [objectLoop]
    split_ifs
    · refine (h.member_behind hs (by omega)).andThen fun member rest hrest hlt => ?_
      rw [List.length_cons] at hlt
      exact h.members_behind _ hrest (by omega)
    · exact Good.item hs (Nat.lt_succ_self _)
    · trivial

theorem succ_member (text : List Byte) (hf : 2 * text.length + 1 ≤ fuel + 1) :
    Good text (parseMember (fuel + 1) text) := by
  rw [parseMember]
  refine (parseString_good text).andThen fun name rest hrest hlt => ?_
  simp only
  have hskip := skip_suffix rest
  have hle := hskip.length_le
  split
  · trivial
  · rename_i c value hvalue
    have hs : value <:+ text := by
      refine (List.suffix_cons c value).trans ?_
      rw [← hvalue]
      exact hskip.trans hrest
    rw [hvalue, List.length_cons] at hle
    split_ifs
    · trivial
    · refine (h.value_behind hs (by omega)).andThen fun item rest hrest hlt => ?_
      exact Good.item hrest hlt

end ParserGood

theorem parserGood (fuel : ℕ) : ParserGood fuel := by
  induction fuel with
  | zero =>
    refine ⟨?_, ?_, ?_, ?_, ?_, ?_⟩
    all_goals
      intros
      omega
  | succ fuel ih =>
    exact ⟨ih.succ_value, ih.succ_array, ih.succ_items, ih.succ_object, ih.succ_members,
      ih.succ_member⟩

/-- **The parser returns.** Whatever the text is, `cJSON_Parse` makes an item or gives up, with its
calls nested at most twice as deep as the text is long, and two more; or the text ends in a
backslash or is too long for an `int`, and the parser may read behind its end. The value of a number
is not computed here, nor is its exponent counted in an `int`. -/
theorem cJSONParse_returns (value : CStr) {fuel : ℕ} (hf : 2 * value.bytes.length + 2 ≤ fuel) :
    (∃ r, cJSONParse fuel value = .ok r) ∨
      (cJSONParse fuel value = .error .fault ∧ Overruns value.bytes) := by
  have hskip := skip_suffix value.bytes
  have hle := hskip.length_le
  have hgood := (parserGood fuel).value (skip value.bytes) (by omega)
  rw [cJSONParse]
  rcases h : parseValue fuel (skip value.bytes) with e | r
  · rw [h] at hgood
    cases e with
    | fault => exact Or.inr ⟨rfl, Overruns.of_suffix hgood hskip⟩
    | fuel => exact hgood.elim
  · exact Or.inl ⟨_, rfl⟩

/-- A string that ends in a backslash. -/
theorem cJSONParse_returns_backslash :
    (∃ r, cJSONParse 10 (CStr.ofString "\"\\") = .ok r) ∨
      (cJSONParse 10 (CStr.ofString "\"\\") = .error .fault ∧
        Overruns (CStr.ofString "\"\\").bytes) :=
  cJSONParse_returns _ (by decide)
