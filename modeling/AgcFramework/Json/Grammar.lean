import AgcFramework.Json.RoundTrip

/-!
# White space between the tokens

The parser skips the bytes up to the space in front of every token. The texts of an item are those
with any white space there, any texts of its strings and names, and any text of a number that the
item holds; `cJSON_Print`, which indents its text, writes one of them.

## Main definitions

* `Space`, `NumberText`: white space and the texts of numbers
* `Json.Writes item out`: `out` is a text of the item
* `cJSONPrint`: the indented text

## Main results

* `parseNumber_eq`: `parse_number` takes the whole text of a number
* `parseValue_writes`: the parser reads an item from each of its texts
* `writes_printValue`: what the printer makes is a text of the item, indented or not
* `cJSONParse_writes`, `cJSONParse_cJSONPrint`: the same of the whole functions
-/

open Exec

variable {b c : Byte} {s t out text : List Byte}

/-! ## Numbers -/

/-- White space. -/
def Space (w : List Byte) : Prop := ∀ b ∈ w, b ≠ 0 ∧ b ≤ 32

theorem Space.nil : Space [] := by
  rintro b ⟨⟩

theorem skip_space {w : List Byte} (hw : Space w) (text : List Byte) :
    skip (w ++ text) = skip text := by
  rw [skip, List.dropWhile_append_of_pos]
  · rfl
  · intro b hb
    exact decide_eq_true (hw b hb).2

/-- A digit. -/
def IsDigit (b : Byte) : Prop := ch '0' ≤ b ∧ b ≤ ch '9'

/-- What may stand behind a number: white space, a comma or a closing bracket, or nothing. -/
def Follows (text : List Byte) : Prop :=
  ∀ b rest, text = b :: rest → b ≤ 32 ∨ b = ch ',' ∨ b = ch ']' ∨ b = ch '}'

/-- A byte behind a number is none of those that a number goes on with. -/
theorem Follows.ne (h : Follows (b :: text)) :
    ¬ IsDigit b ∧ b ≠ ch '.' ∧ b ≠ ch 'e' ∧ b ≠ ch 'E' := by
  have hb : b ≤ 32 ∨ b = ch ',' ∨ b = ch ']' ∨ b = ch '}' := h b text rfl
  rcases hb with hb | rfl | rfl | rfl
  · have hlt : b < ch '.' := UInt8.lt_of_le_of_lt hb (show (32 : Byte) < ch '.' by decide)
    have hdigit : ¬ ch '0' ≤ b :=
      UInt8.not_le.mpr (UInt8.lt_trans hlt (show ch '.' < ch '0' by decide))
    refine ⟨fun hd => hdigit hd.1, UInt8.ne_of_lt hlt, ?_, ?_⟩
    · exact UInt8.ne_of_lt (UInt8.lt_trans hlt (show ch '.' < ch 'e' by decide))
    · exact UInt8.ne_of_lt (UInt8.lt_trans hlt (show ch '.' < ch 'E' by decide))
  all_goals
    refine ⟨?_, by decide, by decide, by decide⟩
    rintro ⟨h₁, h₂⟩
    revert h₁ h₂
    decide

/-- The texts of the integer parts. -/
def IntText (t : List Byte) : Prop :=
  t = [ch '0'] ∨ ∃ d ds, t = d :: ds ∧ ch '1' ≤ d ∧ d ≤ ch '9' ∧ ∀ b ∈ ds, IsDigit b

/-- The texts of the fractions. -/
def FractionText (t : List Byte) : Prop :=
  t = [] ∨ ∃ d ds, t = ch '.' :: d :: ds ∧ ∀ b ∈ d :: ds, IsDigit b

/-- The texts of the exponents. -/
def ExponentText (t : List Byte) : Prop :=
  t = [] ∨ ∃ e sign d ds, t = e :: sign ++ d :: ds ∧ (e = ch 'e' ∨ e = ch 'E') ∧
    (sign = [] ∨ sign = [ch '+'] ∨ sign = [ch '-']) ∧ ∀ b ∈ d :: ds, IsDigit b

/-- The texts of the numbers. -/
def NumberText (t : List Byte) : Prop :=
  ∃ sign int frac exp, t = sign ++ (int ++ (frac ++ exp)) ∧ (sign = [] ∨ sign = [ch '-']) ∧
    IntText int ∧ FractionText frac ∧ ExponentText exp

/-- The text does not go on with a digit. -/
def NoDigit (text : List Byte) : Prop := ∀ b rest, text = b :: rest → ¬ IsDigit b

theorem skipDigits_append {ds : List Byte} (hds : ∀ b ∈ ds, IsDigit b) (ht : NoDigit text) :
    skipDigits (ds ++ text) = text := by
  rw [skipDigits, List.dropWhile_append_of_pos]
  · cases text with
    | nil => rfl
    | cons b text =>
      apply List.dropWhile_cons_of_neg
      rw [decide_eq_true_eq]
      exact ht b text rfl
  · intro b hb
    exact decide_eq_true (hds b hb)

theorem Follows.noDigit (h : Follows text) : NoDigit text := by
  rintro b rest rfl
  exact h.ne.1

theorem skipExponent_append (ht : ExponentText t) (h : Follows text) :
    skipExponent (t ++ text) = text := by
  rcases ht with rfl | ⟨e, sign, d, ds, rfl, he, hsign, hds⟩
  · cases text with
    | nil => rfl
    | cons b text =>
      obtain ⟨-, -, he, hE⟩ := h.ne
      exact if_neg (not_or.mpr ⟨he, hE⟩)
  · have hd := hds d List.mem_cons_self
    have hne : ¬ (d = ch '+' ∨ d = ch '-') := by
      rintro (rfl | rfl)
      · exact absurd hd.1 (by decide)
      · exact absurd hd.1 (by decide)
    have hskip := skipDigits_append hds h.noDigit
    rcases hsign with rfl | rfl | rfl
    · exact (if_pos he).trans ((if_neg hne).trans hskip)
    · exact (if_pos he).trans ((if_pos (Or.inl rfl)).trans hskip)
    · exact (if_pos he).trans ((if_pos (Or.inr rfl)).trans hskip)

/-- An exponent with what follows it does not begin like a fraction. -/
theorem exponent_head (ht : ExponentText t) (h : Follows text) :
    ∀ b rest, t ++ text = b :: rest → ¬ IsDigit b ∧ b ≠ ch '.' := by
  rcases ht with rfl | ⟨e, sign, d, ds, rfl, he, -, -⟩
  · rintro b rest rfl
    exact ⟨h.ne.1, h.ne.2.1⟩
  · rintro b rest hb
    obtain ⟨rfl, -⟩ := List.cons.inj hb
    rcases he with rfl | rfl
    · exact ⟨fun hd => absurd hd.2 (by decide), by decide⟩
    · exact ⟨fun hd => absurd hd.2 (by decide), by decide⟩

theorem skipFraction_append (ht : FractionText t)
    (h : ∀ b rest, text = b :: rest → ¬ IsDigit b ∧ b ≠ ch '.') :
    skipFraction (t ++ text) = text := by
  rcases ht with rfl | ⟨d, ds, rfl, hds⟩
  · cases text with
    | nil => rfl
    | cons b text =>
      cases text with
      | nil => rfl
      | cons d text => exact if_neg fun hdot => (h b _ rfl).2 hdot.1
  · have hd := hds d List.mem_cons_self
    have hskip := skipDigits_append hds fun b rest hb => (h b rest hb).1
    exact (if_pos ⟨rfl, hd.1, hd.2⟩).trans hskip

theorem skipInteger_append (ht : IntText t) (h : NoDigit text) :
    skipInteger (t ++ text) = text := by
  rcases ht with rfl | ⟨d, ds, rfl, h1, h9, hds⟩
  · cases text with
    | nil => rfl
    | cons b text =>
      refine if_neg fun hd => h b text rfl ⟨?_, hd.2⟩
      exact UInt8.le_trans (show ch '0' ≤ ch '1' by decide) hd.1
  · have hne : d ≠ ch '0' := by
      rintro rfl
      exact absurd h1 (by decide)
    have hd : IsDigit d := ⟨UInt8.le_trans (show ch '0' ≤ ch '1' by decide) h1, h9⟩
    have hdigits : ∀ b ∈ d :: ds, IsDigit b := List.forall_mem_cons.mpr ⟨hd, hds⟩
    have hskip := skipDigits_append hdigits h
    unfold skipInteger
    simp only [List.cons_append, if_neg hne, if_pos (And.intro h1 h9)]
    exact hskip

/-- **The whole text of a number is taken.** -/
theorem parseNumber_eq (ht : NumberText t) (h : Follows text) :
    parseNumber (t ++ text) = (t, text) := by
  obtain ⟨sign, int, frac, exp, rfl, hsign, hint, hfrac, hexp⟩ := ht
  have hexp' := skipExponent_append hexp h
  have hhead := exponent_head hexp h
  have hfrac' : skipFraction (frac ++ (exp ++ text)) = exp ++ text :=
    skipFraction_append hfrac hhead
  have hnodigit : NoDigit (frac ++ (exp ++ text)) := by
    rcases hfrac with rfl | ⟨d, ds, rfl, -⟩
    · exact fun b rest hb => (hhead b rest hb).1
    · intro b rest hb hd
      obtain ⟨rfl, -⟩ := List.cons.inj hb
      exact absurd hd.1 (by decide)
  have hint' : skipInteger (int ++ (frac ++ (exp ++ text))) = frac ++ (exp ++ text) :=
    skipInteger_append hint hnodigit
  have hrest : skipExponent (skipFraction (skipInteger (int ++ (frac ++ (exp ++ text))))) =
      text := by
    rw [hint', hfrac', hexp']
  -- an integer part does not begin with a sign
  have hminus : ∀ rest, int ++ rest ≠ [] ∧ (int ++ rest).head? ≠ some (ch '-') := by
    rcases hint with rfl | ⟨d, ds, rfl, h1, -, -⟩
    · refine fun rest => ⟨List.cons_ne_nil _ _, fun hd => ?_⟩
      exact absurd (Option.some.inj hd) (by decide)
    · refine fun rest => ⟨List.cons_ne_nil _ _, fun hd => ?_⟩
      obtain rfl := Option.some.inj hd
      exact absurd h1 (by decide)
  have htake : ∀ u : List Byte, (u ++ text).take ((u ++ text).length - text.length) = u := by
    intro u
    rw [List.length_append, Nat.add_sub_cancel, List.take_left]
  rcases hsign with rfl | rfl
  · obtain ⟨hne, hhead'⟩ := hminus (frac ++ (exp ++ text))
    obtain ⟨b, rest, hb⟩ := List.exists_cons_of_ne_nil hne
    have hbm : b ≠ ch '-' := by
      rintro rfl
      rw [hb] at hhead'
      exact hhead' rfl
    simp only [List.nil_append, List.append_assoc, parseNumber]
    rw [hb] at hrest ⊢
    simp only [if_neg hbm, hrest]
    have htake' := htake (int ++ (frac ++ exp))
    simp only [List.append_assoc, hb] at htake'
    rw [htake']
  · have htake' := htake ([ch '-'] ++ (int ++ (frac ++ exp)))
    simp only [List.append_assoc, List.cons_append, List.nil_append] at htake'
    simp only [List.cons_append, List.nil_append, List.append_assoc, parseNumber, if_true, hrest,
      htake']

/-! ## The texts of an item -/

mutual

/-- A text of the item, with any white space in front of the tokens. -/
def Json.Writes : Json → List Byte → Prop
  | .null, out => out = [ch 'n', ch 'u', ch 'l', ch 'l']
  | .false, out => out = [ch 'f', ch 'a', ch 'l', ch 's', ch 'e']
  | .true, out => out = [ch 't', ch 'r', ch 'u', ch 'e']
  | .number text, out => out = text ∧ NumberText text
  | .string str, out => StringText str out
  | .array [], out => ∃ w, Space w ∧ out = ch '[' :: w ++ [ch ']']
  | .array (item :: items), out => ∃ w ret tail, Space w ∧ item.Writes ret ∧
      WritesItems items tail ∧ out = ch '[' :: w ++ ret ++ tail ++ [ch ']']
  | .object [], out => ∃ w, Space w ∧ out = ch '{' :: w ++ [ch '}']
  | .object ((name, item) :: members), out => ∃ w str w₁ w₂ ret tail, Space w ∧
      StringText name str ∧ Space w₁ ∧ Space w₂ ∧ item.Writes ret ∧
      WritesMembers members tail ∧
      out = ch '{' :: w ++ (str ++ w₁ ++ ch ':' :: w₂ ++ ret) ++ tail ++ [ch '}']

/-- What stands behind the first item of an array, without the bracket. -/
def WritesItems : List Json → List Byte → Prop
  | [], out => Space out
  | item :: items, out => ∃ w w' ret tail, Space w ∧ Space w' ∧ item.Writes ret ∧
      WritesItems items tail ∧ out = w ++ ch ',' :: w' ++ ret ++ tail

/-- What stands behind the first member of an object, without the brace. -/
def WritesMembers : List (CStr × Json) → List Byte → Prop
  | [], out => Space out
  | (name, item) :: members, out => ∃ w w' str w₁ w₂ ret tail, Space w ∧ Space w' ∧
      StringText name str ∧ Space w₁ ∧ Space w₂ ∧ item.Writes ret ∧
      WritesMembers members tail ∧
      out = w ++ ch ',' :: w' ++ (str ++ w₁ ++ ch ':' :: w₂ ++ ret) ++ tail

end

/-- A number begins with a sign or a digit. -/
theorem NumberText.head (ht : NumberText t) :
    ∃ b rest, t = b :: rest ∧ (b = ch '-' ∨ IsDigit b) := by
  obtain ⟨sign, int, frac, exp, rfl, hsign, hint, -, -⟩ := ht
  rcases hsign with rfl | rfl
  · rcases hint with rfl | ⟨d, ds, rfl, h1, h9, -⟩
    · exact ⟨_, _, rfl, Or.inr ⟨UInt8.le_refl _, by decide⟩⟩
    · exact ⟨_, _, rfl, Or.inr ⟨UInt8.le_trans (show ch '0' ≤ ch '1' by decide) h1, h9⟩⟩
  · exact ⟨_, _, rfl, Or.inl rfl⟩

theorem NumberText.opens (ht : NumberText t) : Opens t := by
  obtain ⟨b, rest, rfl, hb⟩ := ht.head
  refine ⟨b, rest, rfl, ?_⟩
  rcases hb with rfl | ⟨h0, h9⟩
  · decide
  · refine ⟨UInt8.lt_of_lt_of_le (show (32 : Byte) < ch '0' by decide) h0, ?_, ?_⟩
    · exact UInt8.ne_of_lt (UInt8.lt_of_le_of_lt h9 (show ch '9' < ch ']' by decide))
    · exact UInt8.ne_of_lt (UInt8.lt_of_le_of_lt h9 (show ch '9' < ch '}' by decide))

section Parse

variable {item : Json} {items : List Json} {members : List (CStr × Json)} {tail : List Byte}

theorem opens_writes (h : item.Writes out) : Opens out := by
  cases item with
  | null =>
    rw [Json.Writes] at h
    exact ⟨_, _, h, by decide⟩
  | false =>
    rw [Json.Writes] at h
    exact ⟨_, _, h, by decide⟩
  | true =>
    rw [Json.Writes] at h
    exact ⟨_, _, h, by decide⟩
  | number text =>
    rw [Json.Writes] at h
    rw [h.1]
    exact h.2.opens
  | string str =>
    rw [Json.Writes] at h
    exact opens_text h
  | array items =>
    cases items with
    | nil =>
      rw [Json.Writes] at h
      obtain ⟨w, -, rfl⟩ := h
      exact ⟨_, _, rfl, by decide⟩
    | cons item items =>
      rw [Json.Writes] at h
      obtain ⟨w, ret, tail, -, -, -, rfl⟩ := h
      exact ⟨_, _, rfl, by decide⟩
  | object members =>
    cases members with
    | nil =>
      rw [Json.Writes] at h
      obtain ⟨w, -, rfl⟩ := h
      exact ⟨_, _, rfl, by decide⟩
    | cons member members =>
      obtain ⟨name, item⟩ := member
      rw [Json.Writes] at h
      obtain ⟨w, str, w₁, w₂, ret, tail, -, -, -, -, -, -, rfl⟩ := h
      exact ⟨_, _, rfl, by decide⟩

/-- White space and a byte that ends a number may stand behind one. -/
theorem follows_space {w : List Byte} (hw : Space w) (hc : c = ch ',' ∨ c = ch ']' ∨ c = ch '}')
    (text : List Byte) : Follows (w ++ c :: text) := by
  intro b rest hb
  cases w with
  | nil =>
    obtain ⟨rfl, -⟩ := List.cons.inj hb
    exact Or.inr hc
  | cons b' w =>
    obtain ⟨rfl, -⟩ := List.cons.inj hb
    exact Or.inl (hw b' List.mem_cons_self).2

theorem follows_items (h : WritesItems items tail) (text : List Byte) :
    Follows (tail ++ ch ']' :: text) := by
  cases items with
  | nil =>
    rw [WritesItems] at h
    exact follows_space h (Or.inr (Or.inl rfl)) text
  | cons item items =>
    rw [WritesItems] at h
    obtain ⟨w, w', ret, tail, hw, -, -, -, rfl⟩ := h
    simp only [List.append_assoc, List.cons_append]
    exact follows_space hw (Or.inl rfl) _

theorem follows_members (h : WritesMembers members tail) (text : List Byte) :
    Follows (tail ++ ch '}' :: text) := by
  cases members with
  | nil =>
    rw [WritesMembers] at h
    exact follows_space h (Or.inr (Or.inr rfl)) text
  | cons member members =>
    obtain ⟨name, item⟩ := member
    rw [WritesMembers] at h
    obtain ⟨w, w', str, w₁, w₂, ret, tail, hw, -, -, -, -, -, -, rfl⟩ := h
    simp only [List.append_assoc, List.cons_append]
    exact follows_space hw (Or.inl rfl) _

theorem parseValue_number (ht : NumberText t) (h : Follows text) :
    Returns (fun k => parseValue k (t ++ text)) (some (.number t, text)) := by
  have hparse := parseNumber_eq ht h
  obtain ⟨b, rest, rfl, hb⟩ := ht.head
  refine (Returns.const _).succ fun k => ?_
  have hb' : b = ch '-' ∨ ch '0' ≤ b ∧ b ≤ ch '9' := hb
  have hle : b ≤ ch '9' := by
    rcases hb with rfl | hb
    · decide
    · exact hb.2
  have hne : ∀ c, ch '9' < c → c ≠ b := by
    rintro c hc rfl
    exact UInt8.not_le.mpr hc hle
  have hquote : b ≠ ch '"' := by
    rintro rfl
    rcases hb' with hb' | hb'
    · exact absurd hb' (by decide)
    · exact absurd hb'.1 (by decide)
  rw [List.cons_append] at hparse ⊢
  rw [parseValue]
  simp only [List.isPrefixOf, beq_eq_false_iff_ne.mpr (hne (ch 'n') (by decide)),
    beq_eq_false_iff_ne.mpr (hne (ch 'f') (by decide)),
    beq_eq_false_iff_ne.mpr (hne (ch 't') (by decide)), Bool.false_and, Bool.false_eq_true,
    if_false, if_neg hquote, if_pos hb', hparse]
  rfl

/-- A name with its colon and its value. -/
theorem parseMember_writes {name : CStr} {str w₁ w₂ ret : List Byte}
    (hname : StringText name str) (hw₁ : Space w₁) (hw₂ : Space w₂) (hret : Opens ret)
    (hitem : Returns (fun k => parseValue k (ret ++ text)) (some (item, text))) :
    Returns (fun k => parseMember k (str ++ w₁ ++ ch ':' :: w₂ ++ ret ++ text))
      (some ((name, item), text)) := by
  have hparse := parseString_text hname (w₁ ++ (ch ':' :: (w₂ ++ (ret ++ text))))
  refine (hitem.andThen (g := fun _ x => pure (some ((name, x.1), x.2))) ?_).succ fun k => ?_
  · exact Returns.const _
  · simp only [List.append_assoc, List.cons_append]
    simp only [parseMember, hparse, andThen_ok_some, skip_space hw₁, skip_space hw₂,
      skip_cons (show 32 < ch ':' by decide), ne_eq, not_true_eq_false, if_false,
      hret.skip_append]

mutual

/-- **The parser reads an item from each of its texts.** -/
theorem parseValue_writes : ∀ {item : Json} {out : List Byte}, item.Writes out → ∀ text,
    Follows text → Returns (fun k => parseValue k (out ++ text)) (some (item, text))
  | .null, _, h, text, _ => by
    rw [Json.Writes] at h
    subst h
    exact (Returns.const _).succ fun k => rfl
  | .false, _, h, text, _ => by
    rw [Json.Writes] at h
    subst h
    exact (Returns.const _).succ fun k => rfl
  | .true, _, h, text, _ => by
    rw [Json.Writes] at h
    subst h
    exact (Returns.const _).succ fun k => rfl
  | .number num, _, h, text, hf => by
    rw [Json.Writes] at h
    rw [h.1]
    exact parseValue_number h.2 hf
  | .string str, _, h, text, _ => by
    rw [Json.Writes] at h
    exact parseValue_string h text
  | .array [], _, h, text, _ => by
    rw [Json.Writes] at h
    obtain ⟨w, hw, rfl⟩ := h
    have harray : Returns (fun k => parseArray k (ch '[' :: (w ++ ch ']' :: text)))
        (some (.array [], text)) := by
      refine (Returns.const _).succ fun k => ?_
      simp only [parseArray, skip_space hw, skip_cons (show 32 < ch ']' by decide), ne_eq,
        not_true_eq_false, if_false, List.head?_cons, if_true, List.tail_cons]
      rfl
    refine harray.succ fun k => ?_
    simp only [List.cons_append, List.append_assoc, List.nil_append]
    exact parseValue_bracket k _
  | .array (item :: items), _, h, text, _ => by
    rw [Json.Writes] at h
    obtain ⟨w, ret, tail, hw, hret, htail, rfl⟩ := h
    have hopens := opens_writes hret
    have hfirst := parseValue_writes hret (tail ++ ch ']' :: text) (follows_items htail text)
    have hloop := arrayLoop_writes htail [item] text
    rw [List.singleton_append] at hloop
    have harray : Returns
        (fun k => parseArray k (ch '[' :: (w ++ (ret ++ (tail ++ ch ']' :: text)))))
        (some (.array (item :: items), text)) := by
      refine (hfirst.andThen (g := fun k x => arrayLoop k [x.1] (skip x.2)) hloop).succ
        fun k => ?_
      simp only [parseArray, skip_space hw, hopens.skip_append, (hopens.head_append _).1, ne_eq,
        not_true_eq_false, if_false]
    refine harray.succ fun k => ?_
    simp only [List.cons_append, List.append_assoc, List.nil_append]
    exact parseValue_bracket k _
  | .object [], _, h, text, _ => by
    rw [Json.Writes] at h
    obtain ⟨w, hw, rfl⟩ := h
    have hobject : Returns (fun k => parseObject k (ch '{' :: (w ++ ch '}' :: text)))
        (some (.object [], text)) := by
      refine (Returns.const _).succ fun k => ?_
      simp only [parseObject, skip_space hw, skip_cons (show 32 < ch '}' by decide), ne_eq,
        not_true_eq_false, if_false, List.head?_cons, if_true, List.tail_cons]
      rfl
    refine hobject.succ fun k => ?_
    simp only [List.cons_append, List.append_assoc, List.nil_append]
    exact parseValue_brace k _
  | .object ((name, item) :: members), _, h, text, _ => by
    rw [Json.Writes] at h
    obtain ⟨w, str, w₁, w₂, ret, tail, hw, hstr, hw₁, hw₂, hret, htail, rfl⟩ := h
    have hopens := opens_text hstr
    have hfirst := parseMember_writes hstr hw₁ hw₂ (opens_writes hret)
      (parseValue_writes hret (tail ++ ch '}' :: text) (follows_members htail text))
    have hloop := objectLoop_writes htail [(name, item)] text
    rw [List.singleton_append] at hloop
    simp only [List.append_assoc, List.cons_append] at hfirst
    have hobject : Returns (fun k => parseObject k (ch '{' ::
        (w ++ (str ++ (w₁ ++ ch ':' :: (w₂ ++ (ret ++ (tail ++ ch '}' :: text))))))))
        (some (.object ((name, item) :: members), text)) := by
      refine (hfirst.andThen (g := fun k x => objectLoop k [x.1] (skip x.2)) hloop).succ
        fun k => ?_
      simp only [parseObject, skip_space hw, hopens.skip_append, (hopens.head_append _).2, ne_eq,
        not_true_eq_false, if_false]
    refine hobject.succ fun k => ?_
    simp only [List.cons_append, List.append_assoc, List.nil_append]
    exact parseValue_brace k _

/-- The items behind the first one. -/
theorem arrayLoop_writes : ∀ {items : List Json} {tail : List Byte}, WritesItems items tail →
    ∀ done text, Returns (fun k => arrayLoop k done (skip (tail ++ ch ']' :: text)))
      (some (.array (done ++ items), text))
  | [], _, h, done, text => by
    rw [WritesItems] at h
    rw [List.append_nil, skip_space h, skip_cons (show 32 < ch ']' by decide)]
    exact (Returns.const _).succ fun k => rfl
  | item :: items, _, h, done, text => by
    rw [WritesItems] at h
    obtain ⟨w, w', ret, tail, hw, hw', hret, htail, rfl⟩ := h
    have hfirst := parseValue_writes hret (tail ++ ch ']' :: text) (follows_items htail text)
    have hloop := arrayLoop_writes htail (done ++ [item]) text
    rw [List.append_assoc, List.singleton_append] at hloop
    simp only [List.append_assoc, List.cons_append]
    rw [skip_space hw, skip_cons (show 32 < ch ',' by decide)]
    refine (hfirst.andThen (g := fun k x => arrayLoop k (done ++ [x.1]) (skip x.2)) hloop).succ
      fun k => ?_
    simp only [arrayLoop, if_true, skip_space hw', (opens_writes hret).skip_append]

/-- The members behind the first one. -/
theorem objectLoop_writes : ∀ {members : List (CStr × Json)} {tail : List Byte},
    WritesMembers members tail →
    ∀ done text, Returns (fun k => objectLoop k done (skip (tail ++ ch '}' :: text)))
      (some (.object (done ++ members), text))
  | [], _, h, done, text => by
    rw [WritesMembers] at h
    rw [List.append_nil, skip_space h, skip_cons (show 32 < ch '}' by decide)]
    exact (Returns.const _).succ fun k => rfl
  | (name, item) :: members, _, h, done, text => by
    rw [WritesMembers] at h
    obtain ⟨w, w', str, w₁, w₂, ret, tail, hw, hw', hstr, hw₁, hw₂, hret, htail, rfl⟩ := h
    have hfirst := parseMember_writes hstr hw₁ hw₂ (opens_writes hret)
      (parseValue_writes hret (tail ++ ch '}' :: text) (follows_members htail text))
    have hloop := objectLoop_writes htail (done ++ [(name, item)]) text
    rw [List.append_assoc, List.singleton_append] at hloop
    simp only [List.append_assoc, List.cons_append] at hfirst ⊢
    rw [skip_space hw, skip_cons (show 32 < ch ',' by decide)]
    refine (hfirst.andThen (g := fun k x => objectLoop k (done ++ [x.1]) (skip x.2)) hloop).succ
      fun k => ?_
    simp only [objectLoop, if_true, skip_space hw', (opens_text hstr).skip_append]

end

end Parse

/-! ## What the printer makes -/

/-- `cJSON_Print`. -/
def cJSONPrint (printNumber : List Byte → List Byte) (item : Json) : Exec CStr := do
  let out ← printValue printNumber true 0 item
  pure (CStr.ofBuffer (out ++ [0]))

section Print

variable {printNumber : List Byte → List Byte} {fmt : Bool} {depth : ℕ} {item : Json}

theorem Space.append {w w' : List Byte} (hw : Space w) (hw' : Space w') : Space (w ++ w') := by
  intro b hb
  rcases List.mem_append.mp hb with hb | hb
  · exact hw b hb
  · exact hw' b hb

/-- What the printer puts between the tokens if it indents them. -/
theorem Space.ite {w : List Byte} (hw : Space w) (fmt : Bool) : Space (if fmt then w else []) := by
  split_ifs
  · exact hw
  · exact Space.nil

theorem Space.singleton (h0 : b ≠ 0) (hle : b ≤ 32) : Space [b] := by
  intro c hc
  rw [List.mem_singleton.mp hc]
  exact ⟨h0, hle⟩

theorem Space.newline (fmt : Bool) : Space (if fmt then [10] else []) :=
  Space.ite (Space.singleton (by decide) (by decide)) fmt

theorem Space.tabs (n : ℕ) : Space (tabs n) := by
  intro b hb
  rw [List.eq_of_mem_replicate hb]
  decide

/-- The entries behind the first one, as `print_array` composes them. -/
def itemRest (fmt : Bool) (entries : List (List Byte)) : List Byte :=
  entries.flatMap fun entry => ch ',' :: (if fmt then [ch ' '] else []) ++ entry

theorem joinItems_eq (fmt : Bool) (entry : List Byte) (entries : List (List Byte)) :
    joinItems fmt (entry :: entries) = entry ++ itemRest fmt entries := by
  induction entries generalizing entry with
  | nil => simp [joinItems, itemRest]
  | cons next entries ih =>
    rw [joinItems, ih]
    · simp [itemRest]
    · simp

/-- What stands behind the value of a member, as `print_object` composes it, up to the brace with
the white space `w` in front. -/
def memberRest (fmt : Bool) (depth : ℕ) (w : List Byte) (entries : List (List Byte × List Byte)) :
    List Byte :=
  (if entries.isEmpty then [] else [ch ',']) ++ (if fmt then [10] else []) ++
    joinMembers fmt depth entries ++ w

mutual

/-- **What the printer makes is a text of the item**, for every item without numbers. -/
theorem writes_printValue : ∀ {item : Json} {depth : ℕ} {out : List Byte}, item.NumberFree →
    printValue printNumber fmt depth item = .ok out → item.Writes out
  | .null, _, _, _, h => by
    cases h
    rw [Json.Writes]
  | .false, _, _, _, h => by
    cases h
    rw [Json.Writes]
  | .true, _, _, _, h => by
    cases h
    rw [Json.Writes]
  | .number _, _, _, hitem, _ => hitem.elim
  | .string _, _, _, _, h => by
    rw [Json.Writes]
    exact stringText_print h
  | .array [], _, _, _, h => by
    cases h
    rw [Json.Writes]
    exact ⟨[], Space.nil, rfl⟩
  | .array (item :: items), _, _, hitem, h => by
    rw [printValue] at h
    obtain ⟨-, -, h⟩ := bind_eq_ok.mp h
    obtain ⟨entries, hentries, h⟩ := bind_eq_ok.mp h
    cases h
    obtain ⟨ret, hret, hentries⟩ := bind_eq_ok.mp hentries
    obtain ⟨rets, hrets, hentries⟩ := bind_eq_ok.mp hentries
    cases hentries
    rw [Json.Writes]
    refine ⟨[], ret, itemRest fmt rets, Space.nil, writes_printValue hitem.1 hret,
      writes_printItems hitem.2 hrets, ?_⟩
    rw [joinItems_eq]
    simp
  | .object [], depth, _, _, h => by
    cases h
    rw [Json.Writes]
    refine ⟨(if fmt then [10] else []) ++ (if fmt then tabs depth else []), ?_, ?_⟩
    · exact (Space.newline fmt).append (Space.ite (Space.tabs _) fmt)
    · simp [joinMembers]
  | .object ((name, item) :: members), depth, _, hitem, h => by
    rw [printValue] at h
    obtain ⟨-, -, h⟩ := bind_eq_ok.mp h
    obtain ⟨entries, hentries, h⟩ := bind_eq_ok.mp h
    cases h
    obtain ⟨str, hstr, hentries⟩ := bind_eq_ok.mp hentries
    obtain ⟨ret, hret, hentries⟩ := bind_eq_ok.mp hentries
    obtain ⟨rets, hrets, hentries⟩ := bind_eq_ok.mp hentries
    cases hentries
    rw [Json.Writes]
    refine ⟨(if fmt then [10] else []) ++ (if fmt then tabs (depth + 1) else []), str, [],
      if fmt then [9] else [], ret,
      memberRest fmt (depth + 1) (if fmt then tabs depth else []) rets, ?_,
      stringText_print hstr, Space.nil, ?_, writes_printValue hitem.1 hret,
      writes_printMembers hitem.2 hrets (Space.ite (Space.tabs depth) fmt), ?_⟩
    · exact (Space.newline fmt).append (Space.ite (Space.tabs _) fmt)
    · exact Space.ite (Space.singleton (by decide) (by decide)) fmt
    · simp [joinMembers, memberRest]

theorem writes_printItems : ∀ {items : List Json} {depth : ℕ} {entries : List (List Byte)},
    numberFreeItems items → printItems printNumber fmt depth items = .ok entries →
      WritesItems items (itemRest fmt entries)
  | [], _, _, _, h => by
    cases h
    rw [WritesItems]
    exact Space.nil
  | item :: items, _, _, hitem, h => by
    obtain ⟨ret, hret, h⟩ := bind_eq_ok.mp h
    obtain ⟨rets, hrets, h⟩ := bind_eq_ok.mp h
    cases h
    rw [WritesItems]
    refine ⟨[], if fmt then [ch ' '] else [], ret, itemRest fmt rets, Space.nil, ?_,
      writes_printValue hitem.1 hret, writes_printItems hitem.2 hrets, ?_⟩
    · exact Space.ite (Space.singleton (by decide) (by decide)) fmt
    · simp [itemRest]

theorem writes_printMembers : ∀ {members : List (CStr × Json)} {depth : ℕ}
    {entries : List (List Byte × List Byte)} {w : List Byte}, numberFreeMembers members →
      printMembers printNumber fmt depth members = .ok entries → Space w →
      WritesMembers members (memberRest fmt depth w entries)
  | [], _, _, w, _, h, hw => by
    cases h
    rw [WritesMembers]
    simpa [memberRest, joinMembers] using (Space.newline fmt).append hw
  | (name, item) :: members, depth, _, w, hitem, h, hw => by
    obtain ⟨str, hstr, h⟩ := bind_eq_ok.mp h
    obtain ⟨ret, hret, h⟩ := bind_eq_ok.mp h
    obtain ⟨rets, hrets, h⟩ := bind_eq_ok.mp h
    cases h
    rw [WritesMembers]
    refine ⟨[], (if fmt then [10] else []) ++ (if fmt then tabs depth else []), str, [],
      if fmt then [9] else [], ret, memberRest fmt depth w rets, Space.nil, ?_,
      stringText_print hstr, Space.nil, ?_,
      writes_printValue hitem.1 hret, writes_printMembers hitem.2 hrets hw, ?_⟩
    · exact (Space.newline fmt).append (Space.ite (Space.tabs _) fmt)
    · exact Space.ite (Space.singleton (by decide) (by decide)) fmt
    · simp [joinMembers, memberRest]

end

/-! No text of an item has a NUL in it. -/

theorem Space.nul_notMem {w : List Byte} (hw : Space w) : 0 ∉ w := fun h => (hw 0 h).1 rfl

theorem NumberText.nul_notMem (ht : NumberText t) : 0 ∉ t := by
  obtain ⟨sign, int, frac, exp, rfl, hsign, hint, hfrac, hexp⟩ := ht
  have hdigits : ∀ ds : List Byte, (∀ b ∈ ds, IsDigit b) → 0 ∉ ds := fun ds hds h =>
    absurd (hds 0 h).1 (by decide)
  have hs : 0 ∉ sign := by
    rcases hsign with rfl | rfl
    all_goals decide
  have hi : 0 ∉ int := by
    rcases hint with rfl | ⟨d, ds, rfl, h1, -, hds⟩
    · decide
    · rw [List.mem_cons, not_or]
      refine ⟨?_, hdigits ds hds⟩
      rintro rfl
      exact absurd h1 (by decide)
  have hf : 0 ∉ frac := by
    rcases hfrac with rfl | ⟨d, ds, rfl, hds⟩
    · exact List.not_mem_nil
    · rw [List.mem_cons, not_or]
      exact ⟨by decide, hdigits _ hds⟩
  have he : 0 ∉ exp := by
    rcases hexp with rfl | ⟨e, sign, d, ds, rfl, he, hsign, hds⟩
    · exact List.not_mem_nil
    · have h₁ : (0 : Byte) ≠ e := by
        rcases he with rfl | rfl
        all_goals decide
      have h₂ : 0 ∉ sign := by
        rcases hsign with rfl | rfl | rfl
        all_goals decide
      rw [List.cons_append, List.mem_cons, List.mem_append, not_or, not_or]
      exact ⟨h₁, h₂, hdigits _ hds⟩
  simp only [List.mem_append, not_or]
  exact ⟨hs, hi, hf, he⟩

mutual

theorem nul_notMem_writes : ∀ {item : Json} {out : List Byte}, item.Writes out → 0 ∉ out
  | .null, _, h => by
    rw [Json.Writes] at h
    subst h
    decide
  | .false, _, h => by
    rw [Json.Writes] at h
    subst h
    decide
  | .true, _, h => by
    rw [Json.Writes] at h
    subst h
    decide
  | .number _, _, h => by
    rw [Json.Writes] at h
    rw [h.1]
    exact h.2.nul_notMem
  | .string _, _, h => by
    rw [Json.Writes] at h
    exact h.nul_notMem
  | .array [], _, h => by
    rw [Json.Writes] at h
    obtain ⟨w, hw, rfl⟩ := h
    have hb : (0 : Byte) ≠ ch '[' ∧ (0 : Byte) ≠ ch ']' := by decide
    simp [hb, hw.nul_notMem]
  | .array (item :: items), _, h => by
    rw [Json.Writes] at h
    obtain ⟨w, ret, tail, hw, hret, htail, rfl⟩ := h
    have hb : (0 : Byte) ≠ ch '[' ∧ (0 : Byte) ≠ ch ']' := by decide
    simp [hb, hw.nul_notMem, nul_notMem_writes hret, nul_notMem_items htail]
  | .object [], _, h => by
    rw [Json.Writes] at h
    obtain ⟨w, hw, rfl⟩ := h
    have hb : (0 : Byte) ≠ ch '{' ∧ (0 : Byte) ≠ ch '}' := by decide
    simp [hb, hw.nul_notMem]
  | .object ((name, item) :: members), _, h => by
    rw [Json.Writes] at h
    obtain ⟨w, str, w₁, w₂, ret, tail, hw, hstr, hw₁, hw₂, hret, htail, rfl⟩ := h
    have hb : (0 : Byte) ≠ ch '{' ∧ (0 : Byte) ≠ ch '}' ∧ (0 : Byte) ≠ ch ':' := by decide
    simp [hb, hw.nul_notMem, hw₁.nul_notMem, hw₂.nul_notMem, hstr.nul_notMem,
      nul_notMem_writes hret, nul_notMem_members htail]

theorem nul_notMem_items : ∀ {items : List Json} {tail : List Byte}, WritesItems items tail →
    0 ∉ tail
  | [], _, h => by
    rw [WritesItems] at h
    exact h.nul_notMem
  | item :: items, _, h => by
    rw [WritesItems] at h
    obtain ⟨w, w', ret, tail, hw, hw', hret, htail, rfl⟩ := h
    have hb : (0 : Byte) ≠ ch ',' := by decide
    simp [hb, hw.nul_notMem, hw'.nul_notMem, nul_notMem_writes hret, nul_notMem_items htail]

theorem nul_notMem_members : ∀ {members : List (CStr × Json)} {tail : List Byte},
    WritesMembers members tail → 0 ∉ tail
  | [], _, h => by
    rw [WritesMembers] at h
    exact h.nul_notMem
  | (name, item) :: members, _, h => by
    rw [WritesMembers] at h
    obtain ⟨w, w', str, w₁, w₂, ret, tail, hw, hw', hstr, hw₁, hw₂, hret, htail, rfl⟩ := h
    have hb : (0 : Byte) ≠ ch ',' ∧ (0 : Byte) ≠ ch ':' := by decide
    simp [hb, hw.nul_notMem, hw'.nul_notMem, hw₁.nul_notMem, hw₂.nul_notMem,
      hstr.nul_notMem, nul_notMem_writes hret, nul_notMem_members htail]

end

/-- **`cJSON_Parse` undoes `cJSON_Print`**, on every item without numbers. -/
theorem cJSONParse_cJSONPrint {text : CStr} (hitem : item.NumberFree)
    (h : cJSONPrint printNumber item = .ok text) :
    Returns (fun fuel => cJSONParse fuel text) (some item) := by
  obtain ⟨out, hout, htext⟩ := bind_eq_ok.mp h
  have hwrites := writes_printValue hitem hout
  have hbuf := CStr.ofBuffer_bytes ⟨out, nul_notMem_writes hwrites⟩ []
  have hbytes : text.bytes = [] ++ out ++ [] := by
    rw [List.append_nil, List.nil_append]
    cases htext
    exact congrArg CStr.bytes hbuf
  have hparse := parseValue_writes hwrites [] (by rintro b rest ⟨⟩)
  have hskip := (opens_writes hwrites).skip_append []
  refine (hparse.bind (g := fun _ r => pure (r.map Prod.fst)) (Returns.const _)).congr fun k => ?_
  rw [cJSONParse, hbytes, List.nil_append, hskip]

/-- An object in an array. -/
theorem cJSONParse_cJSONPrint_object :
    Returns (fun fuel => cJSONParse fuel (CStr.ofString "[\x7b\n\t\t\"a\":\tnull\n\t\x7d]"))
      (some (.array [.object [(CStr.ofString "a", .null)]])) := by
  have hprint : cJSONPrint id (.array [.object [(CStr.ofString "a", .null)]]) =
      .ok (CStr.ofString "[\x7b\n\t\t\"a\":\tnull\n\t\x7d]") := by rfl
  refine cJSONParse_cJSONPrint ?_ hprint
  simp [Json.NumberFree, numberFreeItems, numberFreeMembers]

end Print
