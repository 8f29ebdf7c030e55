import AgcFramework.Json.Strings

/-!
# What is printed is parsed back

## Main results

* `parseString_print`: the parser undoes the escapes of the printer
* `parseValue_print`: every item without numbers is read back from its unformatted text
* `cJSONParse_print`: `cJSON_Parse` undoes `cJSON_PrintUnformatted` on these items
-/

open Exec

variable {c : Byte} {text out : List Byte}

/-! ## Strings -/

/-- **The parser undoes the escapes of the printer.** -/
theorem parseString_print {str : CStr} (h : printStringPtr str = .ok out) (text : List Byte) :
    parseString (out ++ text) = .ok (some (str, text)) :=
  parseString_text (stringText_print h) text

theorem nul_notMem_printString {str : CStr} (h : printStringPtr str = .ok out) : 0 ∉ out :=
  (stringText_print h).nul_notMem

/-! ## Items -/

mutual

/-- The item has no number in it. -/
def Json.NumberFree : Json → Prop
  | .number _ => False
  | .array items => numberFreeItems items
  | .object members => numberFreeMembers members
  | .null => True
  | .false => True
  | .true => True
  | .string _ => True

def numberFreeItems : List Json → Prop
  | [] => True
  | item :: items => item.NumberFree ∧ numberFreeItems items

def numberFreeMembers : List (CStr × Json) → Prop
  | [] => True
  | (_, item) :: members => item.NumberFree ∧ numberFreeMembers members

end

/-- A text that `skip` leaves as it is and that does not close an array or an object. -/
def Opens (text : List Byte) : Prop :=
  ∃ c rest, text = c :: rest ∧ 32 < c ∧ c ≠ ch ']' ∧ c ≠ ch '}'

theorem skip_cons (hc : 32 < c) (text : List Byte) : skip (c :: text) = c :: text := by
  have hle : ¬ c ≤ 32 := by
    rw [UInt8.lt_iff_toNat_lt] at hc
    rw [UInt8.le_iff_toNat_le]
    omega
  exact List.dropWhile_cons_of_neg (by simpa using hle)

theorem Opens.skip_append (h : Opens out) (text : List Byte) :
    skip (out ++ text) = out ++ text := by
  obtain ⟨c, rest, rfl, hc, -, -⟩ := h
  exact skip_cons hc _

theorem Opens.head_append (h : Opens out) (text : List Byte) :
    (out ++ text).head? ≠ some (ch ']') ∧ (out ++ text).head? ≠ some (ch '}') := by
  obtain ⟨c, rest, rfl, -, hb, hc⟩ := h
  simp [hb, hc]

theorem opens_text {str : CStr} (h : StringText str out) : Opens out := by
  obtain ⟨rest, rfl⟩ := h.head
  exact ⟨_, _, rfl, by decide⟩

theorem opens_printString {str : CStr} (h : printStringPtr str = .ok out) : Opens out :=
  opens_text (stringText_print h)

section Print

variable {printNumber : List Byte → List Byte} {depth : ℕ} {item : Json}

theorem opens_printValue (hitem : item.NumberFree)
    (h : printValue printNumber false depth item = .ok out) : Opens out := by
  cases item with
  | null =>
    cases h
    exact ⟨_, _, rfl, by decide⟩
  | false =>
    cases h
    exact ⟨_, _, rfl, by decide⟩
  | true =>
    cases h
    exact ⟨_, _, rfl, by decide⟩
  | number text => exact hitem.elim
  | string str => exact opens_printString h
  | array items =>
    rw [printValue] at h
    obtain ⟨-, -, h⟩ := bind_eq_ok.mp h
    obtain ⟨entries, -, h⟩ := bind_eq_ok.mp h
    cases h
    exact ⟨_, _, rfl, by decide⟩
  | object members =>
    rw [printValue] at h
    obtain ⟨-, -, h⟩ := bind_eq_ok.mp h
    obtain ⟨entries, -, h⟩ := bind_eq_ok.mp h
    cases h
    exact ⟨_, _, rfl, by decide⟩

/-- The entries of an array behind the first one. -/
def itemTail (entries : List (List Byte)) : List Byte := entries.flatMap (ch ',' :: ·)

/-- The members of an object behind the first one. -/
def memberTail (entries : List (List Byte × List Byte)) : List Byte :=
  entries.flatMap fun e => ch ',' :: e.1 ++ ch ':' :: e.2

theorem joinItems_cons (entry : List Byte) (entries : List (List Byte)) :
    joinItems false (entry :: entries) = entry ++ itemTail entries := by
  induction entries generalizing entry with
  | nil => simp [joinItems, itemTail]
  | cons next entries ih =>
    rw [joinItems, ih]
    · simp [itemTail]
    · simp

theorem joinMembers_cons (entry : List Byte × List Byte) (entries : List (List Byte × List Byte)) :
    joinMembers false depth (entry :: entries) =
      entry.1 ++ ch ':' :: entry.2 ++ memberTail entries := by
  induction entries generalizing entry with
  | nil => simp [joinMembers, memberTail]
  | cons next entries ih =>
    rw [joinMembers, ih]
    simp [memberTail]

/-! The first byte decides what `parse_value` does. -/

theorem parseValue_bracket (k : ℕ) (text : List Byte) :
    parseValue (k + 1) (ch '[' :: text) = parseArray k (ch '[' :: text) := rfl

theorem parseValue_brace (k : ℕ) (text : List Byte) :
    parseValue (k + 1) (ch '{' :: text) = parseObject k (ch '{' :: text) := rfl

theorem parseValue_string {str : CStr} (h : StringText str out) (text : List Byte) :
    Returns (fun k => parseValue k (out ++ text)) (some (.string str, text)) := by
  have hparse := parseString_text h text
  obtain ⟨rest, rfl⟩ := h.head
  refine (Returns.const (some (Json.string str, text))).succ fun k => ?_
  have hq : parseValue (k + 1) (ch '"' :: rest ++ text) =
      andThen (parseString (ch '"' :: rest ++ text)) fun x => pure (some (Json.string x.1, x.2)) :=
    rfl
  rw [hq, hparse]
  rfl

/-- A name, its value and what follows. -/
theorem parseMember_print {name : CStr} {ret : List Byte} (hname : printStringPtr name = .ok out)
    (hret : Opens ret) {text : List Byte}
    (hitem : Returns (fun k => parseValue k (ret ++ text)) (some (item, text))) :
    Returns (fun k => parseMember k (out ++ ch ':' :: (ret ++ text)))
      (some ((name, item), text)) := by
  have hparse := parseString_print hname (ch ':' :: (ret ++ text))
  refine (hitem.andThen (g := fun _ x => pure (some ((name, x.1), x.2))) ?_).succ fun k => ?_
  · exact Returns.const _
  simp only [parseMember, hparse, andThen_ok_some, skip_cons (show 32 < ch ':' by decide), ne_eq,
    not_true_eq_false, if_false, hret.skip_append]

theorem skip_itemTail (entries : List (List Byte)) (text : List Byte) :
    skip (itemTail entries ++ ch ']' :: text) = itemTail entries ++ ch ']' :: text := by
  cases entries with
  | nil => exact skip_cons (by decide) text
  | cons entry entries => exact skip_cons (by decide) _

theorem skip_memberTail (entries : List (List Byte × List Byte)) (text : List Byte) :
    skip (memberTail entries ++ ch '}' :: text) = memberTail entries ++ ch '}' :: text := by
  cases entries with
  | nil => exact skip_cons (by decide) text
  | cons entry entries => exact skip_cons (by decide) _

mutual

/-- **Every item without numbers is read back** from its unformatted text. -/
theorem parseValue_print : ∀ {item : Json} {depth : ℕ} {out : List Byte}, item.NumberFree →
    printValue printNumber false depth item = .ok out → ∀ text,
      Returns (fun k => parseValue k (out ++ text)) (some (item, text))
  | .null, _, _, _, h, text => by
    cases h
    exact (Returns.const _).succ fun k => rfl
  | .false, _, _, _, h, text => by
    cases h
    exact (Returns.const _).succ fun k => rfl
  | .true, _, _, _, h, text => by
    cases h
    exact (Returns.const _).succ fun k => rfl
  | .number _, _, _, hitem, _, _ => hitem.elim
  | .string str, _, _, _, h, text => parseValue_string (stringText_print h) text
  | .array [], _, _, _, h, text => by
    cases h
    exact ((Returns.const _).succ (g := fun k => parseArray k _) fun k => rfl).succ fun k => rfl
  | .array (item :: items), depth, _, hitem, h, text => by
    rw [printValue] at h
    obtain ⟨-, -, h⟩ := bind_eq_ok.mp h
    obtain ⟨entries, hentries, h⟩ := bind_eq_ok.mp h
    cases h
    obtain ⟨ret, hret, hentries⟩ := bind_eq_ok.mp hentries
    obtain ⟨rets, hrets, hentries⟩ := bind_eq_ok.mp hentries
    cases hentries
    -- the first item, then the loop over the rest, then the bracket
    have hopens := opens_printValue hitem.1 hret
    have hfirst := parseValue_print hitem.1 hret (itemTail rets ++ ch ']' :: text)
    have hloop := arrayLoop_print hitem.2 hrets [item] text
    rw [List.singleton_append] at hloop
    have harray : Returns
        (fun k => parseArray k (ch '[' :: (ret ++ (itemTail rets ++ ch ']' :: text))))
        (some (.array (item :: items), text)) := by
      refine (hfirst.andThen (g := fun k x => arrayLoop k [x.1] (skip x.2)) ?_).succ fun k => ?_
      · simpa only [skip_itemTail] using hloop
      · simp only [parseArray, hopens.skip_append, (hopens.head_append _).1, ne_eq,
          not_true_eq_false, if_false]
    refine harray.succ fun k => ?_
    rw [joinItems_cons]
    simp only [List.cons_append, List.append_assoc, List.nil_append]
    exact parseValue_bracket k _
  | .object [], _, _, _, h, text => by
    cases h
    exact ((Returns.const _).succ (g := fun k => parseObject k _) fun k => rfl).succ fun k => rfl
  | .object ((name, item) :: members), depth, _, hitem, h, text => by
    rw [printValue] at h
    obtain ⟨-, -, h⟩ := bind_eq_ok.mp h
    obtain ⟨entries, hentries, h⟩ := bind_eq_ok.mp h
    cases h
    obtain ⟨str, hstr, hentries⟩ := bind_eq_ok.mp hentries
    obtain ⟨ret, hret, hentries⟩ := bind_eq_ok.mp hentries
    obtain ⟨rets, hrets, hentries⟩ := bind_eq_ok.mp hentries
    cases hentries
    -- the first member, then the loop over the rest, then the brace
    have hopens := opens_printString hstr
    have hfirst := parseMember_print hstr (opens_printValue hitem.1 hret)
      (parseValue_print hitem.1 hret (memberTail rets ++ ch '}' :: text))
    have hloop := objectLoop_print hitem.2 hrets [(name, item)] text
    rw [List.singleton_append] at hloop
    have hobject : Returns (fun k => parseObject k
        (ch '{' :: (str ++ ch ':' :: (ret ++ (memberTail rets ++ ch '}' :: text)))))
        (some (.object ((name, item) :: members), text)) := by
      refine (hfirst.andThen (g := fun k x => objectLoop k [x.1] (skip x.2)) ?_).succ fun k => ?_
      · simpa only [skip_memberTail] using hloop
      · simp only [parseObject, hopens.skip_append, (hopens.head_append _).2, ne_eq,
          not_true_eq_false, if_false]
    refine hobject.succ fun k => ?_
    rw [joinMembers_cons]
    simp only [Bool.false_eq_true, if_false, List.cons_append, List.append_assoc, List.nil_append]
    exact parseValue_brace k _

/-- The items behind the first one. -/
theorem arrayLoop_print : ∀ {items : List Json} {depth : ℕ} {entries : List (List Byte)},
    numberFreeItems items → printItems printNumber false depth items = .ok entries →
      ∀ done text, Returns (fun k => arrayLoop k done (itemTail entries ++ ch ']' :: text))
        (some (.array (done ++ items), text))
  | [], _, _, _, h, done, text => by
    cases h
    rw [List.append_nil]
    exact (Returns.const _).succ fun k => rfl
  | item :: items, depth, _, hitem, h, done, text => by
    obtain ⟨ret, hret, h⟩ := bind_eq_ok.mp h
    obtain ⟨rets, hrets, h⟩ := bind_eq_ok.mp h
    cases h
    have hopens := opens_printValue hitem.1 hret
    have hfirst := parseValue_print hitem.1 hret (itemTail rets ++ ch ']' :: text)
    have hloop := arrayLoop_print hitem.2 hrets (done ++ [item]) text
    rw [List.append_assoc, List.singleton_append] at hloop
    refine (hfirst.andThen (g := fun k x => arrayLoop k (done ++ [x.1]) (skip x.2)) ?_).succ
      fun k => ?_
    · simpa only [skip_itemTail] using hloop
    · have htail : itemTail (ret :: rets) ++ ch ']' :: text =
          ch ',' :: (ret ++ (itemTail rets ++ ch ']' :: text)) := by
        simp [itemTail]
      rw [htail]
      simp only [arrayLoop, if_true, hopens.skip_append]

/-- The members behind the first one. -/
theorem objectLoop_print : ∀ {members : List (CStr × Json)} {depth : ℕ}
    {entries : List (List Byte × List Byte)}, numberFreeMembers members →
      printMembers printNumber false depth members = .ok entries →
      ∀ done text, Returns (fun k => objectLoop k done (memberTail entries ++ ch '}' :: text))
        (some (.object (done ++ members), text))
  | [], _, _, _, h, done, text => by
    cases h
    rw [List.append_nil]
    exact (Returns.const _).succ fun k => rfl
  | (name, item) :: members, depth, _, hitem, h, done, text => by
    obtain ⟨str, hstr, h⟩ := bind_eq_ok.mp h
    obtain ⟨ret, hret, h⟩ := bind_eq_ok.mp h
    obtain ⟨rets, hrets, h⟩ := bind_eq_ok.mp h
    cases h
    have hopens := opens_printString hstr
    have hfirst := parseMember_print hstr (opens_printValue hitem.1 hret)
      (parseValue_print hitem.1 hret (memberTail rets ++ ch '}' :: text))
    have hloop := objectLoop_print hitem.2 hrets (done ++ [(name, item)]) text
    rw [List.append_assoc, List.singleton_append] at hloop
    refine (hfirst.andThen (g := fun k x => objectLoop k (done ++ [x.1]) (skip x.2)) ?_).succ
      fun k => ?_
    · simpa only [skip_memberTail] using hloop
    · have htail : memberTail ((str, ret) :: rets) ++ ch '}' :: text =
          ch ',' :: (str ++ ch ':' :: (ret ++ (memberTail rets ++ ch '}' :: text))) := by
        simp [memberTail]
      rw [htail]
      simp only [objectLoop, if_true, hopens.skip_append]

end

mutual

/-- The printed text is a C string. -/
theorem nul_notMem_printValue : ∀ {item : Json} {depth : ℕ} {out : List Byte}, item.NumberFree →
    printValue printNumber false depth item = .ok out → 0 ∉ out
  | .null, _, _, _, h => by
    cases h
    decide
  | .false, _, _, _, h => by
    cases h
    decide
  | .true, _, _, _, h => by
    cases h
    decide
  | .number _, _, _, hitem, _ => hitem.elim
  | .string _, _, _, _, h => nul_notMem_printString h
  | .array [], _, _, _, h => by
    cases h
    decide
  | .array (item :: items), _, _, hitem, h => by
    rw [printValue] at h
    obtain ⟨-, -, h⟩ := bind_eq_ok.mp h
    obtain ⟨entries, hentries, h⟩ := bind_eq_ok.mp h
    cases h
    obtain ⟨ret, hret, hentries⟩ := bind_eq_ok.mp hentries
    obtain ⟨rets, hrets, hentries⟩ := bind_eq_ok.mp hentries
    cases hentries
    have hb : (0 : Byte) ≠ ch '[' ∧ (0 : Byte) ≠ ch ']' := by decide
    rw [joinItems_cons]
    simp [hb, nul_notMem_printValue hitem.1 hret, nul_notMem_itemTail hitem.2 hrets]
  | .object [], _, _, _, h => by
    cases h
    have hb : (0 : Byte) ≠ ch '{' ∧ (0 : Byte) ≠ ch '}' := by decide
    simp [joinMembers, hb]
  | .object ((name, item) :: members), _, _, hitem, h => by
    rw [printValue] at h
    obtain ⟨-, -, h⟩ := bind_eq_ok.mp h
    obtain ⟨entries, hentries, h⟩ := bind_eq_ok.mp h
    cases h
    obtain ⟨str, hstr, hentries⟩ := bind_eq_ok.mp hentries
    obtain ⟨ret, hret, hentries⟩ := bind_eq_ok.mp hentries
    obtain ⟨rets, hrets, hentries⟩ := bind_eq_ok.mp hentries
    cases hentries
    have hb : (0 : Byte) ≠ ch '{' ∧ (0 : Byte) ≠ ch '}' ∧ (0 : Byte) ≠ ch ':' := by decide
    rw [joinMembers_cons]
    simp [hb, nul_notMem_printString hstr, nul_notMem_printValue hitem.1 hret,
      nul_notMem_memberTail hitem.2 hrets]

theorem nul_notMem_itemTail : ∀ {items : List Json} {depth : ℕ} {entries : List (List Byte)},
    numberFreeItems items → printItems printNumber false depth items = .ok entries →
      0 ∉ itemTail entries
  | [], _, _, _, h => by
    cases h
    exact List.not_mem_nil
  | item :: items, _, _, hitem, h => by
    obtain ⟨ret, hret, h⟩ := bind_eq_ok.mp h
    obtain ⟨rets, hrets, h⟩ := bind_eq_ok.mp h
    cases h
    have hc : (0 : Byte) ≠ ch ',' := by decide
    have htail := nul_notMem_itemTail hitem.2 hrets
    simp only [itemTail, List.flatMap_cons, List.cons_append, List.mem_cons, List.mem_append,
      not_or]
    exact ⟨hc, nul_notMem_printValue hitem.1 hret, htail⟩

theorem nul_notMem_memberTail : ∀ {members : List (CStr × Json)} {depth : ℕ}
    {entries : List (List Byte × List Byte)}, numberFreeMembers members →
      printMembers printNumber false depth members = .ok entries → 0 ∉ memberTail entries
  | [], _, _, _, h => by
    cases h
    exact List.not_mem_nil
  | (name, item) :: members, _, _, hitem, h => by
    obtain ⟨str, hstr, h⟩ := bind_eq_ok.mp h
    obtain ⟨ret, hret, h⟩ := bind_eq_ok.mp h
    obtain ⟨rets, hrets, h⟩ := bind_eq_ok.mp h
    cases h
    have hc : (0 : Byte) ≠ ch ',' ∧ (0 : Byte) ≠ ch ':' := by decide
    have htail := nul_notMem_memberTail hitem.2 hrets
    simp only [memberTail, List.flatMap_cons, List.cons_append, List.append_assoc, List.mem_cons,
      List.mem_append, not_or]
    exact ⟨hc.1, nul_notMem_printString hstr, hc.2, nul_notMem_printValue hitem.1 hret, htail⟩

end

/-- **`cJSON_Parse` undoes `cJSON_PrintUnformatted`**, on every item without numbers. -/
theorem cJSONParse_print {text : CStr} (hitem : item.NumberFree)
    (h : cJSONPrintUnformatted printNumber item = .ok text) :
    Returns (fun fuel => cJSONParse fuel text) (some item) := by
  obtain ⟨out, hout, htext⟩ := bind_eq_ok.mp h
  have hbuf := CStr.ofBuffer_bytes ⟨out, nul_notMem_printValue hitem hout⟩ []
  have hbytes : text.bytes = out := by
    cases htext
    exact congrArg CStr.bytes hbuf
  have hparse := parseValue_print hitem hout []
  have hskip := (opens_printValue hitem hout).skip_append []
  rw [List.append_nil] at hskip
  simp only [List.append_nil] at hparse
  refine (hparse.bind (g := fun _ r => pure (r.map Prod.fst)) (Returns.const _)).congr fun k => ?_
  rw [cJSONParse, hbytes, hskip]

end Print
