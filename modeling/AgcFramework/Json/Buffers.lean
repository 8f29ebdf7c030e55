import AgcFramework.Lib.Composer
import AgcFramework.Json.Grammar

/-!
# The memory of the printer

The printer makes the text of an item in an allocation, whose size it has computed from the texts of
what is inside. Here the texts are composed byte by byte, and a write behind the end of an
allocation is a fault.

## Main definitions

* `composeString`, `composeArray`, `composeObject`: how a text is written into its allocation
* `renderValue`: `print_value` on these allocations

## Main results

* `composeArray_eq`, `composeObject_eq`: the sizes that are computed are large enough
* `renderValue_eq`: the printer writes inside of its allocations, and makes the text of the item
-/

open Exec

/-! ## Composing the texts -/

/-- One round of the second loop of `print_string_ptr`. -/
def composeByte (b : Byte) (w : Composer) : Exec Composer :=
  if 31 < b ∧ b ≠ ch '"' ∧ b ≠ ch '\\' then w.push b
  else do
    let w ← w.push (ch '\\')
    if b = ch '\\' then w.push (ch '\\')
    else if b = ch '"' then w.push (ch '"')
    else if b = 8 then w.push (ch 'b')
    else if b = 12 then w.push (ch 'f')
    else if b = 10 then w.push (ch 'n')
    else if b = 13 then w.push (ch 'r')
    else if b = 9 then w.push (ch 't')
    -- `sprintf(ptr2, "u%04x", token)`, which writes a NUL as well
    else w.strcpy [ch 'u', ch '0', ch '0', hexDigit (b.toNat / 16), hexDigit (b.toNat % 16)]

/-- The second loop of `print_string_ptr`. -/
def composeBytes : List Byte → Composer → Exec Composer
  | [], w => pure w
  | b :: s, w => do
    let w ← composeByte b w
    composeBytes s w

/-- `print_string_ptr` behind its allocation, without the last NUL. -/
def composeString (str : CStr) (w : Composer) : Exec Composer := do
  let w ← w.push (ch '"')
  let w ← composeBytes str.bytes w
  w.push (ch '"')

/-- What stands between two entries. -/
def composeSeparator (fmt last : Bool) (w : Composer) : Exec Composer :=
  if last then pure w
  else do
    let w ← w.push (ch ',')
    let w ← w.pushIf fmt (ch ' ')
    w.nul

/-- The loop of `print_array` that composes the entries. -/
def composeEntries (fmt : Bool) : List (List Byte) → Composer → Exec Composer
  | [], w => pure w
  | entry :: entries, w => do
    let w ← w.strcpy entry
    let w ← composeSeparator fmt entries.isEmpty w
    composeEntries fmt entries w

/-- The last part of `print_array`, without the last NUL. -/
def composeArray (fmt : Bool) (entries : List (List Byte)) (w : Composer) : Exec Composer := do
  let w ← w.push (ch '[')
  let w ← w.nul
  let w ← composeEntries fmt entries w
  w.push (ch ']')

/-- `n` tabs. -/
def composeTabs : ℕ → Composer → Exec Composer
  | 0, w => pure w
  | n + 1, w => do
    let w ← w.push 9
    composeTabs n w

/-- The indentation. -/
def composeIndent (fmt : Bool) (n : ℕ) (w : Composer) : Exec Composer :=
  if fmt then composeTabs n w else pure w

/-- The loop of `print_object` that composes the members, at their `depth`. -/
def composeMembers (fmt : Bool) (depth : ℕ) :
    List (List Byte × List Byte) → Composer → Exec Composer
  | [], w => pure w
  | (name, entry) :: members, w => do
    let w ← composeIndent fmt depth w
    let w ← w.strcpy name
    let w ← w.push (ch ':')
    let w ← w.pushIf fmt 9
    let w ← w.strcpy entry
    let w ← w.pushIf (!members.isEmpty) (ch ',')
    let w ← w.pushIf fmt 10
    let w ← w.nul
    composeMembers fmt depth members w

/-- The last part of `print_object` at its `depth`, without the last NUL. -/
def composeObject (fmt : Bool) (depth : ℕ) (entries : List (List Byte × List Byte))
    (w : Composer) : Exec Composer := do
  let w ← w.push (ch '{')
  let w ← w.pushIf fmt 10
  let w ← w.nul
  let w ← composeMembers fmt (depth + 1) entries w
  let w ← composeIndent fmt depth w
  w.push (ch '}')

/-! ## The sizes -/

/-- `len` in `print_array`. -/
def arrayLength (fmt : Bool) (entries : List (List Byte)) : ℕ :=
  5 + (entries.map fun ret => ret.length + 2 + if fmt then 1 else 0).sum

/-- `len` in `print_object`, for the members at `depth`. -/
def objectLength (fmt : Bool) (depth : ℕ) (entries : List (List Byte × List Byte)) : ℕ :=
  7 + (if fmt then depth else 0) +
    (entries.map fun e => e.2.length + e.1.length + 2 + if fmt then 2 + depth else 0).sum

section Compose

open Composer

variable {fmt : Bool} {depth : ℕ}

/-! ## The texts that are composed -/

/-- One letter more that may stand behind the backslash. -/
theorem letter_puts {c : Prop} [Decidable c] (e : Byte) {f : Composer → Exec Composer}
    {s : List Byte} (h : Puts (fun w => w.push (ch '\\') >>= f) s) :
    Puts (fun w => w.push (ch '\\') >>= fun w => if c then w.push e else f w)
      (if c then [ch '\\', e] else s) := by
  by_cases hc : c
  · simp only [if_pos hc]
    exact (Puts.push (ch '\\')).bind (Puts.push e)
  · simp only [if_neg hc]
    exact h

theorem composeByte_puts (b : Byte) : Puts (composeByte b) (escapeByte b) := by
  unfold composeByte escapeByte
  by_cases hplain : 31 < b ∧ b ≠ ch '"' ∧ b ≠ ch '\\'
  · simp only [if_pos hplain]
    exact Puts.push b
  · simp only [if_neg hplain]
    -- the letters of the switch, and its default
    iterate 7 apply letter_puts
    exact (Puts.push (ch '\\')).bind (Puts.strcpy _)

theorem composeBytes_puts (s : List Byte) : Puts (composeBytes s) (s.flatMap escapeByte) := by
  induction s with
  | nil => exact Puts.pure
  | cons b s ih => exact (composeByte_puts b).bind ih

theorem composeString_puts (str : CStr) :
    Puts (composeString str) (ch '"' :: str.bytes.flatMap escapeByte ++ [ch '"']) :=
  (Puts.push _).bind ((composeBytes_puts _).bind (Puts.push _))

theorem composeSeparator_puts (fmt last : Bool) :
    Puts (composeSeparator fmt last)
      (if last then [] else ch ',' :: if fmt then [ch ' '] else []) := by
  cases last with
  | true => exact Puts.pure
  | false =>
    have h := (Puts.push (ch ',')).bind ((Puts.pushIf fmt (ch ' ')).bind Puts.nul)
    rw [List.append_nil] at h
    exact h

theorem composeEntries_puts (fmt : Bool) (entries : List (List Byte)) :
    Puts (composeEntries fmt entries) (joinItems fmt entries) := by
  induction entries with
  | nil => exact Puts.pure
  | cons entry entries ih =>
    have h := (Puts.strcpy entry).bind ((composeSeparator_puts fmt entries.isEmpty).bind ih)
    have htext : joinItems fmt (entry :: entries) = entry ++
        ((if entries.isEmpty then [] else ch ',' :: if fmt then [ch ' '] else []) ++
          joinItems fmt entries) := by
      cases entries with
      | nil => simp [joinItems]
      | cons next entries => simp [joinItems]
    rw [htext]
    exact h

theorem composeArray_puts (fmt : Bool) (entries : List (List Byte)) :
    Puts (composeArray fmt entries) (ch '[' :: joinItems fmt entries ++ [ch ']']) :=
  (Puts.push _).bind (Puts.nul.bind ((composeEntries_puts fmt entries).bind (Puts.push _)))

theorem composeIndent_puts (fmt : Bool) (n : ℕ) :
    Puts (composeIndent fmt n) (if fmt then tabs n else []) := by
  cases fmt with
  | false => exact Puts.pure
  | true =>
    have htabs : ∀ n, Puts (composeTabs n) (tabs n) := by
      intro n
      induction n with
      | zero => exact Puts.pure
      | succ n ih => exact (Puts.push 9).bind ih
    exact htabs n

theorem composeMembers_puts (fmt : Bool) (depth : ℕ) (entries : List (List Byte × List Byte)) :
    Puts (composeMembers fmt depth entries) (joinMembers fmt depth entries) := by
  induction entries with
  | nil => exact Puts.pure
  | cons e entries ih =>
    obtain ⟨name, entry⟩ := e
    have h := (composeIndent_puts fmt depth).bind ((Puts.strcpy name).bind
      ((Puts.push (ch ':')).bind ((Puts.pushIf fmt 9).bind ((Puts.strcpy entry).bind
        ((Puts.pushIf (!entries.isEmpty) (ch ',')).bind ((Puts.pushIf fmt 10).bind
          (Puts.nul.bind ih)))))))
    have htext : joinMembers fmt depth ((name, entry) :: entries) =
        (if fmt then tabs depth else []) ++ (name ++ ([ch ':'] ++ ((if fmt then [9] else []) ++
          (entry ++ ((if (!entries.isEmpty) then [ch ','] else []) ++
            ((if fmt then [10] else []) ++ ([] ++ joinMembers fmt depth entries))))))) := by
      cases entries with
      | nil => simp [joinMembers]
      | cons next entries => simp [joinMembers]
    rw [htext]
    exact h

theorem composeObject_puts (fmt : Bool) (depth : ℕ) (entries : List (List Byte × List Byte)) :
    Puts (composeObject fmt depth entries)
      (ch '{' :: (if fmt then [10] else []) ++ joinMembers fmt (depth + 1) entries ++
        (if fmt then tabs depth else []) ++ [ch '}']) := by
  have h := (Puts.push (ch '{')).bind ((Puts.pushIf fmt 10).bind (Puts.nul.bind
    ((composeMembers_puts fmt (depth + 1) entries).bind
      ((composeIndent_puts fmt depth).bind (Puts.push (ch '}'))))))
  simp only [List.nil_append, List.singleton_append] at h
  simp only [List.append_assoc, List.cons_append]
  exact h

/-! ## The sizes suffice -/

theorem length_joinItems_le (fmt : Bool) (entries : List (List Byte)) :
    (joinItems fmt entries).length + 5 ≤ arrayLength fmt entries := by
  induction entries with
  | nil => exact Nat.le_refl 5
  | cons entry entries ih =>
    have hsum : arrayLength fmt (entry :: entries) =
        entry.length + 2 + (if fmt then 1 else 0) + arrayLength fmt entries := by
      rw [arrayLength, arrayLength, List.map_cons, List.sum_cons]
      omega
    rw [hsum]
    cases entries with
    | nil =>
      rw [joinItems]
      have : 5 ≤ arrayLength fmt [] := Nat.le_refl 5
      omega
    | cons next entries =>
      rw [joinItems]
      · cases fmt with
        | false =>
          simp only [Bool.false_eq_true, if_false, List.length_append, List.length_cons,
            List.length_nil] at ih ⊢
          omega
        | true =>
          simp only [if_true, List.length_append, List.length_cons, List.length_nil] at ih ⊢
          omega
      · simp

theorem length_joinMembers_le (fmt : Bool) (depth : ℕ) (entries : List (List Byte × List Byte)) :
    (joinMembers fmt depth entries).length + 7 + (if fmt then depth else 0) ≤
      objectLength fmt depth entries := by
  induction entries with
  | nil =>
    show 0 + 7 + _ ≤ 7 + _ + 0
    omega
  | cons e entries ih =>
    obtain ⟨name, entry⟩ := e
    have hsum : objectLength fmt depth ((name, entry) :: entries) =
        entry.length + name.length + 2 + (if fmt then 2 + depth else 0) +
          objectLength fmt depth entries := by
      rw [objectLength, objectLength, List.map_cons, List.sum_cons]
      simp only
      omega
    have hcomma : (if entries.isEmpty then ([] : List Byte) else [ch ',']).length ≤ 1 := by
      split_ifs
      all_goals decide
    rw [hsum, joinMembers]
    cases fmt with
    | false =>
      simp only [Bool.false_eq_true, if_false, List.length_append, List.length_cons,
        List.length_nil] at ih hcomma ⊢
      omega
    | true =>
      simp only [if_true, List.length_append, List.length_cons, List.length_nil, tabs,
        List.length_replicate] at ih hcomma ⊢
      omega

end Compose

/-! ## The printer on its allocations -/

/-- `malloc` of `n` bytes, which hold anything. -/
def malloced (fill : ℕ → Byte) (n : ℕ) : List Byte := (List.range n).map fill

/-- The string that is composed in the memory `out`, with the last `*ptr++ = 0`. -/
def composed (compose : Composer → Exec Composer) (out : List Byte) : Exec (List Byte) := do
  let w ← compose ⟨out, 0⟩
  let w ← w.push 0
  pure (CStr.ofBuffer w.out).bytes

/-- `print_string_ptr`. -/
def renderString (fill : ℕ → Byte) (str : CStr) : Exec (List Byte) := do
  checkInt ((str.bytes.map escapeLength).sum + 3)
  composed (composeString str) (malloced fill ((str.bytes.map escapeLength).sum + 3))

section Render

variable (printNumber : List Byte → List Byte) (fill : ℕ → Byte)

mutual

/-- `print_value`, with `print_array` and `print_object`. -/
def renderValue (fmt : Bool) (depth : ℕ) : Json → Exec (List Byte)
  | .null => pure [ch 'n', ch 'u', ch 'l', ch 'l']
  | .false => pure [ch 'f', ch 'a', ch 'l', ch 's', ch 'e']
  | .true => pure [ch 't', ch 'r', ch 'u', ch 'e']
  | .number text => pure (printNumber text)
  | .string valuestring => renderString fill valuestring
  | .array items => do
    checkInt items.length
    let entries ← renderItems fmt (depth + 1) items
    composed (composeArray fmt entries) (malloced fill (arrayLength fmt entries))
  | .object members => do
    checkInt members.length
    let entries ← renderMembers fmt (depth + 1) members
    composed (composeObject fmt depth entries)
      (malloced fill (objectLength fmt (depth + 1) entries))

/-- The first loop of `print_array`. -/
def renderItems (fmt : Bool) (depth : ℕ) : List Json → Exec (List (List Byte))
  | [] => pure []
  | item :: items => do
    let ret ← renderValue fmt depth item
    let entries ← renderItems fmt depth items
    pure (ret :: entries)

/-- The first loop of `print_object`. -/
def renderMembers (fmt : Bool) (depth : ℕ) :
    List (CStr × Json) → Exec (List (List Byte × List Byte))
  | [] => pure []
  | (name, item) :: members => do
    let str ← renderString fill name
    let ret ← renderValue fmt depth item
    let entries ← renderMembers fmt depth members
    pure ((str, ret) :: entries)

end

variable {printNumber fill} {fmt : Bool} {depth : ℕ}

theorem renderValue_array (items : List Json) :
    renderValue printNumber fill fmt depth (.array items) = (do
      checkInt items.length
      let entries ← renderItems printNumber fill fmt (depth + 1) items
      composed (composeArray fmt entries) (malloced fill (arrayLength fmt entries))) := rfl

theorem renderValue_object (members : List (CStr × Json)) :
    renderValue printNumber fill fmt depth (.object members) = (do
      checkInt members.length
      let entries ← renderMembers printNumber fill fmt (depth + 1) members
      composed (composeObject fmt depth entries)
        (malloced fill (objectLength fmt (depth + 1) entries))) := rfl

theorem renderItems_cons (item : Json) (items : List Json) :
    renderItems printNumber fill fmt depth (item :: items) = (do
      let ret ← renderValue printNumber fill fmt depth item
      let entries ← renderItems printNumber fill fmt depth items
      pure (ret :: entries)) := rfl

theorem renderMembers_cons (name : CStr) (item : Json) (members : List (CStr × Json)) :
    renderMembers printNumber fill fmt depth ((name, item) :: members) = (do
      let str ← renderString fill name
      let ret ← renderValue printNumber fill fmt depth item
      let entries ← renderMembers printNumber fill fmt depth members
      pure ((str, ret) :: entries)) := rfl

/-- A text without a NUL is composed as it is, if there is room for it. -/
theorem composed_eq {f : Composer → Exec Composer} {s out : List Byte} (hf : Composer.Puts f s)
    (h0 : 0 ∉ s) (hroom : s.length < out.length) : composed f out = .ok s := by
  obtain ⟨rest, w, hw, hout⟩ := hf.finish hroom
  obtain ⟨w', hw', hpush⟩ := bind_eq_ok.mp hw
  rw [composed, hw', ok_bind, hpush, ok_bind, hout]
  exact congrArg (fun s : CStr => Except.ok s.bytes) (CStr.ofBuffer_bytes ⟨s, h0⟩ rest)

theorem renderString_eq (str : CStr) : renderString fill str = printStringPtr str := by
  rw [renderString, printStringPtr]
  rcases h : checkInt ((str.bytes.map escapeLength).sum + 3) with e | u
  · rfl
  · rw [ok_bind, ok_bind]
    have hprint : printStringPtr str =
        .ok (ch '"' :: str.bytes.flatMap escapeByte ++ [ch '"']) := by
      rw [printStringPtr, h]
      rfl
    refine composed_eq (composeString_puts str) (nul_notMem_printString hprint) ?_
    simp only [malloced, List.length_map, List.length_range, List.length_append, List.length_cons,
      List.length_nil, length_escape]
    omega

theorem length_malloced (n : ℕ) : (malloced fill n).length = n := by
  rw [malloced, List.length_map, List.length_range]

theorem nul_notMem_joinItems {entries : List (List Byte)} (h : ∀ e ∈ entries, 0 ∉ e) :
    0 ∉ joinItems fmt entries := by
  have hc : (0 : Byte) ≠ ch ',' ∧ (0 : Byte) ≠ ch ' ' := by decide
  cases entries with
  | nil => exact List.not_mem_nil
  | cons entry entries =>
    rw [List.forall_mem_cons] at h
    rw [joinItems_eq, List.mem_append, not_or]
    refine ⟨h.1, fun hmem => ?_⟩
    obtain ⟨e, he, hmem⟩ := List.mem_flatMap.mp hmem
    cases fmt with
    | false => simp [hc, h.2 e he] at hmem
    | true => simp [hc, h.2 e he] at hmem

theorem nul_notMem_joinMembers {entries : List (List Byte × List Byte)}
    (h : ∀ e ∈ entries, 0 ∉ e.1 ∧ 0 ∉ e.2) : 0 ∉ joinMembers fmt depth entries := by
  have hc : (0 : Byte) ≠ ch ',' ∧ (0 : Byte) ≠ ch ':' := by decide
  have htabs : 0 ∉ tabs depth := (Space.tabs depth).nul_notMem
  induction entries with
  | nil => exact List.not_mem_nil
  | cons e entries ih =>
    obtain ⟨name, entry⟩ := e
    rw [List.forall_mem_cons] at h
    have hrest := ih h.2
    rw [joinMembers]
    cases fmt with
    | false => simp [hc, h.1, hrest]
    | true => simp [hc, h.1, hrest, htabs]

theorem composeArray_eq (fmt : Bool) (fill : ℕ → Byte) {entries : List (List Byte)}
    (h : ∀ e ∈ entries, 0 ∉ e) :
    0 ∉ ch '[' :: joinItems fmt entries ++ [ch ']'] ∧
      composed (composeArray fmt entries) (malloced fill (arrayLength fmt entries)) =
        .ok (ch '[' :: joinItems fmt entries ++ [ch ']']) := by
  have hc : (0 : Byte) ≠ ch '[' ∧ (0 : Byte) ≠ ch ']' := by decide
  have h0 : 0 ∉ ch '[' :: joinItems fmt entries ++ [ch ']'] := by
    simp [hc, nul_notMem_joinItems h]
  refine ⟨h0, composed_eq (composeArray_puts fmt entries) h0 ?_⟩
  have hle := length_joinItems_le fmt entries
  rw [length_malloced, List.length_append, List.length_cons, List.length_singleton]
  omega

theorem composeObject_eq {entries : List (List Byte × List Byte)}
    (h : ∀ e ∈ entries, 0 ∉ e.1 ∧ 0 ∉ e.2) :
    0 ∉ ch '{' :: (if fmt then [10] else []) ++ joinMembers fmt (depth + 1) entries ++
        (if fmt then tabs depth else []) ++ [ch '}'] ∧
      composed (composeObject fmt depth entries)
          (malloced fill (objectLength fmt (depth + 1) entries)) =
        .ok (ch '{' :: (if fmt then [10] else []) ++ joinMembers fmt (depth + 1) entries ++
          (if fmt then tabs depth else []) ++ [ch '}']) := by
  have hc : (0 : Byte) ≠ ch '{' ∧ (0 : Byte) ≠ ch '}' := by decide
  have hnl : 0 ∉ (if fmt then ([10] : List Byte) else []) := (Space.newline fmt).nul_notMem
  have htabs : 0 ∉ (if fmt then tabs depth else []) := (Space.ite (Space.tabs _) fmt).nul_notMem
  have h0 : 0 ∉ ch '{' :: (if fmt then [10] else []) ++ joinMembers fmt (depth + 1) entries ++
      (if fmt then tabs depth else []) ++ [ch '}'] := by
    simp only [List.cons_append, List.mem_cons, List.mem_append, List.not_mem_nil, or_false, not_or]
    exact ⟨hc.1, ⟨⟨hnl, nul_notMem_joinMembers h⟩, htabs⟩, hc.2⟩
  refine ⟨h0, composed_eq (composeObject_puts fmt depth entries) h0 ?_⟩
  have hle := length_joinMembers_le fmt (depth + 1) entries
  rw [length_malloced]
  cases fmt with
  | false =>
    simp only [Bool.false_eq_true, if_false, List.length_append, List.length_cons,
      List.length_nil] at hle ⊢
    omega
  | true =>
    simp only [if_true, List.length_append, List.length_cons, List.length_nil, tabs,
      List.length_replicate] at hle ⊢
    omega

mutual

/-- **The printer stays inside of its allocations**, and makes the text of the item there, which
has no NUL in it. -/
theorem renderValue_spec (hnumber : ∀ text, 0 ∉ printNumber text) : ∀ (item : Json) (depth : ℕ),
    renderValue printNumber fill fmt depth item = printValue printNumber fmt depth item ∧
      ∀ out, printValue printNumber fmt depth item = .ok out → 0 ∉ out
  | .null, _ => by
    refine ⟨rfl, fun out h => ?_⟩
    cases h
    decide
  | .false, _ => by
    refine ⟨rfl, fun out h => ?_⟩
    cases h
    decide
  | .true, _ => by
    refine ⟨rfl, fun out h => ?_⟩
    cases h
    decide
  | .number text, _ => by
    refine ⟨rfl, fun out h => ?_⟩
    cases h
    exact hnumber text
  | .string str, _ => by
    refine ⟨renderString_eq str, fun out h => ?_⟩
    exact nul_notMem_printString h
  | .array items, depth => by
    obtain ⟨heq, h0⟩ := renderItems_spec hnumber items (depth + 1)
    rw [renderValue_array, printValue, heq]
    rcases checkInt items.length with e | u
    · exact ⟨rfl, fun out h => by cases h⟩
    rcases hentries : printItems printNumber fmt (depth + 1) items with e | entries
    · exact ⟨rfl, fun out h => by cases h⟩
    obtain ⟨hnul, hcompose⟩ := composeArray_eq fmt fill (h0 entries hentries)
    refine ⟨hcompose, fun out h => ?_⟩
    cases h
    exact hnul
  | .object members, depth => by
    obtain ⟨heq, h0⟩ := renderMembers_spec hnumber members (depth + 1)
    rw [renderValue_object, printValue, heq]
    rcases checkInt members.length with e | u
    · exact ⟨rfl, fun out h => by cases h⟩
    rcases hentries : printMembers printNumber fmt (depth + 1) members with e | entries
    · exact ⟨rfl, fun out h => by cases h⟩
    obtain ⟨hnul, hcompose⟩ := composeObject_eq (h0 entries hentries)
    refine ⟨hcompose, fun out h => ?_⟩
    cases h
    exact hnul

theorem renderItems_spec (hnumber : ∀ text, 0 ∉ printNumber text) :
    ∀ (items : List Json) (depth : ℕ),
      renderItems printNumber fill fmt depth items = printItems printNumber fmt depth items ∧
        ∀ entries, printItems printNumber fmt depth items = .ok entries → ∀ e ∈ entries, 0 ∉ e
  | [], _ => by
    refine ⟨rfl, fun entries h => ?_⟩
    cases h
    exact fun e he => by cases he
  | item :: items, depth => by
    obtain ⟨heq, h0⟩ := renderValue_spec hnumber item depth
    obtain ⟨heqs, h0s⟩ := renderItems_spec hnumber items depth
    rw [renderItems_cons, printItems, heq, heqs]
    refine ⟨rfl, fun entries h => ?_⟩
    obtain ⟨ret, hret, h⟩ := bind_eq_ok.mp h
    obtain ⟨rets, hrets, h⟩ := bind_eq_ok.mp h
    cases h
    exact List.forall_mem_cons.mpr ⟨h0 ret hret, h0s rets hrets⟩

theorem renderMembers_spec (hnumber : ∀ text, 0 ∉ printNumber text) :
    ∀ (members : List (CStr × Json)) (depth : ℕ),
      renderMembers printNumber fill fmt depth members =
          printMembers printNumber fmt depth members ∧
        ∀ entries, printMembers printNumber fmt depth members = .ok entries →
          ∀ e ∈ entries, 0 ∉ e.1 ∧ 0 ∉ e.2
  | [], _ => by
    refine ⟨rfl, fun entries h => ?_⟩
    cases h
    exact fun e he => by cases he
  | (name, item) :: members, depth => by
    obtain ⟨heq, h0⟩ := renderValue_spec hnumber item depth
    obtain ⟨heqs, h0s⟩ := renderMembers_spec hnumber members depth
    rw [renderMembers_cons, printMembers, renderString_eq, heq, heqs]
    refine ⟨rfl, fun entries h => ?_⟩
    obtain ⟨str, hstr, h⟩ := bind_eq_ok.mp h
    obtain ⟨ret, hret, h⟩ := bind_eq_ok.mp h
    obtain ⟨rets, hrets, h⟩ := bind_eq_ok.mp h
    cases h
    exact List.forall_mem_cons.mpr
      ⟨⟨nul_notMem_printString hstr, h0 ret hret⟩, h0s rets hrets⟩

end

end Render
