import AgcFramework.Lib.Decimal
import AgcFramework.Event.Dup
import AgcFramework.Json.RoundTrip

/-!
# Events as JSON

## Main definitions

* `agcEventSerializeJsonObj`, `agcEventSerializeJson`, `agcEventCreateJson`: the functions of
  `agc_event.c`
* `Event.RoundTrips`: the event that is read back is the one that was written
* `Event.Fits`: the lengths that the printer counts in an `int` do not overflow

## Main results

* `Event.json_round_trip_iff`: an event is read back from its text exactly when its lengths fit
-/

open Exec Chain Decimal

/-- `EVENT_ID_ALL`. -/
def EVENT_ID_ALL : ℤ := 0

/-- `EVENT_ID_LIMIT`. -/
def EVENT_ID_LIMIT : ℤ := 1024

/-- `EVENT_ID_IS_INVALID`. -/
def eventIdIsInvalid (x : ℤ) : Bool := x = EVENT_ID_ALL ∨ EVENT_ID_LIMIT ≤ x

/-- `event_templates`: the names registered for the events. -/
abbrev EventTemplates := ℕ → Option CStr

/-- The text that `agc_snprintf` makes with `%d`. -/
def intText (i : ℤ) : CStr := CStr.ofBuffer (decimalInt i)

/-- `agc_event_set_id`. -/
def agcEventSetId (e : Event) (eventId : ℤ) : Event := { e with eventId := eventId }

/-- `agc_event_set_body`, with a body that is not null. -/
def agcEventSetBody (e : Event) (body : CStr) : Event := { e with body := some body }

/-! ## Writing -/

/-- The loop of `agc_event_serialize_json_obj` over the headers; a null value becomes the empty
string. -/
def serializeHeaders (e : Event) : ℕ → Option Addr → Exec (List (CStr × Json))
  | 0, _ => .error .fuel
  | _ + 1, none => pure []
  | fuel + 1, some hp => do
    let h ← e.load hp
    let members ← serializeHeaders e fuel h.next
    pure ((h.name, .string (h.value.getD (CStr.ofString ""))) :: members)

/-- The read of `event_templates` at an event id. -/
def eventTemplate (templates : EventTemplates) (eventId : ℤ) : Exec (Option CStr) :=
  if 0 ≤ eventId ∧ eventId < EVENT_ID_LIMIT then pure (templates eventId.toNat) else .error .fault

/-- The member for the registered name. -/
def nameMembers : Option CStr → List (CStr × Json)
  | none => []
  | some name => [(CStr.ofString "_name", .string name)]

/-- The members for the body: its length, converted to an `int`, and the body itself. -/
def bodyMembers : Option CStr → List (CStr × Json)
  | none => []
  | some body =>
    [(CStr.ofString "_length", .string (intText (BitVec.ofNat 32 body.bytes.length).toInt)),
      (CStr.ofString "_body", .string body)]

/-- `agc_event_serialize_json_obj`. -/
def agcEventSerializeJsonObj (fuel : ℕ) (templates : EventTemplates) (e : Event) : Exec Json := do
  let headers ← serializeHeaders e fuel e.headers
  let template ← eventTemplate templates e.eventId
  pure (.object (headers ++ [(CStr.ofString "_id", .string (intText e.eventId))] ++
    nameMembers template ++ bodyMembers e.body))

/-- `agc_event_serialize_json`. -/
def agcEventSerializeJson (printNumber : List Byte → List Byte) (fuel : ℕ)
    (templates : EventTemplates) (e : Event) : Exec CStr := do
  let cj ← agcEventSerializeJsonObj fuel templates e
  cJSONPrintUnformatted printNumber cj

/-! ## Reading -/

/-- The children of an item, with their names. -/
def Json.children : Json → List (Option CStr × Json)
  | .object members => members.map fun m => (some m.1, m.2)
  | .array items => items.map fun item => (none, item)
  | _ => []

/-- The body of the loop of `agc_event_create_json`; only a string has a `valuestring`. -/
def addChild (fuel : ℕ) (e : Event) : Option CStr × Json → Exec (Option Event)
  | (some name, .string value) =>
    if name.SameName (CStr.ofString "_body") then pure (some (agcEventSetBody e value))
    else if name.SameName (CStr.ofString "_id") then
      if eventIdIsInvalid (atoi value.bytes) then pure none
      else pure (some (agcEventSetId e (atoi value.bytes)))
    else do
      let (e, _) ← agcEventAddHeaderString fuel e name (some value)
      pure (some e)
  | _ => pure (some e)

/-- The loop of `agc_event_create_json`. -/
def addChildren (fuel : ℕ) : Event → List (Option CStr × Json) → Exec (Option Event)
  | e, [] => pure (some e)
  | e, child :: children =>
    andThen (addChild fuel e child) fun e => addChildren fuel e children

/-- `agc_event_create_json`, on a memory whose nodes are `mem`; the event, or none on failure. -/
def agcEventCreateJson (fuel : ℕ) (mem : Addr → Option Header) (brk : Addr) (json : CStr) :
    Exec (Option Event) :=
  andThen (cJSONParse fuel json) fun cj =>
    andThen (addChildren fuel (agcEventCreate mem brk 0 0) cj.children) fun e =>
      if eventIdIsInvalid e.eventId then pure none else pure (some e)

namespace Event

variable {e : Event} {pairs : List (CStr × CStr)} {templates : EventTemplates}
  {printNumber : List Byte → List Byte}

/-! ## What is written -/

/-- The members that are strings. -/
def strings (pairs : List (CStr × CStr)) : List (CStr × Json) :=
  pairs.map fun p => (p.1, .string p.2)

theorem serializeHeaders_spec {cs : List Node} {p : Option Addr}
    (h : Segment Header.next e.mem p cs none) (hc : Carries cs pairs) :
    Returns (fun fuel => serializeHeaders e fuel p) (strings pairs) := by
  induction cs generalizing p pairs with
  | nil =>
    obtain rfl : p = none := h
    obtain rfl : pairs = [] := by simpa [Carries, texts] using hc.symm
    exact (Returns.const []).succ fun k => rfl
  | cons x cs ih =>
    obtain ⟨a, c⟩ := x
    obtain ⟨rfl, hm, hcs⟩ := h
    cases pairs with
    | nil => simp [Carries, texts] at hc
    | cons q pairs =>
      obtain ⟨hq, hc⟩ := List.cons.inj hc
      obtain ⟨hname, hvalue⟩ := Prod.ext_iff.mp hq
      have hcons : strings (q :: pairs) =
          (c.name, .string (c.value.getD (CStr.ofString ""))) :: strings pairs := by
        simp only at hname hvalue
        simp [strings, hname, hvalue]
      rw [hcons]
      refine ((ih hcs hc).bind (g := fun _ members =>
        pure ((c.name, Json.string (c.value.getD (CStr.ofString ""))) :: members))
          (Returns.const _)).succ fun k => ?_
      simp only [serializeHeaders, load_eq hm, ok_bind]

/-- The text of the registered name. -/
def nameTexts : Option CStr → List (CStr × CStr)
  | none => []
  | some name => [(CStr.ofString "_name", name)]

/-- The texts of the body. -/
def bodyTexts : Option CStr → List (CStr × CStr)
  | none => []
  | some body =>
    [(CStr.ofString "_length", intText (BitVec.ofNat 32 body.bytes.length).toInt),
      (CStr.ofString "_body", body)]

/-- The texts that an event is written with. -/
def writtenTexts (templates : EventTemplates) (e : Event) (pairs : List (CStr × CStr)) :
    List (CStr × CStr) :=
  pairs ++ [(CStr.ofString "_id", intText e.eventId)] ++ nameTexts (templates e.eventId.toNat) ++
    bodyTexts e.body

theorem strings_writtenTexts (templates : EventTemplates) (e : Event)
    (pairs : List (CStr × CStr)) :
    strings (writtenTexts templates e pairs) =
      strings pairs ++ [(CStr.ofString "_id", .string (intText e.eventId))] ++
        nameMembers (templates e.eventId.toNat) ++ bodyMembers e.body := by
  have hname : ∀ o, strings (nameTexts o) = nameMembers o := by
    rintro (_ | name) <;> rfl
  have hbody : ∀ o, strings (bodyTexts o) = bodyMembers o := by
    rintro (_ | body) <;> rfl
  rw [← hname, ← hbody]
  simp [strings, writtenTexts]

theorem serializeJsonObj_spec (h : e.Represents pairs) (h0 : 0 ≤ e.eventId)
    (hid : e.eventId < EVENT_ID_LIMIT) :
    Returns (fun fuel => agcEventSerializeJsonObj fuel templates e)
      (.object (strings (writtenTexts templates e pairs))) := by
  obtain ⟨cs, hl, hc, -⟩ := h
  have htemplate : eventTemplate templates e.eventId = .ok (templates e.eventId.toNat) :=
    if_pos ⟨h0, hid⟩
  rw [strings_writtenTexts]
  refine ((serializeHeaders_spec hl.chain hc).bind (g := fun _ headers =>
    pure (.object (headers ++ [(CStr.ofString "_id", .string (intText e.eventId))] ++
      nameMembers (templates e.eventId.toNat) ++ bodyMembers e.body)))
    (Returns.const _)).congr fun k => ?_
  simp only [agcEventSerializeJsonObj, htemplate, ok_bind]

/-! ## What fits -/

/-- The length of a string as the printer counts it, with the quotes and the NUL. -/
def printedLength (s : CStr) : ℕ := (s.bytes.map escapeLength).sum + 3

/-- The printer's counts of the texts and of the members fit an `int`. -/
def FitTexts (texts : List (CStr × CStr)) : Prop :=
  texts.length ≤ INT_MAX ∧
    ∀ p ∈ texts, printedLength p.1 ≤ INT_MAX ∧ printedLength p.2 ≤ INT_MAX

theorem printStringPtr_ok_iff {s : CStr} :
    (∃ out, printStringPtr s = .ok out) ↔ printedLength s ≤ INT_MAX := by
  constructor
  · rintro ⟨out, h⟩
    obtain ⟨u, hlen, -⟩ := bind_eq_ok.mp h
    exact checkInt_eq_ok.mp hlen
  · intro h
    refine ⟨_, bind_eq_ok.mpr ⟨(), checkInt_of_le h, rfl⟩⟩

/-- String members are printed exactly when each text fits. -/
theorem printMembers_ok_iff {depth : ℕ} {texts : List (CStr × CStr)} :
    (∃ entries, printMembers printNumber false depth (strings texts) = .ok entries) ↔
      ∀ p ∈ texts, printedLength p.1 ≤ INT_MAX ∧ printedLength p.2 ≤ INT_MAX := by
  induction texts with
  | nil =>
    refine iff_of_true ⟨[], rfl⟩ fun p hp => ?_
    cases hp
  | cons p texts ih =>
    rw [List.forall_mem_cons, ← ih]
    constructor
    · rintro ⟨entries, h⟩
      obtain ⟨str, hstr, h⟩ := bind_eq_ok.mp h
      obtain ⟨ret, hret, h⟩ := bind_eq_ok.mp h
      obtain ⟨rets, hrets, -⟩ := bind_eq_ok.mp h
      exact ⟨⟨printStringPtr_ok_iff.mp ⟨str, hstr⟩, printStringPtr_ok_iff.mp ⟨ret, hret⟩⟩,
        rets, hrets⟩
    · rintro ⟨⟨hname, hvalue⟩, rets, hrets⟩
      obtain ⟨str, hstr⟩ := printStringPtr_ok_iff.mpr hname
      obtain ⟨ret, hret⟩ := printStringPtr_ok_iff.mpr hvalue
      exact ⟨(str, ret) :: rets, bind_eq_ok.mpr ⟨str, hstr, bind_eq_ok.mpr ⟨ret, hret,
        bind_eq_ok.mpr ⟨rets, hrets, rfl⟩⟩⟩⟩

/-- An object of strings is printed exactly when its counts fit. -/
theorem printObject_ok_iff {depth : ℕ} {texts : List (CStr × CStr)} :
    (∃ out, printValue printNumber false depth (.object (strings texts)) = .ok out) ↔
      FitTexts texts := by
  have hlen : (strings texts).length = texts.length := List.length_map _
  constructor
  · rintro ⟨out, h⟩
    rw [printValue] at h
    obtain ⟨u, hcount, h⟩ := bind_eq_ok.mp h
    obtain ⟨entries, hentries, -⟩ := bind_eq_ok.mp h
    exact ⟨hlen ▸ checkInt_eq_ok.mp hcount, printMembers_ok_iff.mp ⟨entries, hentries⟩⟩
  · rintro ⟨hcount, hfit⟩
    obtain ⟨entries, hentries⟩ := printMembers_ok_iff.mpr hfit
    rw [printValue]
    exact ⟨_, bind_eq_ok.mpr ⟨(), checkInt_of_le (hlen ▸ hcount),
      bind_eq_ok.mpr ⟨entries, hentries, rfl⟩⟩⟩

theorem numberFree_strings (texts : List (CStr × CStr)) :
    (Json.object (strings texts)).NumberFree := by
  rw [Json.NumberFree]
  induction texts with
  | nil => trivial
  | cons p texts ih => exact ⟨trivial, ih⟩

/-! ## What is read -/

theorem addChildren_append (fuel : ℕ) (e : Event) (cs ds : List (Option CStr × Json)) :
    addChildren fuel e (cs ++ ds) =
      andThen (addChildren fuel e cs) fun e => addChildren fuel e ds := by
  induction cs generalizing e with
  | nil => rfl
  | cons c cs ih =>
    simp only [List.cons_append, addChildren, ih]
    cases addChild fuel e c with
    | error err => rfl
    | ok o =>
      cases o with
      | none => rfl
      | some e' => rfl

/-- The children that the texts are written as. -/
def childrenOf (texts : List (CStr × CStr)) : List (Option CStr × Json) :=
  texts.map fun p => (some p.1, .string p.2)

theorem children_strings (texts : List (CStr × CStr)) :
    (Json.object (strings texts)).children = childrenOf texts := by
  simp [Json.children, strings, childrenOf]

/-- The names that are not read as headers. -/
def IsControl (name : CStr) : Prop :=
  name.SameName (CStr.ofString "_body") ∨ name.SameName (CStr.ofString "_id")

/-- A text with a new name becomes a header. -/
theorem addChild_header (h : e.Represents pairs) {name : CStr} (value : CStr)
    (hc : ¬ IsControl name) (ha : ¬ Present name pairs) :
    ∃ e', Returns (fun fuel => addChild fuel e (some name, .string value)) (some e') ∧
      e'.Represents (pairs ++ [(name, value)]) ∧ e'.eventId = e.eventId ∧ e'.body = e.body := by
  obtain ⟨hbody, hid⟩ := not_or.mp hc
  obtain ⟨e', hret, hrest⟩ := h.addAbsent name value ha
  refine ⟨e', ?_, hrest⟩
  refine (hret.bind (g := fun _ e => pure (some e)) (Returns.const _)).congr fun k => ?_
  simp only [addChild, if_neg hbody, if_neg hid, agcEventAddHeaderString, bind_assoc, pure_bind]

/-- Texts with new names that are pairwise distinct become headers in order. -/
theorem addChildren_headers {texts : List (CStr × CStr)} (h : e.Represents pairs)
    (hc : ∀ p ∈ texts, ¬ IsControl p.1)
    (hd : (pairs ++ texts).Pairwise fun p q => ¬ p.1.SameName q.1) :
    ∃ e', Returns (fun fuel => addChildren fuel e (childrenOf texts)) (some e') ∧
      e'.Represents (pairs ++ texts) ∧ e'.eventId = e.eventId ∧ e'.body = e.body := by
  induction texts generalizing e pairs with
  | nil =>
    rw [List.append_nil]
    exact ⟨e, Returns.const _, h, rfl, rfl⟩
  | cons p texts ih =>
    have hnew : ¬ Present p.1 pairs := by
      rintro ⟨q, hq, hs⟩
      exact (List.pairwise_append.mp hd).2.2 q hq p List.mem_cons_self hs
    obtain ⟨e₁, hret₁, hrep₁, hid₁, hbody₁⟩ :=
      addChild_header h p.2 (hc p List.mem_cons_self) hnew
    rw [List.append_cons] at hd ⊢
    obtain ⟨e₂, hret₂, hrep₂, hid₂, hbody₂⟩ :=
      ih hrep₁ (fun q hq => hc q (List.mem_cons_of_mem p hq)) hd
    exact ⟨e₂, hret₁.andThen hret₂, hrep₂, hid₂.trans hid₁, hbody₂.trans hbody₁⟩

theorem Represents.setId (h : e.Represents pairs) (i : ℤ) :
    (agcEventSetId e i).Represents pairs := h.congr rfl rfl rfl rfl

theorem Represents.setBody (h : e.Represents pairs) (body : CStr) :
    (agcEventSetBody e body).Represents pairs := h.congr rfl rfl rfl rfl

theorem intText_bytes (n : ℕ) : (intText n).bytes = decimal n := by
  have hdec : decimalInt (n : ℤ) = decimal n := by
    simp [decimalInt]
  rw [intText, hdec]
  exact congrArg CStr.bytes (CStr.ofBuffer_self ⟨decimal n, nul_notMem_decimal n⟩)

/-- A valid id is read back. -/
theorem atoi_intText {i : ℤ} (h0 : 0 ≤ i) (hi : i < EVENT_ID_LIMIT) :
    atoi (intText i).bytes = i := by
  obtain ⟨n, rfl⟩ := Int.eq_ofNat_of_zero_le h0
  have hn : n < 2 ^ 31 := by
    unfold EVENT_ID_LIMIT at hi
    omega
  rw [intText_bytes]
  have hatoi := atoi_decimal hn (s := []) (by simp)
  rwa [List.append_nil] at hatoi

theorem addChild_id {i : ℤ} (h0 : 0 < i) (hi : i < EVENT_ID_LIMIT) (fuel : ℕ) (e : Event) :
    addChild fuel e (some (CStr.ofString "_id"), .string (intText i)) =
      .ok (some (agcEventSetId e i)) := by
  have hbody : ¬ (CStr.ofString "_id").SameName (CStr.ofString "_body") := by decide
  have hvalid : eventIdIsInvalid i = false := by
    simp [eventIdIsInvalid, EVENT_ID_ALL, h0.ne', hi]
  simp [addChild, hbody, CStr.SameName.refl, atoi_intText h0.le hi, hvalid]

theorem addChild_body (fuel : ℕ) (e : Event) (body : CStr) :
    addChild fuel e (some (CStr.ofString "_body"), .string body) =
      .ok (some (agcEventSetBody e body)) := by
  simp [addChild, CStr.SameName.refl]

/-- The names that the writer adds itself. -/
def IsReserved (name : CStr) : Prop :=
  name.SameName (CStr.ofString "_id") ∨ name.SameName (CStr.ofString "_name") ∨
    name.SameName (CStr.ofString "_length") ∨ name.SameName (CStr.ofString "_body")

/-- The added headers. -/
def IsAdded (name : CStr) : Prop :=
  name.SameName (CStr.ofString "_name") ∨ name.SameName (CStr.ofString "_length")

instance (name : CStr) : Decidable (IsAdded name) :=
  inferInstanceAs (Decidable (_ ∨ _))

/-- The header for the length of the body. -/
def lengthTexts : Option CStr → List (CStr × CStr)
  | none => []
  | some body => [(CStr.ofString "_length", intText (BitVec.ofNat 32 body.bytes.length).toInt)]

/-- The headers that reading adds behind the written ones. -/
def addedTexts (templates : EventTemplates) (e : Event) : List (CStr × CStr) :=
  nameTexts (templates e.eventId.toNat) ++ lengthTexts e.body

theorem mem_addedTexts {p : CStr × CStr} (hp : p ∈ addedTexts templates e) :
    p.1 = CStr.ofString "_name" ∨ p.1 = CStr.ofString "_length" := by
  rcases List.mem_append.mp hp with hp | hp
  · cases ht : templates e.eventId.toNat with
    | none => simp [ht, nameTexts] at hp
    | some name =>
      rw [ht, nameTexts, List.mem_singleton] at hp
      exact Or.inl (congrArg Prod.fst hp)
  · cases hb : e.body with
    | none => simp [hb, lengthTexts] at hp
    | some body =>
      rw [hb, lengthTexts, List.mem_singleton] at hp
      exact Or.inr (congrArg Prod.fst hp)

theorem pairwise_addedTexts (hd : pairs.Pairwise fun p q => ¬ p.1.SameName q.1)
    (hr : ∀ p ∈ pairs, ¬ IsReserved p.1) :
    (pairs ++ addedTexts templates e).Pairwise fun p q => ¬ p.1.SameName q.1 := by
  refine List.pairwise_append.mpr ⟨hd, ?_, ?_⟩
  · have hne : ¬ (CStr.ofString "_name").SameName (CStr.ofString "_length") := by decide
    unfold addedTexts
    cases templates e.eventId.toNat <;> cases e.body <;> simp [nameTexts, lengthTexts, hne]
  · intro p hp q hq hs
    rcases mem_addedTexts hq with hname | hlength
    · exact hr p hp (Or.inr (Or.inl (hname ▸ hs)))
    · exact hr p hp (Or.inr (Or.inr (Or.inl (hlength ▸ hs))))

theorem not_isControl_addedTexts {p : CStr × CStr} (hp : p ∈ addedTexts templates e) :
    ¬ IsControl p.1 := by
  rcases mem_addedTexts hp with h | h
  · rw [h]
    unfold IsControl
    decide
  · rw [h]
    unfold IsControl
    decide

theorem writtenTexts_eq (templates : EventTemplates) (e : Event) (pairs : List (CStr × CStr)) :
    writtenTexts templates e pairs =
      pairs ++ (CStr.ofString "_id", intText e.eventId) ::
        (addedTexts templates e ++
          e.body.toList.map fun body => (CStr.ofString "_body", body)) := by
  unfold writtenTexts addedTexts
  cases e.body <;> simp [bodyTexts, lengthTexts]

/-- The event that was written is read back, with a header for the registered name and one for the
length of the body. -/
theorem addChildren_written {e₀ : Event} (h : e₀.Represents []) (hb₀ : e₀.body = none)
    (h0 : 0 < e.eventId) (hid : e.eventId < EVENT_ID_LIMIT)
    (hd : pairs.Pairwise fun p q => ¬ p.1.SameName q.1) (hr : ∀ p ∈ pairs, ¬ IsReserved p.1) :
    ∃ e', Returns (fun fuel => addChildren fuel e₀ (childrenOf (writtenTexts templates e pairs)))
        (some e') ∧
      e'.Represents (pairs ++ addedTexts templates e) ∧
      e'.eventId = e.eventId ∧ e'.body = e.body := by
  have hcontrol : ∀ p ∈ pairs, ¬ IsControl p.1 := fun p hp hc =>
    hr p hp (hc.elim (fun hb => Or.inr (Or.inr (Or.inr hb))) Or.inl)
  obtain ⟨e₁, hret₁, hrep₁, -, hbody₁⟩ := addChildren_headers h hcontrol hd
  rw [List.nil_append] at hrep₁
  have hpw : (pairs ++ addedTexts templates e).Pairwise fun p q => ¬ p.1.SameName q.1 :=
    pairwise_addedTexts hd hr
  obtain ⟨e₂, hret₂, hrep₂, hid₂, hbody₂⟩ := addChildren_headers (hrep₁.setId e.eventId)
    (fun p hp => not_isControl_addedTexts hp) hpw
  have hidRet : Returns (fun fuel => addChild fuel e₁
      (some (CStr.ofString "_id"), .string (intText e.eventId)))
      (some (agcEventSetId e₁ e.eventId)) :=
    (Returns.const _).congr fun k => addChild_id h0 hid k e₁
  -- the written texts are the headers, the id, the added headers and the body
  have hsplit : ∀ fuel, addChildren fuel e₀ (childrenOf (writtenTexts templates e pairs)) =
      andThen (addChildren fuel e₀ (childrenOf pairs)) fun e₁ =>
        andThen (addChild fuel e₁ (some (CStr.ofString "_id"), .string (intText e.eventId)))
          fun e₁ => andThen (addChildren fuel e₁ (childrenOf (addedTexts templates e)))
            fun e₂ => addChildren fuel e₂
              (childrenOf (e.body.toList.map fun body => (CStr.ofString "_body", body))) := by
    intro fuel
    rw [writtenTexts_eq]
    simp only [childrenOf, List.map_append, List.map_cons, addChildren_append, addChildren]
  cases hb : e.body with
  | none =>
    refine ⟨e₂, ?_, hrep₂, hid₂, ?_⟩
    · refine Returns.congr (hret₁.andThen ?_) hsplit
      refine hidRet.andThen (hret₂.andThen ?_)
      rw [hb]
      exact Returns.const _
    · rw [hbody₂, ← hb₀, ← hbody₁]
      rfl
  | some body =>
    refine ⟨agcEventSetBody e₂ body, ?_, hrep₂.setBody body, hid₂, rfl⟩
    refine Returns.congr (hret₁.andThen ?_) hsplit
    refine hidRet.andThen (hret₂.andThen ?_)
    rw [hb]
    exact (Returns.const _).congr fun k => by
      simp [childrenOf, addChildren, addChild_body]

/-! ## The round trip -/

/-- The event is read back from its text, into any memory: with its id, its body, and its headers
apart from those that reading adds. -/
def RoundTrips (printNumber : List Byte → List Byte) (templates : EventTemplates) (e : Event)
    (pairs : List (CStr × CStr)) : Prop :=
  ∃ text, Returns (fun fuel => agcEventSerializeJson printNumber fuel templates e) text ∧
    ∀ mem brk, ∃ e' pairs', Returns (fun fuel => agcEventCreateJson fuel mem brk text) (some e') ∧
      e'.eventId = e.eventId ∧ e'.body = e.body ∧ e'.Represents pairs' ∧
      pairs'.filter (fun p => ¬ IsAdded p.1) = pairs

theorem filter_addedTexts (hr : ∀ p ∈ pairs, ¬ IsReserved p.1) :
    (pairs ++ addedTexts templates e).filter (fun p => ¬ IsAdded p.1) = pairs := by
  rw [List.filter_append, List.filter_eq_self.mpr, List.filter_eq_nil_iff.mpr, List.append_nil]
  · intro p hp
    simp only [decide_not, Bool.not_eq_true', decide_eq_false_iff_not, not_not]
    rcases mem_addedTexts hp with h | h
    · exact Or.inl (h ▸ CStr.SameName.refl _)
    · exact Or.inr (h ▸ CStr.SameName.refl _)
  · intro p hp
    simp only [decide_not, Bool.not_eq_true', decide_eq_false_iff_not]
    rintro (h | h)
    · exact hr p hp (Or.inr (Or.inl h))
    · exact hr p hp (Or.inr (Or.inr (Or.inl h)))

/-- The event's texts and members fit the counts of the printer. -/
def Fits (templates : EventTemplates) (e : Event) (pairs : List (CStr × CStr)) : Prop :=
  FitTexts (writtenTexts templates e pairs)

/-- An event that is written at every fuel from some on fits. -/
theorem fits_of_serializes (printNumber : List Byte → List Byte) (h : e.Represents pairs)
    (h0 : 0 ≤ e.eventId) (hid : e.eventId < EVENT_ID_LIMIT) (n : ℕ)
    (hwrite : ∀ k, n ≤ k → ∃ text, agcEventSerializeJson printNumber k templates e = .ok text) :
    Fits templates e pairs := by
  obtain ⟨m, hm⟩ := serializeJsonObj_spec h h0 hid
  obtain ⟨text, htext⟩ := hwrite (max n m) (Nat.le_max_left n m)
  obtain ⟨json, hjson, hprint⟩ := bind_eq_ok.mp htext
  obtain rfl := Except.ok.inj ((hm (max n m) (Nat.le_max_right n m)).symm.trans hjson)
  obtain ⟨out, hout, -⟩ := bind_eq_ok.mp hprint
  exact printObject_ok_iff.mp ⟨out, hout⟩

/-- The events that are written are those that fit. -/
theorem serializes_iff (h : e.Represents pairs) (h0 : 0 ≤ e.eventId)
    (hid : e.eventId < EVENT_ID_LIMIT) :
    (∃ text, Returns (fun fuel => agcEventSerializeJson printNumber fuel templates e) text) ↔
      Fits templates e pairs := by
  constructor
  · rintro ⟨text, n, hn⟩
    exact fits_of_serializes printNumber h h0 hid n fun k hk => ⟨text, hn k hk⟩
  · intro hfit
    obtain ⟨out, hout⟩ := printObject_ok_iff.mpr hfit
    have hprint : cJSONPrintUnformatted printNumber
        (.object (strings (writtenTexts templates e pairs))) = .ok (CStr.ofBuffer (out ++ [0])) :=
      bind_eq_ok.mpr ⟨out, hout, rfl⟩
    exact ⟨_, (serializeJsonObj_spec h h0 hid).bind ((Returns.const _).congr fun k => hprint)⟩

theorem RoundTrips.fits (h : e.Represents pairs) (h0 : 0 ≤ e.eventId)
    (hid : e.eventId < EVENT_ID_LIMIT) (hrt : RoundTrips printNumber templates e pairs) :
    Fits templates e pairs := by
  obtain ⟨text, hret, -⟩ := hrt
  exact (serializes_iff h h0 hid).mp ⟨text, hret⟩

/-- An event that fits is written, and read back into any memory with its id, its body and its
headers, behind which stand those that reading adds. -/
theorem Fits.readBack (printNumber : List Byte → List Byte) (hfit : Fits templates e pairs)
    (h : e.Represents pairs) (h0 : 0 < e.eventId) (hid : e.eventId < EVENT_ID_LIMIT)
    (hd : pairs.Pairwise fun p q => ¬ p.1.SameName q.1) (hr : ∀ p ∈ pairs, ¬ IsReserved p.1) :
    ∃ text, Returns (fun fuel => agcEventSerializeJson printNumber fuel templates e) text ∧
      ∀ mem brk, ∃ e', Returns (fun fuel => agcEventCreateJson fuel mem brk text) (some e') ∧
        e'.eventId = e.eventId ∧ e'.body = e.body ∧
        e'.Represents (pairs ++ addedTexts templates e) := by
  obtain ⟨out, hout⟩ : ∃ out, printValue printNumber false 0
      (.object (strings (writtenTexts templates e pairs))) = .ok out := printObject_ok_iff.mpr hfit
  have hprint : cJSONPrintUnformatted printNumber
      (.object (strings (writtenTexts templates e pairs))) =
        .ok (CStr.ofBuffer (out ++ [0])) := bind_eq_ok.mpr ⟨out, hout, rfl⟩
  refine ⟨CStr.ofBuffer (out ++ [0]), ?_, fun mem brk => ?_⟩
  · refine (serializeJsonObj_spec h h0.le hid).bind ((Returns.const _).congr fun k => hprint)
  · -- the parser gives back the object, and the loop over its members the event
    have hparse := cJSONParse_print (numberFree_strings _) hprint
    obtain ⟨e', hret, hrep, hid', hbody'⟩ :
        ∃ e', Returns (fun fuel => addChildren fuel (agcEventCreate mem brk 0 0)
            (childrenOf (writtenTexts templates e pairs))) (some e') ∧
          e'.Represents (pairs ++ addedTexts templates e) ∧
          e'.eventId = e.eventId ∧ e'.body = e.body :=
      addChildren_written (represents_create mem brk 0 0) rfl h0 hid hd hr
    -- the last test of the function lets the id pass
    have hvalid : eventIdIsInvalid e'.eventId = false := by
      rw [hid']
      simp [eventIdIsInvalid, EVENT_ID_ALL, h0.ne', hid]
    refine ⟨e', ?_, hid', hbody', hrep⟩
    refine hparse.andThen ?_
    rw [children_strings]
    refine hret.andThen ?_
    rw [hvalid]
    exact Returns.const _

theorem Fits.roundTrips (hfit : Fits templates e pairs) (h : e.Represents pairs)
    (h0 : 0 < e.eventId) (hid : e.eventId < EVENT_ID_LIMIT)
    (hd : pairs.Pairwise fun p q => ¬ p.1.SameName q.1) (hr : ∀ p ∈ pairs, ¬ IsReserved p.1) :
    RoundTrips printNumber templates e pairs := by
  obtain ⟨text, hwrite, hread⟩ : ∃ text,
      Returns (fun fuel => agcEventSerializeJson printNumber fuel templates e) text ∧
      ∀ mem brk, ∃ e', Returns (fun fuel => agcEventCreateJson fuel mem brk text) (some e') ∧
        e'.eventId = e.eventId ∧ e'.body = e.body ∧
        e'.Represents (pairs ++ addedTexts templates e) :=
    hfit.readBack printNumber h h0 hid hd hr
  refine ⟨text, hwrite, fun mem brk => ?_⟩
  obtain ⟨e', hret, hid', hbody', hrep⟩ := hread mem brk
  exact ⟨e', _, hret, hid', hbody', hrep, filter_addedTexts hr⟩

/-- **Decode undoes encode**, exactly for the events whose texts fit the printer's counts: an event
with a valid id and with names that are distinct and not reserved is read back from its text. -/
theorem json_round_trip_iff (printNumber : List Byte → List Byte) (templates : EventTemplates)
    (h : e.Represents pairs) (hid : 1 ≤ e.eventId ∧ e.eventId ≤ 1023)
    (hd : pairs.Pairwise fun p q => ¬ p.1.SameName q.1) (hr : ∀ p ∈ pairs, ¬ IsReserved p.1) :
    RoundTrips printNumber templates e pairs ↔ Fits templates e pairs := by
  have h0 : 0 < e.eventId := by omega
  have hlimit : e.eventId < EVENT_ID_LIMIT := by
    unfold EVENT_ID_LIMIT
    omega
  constructor
  · exact fun hrt => hrt.fits h h0.le hlimit
  · exact fun hfit => hfit.roundTrips h h0 hlimit hd hr

/-- An event with one header. -/
def single (name value : CStr) (body : Option CStr) : Event where
  eventId := 7
  sourceId := 0
  headers := some 1
  lastHeader := some 1
  body := body
  mem := fun a => if a = 1 then some ⟨name, some value, none⟩ else none
  brk := 2

theorem represents_single (name value : CStr) (body : Option CStr) :
    (single name value body).Represents [(name, value)] :=
  ⟨[(1, ⟨name, some value, none⟩)], ⟨⟨rfl, rfl, rfl⟩, List.nodup_singleton 1, rfl⟩, rfl, by
    intro x hx
    rw [List.mem_singleton.mp hx]
    exact Nat.lt_succ_self 1⟩

theorem valid_single (name value : CStr) (body : Option CStr) :
    1 ≤ (single name value body).eventId ∧ (single name value body).eventId ≤ 1023 :=
  ⟨(by decide : (1 : ℤ) ≤ 7), (by decide : (7 : ℤ) ≤ 1023)⟩

/-- Two headers: a name with a quote, a value with a control byte and one that is not ASCII, and an
empty value; and a registered name. -/
theorem json_round_trip_two :
    RoundTrips id (fun _ => some (CStr.ofString "X"))
      (double ⟨[34], by decide⟩ ⟨[1, 255], by decide⟩ (CStr.ofString "b") (CStr.ofString ""))
      [(⟨[34], by decide⟩, ⟨[1, 255], by decide⟩), (CStr.ofString "b", CStr.ofString "")] := by
  refine (json_round_trip_iff id _ (represents_double _ _ _ _)
    ⟨(by decide : (1 : ℤ) ≤ 7), (by decide : (7 : ℤ) ≤ 1023)⟩ ?_ ?_).mpr ?_
  · rw [List.pairwise_pair]
    decide
  · intro p hp
    unfold IsReserved
    rcases List.mem_pair.mp hp with rfl | rfl
    · decide
    · decide
  · refine ⟨by decide, ?_⟩
    decide

theorem printedLength_replicate (n : ℕ) :
    printedLength (CStr.replicate n 97 (by decide)) = n + 3 := by
  have hlen : escapeLength 97 = 1 := by decide
  simp [printedLength, CStr.replicate, hlen]

/-- A value whose length overflows in the printer. -/
theorem not_roundTrips_single {value : CStr} (hv : INT_MAX < printedLength value) :
    ¬ RoundTrips printNumber templates (single ⟨[97], by decide⟩ value none)
      [(⟨[97], by decide⟩, value)] := by
  intro hrt
  have hvalid := valid_single ⟨[97], by decide⟩ value none
  have hfit := hrt.fits (represents_single _ _ _) (by omega) (by unfold EVENT_ID_LIMIT; omega)
  exact absurd (hfit.2 _ List.mem_cons_self).2 (Nat.not_le.mpr hv)

/-- A value of `2 ^ 31` letters is not read back. -/
theorem json_round_trip_overflow :
    ¬ ∀ (e : Event) (pairs : List (CStr × CStr)), e.Represents pairs →
      (1 ≤ e.eventId ∧ e.eventId ≤ 1023) → (pairs.Pairwise fun p q => ¬ p.1.SameName q.1) →
      (∀ p ∈ pairs, ¬ IsReserved p.1) → RoundTrips id (fun _ => none) e pairs := by
  intro hall
  have hv : INT_MAX < printedLength (CStr.replicate (2 ^ 31) 97 (by decide)) := by
    rw [printedLength_replicate]
    decide
  refine not_roundTrips_single hv (hall _ _ (represents_single _ _ _) (valid_single _ _ _) ?_ ?_)
  · exact List.pairwise_singleton _ _
  · intro p hp
    have hname : p.1 = ⟨[97], by decide⟩ := by rw [List.mem_singleton.mp hp]
    rw [hname]
    unfold IsReserved
    decide

end Event
