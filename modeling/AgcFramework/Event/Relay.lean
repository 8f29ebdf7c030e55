import AgcFramework.Event.Dup
import AgcFramework.Event.Json

/-!
# Relaying events through a message queue

A producer's `handle_event` writes an event as JSON, and the consumer's thread makes an event of the
text and fires it, so that it may be written once more. The writer adds members of its own, which
the reader takes for headers: an event with a registered name or with a body is written with one
more member after every relay.

## Main definitions

* `relay`: one relay, from the producer to the consumer
* `Event.Relays k e e'`: after `k` relays the event `e` has become `e'`
* `Event.Faithful e e'`: the relayed event is written as the first one, can be relayed and cloned

## Main results

* `Event.Plain.relay`: a relay keeps an event to which nothing is added
* `Event.relay_stable_iff`: the events that every number of relays leaves as they are
-/

open Exec

/-- One relay: the text that `handle_event` of the producer sends is read by the consumer's thread,
in a process whose header nodes are `mem`. -/
def relay (printNumber : List Byte → List Byte) (templates : EventTemplates) (fuel : ℕ)
    (mem : Addr → Option Header) (brk : Addr) (e : Event) : Exec (Option Event) := do
  let pjson ← agcEventSerializeJson printNumber fuel templates e
  agcEventCreateJson fuel mem brk pjson

namespace Event

variable {printNumber : List Byte → List Byte} {templates : EventTemplates} {e e' e'' : Event}
  {pairs : List (CStr × CStr)} {k : ℕ}

/-- After `k` relays, each into a memory of its own, the event `e` has become the last one. -/
inductive Relays (printNumber : List Byte → List Byte) (templates : EventTemplates) (e : Event) :
    ℕ → Event → Prop
  | zero : Relays printNumber templates e 0 e
  | succ {k : ℕ} {e' e'' : Event} {mem : Addr → Option Header} {brk : Addr}
      (h : Relays printNumber templates e k e')
      (hr : Returns (fun fuel => relay printNumber templates fuel mem brk e') (some e'')) :
      Relays printNumber templates e (k + 1) e''

/-- The relayed event `e'` is written with the members of `e`, each name once, and can itself be
decoded from its text and cloned. -/
structure Faithful (printNumber : List Byte → List Byte) (templates : EventTemplates)
    (e e' : Event) : Prop where
  members : ∃ ms ms',
    Returns (fun fuel => agcEventSerializeJsonObj fuel templates e) (.object ms) ∧
    Returns (fun fuel => agcEventSerializeJsonObj fuel templates e') (.object ms') ∧
    (∀ m, m ∈ ms' ↔ m ∈ ms) ∧ (ms'.map Prod.fst).Nodup
  decoded : ∀ mem brk, ∃ e'',
    Returns (fun fuel => relay printNumber templates fuel mem brk e') (some e'')
  cloned : ∃ clone, Returns (fun fuel => agcEventDup fuel e') clone

/-! ## One relay -/

/-- Only an event that fits is relayed. -/
theorem fits_of_relay {mem : Addr → Option Header} {brk : Addr} {o : Option Event}
    (h : e.Represents pairs) (h0 : 0 ≤ e.eventId) (hid : e.eventId < EVENT_ID_LIMIT)
    (hr : Returns (fun fuel => relay printNumber templates fuel mem brk e) o) :
    Fits templates e pairs := by
  obtain ⟨n, hn⟩ := hr
  obtain ⟨m, hm⟩ : Returns (fun fuel => agcEventSerializeJsonObj fuel templates e) _ :=
    serializeJsonObj_spec h h0 hid
  -- at a fuel that is enough for both, the text is that of the written object
  have hrun := hn (max n m) (Nat.le_max_left n m)
  obtain ⟨text, htext, -⟩ := bind_eq_ok.mp hrun
  obtain ⟨cj, hcj, hprint⟩ := bind_eq_ok.mp htext
  cases hcj.symm.trans (hm (max n m) (Nat.le_max_right n m))
  obtain ⟨out, hout, -⟩ := bind_eq_ok.mp hprint
  exact printObject_ok_iff.mp ⟨out, hout⟩

/-- An event that fits becomes one with the headers that reading adds. -/
theorem Fits.relay (printNumber : List Byte → List Byte) (hfit : Fits templates e pairs)
    (h : e.Represents pairs) (h0 : 0 < e.eventId) (hid : e.eventId < EVENT_ID_LIMIT)
    (hd : pairs.Pairwise fun p q => ¬ p.1.SameName q.1) (hr : ∀ p ∈ pairs, ¬ IsReserved p.1)
    (mem : Addr → Option Header) (brk : Addr) :
    ∃ e', Returns (fun fuel => relay printNumber templates fuel mem brk e) (some e') ∧
      e'.eventId = e.eventId ∧ e'.body = e.body ∧
      e'.Represents (pairs ++ addedTexts templates e) := by
  obtain ⟨text, hwrite, hread⟩ := hfit.readBack printNumber h h0 hid hd hr
  obtain ⟨e', hret, hrest⟩ := hread mem brk
  exact ⟨e', hwrite.bind hret, hrest⟩

/-- The event has the headers `pairs`, a valid id, and neither a registered name nor a body. -/
structure Plain (templates : EventTemplates) (e : Event) (pairs : List (CStr × CStr)) : Prop where
  represents : e.Represents pairs
  pos : 0 < e.eventId
  limit : e.eventId < EVENT_ID_LIMIT
  name : templates e.eventId.toNat = none
  body : e.body = none

theorem Plain.writtenTexts (h : Plain templates e pairs) :
    writtenTexts templates e pairs = pairs ++ [(CStr.ofString "_id", intText e.eventId)] := by
  simp [Event.writtenTexts, h.name, h.body, nameTexts, bodyTexts]

/-- A relay keeps the event. -/
theorem Plain.relay (printNumber : List Byte → List Byte) (h : Plain templates e pairs)
    (hfit : Fits templates e pairs)
    (hd : pairs.Pairwise fun p q => ¬ p.1.SameName q.1) (hr : ∀ p ∈ pairs, ¬ IsReserved p.1)
    (mem : Addr → Option Header) (brk : Addr) :
    ∃ e', Returns (fun fuel => relay printNumber templates fuel mem brk e) (some e') ∧
      e'.eventId = e.eventId ∧ Plain templates e' pairs := by
  obtain ⟨e', hret, hid, hbody, hrep⟩ :=
    hfit.relay printNumber h.represents h.pos h.limit hd hr mem brk
  have hadded : addedTexts templates e = [] := by
    simp [addedTexts, h.name, h.body, nameTexts, lengthTexts]
  rw [hadded, List.append_nil] at hrep
  refine ⟨e', hret, hid, ?_⟩
  constructor
  · exact hrep
  · exact hid ▸ h.pos
  · exact hid ▸ h.limit
  · rw [hid]
    exact h.name
  · rw [hbody]
    exact h.body

theorem Plain.fits (h : Plain templates e pairs) (h' : Plain templates e' pairs)
    (hid : e'.eventId = e.eventId) (hfit : Fits templates e pairs) : Fits templates e' pairs := by
  unfold Fits at hfit ⊢
  rw [h'.writtenTexts, hid, ← h.writtenTexts]
  exact hfit

/-! ## Any number of relays -/

/-- Relays keep an event to which nothing is added. -/
theorem Plain.relays (h : Plain templates e pairs) (hfit : Fits templates e pairs)
    (hd : pairs.Pairwise fun p q => ¬ p.1.SameName q.1) (hr : ∀ p ∈ pairs, ¬ IsReserved p.1)
    (hrel : Relays printNumber templates e k e') :
    e'.eventId = e.eventId ∧ Plain templates e' pairs := by
  induction hrel with
  | zero => exact ⟨rfl, h⟩
  | succ _ hret ih =>
    obtain ⟨hid, hplain⟩ := ih
    obtain ⟨e₁, hret₁, hid₁, hplain₁⟩ :=
      hplain.relay printNumber (h.fits hplain hid hfit) hd hr _ _
    -- the relay of the history is the one that is computed
    obtain rfl := Option.some.inj (hret.unique hret₁)
    exact ⟨hid₁.trans hid, hplain₁⟩

/-- Names that are distinct up to case are distinct. -/
theorem nodup_of_pairwise (hd : pairs.Pairwise fun p q => ¬ p.1.SameName q.1) :
    (pairs.map Prod.fst).Nodup := by
  rw [List.Nodup, List.pairwise_map]
  refine hd.imp fun hpq heq => hpq ?_
  rw [heq]
  exact CStr.SameName.refl _

theorem names_strings (texts : List (CStr × CStr)) :
    (strings texts).map Prod.fst = texts.map Prod.fst := by
  simp [strings, Function.comp_def]

theorem Plain.nodup (h : Plain templates e pairs)
    (hd : pairs.Pairwise fun p q => ¬ p.1.SameName q.1) (hr : ∀ p ∈ pairs, ¬ IsReserved p.1) :
    ((strings (Event.writtenTexts templates e pairs)).map Prod.fst).Nodup := by
  rw [names_strings, h.writtenTexts]
  refine nodup_of_pairwise (List.pairwise_append.mpr ⟨hd, List.pairwise_singleton _ _, ?_⟩)
  intro p hp q hq hs
  rw [List.mem_singleton.mp hq] at hs
  exact hr p hp (Or.inl hs)

/-- An event to which nothing is added is relayed faithfully. -/
theorem Plain.faithful (h : Plain templates e pairs) (hfit : Fits templates e pairs)
    (hd : pairs.Pairwise fun p q => ¬ p.1.SameName q.1) (hr : ∀ p ∈ pairs, ¬ IsReserved p.1)
    (h' : Plain templates e' pairs) (hid : e'.eventId = e.eventId) :
    Faithful printNumber templates e e' := by
  have hsame : Event.writtenTexts templates e' pairs = Event.writtenTexts templates e pairs := by
    rw [h'.writtenTexts, h.writtenTexts, hid]
  constructor
  · refine ⟨_, _, serializeJsonObj_spec h.represents h.pos.le h.limit,
      serializeJsonObj_spec h'.represents h'.pos.le h'.limit, fun m => ?_, h'.nodup hd hr⟩
    rw [hsame]
  · intro mem brk
    obtain ⟨e'', hret, -⟩ :=
      h'.relay printNumber (h.fits h' hid hfit) hd hr mem brk
    exact ⟨e'', hret⟩
  · obtain ⟨clone, hret, -⟩ := clones_of_distinct h'.represents hd
    exact ⟨clone, hret⟩

/-- A text that stands among the headers and is added once more is written twice. -/
theorem not_nodup_of_added {e₁ : Event} (name : CStr) {value value' : CStr}
    (hmem : (name, value) ∈ addedTexts templates e)
    (hmem' : (name, value') ∈ nameTexts (templates e₁.eventId.toNat) ++ bodyTexts e₁.body) :
    ¬ ((strings (Event.writtenTexts templates e₁
      (pairs ++ addedTexts templates e))).map Prod.fst).Nodup := by
  intro hnodup
  rw [names_strings, Event.writtenTexts, List.append_assoc, List.append_assoc, List.map_append]
    at hnodup
  have hleft : name ∈ (pairs ++ addedTexts templates e).map Prod.fst :=
    List.mem_map.mpr ⟨_, List.mem_append_right _ hmem, rfl⟩
  refine (List.nodup_append.mp hnodup).2.2 name hleft name ?_ rfl
  exact List.mem_map.mpr ⟨_, List.mem_append_right _ hmem', rfl⟩

/-- Every number of relays is faithful. -/
def Stable (printNumber : List Byte → List Byte) (templates : EventTemplates) (e : Event) : Prop :=
  ∀ k e', Relays printNumber templates e k e' → Faithful printNumber templates e e'

/-- The first relay already shows what the writer adds. -/
theorem Stable.plain (hs : Stable printNumber templates e) (h : e.Represents pairs)
    (h0 : 0 < e.eventId) (hlimit : e.eventId < EVENT_ID_LIMIT)
    (hd : pairs.Pairwise fun p q => ¬ p.1.SameName q.1) (hr : ∀ p ∈ pairs, ¬ IsReserved p.1) :
    templates e.eventId.toNat = none ∧ e.body = none ∧ Fits templates e pairs := by
  -- without a relay the event itself can be decoded, so it fits
  obtain ⟨e₀, hret₀⟩ := (hs 0 e .zero).decoded e.mem e.brk
  have hfit : Fits templates e pairs := fits_of_relay h h0.le hlimit hret₀
  obtain ⟨e₁, hret₁, hid₁, hbody₁, hrep₁⟩ :=
    hfit.relay printNumber h h0 hlimit hd hr e.mem e.brk
  -- after one relay the added texts stand among the headers
  obtain ⟨ms, ms', -, hms', -, hnodup⟩ := (hs 1 e₁ (.succ .zero hret₁)).members
  have hobj := hms'.unique (serializeJsonObj_spec hrep₁ (hid₁ ▸ h0.le) (hid₁ ▸ hlimit))
  obtain rfl := Json.object.inj hobj
  refine ⟨?_, ?_, hfit⟩
  · cases hname : templates e.eventId.toNat with
    | none => rfl
    | some name =>
      have hadded : (CStr.ofString "_name", name) ∈ addedTexts templates e := by
        simp [addedTexts, hname, nameTexts]
      have hwritten : (CStr.ofString "_name", name) ∈
          nameTexts (templates e₁.eventId.toNat) ++ bodyTexts e₁.body := by
        simp [hid₁, hname, nameTexts]
      exact absurd hnodup (not_nodup_of_added _ hadded hwritten)
  · cases hbody : e.body with
    | none => rfl
    | some body =>
      set length := intText (BitVec.ofNat 32 body.bytes.length).toInt with hlength
      have hadded : (CStr.ofString "_length", length) ∈ addedTexts templates e := by
        simp [addedTexts, hbody, lengthTexts, hlength]
      have hwritten : (CStr.ofString "_length", length) ∈
          nameTexts (templates e₁.eventId.toNat) ++ bodyTexts e₁.body := by
        simp [hbody₁, hbody, bodyTexts, hlength]
      exact absurd hnodup (not_nodup_of_added _ hadded hwritten)

/-- **Relaying is stable** exactly for the events to which the writer adds nothing but the id, and
whose lengths fit: every number of relays leaves the members that an event is written with. -/
theorem relay_stable_iff (printNumber : List Byte → List Byte) (templates : EventTemplates)
    (h : e.Represents pairs) (hid : 1 ≤ e.eventId ∧ e.eventId ≤ 1023)
    (hd : pairs.Pairwise fun p q => ¬ p.1.SameName q.1) (hr : ∀ p ∈ pairs, ¬ IsReserved p.1) :
    Stable printNumber templates e ↔
      templates e.eventId.toNat = none ∧ e.body = none ∧ Fits templates e pairs := by
  have h0 : 0 < e.eventId := by omega
  have hlimit : e.eventId < EVENT_ID_LIMIT := by
    unfold EVENT_ID_LIMIT
    omega
  constructor
  · intro hs
    exact hs.plain h h0 hlimit hd hr
  · rintro ⟨hname, hbody, hfit⟩ k e' hrel
    have hplain : Plain templates e pairs := ⟨h, h0, hlimit, hname, hbody⟩
    obtain ⟨hid', hplain'⟩ := hplain.relays hfit hd hr hrel
    exact hplain.faithful hfit hd hr hplain' hid'

/-- The name `a` is not one that the writer uses. -/
theorem not_isReserved_letter : ¬ IsReserved (CStr.ofString "a") := by
  unfold IsReserved
  decide

/-- Two headers and nothing else. -/
theorem relay_stable_two :
    Stable id (fun _ => none) { double (CStr.ofString "a") (CStr.ofString "x") (CStr.ofString "b")
      (CStr.ofString "y") with body := none } := by
  have hrep : Represents { double (CStr.ofString "a") (CStr.ofString "x") (CStr.ofString "b")
      (CStr.ofString "y") with body := none } _ :=
    (represents_double (CStr.ofString "a") (CStr.ofString "x") (CStr.ofString "b")
      (CStr.ofString "y")).congr rfl rfl rfl rfl
  refine (relay_stable_iff id _ hrep ⟨(by decide : (1 : ℤ) ≤ 7), (by decide : (7 : ℤ) ≤ 1023)⟩
    ?_ ?_).mpr ⟨rfl, rfl, ?_⟩
  · rw [List.pairwise_pair]
    decide
  · intro p hp
    unfold IsReserved
    rcases List.mem_pair.mp hp with rfl | rfl
    · decide
    · decide
  · refine ⟨by decide, ?_⟩
    decide

/-- An event with a body: after one relay its length is written twice. -/
theorem relay_body_twice :
    ¬ ∀ (e : Event) (pairs : List (CStr × CStr)), e.Represents pairs →
      (1 ≤ e.eventId ∧ e.eventId ≤ 1023) → (pairs.Pairwise fun p q => ¬ p.1.SameName q.1) →
      (∀ p ∈ pairs, ¬ IsReserved p.1) → Stable id (fun _ => none) e := by
  intro hall
  have hr : ∀ p ∈ [(CStr.ofString "a", CStr.ofString "x")], ¬ IsReserved p.1 := by
    intro p hp
    rw [List.mem_singleton.mp hp]
    exact not_isReserved_letter
  have hrep := represents_single (CStr.ofString "a") (CStr.ofString "x") (some (CStr.ofString "b"))
  have hid := valid_single (CStr.ofString "a") (CStr.ofString "x") (some (CStr.ofString "b"))
  have hs := hall _ _ hrep hid (List.pairwise_singleton _ _) hr
  obtain ⟨-, hbody, -⟩ := hs.plain hrep (by omega) (by unfold EVENT_ID_LIMIT; omega)
    (List.pairwise_singleton _ _) hr
  cases hbody

end Event
