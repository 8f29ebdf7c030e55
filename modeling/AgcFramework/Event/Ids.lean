import AgcFramework.Event.Deliver

/-!
# Event ids as indices

`event_templates`, `EVENT_NODES` and the subscribers' `event_list` have `EVENT_ID_LIMIT` entries
and are indexed by event ids, which come from calls and from the texts of remote peers. The model
runs the functions on these tables; an index outside of a table is a fault. The tests on the way in
let some indices through: `EVENT_ID_IS_INVALID` the negative ones, `agc_event_bind_removable` these
and `EVENT_ID_LIMIT` itself, and `agc_event_create` and `agc_event_set_id` all.

## Main definitions

* `agcEventRegister`, `agcEventGetName`, `eventListed`: the functions of `agc_event.c` and the test
  of the subscribers' `handle_event`
* `IdState`: the tables and the live events
* `IdState.Safe s op`: the call stays inside of the tables, and an id outside has no effect
* `IdState.Admissible s op`: the ids that the calls handle well

## Main results

* `Event.ClosedIn.addHeader`: an addition keeps the header nodes together
* `IdState.Inv.step`: the ids of the events and of the nodes stay indices
* `IdState.event_ids_safe`: safety in every run of admissible calls
-/

open Exec Chain

/-- `agc_event_register`. -/
def agcEventRegister (templates : EventTemplates) (eventId : ℤ) (eventName : CStr) :
    Exec (EventTemplates × AgcStatus) :=
  if eventIdIsInvalid eventId then pure (templates, .generr)
  else do
    match ← eventTemplate templates eventId with
    | some _ => pure (templates, .generr)
    | none => pure (Function.update templates eventId.toNat (some eventName), .success)

/-- `agc_event_get_name`. -/
def agcEventGetName (templates : EventTemplates) (eventId : ℤ) : Exec (Option CStr) :=
  if eventIdIsInvalid eventId then pure none else eventTemplate templates eventId

/-- The test of both `handle_event` functions: `event_list[event->event_id]`. -/
def eventListed (eventList : ℕ → Bool) (eventId : ℤ) : Exec Bool := do
  let i ← eventIndex eventId
  pure (eventList i)

/-- `init_ids`. -/
def initIds : EventTemplates := fun i =>
  match i with
  | 0 => some (CStr.ofString "all")
  | 1 => some (CStr.ofString "esl")
  | 2 => some (CStr.ofString "api_res")
  | 3 => some (CStr.ofString "sig2media")
  | 4 => some (CStr.ofString "media2sig")
  | 5 => some (CStr.ofString "om_cmd")
  | _ => none

/-- The tables, and the live events by their handles. -/
structure IdState where
  templates : EventTemplates
  nodes : EventNodes
  events : ℕ → Option Event
  /-- The handle of the next event. -/
  next : ℕ

/-- A call that takes an event id, or uses that of an event or of a node. -/
inductive IdOp
  | register (eventId : ℤ) (eventName : CStr)
  | getName (eventId : ℤ)
  | bindRemovable (id : CStr) (eventId : ℤ) (callback : Callback)
  | unbind (node : Option Addr)
  | create (eventId : ℤ) (sourceId : UInt32)
  | setId (event : ℕ) (eventId : ℤ)
  | createJson (json : CStr)
  /-- `agc_event_fire`, and `agc_event_deliver` by a dispatch thread. -/
  | fire (event : ℕ)
  | serialize (event : ℕ)
  | handleEvent (eventList : ℕ → Bool) (event : ℕ)

namespace IdState

/-- The state after `agc_event_init`. -/
def initial : IdState := ⟨initIds, .initial, fun _ => none, 0⟩

/-- A new event. -/
def add (s : IdState) (e : Event) : IdState :=
  { s with events := Function.update s.events s.next (some e), next := s.next + 1 }

/-- The part of an event that its delivery reads. -/
def deliverable (handle : ℕ) (e : Event) : Deliverable := ⟨handle, e.eventId, none, 0, none⟩

/-- A call on an event, which does nothing without one. -/
def withEvent (s : IdState) (event : ℕ) (f : Event → Exec IdState) : Exec IdState :=
  match s.events event with
  | some e => f e
  | none => pure s

/-- One call. -/
def step (fuel : ℕ) (s : IdState) : IdOp → Exec IdState
  | .register eventId eventName => do
    let (templates, _) ← agcEventRegister s.templates eventId eventName
    pure { s with templates := templates }
  | .getName eventId => do
    let _ ← agcEventGetName s.templates eventId
    pure s
  | .bindRemovable id eventId callback => do
    let (nodes, _, _) ← agcEventBindRemovable s.nodes id eventId callback
    pure { s with nodes := nodes }
  | .unbind node => do
    let (nodes, _, _) ← agcEventUnbind fuel s.nodes node
    pure { s with nodes := nodes }
  | .create eventId sourceId =>
    pure (s.add (agcEventCreate (fun _ => none) 0 eventId sourceId))
  | .setId event eventId => s.withEvent event fun e =>
    pure { s with events := Function.update s.events event (some (agcEventSetId e eventId)) }
  | .createJson json => do
    match ← agcEventCreateJson fuel (fun _ => none) 0 json with
    | some e => pure (s.add e)
    | none => pure s
  | .fire event => s.withEvent event fun e => do
    let (nodes, _) ← agcEventDeliver fuel true s.nodes (deliverable event e)
    pure { s with nodes := nodes, events := Function.update s.events event none }
  | .serialize event => s.withEvent event fun e => do
    let _ ← agcEventSerializeJsonObj fuel s.templates e
    pure s
  | .handleEvent eventList event => s.withEvent event fun e => do
    let _ ← eventListed eventList e.eventId
    pure s

end IdState

/-! ## Header nodes -/

namespace Event

variable {e e' : Event} {S : Set Addr} {name data : CStr}

/-- The chain of the event stays among the nodes of `S`, which are in memory. -/
structure ClosedIn (e : Event) (S : Set Addr) : Prop where
  head : ∀ a, e.headers = some a → a ∈ S
  last : ∀ a, e.lastHeader = some a → a ∈ S
  cell : ∀ a ∈ S, ∃ c, e.mem a = some c ∧ ∀ b, c.next = some b → b ∈ S

theorem closedIn_create (mem : Addr → Option Header) (brk : Addr) (eventId : ℤ)
    (sourceId : UInt32) : (agcEventCreate mem brk eventId sourceId).ClosedIn ∅ where
  head _ h := by cases h
  last _ h := by cases h
  cell _ h := by cases h

/-- A lookup leads to one of the nodes or to none. -/
theorem ClosedIn.find (h : e.ClosedIn S) {fuel : ℕ} {p : Option Addr}
    (hp : ∀ a, p = some a → a ∈ S) {r : Option Addr} (hr : findHeader e name fuel p = .ok r) :
    ∀ a, r = some a → a ∈ S := by
  induction fuel generalizing p with
  | zero => cases hr
  | succ n ih =>
    cases p with
    | none =>
      cases hr
      exact fun a ha => by cases ha
    | some a =>
      obtain ⟨c, hc, hnext⟩ := h.cell a (hp a rfl)
      simp only [findHeader, load_eq hc, ok_bind] at hr
      split at hr
      · cases hr
        exact hp
      · exact ih hnext hr

/-- A write of a node that links to nodes of `S` or to itself. -/
theorem ClosedIn.put (h : e.ClosedIn S) {a : Addr} {c : Header}
    (hc : ∀ b, c.next = some b → b ∈ insert a S) : (e.put a c).ClosedIn (insert a S) := by
  constructor
  · exact fun b hb => Set.mem_insert_of_mem a (h.head b hb)
  · exact fun b hb => Set.mem_insert_of_mem a (h.last b hb)
  · intro b hb
    by_cases hba : b = a
    · rw [hba]
      exact ⟨c, Function.update_self .., hc⟩
    · obtain ⟨d, hd, hnext⟩ := h.cell b (Set.mem_of_mem_insert_of_ne hb hba)
      exact ⟨d, (Function.update_of_ne hba _ _).trans hd,
        fun x hx => Set.mem_insert_of_mem a (hnext x hx)⟩

theorem ClosedIn.setValue (h : e.ClosedIn S) {a : Addr} (ha : a ∈ S)
    (hr : e.setValue a data = .ok e') : e'.ClosedIn S := by
  obtain ⟨c, hc, hnext⟩ := h.cell a ha
  simp only [Event.setValue, load_eq hc, ok_bind] at hr
  cases hr
  have hput := h.put (a := a) (c := { c with value := some data })
    fun b hb => Set.mem_insert_of_mem a (hnext b hb)
  rwa [Set.insert_eq_of_mem ha] at hput

theorem ClosedIn.setNext (h : e.ClosedIn S) {a : Addr} {next : Option Addr} (ha : a ∈ S)
    (hnext : ∀ b, next = some b → b ∈ S) (hr : e.setNext a next = .ok e') : e'.ClosedIn S := by
  obtain ⟨c, hc, -⟩ := h.cell a ha
  simp only [Event.setNext, load_eq hc, ok_bind] at hr
  cases hr
  have hput := h.put (a := a) (c := { c with next := next })
    fun b hb => Set.mem_insert_of_mem a (hnext b hb)
  rwa [Set.insert_eq_of_mem ha] at hput

theorem ClosedIn.link (h : e.ClosedIn S) {a : Addr} (ha : a ∈ S)
    (hr : linkLast e a = .ok e') : e'.ClosedIn S := by
  have hmem : ∀ b, some a = some b → b ∈ S := fun b hb => Option.some.inj hb ▸ ha
  unfold linkLast at hr
  cases hlast : e.lastHeader with
  | some last =>
    rw [hlast] at hr
    obtain ⟨e₁, he₁, hr⟩ := bind_eq_ok.mp hr
    -- the last node gets the link
    have h₁ := h.setNext (h.last last hlast) hmem he₁
    cases hr
    exact ⟨h₁.head, hmem, h₁.cell⟩
  | none =>
    rw [hlast] at hr
    obtain ⟨e₁, he₁, hr⟩ := bind_eq_ok.mp hr
    -- the first header: the head leads to the node
    have h₀ : ClosedIn { e with headers := some a, lastHeader := none } S :=
      ⟨hmem, fun b hb => (Option.some_ne_none b hb.symm).elim, h.cell⟩
    have h₁ := h₀.setNext ha (fun b hb => (Option.some_ne_none b hb.symm).elim) he₁
    cases hr
    exact ⟨h₁.head, hmem, h₁.cell⟩

/-- An addition keeps the header nodes together. -/
theorem ClosedIn.addHeader (h : e.ClosedIn S) {fuel : ℕ}
    (hr : agcEventBaseAddHeader fuel e name data = .ok e') : ∃ S', e'.ClosedIn S' := by
  obtain ⟨r, hfind, hr⟩ := bind_eq_ok.mp hr
  have hfound := h.find h.head hfind
  cases r with
  | none =>
    -- the new node becomes one of them
    obtain ⟨e₁, hset, hr⟩ := bind_eq_ok.mp hr
    have hput := h.put (a := e.brk) (c := ⟨name, none, none⟩) fun b hb => by cases hb
    have hnew : (newHeader e name).1.ClosedIn (insert e.brk S) := ⟨hput.head, hput.last, hput.cell⟩
    have hmem : e.brk ∈ insert e.brk S := Set.mem_insert e.brk S
    exact ⟨_, (hnew.setValue hmem hset).link hmem hr⟩
  | some header =>
    obtain ⟨e₁, hset, hr⟩ := bind_eq_ok.mp hr
    -- the node that is found is linked once more
    have hmem := hfound header rfl
    exact ⟨S, (h.setValue hmem hset).link hmem hr⟩

/-- Writing the headers does not fault. -/
theorem ClosedIn.serialize_ne_fault (h : e.ClosedIn S) (fuel : ℕ) {p : Option Addr}
    (hp : ∀ a, p = some a → a ∈ S) : serializeHeaders e fuel p ≠ .error .fault := by
  induction fuel generalizing p with
  | zero => simp [serializeHeaders]
  | succ n ih =>
    cases p with
    | none => simp [serializeHeaders]
    | some a =>
      obtain ⟨c, hc, hnext⟩ := h.cell a (hp a rfl)
      -- the chain may be a cycle, but it never leaves the nodes
      simp only [serializeHeaders, load_eq hc, ok_bind]
      cases hrest : serializeHeaders e n c.next with
      | ok members => simp
      | error err =>
        rw [error_bind]
        intro hfault
        exact ih hnext (hrest.trans hfault)

/-- The number of an `_id` member. -/
def idNumber : Option CStr × Json → Option ℤ
  | (some name, .string value) =>
    if name.SameName (CStr.ofString "_body") then none
    else if name.SameName (CStr.ofString "_id") then some (Decimal.atoi value.bytes) else none
  | _ => none

/-- The numbers of the `_id` members of an item. -/
def idNumbers (cj : Json) : List ℤ := cj.children.filterMap idNumber

/-- What a child that is accepted does: it sets the body, sets the id to one that is not invalid,
adds a header, or does nothing. -/
theorem addChild_cases {fuel : ℕ} {child : Option CStr × Json}
    (h : addChild fuel e child = .ok (some e')) :
    (idNumber child = none ∧ ∃ body, e' = agcEventSetBody e body) ∨
      (∃ i, idNumber child = some i ∧ eventIdIsInvalid i = false ∧ e' = agcEventSetId e i) ∨
      (idNumber child = none ∧
        ∃ name value, agcEventBaseAddHeader fuel e name value = .ok e') ∨
      (idNumber child = none ∧ e' = e) := by
  unfold addChild at h
  split at h
  · rename_i name value
    simp only [idNumber]
    split at h
    · -- `_body` sets the body
      rename_i hbody
      cases h
      exact Or.inl ⟨if_pos hbody, value, rfl⟩
    · rename_i hbody
      rw [if_neg hbody]
      split at h
      · rename_i hid
        split at h
        · cases h
        · rename_i hvalid
          cases h
          exact Or.inr (Or.inl ⟨_, if_pos hid, Bool.eq_false_iff.mpr hvalid, rfl⟩)
      · rename_i hid
        rw [if_neg hid]
        obtain ⟨⟨e₁, status⟩, hadd, heq⟩ := bind_eq_ok.mp h
        cases heq
        obtain ⟨e₂, hbase, heq⟩ := bind_eq_ok.mp hadd
        cases heq
        exact Or.inr (Or.inr (Or.inl ⟨rfl, name, value, hbase⟩))
  · -- a child without a name or a text is passed over
    rename_i hother
    cases h
    refine Or.inr (Or.inr (Or.inr ⟨?_, rfl⟩))
    unfold idNumber
    split
    · rename_i name value
      exact absurd rfl (hother name value)
    · rfl

/-- An event whose id is an index and whose header nodes stay together. -/
structure Sound (e : Event) : Prop where
  nonneg : 0 ≤ e.eventId
  closed : ∃ S, e.ClosedIn S

theorem Sound.addChild {fuel : ℕ} {child : Option CStr × Json} (h : e.Sound)
    (hid : ∀ i, idNumber child = some i → 0 ≤ i)
    (hr : addChild fuel e child = .ok (some e')) : e'.Sound := by
  obtain ⟨S, hS⟩ := h.closed
  rcases addChild_cases hr with ⟨-, body, rfl⟩ | ⟨i, hi, -, rfl⟩ | ⟨-, name, value, hadd⟩ | ⟨-, rfl⟩
  · exact ⟨h.nonneg, S, hS.head, hS.last, hS.cell⟩
  · exact ⟨hid i hi, S, hS.head, hS.last, hS.cell⟩
  · refine ⟨?_, hS.addHeader hadd⟩
    rw [(addHeader_fields hadd).1]
    exact h.nonneg
  · exact h

/-- The loop over the children: the event is sound if the ids are not negative, and none of them is
invalid. -/
theorem Sound.addChildren {fuel : ℕ} {children : List (Option CStr × Json)} (h : e.Sound)
    (hid : ∀ i ∈ children.filterMap idNumber, 0 ≤ i)
    (hr : addChildren fuel e children = .ok (some e')) :
    e'.Sound ∧ ∀ i ∈ children.filterMap idNumber, eventIdIsInvalid i = false := by
  induction children generalizing e with
  | nil =>
    cases hr
    exact ⟨h, by simp⟩
  | cons child children ih =>
    obtain ⟨o, hchild, hr⟩ := bind_eq_ok.mp hr
    cases o with
    | none => cases hr
    | some e₁ =>
      have hone : ∀ i, idNumber child = some i → 0 ≤ i := fun i hi =>
        hid i (List.mem_filterMap.mpr ⟨child, List.mem_cons_self, hi⟩)
      have hrest : ∀ i ∈ children.filterMap idNumber, 0 ≤ i := by
        intro i hi
        obtain ⟨c, hc, hci⟩ := List.mem_filterMap.mp hi
        exact hid i (List.mem_filterMap.mpr ⟨c, List.mem_cons_of_mem child hc, hci⟩)
      obtain ⟨hsound, hvalid⟩ := ih (h.addChild hone hchild) hrest hr
      refine ⟨hsound, fun i hi => ?_⟩
      obtain ⟨c, hc, hci⟩ := List.mem_filterMap.mp hi
      rcases List.mem_cons.mp hc with rfl | hc
      · -- of the ways to accept a child only one has an id
        rcases addChild_cases hchild with ⟨hn, -⟩ | ⟨j, hj, hvj, -⟩ | ⟨hn, -⟩ | ⟨hn, -⟩
        · rw [hn] at hci
          cases hci
        · rw [hj] at hci
          rw [← Option.some.inj hci]
          exact hvj
        · rw [hn] at hci
          cases hci
        · rw [hn] at hci
          cases hci
      · exact hvalid i (List.mem_filterMap.mpr ⟨c, hc, hci⟩)

/-- What an event that `agc_event_create_json` accepts is like, when no id of the text is
negative. -/
theorem sound_of_createJson {fuel : ℕ} {json : CStr} {mem : Addr → Option Header} {brk : Addr}
    (hid : ∀ cj, cJSONParse fuel json = .ok (some cj) → ∀ i ∈ idNumbers cj, 0 ≤ i)
    (hr : agcEventCreateJson fuel mem brk json = .ok (some e')) :
    e'.Sound ∧ e'.eventId < EVENT_ID_LIMIT ∧
      ∀ cj, cJSONParse fuel json = .ok (some cj) →
        ∀ i ∈ idNumbers cj, eventIdIsInvalid i = false := by
  obtain ⟨o, hparse, hr⟩ := bind_eq_ok.mp hr
  cases o with
  | none => cases hr
  | some cj =>
    obtain ⟨o, hchildren, hr⟩ := bind_eq_ok.mp hr
    cases o with
    | none => cases hr
    | some e₁ =>
      -- the event that is filled starts with the id zero and no headers
      have h₀ : (agcEventCreate mem brk 0 0).Sound :=
        ⟨Int.le_refl 0, ∅, closedIn_create mem brk 0 0⟩
      obtain ⟨hsound, hvalid⟩ := h₀.addChildren (hid cj hparse) hchildren
      simp only at hr
      split at hr
      · cases hr
      · -- the last test rejects the ids from `EVENT_ID_LIMIT` on and `EVENT_ID_ALL`
        rename_i hlast
        cases hr
        refine ⟨hsound, ?_, fun cj' hcj' => ?_⟩
        · simp only [eventIdIsInvalid, decide_eq_true_eq, not_or, not_le] at hlast
          exact hlast.2
        · obtain rfl : cj = cj' := Option.some.inj (Except.ok.inj (hparse.symm.trans hcj'))
          exact hvalid

end Event

namespace IdState

variable {s s' : IdState} {op : IdOp}

/-- The id is an index of the tables. -/
def InRange (eventId : ℤ) : Prop := 0 ≤ eventId ∧ eventId < EVENT_ID_LIMIT

/-- The ids that are passed to a call, the text of a call as it is parsed with the fuel. -/
def Passes (fuel : ℕ) : IdOp → ℤ → Prop
  | .register eventId _, i | .getName eventId, i | .bindRemovable _ eventId _, i
  | .create eventId _, i | .setId _ eventId, i => i = eventId
  | .createJson json, i => ∃ cj, cJSONParse fuel json = .ok (some cj) ∧ i ∈ Event.idNumbers cj
  | .unbind _, _ | .fire _, _ | .serialize _, _ | .handleEvent _ _, _ => False

/-- The calls that use a table. -/
def Indexes : IdOp → Prop
  | .create _ _ | .setId _ _ | .createJson _ => False
  | _ => True

/-- The call stays inside of the tables, and has no effect if an id that is passed to it is outside
of them. -/
def Safe (s : IdState) (op : IdOp) : Prop :=
  (Indexes op → ¬ Faults (fun fuel => step fuel s op)) ∧
    ∀ fuel i s', Passes fuel op i → ¬ InRange i → step fuel s op = .ok s' → s' = s

/-- The calls that are safe: with an id that the tests on the way in handle, and with a node that is
in memory. -/
def Admissible (s : IdState) : IdOp → Prop
  | .register eventId _ | .getName eventId => 0 ≤ eventId
  | .bindRemovable _ eventId _ => 0 ≤ eventId ∧ eventId ≠ EVENT_ID_LIMIT
  | .unbind node => ∀ a, node = some a → s.nodes.mem a ≠ none
  | .create eventId _ => InRange eventId
  | .setId event eventId => s.events event = none ∨ InRange eventId
  | .createJson json => ∀ fuel cj, cJSONParse fuel json = .ok (some cj) →
      ∀ i ∈ Event.idNumbers cj, 0 ≤ i
  | .fire _ | .serialize _ | .handleEvent _ _ => True

/-- The states that admissible calls lead to. -/
inductive Reachable : IdState → Prop
  | initial : Reachable initial
  | step {s s' : IdState} {op : IdOp} (h : Reachable s) (hop : Admissible s op)
      (hret : Returns (fun fuel => IdState.step fuel s op) s') : Reachable s'

/-- The ids of the nodes and of the events are indices. -/
structure Inv (s : IdState) : Prop where
  nodes : ∃ b, s.nodes.Holds b
  events : ∀ h e, s.events h = some e → e.Sound ∧ e.eventId < EVENT_ID_LIMIT

theorem inv_initial : initial.Inv where
  nodes := ⟨_, EventNodes.holds_initial⟩
  events _ _ h := by cases h

theorem Inv.inRange (h : s.Inv) {handle : ℕ} {e : Event} (he : s.events handle = some e) :
    InRange e.eventId :=
  ⟨(h.events handle e he).1.nonneg, (h.events handle e he).2⟩

/-- An event of the state is replaced or removed. -/
theorem Inv.setEvent (h : s.Inv) {handle : ℕ} {o : Option Event}
    (ho : ∀ e, o = some e → e.Sound ∧ e.eventId < EVENT_ID_LIMIT) :
    Inv { s with events := Function.update s.events handle o } := by
  refine ⟨h.nodes, fun handle' e he => ?_⟩
  have he : Function.update s.events handle o handle' = some e := he
  by_cases hh : handle' = handle
  · rw [hh, Function.update_self] at he
    exact ho e he
  · rw [Function.update_of_ne hh] at he
    exact h.events handle' e he

theorem Inv.add (h : s.Inv) {e : Event} (he : e.Sound) (hlt : e.eventId < EVENT_ID_LIMIT) :
    (s.add e).Inv := by
  have hset : Inv { s with events := Function.update s.events s.next (some e) } :=
    h.setEvent fun e' he' => Option.some.inj he' ▸ ⟨he, hlt⟩
  exact ⟨hset.nodes, hset.events⟩

theorem withEvent_none {event : ℕ} {f : Event → Exec IdState} (h : s.events event = none) :
    s.withEvent event f = .ok s := by
  rw [withEvent, h]
  rfl

theorem withEvent_some {event : ℕ} {f : Event → Exec IdState} {e : Event}
    (h : s.events event = some e) : s.withEvent event f = f e := by
  rw [withEvent, h]

/-- A call on an event does nothing, or there is an event. -/
theorem withEvent_inv {event : ℕ} {f : ℕ → Event → Exec IdState}
    (h : Returns (fun fuel => s.withEvent event (f fuel)) s') :
    s' = s ∨ ∃ e, s.events event = some e ∧ Returns (fun fuel => f fuel e) s' := by
  cases he : s.events event with
  | none =>
    have hnull : Returns (fun fuel => s.withEvent event (f fuel)) s :=
      (Returns.const _).congr fun k => withEvent_none he
    exact Or.inl (h.unique hnull)
  | some e => exact Or.inr ⟨e, rfl, h.congr fun k => (withEvent_some he).symm⟩

/-- An index of the tables is none that the tests call invalid, except `EVENT_ID_ALL`. -/
theorem eventTemplate_of_inRange {eventId : ℤ} (h : InRange eventId) (templates : EventTemplates) :
    eventTemplate templates eventId = .ok (templates eventId.toNat) := if_pos h

theorem inRange_of_valid {eventId : ℤ} (h0 : 0 ≤ eventId)
    (hv : eventIdIsInvalid eventId = false) : InRange eventId := by
  simp only [eventIdIsInvalid, decide_eq_false_iff_not, not_or, not_le] at hv
  exact ⟨h0, hv.2⟩

/-- The test lets the negative ids through. -/
theorem eventIdIsInvalid_neg {eventId : ℤ} (h : eventId < 0) :
    eventIdIsInvalid eventId = false := by
  refine decide_eq_false ?_
  unfold EVENT_ID_ALL EVENT_ID_LIMIT
  omega

/-! ## The calls one by one -/

/-- A registration with an id that is not negative returns, and changes nothing when the id is
outside of the table. -/
theorem register_spec {eventId : ℤ} (h0 : 0 ≤ eventId) (templates : EventTemplates)
    (eventName : CStr) :
    ∃ r, agcEventRegister templates eventId eventName = .ok r ∧
      (¬ InRange eventId → r.1 = templates) := by
  unfold agcEventRegister
  cases hv : eventIdIsInvalid eventId with
  | true => exact ⟨_, rfl, fun _ => rfl⟩
  | false =>
    have hr := inRange_of_valid h0 hv
    simp only [Bool.false_eq_true, if_false, eventTemplate_of_inRange hr, ok_bind]
    cases templates eventId.toNat with
    | some name => exact ⟨_, rfl, fun hn => absurd hr hn⟩
    | none => exact ⟨_, rfl, fun hn => absurd hr hn⟩

theorem register_neg {eventId : ℤ} (h0 : eventId < 0) (templates : EventTemplates)
    (eventName : CStr) : agcEventRegister templates eventId eventName = .error .fault := by
  have hr : ¬ (0 ≤ eventId ∧ eventId < EVENT_ID_LIMIT) := fun hr => absurd hr.1 (by omega)
  simp only [agcEventRegister, eventIdIsInvalid_neg h0, Bool.false_eq_true, if_false,
    eventTemplate, if_neg hr, error_bind]

theorem getName_spec {eventId : ℤ} (h0 : 0 ≤ eventId) (templates : EventTemplates) :
    ∃ r, agcEventGetName templates eventId = .ok r := by
  unfold agcEventGetName
  cases hv : eventIdIsInvalid eventId with
  | true => exact ⟨_, rfl⟩
  | false => exact ⟨_, eventTemplate_of_inRange (inRange_of_valid h0 hv) templates⟩

theorem getName_neg {eventId : ℤ} (h0 : eventId < 0) (templates : EventTemplates) :
    agcEventGetName templates eventId = .error .fault := by
  have hr : ¬ (0 ≤ eventId ∧ eventId < EVENT_ID_LIMIT) := fun hr => absurd hr.1 (by omega)
  simp only [agcEventGetName, eventIdIsInvalid_neg h0, Bool.false_eq_true, if_false,
    eventTemplate, if_neg hr]

/-- A binding with an id that is neither negative nor `EVENT_ID_LIMIT` returns, and is refused when
the id is outside of the table. -/
theorem bind_spec {t : EventNodes} {eventId : ℤ} (h0 : 0 ≤ eventId) (hl : eventId ≠ EVENT_ID_LIMIT)
    (id : CStr) (callback : Callback) :
    ∃ r, agcEventBindRemovable t id eventId callback = .ok r ∧
      (¬ InRange eventId → r.1 = t) := by
  by_cases hlt : eventId < EVENT_ID_LIMIT
  · obtain ⟨i, rfl⟩ := Int.eq_ofNat_of_zero_le h0
    have hi : i < EVENT_ID_LIMIT.toNat := by omega
    exact ⟨_, EventNodes.bindRemovable_eq t id callback hi, fun hn => absurd ⟨h0, hlt⟩ hn⟩
  · -- only the ids above `EVENT_ID_LIMIT` are refused
    have hgt : EVENT_ID_LIMIT < eventId := by omega
    exact ⟨_, if_pos hgt, fun _ => rfl⟩

theorem bind_outside {t : EventNodes} {eventId : ℤ} (h : eventId < 0 ∨ eventId = EVENT_ID_LIMIT)
    (id : CStr) (callback : Callback) :
    agcEventBindRemovable t id eventId callback = .error .fault := by
  have hlimit : ¬ EVENT_ID_LIMIT < eventId := by
    unfold EVENT_ID_LIMIT at h ⊢
    omega
  have hr : ¬ (0 ≤ eventId ∧ eventId < EVENT_ID_LIMIT) := by omega
  simp only [agcEventBindRemovable, if_neg hlimit, EventNodes.head, eventIndex, if_neg hr,
    error_bind]

/-- The delivery of a live event stays inside of the table. -/
theorem deliver_spec {t : EventNodes} {b : Bindings} (h : t.Holds b) {e : Event}
    (hr : InRange e.eventId) (handle : ℕ) :
    ∃ effects, Returns (fun fuel => agcEventDeliver fuel true t (deliverable handle e))
      (t, effects) := by
  have hi : e.eventId.toNat < EVENT_ID_LIMIT.toNat := by
    obtain ⟨h0, hlt⟩ := hr
    omega
  have h0 : EVENT_ID_ALL.toNat < EVENT_ID_LIMIT.toNat := by decide
  obtain ⟨cs, hcs, -⟩ := h.lists _ hi
  obtain ⟨ds, hds, -⟩ := h.lists _ h0
  exact ⟨_, Deliverable.deliver_returns rfl hr hcs hds⟩

/-- Writing a live event stays inside of the table. -/
theorem serialize_spec {e : Event} (he : e.Sound) (hlt : e.eventId < EVENT_ID_LIMIT)
    (templates : EventTemplates) :
    ¬ Faults (fun fuel => agcEventSerializeJsonObj fuel templates e) := by
  rintro ⟨n, hn⟩
  obtain ⟨S, hS⟩ := he.closed
  have hfault : agcEventSerializeJsonObj n templates e = .error .fault := hn n (Nat.le_refl n)
  have hheaders := hS.serialize_ne_fault n hS.head
  unfold agcEventSerializeJsonObj at hfault
  -- the name is looked up only behind the headers
  cases hres : serializeHeaders e n e.headers with
  | ok members =>
    simp only [hres, ok_bind, eventTemplate_of_inRange ⟨he.nonneg, hlt⟩] at hfault
    cases hfault
  | error err =>
    rw [hres, error_bind] at hfault
    cases hfault
    exact hheaders hres

theorem eventListed_spec {eventId : ℤ} (hr : InRange eventId) (eventList : ℕ → Bool) :
    eventListed eventList eventId = .ok (eventList eventId.toNat) := by
  have hindex : eventIndex eventId = .ok eventId.toNat := if_pos hr
  rw [eventListed, hindex]
  rfl

/-! ## Runs -/

/-- What each admissible call leaves. -/
theorem Inv.step (h : s.Inv) (hop : Admissible s op)
    (hret : Returns (fun fuel => IdState.step fuel s op) s') : s'.Inv := by
  obtain ⟨b, hb⟩ := h.nodes
  cases op with
  | register eventId eventName =>
    obtain ⟨n, r, -, heq⟩ := hret.exists_bind
    cases heq
    exact ⟨⟨b, hb⟩, h.events⟩
  | getName eventId =>
    obtain ⟨n, r, -, heq⟩ := hret.exists_bind
    cases heq
    exact h
  | bindRemovable id eventId callback =>
    obtain ⟨n, ⟨t, status, node⟩, hbind, heq⟩ := hret.exists_bind
    have hstep : Returns (fun fuel => EventNodes.step fuel s.nodes
        (.bindRemovable id eventId callback)) (t, status) := by
      refine (Returns.const _).congr fun k => ?_
      simp only [EventNodes.step, hbind, ok_bind]
      rfl
    cases heq
    exact ⟨hb.of_step hstep, h.events⟩
  | unbind node =>
    -- the call on the table returns what the step keeps of it
    obtain ⟨t, ht, hs'⟩ : ∃ t, (∃ b', t.Holds b') ∧ s' = { s with nodes := t } := by
      cases node with
      | none =>
        have hnull : Returns (fun fuel => IdState.step fuel s (.unbind none)) s :=
          Returns.const _
        exact ⟨s.nodes, ⟨b, hb⟩, hret.unique hnull⟩
      | some node =>
        obtain ⟨i, hi, x, hx, rfl⟩ := hb.only node (hop node rfl)
        obtain ⟨t, hret', ht⟩ := hb.unbind hi hx
        refine ⟨t, ⟨_, ht⟩, hret.unique ?_⟩
        exact hret'.bind (g := fun _ r => .ok { s with nodes := r.1 }) (Returns.const _)
    rw [hs']
    exact ⟨ht, h.events⟩
  | create eventId sourceId =>
    obtain ⟨h0, hlt⟩ := hop
    have hnew : Returns (fun fuel => IdState.step fuel s (.create eventId sourceId))
        (s.add (agcEventCreate (fun _ => none) 0 eventId sourceId)) := Returns.const _
    rw [hret.unique hnew]
    exact h.add ⟨h0, ∅, Event.closedIn_create _ _ _ _⟩ hlt
  | setId event eventId =>
    rcases withEvent_inv hret with rfl | ⟨e, he, hset⟩
    · exact h
    · cases hset.unique (Returns.const _)
      obtain ⟨h0, hlt⟩ : InRange eventId := by
        -- without an event the id is not looked at
        rcases hop with hop | hop
        · rw [he] at hop
          cases hop
        · exact hop
      obtain ⟨S, hS⟩ := (h.events event e he).1.closed
      exact h.setEvent fun e' he' =>
        Option.some.inj he' ▸ ⟨⟨h0, S, hS.head, hS.last, hS.cell⟩, hlt⟩
  | createJson json =>
    obtain ⟨n, o, hjson, heq⟩ := hret.exists_bind
    cases o with
    | none =>
      cases heq
      exact h
    | some e =>
      cases heq
      obtain ⟨hsound, hlt, -⟩ := Event.sound_of_createJson (hop n) hjson
      exact h.add hsound hlt
  | fire event =>
    rcases withEvent_inv hret with rfl | ⟨e, he, hfire⟩
    · exact h
    · obtain ⟨effects, hdel⟩ := deliver_spec hb (h.inRange he) event
      cases (hfire.of_bind hdel).unique (Returns.const _)
      exact h.setEvent fun e' he' => by cases he'
  | serialize event =>
    rcases withEvent_inv hret with rfl | ⟨e, he, hcall⟩
    · exact h
    · obtain ⟨n, r, -, heq⟩ := hcall.exists_bind
      cases heq
      exact h
  | handleEvent eventList event =>
    rcases withEvent_inv hret with rfl | ⟨e, he, hcall⟩
    · exact h
    · obtain ⟨n, r, -, heq⟩ := hcall.exists_bind
      cases heq
      exact h

theorem Reachable.inv (h : Reachable s) : s.Inv := by
  induction h with
  | initial => exact inv_initial
  | step _ hop hret ih => exact ih.step hop hret

/-- A call that faults with every fuel is not safe. -/
theorem Safe.ne_fault (h : Safe s op) (hi : Indexes op)
    (hf : ∀ fuel, step fuel s op = .error .fault) : False :=
  h.1 hi ⟨0, fun k _ => hf k⟩

/-- A call that returns with every fuel does not fault. -/
theorem not_faults_of_ok (h : ∀ fuel, ∃ s', step fuel s op = .ok s') :
    ¬ Faults (fun fuel => step fuel s op) := by
  rintro ⟨n, hn⟩
  obtain ⟨s', hs'⟩ := h n
  cases hs'.symm.trans (hn n (Nat.le_refl n))

/-- A call on an event does not fault if it does not fault on the event that there is. -/
theorem withEvent_not_faults {event : ℕ} {f : ℕ → Event → Exec IdState}
    (h : ∀ e, s.events event = some e → ¬ Faults (fun fuel => f fuel e)) :
    ¬ Faults (fun fuel => s.withEvent event (f fuel)) := by
  rintro ⟨n, hn⟩
  cases he : s.events event with
  | none => cases (withEvent_none he).symm.trans (hn n (Nat.le_refl n))
  | some e => exact h e he ⟨n, fun k hk => (withEvent_some he).symm.trans (hn k hk)⟩

/-- What follows a computation without faults is a fault only of what follows. -/
theorem not_faults_bind_pure {α β : Type} {f : ℕ → Exec α} {g : α → β}
    (h : ¬ Faults f) : ¬ Faults (fun fuel => f fuel >>= fun a => pure (g a)) := by
  rintro ⟨n, hn⟩
  refine h ⟨n, fun k hk => ?_⟩
  have hk := hn k hk
  cases hf : f k with
  | ok a =>
    simp only [hf] at hk
    cases hk
  | error err =>
    simp only [hf, error_bind] at hk
    rw [Except.error.inj hk]

/-- An admissible call is safe. -/
theorem Inv.safe (h : s.Inv) (hop : Admissible s op) : Safe s op := by
  obtain ⟨b, hb⟩ := h.nodes
  cases op with
  | register eventId eventName =>
    obtain ⟨r, hr, hsame⟩ := register_spec hop s.templates eventName
    have hstep : ∀ fuel, IdState.step fuel s (.register eventId eventName) =
        .ok { s with templates := r.1 } := by
      intro fuel
      simp only [IdState.step, hr, ok_bind]
      rfl
    refine ⟨fun _ => not_faults_of_ok fun fuel => ⟨_, hstep fuel⟩, ?_⟩
    rintro fuel i s' rfl hout hok
    rw [hstep, hsame hout] at hok
    exact (Except.ok.inj hok).symm
  | getName eventId =>
    obtain ⟨r, hr⟩ := getName_spec hop s.templates
    have hstep : ∀ fuel, IdState.step fuel s (.getName eventId) = .ok s := by
      intro fuel
      simp only [IdState.step, hr, ok_bind]
      rfl
    refine ⟨fun _ => not_faults_of_ok fun fuel => ⟨_, hstep fuel⟩, ?_⟩
    rintro fuel i s' - - hok
    rw [hstep] at hok
    exact (Except.ok.inj hok).symm
  | bindRemovable id eventId callback =>
    obtain ⟨r, hr, hsame⟩ := bind_spec (t := s.nodes) hop.1 hop.2 id callback
    have hstep : ∀ fuel, IdState.step fuel s (.bindRemovable id eventId callback) =
        .ok { s with nodes := r.1 } := by
      intro fuel
      simp only [IdState.step, hr, ok_bind]
      rfl
    refine ⟨fun _ => not_faults_of_ok fun fuel => ⟨_, hstep fuel⟩, ?_⟩
    rintro fuel i s' rfl hout hok
    rw [hstep, hsame hout] at hok
    exact (Except.ok.inj hok).symm
  | unbind node =>
    refine ⟨fun _ => ?_, fun fuel i s' hp => hp.elim⟩
    refine not_faults_bind_pure
      (g := fun (r : EventNodes × AgcStatus × Option Addr) => { s with nodes := r.1 }) ?_
    cases node with
    | none => exact (Returns.const _).not_faults
    | some node =>
      obtain ⟨i, hi, x, hx, rfl⟩ := hb.only node (hop node rfl)
      obtain ⟨t, hret, -⟩ := hb.unbind hi hx
      exact hret.not_faults
  | create eventId sourceId =>
    refine ⟨fun hi => hi.elim, ?_⟩
    rintro fuel i s' rfl hout -
    exact absurd hop hout
  | setId event eventId =>
    refine ⟨fun hi => hi.elim, ?_⟩
    rintro fuel i s' rfl hout hok
    rcases hop with he | hr
    · have hstep : s.withEvent event _ = .ok s' := hok
      rw [withEvent_none he] at hstep
      exact (Except.ok.inj hstep).symm
    · exact absurd hr hout
  | createJson json =>
    refine ⟨fun hi => hi.elim, ?_⟩
    rintro fuel i s' ⟨cj, hcj, hi⟩ hout hok
    obtain ⟨o, hjson, heq⟩ := bind_eq_ok.mp hok
    cases o with
    | none =>
      cases heq
      rfl
    | some e =>
      -- an id that is accepted is neither negative nor too large
      obtain ⟨-, -, hvalid⟩ := Event.sound_of_createJson (hop fuel) hjson
      exact absurd (inRange_of_valid (hop fuel cj hcj i hi) (hvalid cj hcj i hi)) hout
  | fire event =>
    refine ⟨fun _ => withEvent_not_faults fun e he => ?_, fun fuel i s' hp => hp.elim⟩
    obtain ⟨effects, hdel⟩ := deliver_spec hb (h.inRange he) event
    exact not_faults_bind_pure (g := fun (r : EventNodes × List DeliverEffect) => { s with
      nodes := r.1, events := Function.update s.events event none }) hdel.not_faults
  | serialize event =>
    refine ⟨fun _ => withEvent_not_faults fun e he => ?_, fun fuel i s' hp => hp.elim⟩
    obtain ⟨hsound, hlt⟩ := h.events event e he
    exact not_faults_bind_pure (g := fun _ => s) (serialize_spec hsound hlt s.templates)
  | handleEvent eventList event =>
    refine ⟨fun _ => withEvent_not_faults fun e he => ?_, fun fuel i s' hp => hp.elim⟩
    have hlisted : Returns (fun _ => eventListed eventList e.eventId) _ :=
      (Returns.const _).congr fun k => eventListed_spec (h.inRange he) eventList
    exact not_faults_bind_pure (g := fun _ => s) hlisted.not_faults

/-- A call that is safe is admissible, unless its ids come from a text. -/
theorem Safe.admissible (h : Safe s op) (hinv : s.Inv) (hop : ∀ json, op ≠ .createJson json) :
    Admissible s op := by
  cases op with
  | register eventId eventName =>
    by_contra hneg
    refine h.ne_fault trivial fun fuel => ?_
    simp only [step, register_neg (Int.not_le.mp hneg), error_bind]
  | getName eventId =>
    by_contra hneg
    refine h.ne_fault trivial fun fuel => ?_
    simp only [step, getName_neg (Int.not_le.mp hneg), error_bind]
  | bindRemovable id eventId callback =>
    by_contra hneg
    have hout : eventId < 0 ∨ eventId = EVENT_ID_LIMIT := by
      by_contra hcon
      obtain ⟨h0, hl⟩ := not_or.mp hcon
      exact hneg ⟨Int.not_lt.mp h0, hl⟩
    refine h.ne_fault trivial fun fuel => ?_
    simp only [step, bind_outside hout, error_bind]
  | unbind node =>
    rintro a rfl hnone
    refine h.ne_fault trivial fun fuel => ?_
    simp only [step, agcEventUnbind, EventNodes.load, hnone, error_bind]
  | create eventId sourceId =>
    by_contra hout
    -- the new event is an effect
    have hsame := h.2 0 eventId _ rfl hout rfl
    have hnext : s.next + 1 = s.next := congrArg IdState.next hsame
    omega
  | setId event eventId =>
    by_contra hcon
    obtain ⟨he, hout⟩ := not_or.mp hcon
    obtain ⟨e, he⟩ := Option.ne_none_iff_exists'.mp he
    have hsame := h.2 0 eventId _ rfl hout (withEvent_some he)
    have hevent : Function.update s.events event (some (agcEventSetId e eventId)) event =
        s.events event := congrFun (congrArg IdState.events hsame) event
    -- the event had an id of the tables before
    rw [Function.update_self, he] at hevent
    have hid : eventId = e.eventId := congrArg Event.eventId (Option.some.inj hevent)
    exact hout (hid ▸ hinv.inRange he)
  | createJson json => exact absurd rfl (hop json)
  | fire event => trivial
  | serialize event => trivial
  | handleEvent eventList event => trivial

/-- **Event ids index the tables safely** in every run of admissible calls: in every state that such
calls lead to, the next admissible call stays inside of the tables, and has no effect if its id is
outside. For an id that is passed as a number no other call is safe. -/
theorem event_ids_safe (hs : Reachable s) (op : IdOp) :
    (Admissible s op → Safe s op) ∧
      ((∀ json, op ≠ .createJson json) → (Safe s op ↔ Admissible s op)) := by
  have hinv := hs.inv
  refine ⟨fun hop => hinv.safe hop, fun hop => ?_⟩
  exact ⟨fun hsafe => hsafe.admissible hinv hop, fun hadm => hinv.safe hadm⟩

/-- A callback is bound to the event id 7 and an event with this id is created. Then the delivery of
the event is safe, and so is the removal of the node. -/
theorem event_ids_safe_seven :
    ∃ s node, Reachable s ∧ s.nodes.heads 7 = some node ∧
      (∃ e, s.events 0 = some e ∧ e.eventId = 7) ∧ Safe s (.fire 0) ∧
        Safe s (.unbind (some node)) := by
  have hbound : ∃ s node, Reachable s ∧ s.nodes.heads 7 = some node ∧
      s.nodes.mem node ≠ none ∧ ∃ e, s.events 0 = some e ∧ e.eventId = 7 := by
    have hbind : Admissible initial (.bindRemovable (CStr.ofString "a") 7 5) :=
      ⟨by decide, by decide⟩
    have hcreate : ∀ s, Admissible s (.create 7 0) := fun _ => ⟨by decide, by decide⟩
    exact ⟨_, _, .step (.step .initial hbind (Returns.const _)) (hcreate _) (Returns.const _), rfl,
      nofun, _, rfl, rfl⟩
  obtain ⟨s, node, hs, hnode, hmem, he⟩ := hbound
  refine ⟨s, node, hs, hnode, he, (event_ids_safe hs _).1 trivial, (event_ids_safe hs _).1 ?_⟩
  rintro a ⟨⟩
  exact hmem

/-- A negative id is written to the names, the id `EVENT_ID_LIMIT` to the bindings, and an event
with that id is created and then delivered. -/
theorem event_ids_outside :
    ¬ Safe initial (.register (-1) (CStr.ofString "x")) ∧
      ¬ Safe initial (.bindRemovable (CStr.ofString "a") 1024 5) ∧
      ∃ s, Returns (fun fuel => IdState.step fuel initial (.create 1024 0)) s ∧
        Faults (fun fuel => IdState.step fuel s (.fire 0)) := by
  refine ⟨fun h => ?_, fun h => ?_, _, Returns.const _, 0, fun k _ => ?_⟩
  · refine h.ne_fault trivial fun fuel => ?_
    simp only [IdState.step, register_neg (by decide : (-1 : ℤ) < 0), error_bind]
  · refine h.ne_fault trivial fun fuel => ?_
    simp only [IdState.step, bind_outside (Or.inr rfl : (1024 : ℤ) < 0 ∨ 1024 = EVENT_ID_LIMIT),
      error_bind]
  · rfl

end IdState
