import AgcFramework.Lib.CString
import AgcFramework.Lib.Chain
import AgcFramework.Lib.Exec
import AgcFramework.Types

/-!
# Events and their headers

An event keeps its headers in a singly linked chain with a pointer to the last node. The nodes
stand in a store in which released nodes are gone; a read through a null or a released pointer is a
fault, and `malloc` hands out an address that was not used before. A header's text is a C string.

## Main definitions

* `Event`: the fields of `agc_event_t` that the header functions use, with the store
* `agcEventAddHeader`, `agcEventAddHeaderRepeatcheck`, `agcEventAddHeaderString`,
  `agcEventDelHeader`: the functions of `agc_event.c`
* `Event.Represents e pairs`: the chain is well formed and holds the pairs in order
* `Event.Cyclic e`: the chain runs in a cycle

## Main results

* `Event.Represents.addNocheck`, `Event.Represents.addAbsent`: a new name is put at the end
* `Event.Represents.delHeader`: a removal takes out every header with the name
* `Event.Linked.cyclic`, `Event.Cyclic.addHeader`: adding a present name ties the chain into a
  cycle, which no later addition opens
-/

open Exec Chain

/-- The address of a header node. -/
abbrev Addr := ℕ

/-- `struct agc_event_header`. -/
structure Header where
  name : CStr
  value : Option CStr
  next : Option Addr

/-- An `agc_event_t`, with the header nodes of the program's memory. -/
structure Event where
  eventId : ℤ
  sourceId : UInt32
  headers : Option Addr
  lastHeader : Option Addr
  body : Option CStr
  /-- The header nodes in memory. -/
  mem : Addr → Option Header
  /-- The address `malloc` returns next. -/
  brk : Addr

namespace Event

/-- A read of the node at `a`. -/
def load (e : Event) (a : Addr) : Exec Header :=
  match e.mem a with
  | some h => .ok h
  | none => .error .fault

/-- A write of the node at `a`. -/
def put (e : Event) (a : Addr) (h : Header) : Event :=
  { e with mem := Function.update e.mem a (some h) }

/-- `header->value = data`. -/
def setValue (e : Event) (a : Addr) (data : CStr) : Exec Event := do
  let h ← e.load a
  pure (e.put a { h with value := some data })

/-- `header->next = next`. -/
def setNext (e : Event) (a : Addr) (next : Option Addr) : Exec Event := do
  let h ← e.load a
  pure (e.put a { h with next := next })

/-- The release of the node at `a`. -/
def free (e : Event) (a : Addr) : Event :=
  { e with mem := Function.update e.mem a none }

end Event

/-- `agc_event_create`, on a memory whose nodes are `mem`. -/
def agcEventCreate (mem : Addr → Option Header) (brk : Addr) (eventId : ℤ) (sourceId : UInt32) :
    Event where
  eventId := eventId
  sourceId := sourceId
  headers := none
  lastHeader := none
  body := none
  mem := mem
  brk := brk

/-- The loop of `agc_event_get_header_ptr`. -/
def findHeader (e : Event) (name : CStr) : ℕ → Option Addr → Exec (Option Addr)
  | 0, _ => .error .fuel
  | _ + 1, none => pure none
  | n + 1, some hp => do
    let h ← e.load hp
    if h.name.SameName name then pure (some hp) else findHeader e name n h.next

/-- `agc_event_get_header_ptr`. -/
def agcEventGetHeaderPtr (fuel : ℕ) (e : Event) (name : CStr) : Exec (Option Addr) :=
  findHeader e name fuel e.headers

/-- `agc_event_get_header`. -/
def agcEventGetHeader (fuel : ℕ) (e : Event) (name : CStr) : Exec (Option CStr) := do
  match ← agcEventGetHeaderPtr fuel e name with
  | none => pure none
  | some hp => do
    let h ← e.load hp
    pure h.value

/-- `new_header`: the node is allocated and zeroed, and the name is copied. -/
def newHeader (e : Event) (name : CStr) : Event × Addr :=
  ({ e.put e.brk ⟨name, none, none⟩ with brk := e.brk + 1 }, e.brk)

/-- The end of both adding functions: the node is linked behind the last one. -/
def linkLast (e : Event) (header : Addr) : Exec Event := do
  match e.lastHeader with
  | some last =>
    let e ← e.setNext last (some header)
    pure { e with lastHeader := some header }
  | none =>
    let e ← Event.setNext { e with headers := some header } header none
    pure { e with lastHeader := some header }

/-- `agc_event_base_add_header`. -/
def agcEventBaseAddHeader (fuel : ℕ) (e : Event) (name data : CStr) : Exec Event := do
  let found ← agcEventGetHeaderPtr fuel e name
  let (e, header) := match found with
    | none => newHeader e name
    | some header => (e, header)
  let e ← e.setValue header data
  linkLast e header

/-- `agc_event_base_add_header_nocheck`. -/
def agcEventBaseAddHeaderNocheck (e : Event) (name data : CStr) : Exec Event := do
  let (e, header) := newHeader e name
  let e ← e.setValue header data
  linkLast e header

/-- `agc_event_add_header`; `data` is the text that `agc_vasprintf` made, or none if it failed. -/
def agcEventAddHeader (e : Event) (name : CStr) (data : Option CStr) : Exec (Event × AgcStatus) :=
  match data with
  | none => pure (e, .memerr)
  | some data => do
    let e ← agcEventBaseAddHeaderNocheck e name data
    pure (e, .success)

/-- `agc_event_add_header_repeatcheck`. -/
def agcEventAddHeaderRepeatcheck (fuel : ℕ) (e : Event) (name : CStr) (data : Option CStr) :
    Exec (Event × AgcStatus) :=
  match data with
  | none => pure (e, .memerr)
  | some data => do
    let e ← agcEventBaseAddHeader fuel e name data
    pure (e, .success)

/-- `agc_event_add_header_string`; `data` may be null. -/
def agcEventAddHeaderString (fuel : ℕ) (e : Event) (name : CStr) (data : Option CStr) :
    Exec (Event × AgcStatus) :=
  match data with
  | none => pure (e, .generr)
  | some data => do
    let e ← agcEventBaseAddHeader fuel e name data
    pure (e, .success)

/-- The unlinking of the node `hp`, which holds `h`, behind the kept node `lp`. -/
def unlinkHeader (e : Event) (lp : Option Addr) (hp : Addr) (h : Header) : Exec Event := do
  let e ← match lp with
    | some lp => e.setNext lp h.next
    | none => pure { e with headers := h.next }
  let last := if some hp = e.lastHeader ∨ h.next = none then lp else e.lastHeader
  pure ({ e with lastHeader := last }.free hp)

/-- The loop of `agc_event_del_header`. -/
def delHeaderLoop (name : CStr) : ℕ → Event → Option Addr → Option Addr → Exec Event
  | 0, _, _, _ => .error .fuel
  | _ + 1, e, _, none => pure e
  | n + 1, e, lp, some hp => do
    let h ← e.load hp
    if name.SameName h.name then do
      let e ← unlinkHeader e lp hp h
      delHeaderLoop name n e lp h.next
    else delHeaderLoop name n e (some hp) h.next

/-- `agc_event_del_header`. -/
def agcEventDelHeader (fuel : ℕ) (e : Event) (name : CStr) : Exec (Event × AgcStatus) := do
  let e ← delHeaderLoop name fuel e none e.headers
  pure (e, .success)

namespace Event

/-! ## Well-formed chains -/

/-- A node with its address. -/
abbrev Node := Addr × Header

/-- The chain of the event leads through the nodes `cs` to the end, visits none of them twice, and
`last_header` is the last of them. -/
structure Linked (e : Event) (cs : List Node) : Prop where
  chain : Segment Header.next e.mem e.headers cs none
  nodup : (cs.map Prod.fst).Nodup
  last : e.lastHeader = (cs.map Prod.fst).getLast?

/-- The chain of the event is well formed. -/
def WellFormed (e : Event) : Prop := ∃ cs, e.Linked cs

/-- The names and values of the nodes. -/
def texts (cs : List Node) : List (CStr × Option CStr) := cs.map fun x => (x.2.name, x.2.value)

theorem texts_append (cs ds : List Node) : texts (cs ++ ds) = texts cs ++ texts ds :=
  List.map_append

/-- The nodes hold the pairs of names and values in order. -/
def Carries (cs : List Node) (pairs : List (CStr × CStr)) : Prop :=
  texts cs = pairs.map fun p => (p.1, some p.2)

/-- The chain is well formed and holds the pairs in order; `malloc` does not return one of its
nodes. -/
def Represents (e : Event) (pairs : List (CStr × CStr)) : Prop :=
  ∃ cs, e.Linked cs ∧ Carries cs pairs ∧ ∀ x ∈ cs, x.1 < e.brk

theorem Represents.wellFormed {e : Event} {pairs : List (CStr × CStr)} (h : e.Represents pairs) :
    e.WellFormed := by
  obtain ⟨cs, hl, -⟩ := h
  exact ⟨cs, hl⟩

/-- The fields other than those of the chain do not matter. -/
theorem Represents.congr {e e' : Event} {pairs : List (CStr × CStr)} (h : e.Represents pairs)
    (hheaders : e'.headers = e.headers) (hlast : e'.lastHeader = e.lastHeader)
    (hmem : e'.mem = e.mem) (hbrk : e'.brk = e.brk) : e'.Represents pairs := by
  obtain ⟨cs, hl, hc, hb⟩ := h
  refine ⟨cs, ⟨?_, hl.nodup, hlast.trans hl.last⟩, hc, hbrk ▸ hb⟩
  rw [hheaders, hmem]
  exact hl.chain

/-- A fresh event has no headers. -/
theorem represents_create (mem : Addr → Option Header) (brk : Addr) (eventId : ℤ)
    (sourceId : UInt32) : (agcEventCreate mem brk eventId sourceId).Represents [] :=
  ⟨[], ⟨rfl, List.nodup_nil, rfl⟩, rfl, by simp⟩

variable {e : Event} {cs : List Node} {pairs : List (CStr × CStr)} {name data : CStr}

theorem load_eq {a : Addr} {h : Header} (hm : e.mem a = some h) : e.load a = .ok h := by
  rw [load, hm]

/-- The lookup returns the first node with the name. -/
theorem findHeader_spec {p : Option Addr} (h : Segment Header.next e.mem p cs none)
    (name : CStr) :
    Returns (fun fuel => findHeader e name fuel p)
      ((cs.find? fun x => decide (x.2.name.SameName name)).map Prod.fst) := by
  induction cs generalizing p with
  | nil =>
    obtain rfl : p = none := h
    refine ⟨1, fun k hk => ?_⟩
    obtain ⟨k, rfl⟩ : ∃ n, k = n + 1 := ⟨k - 1, by omega⟩
    rfl
  | cons x cs ih =>
    obtain ⟨a, c⟩ := x
    obtain ⟨rfl, hm, hcs⟩ := h
    obtain ⟨n, hn⟩ := ih hcs
    refine ⟨n + 1, fun k hk => ?_⟩
    obtain ⟨k, rfl⟩ : ∃ m, k = m + 1 := ⟨k - 1, by omega⟩
    simp only [findHeader, load_eq hm, ok_bind]
    by_cases hc : c.name.SameName name
    · rw [if_pos hc, List.find?_cons_of_pos (by simpa using hc)]
      rfl
    · rw [if_neg hc, List.find?_cons_of_neg (by simpa using hc)]
      exact hn k (by omega)

/-- The name stands in the list. -/
def Present (name : CStr) (pairs : List (CStr × CStr)) : Prop :=
  ∃ p ∈ pairs, p.1.SameName name

instance (name : CStr) (pairs : List (CStr × CStr)) : Decidable (Present name pairs) :=
  inferInstanceAs (Decidable (∃ p ∈ pairs, p.1.SameName name))

theorem Carries.present (h : Carries cs pairs) :
    Present name pairs ↔ ∃ x ∈ cs, x.2.name.SameName name := by
  have hmap : cs.map (fun x => x.2.name) = pairs.map Prod.fst := by
    have := congrArg (List.map Prod.fst) h
    simpa [texts, Function.comp_def] using this
  constructor
  · rintro ⟨p, hp, hs⟩
    have hm : p.1 ∈ cs.map fun x => x.2.name := by
      rw [hmap]
      exact List.mem_map_of_mem hp
    obtain ⟨x, hx, hxp⟩ := List.mem_map.mp hm
    exact ⟨x, hx, hxp ▸ hs⟩
  · rintro ⟨x, hx, hs⟩
    have hm : x.2.name ∈ pairs.map Prod.fst := by
      rw [← hmap]
      exact List.mem_map.mpr ⟨x, hx, rfl⟩
    obtain ⟨p, hp, hpx⟩ := List.mem_map.mp hm
    exact ⟨p, hp, hpx ▸ hs⟩

/-- `agc_event_get_header` returns the first value with the name. -/
theorem Represents.getHeader (h : e.Represents pairs) (name : CStr) :
    Returns (fun fuel => agcEventGetHeader fuel e name)
      ((pairs.find? fun p => decide (p.1.SameName name)).map Prod.snd) := by
  obtain ⟨cs, hl, hc, -⟩ := h
  -- the first node with the name carries the first pair with the name
  have htexts : ((cs.find? fun x => decide (x.2.name.SameName name)).map
      fun x => (x.2.name, x.2.value)) =
      (pairs.find? fun p => decide (p.1.SameName name)).map fun p => (p.1, some p.2) := by
    have hfind := congrArg (List.find? fun t => decide (t.1.SameName name)) hc
    simp only [texts, List.find?_map] at hfind
    exact hfind
  refine Returns.bind (findHeader_spec hl.chain name) ?_
  cases hx : cs.find? fun x => decide (x.2.name.SameName name) with
  | none =>
    rw [hx, Option.map_none, eq_comm, Option.map_eq_none_iff] at htexts
    rw [htexts]
    exact Returns.const none
  | some x =>
    have hm : e.mem x.1 = some x.2 := hl.chain.get (List.mem_of_find?_eq_some hx)
    rw [hx, Option.map_some, eq_comm, Option.map_eq_some_iff] at htexts
    obtain ⟨p, hp, hpx⟩ := htexts
    have hvalue : some p.2 = x.2.value := congrArg Prod.snd hpx
    rw [hp]
    simp only [Option.map_some, load_eq hm, ok_bind, pure_eq_ok, hvalue]
    exact Returns.const x.2.value

/-! ## Adding -/

/-- Linking an isolated node behind the last one puts it at the end of the chain, and writes to no
other node than these. -/
theorem Linked.snoc {a : Addr} {h : Header} (hl : e.Linked cs) (hm : e.mem a = some h)
    (ha : a ∉ cs.map Prod.fst) (hn : h.next = none) :
    ∃ e' cs', linkLast e a = .ok e' ∧ e'.Linked (cs' ++ [(a, h)]) ∧
      cs'.map Prod.fst = cs.map Prod.fst ∧ texts cs' = texts cs ∧
      e'.brk = e.brk ∧ ∀ b, b ≠ a → b ∉ cs.map Prod.fst → e'.mem b = e.mem b := by
  rcases List.eq_nil_or_concat' cs with rfl | ⟨init, ⟨l, c⟩, rfl⟩
  · have hlast : e.lastHeader = none := hl.last
    have hput : Function.update e.mem a (some { h with next := none }) a = some h := by
      rw [Function.update_self, ← hn]
    refine ⟨{ e with
      headers := some a
      lastHeader := some a
      mem := Function.update e.mem a (some { h with next := none }) }, [], ?_,
      ⟨⟨rfl, hput, hn⟩, by simp, rfl⟩, rfl, rfl, rfl, fun b hb _ => Function.update_of_ne hb _ _⟩
    simp only [linkLast, hlast, setNext, load, hm, ok_bind, pure_eq_ok, put]
  · have hlast : e.lastHeader = some l := by
      rw [hl.last]
      simp
    have hml : e.mem l = some c := hl.chain.get (x := (l, c)) (by simp)
    have hnd := hl.nodup
    rw [List.map_append, List.nodup_append'] at hnd
    have hli : l ∉ init.map Prod.fst := fun hm' => hnd.2.2 hm' (by simp)
    have hla : a ≠ l := by
      rintro rfl
      exact ha (by simp)
    -- the old last node now links to the new one
    have hchain := hl.chain.relink hli { c with next := some a }
    refine ⟨{ e with
      lastHeader := some a
      mem := Function.update e.mem l (some { c with next := some a }) },
      init ++ [(l, { c with next := some a })], ?_, ⟨?_, ?_, ?_⟩, ?_, ?_, rfl, ?_⟩
    · simp only [linkLast, hlast, setNext, load, hml, ok_bind, pure_eq_ok, put]
    · exact segment_append.mpr ⟨some a, hchain, rfl, (Function.update_of_ne hla _ _).trans hm, hn⟩
    · have hcs : ((init ++ [(l, { c with next := some a })]) ++ [(a, h)]).map Prod.fst =
          (init ++ [(l, c)]).map Prod.fst ++ [a] := by simp
      rw [hcs, List.nodup_append']
      refine ⟨hl.nodup, by simp, fun x hx hxa => ?_⟩
      obtain rfl := List.mem_singleton.mp hxa
      exact ha hx
    · simp
    · simp
    · simp [texts]
    · intro b _ hb
      refine Function.update_of_ne ?_ _ _
      rintro rfl
      exact hb (by simp)

/-- The fields that no addition of a header changes. -/
theorem linkLast_fields {a : Addr} {e' : Event} (h : linkLast e a = .ok e') :
    e'.eventId = e.eventId ∧ e'.sourceId = e.sourceId ∧ e'.body = e.body := by
  unfold linkLast at h
  split at h
  · obtain ⟨e₁, he₁, h⟩ := bind_eq_ok.mp h
    obtain ⟨c, -, hc⟩ := bind_eq_ok.mp he₁
    cases hc
    cases h
    exact ⟨rfl, rfl, rfl⟩
  · obtain ⟨e₁, he₁, h⟩ := bind_eq_ok.mp h
    obtain ⟨c, -, hc⟩ := bind_eq_ok.mp he₁
    cases hc
    cases h
    exact ⟨rfl, rfl, rfl⟩

theorem addHeader_fields {fuel : ℕ} {e' : Event}
    (h : agcEventBaseAddHeader fuel e name data = .ok e') :
    e'.eventId = e.eventId ∧ e'.sourceId = e.sourceId ∧ e'.body = e.body := by
  obtain ⟨r, -, h⟩ := bind_eq_ok.mp h
  obtain ⟨e₁, hset, h⟩ := bind_eq_ok.mp h
  obtain ⟨c, -, hc⟩ := bind_eq_ok.mp hset
  cases hc
  have hlink := linkLast_fields h
  cases r with
  | none => exact hlink
  | some header => exact hlink

/-- A new node is put at the end of the chain, and nothing is written outside the chain. -/
theorem Linked.append (hl : e.Linked cs) (hc : Carries cs pairs) (hb : ∀ x ∈ cs, x.1 < e.brk)
    (name data : CStr) :
    ∃ e' cs', (do let e₁ ← (newHeader e name).1.setValue (newHeader e name).2 data
                  linkLast e₁ (newHeader e name).2) = .ok e' ∧
      e'.Linked cs' ∧ Carries cs' (pairs ++ [(name, data)]) ∧
      cs'.map Prod.fst = cs.map Prod.fst ++ [e.brk] ∧ e'.brk = e.brk + 1 ∧
      (e'.eventId = e.eventId ∧ e'.sourceId = e.sourceId ∧ e'.body = e.body) ∧
      ∀ b, b ≠ e.brk → b ∉ cs.map Prod.fst → e'.mem b = e.mem b := by
  -- the new node is at an address that no node of the chain has
  have hbrk : e.brk ∉ cs.map Prod.fst := by
    intro hm
    obtain ⟨x, hx, hxb⟩ := List.mem_map.mp hm
    exact Nat.lt_irrefl _ (hxb ▸ hb x hx)
  set e₁ : Event := { e with
    mem := Function.update e.mem e.brk (some ⟨name, some data, none⟩)
    brk := e.brk + 1 } with he₁
  have hset : (newHeader e name).1.setValue (newHeader e name).2 data = .ok e₁ := by
    simp [newHeader, setValue, load, put, he₁]
  have hl₁ : e₁.Linked cs := ⟨hl.chain.update_of_not_mem hbrk _, hl.nodup, hl.last⟩
  obtain ⟨e', cs', he', hl', hfst, hpr, hbrk', hframe⟩ :=
    hl₁.snoc (a := e.brk) (h := ⟨name, some data, none⟩) (by simp [he₁]) hbrk rfl
  have hfields : e'.eventId = e₁.eventId ∧ e'.sourceId = e₁.sourceId ∧ e'.body = e₁.body :=
    linkLast_fields he'
  refine ⟨e', cs' ++ [(e.brk, ⟨name, some data, none⟩)], ?_, hl', ?_, ?_, hbrk', hfields,
    fun b hne hout => ?_⟩
  · rw [hset]
    exact he'
  · rw [Carries, texts_append, hpr, hc]
    simp [texts]
  · rw [List.map_append, hfst]
    rfl
  · rw [hframe b hne hout]
    exact Function.update_of_ne hne _ _

/-- The addresses of the nodes stay below the next one. -/
theorem lt_brk_of_append {cs' : List Node} {brk : Addr} (hb : ∀ x ∈ cs, x.1 < brk)
    (hfst : cs'.map Prod.fst = cs.map Prod.fst ++ [brk]) : ∀ x ∈ cs', x.1 < brk + 1 := by
  intro x hx
  have hm : x.1 ∈ cs.map Prod.fst ++ [brk] := hfst ▸ List.mem_map_of_mem hx
  rcases List.mem_append.mp hm with hm | hm
  · obtain ⟨y, hy, hyx⟩ := List.mem_map.mp hm
    exact Nat.lt_succ_of_lt (hyx ▸ hb y hy)
  · rw [List.mem_singleton.mp hm]
    exact Nat.lt_succ_self brk

/-- `agc_event_base_add_header_nocheck` puts the header at the end. -/
theorem Represents.addNocheck (h : e.Represents pairs) (name data : CStr) :
    ∃ e', agcEventBaseAddHeaderNocheck e name data = .ok e' ∧
      e'.Represents (pairs ++ [(name, data)]) ∧ e'.eventId = e.eventId ∧ e'.body = e.body := by
  obtain ⟨cs, hl, hc, hb⟩ := h
  obtain ⟨e', cs', he', hl', hc', hfst, hbrk, ⟨hid, -, hbody⟩, -⟩ := hl.append hc hb name data
  refine ⟨e', he', ⟨cs', hl', hc', ?_⟩, hid, hbody⟩
  rw [hbrk]
  exact lt_brk_of_append hb hfst

/-- `agc_event_base_add_header` puts a header with a new name at the end. -/
theorem Linked.addAbsent (hl : e.Linked cs) (hc : Carries cs pairs) (hb : ∀ x ∈ cs, x.1 < e.brk)
    (name data : CStr) (ha : ¬ Present name pairs) :
    ∃ e' cs', Returns (fun fuel => agcEventBaseAddHeader fuel e name data) e' ∧
      e'.Linked cs' ∧ Carries cs' (pairs ++ [(name, data)]) ∧
      cs'.map Prod.fst = cs.map Prod.fst ++ [e.brk] ∧ e'.brk = e.brk + 1 ∧
      (e'.eventId = e.eventId ∧ e'.sourceId = e.sourceId ∧ e'.body = e.body) ∧
      ∀ b, b ≠ e.brk → b ∉ cs.map Prod.fst → e'.mem b = e.mem b := by
  obtain ⟨e', cs', he', hrest⟩ := hl.append hc hb name data
  have hnone : (cs.find? fun x => decide (x.2.name.SameName name)) = none := by
    rw [List.find?_eq_none]
    intro x hx hs
    exact ha (hc.present.mpr ⟨x, hx, by simpa using hs⟩)
  obtain ⟨n, hn⟩ := findHeader_spec hl.chain name
  refine ⟨e', cs', ⟨n, fun k hk => ?_⟩, hrest⟩
  have hfind : findHeader e name k e.headers = .ok none := by
    have hk' := hn k hk
    rw [hnone] at hk'
    exact hk'
  simp only [agcEventBaseAddHeader, agcEventGetHeaderPtr, hfind, ok_bind]
  exact he'

theorem Represents.addAbsent (h : e.Represents pairs) (name data : CStr)
    (ha : ¬ Present name pairs) :
    ∃ e', Returns (fun fuel => agcEventBaseAddHeader fuel e name data) e' ∧
      e'.Represents (pairs ++ [(name, data)]) ∧ e'.eventId = e.eventId ∧ e'.body = e.body := by
  obtain ⟨cs, hl, hc, hb⟩ := h
  obtain ⟨e', cs', hret, hl', hc', hfst, hbrk, ⟨hid, -, hbody⟩, -⟩ :=
    hl.addAbsent hc hb name data ha
  refine ⟨e', hret, ⟨cs', hl', hc', ?_⟩, hid, hbody⟩
  rw [hbrk]
  exact lt_brk_of_append hb hfst

/-! ## Cycles -/

/-- The chain runs in a cycle: from every node that it comes to a link leads on. -/
def Cyclic (e : Event) : Prop :=
  ∃ S : List Addr, (∃ a ∈ S, e.headers = some a) ∧ (∃ a ∈ S, e.lastHeader = some a) ∧
    ∀ a ∈ S, ∃ c, e.mem a = some c ∧ ∃ b ∈ S, c.next = some b

theorem Cyclic.not_wellFormed (h : e.Cyclic) : ¬ e.WellFormed := by
  obtain ⟨S, ⟨a, ha, hhead⟩, -, hS⟩ := h
  rintro ⟨cs, hl⟩
  have hchain := hl.chain
  rw [hhead] at hchain
  refine not_segment_of_closed (fun b hb c hc => ?_) ha hchain
  obtain ⟨c', hc', hnext⟩ := hS b hb
  rw [hc] at hc'
  rw [Option.some.inj hc']
  exact hnext

/-- A lookup in a set of nodes that link to each other comes to one of them or does not end. -/
theorem findHeader_closed {S : List Addr}
    (hS : ∀ a ∈ S, ∃ c, e.mem a = some c ∧ ∃ b ∈ S, c.next = some b) {fuel : ℕ} {a : Addr}
    (ha : a ∈ S) {r : Option Addr} (hr : findHeader e name fuel (some a) = .ok r) :
    ∃ b ∈ S, r = some b := by
  induction fuel generalizing a with
  | zero => cases hr
  | succ n ih =>
    obtain ⟨c, hc, b, hb, hnext⟩ := hS a ha
    simp only [findHeader, load_eq hc, ok_bind] at hr
    split at hr
    · cases hr
      exact ⟨a, ha, rfl⟩
    · rw [hnext] at hr
      exact ih hb hr

/-- The end of an addition of a node that is present: its value is replaced, and the last node is
linked to it. -/
theorem relink_eq {a l : Addr} {c d : Header} (hma : e.mem a = some c) (hml : e.mem l = some d)
    (hlast : e.lastHeader = some l) (data : CStr) :
    ∃ e', (do let e₁ ← e.setValue a data
              linkLast e₁ a) = .ok e' ∧ e'.headers = e.headers ∧ e'.lastHeader = some a ∧
      (∀ b x, e.mem b = some x → b ≠ l → ∃ y, e'.mem b = some y ∧ y.next = x.next) ∧
      ∃ y, e'.mem l = some y ∧ y.next = some a := by
  set mem₁ := Function.update e.mem a (some { c with value := some data }) with hmem₁
  -- the replacement of the value keeps the links
  have hkeep : ∀ b x, e.mem b = some x → ∃ y, mem₁ b = some y ∧ y.next = x.next := by
    intro b x hx
    by_cases hba : b = a
    · rw [hba, hma] at hx
      refine ⟨{ c with value := some data }, by simp [hmem₁, hba], ?_⟩
      rw [← Option.some.inj hx]
    · exact ⟨x, by rw [hmem₁, Function.update_of_ne hba]; exact hx, rfl⟩
  obtain ⟨d₁, hd₁, -⟩ := hkeep l d hml
  refine ⟨{ e with
    mem := Function.update mem₁ l (some { d₁ with next := some a })
    lastHeader := some a }, ?_, rfl, rfl, fun b x hx hbl => ?_, ⟨_, Function.update_self .., rfl⟩⟩
  · simp only [setValue, load, hma, ok_bind, pure_eq_ok, put, linkLast, hlast, setNext, ← hmem₁,
      hd₁]
  · obtain ⟨y, hy, hnext⟩ := hkeep b x hx
    exact ⟨y, (Function.update_of_ne hbl _ _).trans hy, hnext⟩

/-- An addition to a cycle, if it returns, leaves a cycle. -/
theorem Cyclic.addHeader {e' : Event} {fuel : ℕ} {data : CStr} (h : e.Cyclic)
    (hr : agcEventBaseAddHeader fuel e name data = .ok e') : e'.Cyclic := by
  obtain ⟨S, ⟨a, ha, hhead⟩, ⟨l, hl, hlast⟩, hS⟩ := h
  obtain ⟨r, hfind, hr⟩ := bind_eq_ok.mp hr
  rw [agcEventGetHeaderPtr, hhead] at hfind
  obtain ⟨b, hb, rfl⟩ := findHeader_closed hS ha hfind
  obtain ⟨c, hc, -⟩ := hS b hb
  obtain ⟨d, hd, -⟩ := hS l hl
  obtain ⟨e₁, he₁, hheaders, hlast', hkeep, y, hy, hnext⟩ := relink_eq hc hd hlast data
  obtain rfl : e₁ = e' := Except.ok.inj (he₁.symm.trans hr)
  refine ⟨S, ⟨a, ha, hheaders.trans hhead⟩, ⟨b, hb, hlast'⟩, fun x hx => ?_⟩
  by_cases hxl : x = l
  · rw [hxl]
    exact ⟨y, hy, b, hb, hnext⟩
  · obtain ⟨z, hz, x', hx', hzx⟩ := hS x hx
    obtain ⟨z', hz', hnext'⟩ := hkeep x z hz hxl
    exact ⟨z', hz', x', hx', hnext'.trans hzx⟩

/-- `agc_event_base_add_header` on a name that is present links the last node back to the node of
that name. -/
theorem Linked.cyclic (hl : e.Linked cs) (name data : CStr)
    (hp : ∃ x ∈ cs, x.2.name.SameName name) :
    ∃ e', Returns (fun fuel => agcEventBaseAddHeader fuel e name data) e' ∧ e'.Cyclic := by
  obtain ⟨⟨a, c⟩, hfind⟩ : ∃ x, (cs.find? fun x => decide (x.2.name.SameName name)) = some x := by
    obtain ⟨x, hx, hs⟩ := hp
    exact Option.isSome_iff_exists.mp (List.find?_isSome.mpr ⟨x, hx, by simpa using hs⟩)
  have hac : (a, c) ∈ cs := List.mem_of_find?_eq_some hfind
  have hma : e.mem a = some c := hl.chain.get hac
  obtain ⟨init, ⟨l, d⟩, rfl⟩ : ∃ init x, cs = init ++ [x] := by
    rcases List.eq_nil_or_concat' cs with rfl | hcs
    · cases hac
    · exact hcs
  have hlast : e.lastHeader = some l := by
    rw [hl.last]
    simp
  have hml : e.mem l = some d := hl.chain.get (x := (l, d)) (by simp)
  obtain ⟨e', he', hheaders, hlast', hkeep, z, hz, hnext⟩ := relink_eq hma hml hlast data
  obtain ⟨n, hn⟩ := findHeader_spec hl.chain name
  refine ⟨e', ⟨n, fun k hk => ?_⟩, ?_⟩
  · have hk' : findHeader e name k e.headers = .ok (some a) := by
      have hk' := hn k hk
      rw [hfind] at hk'
      exact hk'
    simp only [agcEventBaseAddHeader, agcEventGetHeaderPtr, hk', ok_bind]
    exact he'
  · -- every node of the chain links to another node of it
    obtain ⟨r, hinit, rfl, -, -⟩ := segment_append.mp hl.chain
    set S : List Addr := (init ++ [(l, d)]).map Prod.fst with hS
    have hlS : l ∈ S := by simp [hS]
    have haS : a ∈ S := List.mem_map_of_mem (f := Prod.fst) hac
    obtain ⟨b, hb, hhead⟩ : ∃ b ∈ S, e.headers = some b := by
      cases init with
      | nil => exact ⟨l, hlS, hinit⟩
      | cons y init =>
        obtain ⟨b, x⟩ := y
        exact ⟨b, by simp [hS], hinit.1⟩
    refine ⟨S, ⟨b, hb, hheaders.trans hhead⟩, ⟨a, haS, hlast'⟩, fun b hb => ?_⟩
    by_cases hbl : b = l
    · rw [hbl]
      exact ⟨z, hz, a, haS, hnext⟩
    · obtain ⟨y, hy, rfl⟩ := List.mem_map.mp hb
      have hyi : y ∈ init := by
        rcases List.mem_append.mp hy with hy | hy
        · exact hy
        · exact absurd (by rw [List.mem_singleton.mp hy]) hbl
      obtain ⟨x, hx, hyx⟩ := hkeep y.1 y.2 (hinit.get hyi) hbl
      refine ⟨x, hx, ?_⟩
      rcases hinit.link_mem hyi with hb' | ⟨b', hb', hyb⟩
      · exact ⟨l, hlS, hyx.trans hb'⟩
      · refine ⟨b', ?_, hyx.trans hyb⟩
        rw [hS, List.map_append]
        exact List.mem_append_left _ hb'

/-- The chain of the result has no end. -/
theorem Linked.not_wellFormed (hl : e.Linked cs) (name data : CStr)
    (hp : ∃ x ∈ cs, x.2.name.SameName name) :
    ∃ e', Returns (fun fuel => agcEventBaseAddHeader fuel e name data) e' ∧ ¬ e'.WellFormed := by
  obtain ⟨e', hret, hcyc⟩ := hl.cyclic name data hp
  exact ⟨e', hret, hcyc.not_wellFormed⟩

/-! ## Removing -/

/-- Unlinking a node behind the kept ones takes it out of the chain. -/
theorem Linked.unlink {done rest : List Node} {a : Addr} {c : Header}
    (hl : e.Linked (done ++ (a, c) :: rest)) :
    ∃ e' done', unlinkHeader e (done.map Prod.fst).getLast? a c = .ok e' ∧
      e'.Linked (done' ++ rest) ∧ done'.map Prod.fst = done.map Prod.fst ∧
      texts done' = texts done ∧ e'.brk = e.brk := by
  obtain ⟨r, hdone, rfl, hma, hrest⟩ := segment_append.mp hl.chain
  have hnd := hl.nodup
  rw [List.map_append, List.map_cons] at hnd
  have hout : a ∉ done.map Prod.fst ++ rest.map Prod.fst := (List.nodup_middle.mp hnd).notMem
  have hnd' : (done.map Prod.fst ++ rest.map Prod.fst).Nodup :=
    (List.nodup_cons.mp (List.nodup_middle.mp hnd)).2
  obtain ⟨had, har⟩ := not_or.mp (fun h => hout (List.mem_append.mpr h))
  -- `last_header` moves back exactly when the removed node was the last
  have hlast : (if some a = e.lastHeader ∨ c.next = none then (done.map Prod.fst).getLast?
      else e.lastHeader) = (done.map Prod.fst ++ rest.map Prod.fst).getLast? := by
    rw [hl.last, List.map_append, List.map_cons, hrest.start_head]
    exact getLast?_remove har
  rcases List.eq_nil_or_concat' done with rfl | ⟨init, ⟨l, d⟩, rfl⟩
  · -- no node is kept before it: `headers` moves on
    refine ⟨{ e with
      headers := c.next
      lastHeader := (rest.map Prod.fst).getLast?
      mem := Function.update e.mem a none }, [], ?_,
      ⟨hrest.update_of_not_mem har _, by simpa using hnd', rfl⟩, rfl, rfl, rfl⟩
    simp only [List.map_nil, List.nil_append, List.getLast?_nil] at hlast
    simp only [unlinkHeader, List.map_nil, List.getLast?_nil, pure_eq_ok, ok_bind, free, hlast]
  · have hml : e.mem l = some d := hdone.get (x := (l, d)) (by simp)
    have hli : l ∉ init.map Prod.fst := by
      intro hm
      rw [List.map_append, List.append_assoc, List.nodup_append'] at hnd'
      exact hnd'.2.2 hm (by simp)
    have hlr : l ∉ rest.map Prod.fst := by
      intro hm
      exact (List.nodup_append'.mp hnd').2.2 (by simp) hm
    -- the kept node before the removed one now links behind it
    have hchain := hdone.relink hli { d with next := c.next }
    have hfst : (init ++ [(l, { d with next := c.next })]).map Prod.fst =
        (init ++ [(l, d)]).map Prod.fst := by simp
    refine ⟨{ e with
      lastHeader := ((init ++ [(l, d)]).map Prod.fst ++ rest.map Prod.fst).getLast?
      mem := Function.update (Function.update e.mem l (some { d with next := c.next })) a none },
      init ++ [(l, { d with next := c.next })], ?_, ⟨?_, ?_, ?_⟩, hfst, ?_, rfl⟩
    · have hlp : ((init ++ [(l, d)]).map Prod.fst).getLast? = some l := by simp
      rw [hlp] at hlast
      simp only [unlinkHeader, hlp, setNext, load, hml, ok_bind, pure_eq_ok, put, free, hlast]
    · refine segment_append.mpr ⟨c.next, ?_, ?_⟩
      · refine hchain.update_of_not_mem ?_ none
        rw [hfst]
        exact had
      · exact (hrest.update_of_not_mem hlr _).update_of_not_mem har none
    · rw [List.map_append, hfst]
      exact hnd'
    · simp
    · simp [texts]

/-- The loop takes out the nodes with the name among those not yet visited. -/
theorem delHeaderLoop_spec (name : CStr) (done rest : List Node) (hl : e.Linked (done ++ rest))
    {tp : Option Addr} (htp : Segment Header.next e.mem tp rest none) :
    ∃ e' cs', Returns (fun fuel => delHeaderLoop name fuel e (done.map Prod.fst).getLast? tp) e' ∧
      e'.Linked cs' ∧ (∀ a ∈ cs'.map Prod.fst, a ∈ (done ++ rest).map Prod.fst) ∧
      texts cs' = texts done ++ (texts rest).filter (fun p => ¬ name.SameName p.1) ∧
      e'.brk = e.brk := by
  induction rest generalizing e done tp with
  | nil =>
    obtain rfl : tp = none := htp
    refine ⟨e, done, ⟨1, fun k hk => ?_⟩, by simpa using hl, by simp, by simp [texts], rfl⟩
    obtain ⟨k, rfl⟩ : ∃ n, k = n + 1 := ⟨k - 1, by omega⟩
    rfl
  | cons x rest ih =>
    obtain ⟨a, c⟩ := x
    obtain ⟨rfl, hma, hrest⟩ := htp
    by_cases hc : name.SameName c.name
    · -- the node is unlinked, and the loop goes on with the same kept nodes
      obtain ⟨e₁, done₁, hun, hl₁, hfst, htx, hbrk⟩ := hl.unlink
      obtain ⟨r, -, hr⟩ := segment_append.mp hl₁.chain
      obtain rfl := hr.start_eq hrest
      obtain ⟨e', cs', ⟨n, hn⟩, hl', hsub, htx', hbrk'⟩ := ih done₁ hl₁ hr
      refine ⟨e', cs', ⟨n + 1, fun k hk => ?_⟩, hl', fun b hb => ?_, ?_, hbrk'.trans hbrk⟩
      · obtain ⟨k, rfl⟩ : ∃ m, k = m + 1 := ⟨k - 1, by omega⟩
        have hk' := hn k (by omega)
        rw [hfst] at hk'
        simp only [delHeaderLoop, load_eq hma, ok_bind, if_pos hc, hun]
        exact hk'
      · have hb' := hsub b hb
        rw [List.map_append, hfst] at hb'
        rw [List.map_append, List.map_cons]
        rcases List.mem_append.mp hb' with hb' | hb'
        · exact List.mem_append_left _ hb'
        · exact List.mem_append_right _ (List.mem_cons_of_mem _ hb')
      · rw [htx', htx]
        simp [texts, hc]
    · -- the node joins the kept ones
      have hl' : e.Linked ((done ++ [(a, c)]) ++ rest) := by simpa using hl
      obtain ⟨e', cs', ⟨n, hn⟩, hl₁, hsub, htx, hbrk⟩ := ih _ hl' hrest
      refine ⟨e', cs', ⟨n + 1, fun k hk => ?_⟩, hl₁, by simpa using hsub, ?_, hbrk⟩
      · obtain ⟨k, rfl⟩ : ∃ m, k = m + 1 := ⟨k - 1, by omega⟩
        have hk' := hn k (by omega)
        simp only [List.map_append, List.map_cons, List.map_nil, List.getLast?_concat] at hk'
        simp only [delHeaderLoop, load_eq hma, ok_bind, if_neg hc]
        exact hk'
      · rw [htx]
        simp [texts, hc]

/-- `agc_event_del_header` takes out every header with the name. -/
theorem Represents.delHeader (h : e.Represents pairs) (name : CStr) :
    ∃ e', Returns (fun fuel => agcEventDelHeader fuel e name) (e', .success) ∧
      e'.Represents (pairs.filter fun p => ¬ name.SameName p.1) := by
  obtain ⟨cs, hl, hc, hb⟩ := h
  obtain ⟨e', cs', hrun, hl', hsub, htx, hbrk⟩ :=
    delHeaderLoop_spec name [] cs hl hl.chain
  refine ⟨e', hrun.bind (Returns.const _), cs', hl', ?_, fun x hx => ?_⟩
  · rw [Carries, htx, hc, List.filter_map]
    simp [texts, Function.comp_def]
  · obtain ⟨y, hy, hyx⟩ := List.mem_map.mp (hsub x.1 (List.mem_map_of_mem hx))
    rw [hbrk, ← hyx]
    exact hb y hy

end Event
