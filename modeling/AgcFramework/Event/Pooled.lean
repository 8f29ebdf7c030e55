import AgcFramework.Event.HeaderRun
import AgcFramework.Event.Payload

/-!
# The uses of a pooled event

An event of a fast type is an `agc_event_t` like any other, and between its alloc and its release
every function for events can be called on it. Its first headers stand in its block, in front of
their names, their values and the body; a header that is added later is a node of its own, linked
behind them. Neither the alloc nor the release clears any of this.

A name, a value or a body of the block is not an allocation, so that its release is a fault. A
checked addition that finds a header of the block and a removal of one come to this, and so does a
body that is set as that of an event on the heap.

## Main definitions

* `FastBodyLayout`: the layout of a fast type with a body
* `PooledEvent`, `pooledEventCreate`: the payload and the record of such an event
* `FastUse`, `FastBodyLayout.runUses`: the calls on it
* `Event.Fronted`: the headers of the block are the first of the chain
* `Event.Added`: the headers behind those of the block

## Main results

* `FastBodyLayout.fronted_runUses`: the headers of the block stay in front in every run
* `Event.serializeHeaders_eq_ok`: the headers are written when their links lead to an end
* `Event.Fronted.serializeHeaders_iff`: the headers of the block are written, and then those behind
-/

open Exec Chain

/-- The layout of a fast type with a body. -/
structure FastBodyLayout extends FastLayout where
  bodylength_pos : 0 < bodylength

/-- An event of a fast type with a body. Its record has the links of its headers, of which those of
the block have the first addresses; the names and the values of these, and the body, are read from
the payload. -/
structure PooledEvent where
  payload : Mem
  event : Event

/-- `fast_event_create`. -/
def pooledEventCreate (l : FastLayout) : PooledEvent where
  payload := fastEventCreate l
  event :=
    { eventId := l.eventId
      sourceId := 0
      headers := if 0 < l.headers.length then some 0 else none
      lastHeader := if 0 < l.headers.length then some (l.headers.length - 1) else none
      body := none
      mem := fun a : ℕ =>
        if a < l.headers.length then
          some ⟨CStr.ofString "", none, if a + 1 < l.headers.length then some (a + 1) else none⟩
        else none
      brk := l.headers.length }

/-! ## The calls -/

/-- The name that an operation compares with those of the headers. -/
def HeaderOp.sought : HeaderOp → Option CStr
  | addHeader _ _ => none
  -- without data the headers are not looked through
  | addHeaderRepeatcheck name data => data.map fun _ => name
  | addHeaderString name data => data.map fun _ => name
  | delHeader name => some name

/-- A call on an event between its alloc and its release. The data of `addBody` is what
`agc_vasprintf` made, or none if there is no format or it failed. -/
inductive FastUse
  | fast (c : FastCall)
  | setId (eventId : ℤ)
  | header (op : HeaderOp)
  | setBody (body : Option CStr)
  | addBody (data : Option CStr)

/-- The event with the names that the headers of the block have. -/
def Event.named (e : Event) (names : List CStr) : Event :=
  { e with mem := fun a => (e.mem a).map fun h => { h with name := names[a]?.getD h.name } }

/-- An operation on the headers. -/
def FastLayout.useHeader (l : FastLayout) (fuel : ℕ) (p : PooledEvent) (op : HeaderOp) :
    Exec Event :=
  match op.sought with
  | none => headerStep fuel p.event op
  | some name => do
    let names ← (List.range l.headers.length).mapM fun i =>
      p.payload.str (l.nameAt i) l.payloadEnd
    -- the value of a header that is found is released, and so is the name of one that is removed
    if ∃ s ∈ names, name.SameName s then .error .fault
    else headerStep fuel (p.event.named names) op

namespace FastBodyLayout

/-- What a call does to the event. -/
def use (l : FastBodyLayout) (fuel : ℕ) (p : PooledEvent) : FastUse → Exec PooledEvent
  | .fast c => do
    let (m, _) ← l.call p.payload c
    pure { p with payload := m }
  | .setId eventId => pure { p with event := agcEventSetId p.event eventId }
  | .header op => do
    let e ← l.useHeader fuel p op
    pure { p with event := e }
  | .setBody none => pure p
  | .addBody none => pure p
  -- the body of the block is released
  | .setBody (some _) => .error .fault
  | .addBody (some _) => .error .fault

/-- The calls of a use, one after the other. -/
def runUses (l : FastBodyLayout) (fuel : ℕ) (p : PooledEvent) (calls : List FastUse) :
    Exec PooledEvent :=
  calls.foldlM (l.use fuel) p

/-- The event after a history of uses, each with its calls between `agc_event_fast_alloc` and
`agc_event_fast_release`. -/
def eventAfter (l : FastBodyLayout) (fuel : ℕ) (uses : List (List FastUse)) : Exec PooledEvent :=
  -- neither the alloc nor the release writes to the event, so that the uses run into each other
  l.runUses fuel (pooledEventCreate l.toFastLayout) uses.flatten

end FastBodyLayout

namespace Event

variable {n : ℕ} {e e' : Event} {a : Addr} {c : Header} {name data : CStr}

/-! ## The headers of the block -/

/-- The headers of the block are the first of the chain, one behind the other, and no header behind
them leads back to them. -/
structure Fronted (n : ℕ) (e : Event) : Prop where
  headers : 0 < n → e.headers = some 0
  last : 0 < n → ∃ a, e.lastHeader = some a ∧ n ≤ a + 1
  front : ∀ i < n, ∃ c, e.mem i = some c ∧ (i + 1 < n → c.next = some (i + 1))
  behind : ∀ a c b, n ≤ a + 1 → e.mem a = some c → c.next = some b → n ≤ b
  brk : n ≤ e.brk

theorem fronted_create (l : FastLayout) :
    (pooledEventCreate l).event.Fronted l.headers.length where
  headers := fun h => if_pos h
  last := fun h => ⟨l.headers.length - 1, if_pos h, by omega⟩
  front := fun i hi => ⟨_, if_pos hi, fun hnext => if_pos hnext⟩
  behind := by
    intro a c b ha hm hb
    simp only [pooledEventCreate] at hm
    split_ifs at hm with hlt hlast
    · omega
    · -- the last header of the block has no next one
      cases hm
      cases hb
  brk := Nat.le_refl _

/-- A write to the last header of the block, or to one behind it, that does not lead into the
block. -/
theorem Fronted.put (h : e.Fronted n) (ha : n ≤ a + 1) (hc : ∀ b, c.next = some b → n ≤ b) :
    (e.put a c).Fronted n := by
  refine ⟨h.headers, h.last, ?_, ?_, h.brk⟩
  · intro i hi
    simp only [Event.put, Function.update_apply]
    split_ifs with hia
    · subst hia
      exact ⟨c, rfl, fun hnext => absurd hnext (Nat.not_lt.mpr ha)⟩
    · exact h.front i hi
  · intro a' c' b ha' hm hb
    simp only [Event.put, Function.update_apply] at hm
    split_ifs at hm with haa
    · cases hm
      exact hc b hb
    · exact h.behind a' c' b ha' hm hb

theorem Fronted.free (h : e.Fronted n) (ha : n ≤ a) : (e.free a).Fronted n := by
  refine ⟨h.headers, h.last, ?_, ?_, h.brk⟩
  · intro i hi
    have hne : i ≠ a := by omega
    simp only [Event.free, Function.update_of_ne hne]
    exact h.front i hi
  · intro a' c' b ha' hm hb
    simp only [Event.free, Function.update_apply] at hm
    split_ifs at hm with haa
    exact h.behind a' c' b ha' hm hb

/-- The chain of an event without headers in its block is not bound to anything. -/
theorem fronted_zero (e : Event) : e.Fronted 0 :=
  ⟨fun h => absurd h (by omega), fun h => absurd h (by omega), fun i hi => absurd hi (by omega),
    fun a c b _ _ _ => Nat.zero_le b, Nat.zero_le _⟩

theorem Fronted.setLast (h : e.Fronted n) (ha : n ≤ a + 1) :
    Fronted n { e with lastHeader := some a } :=
  ⟨h.headers, fun _ => ⟨a, rfl, ha⟩, h.front, h.behind, h.brk⟩

/-- The texts of the headers do not matter. -/
theorem Fronted.map (h : e.Fronted n) (f : Addr → Header → Header)
    (hf : ∀ a c, (f a c).next = c.next) :
    Fronted n { e with mem := fun a => (e.mem a).map (f a) } := by
  refine ⟨h.headers, h.last, ?_, ?_, h.brk⟩
  · intro i hi
    obtain ⟨c, hm, hnext⟩ := h.front i hi
    refine ⟨f i c, ?_, fun hlt => (hf i c).trans (hnext hlt)⟩
    simp only [hm, Option.map_some]
  · intro a c b ha hm hb
    obtain ⟨c', hm', rfl⟩ := Option.map_eq_some_iff.mp hm
    exact h.behind a c' b ha hm' ((hf a c').symm.trans hb)

/-! ## What the operations on headers keep -/

theorem load_eq_ok (h : e.load a = .ok c) : e.mem a = some c := by
  unfold load at h
  split at h
  · rename_i c' hm
    cases h
    exact hm
  · cases h

theorem Fronted.of_setValue (h : e.Fronted n) (ha : n ≤ a) (hset : e.setValue a data = .ok e') :
    e'.Fronted n := by
  obtain ⟨c, hload, hset⟩ := bind_eq_ok.mp hset
  cases hset
  exact h.put (by omega) fun b hb => h.behind a c b (by omega) (load_eq_ok hload) hb

theorem Fronted.of_setNext {next : Option Addr} (h : e.Fronted n) (ha : n ≤ a + 1)
    (hnext : ∀ b, next = some b → n ≤ b) (hset : e.setNext a next = .ok e') : e'.Fronted n := by
  obtain ⟨c, -, hset⟩ := bind_eq_ok.mp hset
  cases hset
  exact h.put ha hnext

theorem Fronted.of_newHeader (h : e.Fronted n) (name : CStr) : (newHeader e name).1.Fronted n := by
  have hput : (e.put e.brk ⟨name, none, none⟩).Fronted n := by
    apply h.put
    · exact h.brk.trans (Nat.le_succ _)
    · rintro b ⟨⟩
  exact ⟨hput.headers, hput.last, hput.front, hput.behind, hput.brk.trans (Nat.le_succ _)⟩

theorem Fronted.of_linkLast (h : e.Fronted n) (ha : n ≤ a) (hlink : linkLast e a = .ok e') :
    e'.Fronted n := by
  rcases Nat.eq_zero_or_pos n with rfl | hn
  · exact fronted_zero e'
  · obtain ⟨last, hlast, hle⟩ := h.last hn
    unfold linkLast at hlink
    rw [hlast] at hlink
    obtain ⟨e₁, hset, hlink⟩ := bind_eq_ok.mp hlink
    cases hlink
    have hnext : ∀ b, some a = some b → n ≤ b := by
      rintro b ⟨⟩
      exact ha
    exact (h.of_setNext hle hnext hset).setLast (by omega)

/-- What is found has the name. -/
theorem findHeader_found {fuel : ℕ} {p : Option Addr}
    (h : findHeader e name fuel p = .ok (some a)) :
    ∃ c, e.mem a = some c ∧ c.name.SameName name := by
  induction fuel generalizing p with
  | zero => cases h
  | succ fuel ih =>
    cases p with
    | none => cases h
    | some hp =>
      obtain ⟨c, hload, h⟩ := bind_eq_ok.mp h
      split at h
      · rename_i hname
        cases h
        exact ⟨c, load_eq_ok hload, hname⟩
      · exact ih h

/-- No header of the block has the name. -/
def Unnamed (n : ℕ) (name : CStr) (e : Event) : Prop :=
  ∀ i < n, ∀ c, e.mem i = some c → ¬ name.SameName c.name

theorem Unnamed.le (h : e.Unnamed n name) (hm : e.mem a = some c) (hc : name.SameName c.name) :
    n ≤ a := by
  by_contra hlt
  exact h a (Nat.lt_of_not_le hlt) c hm hc

theorem Fronted.of_addHeaderNocheck (h : e.Fronted n)
    (hadd : agcEventBaseAddHeaderNocheck e name data = .ok e') : e'.Fronted n := by
  obtain ⟨e₁, hset, hlink⟩ := bind_eq_ok.mp hadd
  exact ((h.of_newHeader name).of_setValue h.brk hset).of_linkLast h.brk hlink

theorem Fronted.of_addHeader {fuel : ℕ} (h : e.Fronted n) (hname : e.Unnamed n name)
    (hadd : agcEventBaseAddHeader fuel e name data = .ok e') : e'.Fronted n := by
  obtain ⟨found, hfound, hadd⟩ := bind_eq_ok.mp hadd
  cases found with
  | none =>
    obtain ⟨e₁, hset, hlink⟩ := bind_eq_ok.mp hadd
    exact ((h.of_newHeader name).of_setValue h.brk hset).of_linkLast h.brk hlink
  | some a =>
    obtain ⟨c, hm, hc⟩ := findHeader_found hfound
    have ha : n ≤ a := hname.le hm hc.symm
    obtain ⟨e₁, hset, hlink⟩ := bind_eq_ok.mp hadd
    exact (h.of_setValue ha hset).of_linkLast ha hlink

theorem Unnamed.of_setNext {next : Option Addr} (h : e.Unnamed n name)
    (hset : e.setNext a next = .ok e') : e'.Unnamed n name := by
  obtain ⟨c, hload, hset⟩ := bind_eq_ok.mp hset
  cases hset
  intro i hi c' hm
  simp only [put, Function.update_apply] at hm
  split_ifs at hm with hia
  · subst hia
    cases hm
    exact h i hi c (load_eq_ok hload)
  · exact h i hi c' hm

theorem Unnamed.free (h : e.Unnamed n name) (a : Addr) : (e.free a).Unnamed n name := by
  intro i hi c hm
  simp only [Event.free, Function.update_apply] at hm
  split_ifs at hm
  exact h i hi c hm

/-- A header behind the block is unlinked. -/
theorem Fronted.of_unlink {l : Addr} (h : e.Fronted n) (hname : e.Unnamed n name) (hl : n ≤ l + 1)
    (ha : n ≤ a) (hm : e.mem a = some c) (hunlink : unlinkHeader e (some l) a c = .ok e') :
    e'.Fronted n ∧ e'.Unnamed n name := by
  obtain ⟨e₁, hset, hunlink⟩ := bind_eq_ok.mp hunlink
  cases hunlink
  have h₁ : e₁.Fronted n :=
    h.of_setNext hl (fun b hb => h.behind a c b (ha.trans (Nat.le_succ a)) hm hb) hset
  have hname₁ : e₁.Unnamed n name := hname.of_setNext hset
  constructor
  · apply Fronted.free _ ha
    split
    · exact h₁.setLast hl
    · exact h₁
  · exact Unnamed.free (e := { e₁ with lastHeader := _ }) hname₁ a

/-- The loop passes the headers of the block before it comes to one with the name. -/
theorem Fronted.of_delHeaderLoop {fuel : ℕ} {lp p : Option Addr} (h : e.Fronted n)
    (hname : e.Unnamed n name)
    (hp : ∀ a, p = some a → a < n ∨ ∃ l, lp = some l ∧ n ≤ l + 1)
    (hdel : delHeaderLoop name fuel e lp p = .ok e') : e'.Fronted n := by
  induction fuel generalizing e lp p with
  | zero => cases hdel
  | succ fuel ih =>
    cases p with
    | none =>
      cases hdel
      exact h
    | some a =>
      obtain ⟨c, hload, hdel⟩ := bind_eq_ok.mp hdel
      have hm : e.mem a = some c := load_eq_ok hload
      split at hdel
      · rename_i hc
        have ha : n ≤ a := hname.le hm hc
        obtain ⟨l, rfl, hl⟩ := (hp a rfl).resolve_left (Nat.not_lt.mpr ha)
        obtain ⟨e₁, hunlink, hdel⟩ := bind_eq_ok.mp hdel
        obtain ⟨h₁, hname₁⟩ := h.of_unlink hname hl ha hm hunlink
        exact ih h₁ hname₁ (fun _ _ => Or.inr ⟨l, rfl, hl⟩) hdel
      · -- the header is kept, and the next one is of the block or stands behind a kept one
        apply ih h hname _ hdel
        intro b hb
        rcases Nat.lt_or_ge (a + 1) n with hlt | hge
        · obtain ⟨c', hm', hnext⟩ := h.front a (Nat.lt_of_succ_lt hlt)
          obtain rfl : c = c' := Option.some.inj (hm.symm.trans hm')
          obtain rfl : a + 1 = b := Option.some.inj ((hnext hlt).symm.trans hb)
          exact Or.inl hlt
        · exact Or.inr ⟨a, rfl, hge⟩

theorem Fronted.of_delHeader {fuel : ℕ} {st : AgcStatus} (h : e.Fronted n)
    (hname : e.Unnamed n name) (hdel : agcEventDelHeader fuel e name = .ok (e', st)) :
    e'.Fronted n := by
  obtain ⟨e₁, hloop, hdel⟩ := bind_eq_ok.mp hdel
  cases hdel
  rcases Nat.eq_zero_or_pos n with rfl | hn
  · exact fronted_zero e'
  · apply h.of_delHeaderLoop hname _ hloop
    intro a ha
    obtain rfl : 0 = a := Option.some.inj ((h.headers hn).symm.trans ha)
    exact Or.inl hn

/-- An operation that does not look for a name of the block keeps its headers in front. -/
theorem Fronted.of_headerStep {fuel : ℕ} {op : HeaderOp} (h : e.Fronted n)
    (hname : ∀ name, op.sought = some name → e.Unnamed n name)
    (hstep : headerStep fuel e op = .ok e') : e'.Fronted n := by
  obtain ⟨⟨e₁, st⟩, hexec, hstep⟩ := bind_eq_ok.mp hstep
  cases hstep
  cases op with
  | addHeader name data =>
    cases data with
    | none =>
      cases hexec
      exact h
    | some data =>
      obtain ⟨e₂, hadd, hexec⟩ := bind_eq_ok.mp hexec
      cases hexec
      exact h.of_addHeaderNocheck hadd
  | addHeaderRepeatcheck name data =>
    cases data with
    | none =>
      cases hexec
      exact h
    | some data =>
      obtain ⟨e₂, hadd, hexec⟩ := bind_eq_ok.mp hexec
      cases hexec
      exact h.of_addHeader (hname name rfl) hadd
  | addHeaderString name data =>
    cases data with
    | none =>
      cases hexec
      exact h
    | some data =>
      obtain ⟨e₂, hadd, hexec⟩ := bind_eq_ok.mp hexec
      cases hexec
      exact h.of_addHeader (hname name rfl) hadd
  | delHeader name => exact h.of_delHeader (hname name rfl) hexec

end Event

namespace Event

variable {n : ℕ} {e : Event} {a : Addr} {cs : List Node} {texts added : List (CStr × CStr)}

/-! ## What is written -/

/-- The first header behind those of the block. -/
def behindBlock (n : ℕ) (e : Event) : Option Addr :=
  if 0 < n then (e.mem (n - 1)).bind Header.next else e.headers

/-- What the headers are written as. -/
def written (cs : List Node) : List (CStr × CStr) :=
  cs.map fun x => (x.2.name, x.2.value.getD (CStr.ofString ""))

theorem written_append (cs ds : List Node) : written (cs ++ ds) = written cs ++ written ds :=
  List.map_append

/-- Behind the headers of the block the chain leads through headers with these texts to its end. -/
def Added (n : ℕ) (e : Event) (added : List (CStr × CStr)) : Prop :=
  ∃ cs, Segment Header.next e.mem (e.behindBlock n) cs none ∧ written cs = added

/-- The headers are written exactly if their links lead to an end. -/
theorem serializeHeaders_eq_ok {fuel : ℕ} {p : Option Addr} {members : List (CStr × Json)} :
    serializeHeaders e fuel p = .ok members ↔
      ∃ cs, Segment Header.next e.mem p cs none ∧ cs.length < fuel ∧
        members = strings (written cs) := by
  induction fuel generalizing p members with
  | zero =>
    constructor
    · rintro ⟨⟩
    · rintro ⟨cs, -, hlt, -⟩
      exact absurd hlt (Nat.not_lt_zero _)
  | succ fuel ih =>
    cases p with
    | none =>
      constructor
      · rintro ⟨⟩
        exact ⟨[], rfl, Nat.succ_pos _, rfl⟩
      · rintro ⟨cs, hcs, -, rfl⟩
        have hnil : Segment Header.next e.mem none [] none := rfl
        obtain rfl := hnil.unique hcs
        rfl
    | some a =>
      constructor
      · intro h
        obtain ⟨c, hload, h⟩ := bind_eq_ok.mp h
        obtain ⟨members', hrest, h⟩ := bind_eq_ok.mp h
        obtain ⟨cs, hcs, hlt, rfl⟩ := ih.mp hrest
        cases h
        exact ⟨(a, c) :: cs, ⟨rfl, load_eq_ok hload, hcs⟩, Nat.succ_lt_succ hlt, rfl⟩
      · rintro ⟨cs, hcs, hlt, rfl⟩
        cases cs with
        | nil => cases hcs
        | cons x cs =>
          obtain ⟨b, c⟩ := x
          obtain ⟨hb, hm, hcs⟩ := hcs
          cases hb
          refine bind_eq_ok.mpr ⟨c, load_eq hm, bind_eq_ok.mpr ⟨strings (written cs), ?_, rfl⟩⟩
          exact ih.mpr ⟨cs, hcs, Nat.lt_of_succ_lt_succ hlt, rfl⟩

/-- From each of its headers the block leads to the first header behind it. -/
theorem Fronted.segment_from (h : e.Fronted n) {k i : ℕ} (hk : i + k = n) :
    ∃ cs, Segment Header.next e.mem (if i < n then some i else e.behindBlock n) cs
      (e.behindBlock n) ∧ cs.map Prod.fst = List.range' i k := by
  induction k generalizing i with
  | zero => exact ⟨[], if_neg (by omega), rfl⟩
  | succ k ih =>
    obtain ⟨cs, hcs, hfst⟩ := ih (i := i + 1) (by omega)
    obtain ⟨c, hm, hnext⟩ := h.front i (by omega)
    refine ⟨(i, c) :: cs, ⟨if_pos (by omega), hm, ?_⟩, ?_⟩
    · rcases Nat.lt_or_ge (i + 1) n with hlt | hge
      · rw [if_pos hlt] at hcs
        rw [hnext hlt]
        exact hcs
      · -- the last header of the block
        obtain rfl : n = i + 1 := by omega
        rw [if_neg (by omega)] at hcs
        have hbehind : e.behindBlock (i + 1) = c.next := by
          rw [behindBlock, if_pos (Nat.succ_pos i), Nat.add_sub_cancel, hm, Option.bind_some]
        rw [← hbehind]
        exact hcs
    · rw [List.map_cons, hfst, List.range'_succ]

theorem Fronted.segment (h : e.Fronted n) :
    ∃ cs, Segment Header.next e.mem e.headers cs (e.behindBlock n) ∧
      cs.map Prod.fst = List.range' 0 n := by
  obtain ⟨cs, hcs, hfst⟩ := h.segment_from (Nat.zero_add n)
  refine ⟨cs, ?_, hfst⟩
  split at hcs
  · rename_i hn
    rw [h.headers hn]
    exact hcs
  · rename_i hn
    have hbehind : e.behindBlock n = e.headers := if_neg hn
    rw [← hbehind]
    exact hcs

/-- The headers of the block are written as the texts that they have. -/
theorem Fronted.exists_block (h : e.Fronted n) (hlen : texts.length = n)
    (htexts : ∀ i c, e.mem i = some c → ∀ t, texts[i]? = some t →
      (c.name, c.value.getD (CStr.ofString "")) = t) :
    ∃ cs, Segment Header.next e.mem e.headers cs (e.behindBlock n) ∧ written cs = texts := by
  obtain ⟨cs, hcs, hfst⟩ := h.segment
  have hcslen : cs.length = n := by
    have hlength := congrArg List.length hfst
    rwa [List.length_map, List.length_range'] at hlength
  refine ⟨cs, hcs, ?_⟩
  apply List.ext_getElem
  · rw [written, List.length_map, hcslen, hlen]
  · intro i hi hi'
    have hix : i < cs.length := by rwa [written, List.length_map] at hi
    have hfsti : cs[i].1 = i := by
      have hget := congrArg (fun as => as[i]?) hfst
      simp only [List.getElem?_map, List.getElem?_eq_getElem hix, Option.map_some] at hget
      rw [List.getElem?_eq_getElem (by rw [List.length_range']; omega)] at hget
      simpa using Option.some.inj hget
    have hm := hcs.get (List.getElem_mem hix)
    rw [hfsti] at hm
    simpa [written] using htexts i _ hm _ (List.getElem?_eq_getElem hi')

/-- The headers of the block are written, and then those behind them. -/
theorem Fronted.serializeHeaders_iff (h : e.Fronted n) (hlen : texts.length = n)
    (htexts : ∀ i c, e.mem i = some c → ∀ t, texts[i]? = some t →
      (c.name, c.value.getD (CStr.ofString "")) = t) {members : List (CStr × Json)} :
    (∃ fuel, serializeHeaders e fuel e.headers = .ok members) ↔
      ∃ added, e.Added n added ∧ members = strings (texts ++ added) := by
  obtain ⟨cs, hcs, rfl⟩ := h.exists_block hlen htexts
  constructor
  · rintro ⟨fuel, hfuel⟩
    obtain ⟨ds, hds, -, rfl⟩ := serializeHeaders_eq_ok.mp hfuel
    obtain ⟨es, rfl, hes⟩ := hcs.exists_append hds
    exact ⟨written es, ⟨es, hes, rfl⟩, by rw [written_append]⟩
  · rintro ⟨added, ⟨ds, hds, rfl⟩, rfl⟩
    refine ⟨(cs ++ ds).length + 1,
      serializeHeaders_eq_ok.mpr ⟨cs ++ ds, ?_, Nat.lt_succ_self _, ?_⟩⟩
    · exact segment_append.mpr ⟨_, hcs, hds⟩
    · rw [written_append]

/-- More fuel changes nothing once the headers are written. -/
theorem serializeHeaders_mono {fuel k : ℕ} {p : Option Addr} {members : List (CStr × Json)}
    (h : serializeHeaders e fuel p = .ok members) (hk : fuel ≤ k) :
    serializeHeaders e k p = .ok members := by
  obtain ⟨cs, hcs, hlt, rfl⟩ := serializeHeaders_eq_ok.mp h
  exact serializeHeaders_eq_ok.mpr ⟨cs, hcs, hlt.trans_le hk, rfl⟩

/-- The headers behind those of the block stand behind it. -/
theorem Fronted.behind_of_segment (h : e.Fronted n) {p : Option Addr}
    (hp : ∀ a, p = some a → n ≤ a) (hcs : Segment Header.next e.mem p cs none) :
    ∀ x ∈ cs, n ≤ x.1 := by
  induction cs generalizing p with
  | nil => exact fun x hx => absurd hx List.not_mem_nil
  | cons y cs ih =>
    obtain ⟨a, c⟩ := y
    obtain ⟨rfl, hm, hcs⟩ := hcs
    have ha : n ≤ a := hp a rfl
    intro x hx
    rcases List.mem_cons.mp hx with rfl | hx
    · exact ha
    · exact ih (fun b hb => h.behind a c b (ha.trans (Nat.le_succ a)) hm hb) hcs x hx

/-- What stands behind the block depends on the headers there only. -/
theorem Fronted.added_congr {e' : Event} (h : e.Fronted n)
    (hbehind : e'.behindBlock n = e.behindBlock n) (hmem : ∀ a, n ≤ a → e'.mem a = e.mem a)
    (hadded : e.Added n added) : e'.Added n added := by
  obtain ⟨cs, hcs, hwritten⟩ := hadded
  have hfirst : ∀ a, e.behindBlock n = some a → n ≤ a := by
    intro a ha
    rcases Nat.eq_zero_or_pos n with rfl | hn
    · exact Nat.zero_le a
    · rw [behindBlock, if_pos hn] at ha
      obtain ⟨c, hm, hc⟩ := Option.bind_eq_some_iff.mp ha
      exact h.behind _ c a (by omega) hm hc
  refine ⟨cs, ?_, hwritten⟩
  rw [hbehind]
  exact hcs.congr fun x hx => hmem x.1 (h.behind_of_segment hfirst hcs x hx)

end Event

namespace FastBodyLayout

variable {l : FastBodyLayout} {fuel : ℕ} {p q : PooledEvent}

theorem fronted_useHeader {op : HeaderOp} {e : Event} (h : p.event.Fronted l.headers.length)
    (hop : l.useHeader fuel p op = .ok e) : e.Fronted l.headers.length := by
  unfold FastLayout.useHeader at hop
  split at hop
  · rename_i hsought
    apply h.of_headerStep _ hop
    intro name hname
    rw [hsought] at hname
    cases hname
  · rename_i name hsought
    obtain ⟨names, hnames, hop⟩ := bind_eq_ok.mp hop
    split at hop
    · cases hop
    · rename_i hnone
      have hlen : names.length = l.headers.length := by
        rw [length_of_mapM hnames, List.length_range]
      have hnamed := h.map (fun a c => { c with name := names[a]?.getD c.name }) fun a c => rfl
      apply hnamed.of_headerStep _ hop
      intro name' hname' i hi c hm hc
      obtain rfl : name = name' := Option.some.inj (hsought.symm.trans hname')
      obtain ⟨c', -, rfl⟩ := Option.map_eq_some_iff.mp hm
      -- the name of a header of the block is one of those that were compared
      rw [List.getElem?_eq_getElem (hlen.symm ▸ hi), Option.getD_some] at hc
      exact hnone ⟨_, List.getElem_mem _, hc⟩

theorem fronted_use {c : FastUse} (h : p.event.Fronted l.headers.length)
    (hc : l.use fuel p c = .ok q) : q.event.Fronted l.headers.length := by
  cases c with
  | fast c =>
    obtain ⟨⟨m, st⟩, -, hc⟩ := bind_eq_ok.mp hc
    cases hc
    exact h
  | setId eventId =>
    cases hc
    exact ⟨h.headers, h.last, h.front, h.behind, h.brk⟩
  | header op =>
    obtain ⟨e, he, hc⟩ := bind_eq_ok.mp hc
    cases hc
    exact fronted_useHeader h he
  | setBody body =>
    cases body with
    | none =>
      cases hc
      exact h
    | some body => cases hc
  | addBody data =>
    cases data with
    | none =>
      cases hc
      exact h
    | some data => cases hc

/-- The headers of the block stay in front in every run of calls. -/
theorem fronted_runUses {calls : List FastUse} (h : p.event.Fronted l.headers.length)
    (hrun : l.runUses fuel p calls = .ok q) : q.event.Fronted l.headers.length := by
  induction calls generalizing p with
  | nil =>
    cases hrun
    exact h
  | cons c cs ih =>
    rw [runUses, List.foldlM_cons] at hrun
    obtain ⟨r, hr, hrun⟩ := bind_eq_ok.mp hrun
    exact ih (fronted_use h hr) hrun

end FastBodyLayout
