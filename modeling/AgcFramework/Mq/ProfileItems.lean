import AgcFramework.Mq.Profile

/-!
# The connections of a profile

A profile has a list of connections under its key `connections`, and entries of other keys in front
of the list and behind it. The keys `name`, `type` and `parameters` end the block of the connections
wherever they stand, also within an item of the list, and a key `name` within an item writes to the
name of the profile.

## Main definitions

* `Document`: a profile, by its entries and the items of its list
* `fieldsOf`, `connectionOf`: the connection that an item describes, without and with its name
* `Parses`: the connections are those of the items, and the name and the type those of the top level
* `Separate`: the items and the top level do not interfere

## Main results

* `run_fields`, `run_names`: what events without a new connection write
* `run_items_separate`, `run_items_merged`: the connections that the list makes
* `loads_iff`: the streams that are read without a fault, and the profiles that are read right
-/

open Exec Yaml Decimal Trace

namespace MqProfile

/-- An entry of the top level, with the events behind its key. -/
structure Top where
  key : CStr
  body : List Event

/-- The events of an entry of the top level. -/
def Top.events (t : Top) : List Event := .key t.key :: t.body

/-- The key with its scalar, if that is all. -/
def Top.pair (t : Top) : Pair :=
  (t.key, match t.body with
    | [.value v] => some v
    | _ => none)

/-- The events of an item, which begin with its entry. -/
def itemEvents (item : List Pair) : List Event := .entry :: mapping item

/-- A profile: the entries in front of the key `connections`, the items of its list, and the entries
behind it. The key stands nowhere else. -/
structure Document where
  front : List Top
  items : List (List Pair)
  back : List Top
  front_key : Key.connections.word ∉ keysOf (front.flatMap Top.events)
  items_key : Key.connections.word ∉ keysOf (items.flatMap itemEvents)
  back_key : Key.connections.word ∉ keysOf (back.flatMap Top.events)

namespace Document

variable (d : Document)

/-- The events behind the list. -/
def backEvents : List Event := d.back.flatMap Top.events

/-- The events of the profile, without the ends of blocks, which mean nothing to the loop. -/
def events : List Event :=
  d.front.flatMap Top.events ++ .key Key.connections.word :: (d.items.flatMap itemEvents ++
    d.backEvents)

/-- The pairs of the top level. -/
def pairs : List Pair := (d.front ++ d.back).map Top.pair

end Document

/-- The fields that the pairs of an item give to its connection. -/
def fieldsOf (pairs : List Pair) : ConnectionInfo where
  name := none
  strs f := lastValue (Key.connStr f).word pairs
  ints f := ((lastValue (Key.connInt f).word pairs).map agcAtoui).getD 0

/-- The connection that an item describes. -/
def connectionOf (item : List Pair) : ConnectionInfo :=
  { fieldsOf item with name := lastValue Key.name.word item }

/-- One connection for each item, in order and with its own fields, and the name and the type of the
top level. -/
def Parses (tokens : List Token) (d : Document) : Prop :=
  ∃ r, agcmqLoadProfile tokens = .ok r ∧ r.connectionInfo = d.items.map connectionOf ∧
    r.name = lastValue Key.name.word d.pairs ∧ r.type = lastValue Key.type.word d.pairs

/-- A key that ends the block of the connections. -/
def Closes (k : CStr) : Bool := (keyOf k).any fun k => k = .parameters ∨ k = .name ∨ k = .type

/-- No key of the item ends the block of the connections. -/
def Open (item : List Pair) : Prop := ∀ p ∈ item, Closes p.1 = false

instance (item : List Pair) : Decidable (Open item) :=
  inferInstanceAs (Decidable (∀ p ∈ item, Closes p.1 = false))

/-- The items and the top level do not interfere. -/
structure Separate (d : Document) : Prop where
  guarded : Guarded d.events
  items : ∀ item ∈ d.items.dropLast, Open item
  /-- An entry behind the list has a key before it that ends the block. -/
  entries : (∀ item ∈ d.items.getLast?, Open item) →
    Throughout (fun p e => e = .entry → ∃ k ∈ keysOf p, Closes k = true) d.backEvents
  noName : ∀ item ∈ d.items, lastValue Key.name.word item = none
  /-- The scalars behind the list give the last connection nothing else. -/
  last : ∀ item ∈ d.items.getLast?, fieldsOf (item ++ assigned none d.backEvents) = fieldsOf item
  name : lastValue Key.name.word (assigned none d.events) = lastValue Key.name.word d.pairs
  type : lastValue Key.type.word (assigned none d.events) = lastValue Key.type.word d.pairs

/-! ## What the events write -/

section Run

variable {s s' : Load} {evs : List Event} {e : Event} {k : Option CStr} {c : Option ℕ}
  {ps : List Pair} {cs : List ConnectionInfo}

/-- The place that a key selects. -/
def destOf (conn : Option ℕ) : Key → Option Dest
  | .connections | .parameters => none
  | .name => some .profileName
  | .type => some .profileType
  | .connStr f => some (.connStr conn f)
  | .connInt f => some (.connInt conn f)
  | .paraStr f => some (.paraStr f)
  | .paraInt f => some (.paraInt f)

theorem readKey_dest (s : Load) (k : Option Key) : (readKey s k).dest = k.bind (destOf s.conn) := by
  cases k with
  | none => rfl
  | some k =>
    cases k with
    | _ => rfl

/-- The place is that of the key `k`, with the connection `c` there was. -/
def At (s : Load) (k : Option CStr) (c : Option ℕ) : Prop :=
  s.dest = (k.bind keyOf).bind (destOf c)

theorem at_readKey (s : Load) (k : CStr) : At (readKey s (keyOf k)) (some k) s.conn :=
  readKey_dest s (keyOf k)

/-- A field of a connection with a new scalar. -/
def putField (i : ConnectionInfo) (v : CStr) : Option Key → ConnectionInfo
  | some (.connStr f) => { i with strs := Function.update i.strs f (some v) }
  | some (.connInt f) => { i with ints := Function.update i.ints f (agcAtoui v) }
  | some .connections | some .parameters | some .name | some .type | some (.paraStr _)
  | some (.paraInt _) | none => i

theorem lastValue_snoc_key (key : Key) (ps : List Pair) (k v : CStr) :
    lastValue key.word (ps ++ [(k, some v)]) =
      if keyOf k = some key then some v else lastValue key.word ps := by
  rw [lastValue_snoc]
  simp only [keyOf_eq_some_iff, Option.some_or]

theorem fieldsOf_snoc (ps : List Pair) (k v : CStr) :
    fieldsOf (ps ++ [(k, some v)]) = putField (fieldsOf ps) v (keyOf k) := by
  have hstrs : ∀ f, lastValue (Key.connStr f).word (ps ++ [(k, some v)]) =
      (putField (fieldsOf ps) v (keyOf k)).strs f := by
    intro f
    rw [lastValue_snoc_key]
    cases hk : keyOf k with
    | none => rfl
    | some key =>
      cases key with
      | connStr g =>
        -- the key is the one of this field, or of another one
        by_cases hfg : f = g
        · simp [putField, hfg]
        · have hgf : g ≠ f := fun h => hfg h.symm
          simp [putField, hfg, hgf, fieldsOf]
      | _ => simp [putField, fieldsOf]
  have hints : ∀ f, ((lastValue (Key.connInt f).word (ps ++ [(k, some v)])).map agcAtoui).getD 0 =
      (putField (fieldsOf ps) v (keyOf k)).ints f := by
    intro f
    rw [lastValue_snoc_key]
    cases hk : keyOf k with
    | none => rfl
    | some key =>
      cases key with
      | connInt g =>
        by_cases hfg : f = g
        · simp [putField, hfg]
        · have hgf : g ≠ f := fun h => hfg h.symm
          simp [putField, hfg, hgf, fieldsOf]
      | _ => simp [putField, fieldsOf]
  have hname : (putField (fieldsOf ps) v (keyOf k)).name = none := by
    cases keyOf k with
    | none => rfl
    | some key =>
      cases key with
      | _ => rfl
  exact ConnectionInfo.ext hname.symm (funext hstrs) (funext hints)

/-- What a scalar writes to the last connection. -/
theorem readValue_conns {key : Option Key} {i : ConnectionInfo} {v : CStr}
    (hc : s.conns = cs ++ [i]) (h : readValue s v (key.bind (destOf s.conn)) = .ok s') :
    s'.conns = cs ++ [putField i v key] := by
  have hconn : s.conn = some cs.length := by simp [Load.conn, hc]
  rw [hconn] at h
  have hmodify : ∀ g : ConnectionInfo → ConnectionInfo,
      (cs ++ [i]).modify cs.length g = cs ++ [g i] :=
    fun g => List.modifyTailIdx_add (List.modifyHead g) 0 cs [i]
  cases key with
  | none =>
    cases h
    exact hc
  | some key =>
    cases key with
    | connStr f =>
      cases h
      simp only [setConn, hc, hmodify, putField]
    | connInt f =>
      cases h
      simp only [setConn, hc, hmodify, putField]
    | _ =>
      cases h
      exact hc

/-- What a scalar writes to the profile. -/
theorem readValue_names {key : Option Key} {v : CStr}
    (h : readValue s v (key.bind (destOf c)) = .ok s') :
    s'.profileName = (if key = some .name then some v else s.profileName) ∧
      s'.profileType = if key = some .type then some v else s.profileType := by
  cases key with
  | none =>
    cases h
    exact ⟨rfl, rfl⟩
  | some key =>
    cases c with
    | none =>
      cases key with
      | connStr f => cases h
      | connInt f => cases h
      | _ =>
        cases h
        exact ⟨by simp, by simp⟩
    | some c =>
      cases key with
      | _ =>
        cases h
        exact ⟨by simp [setConn], by simp [setConn]⟩

/-! ## Runs -/

theorem length_le_of_step (h : step s e = .ok s') : s.conns.length ≤ s'.conns.length := by
  cases e with
  | key k =>
    cases h
    rw [readKey_conns]
  | value v => exact (kept_readValue h).length.ge
  | entry =>
    simp only [step] at h
    split at h
    · cases h
      simp
    · cases h
      exact Nat.le_refl _
  | stop =>
    cases h
    exact Nat.le_refl _

theorem length_le_of_run (hrun : evs.foldlM step s = .ok s') :
    s.conns.length ≤ s'.conns.length := by
  induction evs generalizing s with
  | nil =>
    cases hrun
    exact Nat.le_refl _
  | cons e evs ih =>
    rw [List.foldlM_cons] at hrun
    obtain ⟨s₁, hstep, hrest⟩ := bind_eq_ok.mp hrun
    exact (length_le_of_step hstep).trans (ih hrest)

theorem conn_congr (h : s'.conns.length = s.conns.length) : s'.conn = s.conn := by
  simp only [Load.conn, ← List.length_eq_zero_iff, h]

/-- Events without a new connection write their scalars to the last one. -/
theorem run_fields (hrun : evs.foldlM step s = .ok s') (hlen : s'.conns.length = s.conns.length)
    (hc : s.conns = cs ++ [fieldsOf ps]) (hat : At s k s.conn) :
    s'.conns = cs ++ [fieldsOf (ps ++ assigned k evs)] := by
  induction evs generalizing s k ps with
  | nil =>
    cases hrun
    rw [hc, assigned, List.append_nil]
  | cons e evs ih =>
    rw [List.foldlM_cons] at hrun
    obtain ⟨s₁, hstep, hrest⟩ := bind_eq_ok.mp hrun
    have hle := length_le_of_step hstep
    have hle' := length_le_of_run hrest
    -- the connections only grow, so this event has made none
    have hsame : s₁.conns.length = s.conns.length := by omega
    have hlen₁ := hlen.trans hsame.symm
    cases e with
    | key k' =>
      cases hstep
      -- the place is taken with the connection that there still is
      refine ih hrest hlen₁ (by rw [readKey_conns, hc]) ?_
      rw [conn_congr hsame]
      exact at_readKey s k'
    | value v =>
      have hdest := (kept_readValue hstep).dest
      rw [step, hat] at hstep
      have hc₁ := readValue_conns hc hstep
      have hat₁ : At s₁ k s₁.conn := by
        rw [At, hdest, conn_congr hsame]
        exact hat
      cases k with
      | none => exact ih hrest hlen₁ hc₁ hat₁
      | some k' =>
        have hfields : putField (fieldsOf ps) v (keyOf k') = fieldsOf (ps ++ [(k', some v)]) :=
          (fieldsOf_snoc ps k' v).symm
        rw [Option.bind_some, hfields] at hc₁
        rw [assigned, List.append_cons ps]
        exact ih hrest hlen₁ hc₁ hat₁
    | entry =>
      simp only [step] at hstep
      split at hstep
      · cases hstep
        simp at hsame
      · cases hstep
        exact ih hrest hlen₁ hc hat
    | stop =>
      cases hstep
      exact ih hrest hlen₁ hc hat

/-- Events write the name and the type of the profile. -/
theorem run_names (hrun : evs.foldlM step s = .ok s') (hat : ∃ c, At s k c)
    (hn : s.profileName = lastValue Key.name.word ps)
    (ht : s.profileType = lastValue Key.type.word ps) :
    s'.profileName = lastValue Key.name.word (ps ++ assigned k evs) ∧
      s'.profileType = lastValue Key.type.word (ps ++ assigned k evs) := by
  induction evs generalizing s k ps with
  | nil =>
    cases hrun
    rw [assigned, List.append_nil]
    exact ⟨hn, ht⟩
  | cons e evs ih =>
    rw [List.foldlM_cons] at hrun
    obtain ⟨s₁, hstep, hrest⟩ := bind_eq_ok.mp hrun
    cases e with
    | key k' =>
      cases hstep
      have hnames : (readKey s (keyOf k')).profileName = s.profileName ∧
          (readKey s (keyOf k')).profileType = s.profileType := by
        cases keyOf k' with
        | none => exact ⟨rfl, rfl⟩
        | some key =>
          cases key with
          | _ => exact ⟨rfl, rfl⟩
      -- a key writes nothing
      exact ih hrest ⟨_, at_readKey s k'⟩ (hnames.1.trans hn) (hnames.2.trans ht)
    | value v =>
      obtain ⟨c, hat⟩ := hat
      have hdest := (kept_readValue hstep).dest
      rw [step, hat] at hstep
      obtain ⟨hn₁, ht₁⟩ := readValue_names hstep
      have hat₁ : ∃ c, At s₁ k c := ⟨c, hdest.trans hat⟩
      cases k with
      | none => exact ih hrest hat₁ (hn₁.trans hn) (ht₁.trans ht)
      | some k' =>
        rw [assigned, List.append_cons]
        refine ih hrest hat₁ ?_ ?_
        · rw [lastValue_snoc_key, hn₁, hn]
          rfl
        · rw [lastValue_snoc_key, ht₁, ht]
          rfl
    | entry =>
      simp only [step] at hstep
      split at hstep
      · cases hstep
        exact ih hrest hat hn ht
      · cases hstep
        exact ih hrest hat hn ht
    | stop =>
      cases hstep
      exact ih hrest hat hn ht

/-! ## The block of the connections -/

theorem setsBlock_eq_closes {k : CStr} (h : k ≠ Key.connections.word) :
    (keyOf k).any Key.setsBlock = Closes k := by
  have hne : keyOf k ≠ some .connections := fun heq => h (keyOf_eq_some_iff.mp heq)
  unfold Closes
  cases hk : keyOf k with
  | none => rfl
  | some key =>
    cases key with
    | connections => exact absurd hk hne
    | _ => rfl

/-- Without the key `connections` the block of the connections only ends. -/
theorem run_block (hno : Key.connections.word ∉ keysOf evs) (hrun : evs.foldlM step s = .ok s') :
    s'.blocktype = .connection ↔
      s.blocktype = .connection ∧ ∀ k ∈ keysOf evs, Closes k = false := by
  induction evs generalizing s with
  | nil =>
    cases hrun
    simp [keysOf]
  | cons e evs ih =>
    rw [List.foldlM_cons] at hrun
    obtain ⟨s₁, hstep, hrest⟩ := bind_eq_ok.mp hrun
    cases e with
    | key k =>
      have hkeys : keysOf (.key k :: evs) = k :: keysOf evs := rfl
      rw [hkeys, List.mem_cons, not_or] at hno
      have hne : k ≠ Key.connections.word := fun h => hno.1 h.symm
      have hkey : keyOf k ≠ some .connections := fun heq => hne (keyOf_eq_some_iff.mp heq)
      cases hstep
      -- without `connections` a key that sets the block ends it
      rw [ih hno.2 hrest, readKey_block, setsBlock_eq_closes hne, hkeys, List.forall_mem_cons]
      cases Closes k with
      | true => simp [hkey]
      | false => simp
    | value v =>
      rw [ih hno hrest, (kept_readValue hstep).blocktype]
      rfl
    | entry =>
      have hblock : s₁.blocktype = s.blocktype := by
        simp only [step] at hstep
        split at hstep
        · cases hstep
          rfl
        · cases hstep
          rfl
      rw [ih hno hrest, hblock]
      rfl
    | stop =>
      cases hstep
      exact ih hno hrest

/-- Outside of the block no connection is made. -/
theorem run_closed (hno : Key.connections.word ∉ keysOf evs) (hb : s.blocktype ≠ .connection)
    (hrun : evs.foldlM step s = .ok s') : s'.conns.length = s.conns.length := by
  induction evs using List.reverseRecOn generalizing s' with
  | nil =>
    cases hrun
    rfl
  | append_singleton evs e ih =>
    rw [List.foldlM_append] at hrun
    obtain ⟨s₁, hrun₁, hlast⟩ := bind_eq_ok.mp hrun
    obtain ⟨s₂, hstep, heq⟩ := bind_eq_ok.mp hlast
    cases heq
    rw [keysOf_append, List.mem_append, not_or] at hno
    have hb₁ : s₁.blocktype ≠ .connection := fun h => hb ((run_block hno.1 hrun₁).mp h).1
    rw [← ih hno.1 hrun₁]
    cases e with
    | key k =>
      cases hstep
      rw [readKey_conns]
    | value v => exact (kept_readValue hstep).length
    | entry =>
      simp only [step, if_neg hb₁] at hstep
      cases hstep
      rfl
    | stop =>
      cases hstep
      rfl

/-- In the block a connection is made at each entry that no key ends the block before. -/
theorem run_entries (hno : Key.connections.word ∉ keysOf evs) (hb : s.blocktype = .connection)
    (hrun : evs.foldlM step s = .ok s') : s'.conns.length = s.conns.length ↔
      Throughout (fun p e => e = .entry → ∃ k ∈ keysOf p, Closes k = true) evs := by
  induction evs generalizing s with
  | nil =>
    cases hrun
    exact iff_of_true rfl throughout_nil
  | cons e evs ih =>
    rw [List.foldlM_cons] at hrun
    obtain ⟨s₁, hstep, hrest⟩ := bind_eq_ok.mp hrun
    rw [throughout_cons]
    cases e with
    | key k =>
      have hkeys : ∀ p, keysOf (.key k :: p) = k :: keysOf p := fun _ => rfl
      rw [hkeys, List.mem_cons, not_or] at hno
      have hne : k ≠ Key.connections.word := fun h => hno.1 h.symm
      have hb₁ := readKey_block s (keyOf k)
      rw [setsBlock_eq_closes hne] at hb₁
      cases hstep
      cases hk : Closes k with
      -- behind this key the block is over, and every later entry has it before it
      | true =>
        have hclosed : (readKey s (keyOf k)).blocktype ≠ .connection := by
          rw [Ne, hb₁, hk, if_pos rfl, keyOf_eq_some_iff]
          exact hne
        have hlen := run_closed hno.2 hclosed hrest
        rw [readKey_conns] at hlen
        refine iff_of_true hlen ⟨fun h => (by cases h), fun p a q _ _ => ⟨k, ?_, hk⟩⟩
        rw [hkeys]
        exact List.mem_cons_self
      | false =>
        have hopen : (readKey s (keyOf k)).blocktype = .connection := by
          rw [hb₁, hk]
          exact hb
        have ih := ih hno.2 hopen hrest
        rw [readKey_conns] at ih
        simp [ih, hkeys, hk]
    | value v =>
      have hkept := kept_readValue hstep
      have ih := ih hno (hkept.blocktype.trans hb) hrest
      rw [hkept.length] at ih
      rw [ih]
      exact (and_iff_right fun h => by cases h).symm
    | entry =>
      simp only [step, if_pos hb] at hstep
      cases hstep
      have hle := length_le_of_run hrest
      rw [List.length_append, List.length_singleton] at hle
      -- the entry makes a connection, which stays
      refine iff_of_false (by omega) fun h => ?_
      obtain ⟨k, hk, -⟩ := h.1 rfl
      cases hk
    | stop =>
      cases hstep
      rw [ih hno hb hrest]
      exact (and_iff_right fun h => by cases h).symm

/-! ## The items -/

/-- Events that begin with a key, or none. -/
def Keyed (evs : List Event) : Prop := evs = [] ∨ ∃ k es, evs = Event.key k :: es

/-- Events that begin with a key write to the last connection what they say themselves. -/
theorem run_keyed (hkeyed : Keyed evs) (hrun : evs.foldlM step s = .ok s')
    (hlen : s'.conns.length = s.conns.length) (hc : s.conns = cs ++ [fieldsOf ps]) :
    s'.conns = cs ++ [fieldsOf (ps ++ assigned none evs)] := by
  rcases hkeyed with rfl | ⟨k, es, rfl⟩
  · cases hrun
    rw [hc, assigned, List.append_nil]
  · rw [List.foldlM_cons] at hrun
    obtain ⟨s₁, hstep, hrest⟩ := bind_eq_ok.mp hrun
    cases hstep
    have hat := at_readKey s k
    have hconn : (readKey s (keyOf k)).conn = s.conn := conn_congr (by rw [readKey_conns])
    have hfields := run_fields hrest (hlen.trans (congrArg List.length (readKey_conns s _)).symm)
      ((readKey_conns s _).trans hc) (hconn ▸ hat)
    exact hfields

theorem keyed_mapping (pairs : List Pair) : Keyed (mapping pairs) := by
  cases pairs with
  | nil => exact .inl rfl
  | cons p pairs => exact .inr ⟨p.1, _, rfl⟩

theorem keyed_tops (tops : List Top) : Keyed (tops.flatMap Top.events) := by
  cases tops with
  | nil => exact .inl rfl
  | cons t tops => exact .inr ⟨t.key, _, rfl⟩

theorem keysOf_mapping (pairs : List Pair) : keysOf (mapping pairs) = pairs.map Prod.fst := by
  induction pairs with
  | nil => rfl
  | cons p pairs ih =>
    obtain ⟨k, v⟩ := p
    rw [mapping_cons, keysOf_append, ih]
    cases v with
    | none => rfl
    | some v => rfl

theorem entry_notMem_mapping (pairs : List Pair) : Event.entry ∉ mapping pairs := by
  intro h
  obtain ⟨p, -, hp⟩ := List.mem_flatMap.mp h
  rcases List.mem_cons.mp hp with h | hp
  · cases h
  · obtain ⟨v, -, h⟩ := Option.map_eq_some_iff.mp (Option.mem_toList.mp hp)
    cases h

theorem open_iff_keysOf (item : List Pair) :
    Open item ↔ ∀ k ∈ keysOf (mapping item), Closes k = false := by
  rw [keysOf_mapping]
  simp [Open]

/-- The fields depend on the last values only. -/
theorem fieldsOf_congr {qs : List Pair} (h : ∀ k, lastValue k ps = lastValue k qs) :
    fieldsOf ps = fieldsOf qs := by
  simp only [fieldsOf, h]

theorem fieldsOf_assigned (item more : List Pair) :
    fieldsOf (assigned none (mapping item) ++ more) = fieldsOf (item ++ more) := by
  refine fieldsOf_congr fun k => ?_
  rw [lastValue_append, lastValue_append, lastValue_assigned_mapping]

/-- The locals behind an entry in the block. -/
def newConn (s : Load) : Load := { s with conns := s.conns ++ [fieldsOf []] }

theorem step_entry (hb : s.blocktype = .connection) : step s .entry = .ok (newConn s) := by
  rw [step, if_pos hb]
  rfl

/-- An item in the block makes a connection with its own fields. -/
theorem run_item {item : List Pair} (hno : Key.connections.word ∉ keysOf (itemEvents item))
    (hb : s.blocktype = .connection) (hrun : (itemEvents item).foldlM step s = .ok s') :
    s'.conns = s.conns ++ [fieldsOf item] ∧ (s'.blocktype = .connection ↔ Open item) := by
  have hno' : Key.connections.word ∉ keysOf (mapping item) := hno
  rw [itemEvents, List.foldlM_cons, step_entry hb, ok_bind] at hrun
  have hb' : (newConn s).blocktype = .connection := hb
  rw [open_iff_keysOf, run_block hno' hrun]
  refine ⟨?_, and_iff_right hb'⟩
  have hlen : s'.conns.length = (newConn s).conns.length := by
    refine (run_entries hno' hb' hrun).mpr fun p e q h he => ?_
    have hmem : Event.entry ∈ mapping item := by
      rw [h, he]
      simp
    exact absurd hmem (entry_notMem_mapping item)
  rw [run_keyed (keyed_mapping item) hrun hlen rfl, List.nil_append,
    ← List.append_nil (assigned none _), fieldsOf_assigned, List.append_nil]

/-- Items of which only the last one may end the block make a connection each. -/
theorem run_items_separate {items : List (List Pair)}
    (hno : Key.connections.word ∉ keysOf (items.flatMap itemEvents))
    (hb : s.blocktype = .connection) (hopen : ∀ item ∈ items.dropLast, Open item)
    (hrun : (items.flatMap itemEvents).foldlM step s = .ok s') :
    s'.conns = s.conns ++ items.map fieldsOf ∧
      (s'.blocktype = .connection ↔ ∀ item ∈ items.getLast?, Open item) := by
  induction items generalizing s with
  | nil =>
    cases hrun
    exact ⟨(List.append_nil _).symm, iff_of_true hb (by simp)⟩
  | cons item items ih =>
    rw [List.flatMap_cons, keysOf_append, List.mem_append, not_or] at hno
    rw [List.flatMap_cons, List.foldlM_append] at hrun
    obtain ⟨s₁, hitem, hrest⟩ := bind_eq_ok.mp hrun
    obtain ⟨hc₁, hb₁⟩ := run_item hno.1 hb hitem
    cases items with
    | nil =>
      cases hrest
      exact ⟨hc₁, by simpa using hb₁⟩
    | cons item' items =>
      -- this item is not the last one, so that it leaves the block open
      rw [List.dropLast_cons_cons, List.forall_mem_cons] at hopen
      obtain ⟨hc, hlast⟩ := ih hno.2 (hb₁.mpr hopen.1) hopen.2 hrest
      rw [hc, hc₁, List.append_assoc, List.getLast?_cons_cons]
      exact ⟨rfl, hlast⟩

/-- Otherwise two of them share a connection, and the block is over behind them. -/
theorem run_items_merged {items : List (List Pair)}
    (hno : Key.connections.word ∉ keysOf (items.flatMap itemEvents))
    (hb : s.blocktype = .connection) (hopen : ¬ ∀ item ∈ items.dropLast, Open item)
    (hrun : (items.flatMap itemEvents).foldlM step s = .ok s') :
    s'.conns.length < s.conns.length + items.length ∧ s'.blocktype ≠ .connection := by
  induction items generalizing s with
  | nil => exact absurd (by simp) hopen
  | cons item items ih =>
    rw [List.flatMap_cons, keysOf_append, List.mem_append, not_or] at hno
    rw [List.flatMap_cons, List.foldlM_append] at hrun
    obtain ⟨s₁, hitem, hrest⟩ := bind_eq_ok.mp hrun
    obtain ⟨hc₁, hb₁⟩ := run_item hno.1 hb hitem
    have hlen₁ : s₁.conns.length = s.conns.length + 1 := by simp [hc₁]
    cases items with
    | nil => exact absurd (by simp) hopen
    | cons item' items =>
      rw [List.dropLast_cons_cons, List.forall_mem_cons, not_and_or] at hopen
      -- the first item that is not open is where the block ends
      by_cases hfirst : Open item
      · obtain ⟨hlt, hend⟩ := ih hno.2 (hb₁.mpr hfirst) (hopen.resolve_left (not_not_intro hfirst))
          hrest
        refine ⟨?_, hend⟩
        rw [List.length_cons]
        omega
      · -- no later entry makes a connection: the items behind this one write to its
        have hclosed : s₁.blocktype ≠ .connection := fun h => hfirst (hb₁.mp h)
        have hlen := run_closed hno.2 hclosed hrest
        refine ⟨?_, fun h => hclosed ((run_block hno.2 hrest).mp h).1⟩
        rw [hlen, hlen₁, List.length_cons, List.length_cons]
        omega

end Run

/-! ## The profile -/

section Whole

variable {d : Document} {tokens : List Token} {s s' s₀ s₁ : Load}

theorem fieldsOf_eq_connectionOf {ps item : List Pair} : fieldsOf ps = connectionOf item ↔
    lastValue Key.name.word item = none ∧ fieldsOf ps = fieldsOf item := by
  simp only [ConnectionInfo.ext_iff, connectionOf]
  constructor
  · rintro ⟨hname, hstrs, hints⟩
    exact ⟨hname.symm, rfl, hstrs, hints⟩
  · rintro ⟨hname, -, hstrs, hints⟩
    exact ⟨hname.symm, hstrs, hints⟩

/-- From the start of the list the connections become those of the items exactly if the items and
what follows are separate. -/
theorem conns_eq_iff (hb : s₀.blocktype = .connection) (h0 : s₀.conns = [])
    (hitems : (d.items.flatMap itemEvents).foldlM step s₀ = .ok s₁)
    (hback : d.backEvents.foldlM step s₁ = .ok s) :
    s.conns = d.items.map connectionOf ↔ (∀ item ∈ d.items.dropLast, Open item) ∧
      ((∀ item ∈ d.items.getLast?, Open item) →
        Throughout (fun p e => e = .entry → ∃ k ∈ keysOf p, Closes k = true) d.backEvents) ∧
      (∀ item ∈ d.items, lastValue Key.name.word item = none) ∧
      ∀ item ∈ d.items.getLast?, fieldsOf (item ++ assigned none d.backEvents) = fieldsOf item := by
  by_cases hsep : ∀ item ∈ d.items.dropLast, Open item
  · obtain ⟨hc, hb₁⟩ := run_items_separate d.items_key hb hsep hitems
    rw [h0, List.nil_append] at hc
    have hlen₁ : s₁.conns.length = d.items.length := by rw [hc, List.length_map]
    rw [and_iff_right hsep]
    by_cases hentries : (∀ item ∈ d.items.getLast?, Open item) →
        Throughout (fun p e => e = .entry → ∃ k ∈ keysOf p, Closes k = true) d.backEvents
    · -- nothing is made behind the list, and only the last connection can be written to
      have hlen : s.conns.length = s₁.conns.length := by
        by_cases hopen : s₁.blocktype = .connection
        · exact (run_entries d.back_key hopen hback).mpr (hentries (hb₁.mp hopen))
        · exact run_closed d.back_key hopen hback
      rw [and_iff_right hentries]
      -- the last item is apart: what is behind the list writes to its connection
      rcases List.eq_nil_or_concat' d.items with hnil | ⟨init, last, hlast⟩
      · rw [hnil] at hlen₁ ⊢
        rw [hlen₁] at hlen
        exact iff_of_true (List.length_eq_zero_iff.mp hlen) ⟨by simp, by simp⟩
      · rw [hlast, List.map_append, List.map_singleton] at hc
        have hfields := run_keyed (keyed_tops d.back) hback hlen hc
        have hinit : init.map fieldsOf = init.map connectionOf ↔
            ∀ item ∈ init, lastValue Key.name.word item = none := by
          rw [List.map_inj_left]
          exact forall₂_congr fun item _ => fieldsOf_eq_connectionOf.trans (and_iff_left rfl)
        have hgetLast : (init ++ [last]).getLast? = some last := List.getLast?_concat
        rw [hfields, hlast, List.map_append, List.map_singleton, hgetLast,
          List.forall_mem_append, ← hinit]
        constructor
        · intro h
          obtain ⟨hi, hl⟩ := List.append_inj' h rfl
          obtain ⟨hname, hsame⟩ := fieldsOf_eq_connectionOf.mp (List.singleton_inj.mp hl)
          refine ⟨⟨hi, by simpa using hname⟩, fun item hitem => ?_⟩
          cases hitem
          exact hsame
        · rintro ⟨⟨hi, hname⟩, hsame⟩
          rw [hi]
          exact congrArg (fun i => init.map connectionOf ++ [i])
            (fieldsOf_eq_connectionOf.mpr ⟨hname last (by simp), hsame last rfl⟩)
    · -- an entry behind the list makes one connection too many
      push Not at hentries
      obtain ⟨hopen, hnot⟩ := hentries
      have hne := mt (run_entries d.back_key (hb₁.mpr hopen) hback).mp hnot
      refine iff_of_false (fun h => hne ?_) fun h => hnot (h.1 hopen)
      rw [h, List.length_map, hlen₁]
  · -- there is a connection too few
    obtain ⟨hlt, hclosed⟩ := run_items_merged d.items_key hb hsep hitems
    refine iff_of_false (fun h => ?_) fun h => hsep h.1
    have hlen := run_closed d.back_key hclosed hback
    rw [h, List.length_map] at hlen
    rw [h0, List.length_nil] at hlt
    omega

/-- The ends of blocks mean nothing to the loop. -/
theorem run_filter (evs : List Event) (s : Load) :
    (evs.filter (· ≠ .stop)).foldlM step s = evs.foldlM step s := by
  induction evs generalizing s with
  | nil => rfl
  | cons e evs ih =>
    cases e with
    | stop => exact ih s
    | _ =>
      rw [List.filter_cons_of_pos (by simp), List.foldlM_cons, List.foldlM_cons]
      exact bind_congr fun s => ih s

/-- The tokens are those of the profile. -/
def Document.IsRead (d : Document) (tokens : List Token) : Prop :=
  (Yaml.events false tokens).filter (· ≠ .stop) = d.events

theorem agcmqLoadProfile_eq (h : d.IsRead tokens) :
    agcmqLoadProfile tokens = d.events.foldlM step start >>= fun s => pure (finish s) := by
  rw [agcmqLoadProfile, scan_eq_foldlM, ← run_filter, h]

/-- The run over a profile comes to the start of the list with no connection. -/
theorem run_document (hrun : d.events.foldlM step start = .ok s) :
    ∃ s₀ s₁, s₀.blocktype = .connection ∧ s₀.conns = [] ∧
      (d.items.flatMap itemEvents).foldlM step s₀ = .ok s₁ ∧
      d.backEvents.foldlM step s₁ = .ok s := by
  rw [Document.events, List.foldlM_append] at hrun
  obtain ⟨sf, hfront, hrest⟩ := bind_eq_ok.mp hrun
  rw [List.foldlM_cons, step, pure_eq_ok, ok_bind, List.foldlM_append, keyOf_word] at hrest
  obtain ⟨s₁, hitems, hback⟩ := bind_eq_ok.mp hrest
  -- the block of the connections has not begun in front of its key
  have hlen := run_closed d.front_key (by decide) hfront
  exact ⟨readKey sf (some .connections), s₁, rfl, List.length_eq_zero_iff.mp hlen, hitems, hback⟩

/-- A profile is read right exactly if its items and its top level do not interfere. -/
theorem parses_iff_separate (h : d.IsRead tokens) : Parses tokens d ↔ Separate d := by
  have hat : ∃ c, At start none c := ⟨none, rfl⟩
  have hn₀ : start.profileName = lastValue Key.name.word [] := rfl
  have ht₀ : start.profileType = lastValue Key.type.word [] := rfl
  rw [Parses, agcmqLoadProfile_eq h]
  constructor
  · rintro ⟨r, hload, hconns, hname, htype⟩
    obtain ⟨s, hrun, hr⟩ := bind_eq_ok.mp hload
    cases hr
    obtain ⟨s₀, s₁, hb, h0, hitems, hback⟩ := run_document hrun
    obtain ⟨hn, ht⟩ := run_names hrun hat hn₀ ht₀
    obtain ⟨hsep, hentries, hnoName, hlast⟩ := (conns_eq_iff hb h0 hitems hback).mp hconns
    exact ⟨(exists_run_iff_guarded _).mp ⟨s, hrun⟩, hsep, hentries, hnoName, hlast,
      hn.symm.trans hname, ht.symm.trans htype⟩
  · rintro ⟨hguard, hsep, hentries, hnoName, hlast, hname, htype⟩
    obtain ⟨s, hrun⟩ := (exists_run_iff_guarded _).mpr hguard
    obtain ⟨s₀, s₁, hb, h0, hitems, hback⟩ := run_document hrun
    obtain ⟨hn, ht⟩ := run_names hrun hat hn₀ ht₀
    rw [hrun]
    exact ⟨finish s, rfl,
      (conns_eq_iff hb h0 hitems hback).mpr ⟨hsep, hentries, hnoName, hlast⟩,
      hn.trans hname, ht.trans htype⟩

end Whole

/-- The streams that are loaded without a fault, and the profiles that are read right. -/
theorem loads_iff (tokens : List Token) (d : Document) :
    (agcmqLoadProfile tokens ≠ .error .fault ↔ Guarded (Yaml.events false tokens)) ∧
    (d.IsRead tokens → (Parses tokens d ↔ Separate d)) :=
  ⟨not_fault_iff_guarded tokens, parses_iff_separate⟩

/-- A profile with two connections, whose items begin with the key `k`. -/
def twoConnections (k : CStr) (h : k ≠ Key.connections.word) : Document where
  front :=
    [⟨Key.name.word, [.value (CStr.ofString "default")]⟩,
      ⟨Key.type.word, [.value (CStr.ofString "producer")]⟩]
  items :=
    [[(k, some (CStr.ofString "east")),
        ((Key.connStr .hostname).word, some (CStr.ofString "10.0.0.1"))],
      [(k, some (CStr.ofString "west")),
        ((Key.connStr .hostname).word, some (CStr.ofString "10.0.0.2"))]]
  back := [⟨Key.parameters.word,
    [.key (Key.paraStr .exName).word, .value (CStr.ofString "TAP.Events")]⟩]
  front_key := by decide
  items_key := by
    have hhost : Key.connections.word ≠ (Key.connStr .hostname).word := by decide
    simp [keysOf, itemEvents, mapping, pairEvents, h.symm, hhost]
  back_key := by decide

/-- The tokens of `twoConnections`. -/
def twoConnectionsTokens (k : CStr) : List Token :=
  [.streamStart, .blockMappingStart,
    .key, .scalar Key.name.word, .value, .scalar (CStr.ofString "default"),
    .key, .scalar Key.type.word, .value, .scalar (CStr.ofString "producer"),
    .key, .scalar Key.connections.word, .value, .blockSequenceStart,
    .blockEntry, .blockMappingStart,
    .key, .scalar k, .value, .scalar (CStr.ofString "east"),
    .key, .scalar (Key.connStr .hostname).word, .value, .scalar (CStr.ofString "10.0.0.1"),
    .blockEnd,
    .blockEntry, .blockMappingStart,
    .key, .scalar k, .value, .scalar (CStr.ofString "west"),
    .key, .scalar (Key.connStr .hostname).word, .value, .scalar (CStr.ofString "10.0.0.2"),
    .blockEnd, .blockEnd,
    .key, .scalar Key.parameters.word, .value, .blockMappingStart,
    .key, .scalar (Key.paraStr .exName).word, .value, .scalar (CStr.ofString "TAP.Events"),
    .blockEnd, .blockEnd, .streamEnd]

/-- A `hostname` at the top level is a fault, and items with a `name` come out as one connection, in
a profile of the last item's name. -/
theorem not_loads_of_name :
    agcmqLoadProfile [.streamStart, .flowMappingStart, .key,
      .scalar (Key.connStr .hostname).word, .value, .scalar (CStr.ofString "10.0.0.1"),
      .flowMappingEnd, .streamEnd] = .error .fault ∧
    (twoConnections Key.name.word (by decide)).IsRead (twoConnectionsTokens Key.name.word) ∧
    (∃ r, agcmqLoadProfile (twoConnectionsTokens Key.name.word) = .ok r ∧
      r.connectionInfo.length = 1 ∧ r.name = some (CStr.ofString "west")) ∧
    ¬ Parses (twoConnectionsTokens Key.name.word) (twoConnections Key.name.word (by decide)) := by
  have hrun : ∃ r, agcmqLoadProfile (twoConnectionsTokens Key.name.word) = .ok r ∧
      r.connectionInfo.length = 1 ∧ r.name = some (CStr.ofString "west") := ⟨_, rfl, rfl, rfl⟩
  refine ⟨rfl, rfl, hrun, ?_⟩
  rintro ⟨r, hload, hconns, -⟩
  obtain ⟨r', hload', hlen, -⟩ := hrun
  cases hload.symm.trans hload'
  rw [hconns] at hlen
  exact absurd hlen (by decide)

/-- A key that the loop does not know does no harm. -/
theorem parses_of_label : Parses (twoConnectionsTokens (CStr.ofString "label"))
    (twoConnections (CStr.ofString "label") (by decide)) :=
  ((loads_iff (twoConnectionsTokens (CStr.ofString "label"))
    (twoConnections (CStr.ofString "label") (by decide))).2 rfl).mpr
    { guarded := (exists_run_iff_guarded _).mp ⟨_, rfl⟩
      items := by decide
      entries := fun _ p e q h he => by
        have hmem :
            Event.entry ∈ (twoConnections (CStr.ofString "label") (by decide)).backEvents := by
          rw [h, he]
          simp
        exact absurd hmem (by decide)
      noName := by decide
      last := by
        intro item hitem
        cases hitem
        refine ConnectionInfo.ext rfl (funext fun f => ?_) (funext fun f => ?_)
        · cases f with
          | _ => rfl
        · cases f with
          | _ => rfl
      name := by decide
      type := by decide }

end MqProfile
