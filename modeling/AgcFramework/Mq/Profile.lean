import AgcFramework.Lib.Decimal
import AgcFramework.Lib.Yaml

/-!
# The profile of a message queue

`agcmq_load_profile` reads the tokens of a profile in one flat loop. A key selects where the next
scalar goes: to the name or the type of the profile, to a field of the connection that was made
last, or to a parameter. The keys `connections`, `parameters`, `name` and `type` also set the block,
at whatever level they stand, and an entry in the block of the connections makes a new connection.

The place of a field is computed when the key is read. With no connection made, it is a place behind
the null pointer, and the write of the scalar is a fault.

## Main definitions

* `Key`, `keyOf`: the keys of a profile, in the order of the comparisons
* `step`: what the loop does at an event
* `agcmqLoadProfile`: `agcmq_load_profile` of `rabbitmq_utils.c`
* `Guarded`: each scalar for a field of a connection has a connection to go to

## Main results

* `Follows.step`: what the loop keeps of the events so far
* `not_fault_iff_guarded`: the streams whose scalars all have a place to go to
-/

open Exec Yaml Decimal Trace

namespace MqProfile

/-- The texts of `agcmq_connection_info_t` that have a key of their own. -/
inductive ConnStr
  | hostname
  | virtualhost
  | username
  | password
  deriving DecidableEq

/-- The numbers of `agcmq_connection_info_t`. -/
inductive ConnInt
  | port
  | heartbeat
  deriving DecidableEq

/-- The texts of `agcmq_conn_parameter_t`. -/
inductive ParaStr
  | exName
  | exType
  | queuename
  | eventFilter
  | bindKey
  deriving DecidableEq

/-- The numbers of `agcmq_conn_parameter_t`. -/
inductive ParaInt
  | circuitBreakerMs
  | reconnectIntervalMs
  | queueSize
  | deliveryMode
  | deliveryTimestamp
  deriving DecidableEq

/-- `agcmq_connection_info_t`, without its link. -/
@[ext] structure ConnectionInfo where
  name : Option CStr
  strs : ConnStr → Option CStr
  ints : ConnInt → ℕ

/-- A connection as it is allocated. -/
def ConnectionInfo.zero : ConnectionInfo := ⟨none, fun _ => none, fun _ => 0⟩

/-- `agcmq_conn_parameter_t`. -/
structure Parameter where
  strs : ParaStr → Option CStr
  ints : ParaInt → ℕ

/-- The keys of a profile. -/
inductive Key
  | connections
  | parameters
  | name
  | type
  | connStr (f : ConnStr)
  | connInt (f : ConnInt)
  | paraStr (f : ParaStr)
  | paraInt (f : ParaInt)
  deriving DecidableEq

/-- The texts that the keys are compared with. -/
def Key.text : Key → String
  | connections => "connections"
  | parameters => "parameters"
  | name => "name"
  | type => "type"
  | connStr .hostname => "hostname"
  | connStr .virtualhost => "virtualhost"
  | connStr .username => "username"
  | connStr .password => "password"
  | connInt .port => "port"
  | connInt .heartbeat => "heartbeat"
  | paraStr .exName => "exname"
  | paraStr .exType => "extype"
  | paraStr .queuename => "queuename"
  | paraInt .circuitBreakerMs => "circuit_breaker_ms"
  | paraInt .reconnectIntervalMs => "reconnect_interval_ms"
  | paraInt .queueSize => "queue_size"
  | paraStr .eventFilter => "event_filter"
  | paraStr .bindKey => "binding_key"
  | paraInt .deliveryMode => "delivery_mode"
  | paraInt .deliveryTimestamp => "delivery_timestamp"

/-- The key as a scalar. -/
def Key.word (k : Key) : CStr := CStr.ofString k.text

/-- The keys in the order of the comparisons. -/
def keys : List Key :=
  [.connections, .parameters, .name, .type, .connStr .hostname, .connStr .virtualhost,
    .connStr .username, .connStr .password, .connInt .port, .connInt .heartbeat,
    .paraStr .exName, .paraStr .exType, .paraStr .queuename, .paraInt .circuitBreakerMs,
    .paraInt .reconnectIntervalMs, .paraInt .queueSize, .paraStr .eventFilter,
    .paraStr .bindKey, .paraInt .deliveryMode, .paraInt .deliveryTimestamp]

/-- The key that a scalar is found to be. -/
def keyOf (s : CStr) : Option Key := keys.find? fun k => k.word = s

/-- `blocktype`. -/
inductive Block
  | connection
  | parameter
  | unkown
  deriving DecidableEq

/-- Where `strvalue` or `intvalue` points to, as `keytype` has it. The connection is the one of when
the key was read, and `none` for the null pointer. -/
inductive Dest
  | profileName
  | profileType
  | connStr (conn : Option ℕ) (f : ConnStr)
  | connInt (conn : Option ℕ) (f : ConnInt)
  | paraStr (f : ParaStr)
  | paraInt (f : ParaInt)
  deriving DecidableEq

/-- The locals of `agcmq_load_profile`. The connections are linked in the order of the list, and
`conn` is the last one; `dest` is `none` for `KEY_UNKOWN`. -/
structure Load where
  blocktype : Block
  dest : Option Dest
  conns : List ConnectionInfo
  para : Parameter
  profileName : Option CStr
  profileType : Option CStr

namespace Load

/-- `conn`: none, or the last connection. -/
def conn (s : Load) : Option ℕ := if s.conns = [] then none else some (s.conns.length - 1)

end Load

/-- `agc_atoui`. -/
def agcAtoui (s : CStr) : ℕ := if atol s.bytes < 0 then 0 else (atol s.bytes).toNat % 2 ^ 32

/-- What a key does. -/
def readKey (s : Load) : Option Key → Load
  | some .connections => { s with blocktype := .connection, dest := none }
  | some .parameters => { s with blocktype := .parameter, dest := none }
  | some .name => { s with blocktype := .unkown, dest := some .profileName }
  | some .type => { s with blocktype := .unkown, dest := some .profileType }
  | some (.connStr f) => { s with dest := some (.connStr s.conn f) }
  | some (.connInt f) => { s with dest := some (.connInt s.conn f) }
  | some (.paraStr f) => { s with dest := some (.paraStr f) }
  | some (.paraInt f) => { s with dest := some (.paraInt f) }
  -- an unknown key leaves the block as it is
  | none => { s with dest := none }

/-- A write to the connection `c`. -/
def setConn (s : Load) (c : ℕ) (g : ConnectionInfo → ConnectionInfo) : Load :=
  { s with conns := s.conns.modify c g }

/-- What the scalar of a key does. -/
def readValue (s : Load) (v : CStr) : Option Dest → Exec Load
  | none => pure s
  | some .profileName => pure { s with profileName := some v }
  | some .profileType => pure { s with profileType := some v }
  | some (.connStr none _) => .error .fault
  | some (.connInt none _) => .error .fault
  | some (.connStr (some c) f) =>
    pure (setConn s c fun i => { i with strs := Function.update i.strs f (some v) })
  | some (.connInt (some c) f) =>
    pure (setConn s c fun i => { i with ints := Function.update i.ints f (agcAtoui v) })
  | some (.paraStr f) =>
    pure { s with para := { s.para with strs := Function.update s.para.strs f (some v) } }
  | some (.paraInt f) =>
    pure { s with para := { s.para with ints := Function.update s.para.ints f (agcAtoui v) } }

/-- What the loop does at an event. -/
def step (s : Load) : Event → Exec Load
  | .key k => pure (readKey s (keyOf k))
  | .value v => readValue s v s.dest
  | .entry =>
    if s.blocktype = .connection then pure { s with conns := s.conns ++ [.zero] } else pure s
  | .stop => pure s

/-- The locals at the start of the loop. -/
def start : Load where
  blocktype := .unkown
  dest := none
  conns := []
  para :=
    { strs := fun _ => none
      ints := Function.update (fun _ => 0) .deliveryTimestamp 1 }
  profileName := none
  profileType := none

/-- What `agcmq_load_profile` returns through its pointers. -/
structure Profile where
  name : Option CStr
  type : Option CStr
  connectionInfo : List ConnectionInfo
  parameter : Parameter

/-- The end of the function, which sets a default. -/
def finish (s : Load) : Profile :=
  let ints :=
    if s.para.ints .reconnectIntervalMs = 0 then
      Function.update s.para.ints .reconnectIntervalMs 1000
    else s.para.ints
  ⟨s.profileName, s.profileType, s.conns, { s.para with ints := ints }⟩

/-- `agcmq_load_profile`, for the tokens of the file. -/
def agcmqLoadProfile (tokens : List Token) : Exec Profile := do
  let s ← scan step false tokens start
  pure (finish s)

/-! ## Places to write to -/

/-- The keys that set the block. -/
def Key.setsBlock : Key → Bool
  | connections | parameters | name | type => true
  | connStr _ | connInt _ | paraStr _ | paraInt _ => false

/-- The keys of the fields of a connection. -/
def Key.ofConnection : Key → Bool
  | connStr _ | connInt _ => true
  | connections | parameters | name | type | paraStr _ | paraInt _ => false

/-- The last key that sets the block is `connections`. -/
def InConnections (evs : List Event) : Prop :=
  lastKey (fun k => (keyOf k).any Key.setsBlock) evs = some Key.connections.word

/-- A connection is made by the events. -/
def HasConnection (evs : List Event) : Prop := EntryAt InConnections evs

/-- The last key is a field of a connection, and it was read before a connection was made. -/
def Unset (evs : List Event) : Prop :=
  ∃ p k q, evs = p ++ Event.key k :: q ∧ keysOf q = [] ∧ (keyOf k).any Key.ofConnection = true ∧
    ¬ HasConnection p

/-- No scalar stands behind such a key. -/
def Guarded (evs : List Event) : Prop :=
  Throughout (fun p e => ∀ v, e = .value v → ¬ Unset p) evs

theorem mem_keys (k : Key) : k ∈ keys := by
  cases k with
  | connStr f =>
    cases f with
    | _ => decide
  | connInt f =>
    cases f with
    | _ => decide
  | paraStr f =>
    cases f with
    | _ => decide
  | paraInt f =>
    cases f with
    | _ => decide
  | _ => decide

/-- No two keys have the same text. -/
theorem keyOf_eq_some_iff {s : CStr} {k : Key} : keyOf s = some k ↔ s = k.word := by
  constructor
  · intro h
    have hword := List.find?_some h
    simpa using (of_decide_eq_true hword).symm
  · rintro rfl
    -- no earlier comparison holds for the text of a later key
    have hall : ∀ k ∈ keys, keyOf k.word = some k := by decide
    exact hall k (mem_keys k)

@[simp] theorem keyOf_word (k : Key) : keyOf k.word = some k := keyOf_eq_some_iff.mpr rfl

/-! ## The loop and the events so far -/

section Follow

variable {s s' : Load} {evs : List Event} {e : Event}

theorem inConnections_snoc (evs : List Event) (e : Event) : InConnections (evs ++ [e]) ↔
    match e with
    | .key k =>
      if (keyOf k).any Key.setsBlock then keyOf k = some .connections else InConnections evs
    | .value _ | .entry | .stop => InConnections evs := by
  rw [InConnections, lastKey_snoc]
  cases e with
  | key k =>
    by_cases hk : (keyOf k).any Key.setsBlock = true
    · simp only [hk, if_true, keyOf_eq_some_iff, Option.some_inj]
    · simp only [hk, if_false, Bool.false_eq_true]
      rfl
  | _ => rfl

theorem hasConnection_snoc (evs : List Event) (e : Event) :
    HasConnection (evs ++ [e]) ↔ HasConnection evs ∨ e = .entry ∧ InConnections evs :=
  entryAt_snoc evs e

theorem unset_snoc_of_not_key (evs : List Event) (he : keysOf [e] = []) :
    Unset (evs ++ [e]) ↔ Unset evs := by
  constructor
  · -- the key is not the last event
    rintro ⟨p, k, q, h, hq, hk⟩
    rcases snoc_eq_append_cons h with ⟨-, rfl, -⟩ | ⟨q', rfl, rfl⟩
    · cases he
    · rw [keysOf_append] at hq
      exact ⟨p, k, q', rfl, (List.append_eq_nil_iff.mp hq).1, hk⟩
  · rintro ⟨p, k, q, rfl, hq, hk⟩
    refine ⟨p, k, q ++ [e], by simp, ?_, hk⟩
    rw [keysOf_append, hq, he]
    rfl

theorem unset_snoc_key (evs : List Event) (k : CStr) : Unset (evs ++ [.key k]) ↔
    (keyOf k).any Key.ofConnection = true ∧ ¬ HasConnection evs := by
  constructor
  · rintro ⟨p, k', q, h, hq, hk⟩
    rcases snoc_eq_append_cons h with ⟨rfl, heq, -⟩ | ⟨q', rfl, -⟩
    · cases heq
      exact hk
    · -- an earlier key is not the last one any more
      rw [keysOf_append] at hq
      cases (List.append_eq_nil_iff.mp hq).2
  · intro hk
    exact ⟨evs, k, [], rfl, rfl, hk⟩

/-- The place of a field behind the null pointer. -/
def Dest.isNull : Dest → Bool
  | connStr none _ | connInt none _ => true
  | connStr (some _) _ | connInt (some _) _ | profileName | profileType | paraStr _ | paraInt _ =>
    false

/-- What the loop has kept of the events so far. -/
structure Follows (s : Load) (evs : List Event) : Prop where
  block : s.blocktype = .connection ↔ InConnections evs
  conns : s.conns ≠ [] ↔ HasConnection evs
  dest : s.dest.any Dest.isNull = true ↔ Unset evs

theorem follows_start : Follows start [] where
  block := by simp [start, InConnections, lastKey, keysOf]
  conns := by simp [start, HasConnection]
  dest := by simp [start, Unset]

/-- A scalar is a fault where its place is behind the null pointer. -/
theorem exists_readValue_iff (s : Load) (v : CStr) (d : Option Dest) :
    (∃ s', readValue s v d = .ok s') ↔ ¬ d.any Dest.isNull = true := by
  cases d with
  | none => simp [readValue]
  | some d =>
    cases d with
    | connStr c f =>
      cases c with
      | none => simp [readValue, Dest.isNull]
      | some c => simp [readValue, Dest.isNull]
    | connInt c f =>
      cases c with
      | none => simp [readValue, Dest.isNull]
      | some c => simp [readValue, Dest.isNull]
    | _ => simp [readValue, Dest.isNull]

theorem readValue_error {v : CStr} {d : Option Dest} {a : Abort}
    (h : readValue s v d = .error a) : a = .fault := by
  cases d with
  | none => cases h
  | some d =>
    cases d with
    | connStr c f =>
      cases c with
      | none =>
        cases h
        rfl
      | some c => cases h
    | connInt c f =>
      cases c with
      | none =>
        cases h
        rfl
      | some c => cases h
    | _ => cases h

/-- The step is a fault only at a scalar. -/
theorem exists_step_iff : (∃ s', step s e = .ok s') ↔
    ∀ v, e = .value v → ¬ s.dest.any Dest.isNull = true := by
  cases e with
  | key k => simp [step]
  | value v =>
    rw [step, exists_readValue_iff]
    exact ⟨fun h _ _ => h, fun h => h v rfl⟩
  | entry =>
    simp only [step]
    split
    · simp
    · simp
  | stop => simp [step]

/-- What a scalar leaves as it is. -/
structure Kept (s s' : Load) : Prop where
  blocktype : s'.blocktype = s.blocktype
  dest : s'.dest = s.dest
  length : s'.conns.length = s.conns.length

theorem kept_readValue {v : CStr} {d : Option Dest} (h : readValue s v d = .ok s') :
    Kept s s' := by
  cases d with
  | none =>
    cases h
    exact ⟨rfl, rfl, rfl⟩
  | some d =>
    cases d with
    | connStr c f =>
      cases c with
      | none => cases h
      | some c =>
        cases h
        exact ⟨rfl, rfl, List.length_modify _ _ _⟩
    | connInt c f =>
      cases c with
      | none => cases h
      | some c =>
        cases h
        exact ⟨rfl, rfl, List.length_modify _ _ _⟩
    | _ =>
      cases h
      exact ⟨rfl, rfl, rfl⟩

theorem conn_eq_none_iff : s.conn = none ↔ s.conns = [] := by
  unfold Load.conn
  split
  · simp [*]
  · simp [*]

theorem readKey_conns (s : Load) (k : Option Key) : (readKey s k).conns = s.conns := by
  cases k with
  | none => rfl
  | some k =>
    cases k with
    | _ => rfl

theorem readKey_block (s : Load) (k : Option Key) : (readKey s k).blocktype = .connection ↔
    if k.any Key.setsBlock then k = some .connections else s.blocktype = .connection := by
  cases k with
  | none => simp [readKey]
  | some k =>
    cases k with
    | _ => simp [readKey, Key.setsBlock]

theorem readKey_null (s : Load) (k : Option Key) : (readKey s k).dest.any Dest.isNull = true ↔
    k.any Key.ofConnection = true ∧ s.conns = [] := by
  rw [← conn_eq_none_iff]
  cases k with
  | none => simp [readKey]
  | some k =>
    cases k with
    | connStr f =>
      cases hc : s.conn with
      | none => simp [readKey, Key.ofConnection, hc, Dest.isNull]
      | some c => simp [readKey, hc, Dest.isNull]
    | connInt f =>
      cases hc : s.conn with
      | none => simp [readKey, Key.ofConnection, hc, Dest.isNull]
      | some c => simp [readKey, hc, Dest.isNull]
    | _ => simp [readKey, Key.ofConnection, Dest.isNull]

theorem Follows.step (h : Follows s evs) (hstep : step s e = .ok s') : Follows s' (evs ++ [e]) := by
  have hconns : s.conns = [] ↔ ¬ HasConnection evs := by
    rw [← h.conns]
    exact not_not.symm
  cases e with
  | key k =>
    cases hstep
    refine ⟨?_, ?_, ?_⟩
    · rw [inConnections_snoc, readKey_block, h.block]
    · rw [hasConnection_snoc, readKey_conns, h.conns]
      simp
    · rw [unset_snoc_key, readKey_null, hconns]
  | value v =>
    obtain ⟨hblock, hdest, hlen⟩ := kept_readValue hstep
    refine ⟨?_, ?_, ?_⟩
    · rw [inConnections_snoc, hblock]
      exact h.block
    · rw [hasConnection_snoc, ← List.length_pos_iff, hlen, List.length_pos_iff, h.conns]
      simp
    · rw [unset_snoc_of_not_key evs rfl, hdest]
      exact h.dest
  | entry =>
    simp only [MqProfile.step] at hstep
    -- an entry makes a connection in the block of the connections only
    by_cases hb : s.blocktype = .connection
    · rw [if_pos hb] at hstep
      cases hstep
      refine ⟨?_, ?_, ?_⟩
      · rw [inConnections_snoc]
        exact h.block
      · rw [hasConnection_snoc]
        exact iff_of_true (by simp) (.inr ⟨rfl, h.block.mp hb⟩)
      · rw [unset_snoc_of_not_key evs rfl]
        exact h.dest
    · rw [if_neg hb] at hstep
      cases hstep
      refine ⟨?_, ?_, ?_⟩
      · rw [inConnections_snoc]
        exact h.block
      · rw [hasConnection_snoc, h.conns, ← h.block]
        simp [hb]
      · rw [unset_snoc_of_not_key evs rfl]
        exact h.dest
  | stop =>
    cases hstep
    refine ⟨?_, ?_, ?_⟩
    · rw [inConnections_snoc]
      exact h.block
    · rw [hasConnection_snoc, h.conns]
      simp
    · rw [unset_snoc_of_not_key evs rfl]
      exact h.dest

/-- The loop comes to its end exactly if each scalar has a place to go to. -/
theorem exists_run_iff_guarded (evs : List Event) :
    (∃ s, evs.foldlM MqProfile.step start = .ok s) ↔ Guarded evs := by
  -- as long as no scalar was a fault the locals follow the events
  refine iff_throughout (S := fun l => ∃ s, l.foldlM MqProfile.step start = .ok s)
    (I := fun l => ∃ s, l.foldlM MqProfile.step start = .ok s ∧ Follows s l)
    ⟨start, rfl⟩ ⟨start, rfl, follows_start⟩ ?_ ?_ ?_ evs
  · rintro l a ⟨s', h⟩
    rw [List.foldlM_append] at h
    obtain ⟨s, hs, -⟩ := bind_eq_ok.mp h
    exact ⟨s, hs⟩
  · rintro l a ⟨s, hrun, hfollows⟩
    rw [← hfollows.dest, ← exists_step_iff, List.foldlM_append, hrun, ok_bind, List.foldlM_cons]
    simp only [List.foldlM_nil, bind_pure]
  · rintro l a ⟨s, hrun, hfollows⟩ hguard
    rw [← hfollows.dest] at hguard
    obtain ⟨s', hstep⟩ := exists_step_iff.mpr hguard
    refine ⟨s', ?_, hfollows.step hstep⟩
    rw [List.foldlM_append, hrun, ok_bind, List.foldlM_cons, hstep]
    rfl

/-- The loop can only stop at a fault. -/
theorem run_error {evs : List Event} {a : Abort} (h : evs.foldlM MqProfile.step s = .error a) :
    a = .fault := by
  induction evs generalizing s with
  | nil => cases h
  | cons e evs ih =>
    rw [List.foldlM_cons] at h
    cases hstep : MqProfile.step s e with
    | ok s₁ =>
      rw [hstep, ok_bind] at h
      exact ih h
    | error b =>
      rw [hstep, error_bind] at h
      cases h
      -- the event that stops the loop is a scalar without a place
      have hnot : ¬ ∃ s', MqProfile.step s e = .ok s' := by
        rintro ⟨s', hok⟩
        cases hstep.symm.trans hok
      rw [exists_step_iff] at hnot
      push Not at hnot
      obtain ⟨v, rfl, -⟩ := hnot
      exact readValue_error hstep

/-- The profile is loaded without a fault exactly if each scalar has a place to go to. -/
theorem not_fault_iff_guarded (tokens : List Token) :
    agcmqLoadProfile tokens ≠ .error .fault ↔ Guarded (Yaml.events false tokens) := by
  rw [← exists_run_iff_guarded, agcmqLoadProfile, scan_eq_foldlM]
  cases hrun : (Yaml.events false tokens).foldlM MqProfile.step start with
  | ok s => exact iff_of_true (fun h => by cases h) ⟨s, rfl⟩
  | error a =>
    rw [run_error hrun]
    refine iff_of_false (fun h => h rfl) ?_
    rintro ⟨s, h⟩
    cases h

end Follow

end MqProfile
