import Mathlib.Data.Nat.ModEq
import AgcFramework.Lib.Trace

/-!
# The ids of connections

Every connection takes its id from a counter that goes back to 0 after `LIMIT_CONNECTIONS`, whatever
connections are still live then. A connection is live until the pool that it was allocated from is
destroyed, which `agc_free_connection` does; the connections of one listening share its pool. The
allocator does not return null.

## Main definitions

* `Connections.step`: a connection is created, taken from a listening, or freed
* `Connections.Unwrapped`: a connection takes its id while no live connection took the same place
  in an earlier turn of the counter

## Main results

* `Connections.id_eq`: the id of a connection is the number of ids taken before it, modulo the turn
* `Connections.ids_unique_iff`: when live connections have different ids
-/

open Trace

/-- `LIMIT_CONNECTIONS`. -/
def LIMIT_CONNECTIONS : ℕ := 1000000

/-- An `agc_routine_t`; its data is the connection itself. -/
structure AgcRoutine where
  readHandle : Option ℕ
  writeHandle : Option ℕ
  errHandle : Option ℕ

/-- An `agc_listening_t`. -/
structure AgcListening where
  fd : ℤ
  sockaddr : List UInt8
  pool : ℕ

/-- An `agc_connection_t`, with the number of ids that were taken before its own. -/
structure AgcConnection where
  context : ℕ
  routine : AgcRoutine
  fd : ℤ
  listening : Option AgcListening
  pool : ℕ
  sockaddr : List UInt8
  id : ℕ
  serial : ℕ

/-- The counter, the number of ids taken so far, and the live connections. -/
structure Connections where
  genid : ℕ
  taken : ℕ
  live : List AgcConnection

/-- A call of a function of `agc_connection.c`. -/
inductive ConnectionEvent
  | create (s : ℤ) (addr : List UInt8) (pool context : ℕ) (read write err : Option ℕ)
  | get (listening : AgcListening)
  /-- `agc_free_connection`, of the connection with this serial number. -/
  | free (serial : ℕ)

namespace Connections

def init : Connections := ⟨0, 0, []⟩

/-- `next_id`. -/
def nextId (s : Connections) : Connections × ℕ :=
  let genid := if s.genid > LIMIT_CONNECTIONS then 0 else s.genid
  ({ s with genid := genid + 1, taken := s.taken + 1 }, genid)

/-- `agc_conn_create_connection`. -/
def agcConnCreateConnection (s : Connections) (fd : ℤ) (addr : List UInt8) (pool context : ℕ)
    (read write err : Option ℕ) : Connections :=
  let (s', id) := s.nextId
  { s' with
    live := s'.live ++
      [{ context := context
         routine := ⟨read, write, err⟩
         fd := fd
         listening := none
         pool := pool
         sockaddr := addr
         id := id
         serial := s.taken }] }

/-- `agc_conn_get_connection`. -/
def agcConnGetConnection (s : Connections) (listening : AgcListening) : Connections :=
  if listening.fd = -1 then s
  else
    let (s', id) := s.nextId
    { s' with
      live := s'.live ++
        [{ context := 0
           routine := ⟨none, none, none⟩
           fd := listening.fd
           listening := some listening
           pool := listening.pool
           sockaddr := listening.sockaddr
           id := id
           serial := s.taken }] }

/-- `agc_free_connection`: with the connection go all that were allocated from its pool. -/
def agcFreeConnection (s : Connections) (c : AgcConnection) : Connections :=
  { s with live := s.live.filter (·.pool ≠ c.pool) }

def step (s : Connections) : ConnectionEvent → Connections
  | .create fd addr pool context read write err =>
    s.agcConnCreateConnection fd addr pool context read write err
  | .get listening => s.agcConnGetConnection listening
  | .free serial =>
    match s.live.find? (·.serial = serial) with
    | some c => s.agcFreeConnection c
    | none => s

def run (evs : List ConnectionEvent) : Connections := evs.foldl step init

/-- Live connections have different ids. -/
def Unique (s : Connections) : Prop := (s.live.map (·.id)).Nodup

/-- The event takes an id for a connection. -/
def Takes : ConnectionEvent → Prop
  | .create .. => True
  | .get listening => listening.fd ≠ -1
  | .free _ => False

/-- The ids of one turn of the counter. -/
def turn : ℕ := LIMIT_CONNECTIONS + 1

/-- A connection takes its id while no live connection took the same place in an earlier turn of
the counter. -/
def Unwrapped (p : List ConnectionEvent) (e : ConnectionEvent) : Prop :=
  Takes e → ∀ c ∈ (run p).live, ¬ turn ∣ (run p).taken - c.serial

/-! ## The id of a connection -/

/-- The counter and the serial numbers, and from them the ids. -/
structure Inv (s : Connections) : Prop where
  genid_le : s.genid ≤ turn
  genid_mod : s.genid % turn = s.taken % turn
  serial_lt : ∀ c ∈ s.live, c.serial < s.taken
  serials : (s.live.map (·.serial)).Nodup
  id_eq : ∀ c ∈ s.live, c.id = c.serial % turn

theorem Inv.init : init.Inv := by
  constructor <;> simp [Connections.init]

/-- The id that is taken is the number of ids taken so far, modulo the turn. -/
theorem Inv.nextId_eq {s : Connections} (h : s.Inv) :
    s.nextId = ({ s with genid := s.taken % turn + 1, taken := s.taken + 1 }, s.taken % turn) := by
  have hgenid : (if s.genid > LIMIT_CONNECTIONS then 0 else s.genid) = s.taken % turn := by
    rw [← h.genid_mod]
    by_cases hg : s.genid > LIMIT_CONNECTIONS
    · have heq : s.genid = turn := le_antisymm h.genid_le hg
      rw [if_pos hg, heq, Nat.mod_self]
    · have hlt : s.genid < turn := Nat.lt_succ_of_le (not_lt.mp hg)
      rw [if_neg hg, Nat.mod_eq_of_lt hlt]
  simp only [nextId, hgenid]

/-- A connection that takes the next id keeps the invariant. -/
theorem Inv.take {s : Connections} (h : s.Inv) {c : AgcConnection} (hid : c.id = s.nextId.2)
    (hserial : c.serial = s.taken) :
    ({ s.nextId.1 with live := s.live ++ [c] } : Connections).Inv := by
  rw [h.nextId_eq] at hid ⊢
  constructor
  · exact Nat.mod_lt _ (Nat.succ_pos _)
  · exact Nat.mod_add_mod s.taken turn 1
  · intro d hd
    rcases List.mem_append.mp hd with hd | hd
    · exact (h.serial_lt d hd).trans (Nat.lt_succ_self _)
    · rw [List.mem_singleton.mp hd, hserial]
      exact Nat.lt_succ_self _
  · rw [List.map_append, List.nodup_append]
    refine ⟨h.serials, by simp, ?_⟩
    intro a ha b hb
    obtain ⟨d, hd, rfl⟩ := List.mem_map.mp ha
    obtain rfl : b = c.serial := by simpa using hb
    rw [hserial]
    exact (h.serial_lt d hd).ne
  · intro d hd
    rcases List.mem_append.mp hd with hd | hd
    · exact h.id_eq d hd
    · rw [List.mem_singleton.mp hd, hid, hserial]

/-- An event takes an id for a new connection, or leaves the counter and only takes connections
away. -/
theorem step_cases (s : Connections) (e : ConnectionEvent) :
    (Takes e ∧ ∃ c : AgcConnection, c.id = s.nextId.2 ∧ c.serial = s.taken ∧
      s.step e = { s.nextId.1 with live := s.live ++ [c] }) ∨
    (¬ Takes e ∧ ∃ keep : AgcConnection → Bool,
      s.step e = { s with live := s.live.filter keep }) := by
  cases e with
  | create fd addr pool context read write err =>
    exact Or.inl ⟨trivial, _, rfl, rfl, rfl⟩
  | get listening =>
    by_cases hfd : listening.fd = -1
    · exact Or.inr ⟨by simp [Takes, hfd], fun _ => true, by simp [step, agcConnGetConnection, hfd]⟩
    · refine Or.inl ⟨hfd, ⟨0, ⟨none, none, none⟩, listening.fd, some listening, listening.pool,
        listening.sockaddr, s.nextId.2, s.taken⟩, rfl, rfl, ?_⟩
      simp only [step, agcConnGetConnection, hfd, if_false]
      rfl
  | free serial =>
    refine Or.inr ⟨id, ?_⟩
    simp only [step]
    cases s.live.find? (·.serial = serial) with
    | none => exact ⟨fun _ => true, by simp⟩
    | some c => exact ⟨_, rfl⟩

theorem Inv.step {s : Connections} (h : s.Inv) (e : ConnectionEvent) : (s.step e).Inv := by
  rcases step_cases s e with ⟨-, c, hid, hserial, heq⟩ | ⟨-, keep, heq⟩
  · rw [heq]
    exact h.take hid hserial
  · rw [heq]
    refine ⟨h.genid_le, h.genid_mod, fun c hc => h.serial_lt c (List.mem_of_mem_filter hc), ?_,
      fun c hc => h.id_eq c (List.mem_of_mem_filter hc)⟩
    exact h.serials.sublist (List.filter_sublist.map _)

theorem run_snoc (evs : List ConnectionEvent) (e : ConnectionEvent) :
    run (evs ++ [e]) = (run evs).step e :=
  List.foldl_concat step init e evs

theorem Inv.run (evs : List ConnectionEvent) : (run evs).Inv := by
  induction evs using List.reverseRecOn with
  | nil => exact Inv.init
  | append_singleton evs e ih =>
    rw [run_snoc]
    exact ih.step e

/-- The id of a connection is the number of ids taken before it, modulo the turn of the counter. -/
theorem id_eq (evs : List ConnectionEvent) {c : AgcConnection} (hc : c ∈ (run evs).live) :
    c.id = c.serial % turn :=
  (Inv.run evs).id_eq c hc

/-! ## Unique ids -/

/-- A new connection has the id of a live one exactly when a number of whole turns lies between
them. -/
theorem Inv.id_eq_next_iff {s : Connections} (h : s.Inv) {c : AgcConnection} (hc : c ∈ s.live) :
    c.id = s.nextId.2 ↔ turn ∣ s.taken - c.serial := by
  rw [h.id_eq c hc, h.nextId_eq]
  exact Nat.modEq_iff_dvd' (h.serial_lt c hc).le

theorem unique_snoc_iff (evs : List ConnectionEvent) (e : ConnectionEvent)
    (hu : (run evs).Unique) : (run (evs ++ [e])).Unique ↔ Unwrapped evs e := by
  have h := Inv.run evs
  rw [run_snoc]
  rcases step_cases (run evs) e with ⟨htakes, c, hid, -, heq⟩ | ⟨htakes, keep, heq⟩
  · rw [heq, Unique, List.map_append, List.nodup_append]
    constructor
    · rintro ⟨-, -, hne⟩ - d hd hdvd
      refine hne d.id (List.mem_map_of_mem hd) c.id (by simp) ?_
      rw [hid]
      exact (h.id_eq_next_iff hd).mpr hdvd
    · intro hun
      refine ⟨hu, by simp, ?_⟩
      intro a ha b hb hab
      obtain ⟨d, hd, rfl⟩ := List.mem_map.mp ha
      obtain rfl : b = c.id := by simpa using hb
      rw [hid] at hab
      exact hun htakes d hd ((h.id_eq_next_iff hd).mp hab)
  · -- freeing a connection brings no new id
    refine iff_of_true ?_ fun ht => absurd ht htakes
    rw [heq]
    exact List.Nodup.sublist (List.filter_sublist.map _) hu

/-- **Unique ids.** In every state of a run live connections have different ids exactly when each
connection takes its id while no live connection took the same place in an earlier turn of the
counter, that is, a multiple of `LIMIT_CONNECTIONS + 1` ids before. -/
theorem ids_unique_iff (evs : List ConnectionEvent) :
    (∀ p, p <+: evs → (run p).Unique) ↔ Throughout Unwrapped evs :=
  prefixes_iff_throughout (S := fun evs => (run evs).Unique) List.nodup_nil
    (fun evs e hu => unique_snoc_iff evs e hu) evs

/-! ## A connection that outlives a turn -/

/-- A connection that stays, and `n` that come and go. -/
def churn (n : ℕ) : List ConnectionEvent :=
  .create 3 [] 0 0 none none none ::
    (List.range n).flatMap fun i => [.create 4 [] 1 0 none none none, .free (i + 1)]

theorem churn_succ (n : ℕ) :
    churn (n + 1) = churn n ++ [ConnectionEvent.create 4 [] 1 0 none none none] ++
      [ConnectionEvent.free (n + 1)] := by
  simp [churn, List.range_succ]

/-- Another connection beside the one that stays. -/
theorem step_create_churn {s : Connections} {a : AgcConnection} (hlive : s.live = [a]) :
    ∃ b : AgcConnection, b.id = s.nextId.2 ∧ b.serial = s.taken ∧ b.pool = 1 ∧
      (s.step (.create 4 [] 1 0 none none none)).live = [a, b] ∧
      (s.step (.create 4 [] 1 0 none none none)).taken = s.taken + 1 := by
  refine ⟨⟨0, ⟨none, none, none⟩, 4, none, 1, [], s.nextId.2, s.taken⟩, rfl, rfl, rfl, ?_, rfl⟩
  simp [step, agcConnCreateConnection, nextId, hlive]

theorem run_churn (n : ℕ) :
    (∃ a : AgcConnection, a.id = 0 ∧ a.serial = 0 ∧ a.pool = 0 ∧ (run (churn n)).live = [a]) ∧
      (run (churn n)).taken = n + 1 ∧
      ∀ p, p <+: churn n → (run p).live.length ≤ LIMIT_CONNECTIONS := by
  induction n with
  | zero =>
    refine ⟨⟨_, rfl, rfl, rfl, rfl⟩, rfl, fun p hp => ?_⟩
    have hlen : ∀ q ∈ [[], churn 0], (run q).live.length ≤ LIMIT_CONNECTIONS := by
      simp [churn, run, init, step, agcConnCreateConnection, nextId, LIMIT_CONNECTIONS]
    refine hlen p ?_
    rcases List.prefix_cons_iff.mp hp with rfl | ⟨q, rfl, hq⟩
    · simp
    · obtain rfl := List.prefix_nil.mp hq
      simp [churn]
  | succ n ih =>
    obtain ⟨⟨a, hid, hserial, hpool, hlive⟩, htaken, hle⟩ := ih
    obtain ⟨b, -, hbserial, hbpool, hblive, hbtaken⟩ := step_create_churn hlive
    rw [← run_snoc] at hblive hbtaken
    -- the connection that came goes again
    have hfree : (run (churn (n + 1))).live = [a] ∧ (run (churn (n + 1))).taken = n + 1 + 1 := by
      rw [churn_succ, run_snoc]
      have hne : ¬ a.serial = n + 1 := by omega
      have heq : b.serial = n + 1 := hbserial.trans htaken
      simp [step, hblive, hne, heq, agcFreeConnection, hpool, hbpool, hbtaken, htaken]
    refine ⟨⟨a, hid, hserial, hpool, hfree.1⟩, hfree.2, fun p hp => ?_⟩
    rw [churn_succ] at hp
    rcases List.prefix_concat_iff.mp hp with rfl | hp
    · rw [← churn_succ, hfree.1]
      simp [LIMIT_CONNECTIONS]
    · rcases List.prefix_concat_iff.mp hp with rfl | hp
      · rw [hblive]
        simp [LIMIT_CONNECTIONS]
      · exact hle p hp

/-- A connection that lives on while a turn of the counter goes by shares its id with the next
connection, though never more than two are live. -/
theorem id_shared_after_turn :
    ¬ ∀ evs : List ConnectionEvent,
      (∀ p, p <+: evs → (run p).live.length ≤ LIMIT_CONNECTIONS) → (run evs).Unique := by
  intro h
  obtain ⟨⟨a, hid, -, -, hlive⟩, htaken, hle⟩ := run_churn LIMIT_CONNECTIONS
  obtain ⟨b, hbid, -, -, hblive, -⟩ := step_create_churn hlive
  rw [← run_snoc] at hblive
  have hu := h (churn LIMIT_CONNECTIONS ++ [.create 4 [] 1 0 none none none]) fun p hp => by
    rcases List.prefix_concat_iff.mp hp with rfl | hp
    · rw [hblive]
      simp [LIMIT_CONNECTIONS]
    · exact hle p hp
  have hb0 : b.id = 0 := by
    rw [hbid, (Inv.run _).nextId_eq, htaken]
    exact Nat.mod_self turn
  rw [Unique, hblive] at hu
  simp [hid, hb0] at hu

end Connections
