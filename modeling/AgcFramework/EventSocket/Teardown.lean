import AgcFramework.EventSocket.Connections
import Mathlib.Data.List.Nodup

/-!
# The teardown of event-socket connections

`kill_connections` closes the sockets of the connections in the list and leaves the pointers to
them, so that the thread of the connection, or the next round of the shutdown, uses and closes them
again. `release_connection` hands the pool of the record over and goes on to read and write the
record, which is gone if the pool is destroyed by then. A connection whose thread could not be
created is not closed at all.

Where none of this happens, the thread of a connection is the only one to touch what belongs to it.
The local states say what that is.

## Main definitions

* `Local`, `Allowed`, `After`: what the thread of a connection owns, and how its calls change it
* `Owned`: what the threads own, with the list of the listener and the queue of pools
* `Orderly`: the condition under which the calls are in order

## Main results

* `respond_keeps`: the calls that are allowed and orderly keep the invariant
* `Task.body_safe`: the threads make only calls that are allowed
* `teardown_orderly`: in an orderly run no socket and no pool is used after it was closed or
  destroyed, the list has the connections between `add_conn` and `remove_conn`, and in the end
  everything is closed and destroyed once
-/

open Ledger Trace

namespace EventServer

/-! ## What a thread owns -/

/-- Where the thread is with respect to the list of the listener. -/
inductive Member
  | before
  | listed
  | after
  deriving DecidableEq

/-- What the thread of a connection with a record owns. -/
structure Hold where
  /-- The fields of the record. -/
  fields : Record
  /-- Whether the socket is open, and the pools are not handed over. -/
  sock : Bool
  pool : Bool
  threadPool : Bool
  /-- Whether the pool of the thread is still to be made. -/
  fresh : Bool
  member : Member

def Hold.owns (h : Hold) : Kind → Bool
  | .sock => h.sock
  | .pool => h.pool
  | .threadPool => h.threadPool

def Hold.drop (h : Hold) : Kind → Hold
  | .sock => { h with sock := false }
  | .pool => { h with pool := false }
  | .threadPool => { h with threadPool := false }

/-- What a thread owns. -/
inductive Local
  /-- Nothing. -/
  | idle
  /-- A round of the accept loop, its pool, its socket, and its record. -/
  | round (k : Conn)
  | pooled (k : Conn)
  | accepted (k : Conn)
  | holding (k : Conn) (h : Hold)

namespace Local

def conn : Local → Option Conn
  | idle => none
  | round k | pooled k | accepted k | holding k _ => some k

def owns : Local → Kind → Bool
  | idle, _ | round _, _ => false
  | pooled _, kind => kind = .pool
  | accepted _, kind => kind ≠ .threadPool
  | holding _ h, kind => h.owns kind

/-- What is still to be made. -/
def unmade : Local → Kind → Bool
  | idle, _ => false
  | round _, _ => true
  | pooled _, kind => kind ≠ .pool
  | accepted _, kind => kind = .threadPool
  | holding _ h, kind => h.fresh && kind = .threadPool

def hold : Local → Option Hold
  | holding _ h => some h
  | _ => none

def member : Local → Option Member
  | idle => none
  | round _ | pooled _ | accepted _ => some .before
  | holding _ h => some h.member

end Local

/-- The calls a thread may make with what it owns. -/
def Allowed (l : Local) : Call → Prop
  | .nextRound _ => l = .idle
  | .createPool k => l = .round k
  | .accept k => l = .pooled k
  | .newRecord k => l = .accepted k
  | .createThreadPool k => ∃ h, l = .holding k h ∧ h.fresh = true
  | .addConn k => ∃ h, l = .holding k h ∧ h.member = .before
  | .removeConn k => ∃ h, l = .holding k h ∧ h.member = .listed
  | .destroyPool k kind => (l = .pooled k ∧ kind = .pool) ∨
      ∃ h, l = .holding k h ∧ h.owns kind = true ∧ kind ≠ .sock
  | .release k => ∃ h, l = .holding k h ∧ (∀ kind, h.owns kind = false) ∧ h.member ≠ .listed
  | .optSet k | .recv k | .send k | .shutdown k | .close k =>
      ∃ h, l = .holding k h ∧ h.sock = true
  | .addrGet k | .createThread k | .field k | .sock k | .clearSock k | .isRunning k
  | .setRunning k _ | .poolField k _ | .clearPool k _ | .popEvent k | .tryrdlock k =>
      ∃ h, l = .holding k h
  | _ => True

/-- What the thread owns after a call with the given answer. -/
def After (l : Local) : (c : Call) → c.Answer → Local → Prop
  | .nextRound k, r, l' => l' = if r then .round k else .idle
  | .createPool k, _, l' => l' = .pooled k
  | .accept k, r, l' => l' = if r then .accepted k else .pooled k
  | .newRecord k, _, l' => l' = .holding k {
      fields := { sock := true, pool := true }
      sock := true, pool := true, threadPool := false, fresh := true, member := .before }
  | .createThreadPool k, _, l' => ∀ h, l = .holding k h → l' = .holding k
      { h with fields := { h.fields with threadPool := true }, threadPool := true, fresh := false }
  | .createThread _, r, l' => r = true ∧ l' = l
  | .connections, r, l' => r = [] ∧ l' = l
  | .addConn k, _, l' => ∀ h, l = .holding k h → l' = .holding k { h with member := .listed }
  | .removeConn k, _, l' => ∀ h, l = .holding k h → l' = .holding k { h with member := .after }
  | .sock k, r, l' => l' = l ∧ ∀ h, l = .holding k h → r = h.fields.sock
  | .clearSock k, _, l' => ∀ h, l = .holding k h →
      l' = .holding k { h with fields := { h.fields with sock := false } }
  | .setRunning k value, _, l' => ∀ h, l = .holding k h →
      l' = .holding k { h with fields := { h.fields with isRunning := value } }
  | .poolField k kind, r, l' => l' = l ∧ ∀ h, l = .holding k h → r = h.fields.poolField kind
  | .clearPool k kind, _, l' => ∀ h, l = .holding k h →
      l' = .holding k { h with fields := h.fields.clearPool kind }
  | .destroyPool k kind, _, l' => (l = .pooled k → l' = .idle) ∧
      ∀ h, l = .holding k h → l' = .holding k (h.drop kind)
  | .release _, _, l' => l' = .idle
  | .close k, _, l' => ∀ h, l = .holding k h → l' = .holding k (h.drop .sock)
  | _, _, l' => l' = l

/-- A call that is in order: the shutdown finds no connection in the list, a pool with a record is
destroyed when nobody has a pointer to the record any more, and threads can be created. -/
def Orderly (s : State) (_ : ℕ) (o : Outcome) : Call → Prop
  | .connections => s.connections = []
  | .destroyPool k kind => o.inline = true → kind = .pool → s.pointer k = false
  | .reap => ∀ x ∈ s.poolQueue.head?, x.2 = .pool → s.pointer x.1 = false
  | .createThread _ => o.ok = true
  | _ => True

instance (s : State) (t : ℕ) (o : Outcome) : DecidablePred (Orderly s t o)
  | .connections => inferInstanceAs (Decidable (s.connections = []))
  | .destroyPool k kind =>
    inferInstanceAs (Decidable (o.inline = true → kind = .pool → s.pointer k = false))
  | .reap => inferInstanceAs (Decidable
      (∀ x ∈ s.poolQueue.head?, x.2 = .pool → s.pointer x.1 = false))
  | .createThread _ => inferInstanceAs (Decidable (o.ok = true))
  | .nextRound _ | .createPool _ | .accept _ | .newRecord _ | .addrGet _ | .createThreadPool _
  | .endRound | .done | .setDone | .ready | .incThreads | .decThreads | .threads | .lock | .unlock
  | .addConn _ | .removeConn _ | .field _ | .sock _ | .clearSock _ | .isRunning _ | .setRunning _ _
  | .poolField _ _ | .clearPool _ _ | .release _ | .optSet _ | .recv _ | .send _ | .shutdown _
  | .close _ | .popEvent _ | .tryrdlock _ | .command | .stall => isTrue trivial

/-! ## The invariant -/

/-- What belongs to the connection `k`, when its thread owns `l`. -/
structure Fits (s : State) (k : Conn) (l : Local) : Prop where
  owned : ∀ kind, l.owns kind = true → Live s.log (k, kind) ∧ (k, kind) ∉ s.poolQueue
  unmade : ∀ kind, l.unmade kind = true → .alloc (k, kind) ∉ s.log
  covered : ∀ kind, Live s.log (k, kind) → l.owns kind = true ∨ (k, kind) ∈ s.poolQueue
  record : ∀ h, l.hold = some h →
    s.pointer k = true ∧ s.record k = h.fields ∧ Live s.log (k, .pool)
  pointer : l.hold = none → s.pointer k = false
  listed : k ∈ s.connections ↔ l.member = some .listed
  before : l.member = some .before → .added k ∉ s.marks ∧ .removed k ∉ s.marks
  between : k ∈ s.connections ↔ .added k ∈ s.marks ∧ .removed k ∉ s.marks

/-- The invariant of the environment. -/
structure Owned (s : State) (l : ℕ → Local) : Prop where
  sound : Ledger.Sound s.log
  conn : ∀ t k, (l t).conn = some k → k = t
  fits : ∀ k, Fits s k (l k)
  fresh : ∀ k, s.rounds ≤ k → l k = .idle ∧ (∀ kind, .alloc (k, kind) ∉ s.log) ∧
    .added k ∉ s.marks ∧ .removed k ∉ s.marks
  queue : s.poolQueue.Nodup ∧ ∀ x ∈ s.poolQueue, Live s.log x
  nodup : s.connections.Nodup

/-- Two states that agree on what belongs to the connection `k`. -/
structure Same (s s' : State) (k : Conn) : Prop where
  live : ∀ kind, Live s'.log (k, kind) ↔ Live s.log (k, kind)
  alloc : ∀ kind, .alloc (k, kind) ∈ s'.log ↔ .alloc (k, kind) ∈ s.log
  queue : ∀ kind, (k, kind) ∈ s'.poolQueue ↔ (k, kind) ∈ s.poolQueue
  pointer : s'.pointer k = s.pointer k
  record : s'.record k = s.record k
  connections : k ∈ s'.connections ↔ k ∈ s.connections
  added : .added k ∈ s'.marks ↔ .added k ∈ s.marks
  removed : .removed k ∈ s'.marks ↔ .removed k ∈ s.marks

section Invariant

variable {s s' s'' : State} {l : ℕ → Local} {t : ℕ} {k : Conn} {kind : Kind} {l₀ l' : Local}
  {h : Hold}

theorem Fits.congr (hf : Fits s k l₀) (hs : Same s s' k) : Fits s' k l₀ where
  owned kind hk := by
    rw [hs.live, hs.queue]
    exact hf.owned kind hk
  unmade kind hk := by
    rw [hs.alloc]
    exact hf.unmade kind hk
  covered kind hk := by
    rw [hs.queue]
    exact hf.covered kind ((hs.live kind).mp hk)
  record h hh := by
    rw [hs.pointer, hs.record, hs.live]
    exact hf.record h hh
  pointer hh := by
    rw [hs.pointer]
    exact hf.pointer hh
  listed := by
    rw [hs.connections]
    exact hf.listed
  before hm := by
    rw [hs.added, hs.removed]
    exact hf.before hm
  between := by
    rw [hs.connections, hs.added, hs.removed]
    exact hf.between

/-- The flags and counters of the module belong to no connection. -/
theorem same_flags (done accepting locked : Bool) (threads rounds : ℕ) :
    Same s { s with done, accepting, locked, threads, rounds } k :=
  ⟨fun _ => Iff.rfl, fun _ => Iff.rfl, fun _ => Iff.rfl, rfl, rfl, Iff.rfl, Iff.rfl, Iff.rfl⟩

/-- An act on what belongs to another connection. -/
theorem same_act {a : Act Res} (ha : a.res.1 ≠ k) : Same s (s.act a) k := by
  have hne : ∀ kind, a.res ≠ (k, kind) := fun kind heq => ha (congrArg Prod.fst heq)
  exact ⟨fun kind => live_snoc_of_ne (hne kind), fun kind => (mem_snoc_of_ne (hne kind)).1,
    fun _ => Iff.rfl, rfl, rfl, Iff.rfl, Iff.rfl, Iff.rfl⟩

/-- A use changes nothing. -/
theorem same_use {x : Res} : Same s (s.act (.use x)) k :=
  ⟨fun _ => live_snoc_use, fun _ => alloc_mem_snoc_use, fun _ => Iff.rfl, rfl, rfl, Iff.rfl,
    Iff.rfl, Iff.rfl⟩

/-- The thread of a connection changes what it owns, and the others stay as they are. -/
theorem Owned.update (ho : Owned s l) (hsound : Ledger.Sound s'.log)
    (hconn : ∀ k, l'.conn = some k → k = t) (hself : Fits s' t l')
    (hother : ∀ k, k ≠ t → Same s s' k) (hrounds : s'.rounds = s.rounds) (ht : l t ≠ .idle)
    (hqueue : s'.poolQueue.Nodup ∧ ∀ x ∈ s'.poolQueue, Live s'.log x)
    (hnodup : s'.connections.Nodup) : Owned s' (Function.update l t l') := by
  refine ⟨hsound, fun u k hk => ?_, fun k => ?_, fun k hk => ?_, hqueue, hnodup⟩
  · by_cases hut : u = t
    · subst hut
      rw [Function.update_self] at hk
      exact hconn k hk
    · rw [Function.update_of_ne hut] at hk
      exact ho.conn u k hk
  · by_cases hkt : k = t
    · subst hkt
      rw [Function.update_self]
      exact hself
    · rw [Function.update_of_ne hkt]
      exact (ho.fits k).congr (hother k hkt)
  · -- a thread that owns something is that of a round that was begun
    rw [hrounds] at hk
    obtain ⟨hidle, halloc, hadded, hremoved⟩ := ho.fresh k hk
    have hkt : k ≠ t := fun heq => ht (heq ▸ hidle)
    have hsame := hother k hkt
    rw [Function.update_of_ne hkt, hsame.added, hsame.removed]
    exact ⟨hidle, fun kind => (hsame.alloc kind).not.mpr (halloc kind), hadded, hremoved⟩

theorem Owned.flags (ho : Owned s l) (done accepting locked : Bool) (threads : ℕ) :
    Owned { s with done, accepting, locked, threads } l :=
  ⟨ho.sound, ho.conn, fun k => (ho.fits k).congr (same_flags _ _ _ _ _), ho.fresh, ho.queue,
    ho.nodup⟩

/-- Something live is used. -/
theorem Owned.use {x : Res} (ho : Owned s l) (hx : Live s.log x) :
    Owned (s.act (.use x)) l := by
  refine ⟨sound_snoc.mpr ⟨ho.sound, hx⟩, ho.conn, fun k => (ho.fits k).congr same_use,
    fun k hk => ?_, ⟨ho.queue.1, fun y hy => live_snoc_use.mpr (ho.queue.2 y hy)⟩, ho.nodup⟩
  obtain ⟨hidle, halloc, hmarks⟩ := ho.fresh k hk
  exact ⟨hidle, fun kind => alloc_mem_snoc_use.not.mpr (halloc kind), hmarks⟩

theorem Owned.holding (ho : Owned s l) (ht : l t = .holding k h) :
    k = t ∧ s.record k = h.fields ∧ s.pointer k = true ∧ Live s.log (k, .pool) := by
  have hk : k = t := ho.conn t k (by rw [ht]; rfl)
  subst hk
  obtain ⟨hpointer, hrecord, hlive⟩ := (ho.fits k).record h (by rw [ht]; rfl)
  exact ⟨rfl, hrecord, hpointer, hlive⟩

/-- A field of the record is read or written. -/
theorem Owned.access (ho : Owned s l) (ht : l t = .holding k h) : Owned (s.access k) l :=
  ho.use (ho.holding ht).2.2.2

/-- The records of the connections in the list are live. -/
theorem Owned.live_of_mem (ho : Owned s l) (hk : k ∈ s.connections) : Live s.log (k, .pool) := by
  have hf := ho.fits k
  have hmember := hf.listed.mp hk
  cases hl : l k with
  | holding j h => exact (hf.record h (by rw [hl]; rfl)).2.2
  | idle | round j | pooled j | accepted j =>
    rw [hl] at hmember
    cases hmember

/-- A walk over live records. -/
theorem Owned.accesses {ks : List Conn} (ho : Owned s l)
    (hks : ∀ k ∈ ks, Live s.log (k, .pool)) : Owned (s.accesses ks) l := by
  induction ks generalizing s with
  | nil => simpa [State.accesses] using ho
  | cons k ks ih =>
    have hstep : s.accesses (k :: ks) = (s.access k).accesses ks := by
      simp [State.accesses, State.access, State.act]
    rw [hstep]
    exact ih (ho.use (hks k List.mem_cons_self)) fun j hj =>
      live_snoc_use.mpr (hks j (List.mem_cons_of_mem k hj))

/-- A function is called on the open socket of a record. -/
theorem Owned.useSock (ho : Owned s l) (ht : l t = .holding k h) (hs : h.sock = true) :
    Owned ((s.access k).act (.use (k, .sock))) l := by
  obtain ⟨rfl, -⟩ := ho.holding ht
  have hlive := ((ho.fits k).owned .sock (by rw [ht]; exact hs)).1
  exact (ho.access ht).use (live_snoc_use.mpr hlive)

/-- A thread turns from `l` to `l'` without a change of the record, of its place in the list, or of
what is still to be made. -/
structure Local.Keeps (l l' : Local) : Prop where
  conn : ∀ k, l'.conn = some k → l.conn = some k
  unmade : ∀ kind, l'.unmade kind = true → l.unmade kind = true
  fields : l'.hold.map Hold.fields = l.hold.map Hold.fields
  listed : l'.member = some .listed ↔ l.member = some .listed
  before : l'.member = some .before → l.member = some .before

/-- What is left to show when a thread turns from one state to another. -/
theorem Fits.turn (hf : Fits s k l₀) (hl : l₀.Keeps l') (hpointer : s'.pointer = s.pointer)
    (hrecord : s'.record = s.record) (hconnections : s'.connections = s.connections)
    (hmarks : s'.marks = s.marks)
    (howned : ∀ kind, l'.owns kind = true → Live s'.log (k, kind) ∧ (k, kind) ∉ s'.poolQueue)
    (hunmade : ∀ kind, l'.unmade kind = true → .alloc (k, kind) ∉ s'.log)
    (hcovered : ∀ kind, Live s'.log (k, kind) → l'.owns kind = true ∨ (k, kind) ∈ s'.poolQueue)
    (hpool : l'.hold ≠ none → Live s.log (k, .pool) → Live s'.log (k, .pool)) : Fits s' k l' := by
  refine ⟨howned, hunmade, hcovered, fun h hh => ?_, fun hh => ?_, ?_, fun hm => ?_, ?_⟩
  · -- the record had the same fields before
    have hfields := hl.fields
    rw [hh, Option.map_some, eq_comm, Option.map_eq_some_iff] at hfields
    obtain ⟨h₀, hh₀, heq⟩ := hfields
    obtain ⟨hp, hr, hlive⟩ := hf.record h₀ hh₀
    rw [hpointer, hrecord, hr, heq]
    exact ⟨hp, rfl, hpool (by simp [hh]) hlive⟩
  · have hfields := hl.fields
    rw [hh, Option.map_none, eq_comm, Option.map_eq_none_iff] at hfields
    rw [hpointer]
    exact hf.pointer hfields
  · rw [hconnections, hf.listed, hl.listed]
  · rw [hmarks]
    exact hf.before (hl.before hm)
  · rw [hconnections, hmarks]
    exact hf.between

/-- A socket is accepted, or a pool is made. -/
theorem Owned.alloc (ho : Owned s l) (hu : (l t).unmade kind = true) (hl : (l t).Keeps l')
    (howns : ∀ kd, l'.owns kd = ((l t).owns kd || decide (kd = kind)))
    (hun : l'.unmade kind = false) :
    Owned (s.act (.alloc (t, kind))) (Function.update l t l') := by
  have hnew : .alloc (t, kind) ∉ s.log := (ho.fits t).unmade kind hu
  have hlive : ∀ x, Live (s.act (.alloc (t, kind))).log x ↔ x = (t, kind) ∨ Live s.log x :=
    fun x => live_snoc_alloc ho.sound hnew
  have hidle : l t ≠ .idle := by
    intro hidle
    rw [hidle] at hu
    cases hu
  refine ho.update (sound_snoc.mpr ⟨ho.sound, hnew⟩) (fun k hk => ho.conn t k (hl.conn k hk)) ?_
    (fun k hk => same_act (Ne.symm hk)) rfl hidle
    ⟨ho.queue.1, fun x hx => (hlive x).mpr (Or.inr (ho.queue.2 x hx))⟩ ho.nodup
  refine (ho.fits t).turn hl rfl rfl rfl rfl (fun kd hkd => ?_) (fun kd hkd => ?_)
    (fun kd hkd => ?_) fun _ hp => (hlive _).mpr (Or.inr hp)
  · rw [hlive]
    by_cases heq : kd = kind
    · -- what is new is not in the queue
      subst heq
      exact ⟨Or.inl rfl, fun hq => hnew (ho.queue.2 _ hq).1⟩
    · have hold : (l t).owns kd = true := by simpa [howns, heq] using hkd
      exact ⟨Or.inr ((ho.fits t).owned kd hold).1, ((ho.fits t).owned kd hold).2⟩
  · have hne : kd ≠ kind := by
      rintro rfl
      rw [hun] at hkd
      cases hkd
    rw [State.act, (mem_snoc_of_ne (by simpa [Act.res] using Ne.symm hne)).1]
    exact (ho.fits t).unmade kd (hl.unmade kd hkd)
  · rw [howns]
    rcases (hlive _).mp hkd with heq | hold
    · left
      simp [(Prod.mk.inj heq).2]
    · exact ((ho.fits t).covered kd hold).imp_left fun h => by simp [h]

/-- A socket is closed, or a pool is destroyed by its owner. -/
theorem Owned.free (ho : Owned s l) (hown : (l t).owns kind = true) (hl : (l t).Keeps l')
    (howns : ∀ kd, l'.owns kd = ((l t).owns kd && decide (kd ≠ kind)))
    (hpool : kind = .pool → l'.hold = none) :
    Owned (s.act (.free (t, kind))) (Function.update l t l') := by
  obtain ⟨hx, hxq⟩ := (ho.fits t).owned kind hown
  have hlive : ∀ x, Live (s.act (.free (t, kind))).log x ↔ x ≠ (t, kind) ∧ Live s.log x :=
    fun x => live_snoc_free
  have hidle : l t ≠ .idle := by
    intro hidle
    rw [hidle] at hown
    cases hown
  refine ho.update (sound_snoc.mpr ⟨ho.sound, hx⟩) (fun k hk => ho.conn t k (hl.conn k hk)) ?_
    (fun k hk => same_act (Ne.symm hk)) rfl hidle ⟨ho.queue.1, fun x hq => ?_⟩ ho.nodup
  · refine (ho.fits t).turn hl rfl rfl rfl rfl (fun kd hkd => ?_) (fun kd hkd => ?_)
      (fun kd hkd => ?_) fun hh hp => (hlive _).mpr ⟨fun heq => ?_, hp⟩
    · have hkd : (l t).owns kd = true ∧ kd ≠ kind := by simpa [howns] using hkd
      rw [hlive]
      exact ⟨⟨by simpa using hkd.2, ((ho.fits t).owned kd hkd.1).1⟩,
        ((ho.fits t).owned kd hkd.1).2⟩
    · exact alloc_mem_snoc_free.not.mpr ((ho.fits t).unmade kd (hl.unmade kd hkd))
    · obtain ⟨hne, hold⟩ := (hlive _).mp hkd
      rw [howns]
      refine ((ho.fits t).covered kd hold).imp_left fun h => ?_
      simpa [h] using hne
    · -- a record lives in the pool: who destroys the pool has no pointer to it any more
      exact hh (hpool (Prod.mk.inj heq).2.symm)
  · rw [hlive]
    exact ⟨fun heq => hxq (heq ▸ hq), ho.queue.2 x hq⟩

/-- A pool is handed over to the memory manager. -/
theorem Owned.handOver (ho : Owned s l) (hown : (l t).owns kind = true) (hl : (l t).Keeps l')
    (howns : ∀ kd, l'.owns kd = ((l t).owns kd && decide (kd ≠ kind))) :
    Owned { s with poolQueue := s.poolQueue ++ [(t, kind)] } (Function.update l t l') := by
  obtain ⟨hx, hxq⟩ := (ho.fits t).owned kind hown
  have hmem : ∀ x, x ∈ s.poolQueue ++ [(t, kind)] ↔ x ∈ s.poolQueue ∨ x = (t, kind) := by
    simp
  have hidle : l t ≠ .idle := by
    intro hidle
    rw [hidle] at hown
    cases hown
  refine ho.update ho.sound (fun k hk => ho.conn t k (hl.conn k hk)) ?_
    (fun k hk => ?_) rfl hidle ⟨?_, fun x hq => ?_⟩ ho.nodup
  · refine (ho.fits t).turn hl rfl rfl rfl rfl (fun kd hkd => ?_) (fun kd hkd => ?_)
      (fun kd hkd => ?_) fun _ hp => hp
    · -- what the thread still owns is not what it has handed over
      have hkd : (l t).owns kd = true ∧ kd ≠ kind := by simpa [howns] using hkd
      obtain ⟨hlive, hnq⟩ := (ho.fits t).owned kd hkd.1
      exact ⟨hlive, fun hq => ((hmem _).mp hq).elim hnq fun heq => hkd.2 (Prod.mk.inj heq).2⟩
    · exact (ho.fits t).unmade kd (hl.unmade kd hkd)
    · rw [howns]
      show _ ∨ (t, kd) ∈ s.poolQueue ++ [(t, kind)]
      rw [hmem]
      by_cases heq : kd = kind
      · exact Or.inr (Or.inr (by rw [heq]))
      · rcases (ho.fits t).covered kd hkd with h | h
        · left
          simp [h, heq]
        · exact Or.inr (Or.inl h)
  · refine ⟨fun _ => Iff.rfl, fun _ => Iff.rfl, fun kd => ?_, rfl, rfl, Iff.rfl, Iff.rfl, Iff.rfl⟩
    rw [hmem]
    simp [hk]
  · -- a pool that a thread owns is not in the queue yet
    refine List.nodup_append.mpr ⟨ho.queue.1, List.nodup_singleton _, fun y hy z hz heq => ?_⟩
    rw [heq, List.mem_singleton.mp hz] at hy
    exact hxq hy
  · rcases (hmem x).mp hq with hq | rfl
    · exact ho.queue.2 x hq
    · exact hx

/-- The memory manager destroys a pool. -/
theorem Owned.reap {x : Res} {queue : List Res} (ho : Owned s l) (hq : s.poolQueue = x :: queue)
    (hx : x.2 = .pool → s.pointer x.1 = false) :
    Owned { s.act (.free x) with poolQueue := queue } l := by
  have hnodup : x ∉ queue ∧ queue.Nodup := by
    have := ho.queue.1
    rw [hq] at this
    exact List.nodup_cons.mp this
  have hxlive : Live s.log x := ho.queue.2 x (by rw [hq]; exact List.mem_cons_self)
  have hlive : ∀ y, Live (s.act (.free x)).log y ↔ y ≠ x ∧ Live s.log y := fun y => live_snoc_free
  have hmem : ∀ y, y ∈ s.poolQueue ↔ y = x ∨ y ∈ queue := by
    rw [hq]
    simp
  refine ⟨sound_snoc.mpr ⟨ho.sound, hxlive⟩, ho.conn, fun k => ?_, fun k hk => ?_,
    ⟨hnodup.2, fun y hy => ?_⟩, ho.nodup⟩
  · have hf := ho.fits k
    refine hf.turn ⟨fun _ h => h, fun _ h => h, rfl, Iff.rfl, fun h => h⟩ rfl rfl rfl rfl
      (fun kd hkd => ?_) (fun kd hkd => ?_) (fun kd hkd => ?_) fun hh hp => ?_
    · obtain ⟨h₁, h₂⟩ := hf.owned kd hkd
      rw [hmem, not_or] at h₂
      exact ⟨(hlive _).mpr ⟨h₂.1, h₁⟩, h₂.2⟩
    · exact alloc_mem_snoc_free.not.mpr (hf.unmade kd hkd)
    · -- what is live now was live before, and has its owner, a thread or the queue
      obtain ⟨hne, hold⟩ := (hlive _).mp hkd
      refine (hf.covered kd hold).imp_right fun h => ?_
      exact ((hmem _).mp h).resolve_left hne
    · -- nobody has a pointer to a record in the pool
      refine (hlive _).mpr ⟨fun heq => ?_, hp⟩
      subst heq
      obtain ⟨h, hh⟩ := Option.ne_none_iff_exists'.mp hh
      have := (hf.record h hh).1
      rw [hx rfl] at this
      cases this
  · obtain ⟨hidle, halloc, hmarks⟩ := ho.fresh k hk
    exact ⟨hidle, fun kd => alloc_mem_snoc_free.not.mpr (halloc kd), hmarks⟩
  · refine (hlive y).mpr ⟨fun heq => hnodup.1 (heq ▸ hy), ho.queue.2 y ?_⟩
    rw [hmem]
    exact Or.inr hy

/-- Fields of a record are written. -/
theorem Owned.setFields (ho : Owned s l) (ht : l t = .holding k h) (r : Record) :
    Owned { s with record := Function.update s.record k r }
      (Function.update l t (.holding k { h with fields := r })) := by
  obtain ⟨rfl, -, hpointer, hlive⟩ := ho.holding ht
  have hf := ho.fits k
  rw [ht] at hf
  refine ho.update ho.sound (fun k' hk' => (Option.some.inj hk').symm) ?_ (fun k' hk' => ?_) rfl
    (by simp [ht]) ho.queue ho.nodup
  · refine ⟨hf.owned, hf.unmade, hf.covered, fun h' hh' => ?_, fun hh' => ?_, hf.listed, hf.before,
      hf.between⟩
    · cases hh'
      exact ⟨hpointer, Function.update_self _ _ _, hlive⟩
    · cases hh'
  · exact ⟨fun _ => Iff.rfl, fun _ => Iff.rfl, fun _ => Iff.rfl, rfl,
      Function.update_of_ne hk' _ _, Iff.rfl, Iff.rfl, Iff.rfl⟩

/-- A record is allocated from the pool. -/
theorem Owned.newRecord (ho : Owned s l) (ht : l t = .accepted k) :
    Owned { s with
        record := Function.update s.record k { sock := true, pool := true }
        pointer := Function.update s.pointer k true }
      (Function.update l t (.holding k {
        fields := { sock := true, pool := true }
        sock := true, pool := true, threadPool := false, fresh := true, member := .before })) := by
  obtain rfl : k = t := ho.conn t k (by rw [ht]; rfl)
  have hf := ho.fits k
  rw [ht] at hf
  refine ho.update ho.sound (fun k' hk' => (Option.some.inj hk').symm) ?_ (fun k' hk' => ?_) rfl
    (by simp [ht]) ho.queue ho.nodup
  · refine ⟨fun kind hk => hf.owned kind ?_, fun kind hk => hf.unmade kind ?_,
      fun kind hk => (hf.covered kind hk).imp_left fun hown => ?_, fun h' hh' => ?_, fun hh' => ?_,
      hf.listed, hf.before, hf.between⟩
    · cases kind <;> first | rfl | exact hk
    · cases kind <;> first | rfl | exact hk
    · cases kind <;> first | rfl | exact hown
    · cases hh'
      exact ⟨Function.update_self _ _ _, Function.update_self _ _ _, (hf.owned .pool rfl).1⟩
    · cases hh'
  · exact ⟨fun _ => Iff.rfl, fun _ => Iff.rfl, fun _ => Iff.rfl, Function.update_of_ne hk' _ _,
      Function.update_of_ne hk' _ _, Iff.rfl, Iff.rfl, Iff.rfl⟩

/-- The pointer to the record is given up, when nothing is left of the connection. -/
theorem Owned.release (ho : Owned s l) (ht : l t = .holding k h)
    (howns : ∀ kind, h.owns kind = false) (hm : h.member ≠ .listed) :
    Owned { s with pointer := Function.update s.pointer k false } (Function.update l t .idle) := by
  obtain ⟨rfl, -⟩ := ho.holding ht
  have hf := ho.fits k
  rw [ht] at hf
  refine ho.update ho.sound (fun k' hk' => (by cases hk')) ?_ (fun k' hk' => ?_) rfl (by simp [ht])
    ho.queue ho.nodup
  · refine ⟨fun kind hk => (by cases hk), fun kind hk => (by cases hk), fun kind hk => ?_,
      fun h' hh' => (by cases hh'), fun _ => Function.update_self _ _ _, ?_,
      fun hb => (by cases hb), hf.between⟩
    · -- what is live is in the queue
      refine (hf.covered kind hk).imp_left fun hown => ?_
      rw [Local.owns, howns] at hown
      cases hown
    · rw [hf.listed]
      simp [Local.member, hm]
  · exact ⟨fun _ => Iff.rfl, fun _ => Iff.rfl, fun _ => Iff.rfl, Function.update_of_ne hk' _ _, rfl,
      Iff.rfl, Iff.rfl, Iff.rfl⟩

/-- A connection is put in front of the list. -/
theorem Owned.addConn (ho : Owned s l) (ht : l t = .holding k h) (hm : h.member = .before) :
    Owned { s with connections := k :: s.connections, marks := s.marks ++ [.added k] }
      (Function.update l t (.holding k { h with member := .listed })) := by
  obtain ⟨rfl, -⟩ := ho.holding ht
  have hf := ho.fits k
  rw [ht] at hf
  have hnew : k ∉ s.connections := by
    rw [hf.listed]
    simp [Local.member, hm]
  obtain ⟨-, hremoved⟩ := hf.before (by simp [Local.member, hm])
  refine ho.update ho.sound (fun k' hk' => (Option.some.inj hk').symm) ?_ (fun k' hk' => ?_) rfl
    (by simp [ht]) ho.queue (List.nodup_cons.mpr ⟨hnew, ho.nodup⟩)
  · refine ⟨hf.owned, hf.unmade, hf.covered, fun h' hh' => ?_, fun hh' => (by cases hh'), ?_,
      fun hb => (by cases hb), ?_⟩
    · cases hh'
      exact hf.record h rfl
    · simp [Local.member]
    · simp [hremoved]
  · refine ⟨fun _ => Iff.rfl, fun _ => Iff.rfl, fun _ => Iff.rfl, rfl, rfl, ?_, ?_, ?_⟩
    · simp [hk']
    · simp [hk']
    · simp

/-- A connection is taken out of the list. -/
theorem Owned.removeConn (ho : Owned s l) (ht : l t = .holding k h) :
    Owned { s with connections := s.connections.erase k, marks := s.marks ++ [.removed k] }
      (Function.update l t (.holding k { h with member := .after })) := by
  obtain ⟨rfl, -⟩ := ho.holding ht
  have hf := ho.fits k
  rw [ht] at hf
  have hgone : k ∉ s.connections.erase k := ho.nodup.not_mem_erase
  refine ho.update ho.sound (fun k' hk' => (Option.some.inj hk').symm) ?_ (fun k' hk' => ?_) rfl
    (by simp [ht]) ho.queue (ho.nodup.erase k)
  · refine ⟨hf.owned, hf.unmade, hf.covered, fun h' hh' => ?_, fun hh' => (by cases hh'), ?_,
      fun hb => (by cases hb), ?_⟩
    · cases hh'
      exact hf.record h rfl
    · simp [Local.member, hgone]
    · simp [hgone]
  · refine ⟨fun _ => Iff.rfl, fun _ => Iff.rfl, fun _ => Iff.rfl, rfl, rfl, ?_, ?_, ?_⟩
    · exact List.mem_erase_of_ne hk'
    · simp
    · simp [hk']

/-- A round of the accept loop is begun. -/
theorem Owned.nextRound (ho : Owned s l) (hk : t = s.rounds) :
    Owned { s with accepting := true, rounds := s.rounds + 1 }
      (Function.update l t (.round t)) := by
  obtain ⟨hidle, halloc, hadded, hremoved⟩ := ho.fresh t (Nat.le_of_eq hk.symm)
  have hf := ho.fits t
  rw [hidle] at hf
  refine ⟨ho.sound, fun u k hu => ?_, fun k => ?_, fun k hk' => ?_, ho.queue, ho.nodup⟩
  · by_cases hut : u = t
    · rw [hut, Function.update_self] at hu
      exact (Option.some.inj hu).symm.trans hut.symm
    · rw [Function.update_of_ne hut] at hu
      exact ho.conn u k hu
  · by_cases hkt : k = t
    · subst hkt
      rw [Function.update_self]
      -- nothing was ever made for this round
      exact ⟨fun _ h => (by cases h), fun kind _ => halloc kind, hf.covered,
        fun _ h => (by cases h), fun _ => hf.pointer rfl, hf.listed.trans (by simp [Local.member]),
        fun _ => ⟨hadded, hremoved⟩, hf.between⟩
    · rw [Function.update_of_ne hkt]
      exact (ho.fits k).congr (same_flags _ _ _ _ _)
  · have hk' : s.rounds + 1 ≤ k := hk'
    have hkt : k ≠ t := by omega
    rw [Function.update_of_ne hkt]
    exact ho.fresh k (by omega)

end Invariant

section Drop

variable {k : Conn} {h : Hold} {kind : Kind}

/-- What a hold is left with. -/
theorem Hold.drop_owns (h : Hold) (kind kd : Kind) :
    (h.drop kind).owns kd = (h.owns kd && decide (kd ≠ kind)) := by
  cases kind <;> cases kd <;> simp [Hold.drop, Hold.owns]

theorem Hold.drop_keeps : (Local.holding k h).Keeps (.holding k (h.drop kind)) := by
  refine ⟨fun _ hk => hk, fun kd hkd => ?_, ?_, ?_, ?_⟩
  · cases kind <;> exact hkd
  · cases kind <;> rfl
  · cases kind <;> exact Iff.rfl
  · cases kind <;> exact fun hm => hm

end Drop

/-- A field of a record is assigned, with an access to the record. -/
theorem Owned.setRecord {s : State} {l : ℕ → Local} {t : ℕ} {k : Conn} {h : Hold}
    (ho : Owned s l) (ht : l t = .holding k h) (r : Record) :
    Owned (s.setRecord k r) (Function.update l t (.holding k { h with fields := r })) :=
  (ho.access ht).setFields ht r

/-- A thread gives a pool away: that of a round without a connection, or one of its record. -/
theorem destroyPool_turn {s : State} {l : ℕ → Local} {t : ℕ} {k : Conn} {kind : Kind}
    (ho : Owned s l) (ha : Allowed (l t) (.destroyPool k kind)) :
    k = t ∧ (l t).owns kind = true ∧ ∃ l', After (l t) (.destroyPool k kind) () l' ∧
      (l t).Keeps l' ∧ (∀ kd, l'.owns kd = ((l t).owns kd && decide (kd ≠ kind))) ∧
      (s.pointer k = false → l'.hold = none) := by
  rcases ha with ⟨hl, rfl⟩ | ⟨h, hl, hown, -⟩
  · refine ⟨ho.conn t k (by rw [hl]; rfl), by rw [hl]; rfl, .idle, ⟨fun _ => rfl, ?_⟩, ?_, ?_,
      fun _ => rfl⟩
    · intro h hh
      rw [hl] at hh
      cases hh
    · rw [hl]
      exact ⟨fun _ hk => (by cases hk), fun _ hu => (by cases hu), rfl,
        ⟨fun hm => (by cases hm), fun hm => (by cases hm)⟩, fun hm => (by cases hm)⟩
    · intro kd
      rw [hl]
      cases kd <;> rfl
  · obtain ⟨hk, -, hpointer, -⟩ := ho.holding hl
    refine ⟨hk, by rw [hl]; exact hown, .holding k (h.drop kind), ⟨fun hh => ?_, fun h' hh => ?_⟩,
      ?_, ?_, fun hp => ?_⟩
    · rw [hl] at hh
      cases hh
    · rw [hl] at hh
      cases hh
      rfl
    · rw [hl]
      exact Hold.drop_keeps
    · rw [hl]
      exact h.drop_owns kind
    · rw [hpointer] at hp
      cases hp

/-- The calls that are allowed and in order keep the invariant. -/
theorem respond_keeps {s s' : State} {l : ℕ → Local} {t : ℕ} {o : Outcome} {c : Call}
    {r : c.Answer} (ho : Owned s l) (ha : Allowed (l t) c) (hord : Orderly s t o c)
    (hr : respond s t o c = some (r, s')) :
    ∃ l', After (l t) c r l' ∧ Owned s' (Function.update l t l') := by
  have hself : ∀ s', Owned s' l → Owned s' (Function.update l t (l t)) := fun s' h => by
    rw [Function.update_eq_self]
    exact h
  cases c with
  | nextRound k =>
    simp only [respond] at hr
    split at hr
    · rename_i hk
      obtain ⟨hk, rfl, -⟩ := hk
      split at hr
      · cases hr
        exact ⟨.idle, rfl, (show l k = .idle from ha) ▸ hself _ ho⟩
      · cases hr
        exact ⟨.round k, rfl, ho.nextRound hk⟩
    · cases hr
  | createPool k =>
    cases hr
    have hl : l t = .round k := ha
    obtain rfl : k = t := ho.conn t k (by rw [hl]; rfl)
    refine ⟨.pooled k, rfl, ho.alloc (by rw [hl]; rfl) ?_ (fun kd => ?_) rfl⟩
    · rw [hl]
      exact ⟨fun _ h => h, fun _ _ => rfl, rfl, Iff.rfl, fun h => h⟩
    · rw [hl]
      cases kd <;> rfl
  | accept k =>
    have hl : l t = .pooled k := ha
    obtain rfl : k = t := ho.conn t k (by rw [hl]; rfl)
    simp only [respond, Option.some.injEq, Prod.mk.injEq] at hr
    obtain ⟨rfl, rfl⟩ := hr
    by_cases hok : o.ok = true
    · rw [if_pos hok]
      refine ⟨.accepted k, by simp [After, hok], ho.alloc (by rw [hl]; rfl) ?_ (fun kd => ?_) rfl⟩
      · rw [hl]
        refine ⟨fun _ h => h, fun kd hkd => ?_, rfl, Iff.rfl, fun h => h⟩
        cases kd <;> first | rfl | cases hkd
      · rw [hl]
        cases kd <;> rfl
    · rw [if_neg hok]
      refine ⟨.pooled k, by simp [After, hok], ?_⟩
      rw [← hl]
      exact hself _ ho
  | newRecord k =>
    cases hr
    have hl : l t = .accepted k := ha
    obtain rfl : k = t := ho.conn t k (by rw [hl]; rfl)
    have hpool := ((ho.fits k).owned .pool (by rw [hl]; rfl)).1
    exact ⟨_, rfl, (ho.use hpool).newRecord hl⟩
  | createThreadPool k =>
    cases hr
    obtain ⟨h, hl, hfresh⟩ := ha
    obtain ⟨rfl, hrecord, -⟩ := ho.holding hl
    -- the pool is made, and assigned to the field
    have hmade : Owned (s.act (.alloc (k, .threadPool))) (Function.update l k
        (.holding k { h with threadPool := true, fresh := false })) := by
      refine ho.alloc (by simp [hl, Local.unmade, hfresh]) ?_ (fun kd => ?_) rfl
      · rw [hl]
        exact ⟨fun _ hk => hk, fun kd hkd => (by cases hkd), rfl, Iff.rfl, fun hm => hm⟩
      · rw [hl]
        cases kd <;> simp [Local.owns, Hold.owns]
    have hset := hmade.setRecord (Function.update_self _ _ _)
      { s.record k with threadPool := true }
    rw [Function.update_idem] at hset
    refine ⟨_, fun h' hh' => ?_, hset⟩
    rw [hl] at hh'
    cases hh'
    rw [hrecord]
  | createThread k =>
    cases hr
    obtain ⟨h, hl⟩ := ha
    exact ⟨l t, ⟨hord, rfl⟩, hself _ ((ho.access hl).flags _ _ _ _)⟩
  | addConn k =>
    obtain ⟨h, hl, hm⟩ := ha
    simp only [respond] at hr
    split at hr
    · cases hr
    · cases hr
      refine ⟨_, fun h' hh' => ?_, (ho.access hl).addConn hl hm⟩
      rw [hl] at hh'
      cases hh'
      rfl
  | removeConn k =>
    obtain ⟨h, hl, -⟩ := ha
    simp only [respond] at hr
    split at hr
    · cases hr
    · cases hr
      have hwalk : ∀ j ∈ s.connections.takeWhile (· ≠ k) ++ [k], Live s.log (j, .pool) := by
        intro j hj
        rcases List.mem_append.mp hj with hj | hj
        · exact ho.live_of_mem (List.takeWhile_subset _ hj)
        · rw [List.mem_singleton.mp hj]
          exact (ho.holding hl).2.2.2
      refine ⟨_, fun h' hh' => ?_, (ho.accesses hwalk).removeConn hl⟩
      rw [hl] at hh'
      cases hh'
      rfl
  | connections =>
    cases hr
    exact ⟨l t, ⟨hord, rfl⟩, hself _ ho⟩
  | sock k | poolField k kind =>
    cases hr
    obtain ⟨h, hl⟩ := ha
    refine ⟨l t, ⟨rfl, fun h' hh' => ?_⟩, hself _ (ho.access hl)⟩
    rw [hl] at hh'
    cases hh'
    rw [(ho.holding hl).2.1]
  | clearSock k | setRunning k value | clearPool k kind =>
    cases hr
    obtain ⟨h, hl⟩ := ha
    refine ⟨_, fun h' hh' => ?_, ho.setRecord hl _⟩
    rw [hl] at hh'
    cases hh'
    rw [(ho.holding hl).2.1]
  | destroyPool k kind =>
    obtain ⟨rfl, hown, l', haft, hkeeps, howns, hhold⟩ := destroyPool_turn ho ha
    simp only [respond] at hr
    split at hr
    · rename_i hinline
      cases hr
      exact ⟨l', haft, ho.free hown hkeeps howns fun hkind => hhold (hord hinline hkind)⟩
    · cases hr
      exact ⟨l', haft, ho.handOver hown hkeeps howns⟩
  | release k =>
    cases hr
    obtain ⟨h, hl, howns, hm⟩ := ha
    exact ⟨.idle, rfl, ho.release hl howns hm⟩
  | optSet k | recv k | send k | shutdown k =>
    cases hr
    obtain ⟨h, hl, hs⟩ := ha
    exact ⟨l t, rfl, hself _ (ho.useSock hl hs)⟩
  | close k =>
    cases hr
    obtain ⟨h, hl, hs⟩ := ha
    obtain ⟨rfl, -⟩ := ho.holding hl
    refine ⟨.holding k (h.drop .sock), fun h' hh' => ?_, ?_⟩
    · rw [hl] at hh'
      cases hh'
      rfl
    · refine (ho.access hl).free (by rw [hl]; exact hs) ?_ (fun kd => ?_) (by simp)
      · rw [hl]
        exact Hold.drop_keeps
      · rw [hl]
        exact h.drop_owns .sock kd
  | addrGet k | field k | isRunning k | popEvent k | tryrdlock k =>
    cases hr
    obtain ⟨h, hl⟩ := ha
    exact ⟨l t, rfl, hself _ (ho.access hl)⟩
  | reap =>
    simp only [respond] at hr
    split at hr
    · cases hr
      exact ⟨l t, rfl, hself _ ho⟩
    · rename_i x queue hq
      cases hr
      exact ⟨l t, rfl, hself _ (ho.reap hq fun hx => hord x (by rw [hq]; rfl) hx)⟩
  | lock =>
    simp only [respond] at hr
    split at hr
    · cases hr
    · cases hr
      exact ⟨l t, rfl, hself _ (ho.flags _ _ _ _)⟩
  | stall => cases hr
  | done | ready | threads | command =>
    cases hr
    exact ⟨l t, rfl, hself _ ho⟩
  | endRound | setDone | incThreads | decThreads | unlock =>
    cases hr
    exact ⟨l t, rfl, hself _ (ho.flags _ _ _ _)⟩

/-! ## The programs are safe -/

/-- The program makes only calls that are allowed. -/
def Runs {α : Type} (l : Local) (p : Client α) (Q : Local → α → Prop) : Prop :=
  p.Safe (fun l c _ => Allowed l c) After Q l

/-- The program changes nothing of what the thread owns. -/
def Stays {α : Type} (l : Local) (p : Client α) : Prop := Runs l p fun l' _ => l' = l

section Runs

variable {α β : Type} {l : Local} {k : Conn} {h : Hold} {kind : Kind} {p : Client α}
  {f : α → Client β} {Q : Local → α → Prop} {Q' : Local → β → Prop}

theorem Runs.bind (hp : Runs l p Q) (hf : ∀ l' a, Q l' a → Runs l' (f a) Q') :
    Runs l (p >>= f) Q' :=
  Prog.Safe.bind hp (fun _ _ _ h => h) hf

theorem Stays.bind (hp : Stays l p) (hf : ∀ a, Runs l (f a) Q') : Runs l (p >>= f) Q' :=
  Runs.bind hp fun _ a hl => hl ▸ hf a

theorem runs_ret {a : α} (h : Q l a) : Runs l (pure a) Q := h

theorem stays_ret (a : α) : Stays l (pure a) := rfl

theorem runs_call {c : Call} (ha : Allowed l c) : Runs l (call c) fun l' r => After l c r l' :=
  ⟨ha, fun _ _ h => h⟩

theorem runs_stalled : Runs l (stalled : Client α) Q :=
  ⟨trivial, fun r => nomatch r⟩

theorem stays_done : Stays l (call .done) := runs_call trivial

theorem stays_lock : Stays l (call .lock) := runs_call trivial

theorem stays_unlock : Stays l (call .unlock) := runs_call trivial

theorem stays_field (hl : l = .holding k h) : Stays l (call (.field k)) := runs_call ⟨h, hl⟩

theorem stays_send (hl : l = .holding k h) (hs : h.sock = true) : Stays l (call (.send k)) :=
  runs_call ⟨h, hl, hs⟩

theorem stays_recv (hl : l = .holding k h) (hs : h.sock = true) : Stays l (call (.recv k)) :=
  runs_call ⟨h, hl, hs⟩

theorem stays_sock (hl : l = .holding k h) : Stays l (call (.sock k)) :=
  ⟨⟨h, hl⟩, fun _ _ h => h.1⟩

theorem stays_isRunning (hl : l = .holding k h) : Stays l (call (.isRunning k)) := runs_call ⟨h, hl⟩

/-! ### Serving -/

theorem stays_sendEvents (hl : l = .holding k h) (hs : h.sock = true) (n : ℕ) :
    Stays l (sendEvents k n) := by
  induction n with
  | zero => exact runs_stalled
  | succ n ih =>
    have hpop : Stays l (call (.popEvent k)) := runs_call ⟨h, hl⟩
    refine hpop.bind fun event => ?_
    split
    · exact (stays_send hl hs).bind fun _ => (stays_send hl hs).bind fun _ => ih
    · exact stays_ret ()

theorem stays_receiveBody (hl : l = .holding k h) (hs : h.sock = true) (n : ℕ) :
    Stays l (receiveBody k n) := by
  induction n with
  | zero => exact runs_stalled
  | succ n ih =>
    refine (stays_recv hl hs).bind fun r => stays_done.bind fun done => ?_
    split
    · exact stays_ret _
    · split
      · exact stays_ret _
      · exact ih

theorem stays_readPacketLoop (hl : l = .holding k h) (hs : h.sock = true) (n : ℕ)
    (success : Bool) : Stays l (readPacketLoop k n success) := by
  induction n generalizing success with
  | zero => exact runs_stalled
  | succ n ih =>
    refine (stays_sock hl).bind fun sock => ?_
    split
    · refine stays_done.bind fun done => ?_
      split
      · exact stays_ret _
      · refine (stays_recv hl hs).bind fun r => stays_done.bind fun done => ?_
        split
        · exact stays_ret _
        · split
          · exact stays_ret _
          · refine (stays_receiveBody hl hs n).bind fun received => ?_
            split <;> exact stays_ret _
          · exact ih true
          · exact (stays_sendEvents hl hs n).bind fun _ => (stays_field hl).bind fun _ => ih _
    · exact stays_ret _

theorem stays_readPacket (hl : l = .holding k h) (hs : h.sock = true) (n : ℕ) :
    Stays l (readPacket k n) := by
  refine stays_done.bind fun done => ?_
  split
  · exact stays_ret _
  · exact stays_readPacketLoop hl hs n true

theorem stays_apiExec (hl : l = .holding k h) (hs : h.sock = true) : Stays l (apiExec k) := by
  refine (stays_isRunning hl).bind fun running => ?_
  split
  · have hlock : Stays l (call (.tryrdlock k)) := runs_call ⟨h, hl⟩
    refine hlock.bind fun locked => ?_
    split
    · exact (stays_send hl hs).bind fun _ => (stays_send hl hs).bind fun _ => stays_field hl
    · exact stays_ret ()
  · exact stays_ret ()

/-- What a thread owns while it serves its connection. -/
def served (running : Bool) (member : Member) : Hold where
  fields := { sock := true, pool := true, threadPool := true, isRunning := running }
  sock := true
  pool := true
  threadPool := true
  fresh := false
  member := member

/-- The thread serves its connection, which is in the list. -/
def Serves (l : Local) (k : Conn) : Prop := ∃ running, l = .holding k (served running .listed)

theorem runs_parseCommand (hl : Serves l k) : Runs l (parseCommand k) fun l' _ => Serves l' k := by
  obtain ⟨running, hl⟩ := hl
  have hcommand : Stays l (call .command) := runs_call trivial
  refine hcommand.bind fun command => ?_
  cases command with
  | exit =>
    refine (runs_call (c := .setRunning k false) ⟨_, hl⟩).bind ?_
    rintro l' _ hl'
    exact runs_ret ⟨false, hl' _ hl⟩
  | api => exact (stays_apiExec hl rfl).bind fun _ => runs_ret ⟨running, hl⟩
  | answered => exact (stays_field hl).bind fun _ => runs_ret ⟨running, hl⟩
  | silent => exact runs_ret ⟨running, hl⟩

theorem runs_serve (hl : Serves l k) (n : ℕ) : Runs l (serve k n) fun l' _ => Serves l' k := by
  induction n generalizing l with
  | zero => exact runs_stalled
  | succ n ih =>
    obtain ⟨running, hl'⟩ := id hl
    have hready : Stays l (call .ready) := runs_call trivial
    refine stays_done.bind fun done => ?_
    split
    · exact runs_ret hl
    · refine hready.bind fun ready => ?_
      split
      · refine (stays_isRunning hl').bind fun running => ?_
        split
        · refine (stays_readPacket hl' rfl n).bind fun packet => ?_
          split
          · exact runs_ret hl
          · exact ih hl
          · refine (runs_parseCommand hl).bind ?_
            rintro l₁ reply hl₁
            obtain ⟨running, hl₁'⟩ := id hl₁
            split
            · exact (stays_send hl₁' rfl).bind fun _ => ih hl₁
            · exact ih hl₁
        · exact runs_ret hl
      · exact runs_ret hl

/-! ### Teardown -/

theorem stays_sendDisconnect (hl : l = .holding k h) (hs : h.sock = true) :
    Stays l (sendDisconnect k) := by
  refine (stays_sock hl).bind fun sock => ?_
  split
  · refine (stays_send hl hs).bind fun sent => ?_
    split
    · exact (stays_send hl hs).bind fun _ => stays_ret ()
    · exact stays_ret ()
  · exact stays_ret ()

/-- The socket is closed, and the field is cleared. -/
theorem runs_closeSocket (hs : h.sock = true) (hf : h.fields.sock = true) :
    Runs (.holding k h) (closeSocket k) fun l' _ =>
      l' = .holding k { h with fields := { h.fields with sock := false }, sock := false } := by
  refine stays_lock.bind fun _ => ?_
  refine (runs_call (c := .sock k) ⟨h, rfl⟩).bind ?_
  rintro _ sock ⟨rfl, hsock⟩
  rw [hsock h rfl, hf, if_pos rfl]
  have hshutdown : Stays (.holding k h) (call (.shutdown k)) := runs_call ⟨h, rfl, hs⟩
  refine hshutdown.bind fun _ => ?_
  refine (runs_call (c := .close k) ⟨h, rfl, hs⟩).bind ?_
  rintro l₁ _ hl₁
  obtain rfl := hl₁ h rfl
  refine (runs_call (c := .clearSock k) ⟨_, rfl⟩).bind ?_
  rintro l₂ _ hl₂
  obtain rfl := hl₂ _ rfl
  exact stays_unlock

/-- A pool whose field is set is handed over, and the field is cleared. -/
theorem runs_destroyPoolField (k : Conn) (h : Hold) (kind : Kind) (hkind : kind ≠ .sock)
    (hown : h.owns kind = true) (hf : h.fields.poolField kind = true) :
    Runs (.holding k h) (destroyPoolField k kind) fun l' _ =>
      l' = .holding k { h.drop kind with fields := h.fields.clearPool kind } := by
  refine (runs_call (c := .poolField k kind) ⟨h, rfl⟩).bind ?_
  rintro _ set ⟨rfl, hset⟩
  rw [hset h rfl, hf, if_pos rfl]
  refine (runs_call (c := .destroyPool k kind) (Or.inr ⟨h, rfl, hown, hkind⟩)).bind ?_
  rintro l₁ _ ⟨-, hl₁⟩
  obtain rfl := hl₁ h rfl
  refine (runs_call (c := .clearPool k kind) ⟨_, rfl⟩).bind ?_
  rintro l₂ _ hl₂
  obtain rfl := hl₂ _ rfl
  refine runs_ret ?_
  cases kind <;> rfl

/-- A connection whose socket is closed gives up its pools and its record. -/
theorem runs_releaseConnection (hs : h.sock = false) (hm : h.member ≠ .listed)
    (hpool : h.pool = true) (hfpool : h.fields.pool = true)
    (hthread : h.fields.threadPool = h.threadPool) :
    Runs (.holding k h) (releaseConnection k) fun l' _ => l' = .idle := by
  refine (stays_field rfl).bind fun _ => (stays_field rfl).bind fun _ => ?_
  refine (runs_call (c := .poolField k .pool) ⟨h, rfl⟩).bind ?_
  rintro _ set ⟨rfl, hset⟩
  obtain rfl : set = true := (hset h rfl).trans hfpool
  rw [if_pos rfl]
  refine (runs_destroyPoolField k h .pool (by simp) hpool hfpool).bind ?_
  rintro _ _ rfl
  refine (runs_call (c := .poolField k .threadPool) ⟨_, rfl⟩).bind ?_
  rintro _ set ⟨rfl, hset⟩
  have hset : set = h.threadPool := (hset _ rfl).trans hthread
  -- the pool of the thread is given up if there is one; the record lies in the other pool
  by_cases hthreadPool : h.threadPool = true
  · rw [hset, if_pos hthreadPool]
    have hown : Hold.owns { h.drop .pool with fields := h.fields.clearPool .pool } .threadPool =
        true := hthreadPool
    have hset := hthread.trans hthreadPool
    refine (runs_destroyPoolField k _ .threadPool (by simp) hown hset).bind ?_
    rintro _ _ rfl
    refine runs_call ⟨_, rfl, fun kind => ?_, hm⟩
    cases kind
    · exact hs
    · rfl
    · rfl
  · rw [hset, if_neg hthreadPool]
    refine runs_call ⟨_, rfl, fun kind => ?_, hm⟩
    cases kind
    · exact hs
    · rfl
    · exact Bool.eq_false_iff.mpr hthreadPool

/-! ### The tasks -/

theorem runs_connectionRun (k : Conn) (rounds : ℕ) :
    Runs (.holding k (served false .before)) (connectionRun k rounds) fun l' _ => l' = .idle := by
  have hinc : Stays (.holding k (served false .before)) (call .incThreads) := runs_call trivial
  have hopt : Stays (.holding k (served false .before)) (call (.optSet k)) :=
    runs_call ⟨_, rfl, rfl⟩
  refine hinc.bind fun _ => hopt.bind fun _ => hopt.bind fun _ => ?_
  refine (runs_call (c := .setRunning k true) ⟨_, rfl⟩).bind ?_
  rintro l₁ _ hl₁
  obtain rfl := hl₁ _ rfl
  refine (runs_call (c := .addConn k) ⟨_, rfl, rfl⟩).bind ?_
  rintro l₂ _ hl₂
  obtain rfl := hl₂ _ rfl
  refine (runs_serve ⟨true, rfl⟩ rounds).bind ?_
  -- the loop is left, and the connection is torn down
  rintro _ _ ⟨running, rfl⟩
  refine (stays_sendDisconnect rfl rfl).bind fun _ => ?_
  refine (runs_call (c := .removeConn k) ⟨_, rfl, rfl⟩).bind ?_
  rintro l₃ _ hl₃
  obtain rfl := hl₃ _ rfl
  refine (runs_closeSocket rfl rfl).bind ?_
  rintro _ _ rfl
  refine (runs_releaseConnection rfl (by simp) rfl rfl rfl).bind ?_
  rintro _ _ rfl
  exact runs_call trivial

theorem runs_acceptRound (k : Conn) (rounds : ℕ) :
    Runs .idle (acceptRound k rounds) fun l' _ => l' = .idle := by
  refine (runs_call (c := .nextRound k) rfl).bind ?_
  rintro l₁ goesOn hl₁
  cases goesOn with
  | false =>
    obtain rfl : l₁ = .idle := hl₁
    exact stays_ret ()
  | true =>
    obtain rfl : l₁ = .round k := hl₁
    rw [if_pos rfl]
    refine (runs_call (c := .createPool k) rfl).bind ?_
    rintro _ _ rfl
    refine (runs_call (c := .accept k) rfl).bind ?_
    rintro l₂ accepted hl₂
    cases accepted with
    | false =>
      obtain rfl : l₂ = .pooled k := hl₂
      -- nobody connects: the pool of the round is destroyed
      refine (runs_call (c := .destroyPool k .pool) (Or.inl ⟨rfl, rfl⟩)).bind ?_
      rintro l₃ _ ⟨hl₃, -⟩
      obtain rfl := hl₃ rfl
      exact runs_call trivial
    | true =>
      obtain rfl : l₂ = .accepted k := hl₂
      rw [if_pos rfl]
      refine (runs_call (c := .newRecord k) rfl).bind ?_
      rintro _ _ rfl
      refine Stays.bind (runs_call (c := .addrGet k) ⟨_, rfl⟩) fun addr => ?_
      split
      · refine (runs_call (c := .createThreadPool k) ⟨_, rfl, rfl⟩).bind ?_
        rintro l₄ _ hl₄
        obtain rfl := hl₄ _ rfl
        refine (runs_call (c := .createThread k) ⟨_, rfl⟩).bind ?_
        rintro _ created ⟨rfl, rfl⟩
        rw [if_pos rfl]
        exact runs_connectionRun k rounds
      · -- the connection is torn down by the accept loop
        refine (runs_closeSocket rfl rfl).bind ?_
        rintro _ _ rfl
        refine (runs_releaseConnection rfl (by simp) rfl rfl rfl).bind ?_
        rintro _ _ rfl
        exact runs_call trivial

theorem stays_killConnections : Stays l killConnections := by
  refine stays_lock.bind fun _ => ?_
  refine (runs_call (c := .connections) trivial).bind ?_
  rintro _ _ ⟨rfl, rfl⟩
  exact stays_unlock

theorem stays_waitThreads (n : ℕ) : Stays l (waitThreads n) := by
  induction n with
  | zero => exact stays_ret ()
  | succ n ih =>
    have hthreads : Stays l (call .threads) := runs_call trivial
    refine hthreads.bind fun threads => ?_
    split
    · exact stays_killConnections.bind fun _ => ih
    · exact stays_ret ()

/-- The threads make only calls that are allowed, and end with nothing. -/
theorem Task.body_safe (task : Task) : Runs .idle task.body fun l' _ => l' = .idle := by
  cases task with
  | connection k rounds => exact runs_acceptRound k rounds
  | shutdown =>
    have hdone : Stays .idle (call .setDone) := runs_call trivial
    exact hdone.bind fun _ => stays_killConnections.bind fun _ => stays_waitThreads 200
  | reap => exact runs_call trivial

end Runs

/-! ## Runs -/

theorem owned_init : Owned {} fun _ => .idle := by
  refine ⟨sound_nil, fun _ _ hk => (by cases hk), fun k => ⟨fun _ h => (by cases h),
    fun _ h => (by cases h), fun _ h => absurd h not_live_nil, fun _ h => (by cases h),
    fun _ => rfl, ?_, fun h => (by cases h), ?_⟩, fun k _ => ⟨rfl, ?_, ?_, ?_⟩, ⟨?_, ?_⟩, ?_⟩
  · simp [Local.member]
  all_goals simp

/-- The step is in order after the steps before it. -/
def OrderlyAfter (pre : List Label) (lab : Label) : Prop := ∀ g ∈ run pre, g.Meets Orderly lab

instance (pre : List Label) : DecidablePred (OrderlyAfter pre) := fun lab =>
  inferInstanceAs (Decidable (∀ g ∈ run pre, g.Meets Orderly lab))

/-- Every thread has returned, and the memory manager has nothing left to destroy. -/
def Ended (g : Config) : Prop := (∀ t, g.thread t = none) ∧ g.state.poolQueue = []

/-- The threads of an orderly run own what fits together, and what they have left to do is safe. -/
theorem run_sound {labs : List Label} {g : Config} (h : run labs = some g)
    (hord : Throughout OrderlyAfter labs) :
    System.Sound (fun _ l c _ => Allowed l c) After .idle Owned g := by
  have hrun := System.run_restrict h hord
  refine System.Sound.run (S := system.restrict Orderly) Task.body_safe (fun _ => ?_) ?_ hrun
  · intro s l t o c next r s' ho ha hr
    simp only [System.restrict] at hr
    split at hr
    · rename_i hc
      exact respond_keeps ho ha hc hr
    · cases hr
  · exact ⟨fun _ => .idle, owned_init, fun _ _ => rfl, fun t i p ht => (by cases ht)⟩

/-- In a run in which the shutdown finds no connection in the list, no pool is destroyed under a
record that is still in use, and threads can be created: nothing is closed or destroyed twice or
used afterwards, the list has the connections between `add_conn` and `remove_conn`, and in the end
every socket is closed and every pool destroyed. -/
theorem teardown_orderly (labs : List Label) (g : Config) (h : run labs = some g)
    (hord : Throughout OrderlyAfter labs) :
    (∀ x, g.state.log.count (.free x) ≤ 1) ∧
    (∀ x before after, g.state.log = before ++ .free x :: after → .use x ∉ after) ∧
    (g.state.connections.Nodup ∧ ∀ k, k ∈ g.state.connections ↔
      .added k ∈ g.state.marks ∧ .removed k ∉ g.state.marks) ∧
    (Ended g → ∀ x, .alloc x ∈ g.state.log → g.state.log.count (.free x) = 1) := by
  obtain ⟨l, ho, hidle, -⟩ := run_sound h hord
  have hsound := ho.sound
  refine ⟨hsound.count_free_le_one, ?_, ⟨ho.nodup, fun k => (ho.fits k).between⟩, ?_⟩
  · rintro x before after hlog
    rw [hlog] at hsound
    exact hsound.not_mem_of_free.1
  · rintro ⟨hthreads, hqueue⟩ ⟨k, kind⟩ hmade
    refine hsound.count_free_eq_one hmade fun hlive => ?_
    -- what is live belongs to a thread or is in the queue
    rcases (ho.fits k).covered kind hlive with hown | hq
    · rw [hidle k (hthreads k)] at hown
      cases hown
    · rw [hqueue] at hq
      cases hq

/-- A connection that the client ends, then the shutdown. -/
theorem teardown_orderly_exit :
    let labs : List Label := [.start 0 (.connection 0 5)] ++
      List.replicate 49 (.step 0 { received := .packet, command := .exit }) ++
      [.start 1 .reap, .step 1 {}, .step 1 {}, .start 1 .reap, .step 1 {}, .step 1 {},
        .start 1 .shutdown] ++ List.replicate 6 (.step 1 {})
    ∃ g, run labs = some g ∧ Throughout OrderlyAfter labs ∧ Ended g ∧
      .alloc (0, .sock) ∈ g.state.log ∧ g.state.log.count (.free (0, .sock)) = 1 ∧
      g.state.log.count (.free (0, .pool)) = 1 := by
  intro labs
  have hrun : (run labs).map (fun g => ((g.thread 0).isNone, (g.thread 1).isNone,
      g.state.poolQueue.length, g.state.log.count (.alloc (0, .sock)),
      g.state.log.count (.alloc (0, .pool)))) = some (true, true, 0, 1, 1) := by
    decide +kernel
  obtain ⟨g, hg, hends⟩ := Option.map_eq_some_iff.mp hrun
  simp only [Prod.mk.injEq] at hends
  obtain ⟨h0, h1, hqueue, hsock, hpool⟩ := hends
  have hord : Throughout OrderlyAfter labs := by
    rw [throughout_iff_getElem]
    decide +kernel
  have hended : Ended g := by
    refine ⟨fun t => ?_, List.eq_nil_of_length_eq_zero hqueue⟩
    by_cases ht0 : t = 0
    · rw [ht0]
      exact Option.isNone_iff_eq_none.mp h0
    by_cases ht1 : t = 1
    · rw [ht1]
      exact Option.isNone_iff_eq_none.mp h1
    · refine System.thread_of_run hg fun lab hlab => ?_
      have hthread : ∀ lab ∈ labs, lab.thread = 0 ∨ lab.thread = 1 := by
        decide +kernel
      rcases hthread lab hlab with h | h
      · rw [h]
        exact ht0
      · rw [h]
        exact ht1
  have hmade : .alloc (0, .sock) ∈ g.state.log := List.count_pos_iff.mp (by omega)
  have hteardown := (teardown_orderly labs g hg hord).2.2.2 hended
  exact ⟨g, hg, hord, hended, hmade, hteardown _ hmade,
    hteardown _ (List.count_pos_iff.mp (by omega))⟩

/-- The shutdown finds a connection in the list and closes its socket in each of its rounds. A pool
that is destroyed at once is gone when the record in it is used again. -/
theorem teardown_disorderly :
    (∃ g, run ([.start 0 (.connection 0 5)] ++ List.replicate 12 (.step 0 {}) ++
        [.start 1 .shutdown] ++ List.replicate 22 (.step 1 {})) = some g ∧
      g.state.log.count (.free (0, .sock)) = 2) ∧
    ∃ g, run ([.start 0 (.connection 0 5)] ++ List.replicate 49
        (.step 0 { received := .packet, command := .exit, inline := true })) = some g ∧
      .use (0, .pool) ∈ g.state.log.dropWhile (· ≠ .free (0, .pool)) := by
  constructor
  · have hcount : ∀ r : Option Config,
        r.map (fun g => g.state.log.count (.free (0, .sock))) = some 2 →
        ∃ g, r = some g ∧ g.state.log.count (.free (0, .sock)) = 2 :=
      fun r hr => Option.map_eq_some_iff.mp hr
    exact hcount _ (by decide +kernel)
  · -- the run is looked at through a test, which can be evaluated
    have htest : ∀ r : Option Config,
        r.map (fun g => decide (.use (0, .pool) ∈ g.state.log.dropWhile (· ≠ .free (0, .pool)))) =
          some true →
        ∃ g, r = some g ∧ .use (0, .pool) ∈ g.state.log.dropWhile (· ≠ .free (0, .pool)) := by
      intro r hr
      obtain ⟨g, hg, huse⟩ := Option.map_eq_some_iff.mp hr
      exact ⟨g, hg, of_decide_eq_true huse⟩
    exact htest _ (by decide +kernel)

end EventServer
