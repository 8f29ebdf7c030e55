import AgcFramework.Lib.Places
import AgcFramework.Redis.Model

/-!
# The pool of Redis connections

Threads run the cache operations over one queue of connections. The environment answers the calls:
the queue and the fields of a connection are kept, contexts are made and freed, and the client
library may answer anything.

A thread that has taken a connection from the queue owns it and the contexts that only it can
reach, until it puts the connection back. The local states say what a thread owns, and which calls
it may make with it.

## Main definitions

* `State`, `Outcome`, `respond`: the environment
* `Local`, `Allowed`, `After`: what a thread owns, and how its calls change it
* `Inv`: what the threads own fits together

## Main results

* `respond_keeps`: the calls that are allowed keep the invariant
-/

open Places

namespace Redis

/-! ## The environment -/

/-- The state of the module. What `redisClusterContextInit` has returned is numbered. -/
structure State where
  /-- `SYSTEM_RUNNING`. -/
  running : Bool := true
  /-- `REDIS_CONTEXT_QUEUE`. -/
  queue : List Conn := []
  /-- The connections, of which the first `allocated` exist. -/
  conn : Conn → Connection := fun _ => {}
  allocated : ℕ := 0
  /-- The contexts that are made and not freed, of the first `contexts`. -/
  live : Context → Bool := fun _ => false
  contexts : ℕ := 0
  /-- The time in microseconds, and the time the timer thread has stored. -/
  clock : ℕ := 0
  currentTime : ℕ := 0
  /-- The connections each thread has taken from the queue or allocated, and those it has put into
  the queue, in order. -/
  obtained : ℕ → List Conn := fun _ => []
  putBack : ℕ → List Conn := fun _ => []

/-- The connections a thread has and has not put back. -/
def State.held (s : State) (t : ℕ) : List Conn := (s.obtained t).diff (s.putBack t)

/-- Where connections are: in the queue, or with a thread. -/
def State.places (s : State) : Option ℕ → List Conn
  | none => s.queue
  | some t => s.held t

/-- What can happen at a call. -/
structure Outcome where
  /-- Whether `redisClusterContextInit` returns a context. -/
  made : Bool := true
  /-- The error flag of a context. -/
  err : Bool := false
  /-- Whether a command is appended, or a reply got, with `REDIS_OK`. -/
  ok : Bool := true
  /-- The reply, and what is read from a reply. -/
  reply : Option Reply := none
  type : ReplyType := .status
  str : Option (List Byte) := none
  integer : ℤ := 0
  /-- Whether errors are logged. -/
  logged : Bool := true
  /-- The time that has passed, and whether the timer thread has stored the time. -/
  elapsed : ℕ := 0
  refreshed : Bool := false

/-- The answer to a use of a context. -/
def Outcome.use (o : Outcome) : (u : Use) → u.Answer
  | .err => o.err
  | .appendCommand _ => o.ok
  | .command _ => o.reply
  | .commandArgv _ => o.reply
  | .getReply => if o.ok then .ok o.reply else .failed o.err
  | .setOptionAddNodes | .setOptionRouteUseSlots | .connect2 | .errstr | .reset => ()

/-- `agc_timer_curtime`: the stored time, or the time if none is stored yet. -/
def State.curtime (s : State) (o : Outcome) : ℕ :=
  if o.refreshed ∨ s.currentTime = 0 then s.clock + o.elapsed else s.currentTime

/-- The answer to a call and the state after it. A push into a full queue waits, and a thread that
faults makes no further step. -/
def respond (s : State) (t : ℕ) (o : Outcome) : (c : Call) → Option (c.Answer × State)
  | .systemRunning => some (s.running, s)
  | .allocConnection => some (s.allocated, { s with
      allocated := s.allocated + 1
      conn := Function.update s.conn s.allocated {}
      obtained := Function.update s.obtained t (s.obtained t ++ [s.allocated]) })
  | .trypop =>
    match s.queue with
    | [] => some (none, s)
    | c :: queue => some (some c, { s with
        queue
        obtained := Function.update s.obtained t (s.obtained t ++ [c]) })
  | .push c =>
    if s.queue.length < 2 * maxPoolConnections then
      some ((), { s with
        queue := s.queue ++ [c]
        putBack := Function.update s.putBack t (s.putBack t ++ [c]) })
    else none
  | .read c => some (s.conn c, s)
  | .write c value => some ((), { s with conn := Function.update s.conn c value })
  | .timeNow => some (s.clock + o.elapsed, { s with clock := s.clock + o.elapsed })
  | .curtime => some (s.curtime o, { s with
      clock := s.clock + o.elapsed
      currentTime := s.curtime o })
  | .contextInit =>
    if o.made then
      some (some s.contexts, { s with
        contexts := s.contexts + 1
        live := Function.update s.live s.contexts true })
    else some (none, s)
  | .use _ u => some (o.use u, s)
  | .freeContext none => some ((), s)
  | .freeContext (some x) => some ((), { s with live := Function.update s.live x false })
  | .replyType _ => some (o.type, s)
  | .replyStr _ => some (o.str, s)
  | .replyInteger _ => some (o.integer, s)
  | .replyElement _ _ => some (o.str, s)
  | .freeReply _ => some ((), s)
  | .logsErrors => some (o.logged, s)
  | .fault => none

/-- The threads run the operations. -/
def system : System Op ℕ State Outcome Call Call.Answer Result where
  body := Op.body
  respond := respond

/-- The state and the programs of the threads. -/
abbrev Config := System.Config Op ℕ State Call Call.Answer Result

/-- A step of a thread. -/
abbrev Label := System.Label Op ℕ Outcome

/-- The module is loaded in a thread of its own, from a fresh state; then the threads run. -/
def run (n : ℕ) (load : List Outcome) (ls : List Label) : Option Config :=
  ((initialConnectionPool n).exec (respond · 0) {} load).bind fun (_, s) =>
    system.run { state := s, thread := fun _ => none } ls

/-! ## What a thread owns -/

/-- `connected` says whether there is a context. -/
def Connection.Wf (v : Connection) : Prop := v.connected = true ↔ v.cc.isSome = true

/-- What a thread owns. -/
inductive Local
  /-- Nothing. -/
  | free
  /-- The connection `c` with the fields `v`, and the contexts that only the thread can reach. -/
  | holding (c : Conn) (v : Connection) (own : List Context)

def Local.conns : Local → List Conn
  | free => []
  | holding c _ _ => [c]

/-- The thread holds the connection and owns its context. -/
def Local.Holds (l : Local) (c : Conn) (v : Connection) : Prop :=
  l = .holding c v v.cc.toList ∧ v.Wf

/-- The calls a thread may make with what it owns. -/
def Allowed (l : Local) : Call → Prop
  | .allocConnection => l = .free
  | .trypop => l = .free
  | .push c => ∃ v, l.Holds c v
  | .read c => ∃ v own, l = .holding c v own
  | .write c value => (∃ v own, l = .holding c v own) ∧ value.Wf
  | .curtime => ∃ c v, l.Holds c v ∧ v.connected = false
  | .contextInit => ∃ c v own, l = .holding c v own
  | .use cc _ => ∃ c v own x, l = .holding c v own ∧ cc = some x ∧ x ∈ own
  | .freeContext cc => ∃ c v own x, l = .holding c v own ∧ cc = some x ∧ x ∈ own
  | _ => True

/-- What the thread owns after a call with the given answer. -/
def After (l : Local) : (c : Call) → c.Answer → Local → Prop
  | .systemRunning, r, l' => r = true ∧ l' = l
  | .allocConnection, c, l' => l'.Holds c {}
  | .trypop, r, l' => (r = none ∧ l' = l) ∨ ∃ c v, r = some c ∧ l'.Holds c v
  | .push _, _, l' => l' = .free
  | .read _, r, l' => l' = l ∧ ∀ c v own, l = .holding c v own → r = v
  | .write _ value, _, l' => ∀ c v own, l = .holding c v own → l' = .holding c value own
  | .contextInit, r, l' => ∀ c v own, l = .holding c v own → l' = .holding c v (r.toList ++ own)
  | .freeContext cc, _, l' => ∀ c v own x, l = .holding c v own → cc = some x →
      l' = .holding c v (own.erase x)
  | _, _, l' => l' = l

/-! ## The invariant -/

/-- Where connections are, by what the threads own. -/
def spots (s : State) (l : ℕ → Local) : Option ℕ → List Conn
  | none => s.queue
  | some t => (l t).conns

/-- What the threads own fits together. Each context that is in use belongs to a connection, so that
a thread that owns a connection is the only one to reach its contexts. -/
structure Owned (owner : Context → Option Conn) (s : State) (l : ℕ → Local) : Prop where
  running : s.running = true
  ledger : ∀ t, s.obtained t = s.putBack t ++ (l t).conns
  placed : ∀ c < s.allocated, ExactlyOnce (spots s l) c
  allocated : ∀ p, ∀ c ∈ spots s l p, c < s.allocated
  queued : ∀ c ∈ s.queue, (s.conn c).Wf ∧
    ∀ x ∈ (s.conn c).cc, s.live x = true ∧ owner x = some c
  holding : ∀ t c v own, l t = .holding c v own → s.conn c = v ∧ v.Wf ∧ own.Nodup ∧
    ∀ x ∈ own, s.live x = true ∧ owner x = some c
  fresh : ∀ x, s.contexts ≤ x → owner x = none

/-- The invariant of the environment. -/
def Inv (s : State) (l : ℕ → Local) : Prop := ∃ owner, Owned owner s l

theorem diff_self_append (as bs : List Conn) : (as ++ bs).diff as = bs := by
  induction as with
  | nil => rfl
  | cons a as ih =>
    rw [List.cons_append, List.diff_cons, List.erase_cons_head]
    exact ih

section Owned

variable {owner : Context → Option Conn} {s : State} {l : ℕ → Local} {t u : ℕ} {c : Conn}
  {v v' : Connection} {own own' : List Context}

theorem Owned.held_eq (h : Owned owner s l) (t : ℕ) : s.held t = (l t).conns := by
  rw [State.held, h.ledger t, diff_self_append]

theorem Owned.places_eq (h : Owned owner s l) : s.places = spots s l := by
  funext p
  cases p with
  | none => rfl
  | some t => exact h.held_eq t

/-- A connection that a thread holds is nowhere else. -/
theorem Owned.at_thread (h : Owned owner s l) (ht : l t = .holding c v own) :
    At (spots s l) c (some t) := by
  have hmem : c ∈ spots s l (some t) := by
    show c ∈ (l t).conns
    rw [ht]
    exact List.mem_singleton_self c
  obtain ⟨p, hp⟩ := h.placed c (h.allocated (some t) c hmem)
  rw [hp.eq_of_mem hmem]
  exact hp

theorem Owned.notMem_queue (h : Owned owner s l) (ht : l t = .holding c v own) : c ∉ s.queue :=
  (h.at_thread ht).nowhere none (by simp)

theorem Owned.holder_unique (h : Owned owner s l) (ht : l t = .holding c v own)
    (hu : l u = .holding c v' own') : u = t := by
  have hmem := (h.at_thread hu).mem
  exact Option.some.inj ((h.at_thread ht).eq_of_mem hmem)

/-- Only a thread's own part of the picture changes with what it owns. -/
theorem spots_update_of_ne (s : State) (l : ℕ → Local) (l' : Local) {p : Option ℕ}
    (hp : p ≠ some t) : spots s (Function.update l t l') p = spots s l p := by
  cases p with
  | none => rfl
  | some u =>
    have hut : u ≠ t := fun h => hp (congrArg some h)
    simp only [spots, Function.update_of_ne hut]

theorem spots_update_self (s : State) (l : ℕ → Local) (l' : Local) :
    spots s (Function.update l t l') (some t) = l'.conns := by
  simp only [spots, Function.update_self]

/-- The fields of a thread's connection and its contexts change, not the connection. -/
theorem spots_update_holding (s : State) (ht : l t = .holding c v own) (v' : Connection)
    (own' : List Context) :
    spots s (Function.update l t (.holding c v' own')) = spots s l := by
  funext p
  by_cases hp : p = some t
  · rw [hp, spots_update_self]
    simp only [spots, ht, Local.conns]
  · exact spots_update_of_ne s l _ hp

/-- The ledgers of the threads when one of them changes what it owns. -/
theorem Owned.ledger_update {s' : State} {l' : Local} (h : Owned owner s l)
    (hobtained : ∀ u, u ≠ t → s'.obtained u = s.obtained u)
    (hputBack : ∀ u, u ≠ t → s'.putBack u = s.putBack u)
    (hself : s'.obtained t = s'.putBack t ++ l'.conns) (u : ℕ) :
    s'.obtained u = s'.putBack u ++ (Function.update l t l' u).conns := by
  by_cases hut : u = t
  · rw [hut, Function.update_self]
    exact hself
  · rw [Function.update_of_ne hut, hobtained u hut, hputBack u hut]
    exact h.ledger u

/-- A thread changes the connection it holds and the contexts it owns. The contexts of the other
connections are not touched. -/
theorem Owned.change {owner' : Context → Option Conn} {s' : State} (h : Owned owner s l)
    (ht : l t = .holding c v own) (hrunning : s'.running = s.running) (hqueue : s'.queue = s.queue)
    (hallocated : s'.allocated = s.allocated) (hobtained : s'.obtained = s.obtained)
    (hputBack : s'.putBack = s.putBack) (hconn : ∀ c', c' ≠ c → s'.conn c' = s.conn c')
    (hother : ∀ x c', c' ≠ c → s.live x = true ∧ owner x = some c' →
      s'.live x = true ∧ owner' x = some c')
    (hself : s'.conn c = v' ∧ v'.Wf ∧ own'.Nodup ∧ ∀ x ∈ own', s'.live x = true ∧ owner' x = some c)
    (hfresh : ∀ x, s'.contexts ≤ x → owner' x = none) :
    Owned owner' s' (Function.update l t (.holding c v' own')) := by
  -- every connection stays where it is
  have hspots : spots s' (Function.update l t (.holding c v' own')) = spots s l := by
    rw [← spots_update_holding s ht v' own']
    funext p
    cases p with
    | none => exact hqueue
    | some u => rfl
  refine ⟨hrunning.trans h.running, ?_, ?_, ?_, fun c' hc' => ?_, fun u c' w own₁ hu => ?_, hfresh⟩
  · refine h.ledger_update (fun u _ => congrFun hobtained u) (fun u _ => congrFun hputBack u) ?_
    rw [hobtained, hputBack, h.ledger t, ht]
    rfl
  · rw [hspots, hallocated]
    exact h.placed
  · rw [hspots, hallocated]
    exact h.allocated
  · -- the queued connections are not the held one
    rw [hqueue] at hc'
    have hne : c' ≠ c := fun heq => h.notMem_queue ht (heq ▸ hc')
    rw [hconn c' hne]
    exact ⟨(h.queued c' hc').1, fun x hx => hother x c' hne ((h.queued c' hc').2 x hx)⟩
  · by_cases hut : u = t
    · subst hut
      rw [Function.update_self] at hu
      injection hu with h₁ h₂ h₃
      subst h₁ h₂ h₃
      exact hself
    · rw [Function.update_of_ne hut] at hu
      -- another thread holds another connection
      have hne : c' ≠ c := by
        rintro rfl
        exact hut (h.holder_unique ht hu)
      obtain ⟨hv, hwf, hnd, hown⟩ := h.holding u c' w own₁ hu
      rw [hconn c' hne]
      exact ⟨hv, hwf, hnd, fun x hx => hother x c' hne (hown x hx)⟩

/-- The fields of a held connection are assigned. -/
theorem Owned.write (h : Owned owner s l) (ht : l t = .holding c v own) (hv' : v'.Wf) :
    Owned owner { s with conn := Function.update s.conn c v' }
      (Function.update l t (.holding c v' own)) := by
  obtain ⟨-, -, hnd, hown⟩ := h.holding t c v own ht
  refine h.change ht rfl rfl rfl rfl rfl (fun c' hne => ?_) (fun x c' _ hx => hx)
    ⟨?_, hv', hnd, hown⟩ h.fresh
  · exact Function.update_of_ne hne _ _
  · exact Function.update_self _ _ _

/-- A context is made for a held connection. -/
theorem Owned.contextInit (h : Owned owner s l) (ht : l t = .holding c v own) :
    Owned (Function.update owner s.contexts (some c))
      { s with contexts := s.contexts + 1, live := Function.update s.live s.contexts true }
      (Function.update l t (.holding c v (s.contexts :: own))) := by
  obtain ⟨hv, hwf, hnd, hown⟩ := h.holding t c v own ht
  -- the new context belonged to no connection
  have hne : ∀ x c', owner x = some c' → x ≠ s.contexts := by
    rintro x c' hx rfl
    rw [h.fresh s.contexts (Nat.le_refl _)] at hx
    simp at hx
  have hkeep : ∀ x c', s.live x = true ∧ owner x = some c' →
      Function.update s.live s.contexts true x = true ∧
        Function.update owner s.contexts (some c) x = some c' := by
    intro x c' hx
    rw [Function.update_of_ne (hne x c' hx.2), Function.update_of_ne (hne x c' hx.2)]
    exact hx
  refine h.change ht rfl rfl rfl rfl rfl (fun _ _ => rfl) (fun x c' _ => hkeep x c')
    ⟨hv, hwf, ?_, fun x hx => ?_⟩ (fun x hx => ?_)
  · exact List.nodup_cons.mpr ⟨fun hmem => hne _ c (hown _ hmem).2 rfl, hnd⟩
  · rcases List.mem_cons.mp hx with rfl | hx
    · exact ⟨Function.update_self _ _ _, Function.update_self _ _ _⟩
    · exact hkeep x c (hown x hx)
  · have hx : s.contexts + 1 ≤ x := hx
    have hne : x ≠ s.contexts := by omega
    rw [Function.update_of_ne hne]
    exact h.fresh x (by omega)

/-- A context that the thread owns is freed. -/
theorem Owned.freeContext (h : Owned owner s l) (ht : l t = .holding c v own) {x : Context}
    (hx : x ∈ own) : Owned owner { s with live := Function.update s.live x false }
      (Function.update l t (.holding c v (own.erase x))) := by
  obtain ⟨hv, hwf, hnd, hown⟩ := h.holding t c v own ht
  refine h.change ht rfl rfl rfl rfl rfl (fun _ _ => rfl) (fun y c' hne hy => ?_)
    ⟨hv, hwf, hnd.erase x, fun y hy => ?_⟩ h.fresh
  · -- the context belongs to `c`, so no other connection has it
    have hyx : y ≠ x := by
      rintro rfl
      rw [(hown y hx).2] at hy
      exact hne (Option.some.inj hy.2).symm
    refine ⟨?_, hy.2⟩
    show Function.update s.live x false y = true
    rw [Function.update_of_ne hyx]
    exact hy.1
  · obtain ⟨hyx, hy⟩ := (List.Nodup.mem_erase_iff hnd).mp hy
    refine ⟨?_, (hown y hy).2⟩
    show Function.update s.live x false y = true
    rw [Function.update_of_ne hyx]
    exact (hown y hy).1

/-- A thread that holds nothing takes the first connection of the queue. -/
theorem Owned.trypop {queue : List Conn} (h : Owned owner s l) (ht : l t = .free)
    (hq : s.queue = c :: queue) :
    Owned owner
      { s with queue, obtained := Function.update s.obtained t (s.obtained t ++ [c]) }
      (Function.update l t (.holding c (s.conn c) (s.conn c).cc.toList)) := by
  set s' : State := { s with queue, obtained := Function.update s.obtained t (s.obtained t ++ [c]) }
  set l' := Function.update l t (.holding c (s.conn c) (s.conn c).cc.toList)
  have hl_self : l' t = .holding c (s.conn c) (s.conn c).cc.toList := Function.update_self _ _ _
  have hl_ne : ∀ u, u ≠ t → l' u = l u := fun u hu => Function.update_of_ne hu _ _
  -- one connection moves from the queue to the thread
  have hmoved : Moved (spots s l) (spots s' l') c none (some t) := by
    refine ⟨by simp, ?_, ?_, fun p hp hpt => ?_⟩
    · show s.queue.Perm (c :: queue)
      rw [hq]
    · rw [spots_update_self]
      show [c].Perm (c :: (l t).conns)
      rw [ht]
      exact List.Perm.refl _
    · rw [spots_update_of_ne s' l _ hpt]
      cases p with
      | none => exact absurd rfl hp
      | some u => rfl
  have hc : c ∈ s.queue := hq ▸ List.mem_cons_self
  refine ⟨h.running, ?_, fun c' hc' => hmoved.exactlyOnce (h.placed c' hc'),
    fun p c' hc' => ?_, fun c' hc' => ?_, fun u c' w own₁ hu => ?_, h.fresh⟩
  · refine h.ledger_update (fun u hut => Function.update_of_ne hut _ _) (fun _ _ => rfl) ?_
    show Function.update s.obtained t (s.obtained t ++ [c]) t = s.putBack t ++ [c]
    rw [Function.update_self, h.ledger t, ht, List.append_assoc]
    rfl
  · obtain ⟨p', hp'⟩ := hmoved.mem_of_mem hc'
    exact h.allocated p' c' hp'
  · have hmem : c' ∈ s.queue := hq ▸ List.mem_cons_of_mem c hc'
    exact h.queued c' hmem
  · by_cases hut : u = t
    · rw [hut, hl_self] at hu
      injection hu with h₁ h₂ h₃
      subst h₁ h₂ h₃
      refine ⟨rfl, (h.queued c hc).1, ?_, fun x hx => (h.queued c hc).2 x (by simpa using hx)⟩
      cases (s.conn c).cc <;> simp
    · rw [hl_ne u hut] at hu
      exact h.holding u c' w own₁ hu

/-- A connection is put back with its context. -/
theorem Owned.push (h : Owned owner s l) (ht : (l t).Holds c v) :
    Owned owner
      { s with
        queue := s.queue ++ [c]
        putBack := Function.update s.putBack t (s.putBack t ++ [c]) }
      (Function.update l t .free) := by
  obtain ⟨ht, hwf⟩ := ht
  obtain ⟨hv, -, -, hown⟩ := h.holding t c v _ ht
  set s' : State := { s with
    queue := s.queue ++ [c]
    putBack := Function.update s.putBack t (s.putBack t ++ [c]) }
  set l' := Function.update l t Local.free
  have hl_self : l' t = .free := Function.update_self _ _ _
  have hl_ne : ∀ u, u ≠ t → l' u = l u := fun u hu => Function.update_of_ne hu _ _
  -- one connection moves from the thread to the queue
  have hmoved : Moved (spots s l) (spots s' l') c (some t) none := by
    refine ⟨by simp, ?_, ?_, fun p hpt hp => ?_⟩
    · rw [spots_update_self]
      show (l t).conns.Perm [c]
      rw [ht]
      exact List.Perm.refl _
    · exact List.perm_append_singleton c s.queue
    · rw [spots_update_of_ne s' l _ hpt]
      cases p with
      | none => exact absurd rfl hp
      | some u => rfl
  refine ⟨h.running, ?_, fun c' hc' => hmoved.exactlyOnce (h.placed c' hc'),
    fun p c' hc' => ?_, fun c' hc' => ?_, fun u c' w own₁ hu => ?_, h.fresh⟩
  · refine h.ledger_update (fun _ _ => rfl) (fun u hut => Function.update_of_ne hut _ _) ?_
    show s.obtained t = Function.update s.putBack t (s.putBack t ++ [c]) t ++ []
    rw [Function.update_self, List.append_nil, h.ledger t, ht]
    rfl
  · obtain ⟨p', hp'⟩ := hmoved.mem_of_mem hc'
    exact h.allocated p' c' hp'
  · -- the context that the thread owned is the one of the connection
    rcases List.mem_append.mp hc' with hc' | hc'
    · exact h.queued c' hc'
    · rw [List.mem_singleton.mp hc']
      show (s.conn c).Wf ∧ _
      rw [hv]
      exact ⟨hwf, fun x hx => hown x (by simpa using hx)⟩
  · by_cases hut : u = t
    · rw [hut, hl_self] at hu
      cases hu
    · rw [hl_ne u hut] at hu
      exact h.holding u c' w own₁ hu

/-- A new connection is held by the thread that allocated it. -/
theorem Owned.alloc (h : Owned owner s l) (ht : l t = .free) :
    Owned owner
      { s with
        allocated := s.allocated + 1
        conn := Function.update s.conn s.allocated {}
        obtained := Function.update s.obtained t (s.obtained t ++ [s.allocated]) }
      (Function.update l t (.holding s.allocated {} [])) := by
  set s' : State := { s with
    allocated := s.allocated + 1
    conn := Function.update s.conn s.allocated {}
    obtained := Function.update s.obtained t (s.obtained t ++ [s.allocated]) }
  set l' := Function.update l t (.holding s.allocated {} [])
  have hl_self : l' t = .holding s.allocated {} [] := Function.update_self _ _ _
  have hl_ne : ∀ u, u ≠ t → l' u = l u := fun u hu => Function.update_of_ne hu _ _
  -- the new connection was in no place
  have hnew : ∀ p, s.allocated ∉ spots s l p := fun p hp => Nat.lt_irrefl _ (h.allocated p _ hp)
  have hother : ∀ p, p ≠ some t → spots s' l' p = spots s l p := fun p hp => by
    rw [spots_update_of_ne s' l _ hp]
    cases p <;> rfl
  have hself : spots s' l' (some t) = [s.allocated] := spots_update_self s' l _
  have hnil : spots s l (some t) = [] := by
    show (l t).conns = []
    rw [ht]
    rfl
  refine ⟨h.running, ?_, fun c' hc' => ?_, fun p c' hc' => ?_, fun c' hc' => ?_,
    fun u c' w own₁ hu => ?_, h.fresh⟩
  · refine h.ledger_update (fun u hut => Function.update_of_ne hut _ _) (fun _ _ => rfl) ?_
    show Function.update s.obtained t (s.obtained t ++ [s.allocated]) t =
      s.putBack t ++ [s.allocated]
    rw [Function.update_self, h.ledger t, ht, List.append_assoc]
    rfl
  · by_cases hnewc : c' = s.allocated
    · subst hnewc
      refine ⟨some t, ?_, fun p hp => ?_⟩
      · rw [hself]
        simp
      · rw [hother p hp]
        exact hnew p
    · have hlt : c' < s.allocated := by
        have hc' : c' < s.allocated + 1 := hc'
        omega
      -- the counts of the other connections have not changed
      refine (h.placed c' hlt).congr fun p => ?_
      by_cases hp : p = some t
      · rw [hp, hself, hnil, List.count_cons_of_ne (Ne.symm hnewc)]
      · rw [hother p hp]
  · show c' < s.allocated + 1
    by_cases hp : p = some t
    · rw [hp, hself] at hc'
      rw [List.mem_singleton.mp hc']
      exact Nat.lt_succ_self _
    · rw [hother p hp] at hc'
      exact Nat.lt_succ_of_lt (h.allocated p c' hc')
  · have hne : c' ≠ s.allocated := Nat.ne_of_lt (h.allocated none c' hc')
    show (Function.update s.conn s.allocated {} c').Wf ∧
      ∀ x ∈ (Function.update s.conn s.allocated {} c').cc, _
    rw [Function.update_of_ne hne]
    exact h.queued c' hc'
  · show Function.update s.conn s.allocated {} c' = w ∧ _
    by_cases hut : u = t
    · rw [hut, hl_self] at hu
      injection hu with h₁ h₂ h₃
      subst h₁ h₂ h₃
      rw [Function.update_self]
      refine ⟨rfl, ?_, List.nodup_nil, ?_⟩
      · simp [Connection.Wf]
      · simp
    · rw [hl_ne u hut] at hu
      have hmem := (h.at_thread hu).mem
      rw [Function.update_of_ne (Nat.ne_of_lt (h.allocated _ c' hmem))]
      exact h.holding u c' w own₁ hu

end Owned

/-- The passing of time is not seen. -/
theorem Owned.tick {owner : Context → Option Conn} {s : State} {l : ℕ → Local}
    (h : Owned owner s l) (clock currentTime : ℕ) :
    Owned owner { s with clock, currentTime } l :=
  ⟨h.running, h.ledger, h.placed, h.allocated, h.queued, h.holding, h.fresh⟩

/-- The calls that are allowed keep the invariant. -/
theorem respond_keeps {s s' : State} {l : ℕ → Local} {t : ℕ} {o : Outcome} {c : Call}
    {r : c.Answer} (h : Inv s l) (ha : Allowed (l t) c) (hr : respond s t o c = some (r, s')) :
    ∃ l', After (l t) c r l' ∧ Inv s' (Function.update l t l') := by
  obtain ⟨owner, h⟩ := h
  have hself : Owned owner s (Function.update l t (l t)) := by
    rw [Function.update_eq_self]
    exact h
  cases c with
  | systemRunning =>
    cases hr
    exact ⟨l t, ⟨h.running, rfl⟩, owner, hself⟩
  | allocConnection =>
    cases hr
    exact ⟨_, ⟨rfl, by simp [Connection.Wf]⟩, owner, h.alloc ha⟩
  | trypop =>
    simp only [respond] at hr
    split at hr
    · cases hr
      exact ⟨l t, Or.inl ⟨rfl, rfl⟩, owner, hself⟩
    · rename_i c queue hq
      cases hr
      have hc : c ∈ s.queue := hq ▸ List.mem_cons_self
      exact ⟨_, Or.inr ⟨c, s.conn c, rfl, rfl, (h.queued c hc).1⟩, owner, h.trypop ha hq⟩
  | push c =>
    obtain ⟨v, hv⟩ := ha
    simp only [respond] at hr
    split at hr
    · cases hr
      exact ⟨.free, rfl, owner, h.push hv⟩
    · simp at hr
  -- what a thread reads is what it holds, as nobody else has the connection
  | read c =>
    cases hr
    obtain ⟨v, own, hl⟩ := ha
    refine ⟨l t, ⟨rfl, fun c' v' own' hl' => ?_⟩, owner, hself⟩
    rw [hl] at hl'
    cases hl'
    exact (h.holding t c v own hl).1
  | write c value =>
    cases hr
    obtain ⟨⟨v, own, hl⟩, hwf⟩ := ha
    refine ⟨.holding c value own, fun c' v' own' hl' => ?_, owner, h.write hl hwf⟩
    rw [hl] at hl'
    cases hl'
    rfl
  | timeNow =>
    cases hr
    exact ⟨l t, rfl, owner, hself.tick _ _⟩
  | curtime =>
    cases hr
    exact ⟨l t, rfl, owner, hself.tick _ _⟩
  | contextInit =>
    obtain ⟨c, v, own, hl⟩ := ha
    simp only [respond] at hr
    split at hr
    · cases hr
      refine ⟨.holding c v (s.contexts :: own), fun c' v' own' hl' => ?_, _, h.contextInit hl⟩
      rw [hl] at hl'
      cases hl'
      rfl
    · cases hr
      refine ⟨l t, fun c' v' own' hl' => ?_, owner, hself⟩
      rw [hl']
      rfl
  | freeContext cc =>
    obtain ⟨c, v, own, x, hl, rfl, hx⟩ := ha
    cases hr
    refine ⟨.holding c v (own.erase x), fun c' v' own' y hl' hy => ?_, owner, h.freeContext hl hx⟩
    rw [hl] at hl'
    cases hl'
    cases hy
    rfl
  -- the calls on a context or a reply change nothing of the record
  | use | replyType | replyStr | replyInteger | replyElement | freeReply | logsErrors =>
    cases hr
    exact ⟨l t, rfl, owner, hself⟩
  | fault => exact r.elim

end Redis
