import AgcFramework.Lib.Ledger
import AgcFramework.Redis.Operations

/-!
# The shutdown of the Redis module

`mod_redis_shutdown` clears `SYSTEM_RUNNING` and empties the pool with `get_connection`, which gives
nothing any more: the contexts of the connections in the queue stay. An operation that is under way
frees its context itself, if it finds the module stopped when it is done with its connection.

The connections that such operations drop are in no place. For the invariant they are added to the
queue, where nobody takes them.

## Main definitions

* `destroyConnectionPool`: the loop of the shutdown
* `Module`, `Module.step`, `Module.run`: the operations and the shutdown, with the ledger of the
  contexts
* `Stage`, `MayCall`, `Then`: what a thread owns, also when it has found the module stopped
* `Module.Cleared`: no context is in the queue when the module is stopped, and none is put there

## Main results

* `Op.body_runs`: the operations make only calls that are allowed, whatever `SYSTEM_RUNNING` is
* `Module.contexts_freed`: contexts are freed once and not used afterwards; after the shutdown all
  of them are freed when the steps are `Cleared`
-/

open Places Ledger Trace

namespace Redis

/-! ## The module -/

/-- `destroy_connection_pool`, for the given number of rounds: whether the loop has ended. -/
def destroyConnectionPool : ℕ → Client Bool
  | 0 => return false
  | n + 1 => do
    match ← getConnection with
    | none => return true
    | some c =>
      releaseContext c
      destroyConnectionPool n

/-- What a call does to a context. -/
def Call.acts : (c : Call) → c.Answer → List (Act Context)
  | .contextInit, some x => [.alloc x]
  | .use (some x) _, _ => [.use x]
  | .freeContext (some x), _ => [.free x]
  | _, _ => []

/-- The environment with the ledger of the contexts. -/
abbrev Logged := State × List (Act Context)

def respondLogged (e : Logged) (t : ℕ) (o : Outcome) (c : Call) : Option (c.Answer × Logged) :=
  (respond e.1 t o c).map fun (r, s) => (r, s, e.2 ++ c.acts r)

/-- The threads run the operations. -/
def logged : System Op ℕ Logged Outcome Call Call.Answer Result where
  body := Op.body
  respond := respondLogged

/-- The module: the operations, and what `mod_redis_shutdown` has left to do once it is called. -/
structure Module where
  config : System.Config Op ℕ Logged Call Call.Answer Result
  shutdown : Option (Client Bool) := none

/-- A step of the module. -/
inductive ModuleStep
  /-- A thread starts an operation, makes its next call, or returns. -/
  | thread (lab : Label)
  /-- `mod_redis_shutdown` is called, and clears `SYSTEM_RUNNING`. -/
  | shutdown (rounds : ℕ)
  /-- The next call of the shutdown. -/
  | drain (o : Outcome)

namespace Module

def state (m : Module) : State := m.config.state.1

def log (m : Module) : List (Act Context) := m.config.state.2

def step (m : Module) : ModuleStep → Option Module
  | .thread lab => (logged.step m.config lab).map fun g => { m with config := g }
  | .shutdown rounds =>
    match m.shutdown with
    | none => some {
        config := { m.config with state := ({ m.state with running := false }, m.log) }
        shutdown := some (destroyConnectionPool rounds) }
    | some _ => none
  | .drain o =>
    match m.shutdown with
    | some (.call c next) => (respondLogged m.config.state 0 o c).map fun (r, e) =>
        { config := { m.config with state := e }, shutdown := some (next r) }
    | _ => none

/-- The module is loaded from a fresh state; then the threads run, until it is shut down and on. -/
def run (n : ℕ) (load : List Outcome) (steps : List ModuleStep) : Option Module :=
  ((initialConnectionPool n).exec (respondLogged · 0) ({}, []) load).bind fun (_, e) =>
    steps.foldlM step { config := { state := e, thread := fun _ => none } }

/-- The shutdown has returned, and so has every operation. -/
def Returned (m : Module) : Prop :=
  m.shutdown = some (.ret true) ∧ ∀ t, m.config.thread t = none

end Module

/-! ## What a thread owns -/

/-- What a thread owns, and whether it has found the module stopped with a connection in its
hands. -/
abbrev Stage := Local × Bool

/-- The calls of a thread that drops its connection. -/
def Drops (l : Local) : Call → Prop
  | .read _ | .freeContext _ | .timeNow => True
  | .write c value => value.cc = none ∧ ∃ v, l = .holding c v []
  | _ => False

/-- The calls a thread may make with what it owns. -/
def MayCall (l : Stage) (c : Call) : Prop := Allowed l.1 c ∧ (l.2 = true → Drops l.1 c)

/-- What the thread owns after a call. The connection of a thread that drops it is gone with the
last assignment. -/
def Then (l : Stage) : (c : Call) → c.Answer → Stage → Prop
  | .systemRunning, r, l' => l' = (l.1, !r && !l.1.conns.isEmpty)
  | .write c value, r, l' =>
    if l.2 = true then l' = (.free, false) else After l.1 (.write c value) r l'.1 ∧ l'.2 = false
  | c, r, l' => After l.1 c r l'.1 ∧ l'.2 = l.2

/-- The program makes only calls that are allowed, whatever `SYSTEM_RUNNING` is. -/
def Runs {α : Type} (l : Stage) (p : Client α) (Q : Stage → α → Prop) : Prop :=
  p.Safe (fun l c _ => MayCall l c) Then Q l

section Runs

variable {α β : Type} {l : Local} {c : Conn} {v : Connection} {own : List Context}
  {p : Client α} {f : α → Client β} {Q : Stage → α → Prop} {Q' : Stage → β → Prop}

theorem Runs.bind {l : Stage} (hp : Runs l p Q) (hf : ∀ l' a, Q l' a → Runs l' (f a) Q') :
    Runs l (p >>= f) Q' :=
  Prog.Safe.bind hp (fun _ _ _ h => h) hf

theorem Runs.imp {l : Stage} {Q₁ : Stage → α → Prop} (hp : Runs l p Q)
    (hQ : ∀ l' a, Q l' a → Q₁ l' a) : Runs l p Q₁ :=
  Prog.Safe.mono hp (fun _ _ _ h => h) hQ

theorem runs_ret {l : Stage} {a : α} (h : Q l a) : Runs l (pure a) Q := h

/-- An inner call does not look at `SYSTEM_RUNNING`. -/
theorem after_of_then {call : Call} {r : call.Answer} {l' : Stage} (hi : Inner call)
    (h : Then (l, false) call r l') : After l call r l'.1 ∧ l'.2 = false := by
  cases call with
  | systemRunning => exact hi.elim
  | write c value =>
    simp only [Then, Bool.false_eq_true, if_false] at h
    exact h
  | _ => exact h

/-- What was shown of the inner parts of the operations. -/
theorem Works.runs {Q : Local → α → Prop} (hp : Works l p Q) :
    Runs (l, false) p fun l' a => l'.2 = false ∧ Q l'.1 a := by
  induction p generalizing l with
  | ret a => exact ⟨rfl, hp⟩
  | call call next ih =>
    obtain ⟨⟨hal, hi⟩, hnext⟩ := hp
    refine ⟨⟨hal, by simp⟩, fun r l' hthen => ?_⟩
    obtain ⟨haft, hb⟩ := after_of_then hi hthen
    obtain ⟨l₁, b⟩ := l'
    obtain rfl : b = false := hb
    exact ih r (hnext r l₁ haft)

theorem runs_push (hl : l.Holds c v) :
    Runs (l, false) (push c) fun l' _ => l' = (.free, false) := by
  refine ⟨⟨⟨v, hl⟩, by simp⟩, fun _ l' h => ?_⟩
  exact Prod.ext h.1 h.2

theorem runs_systemRunning :
    Runs (l, false) systemRunning fun l' r => l' = (l, !r && !l.conns.isEmpty) :=
  ⟨⟨trivial, by simp⟩, fun _ _ h => h⟩

theorem runs_curtime (hl : l.Holds c v) (hd : v.connected = false) :
    Runs (l, false) agcTimerCurtime fun l' _ => l' = (l, false) :=
  ⟨⟨⟨c, v, hl, hd⟩, by simp⟩, fun _ _ h => Prod.ext h.1 h.2⟩

/-! ### A connection is dropped -/

theorem runs_read_dropping (hl : l = .holding c v own) :
    Runs (l, true) (read c) fun l' r => r = v ∧ l' = (l, true) :=
  ⟨⟨⟨v, own, hl⟩, fun _ => trivial⟩, fun _ _ h => ⟨h.1.2 c v own hl, Prod.ext h.1.1 h.2⟩⟩

theorem runs_freeContext_dropping {x : Context} (hl : l = .holding c v own) (hx : x ∈ own) :
    Runs (l, true) (freeContext (some x)) fun l' _ => l' = (.holding c v (own.erase x), true) :=
  ⟨⟨⟨c, v, own, x, hl, rfl, hx⟩, fun _ => trivial⟩,
    fun _ _ h => Prod.ext (h.1 c v own x hl rfl) h.2⟩

theorem runs_nextConnectTime_dropping :
    Runs (l, true) nextConnectTime fun l' _ => l' = (l, true) :=
  ⟨⟨trivial, fun _ => trivial⟩, fun _ _ h => Prod.ext h.1 h.2⟩

/-- With the last assignment the connection is out of reach. -/
theorem runs_write_dropping {value : Connection} (hl : l = .holding c v []) (hv : value.Wf)
    (hcc : value.cc = none) :
    Runs (l, true) (write c value) fun l' _ => l' = (.free, false) :=
  ⟨⟨⟨⟨v, [], hl⟩, hv⟩, fun _ => ⟨hcc, v, hl⟩⟩, fun _ _ h => runs_ret (by simpa [Then] using h)⟩

/-- The thread drops its connection, and frees its context before. -/
theorem runs_releaseContext (hl : l.Holds c v) :
    Runs (l, true) (releaseContext c) fun l' _ => l' = (.free, false) := by
  -- the context is freed through the field that still has it
  have hfree : Runs (l, true) (freeAnyContext c) fun l' _ => l' = (.holding c v [], true) := by
    refine (runs_read_dropping hl.1).bind ?_
    rintro _ r ⟨rfl, rfl⟩
    rw [hl.1]
    cases hcc : r.cc with
    | none => exact runs_ret rfl
    | some x =>
      rw [Option.isSome_some, if_pos rfl]
      refine (runs_freeContext_dropping rfl (by simp)).imp ?_
      rintro l₁ - rfl
      simp
  refine hfree.bind ?_
  rintro _ - rfl
  refine runs_nextConnectTime_dropping.bind ?_
  rintro _ time rfl
  exact runs_write_dropping rfl (wf_disconnected time) rfl

/-- The thread is done with its connection: it puts it back or drops it. -/
theorem runs_freeConnection (hl : l.Holds c v) :
    Runs (l, false) (freeConnection c) fun l' _ => l' = (.free, false) := by
  refine runs_systemRunning.bind ?_
  rintro _ r rfl
  cases r with
  | true =>
    rw [if_pos rfl]
    refine (works_releaseOnError hl).runs.bind ?_
    rintro ⟨l₁, b⟩ - ⟨hb, v', hl'⟩
    obtain rfl : b = false := hb
    exact runs_push hl'
  | false =>
    have hconns : (!false && !l.conns.isEmpty) = true := by
      rw [hl.1]
      rfl
    rw [hconns]
    exact runs_releaseContext hl

theorem runs_trypopRetries (n : ℕ) : Runs (.free, false) (trypopRetries n) fun l' r =>
    l'.2 = false ∧ ((r = none ∧ l'.1 = .free) ∨ ∃ c v, r = some c ∧ l'.1.Holds c v) := by
  have hpop : Runs (.free, false) trypop fun l' r =>
      l'.2 = false ∧ ((r = none ∧ l'.1 = .free) ∨ ∃ c v, r = some c ∧ l'.1.Holds c v) :=
    ⟨⟨rfl, by simp⟩, fun _ _ h => ⟨h.2, h.1⟩⟩
  induction n with
  | zero => exact hpop
  | succ n ih =>
    refine hpop.bind ?_
    rintro ⟨l', b⟩ r ⟨hb, ⟨rfl, hl⟩ | ⟨c, v, rfl, hl⟩⟩
    · obtain rfl : b = false := hb
      obtain rfl : l' = .free := hl
      exact ih
    · exact runs_ret ⟨hb, Or.inr ⟨c, v, rfl, hl⟩⟩

theorem runs_checkConnection (hl : l.Holds c v) :
    Runs (l, false) (checkConnection c) fun l' ok =>
      l'.2 = false ∧ ∃ v', l'.1.Holds c v' ∧ (ok = true → v'.connected = true) := by
  refine (works_read hl.1).runs.bind ?_
  rintro ⟨l₁, b⟩ r ⟨hb, rfl, hl₁⟩
  obtain rfl : b = false := hb
  obtain rfl : l₁ = l := hl₁
  by_cases hr : r.connected = true
  · rw [if_pos hr]
    exact runs_ret ⟨rfl, r, hl, fun _ => hr⟩
  · have hd : r.connected = false := by simpa using hr
    rw [if_neg hr]
    refine (runs_curtime hl hd).bind ?_
    rintro _ now rfl
    by_cases hnow : r.connectTime > now / 1000
    · rw [if_pos hnow]
      refine (works_createContext hl hd).runs.bind ?_
      rintro l₃ status ⟨hb, v', hv', hstatus⟩
      exact runs_ret ⟨hb, v', hv', by simpa using hstatus⟩
    · rw [if_neg hnow]
      exact runs_ret ⟨rfl, r, hl, by simp⟩

theorem runs_getConnection : Runs (.free, false) getConnection fun l' r =>
    l'.2 = false ∧ ((r = none ∧ l'.1 = .free) ∨ ∃ c, r = some c ∧ Ready l'.1 c) := by
  refine runs_systemRunning.bind ?_
  rintro _ r rfl
  cases r with
  | false => exact runs_ret ⟨rfl, Or.inl ⟨rfl, rfl⟩⟩
  | true =>
    rw [if_pos rfl]
    refine (runs_trypopRetries _).bind ?_
    rintro ⟨l, b⟩ r ⟨hb, ⟨rfl, hl⟩ | ⟨c, v, rfl, hl⟩⟩
    · exact runs_ret ⟨hb, Or.inl ⟨rfl, hl⟩⟩
    · obtain rfl : b = false := hb
      refine (runs_checkConnection hl).bind ?_
      rintro ⟨l', b⟩ ok ⟨hb, v', hl', hok⟩
      obtain rfl : b = false := hb
      cases ok with
      | true => exact runs_ret ⟨rfl, Or.inr ⟨c, rfl, ready_of_connected hl' (hok rfl)⟩⟩
      | false =>
        refine (runs_push hl').bind ?_
        rintro _ - rfl
        exact runs_ret ⟨rfl, Or.inl ⟨rfl, rfl⟩⟩

/-- The fourteen operations make only calls that are allowed, and end with nothing. -/
theorem Op.body_runs (op : Op) : Runs (.free, false) op.body fun l' _ => l' = (.free, false) := by
  cases op.parts with
  | fails h =>
    rw [h]
    exact runs_ret rfl
  | takes inner rest huses hp =>
    rw [hp]
    refine runs_getConnection.bind ?_
    rintro ⟨l, b⟩ r ⟨hb, ⟨rfl, hl⟩ | ⟨c, rfl, hready⟩⟩
    · exact runs_ret (Prod.ext hl hb)
    · obtain rfl : b = false := hb
      refine (Works.runs (huses.inner l c hready)).bind ?_
      rintro ⟨l', b⟩ a ⟨hb, hl'⟩
      obtain rfl : b = false := hb
      obtain rfl : l' = l := hl'
      obtain ⟨v, x, hl, -⟩ := hready
      refine (runs_freeConnection hl).bind ?_
      rintro _ - rfl
      refine (Works.runs (huses.rest a)).imp ?_
      rintro l'' - ⟨hb, hl''⟩
      exact Prod.ext hl'' hb

/-- A new connection gets into the queue. -/
theorem runs_createConnection :
    Runs (.free, false) createConnection fun l' _ => l' = (.free, false) := by
  refine runs_systemRunning.bind ?_
  rintro _ r rfl
  cases r with
  | false => exact runs_ret rfl
  | true =>
    rw [if_pos rfl]
    refine ⟨⟨rfl, by simp⟩, ?_⟩
    rintro c ⟨l, b⟩ ⟨hl, rfl⟩
    refine (works_createContext hl rfl).runs.bind ?_
    rintro ⟨l', b⟩ - ⟨hb, v, hl', -⟩
    obtain rfl : b = false := hb
    refine (runs_push hl').bind ?_
    rintro _ - rfl
    exact runs_ret rfl

theorem runs_initialConnectionPool (n : ℕ) :
    Runs (.free, false) (initialConnectionPool n) fun l' _ => l' = (.free, false) := by
  induction n with
  | zero => exact runs_ret rfl
  | succ n ih =>
    refine runs_createConnection.bind ?_
    rintro _ status rfl
    split
    · exact ih
    · exact runs_ret rfl

end Runs

/-! ## The invariant -/

/-- The contexts that only the thread can reach. -/
def Local.own : Local → List Context
  | free => []
  | holding _ _ own => own

/-- Every live context belongs to a connection in the queue or to a thread. -/
def Covered (s : State) (l : ℕ → Local) : Prop :=
  ∀ x, s.live x = true → (∃ c ∈ s.queue, (s.conn c).cc = some x) ∨ ∃ t, x ∈ (l t).own

/-- The state as it were if the module still ran and the dropped connections were in the queue. -/
def State.regain (s : State) (dropped : List Conn) (putBack : ℕ → List Conn) : State :=
  { s with running := true, queue := s.queue ++ dropped, putBack }

/-- The ledger agrees with the state. -/
structure Accounted (s : State) (log : List (Act Context)) : Prop where
  sound : Ledger.Sound log
  live : ∀ x, Live log x ↔ s.live x = true
  made : ∀ x, .alloc x ∈ log ↔ x < s.contexts

/-- What the threads own fits together, some connections being dropped. -/
def Held (s : State) (l : ℕ → Local) : Prop :=
  ∃ dropped putBack, Inv (s.regain dropped putBack) l ∧ Covered (s.regain dropped putBack) l ∧
    ∀ c ∈ dropped, (s.conn c).cc = none

/-- The invariant of the module. -/
def Life (e : Logged) (l : ℕ → Stage) : Prop := Held e.1 (Prod.fst ∘ l) ∧ Accounted e.1 e.2

section Invariant

variable {s s' : State} {l : ℕ → Local} {t : ℕ} {o : Outcome} {call : Call} {r : call.Answer}
  {owner : Context → Option Conn} {log : List (Act Context)} {c : Conn} {v : Connection}

/-- The order of the queue does not matter for what the threads own. -/
theorem Owned.perm {queue : List Conn} (h : Owned owner s l) (hq : queue.Perm s.queue) :
    Owned owner { s with queue } l := by
  have hmem : ∀ p c, c ∈ spots { s with queue } l p ↔ c ∈ spots s l p := by
    intro p c
    cases p with
    | none => exact hq.mem_iff
    | some t => exact Iff.rfl
  refine ⟨h.running, h.ledger, fun c hc => (h.placed c hc).congr fun p => ?_,
    fun p c hc => h.allocated p c ((hmem p c).mp hc),
    fun c hc => h.queued c (hq.mem_iff.mp hc), h.holding, h.fresh⟩
  cases p with
  | none => exact hq.count_eq c
  | some t => rfl

/-- The fields of a connection in the queue are assigned by nobody. -/
theorem conn_of_queued (hnew : s.allocated ∉ s.queue)
    (hheld : ∀ c v own, l t = .holding c v own → c ∉ s.queue) (ha : Allowed (l t) call)
    (hr : respond s t o call = some (r, s')) (hc : c ∈ s.queue) : s'.conn c = s.conn c := by
  cases call with
  -- a new connection is not one of the queue
  | allocConnection =>
    cases hr
    refine Function.update_of_ne ?_ _ _
    rintro rfl
    exact hnew hc
  -- a thread writes to what it holds, and that is out of the queue
  | write c' value =>
    cases hr
    obtain ⟨⟨w, own, hl⟩, -⟩ := ha
    refine Function.update_of_ne ?_ _ _
    rintro rfl
    exact hheld c w own hl hc
  | trypop =>
    simp only [respond] at hr
    split at hr <;> cases hr <;> rfl
  | push c' =>
    simp only [respond] at hr
    split at hr <;> cases hr
    rfl
  | contextInit =>
    simp only [respond] at hr
    split at hr <;> cases hr <;> rfl
  | freeContext cc => cases cc <;> cases hr <;> rfl
  | fault => cases hr
  | _ =>
    cases hr
    rfl

theorem Owned.conn_of_queued (h : Owned owner s l) (ha : Allowed (l t) call)
    (hr : respond s t o call = some (r, s')) (hc : c ∈ s.queue) : s'.conn c = s.conn c :=
  Redis.conn_of_queued (fun hmem => Nat.lt_irrefl _ (h.allocated none _ hmem))
    (fun _ _ _ hl => h.notMem_queue hl) ha hr hc

/-- The contexts of the queue and of one thread are where they were or have gone from one to the
other; the other threads keep theirs. -/
theorem Covered.update {l' : Local} (h : Covered s l)
    (hlive : ∀ x, s'.live x = true → s.live x = true ∨ x ∈ l'.own)
    (hqueue : ∀ c ∈ s.queue, ∀ x, (s.conn c).cc = some x → s'.live x = true →
      (∃ c' ∈ s'.queue, (s'.conn c').cc = some x) ∨ x ∈ l'.own)
    (hown : ∀ x ∈ (l t).own, s'.live x = true →
      (∃ c' ∈ s'.queue, (s'.conn c').cc = some x) ∨ x ∈ l'.own) :
    Covered s' (Function.update l t l') := by
  intro x hx
  have hself : x ∈ l'.own → ∃ u, x ∈ (Function.update l t l' u).own := fun hmem =>
    ⟨t, by rwa [Function.update_self]⟩
  rcases hlive x hx with hold | hnew
  · rcases h x hold with ⟨c, hc, hcc⟩ | ⟨u, hu⟩
    · exact (hqueue c hc x hcc hx).imp_right hself
    · by_cases hut : u = t
      · exact (hown x (hut ▸ hu) hx).imp_right hself
      · refine Or.inr ⟨u, ?_⟩
        rwa [Function.update_of_ne hut]
  · exact Or.inr (hself hnew)

/-- The rule for a call that leaves the queue alone. -/
theorem Covered.update_of_queue_eq {l' : Local} (h : Covered s l) (hq : s'.queue = s.queue)
    (hconn : ∀ c ∈ s.queue, s'.conn c = s.conn c)
    (hlive : ∀ x, s'.live x = true → s.live x = true ∨ x ∈ l'.own)
    (hown : ∀ x ∈ (l t).own, s'.live x = true → x ∈ l'.own) :
    Covered s' (Function.update l t l') := by
  refine h.update hlive (fun c hc x hcc _ => Or.inl ⟨c, hq ▸ hc, ?_⟩)
    fun x hx hlx => Or.inr (hown x hx hlx)
  rw [hconn c hc]
  exact hcc

/-- A connection brings its context into the queue. -/
theorem Owned.covered_push (h : Owned owner s l) (hcov : Covered s l) (hl : (l t).Holds c v)
    (putBack : ℕ → List Conn) :
    Covered { s with queue := s.queue ++ [c], putBack } (Function.update l t .free) := by
  refine hcov.update (fun x hx => Or.inl hx) (fun c₁ hc₁ x hcc _ => ?_) fun x hx _ => ?_
  · exact Or.inl ⟨c₁, List.mem_append_left _ hc₁, hcc⟩
  · refine Or.inl ⟨c, by simp, ?_⟩
    rw [hl.1] at hx
    show (s.conn c).cc = some x
    rw [(h.holding t c v _ hl.1).1]
    simpa [Local.own] using hx

/-- No live context gets out of reach by a call that is allowed. -/
theorem Owned.covered {l' : Local} (h : Owned owner s l) (h' : Inv s' (Function.update l t l'))
    (hcov : Covered s l) (ha : Allowed (l t) call) (hr : respond s t o call = some (r, s'))
    (haft : After (l t) call r l') : Covered s' (Function.update l t l') := by
  have hconn : ∀ c ∈ s.queue, s'.conn c = s.conn c := fun c hc => h.conn_of_queued ha hr hc
  obtain ⟨owner', h'⟩ := h'
  cases call with
  | systemRunning =>
    cases hr
    obtain ⟨-, rfl⟩ := haft
    exact hcov.update_of_queue_eq rfl hconn (fun x hx => Or.inl hx) fun x hx _ => hx
  | allocConnection =>
    cases hr
    refine hcov.update_of_queue_eq rfl hconn (fun x hx => Or.inl hx) fun x hx _ => ?_
    -- the thread had nothing
    obtain ha : l t = .free := ha
    rw [ha] at hx
    simp [Local.own] at hx
  | trypop =>
    simp only [respond] at hr
    split at hr
    · cases hr
      obtain ⟨-, rfl⟩ | ⟨c, v, hr, -⟩ := haft
      · exact hcov.update_of_queue_eq rfl hconn (fun x hx => Or.inl hx) fun x hx _ => hx
      · cases hr
    · rename_i c queue hq
      cases hr
      obtain ⟨hr, -⟩ | ⟨c', v, hr, hl', -⟩ := haft
      · cases hr
      · cases hr
        -- the connection takes its context along
        have hv : s.conn c = v := (h'.holding t c v _ (by rw [Function.update_self, hl'])).1
        refine hcov.update (fun x hx => Or.inl hx) (fun c₁ hc₁ x hcc _ => ?_) fun x hx _ => ?_
        · rw [hq] at hc₁
          rcases List.mem_cons.mp hc₁ with rfl | hc₁
          · right
            rw [hl', Local.own, ← hv, hcc]
            exact List.mem_singleton_self x
          · exact Or.inl ⟨c₁, hc₁, hcc⟩
        · obtain ha : l t = .free := ha
          rw [ha] at hx
          simp [Local.own] at hx
  | push c =>
    obtain ⟨v, hl⟩ := ha
    simp only [respond] at hr
    split at hr
    · cases hr
      obtain rfl : l' = .free := haft
      exact h.covered_push hcov hl _
    · cases hr
  | read c =>
    cases hr
    obtain ⟨rfl, -⟩ := haft
    exact hcov.update_of_queue_eq rfl hconn (fun x hx => Or.inl hx) fun x hx _ => hx
  | write c value =>
    cases hr
    obtain ⟨⟨v, own, hl⟩, -⟩ := ha
    obtain rfl := haft c v own hl
    refine hcov.update_of_queue_eq rfl hconn (fun x hx => Or.inl hx) fun x hx _ => ?_
    rwa [hl] at hx
  | contextInit =>
    obtain ⟨c, v, own, hl⟩ := ha
    obtain rfl := haft c v own hl
    simp only [respond] at hr
    split at hr
    · cases hr
      refine hcov.update_of_queue_eq rfl hconn (fun x hx => ?_) fun x hx _ => ?_
      · have hx : Function.update s.live s.contexts true x = true := hx
        by_cases hxs : x = s.contexts
        · right
          simp [Local.own, hxs]
        · left
          rwa [Function.update_of_ne hxs] at hx
      · rw [hl] at hx
        exact List.mem_append_right _ hx
    · cases hr
      refine hcov.update_of_queue_eq rfl hconn (fun x hx => Or.inl hx) fun x hx _ => ?_
      rw [hl] at hx
      exact hx
  | freeContext cc =>
    obtain ⟨c, v, own, y, hl, rfl, hy⟩ := ha
    obtain rfl := haft c v own y hl rfl
    cases hr
    -- what is still live is not the context that is freed
    have hne : ∀ x, Function.update s.live y false x = true → x ≠ y ∧ s.live x = true := by
      intro x hx
      by_cases hxy : x = y
      · rw [hxy, Function.update_self] at hx
        cases hx
      · exact ⟨hxy, by rwa [Function.update_of_ne hxy] at hx⟩
    refine hcov.update_of_queue_eq rfl hconn (fun x hx => Or.inl (hne x hx).2) fun x hx hlx => ?_
    rw [hl] at hx
    exact (List.mem_erase_of_ne (hne x hlx).1).mpr hx
  | fault => cases hr
  | timeNow | curtime | use | replyType | replyStr | replyInteger | replyElement | freeReply
    | logsErrors =>
    cases hr
    obtain rfl : l' = l t := haft
    exact hcov.update_of_queue_eq rfl hconn (fun x hx => Or.inl hx) fun x hx _ => hx

/-- A call that sees neither `SYSTEM_RUNNING` nor the queue does not see the dropped connections. -/
theorem respond_regain {dropped : List Conn} {putBack : ℕ → List Conn}
    (hcall : call ≠ .systemRunning ∧ call ≠ .trypop ∧ ∀ c, call ≠ .push c)
    (hr : respond s t o call = some (r, s')) :
    respond (s.regain dropped putBack) t o call = some (r, s'.regain dropped putBack) := by
  obtain ⟨hrunning, hpop, hpush⟩ := hcall
  cases call with
  | systemRunning => exact (hrunning rfl).elim
  | trypop => exact (hpop rfl).elim
  | push c => exact (hpush c rfl).elim
  | contextInit =>
    simp only [respond] at hr ⊢
    split at hr
    · rename_i hmade
      cases hr
      rw [if_pos hmade]
      rfl
    · rename_i hmade
      cases hr
      rw [if_neg hmade]
  | freeContext cc => cases cc <;> cases hr <;> rfl
  | fault => cases hr
  | _ =>
    cases hr
    rfl

/-- A connection is put back. -/
theorem Held.push (h : Held s l) (hl : (l t).Holds c v) (putBack : ℕ → List Conn) :
    Held { s with queue := s.queue ++ [c], putBack } (Function.update l t .free) := by
  obtain ⟨dropped, back, ⟨owner, hown⟩, hcov, hnone⟩ := h
  have hperm : (s.queue ++ [c] ++ dropped).Perm (s.queue ++ dropped ++ [c]) := by
    rw [List.append_assoc, List.append_assoc]
    exact List.perm_append_comm.append_left s.queue
  refine ⟨dropped, Function.update back t (back t ++ [c]), ⟨owner, (hown.push hl).perm hperm⟩, ?_,
    hnone⟩
  -- the contexts can be reached in a queue of another order
  intro x hx
  rcases hown.covered_push hcov hl back x hx with ⟨c', hc', hcc⟩ | ht
  · exact Or.inl ⟨c', hperm.mem_iff.mpr hc', hcc⟩
  · exact Or.inr ht

/-- A connection without a context is dropped. -/
theorem Held.drop (h : Held s l) (hl : (l t).Holds c v) (hcc : v.cc = none) :
    Held s (Function.update l t .free) := by
  obtain ⟨dropped, back, ⟨owner, hown⟩, hcov, hnone⟩ := h
  have hqueue : s.queue ++ (dropped ++ [c]) = s.queue ++ dropped ++ [c] :=
    (List.append_assoc _ _ _).symm
  refine ⟨dropped ++ [c], Function.update back t (back t ++ [c]), ⟨owner, ?_⟩, ?_, fun c' hc' => ?_⟩
  · rw [State.regain, hqueue]
    exact hown.push hl
  · rw [State.regain, hqueue]
    exact hown.covered_push hcov hl _
  · rcases List.mem_append.mp hc' with hc' | hc'
    · exact hnone c' hc'
    · rw [List.mem_singleton.mp hc']
      have hconn : s.conn c = v := (hown.holding t c v _ hl.1).1
      rw [hconn, hcc]

/-- What was allowed before the shutdown keeps what the threads own together after it. -/
theorem Held.respond (h : Held s l) (ha : Allowed (l t) call) (hcall : call ≠ .systemRunning)
    (hr : Redis.respond s t o call = some (r, s')) :
    ∃ l', After (l t) call r l' ∧ Held s' (Function.update l t l') := by
  obtain ⟨dropped, putBack, hinv, hcov, hnone⟩ := h
  have hself : Held s (Function.update l t (l t)) := by
    rw [Function.update_eq_self]
    exact ⟨dropped, putBack, hinv, hcov, hnone⟩
  -- a step of the state in which nothing is dropped
  have hstep : ∀ s', Redis.respond (s.regain dropped putBack) t o call =
      some (r, s'.regain dropped putBack) →
      ∃ l', After (l t) call r l' ∧ Held s' (Function.update l t l') := by
    intro s' hr'
    obtain ⟨l', haft, hinv'⟩ := respond_keeps hinv ha hr'
    obtain ⟨owner, hown⟩ := hinv
    refine ⟨l', haft, dropped, putBack, hinv', hown.covered hinv' hcov ha hr' haft, fun c hc => ?_⟩
    have hconn := hown.conn_of_queued ha hr' (List.mem_append_right s.queue hc)
    exact (congrArg Connection.cc hconn).trans (hnone c hc)
  by_cases hpop : call = .trypop
  · subst hpop
    cases hq : s.queue with
    | nil =>
      simp only [Redis.respond, hq] at hr
      cases hr
      exact ⟨l t, Or.inl ⟨rfl, rfl⟩, hself⟩
    | cons c queue =>
      simp only [Redis.respond, hq] at hr
      cases hr
      refine hstep _ ?_
      simp only [Redis.respond, State.regain, hq, List.cons_append]
  · by_cases hpush : ∃ c, call = .push c
    · obtain ⟨c, rfl⟩ := hpush
      obtain ⟨v, hv⟩ := ha
      simp only [Redis.respond] at hr
      split at hr
      · cases hr
        exact ⟨.free, rfl, Held.push ⟨dropped, putBack, hinv, hcov, hnone⟩ hv _⟩
      · cases hr
    · exact hstep s' (respond_regain ⟨hcall, hpop, fun c hc => hpush ⟨c, hc⟩⟩ hr)

/-- The contexts that a call uses or frees are live. -/
theorem Held.live (h : Held s l) {x : Context} (ha : Allowed (l t) call)
    (hx : (∃ u, call = .use (some x) u) ∨ call = .freeContext (some x)) : s.live x = true := by
  obtain ⟨dropped, putBack, ⟨owner, hown⟩, -⟩ := h
  have hmem : ∃ c v own, l t = .holding c v own ∧ x ∈ own := by
    obtain ⟨u, rfl⟩ | rfl := hx <;> obtain ⟨c, v, own, y, hl, hy, hmem⟩ := ha <;> cases hy <;>
      exact ⟨c, v, own, hl, hmem⟩
  obtain ⟨c, v, own, hl, hmem⟩ := hmem
  obtain ⟨-, -, -, hlive⟩ := hown.holding t c v own hl
  exact (hlive x hmem).1

/-- A call that does nothing to a context. -/
theorem Accounted.of_eq (h : Accounted s log) (hlive : s'.live = s.live)
    (hcontexts : s'.contexts = s.contexts) : Accounted s' (log ++ []) := by
  rw [List.append_nil]
  refine ⟨h.sound, fun x => ?_, fun x => ?_⟩
  · rw [hlive]
    exact h.live x
  · rw [hcontexts]
    exact h.made x

/-- The ledger follows the state. -/
theorem Accounted.respond (h : Accounted s log)
    (hlive : ∀ x, (∃ u, call = .use (some x) u) ∨ call = .freeContext (some x) → s.live x = true)
    (hr : Redis.respond s t o call = some (r, s')) : Accounted s' (log ++ call.acts r) := by
  cases call with
  | contextInit =>
    simp only [Redis.respond] at hr
    split at hr
    · cases hr
      -- the new context has the next number, which no context has
      have hfresh : .alloc s.contexts ∉ log := fun hmem =>
        Nat.lt_irrefl _ ((h.made s.contexts).mp hmem)
      refine ⟨sound_snoc.mpr ⟨h.sound, hfresh⟩, fun x => ?_, fun x => ?_⟩
      · show Live (log ++ [Act.alloc s.contexts]) x ↔
          Function.update s.live s.contexts true x = true
        rw [live_snoc_alloc h.sound hfresh, h.live]
        by_cases hx : x = s.contexts
        · simp [hx]
        · simp [hx]
      · show Act.alloc x ∈ log ++ [Act.alloc s.contexts] ↔ x < s.contexts + 1
        rw [List.mem_append, h.made, List.mem_singleton, Act.alloc.injEq]
        exact Nat.lt_succ_iff_lt_or_eq.symm
    · cases hr
      exact h.of_eq rfl rfl
  | use cc u =>
    cases hr
    cases cc with
    | none => exact h.of_eq rfl rfl
    | some x =>
      have hx := (h.live x).mpr (hlive x (Or.inl ⟨u, rfl⟩))
      refine ⟨sound_snoc.mpr ⟨h.sound, hx⟩, fun y => live_snoc_use.trans (h.live y), fun y => ?_⟩
      show Act.alloc y ∈ log ++ [Act.use x] ↔ y < s.contexts
      rw [← h.made]
      simp
  | freeContext cc =>
    cases cc with
    | none =>
      cases hr
      exact h.of_eq rfl rfl
    | some x =>
      cases hr
      have hx := (h.live x).mpr (hlive x (Or.inr rfl))
      refine ⟨sound_snoc.mpr ⟨h.sound, hx⟩, fun y => ?_, fun y => ?_⟩
      · show Live (log ++ [Act.free x]) y ↔ Function.update s.live x false y = true
        rw [live_snoc_free, h.live]
        by_cases hy : y = x
        · simp [hy]
        · simp [hy]
      · show Act.alloc y ∈ log ++ [Act.free x] ↔ y < s.contexts
        rw [← h.made]
        simp
  | trypop =>
    simp only [Redis.respond] at hr
    split at hr <;> cases hr <;> exact h.of_eq rfl rfl
  | push c =>
    simp only [Redis.respond] at hr
    split at hr <;> cases hr
    exact h.of_eq rfl rfl
  | fault => cases hr
  | _ =>
    cases hr
    exact h.of_eq rfl rfl

end Invariant

/-- The calls that are allowed keep the invariant. -/
theorem life_keeps {α : Type} :
    Prog.Keeps (α := α) respondLogged (fun l c _ => MayCall l c) Then Life := by
  rintro ⟨s, log⟩ l t o call next r e' ⟨hheld, hacc⟩ ⟨hal, hdrops⟩ hr
  simp only [respondLogged, Option.map_eq_some_iff, Prod.exists, Prod.mk.injEq] at hr
  obtain ⟨r', s', hr, rfl, rfl⟩ := hr
  have hacc' : Accounted s' (log ++ call.acts r') :=
    hacc.respond (fun x hx => hheld.live hal hx) hr
  have hupdate : ∀ l' : Stage,
      Prod.fst ∘ Function.update l t l' = Function.update (Prod.fst ∘ l) t l'.1 := fun l' =>
    Function.comp_update _ _ _ _
  -- the ledger is settled; what the threads hold is left
  suffices h : ∃ l', Then (l t) call r' l' ∧ Held s' (Function.update (Prod.fst ∘ l) t l'.1) by
    obtain ⟨l', hthen, hheld'⟩ := h
    refine ⟨l', hthen, ?_, hacc'⟩
    rw [hupdate]
    exact hheld'
  by_cases hrunning : call = .systemRunning
  · subst hrunning
    cases hr
    refine ⟨_, rfl, ?_⟩
    rw [show ((l t).1, _).1 = (Prod.fst ∘ l) t from rfl, Function.update_eq_self]
    exact hheld
  · obtain ⟨l₁, haft, hheld'⟩ := hheld.respond hal hrunning hr
    by_cases hdrop : (l t).2 = true ∧ ∃ c value, call = .write c value
    · -- the thread has freed the context of the connection it drops
      obtain ⟨hb, c, value, rfl⟩ := hdrop
      obtain ⟨hcc, v, hl⟩ := hdrops hb
      obtain ⟨-, hwf⟩ := hal
      obtain rfl := haft c v [] hl
      refine ⟨(.free, false), by simp [Then, hb], ?_⟩
      have hholds : (Function.update (Prod.fst ∘ l) t (Local.holding c value []) t).Holds c value :=
        ⟨by rw [Function.update_self, hcc]; rfl, hwf⟩
      have := hheld'.drop hholds hcc
      rwa [Function.update_idem] at this
    · refine ⟨(l₁, (l t).2), ?_, hheld'⟩
      cases call with
      | systemRunning => exact (hrunning rfl).elim
      | write c value =>
        have hb : (l t).2 = false := by
          by_contra hb
          exact hdrop ⟨by simpa using hb, c, value, rfl⟩
        simp only [Then, hb, Bool.false_eq_true, if_false, and_true]
        exact haft
      | _ => exact ⟨haft, rfl⟩

/-! ## Runs -/

/-- Nothing but the shutdown itself changes `SYSTEM_RUNNING`. -/
theorem respond_running {s s' : State} {t : ℕ} {o : Outcome} {call : Call} {r : call.Answer}
    (hr : respond s t o call = some (r, s')) : s'.running = s.running := by
  cases call with
  | trypop =>
    simp only [respond] at hr
    split at hr <;> cases hr <;> rfl
  | push c =>
    simp only [respond] at hr
    split at hr <;> cases hr
    rfl
  | contextInit =>
    simp only [respond] at hr
    split at hr <;> cases hr <;> rfl
  | freeContext cc => cases cc <;> cases hr <;> rfl
  | fault => cases hr
  | _ =>
    cases hr
    rfl

/-- A connection gets into the queue only by a push. -/
theorem mem_queue_of_respond {s s' : State} {t : ℕ} {o : Outcome} {call : Call} {r : call.Answer}
    {c : Conn} (hr : respond s t o call = some (r, s')) (hc : c ∈ s'.queue) :
    c ∈ s.queue ∨ call = .push c := by
  cases call with
  | trypop =>
    simp only [respond] at hr
    split at hr
    · cases hr
      exact Or.inl hc
    · rename_i c' queue hq
      cases hr
      rw [hq]
      exact Or.inl (List.mem_cons_of_mem c' hc)
  | push c' =>
    simp only [respond] at hr
    split at hr <;> cases hr
    rcases List.mem_append.mp hc with hc | hc
    · exact Or.inl hc
    · rw [List.mem_singleton.mp hc]
      exact Or.inr rfl
  | contextInit =>
    simp only [respond] at hr
    split at hr <;> cases hr <;> exact Or.inl hc
  | freeContext cc => cases cc <;> cases hr <;> exact Or.inl hc
  | fault => cases hr
  | _ =>
    cases hr
    exact Or.inl hc

namespace Module

variable {m m' : Module} {st : ModuleStep}

/-- The connection that the thread is about to put into the queue. -/
def pushing (m : Module) (t : ℕ) : Option Conn :=
  match m.config.thread t with
  | some (_, .call (.push c) _) => some c
  | _ => none

/-- No context is in the queue when the module is stopped, and none is put there afterwards. -/
def Cleared (m : Module) : ModuleStep → Prop
  | .shutdown _ => ∀ c ∈ m.state.queue, (m.state.conn c).cc = none
  | .thread (.step t _) => m.shutdown.isSome = true →
      ∀ c ∈ m.pushing t, (m.state.conn c).cc = none
  | _ => True

instance (m : Module) : DecidablePred m.Cleared
  | .shutdown _ => inferInstanceAs (Decidable (∀ c ∈ m.state.queue, (m.state.conn c).cc = none))
  | .thread (.step t _) => inferInstanceAs (Decidable (m.shutdown.isSome = true →
      ∀ c ∈ m.pushing t, (m.state.conn c).cc = none))
  | .thread (.start _ _) => isTrue trivial
  | .drain _ => isTrue trivial

/-- The invariant: the threads own what fits together, and the shutdown gets no connection. -/
structure Ok (m : Module) : Prop where
  sound : System.Sound (fun _ l c _ => MayCall l c) Then (.free, false) Life m.config
  drain : ∀ p, m.shutdown = some p →
    m.state.running = false ∧ (p = .ret true ∨ ∃ n, p = destroyConnectionPool n)

/-- The shutdown finds `SYSTEM_RUNNING` cleared and ends. -/
theorem drain_step {o : Outcome} (h : m.Ok) (hs : m.step (.drain o) = some m') :
    m' = { m with shutdown := some (.ret true) } := by
  simp only [step] at hs
  split at hs
  · rename_i c next hp
    obtain ⟨hrunning, hret | ⟨n, hn⟩⟩ := h.drain _ hp
    · cases hret
    · cases n with
      | zero => cases hn
      | succ n =>
        cases hn
        have hrunning : m.config.state.1.running = false := hrunning
        simp only [respondLogged, respond, Option.map_some, Call.acts, List.append_nil,
          hrunning, Option.some.injEq] at hs
        subst hs
        rfl
  · cases hs

/-- One step keeps the invariant. -/
theorem Ok.step (h : m.Ok) (hs : m.step st = some m') : m'.Ok := by
  cases st with
  | thread lab =>
    simp only [Module.step, Option.map_eq_some_iff] at hs
    obtain ⟨g, hg, rfl⟩ := hs
    refine ⟨h.sound.step (S := logged) Op.body_runs (fun _ => life_keeps) hg, fun p hp => ?_⟩
    obtain ⟨hrunning, hdrain⟩ := h.drain p hp
    refine ⟨?_, hdrain⟩
    rcases System.state_of_step hg with hstate | ⟨t, o, op, call, next, r, -, -, hr⟩
    · exact (congrArg (fun e : Logged => e.1.running) hstate).trans hrunning
    · have hr : respondLogged m.config.state t o call = some (r, g.state) := hr
      simp only [respondLogged, Option.map_eq_some_iff, Prod.exists, Prod.mk.injEq] at hr
      obtain ⟨r', s', hr, -, hstate⟩ := hr
      show g.state.1.running = false
      rw [← hstate, respond_running hr]
      exact hrunning
  | shutdown rounds =>
    simp only [Module.step] at hs
    split at hs <;> cases hs
    obtain ⟨l, ⟨hheld, hacc⟩, hidle, hsafe⟩ := h.sound
    -- the flag is not part of what the threads own
    refine ⟨⟨l, ⟨hheld, ⟨hacc.sound, hacc.live, hacc.made⟩⟩, hidle, hsafe⟩, fun p hp => ?_⟩
    cases hp
    exact ⟨rfl, Or.inr ⟨rounds, rfl⟩⟩
  | drain o =>
    obtain rfl := drain_step h hs
    refine ⟨h.sound, fun p hp => ?_⟩
    cases hp
    have hp : m.shutdown ≠ none := by
      intro hnone
      simp [Module.step, hnone] at hs
    obtain ⟨p, hp⟩ := Option.ne_none_iff_exists'.mp hp
    exact ⟨(h.drain p hp).1, Or.inl rfl⟩

/-- When the module is stopped, no connection in the queue has a context. -/
def QueueClear (m : Module) : Prop :=
  m.shutdown.isSome = true → ∀ c ∈ m.state.queue, (m.state.conn c).cc = none

/-- A call of a thread leaves the queue without contexts. -/
theorem QueueClear.respond {t : ℕ} {o : Outcome} {op : Op} {call : Call}
    {next : call.Answer → Client Result} {r : call.Answer} {e : Logged} (h : m.Ok)
    (hq : m.QueueClear) (hst : m.Cleared (.thread (.step t o)))
    (ht : m.config.thread t = some (op, .call call next))
    (hr : respondLogged m.config.state t o call = some (r, e)) (hstop : m.shutdown.isSome = true) :
    ∀ c ∈ e.1.queue, (e.1.conn c).cc = none := by
  simp only [respondLogged, Option.map_eq_some_iff, Prod.exists, Prod.mk.injEq] at hr
  obtain ⟨r', s', hr, -, rfl⟩ := hr
  obtain ⟨l, ⟨⟨dropped, putBack, ⟨owner, hown⟩, -, -⟩, -⟩, -, hsafe⟩ := h.sound
  obtain ⟨⟨hal, -⟩, -⟩ := hsafe t op _ ht
  -- what the threads own is not in the queue
  have hheld : ∀ c v own, (Prod.fst ∘ l) t = .holding c v own → c ∉ m.state.queue :=
    fun c v own hl hc => hown.notMem_queue hl (List.mem_append_left dropped hc)
  have hnew : m.state.allocated ∉ m.state.queue := fun hc =>
    Nat.lt_irrefl _ (hown.allocated none _ (List.mem_append_left dropped hc))
  intro c hc
  rcases mem_queue_of_respond hr hc with hc | rfl
  · have hconn : s'.conn c = m.state.conn c := conn_of_queued hnew hheld hal hr hc
    rw [hconn]
    exact hq hstop c hc
  · have hpush : c ∈ m.pushing t := by
      simp [pushing, ht]
    simp only [Redis.respond] at hr
    split at hr <;> cases hr
    exact hst hstop c hpush

/-- One step that meets the condition leaves the queue without contexts. -/
theorem QueueClear.step (h : m.Ok) (hq : m.QueueClear) (hst : m.Cleared st)
    (hs : m.step st = some m') : m'.QueueClear := by
  cases st with
  | thread lab =>
    simp only [Module.step, Option.map_eq_some_iff] at hs
    obtain ⟨g, hg, rfl⟩ := hs
    rcases System.state_of_step hg with hstate | ⟨t, o, op, call, next, r, rfl, ht, hr⟩
    · intro hstop c hc
      simp only [state, hstate] at hc ⊢
      exact hq hstop c hc
    · exact fun hstop => QueueClear.respond h hq hst ht hr hstop
  | shutdown rounds =>
    simp only [Module.step] at hs
    split at hs <;> cases hs
    exact fun _ => hst
  | drain o =>
    obtain rfl := drain_step h hs
    refine fun _ => hq ?_
    cases hp : m.shutdown with
    | none => simp [Module.step, hp] at hs
    | some p => rfl

/-! ### From the load on -/

theorem run_snoc (n : ℕ) (load : List Outcome) (steps : List ModuleStep) (st : ModuleStep) :
    run n load (steps ++ [st]) = (run n load steps).bind (step · st) := by
  simp only [run, List.foldlM_append, List.foldlM_cons, List.foldlM_nil, bind_pure]
  cases (initialConnectionPool n).exec (respondLogged · 0) ({}, []) load with
  | none => rfl
  | some r => rfl

/-- Before the load there is nothing. -/
theorem life_init : Life ({}, []) fun _ => (.free, false) := by
  refine ⟨⟨[], fun _ => [], ⟨fun _ => none, rfl, fun _ => rfl, ?_, ?_, ?_, ?_, ?_⟩, ?_, ?_⟩, ?_⟩
  · intro c hc
    exact absurd hc (Nat.not_lt_zero c)
  · rintro (_ | t) c hc
    · simp [spots, State.regain] at hc
    · simp [spots, Local.conns] at hc
  · simp [State.regain]
  · simp
  · simp
  · intro x hx
    simp [State.regain] at hx
  · simp
  · exact ⟨sound_nil, by simp, by simp⟩

/-- The loaded module. -/
theorem ok_of_load {n : ℕ} {load : List Outcome} (h : run n load [] = some m) :
    m.Ok ∧ m.shutdown = none := by
  simp only [run, List.foldlM_nil, Option.bind_eq_some_iff] at h
  obtain ⟨⟨status, e⟩, hload, hm⟩ := h
  cases hm
  have hsafe : (initialConnectionPool n).Safe (fun l c _ => MayCall l c) Then
      (fun l' _ => l' = (.free, false)) ((fun _ : ℕ => ((.free, false) : Stage)) 0) :=
    runs_initialConnectionPool n
  obtain ⟨l, rfl, hlife⟩ := Prog.Safe.exec life_keeps hsafe life_init hload
  rw [Function.update_eq_self] at hlife
  refine ⟨⟨⟨fun _ => (.free, false), hlife, fun _ _ => rfl, ?_⟩, ?_⟩, rfl⟩
  · intro t op p ht
    cases ht
  · intro p hp
    cases hp

theorem ok_of_run {n : ℕ} {load : List Outcome} {steps : List ModuleStep}
    (h : run n load steps = some m) : m.Ok := by
  induction steps using List.reverseRecOn generalizing m with
  | nil => exact (ok_of_load h).1
  | append_singleton steps st ih =>
    rw [run_snoc, Option.bind_eq_some_iff] at h
    obtain ⟨m₀, hm₀, hs⟩ := h
    exact (ih hm₀).step hs

/-- The condition along a run. -/
def ClearedAfter (n : ℕ) (load : List Outcome) (pre : List ModuleStep) (st : ModuleStep) : Prop :=
  ∀ m ∈ run n load pre, m.Cleared st

instance (n : ℕ) (load : List Outcome) (pre : List ModuleStep) :
    DecidablePred (ClearedAfter n load pre) := fun st =>
  inferInstanceAs (Decidable (∀ m ∈ run n load pre, m.Cleared st))

theorem queueClear_of_run {n : ℕ} {load : List Outcome} {steps : List ModuleStep}
    (hst : Throughout (ClearedAfter n load) steps) (h : run n load steps = some m) :
    m.QueueClear := by
  induction steps using List.reverseRecOn generalizing m with
  | nil =>
    intro hstop
    rw [(ok_of_load h).2] at hstop
    cases hstop
  | append_singleton steps st ih =>
    rw [run_snoc, Option.bind_eq_some_iff] at h
    obtain ⟨m₀, hm₀, hs⟩ := h
    obtain ⟨hpre, hlast⟩ := throughout_snoc.mp hst
    exact QueueClear.step (ok_of_run hm₀) (ih hpre hm₀) (hlast m₀ hm₀) hs

/-- When all is over, the live contexts are those of the connections in the queue. -/
theorem Ok.live_iff (h : m.Ok) (hret : m.Returned) (x : Context) :
    Live m.log x ↔ ∃ c ∈ m.state.queue, (m.state.conn c).cc = some x := by
  obtain ⟨l, ⟨⟨dropped, putBack, ⟨owner, hown⟩, hcov, hnone⟩, hacc⟩, hidle, -⟩ := h.sound
  rw [show Live m.log x ↔ m.state.live x = true from hacc.live x]
  constructor
  · intro hx
    rcases hcov x hx with ⟨c, hc, hcc⟩ | ⟨t, ht⟩
    · rcases List.mem_append.mp hc with hc | hc
      · exact ⟨c, hc, hcc⟩
      · have hcc : (m.state.conn c).cc = some x := hcc
        rw [show (m.state.conn c).cc = none from hnone c hc] at hcc
        cases hcc
    · -- a thread that has returned owns nothing
      rw [Function.comp_apply, hidle t (hret.2 t)] at ht
      simp [Local.own] at ht
  · rintro ⟨c, hc, hcc⟩
    exact ((hown.queued c (List.mem_append_left dropped hc)).2 x hcc).1

/-- In every run a context is freed at most once, and not used after it was freed. When the shutdown
and the operations have returned, every context is freed exactly when no connection in the queue has
one. This is so when the queue has none when the module is stopped and none is put there
afterwards. -/
theorem contexts_freed (entries : List ℕ) (load : List Outcome) (steps : List ModuleStep)
    (m : Module) (h : run (connectionPoolSize entries) load steps = some m) :
    (∀ x, m.log.count (.free x) ≤ 1) ∧
    (∀ x before after, m.log = before ++ .free x :: after → .use x ∉ after) ∧
    (m.Returned → ((∀ x, .alloc x ∈ m.log → m.log.count (.free x) = 1) ↔
      ∀ c ∈ m.state.queue, (m.state.conn c).cc = none)) ∧
    (Throughout (ClearedAfter (connectionPoolSize entries) load) steps → m.Returned →
      ∀ x, .alloc x ∈ m.log → m.log.count (.free x) = 1) := by
  have hok := ok_of_run h
  have hsound : Ledger.Sound m.log := by
    obtain ⟨l, ⟨-, hacc⟩, -⟩ := hok.sound
    exact hacc.sound
  have hfreed : m.Returned → ((∀ x, .alloc x ∈ m.log → m.log.count (.free x) = 1) ↔
      ∀ c ∈ m.state.queue, (m.state.conn c).cc = none) := by
    intro hret
    constructor
    · intro hall c hc
      by_contra hcc
      obtain ⟨x, hcc⟩ := Option.ne_none_iff_exists'.mp hcc
      -- a connection that came back with a context keeps it live
      obtain ⟨hmade, hnot⟩ := (hok.live_iff hret x).mpr ⟨c, hc, hcc⟩
      have hone := hall x hmade
      rw [List.count_eq_zero.mpr hnot] at hone
      cases hone
    · intro hnone x hmade
      refine hsound.count_free_eq_one hmade fun hlive => ?_
      obtain ⟨c, hc, hcc⟩ := (hok.live_iff hret x).mp hlive
      rw [hnone c hc] at hcc
      cases hcc
  refine ⟨hsound.count_free_le_one, ?_, hfreed, fun hst hret => ?_⟩
  · rintro x before after hlog
    rw [hlog] at hsound
    exact hsound.not_mem_of_free.1
  · refine (hfreed hret).mpr (queueClear_of_run hst h ?_)
    rw [hret.1]
    rfl

/-- A thread that takes no step stays idle. -/
theorem thread_eq_none_of_run {n : ℕ} {load : List Outcome} {steps : List ModuleStep} {t : ℕ}
    (h : run n load steps = some m) (ht : ∀ lab, .thread lab ∈ steps → lab.thread ≠ t) :
    m.config.thread t = none := by
  induction steps using List.reverseRecOn generalizing m with
  | nil =>
    simp only [run, List.foldlM_nil, Option.bind_eq_some_iff] at h
    obtain ⟨r, -, hm⟩ := h
    cases hm
    rfl
  | append_singleton steps st ih =>
    rw [run_snoc, Option.bind_eq_some_iff] at h
    obtain ⟨m₀, hm₀, hs⟩ := h
    have hidle := ih hm₀ fun lab hlab => ht lab (List.mem_append_left _ hlab)
    cases st with
    | thread lab =>
      simp only [step, Option.map_eq_some_iff] at hs
      obtain ⟨g, hg, rfl⟩ := hs
      exact (System.thread_of_step hg (ht lab (by simp)).symm).trans hidle
    | shutdown rounds =>
      simp only [step] at hs
      split at hs <;> cases hs
      exact hidle
    | drain o =>
      obtain rfl := drain_step (ok_of_run hm₀) hs
      exact hidle

/-- Whether the shutdown has returned. -/
def ended (m : Module) : Bool :=
  match m.shutdown with
  | some (.ret ended) => ended
  | _ => false

theorem shutdown_eq_of_ended (h : m.ended = true) : m.shutdown = some (.ret true) := by
  simp only [ended] at h
  split at h
  · rename_i hm
    rw [hm, h]
  · cases h

/-- The module is stopped while an operation is under way with the only context, which it frees. -/
theorem contexts_freed_during_delete :
    let load := List.replicate 10 { made := true } ++ List.replicate 13 { err := true }
    let steps := [.thread (.start 1 (.delete (CStr.ofString "a")))] ++
      List.replicate 4 (.thread (.step 1 {})) ++ [.shutdown 1, .drain {}] ++
      List.replicate 8 (.thread (.step 1 {}))
    ∃ m, run (connectionPoolSize [2]) load steps = some m ∧
      Throughout (ClearedAfter (connectionPoolSize [2]) load) steps ∧ m.Returned ∧
      .alloc 0 ∈ m.log ∧ m.log.count (.free 0) = 1 := by
  intro load steps
  have hrun : (run (connectionPoolSize [2]) load steps).map
      (fun m => (m.ended, (m.config.thread 1).isNone, m.log.count (.alloc 0))) =
      some (true, true, 1) := by
    decide +kernel
  obtain ⟨m, hm, hends⟩ := Option.map_eq_some_iff.mp hrun
  simp only [Prod.mk.injEq] at hends
  obtain ⟨hended, hthread, hcount⟩ := hends
  have hcleared : Throughout (ClearedAfter (connectionPoolSize [2]) load) steps := by
    rw [throughout_iff_getElem]
    decide +kernel
  have hret : m.Returned := by
    refine ⟨shutdown_eq_of_ended hended, fun t => ?_⟩
    by_cases ht : t = 1
    · rw [ht]
      exact Option.isNone_iff_eq_none.mp hthread
    · refine thread_eq_none_of_run hm fun lab hlab => ?_
      have hlab : lab = .start 1 (.delete (CStr.ofString "a")) ∨ lab = .step 1 {} := by
        simpa [steps] using hlab
      rcases hlab with rfl | rfl
      · exact Ne.symm ht
      · exact Ne.symm ht
  have hmade : .alloc 0 ∈ m.log := List.count_pos_iff.mp (by omega)
  have hfreed := contexts_freed [2] load steps m hm
  exact ⟨m, hm, hcleared, hret, hmade, hfreed.2.2.2 hcleared hret 0 hmade⟩

/-- The module is loaded with two connections and shut down: their contexts are never freed. -/
theorem contexts_left_in_queue : ∃ m,
    run (connectionPoolSize [2]) (List.replicate 20 {}) [.shutdown 1, .drain {}] = some m ∧
      m.Returned ∧ .alloc 0 ∈ m.log ∧ .free 0 ∉ m.log := by
  have hrun : (run (connectionPoolSize [2]) (List.replicate 20 {}) [.shutdown 1, .drain {}]).map
      (fun m => (m.ended, m.log.count (.alloc 0), m.log.count (.free 0))) = some (true, 1, 0) := by
    decide +kernel
  obtain ⟨m, hm, hends⟩ := Option.map_eq_some_iff.mp hrun
  simp only [Prod.mk.injEq] at hends
  obtain ⟨hended, hmade, hfree⟩ := hends
  refine ⟨m, hm, ⟨shutdown_eq_of_ended hended, fun t => ?_⟩, ?_, List.count_eq_zero.mp hfree⟩
  · exact thread_eq_none_of_run hm fun lab hlab => by simp at hlab
  · exact List.count_pos_iff.mp (by omega)

end Module

end Redis
