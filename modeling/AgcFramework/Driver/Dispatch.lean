import Mathlib.Logic.Pairwise
import AgcFramework.Driver.Epoll

/-!
# The dispatcher threads

Each dispatcher thread of the epoll driver waits for events of its own instance and calls the
handlers of their connections. The handlers and the other threads of the program call the driver
in between, whenever they like. A call of the driver is one step here, as it is when no two calls
on one connection overlap; each test of the loop for an active connection is a step of its own, and
the call of the handler behind it is another, so that the connection can be deleted between the two.

## Main definitions

* `DispatchSystem`: the driver's state and where each dispatcher thread is
* `DispatchSystem.step`, `DispatchSystem.run`: the steps of all threads, in any order
* `DispatchSystem.Single`: a connection is added once, and its events are added while it is active

## Main results

* `DispatchSystem.exclusive`: no two threads have events of the same connection in hand
* `DispatchSystem.silent_after_delete`: only a thread that has passed its test before the deletion
  still calls a handler of a deleted connection
* `DispatchSystem.batch_served`: the handlers that an undisturbed thread calls
-/

open Trace

def EPOLLERR : Mask := 0x008
def EPOLLHUP : Mask := 0x010

def MAX_EPOLLEVENTS : ℕ := 1024

/-- Which handlers of an `agc_routine_t` are set. -/
structure EpollRoutine where
  readHandle : Bool
  writeHandle : Bool

/-- What the loop reads of an `agc_connection_t` and the driver does not write. -/
structure EpollConnection where
  fd : ℤ
  /-- `c->listening`, with whether its `handler` is set. -/
  listening : Option Bool
  routine : Option EpollRoutine

/-- Where a dispatcher thread is. -/
inductive DispatchPc
  /-- Before the test of `SYSTEM_RUNNING`. -/
  | top
  /-- In `epoll_wait`. -/
  | waiting
  /-- Before the next one of the events that it still has. -/
  | batch (rest : List (Fd × Mask))
  /-- Behind the test of `listening->handler`, before its call. -/
  | toAccept (c : Fd) (rest : List (Fd × Mask))
  /-- In `listening->handler`. -/
  | accepting (c : Fd) (rest : List (Fd × Mask))
  /-- Before the test for a read event. -/
  | beforeRead (c : Fd) (flags : Mask) (rest : List (Fd × Mask))
  /-- Behind the test for a read event, before the call. -/
  | toRead (c : Fd) (flags : Mask) (rest : List (Fd × Mask))
  /-- In `routine->read_handle`. -/
  | reading (c : Fd) (flags : Mask) (rest : List (Fd × Mask))
  /-- Before the test for a write event. -/
  | beforeWrite (c : Fd) (flags : Mask) (rest : List (Fd × Mask))
  /-- Behind the test for a write event, before the call. -/
  | toWrite (c : Fd) (rest : List (Fd × Mask))
  /-- In `routine->write_handle`. -/
  | writing (c : Fd) (rest : List (Fd × Mask))
  | ended
  deriving DecidableEq

/-- The connections whose events the thread has in hand. -/
def DispatchPc.held : DispatchPc → List Fd
  | top | waiting | ended => []
  | batch rest => rest.map Prod.fst
  | toAccept c rest | accepting c rest | toWrite c rest | writing c rest => c :: rest.map Prod.fst
  | beforeRead c _ rest | toRead c _ rest | reading c _ rest | beforeWrite c _ rest =>
    c :: rest.map Prod.fst

/-- The driver's state and where each dispatcher thread is. -/
structure DispatchSystem (cpus : ℕ) where
  epoll : Epoll cpus
  systemRunning : Bool
  pc : Dispatcher cpus → DispatchPc

/-- A step of the program. -/
inductive DispatchStep (cpus : ℕ)
  /-- `epoll_wait` returns; it returns no events when a signal interrupts it. -/
  | ready (i : Dispatcher cpus) (events : List (Fd × Mask))
  /-- `epoll_wait` fails. -/
  | failed (i : Dispatcher cpus)
  /-- The loop goes on, or the handler that it called returns. -/
  | loop (i : Dispatcher cpus)
  /-- A handler or another thread calls the driver. -/
  | call (op : EpollOp cpus)
  /-- `mod_epoll_shutdown` clears `SYSTEM_RUNNING`. -/
  | shutdown

/-- The call of a handler. -/
inductive HandlerCall
  | accept (c : Fd)
  | read (c : Fd)
  | write (c : Fd)
  deriving DecidableEq, Repr

/-- The connection of a call of its routine's handlers. -/
def HandlerCall.routine : HandlerCall → Option Fd
  | accept _ => none
  | read c | write c => some c

/-- The handler that the thread calls next, whatever happens before. -/
def DispatchPc.due : DispatchPc → List HandlerCall
  | toAccept c _ => [.accept c]
  | toRead c _ _ => [.read c]
  | toWrite c _ => [.write c]
  | _ => []

/-- The handler that the thread is in. -/
def DispatchPc.call : DispatchPc → List HandlerCall
  | accepting c _ => [.accept c]
  | reading c _ _ => [.read c]
  | writing c _ => [.write c]
  | _ => []

/-- The flags after the test for errors. -/
def eventFlags (flags : Mask) : Mask :=
  if flags &&& (EPOLLERR ||| EPOLLHUP) ≠ 0 then flags ||| (EPOLLIN ||| EPOLLOUT) else flags

namespace Epoll

variable {cpus : ℕ} {st : Epoll cpus} {i : Dispatcher cpus} {c : Fd} {op : EpollOp cpus}

/-- A registered connection is active, and its instance is the remembered one. -/
theorem Consistent.registered (h : st.Consistent) (hi : (st.interest i c).isSome) :
    st.active c = true ∧ st.threadIndex c = i := by
  cases ha : st.active c with
  | false => simp [(h c).2 ha i] at hi
  | true => exact ⟨rfl, (((consistentAt_of_active ha).mp (h c) i).mp hi).symm⟩

@[simp] theorem epollCtl_threadIndex (st : Epoll cpus) (i : Dispatcher cpus) (o : EpollCtl)
    (fd : Fd) (m : Mask) : (epollCtl st i o fd m).1.threadIndex = st.threadIndex := by
  simp only [epollCtl]
  split <;> rfl

/-- The remembered instance changes when the connection is added. -/
theorem threadIndex_exec (hop : ∀ r, op ≠ .addConnection c r) :
    (op.exec st).1.threadIndex c = st.threadIndex c := by
  cases op with
  | addConnection d r =>
    have hc : c ≠ d := by
      rintro rfl
      exact hop r rfl
    exact (same_exec st (.addConnection d r) hc).threadIndex
  | delConnection d =>
    simp only [EpollOp.exec, agcEpollDelConnection]
    split <;> simp
  | addEvent d event r =>
    simp only [EpollOp.exec, agcEpollAddEvent]
    split <;> split <;> simp
  | delEvent d event =>
    simp only [EpollOp.exec, agcEpollDelEvent]
    split
    · split <;> simp
    · rfl

theorem delConnection_active : (agcEpollDelConnection st c).1.active c = false := by
  cases hm : st.interest (st.threadIndex c) c with
  | none => simp [delConnection_of_none hm]
  | some m => simp [delConnection_of_some hm]

/-- An inactive connection stays as it is until it or one of its events is added. -/
theorem inactive_exec (hst : st.active c = false) (hconn : ∀ r, op ≠ .addConnection c r)
    (hevent : ∀ event r, op ≠ .addEvent c event r) : (op.exec st).1.active c = false := by
  by_cases hc : c = op.conn
  · cases op with
    | addConnection d r =>
      obtain rfl : c = d := hc
      exact absurd rfl (hconn r)
    | delConnection d =>
      obtain rfl : c = d := hc
      exact delConnection_active
    | addEvent d event r =>
      obtain rfl : c = d := hc
      exact absurd rfl (hevent event r)
    | delEvent d event =>
      obtain rfl : c = d := hc
      simp only [EpollOp.exec, delEvent_of_inactive hst]
      exact hst
  · exact (same_exec st op hc).active.trans hst

end Epoll

namespace DispatchSystem

variable {cpus : ℕ}

/-- What `epoll_wait` may return for an instance: events of different registered descriptors, of
the kinds in their masks or errors. -/
def epollReady (st : Epoll cpus) (i : Dispatcher cpus) (events : List (Fd × Mask)) : Bool :=
  events.length ≤ MAX_EPOLLEVENTS && decide (events.map Prod.fst).Nodup &&
    events.all fun e =>
      match st.interest i e.1 with
      | some m => e.2 &&& (m ||| EPOLLERR ||| EPOLLHUP) = e.2 && e.2 ≠ 0
      | none => false

/-- The threads are about to wait. -/
def init (cpus : ℕ) : DispatchSystem cpus where
  epoll := Epoll.init cpus
  systemRunning := true
  pc _ := .top

def setPc (s : DispatchSystem cpus) (i : Dispatcher cpus) (p : DispatchPc) : DispatchSystem cpus :=
  { s with pc := Function.update s.pc i p }

variable (conns : Fd → EpollConnection)

/-- The body of the loop over the events, up to the first handler. -/
def dispatch (st : Epoll cpus) (c : Fd) (flags : Mask) (rest : List (Fd × Mask)) : DispatchPc :=
  if (conns c).fd = -1 then .batch rest
  else
    match (conns c).listening with
    | some handler =>
      if flags &&& EPOLLIN ≠ 0 ∧ handler then .toAccept c rest else .batch rest
    | none =>
      if (conns c).routine.isNone ∨ !st.active c then .batch rest
      else .beforeRead c (eventFlags flags) rest

/-- `agc_epoll_dispatch_event`, from one place to the next. -/
def loopPc (s : DispatchSystem cpus) : DispatchPc → DispatchPc
  | .top => if s.systemRunning then .waiting else .ended
  | .waiting => .waiting
  | .batch [] => .top
  | .batch ((c, flags) :: rest) => dispatch conns s.epoll c flags rest
  | .toAccept c rest => .accepting c rest
  | .accepting _ rest => .batch rest
  | .beforeRead c flags rest =>
    if flags &&& EPOLLIN ≠ 0 ∧ (conns c).routine.any (·.readHandle) ∧ s.epoll.active c then
      .toRead c flags rest
    else .beforeWrite c flags rest
  | .toRead c flags rest => .reading c flags rest
  | .reading c flags rest => .beforeWrite c flags rest
  | .beforeWrite c flags rest =>
    if flags &&& EPOLLOUT ≠ 0 ∧ (conns c).routine.any (·.writeHandle) ∧ s.epoll.active c then
      .toWrite c rest
    else .batch rest
  | .toWrite c rest => .writing c rest
  | .writing _ rest => .batch rest
  | .ended => .ended

/-- A step; one that is not possible changes nothing. -/
def step (s : DispatchSystem cpus) : DispatchStep cpus → DispatchSystem cpus
  | .ready i events =>
    if s.pc i = .waiting ∧ epollReady s.epoll i events then s.setPc i (.batch events) else s
  | .failed i => if s.pc i = .waiting then s.setPc i .ended else s
  | .loop i => s.setPc i (loopPc conns s (s.pc i))
  | .call op => { s with epoll := (op.exec s.epoll).1 }
  | .shutdown => { s with systemRunning := false }

def run (l : List (DispatchStep cpus)) : DispatchSystem cpus := l.foldl (step conns) (init cpus)

@[simp] theorem run_snoc (l : List (DispatchStep cpus)) (e : DispatchStep cpus) :
    run conns (l ++ [e]) = step conns (run conns l) e := by
  simp [run]

/-- The handler that a step calls. -/
def calls (s : DispatchSystem cpus) : DispatchStep cpus → List HandlerCall
  | .loop i => (loopPc conns s (s.pc i)).call
  | _ => []

/-- The connection that a step adds. -/
def adds : DispatchStep cpus → Option Fd
  | .call (.addConnection c _) => some c
  | _ => none

/-- A connection is added once, and its events are added while it is active. -/
def Single (p : List (DispatchStep cpus)) : DispatchStep cpus → Prop
  | .call (.addConnection c _) => ∀ e ∈ p, adds e ≠ some c
  | .call (.addEvent c _ _) => (run conns p).epoll.active c = true
  | _ => True

/-! ## What a step changes -/

variable {conns} {s : DispatchSystem cpus} {i j : Dispatcher cpus} {c : Fd}
  {p q : List (DispatchStep cpus)} {e : DispatchStep cpus}

@[simp] theorem setPc_epoll (x : DispatchPc) : (s.setPc i x).epoll = s.epoll := rfl

theorem setPc_setPc (x y : DispatchPc) : (s.setPc i x).setPc i y = s.setPc i y := by
  simp [setPc]

theorem setPc_pc (x : DispatchPc) : (s.setPc i x).pc j = if j = i then x else s.pc j :=
  Function.update_apply _ _ _ _

/-- The loop takes no event in hand. -/
theorem held_loopPc (s : DispatchSystem cpus) (x : DispatchPc) (hc : c ∈ (loopPc conns s x).held) :
    c ∈ x.held := by
  cases x with
  | top => simp only [loopPc] at hc; split at hc <;> exact hc
  | waiting => exact hc
  | batch rest =>
    rcases rest with _ | ⟨⟨d, flags⟩, rest⟩
    · exact hc
    · simp only [loopPc, dispatch] at hc
      simp only [DispatchPc.held, List.map_cons]
      split at hc
      · exact List.mem_cons_of_mem d hc
      · split at hc
        · split at hc
          · exact hc
          · exact List.mem_cons_of_mem d hc
        · split at hc
          · exact List.mem_cons_of_mem d hc
          · exact hc
  | toAccept d rest => exact hc
  | accepting d rest => exact List.mem_cons_of_mem d hc
  | beforeRead d flags rest => simp only [loopPc] at hc; split at hc <;> exact hc
  | toRead d flags rest => exact hc
  | reading d flags rest => exact hc
  | beforeWrite d flags rest =>
    simp only [loopPc] at hc
    split at hc
    · exact hc
    · exact List.mem_cons_of_mem d hc
  | toWrite d rest => exact hc
  | writing d rest => exact List.mem_cons_of_mem d hc
  | ended => exact hc

/-- A thread has a connection in hand that it had before, or that is registered in its instance. -/
theorem held_step (conns : Fd → EpollConnection) (s : DispatchSystem cpus) (e : DispatchStep cpus)
    (hc : c ∈ ((step conns s e).pc i).held) :
    c ∈ (s.pc i).held ∨ (s.epoll.interest i c).isSome := by
  cases e with
  | ready j events =>
    simp only [step] at hc
    split at hc
    · rename_i hready
      rw [setPc_pc] at hc
      split at hc
      · rename_i hij
        obtain ⟨⟨d, flags⟩, hd, rfl⟩ := List.mem_map.mp hc
        have hall := (Bool.and_eq_true _ _ ▸ hready.2).2
        have hd' := List.all_eq_true.mp hall _ hd
        subst hij
        cases hm : s.epoll.interest i d with
        | none => simp [hm] at hd'
        | some m => exact Or.inr (by simp)
      · exact Or.inl hc
    · exact Or.inl hc
  | failed j =>
    simp only [step] at hc
    split at hc
    · rw [setPc_pc] at hc
      split at hc
      · simp [DispatchPc.held] at hc
      · exact Or.inl hc
    · exact Or.inl hc
  | loop j =>
    simp only [step] at hc
    rw [setPc_pc] at hc
    split at hc
    · rename_i hij
      exact Or.inl (hij ▸ held_loopPc s _ hc)
    · exact Or.inl hc
  | call op => exact Or.inl hc
  | shutdown => exact Or.inl hc

/-- Only a call of the driver changes its state. -/
theorem epoll_step (conns : Fd → EpollConnection) (s : DispatchSystem cpus)
    (e : DispatchStep cpus) :
    (step conns s e).epoll = s.epoll ∨
      ∃ op, e = .call op ∧ (step conns s e).epoll = (op.exec s.epoll).1 := by
  cases e with
  | ready j events => left; simp only [step]; split <;> rfl
  | failed j => left; simp only [step]; split <;> rfl
  | loop j => exact Or.inl rfl
  | call op => exact Or.inr ⟨op, rfl, rfl⟩
  | shutdown => exact Or.inl rfl

/-! ## The connections in hand -/

/-- A connection that was not added yet is not registered, and no thread has it in hand. -/
structure Fresh (s : DispatchSystem cpus) (c : Fd) : Prop where
  active : s.epoll.active c = false
  interest : ∀ i, s.epoll.interest i c = none
  held : ∀ i, c ∉ (s.pc i).held

/-- The registrations are the remembered ones, and a thread has only connections of its own
instance in hand. -/
structure Inv (p : List (DispatchStep cpus)) (s : DispatchSystem cpus) : Prop where
  fresh : ∀ c, (∀ e ∈ p, adds e ≠ some c) → s.Fresh c
  consistent : s.epoll.Consistent
  threadIndex : ∀ i, ∀ c ∈ (s.pc i).held, s.epoll.threadIndex c = i

theorem Inv.init : Inv [] (init cpus) where
  fresh _ _ := ⟨rfl, fun _ => rfl, fun _ => List.not_mem_nil⟩
  consistent := Epoll.consistent_init cpus
  threadIndex _ _ hc := absurd hc List.not_mem_nil

/-- What a step of a single run calls leaves the registrations the remembered ones. -/
theorem Inv.recorded (h : Inv p (run conns p)) {op : EpollOp cpus}
    (hop : Single conns p (.call op)) : (run conns p).epoll.Recorded op := by
  cases op with
  | addConnection c r => exact Or.inl (h.fresh c hop).active
  | addEvent c event r => exact Or.inl hop
  | delConnection c => trivial
  | delEvent c event => trivial

/-- A call that does not add an inactive connection leaves it inactive. -/
theorem Single.inactive {op : EpollOp cpus} (hop : Single conns p (.call op))
    (hadds : adds (.call op) ≠ some c) (ha : (run conns p).epoll.active c = false) :
    (op.exec (run conns p).epoll).1.active c = false := by
  refine Epoll.inactive_exec ha (fun r hr => ?_) (fun event r hr => ?_)
  · subst hr
    exact hadds rfl
  · subst hr
    have hactive : (run conns p).epoll.active c = true := hop
    simp [ha] at hactive

/-- **A step** of a single run keeps the invariant. -/
theorem Inv.snoc (h : Inv p (run conns p)) (he : Single conns p e) :
    Inv (p ++ [e]) (run conns (p ++ [e])) := by
  rw [run_snoc]
  have hconsistent : (step conns (run conns p) e).epoll.Consistent := by
    rcases epoll_step conns (run conns p) e with heq | ⟨op, rfl, heq⟩
    · rw [heq]
      exact h.consistent
    · rw [heq]
      exact h.consistent.exec_iff.mpr (h.recorded he)
  constructor
  · intro c hc
    have hp : ∀ e' ∈ p, adds e' ≠ some c := fun e' he' => hc e' (List.mem_append_left _ he')
    have hadds : adds e ≠ some c := hc e (by simp)
    have hfresh := h.fresh c hp
    have hactive : (step conns (run conns p) e).epoll.active c = false := by
      rcases epoll_step conns (run conns p) e with heq | ⟨op, rfl, heq⟩
      · rw [heq]
        exact hfresh.active
      · rw [heq]
        exact Single.inactive he hadds hfresh.active
    refine ⟨hactive, (hconsistent c).2 hactive, fun i hi => ?_⟩
    rcases held_step _ _ _ hi with hi | hi
    · exact hfresh.held i hi
    · simp [hfresh.interest i] at hi
  · exact hconsistent
  · intro i c hc
    have hheld := held_step _ _ _ hc
    have hindex : (run conns p).epoll.threadIndex c = i := by
      rcases hheld with hi | hi
      · exact h.threadIndex i c hi
      · exact (h.consistent.registered hi).2
    rcases epoll_step conns (run conns p) e with heq | ⟨op, rfl, heq⟩
    · rw [heq]
      exact hindex
    · rw [heq, Epoll.threadIndex_exec, hindex]
      rintro r rfl
      -- a connection that is added now is in nobody's hand
      have hfresh := h.fresh c he
      rcases hheld with hi | hi
      · exact hfresh.held i hi
      · simp [hfresh.interest i] at hi

/-- **The run** keeps the invariant. -/
theorem Inv.run (l : List (DispatchStep cpus)) (hl : Throughout (Single conns) l) :
    Inv l (run conns l) := by
  induction l using List.reverseRecOn with
  | nil => exact Inv.init
  | append_singleton p e ih =>
    obtain ⟨hp, he⟩ := throughout_snoc.mp hl
    exact (ih hp).snoc he

/-- **Exclusion**: in a run that adds each connection once, no two dispatcher threads have events
of the same connection in hand, so no two are in handlers of the same connection. -/
theorem exclusive (l : List (DispatchStep cpus)) (hl : Throughout (Single conns) l) :
    Pairwise fun i j => ((run conns l).pc i).held.Disjoint ((run conns l).pc j).held := by
  intro i j hij c hi hj
  have h := Inv.run l hl
  exact hij ((h.threadIndex i c hi).symm.trans (h.threadIndex j c hj))

/-- Two connections are read at the same time. -/
theorem exclusive_two :
    let conns : Fd → EpollConnection := fun c => ⟨c, none, some ⟨true, true⟩⟩
    let l : List (DispatchStep 4) := [.call (.addConnection 7 1), .call (.addConnection 8 2),
      .loop 1, .loop 2, .ready 1 [(7, EPOLLIN)], .ready 2 [(8, EPOLLIN)], .loop 1, .loop 2,
      .loop 1, .loop 2, .loop 1, .loop 2]
    ((run conns l).pc 1 = .reading 7 EPOLLIN [] ∧ (run conns l).pc 2 = .reading 8 EPOLLIN []) ∧
      Pairwise fun i j => ((run conns l).pc i).held.Disjoint ((run conns l).pc j).held := by
  intro conns l
  refine ⟨⟨by decide, by decide⟩, exclusive l ?_⟩
  simp [l, throughout_cons, Single, adds]

/-- A connection that its read handler deletes and adds again can be read by a second thread. -/
theorem readded_held_twice :
    let conns : Fd → EpollConnection := fun c => ⟨c, none, some ⟨true, true⟩⟩
    let l : List (DispatchStep 4) := [.call (.addConnection 7 1), .loop 1, .loop 2,
      .ready 1 [(7, EPOLLIN)], .loop 1, .loop 1, .loop 1, .call (.delConnection 7),
      .call (.addConnection 7 2), .ready 2 [(7, EPOLLIN)], .loop 2, .loop 2, .loop 2]
    (run conns l).pc 1 = .reading 7 EPOLLIN [] ∧ (run conns l).pc 2 = .reading 7 EPOLLIN [] := by
  intro conns l
  exact ⟨by decide, by decide⟩

/-! ## After a deletion -/

/-- A test does not admit the handlers of an inactive connection's routine. -/
theorem routine_ne_of_due (ha : s.epoll.active c = false) (x : DispatchPc) {h : HandlerCall}
    (hdue : h ∈ (loopPc conns s x).due) : h.routine ≠ some c := by
  intro hc
  cases x with
  | top =>
    simp only [loopPc] at hdue
    split at hdue <;> cases hdue
  | batch rest =>
    rcases rest with _ | ⟨⟨d, flags⟩, rest⟩
    · cases hdue
    · simp only [loopPc, dispatch] at hdue
      split at hdue
      · cases hdue
      · split at hdue
        · split at hdue
          · obtain rfl := List.mem_singleton.mp hdue
            cases hc
          · cases hdue
        · split at hdue <;> cases hdue
  | beforeRead d flags rest =>
    simp only [loopPc] at hdue
    split at hdue
    · rename_i hread
      obtain rfl := List.mem_singleton.mp hdue
      obtain rfl : d = c := Option.some.inj hc
      simp [ha] at hread
    · cases hdue
  | beforeWrite d flags rest =>
    simp only [loopPc] at hdue
    split at hdue
    · rename_i hwrite
      obtain rfl := List.mem_singleton.mp hdue
      obtain rfl : d = c := Option.some.inj hc
      simp [ha] at hwrite
    · cases hdue
  | _ => cases hdue

/-- The handler that is called is the one whose test was passed. -/
theorem call_loopPc (s : DispatchSystem cpus) (x : DispatchPc) :
    (loopPc conns s x).call = x.due := by
  cases x with
  | top => simp only [loopPc]; split <;> rfl
  | batch rest =>
    rcases rest with _ | ⟨⟨d, flags⟩, rest⟩
    · rfl
    · simp only [loopPc, dispatch]
      split
      · rfl
      · split <;> split <;> rfl
  | beforeRead d flags rest => simp only [loopPc]; split <;> rfl
  | beforeWrite d flags rest => simp only [loopPc]; split <;> rfl
  | _ => rfl

theorem calls_eq (s : DispatchSystem cpus) (e : DispatchStep cpus) :
    calls conns s e = match e with
      | .loop i => (s.pc i).due
      | _ => [] := by
  cases e with
  | loop i => exact call_loopPc s (s.pc i)
  | _ => rfl

/-- A handler of an inactive connection is due only where it was before the step. -/
theorem due_step (ha : s.epoll.active c = false) (e : DispatchStep cpus) {h : HandlerCall}
    (hdue : h ∈ ((step conns s e).pc j).due) (hc : h.routine = some c) :
    h ∈ (s.pc j).due ∧ e ≠ .loop j := by
  cases e with
  | ready i events =>
    simp only [step] at hdue
    split at hdue
    · rw [setPc_pc] at hdue
      split at hdue
      · cases hdue
      · exact ⟨hdue, nofun⟩
    · exact ⟨hdue, nofun⟩
  | failed i =>
    simp only [step] at hdue
    split at hdue
    · rw [setPc_pc] at hdue
      split at hdue
      · cases hdue
      · exact ⟨hdue, nofun⟩
    · exact ⟨hdue, nofun⟩
  | loop i =>
    simp only [step, setPc_pc] at hdue
    split at hdue
    · exact absurd hc (routine_ne_of_due ha _ hdue)
    · rename_i hne
      refine ⟨hdue, ?_⟩
      rintro ⟨⟩
      exact hne rfl
  | call op => exact ⟨hdue, nofun⟩
  | shutdown => exact ⟨hdue, nofun⟩

theorem held_of_due {x : DispatchPc} {h : HandlerCall} (hdue : h ∈ x.due)
    (hc : h.routine = some c) : c ∈ x.held ∧ x.due = [h] := by
  cases x with
  | toAccept d rest =>
    obtain rfl := List.mem_singleton.mp hdue
    cases hc
  | toRead d flags rest =>
    obtain rfl := List.mem_singleton.mp hdue
    obtain rfl : d = c := Option.some.inj hc
    exact ⟨List.mem_cons_self, rfl⟩
  | toWrite d rest =>
    obtain rfl := List.mem_singleton.mp hdue
    obtain rfl : d = c := Option.some.inj hc
    exact ⟨List.mem_cons_self, rfl⟩
  | _ => cases hdue

/-- The calls of handlers of the connection's routine. -/
def ofRoutine (c : Fd) (log : List HandlerCall) : List HandlerCall :=
  log.filter fun h => h.routine = some c

/-- What is left of a deleted connection: no handler of it was called since, and those that are due
were so at its deletion, in `s`; or the one that was due there has been called, and no other is. -/
def Fading (c : Fd) (s s' : DispatchSystem cpus) (log : List HandlerCall) : Prop :=
  (ofRoutine c log = [] ∧
      ∀ i, ∀ h ∈ (s'.pc i).due, h.routine = some c → (s.pc i).due = [h]) ∨
    ∃ i h, (s.pc i).due = [h] ∧ h.routine = some c ∧ ofRoutine c log = [h] ∧
      ∀ j, ∀ h' ∈ (s'.pc j).due, h'.routine ≠ some c

/-- **A step** behind a deletion. -/
theorem Fading.snoc {s' : DispatchSystem cpus} {log : List HandlerCall} (h : Fading c s s' log)
    (ha : s'.epoll.active c = false)
    (hexcl : Pairwise fun i j => (s'.pc i).held.Disjoint (s'.pc j).held) (e : DispatchStep cpus) :
    Fading c s (step conns s' e) (log ++ calls conns s' e) := by
  rw [calls_eq]
  rcases h with ⟨hlog, hdue⟩ | ⟨i, call, hi, hcall, hlog, hnone⟩
  · by_cases hcalled : ∃ i call, e = .loop i ∧ call ∈ (s'.pc i).due ∧ call.routine = some c
    · -- the handler that was due is called, and no other thread has the connection in hand
      obtain ⟨i, call, rfl, hmem, hcall⟩ := hcalled
      obtain ⟨hheld, hsingle⟩ := held_of_due hmem hcall
      refine Or.inr ⟨i, call, hdue i call hmem hcall, hcall, ?_, fun j h' hh' hc' => ?_⟩
      · simp [ofRoutine, hsingle, hcall] at hlog ⊢
        exact hlog
      · obtain ⟨hh, hne⟩ := due_step ha _ hh' hc'
        have hij : i ≠ j := fun hij => hne (hij ▸ rfl)
        exact hexcl hij hheld (held_of_due hh hc').1
    · refine Or.inl ⟨?_, fun i h' hh' hc' => hdue i h' (due_step ha _ hh' hc').1 hc'⟩
      cases e with
      | loop i =>
        rw [ofRoutine, List.filter_append, ← ofRoutine, hlog, List.nil_append,
          List.filter_eq_nil_iff]
        intro h' hh' hc'
        exact hcalled ⟨i, h', rfl, hh', by simpa using hc'⟩
      | _ => simpa using hlog
  · refine Or.inr ⟨i, call, hi, hcall, ?_, fun j h' hh' hc' =>
      hnone j h' (due_step ha _ hh' hc').1 hc'⟩
    cases e with
    | loop j =>
      have hnil : (s'.pc j).due.filter (fun h => decide (h.routine = some c)) = [] := by
        rw [List.filter_eq_nil_iff]
        intro h' hh' hc'
        exact hnone j h' hh' (by simpa using hc')
      rw [ofRoutine, List.filter_append, hnil, List.append_nil]
      exact hlog
    | _ => simpa using hlog

variable (conns) in
/-- The handlers that an event is for. -/
def served (st : Epoll cpus) (event : Fd × Mask) : List HandlerCall :=
  let (c, flags) := event
  if (conns c).fd = -1 then []
  else
    match (conns c).listening with
    | some handler => if flags &&& EPOLLIN ≠ 0 ∧ handler then [.accept c] else []
    | none =>
      if st.active c then
        let flags := eventFlags flags
        (if flags &&& EPOLLIN ≠ 0 ∧ (conns c).routine.any (·.readHandle) then [.read c] else []) ++
        if flags &&& EPOLLOUT ≠ 0 ∧ (conns c).routine.any (·.writeHandle) then [.write c] else []
      else []

/-- The thread comes from `x` to `y` by steps of its own, and calls these handlers. -/
def Serves (conns : Fd → EpollConnection) (s : DispatchSystem cpus) (i : Dispatcher cpus)
    (x y : DispatchPc) (log : List HandlerCall) : Prop :=
  ∃ n, observed (step conns) (calls conns) (s.setPc i x) (List.replicate n (.loop i)) = log ∧
    (List.replicate n (.loop i)).foldl (step conns) (s.setPc i x) = s.setPc i y

variable {x y z w : DispatchPc} {log : List HandlerCall} {flags : Mask} {rest : List (Fd × Mask)}

theorem Serves.refl : Serves conns s i x x [] := ⟨0, rfl, rfl⟩

/-- One step more at the beginning. -/
theorem Serves.cons (hx : loopPc conns s x = z) (h : Serves conns s i z y log) :
    Serves conns s i x y (z.call ++ log) := by
  obtain ⟨n, hlog, hy⟩ := h
  have hpc : (s.setPc i x).pc i = x := by rw [setPc_pc, if_pos rfl]
  have hloop : loopPc conns (s.setPc i x) x = z := by
    rw [← hx]
    cases x <;> rfl
  have hstep : step conns (s.setPc i x) (.loop i) = s.setPc i z := by
    rw [step, hpc, hloop, setPc_setPc]
  refine ⟨n + 1, ?_, ?_⟩
  · rw [List.replicate_succ, observed, hstep, hlog, calls, hpc, hloop]
  · rw [List.replicate_succ, List.foldl_cons, hstep, hy]

/-- A test for a handler, which is called and returns. -/
theorem Serves.test {t : DispatchPc} {b : Prop} [Decidable b] {call : HandlerCall}
    (hx : loopPc conns s x = if b then t else w) (ht : loopPc conns s t = z)
    (hz : loopPc conns s z = w) (htcall : t.call = []) (hcall : z.call = [call])
    (hw : w.call = []) (h : Serves conns s i w y log) :
    Serves conns s i x y ((if b then [call] else []) ++ log) := by
  by_cases hb : b
  · rw [if_pos hb] at hx ⊢
    have hreturn : Serves conns s i z y log := by
      simpa [hw] using Serves.cons hz h
    have hcalled : Serves conns s i t y ([call] ++ log) := hcall ▸ Serves.cons ht hreturn
    simpa [htcall] using Serves.cons hx hcalled
  · rw [if_neg hb] at hx ⊢
    simpa [hw] using Serves.cons hx h

/-- One event more at the beginning of a batch. -/
theorem Serves.event (h : Serves conns s i (.batch rest) y log) :
    Serves conns s i (.batch ((c, flags) :: rest)) y (served conns s.epoll (c, flags) ++ log) := by
  have hloop : loopPc conns s (.batch ((c, flags) :: rest)) =
      dispatch conns s.epoll c flags rest := rfl
  have hskip (hx : dispatch conns s.epoll c flags rest = .batch rest) :
      Serves conns s i (.batch ((c, flags) :: rest)) y log := Serves.cons (hloop.trans hx) h
  unfold served
  by_cases hfd : (conns c).fd = -1
  · simpa [hfd] using hskip (by simp [dispatch, hfd])
  · simp only [hfd, if_false]
    cases hl : (conns c).listening with
    | some handler =>
      refine Serves.test (t := .toAccept c rest) (w := .batch rest) ?_ rfl rfl rfl rfl rfl h
      rw [hloop, dispatch, if_neg hfd, hl]
    | none =>
      cases ha : s.epoll.active c with
      | false => simpa using hskip (by simp [dispatch, hfd, hl, ha])
      | true =>
        cases hroutine : (conns c).routine with
        | none => simpa using hskip (by simp [dispatch, hfd, hl, hroutine])
        | some routine =>
          have hwrite := Serves.test (x := .beforeWrite c (eventFlags flags) rest)
            (t := .toWrite c rest) (b := eventFlags flags &&& EPOLLOUT ≠ 0 ∧ routine.writeHandle)
            (by simp [loopPc, ha, hroutine]) rfl rfl rfl rfl rfl h
          have hread := Serves.test (x := .beforeRead c (eventFlags flags) rest)
            (t := .toRead c (eventFlags flags) rest)
            (b := eventFlags flags &&& EPOLLIN ≠ 0 ∧ routine.readHandle)
            (by simp [loopPc, ha, hroutine]) rfl rfl rfl rfl rfl hwrite
          have hevent := Serves.cons (x := .batch ((c, flags) :: rest))
            (z := .beforeRead c (eventFlags flags) rest)
            (by simp [hloop, dispatch, hfd, hl, ha, hroutine]) hread
          simpa [DispatchPc.call, List.append_assoc] using hevent

/-- **A batch**: a thread that nobody disturbs calls for each event, in order, the handlers that the
event is for, and is back at the top of its loop. -/
theorem batch_served (conns : Fd → EpollConnection) (s : DispatchSystem cpus) (i : Dispatcher cpus)
    (events : List (Fd × Mask)) :
    Serves conns s i (.batch events) .top (events.flatMap (served conns s.epoll)) := by
  induction events with
  | nil => exact Serves.cons (z := .top) rfl Serves.refl
  | cons event events ih => exact Serves.event ih

end DispatchSystem
