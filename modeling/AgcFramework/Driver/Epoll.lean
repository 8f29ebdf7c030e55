import Mathlib.Algebra.Ring.Nat
import Mathlib.Logic.Function.Basic
import Mathlib.Data.List.Infix
import AgcFramework.Lib.Trace
import AgcFramework.Types

/-!
# The epoll driver

The driver spreads the connections over several epoll instances, one for each dispatcher thread.
A connection remembers whether it is active and the index of its instance; the kernel remembers,
for each instance, the interest mask of each registered descriptor. A connection is named by its
open descriptor.

## Main definitions

* `Epoll`: the driver's and the kernel's state
* `epollCtl`: the kernel's call
* `agcEpollAddConnection`, `agcEpollDelConnection`, `agcEpollAddEvent`, `agcEpollDelEvent`: the
  functions of `mod_epoll.c`
* `Epoll.Consistent`: the registrations are the ones the connections remember
* `subscribedAfter`, `unionMask`: the kinds added and not deleted since, and their mask

## Main results

* `Epoll.consistent_iff_recorded`: the registrations stay the remembered ones exactly in the runs
  whose random draws do not leave the remembered instance
* `Epoll.mask_iff_other_subscribed`: the mask is the union of the subscribed kinds exactly in the
  runs that make each call while the other kind is subscribed
-/

open Trace

/-! ## The kernel's interface -/

/-- A file descriptor. -/
abbrev Fd := ℕ

/-- An interest mask. -/
abbrev Mask := UInt32

def EPOLLIN : Mask := 0x001
def EPOLLOUT : Mask := 0x004
def EPOLLRDHUP : Mask := 0x2000

/-- `AGC_READ_EVENT` of `agc_driver.h`. -/
def AGC_READ_EVENT : Mask := EPOLLIN ||| EPOLLRDHUP

/-- `AGC_WRITE_EVENT` of `agc_driver.h`. -/
def AGC_WRITE_EVENT : Mask := EPOLLOUT

/-- The operations of `epoll_ctl`. -/
inductive EpollCtl
  | add
  | mod
  | del
  deriving DecidableEq, Repr

/-- `EPOLL_MAX_DISPATCHER` after the module is loaded on a machine with `cpus` processors. -/
def epollMaxDispatcher (cpus : ℕ) : ℕ :=
  if cpus / 2 + 1 < 2 then 2 else cpus / 2 + 1

/-- An index into `EPOLLFDS`. -/
abbrev Dispatcher (cpus : ℕ) := Fin (epollMaxDispatcher cpus)

instance (cpus : ℕ) : NeZero (epollMaxDispatcher cpus) :=
  ⟨by unfold epollMaxDispatcher; split <;> omega⟩

/-- The connections' fields that the driver uses, with the kernel's interest lists. -/
structure Epoll (cpus : ℕ) where
  /-- `c->routine->active`. -/
  active : Fd → Bool
  /-- `c->thread_index`. -/
  threadIndex : Fd → Dispatcher cpus
  /-- The interest list of each instance. -/
  interest : Dispatcher cpus → Fd → Option Mask
  /-- The mask that the last `epoll_ctl` for a descriptor was given. -/
  given : Fd → Option Mask

variable {cpus : ℕ}

namespace Epoll

/-- New connections come from zeroed memory. -/
def init (cpus : ℕ) : Epoll cpus where
  active _ := false
  threadIndex _ := 0
  interest _ _ := none
  given _ := none

/-- The store of a descriptor's mask in an instance's interest list. -/
def setInterest (st : Epoll cpus) (i : Dispatcher cpus) (fd : Fd) (m : Option Mask) : Epoll cpus :=
  { st with interest := Function.update st.interest i (Function.update (st.interest i) fd m) }

/-- The store of `c->routine->active`. -/
def setActive (st : Epoll cpus) (c : Fd) (b : Bool) : Epoll cpus :=
  { st with active := Function.update st.active c b }

/-- The store of `c->thread_index`. -/
def setThreadIndex (st : Epoll cpus) (c : Fd) (i : Dispatcher cpus) : Epoll cpus :=
  { st with threadIndex := Function.update st.threadIndex c i }

/-- The mask `epoll_ctl` is given. -/
def setGiven (st : Epoll cpus) (fd : Fd) (events : Mask) : Epoll cpus :=
  { st with given := Function.update st.given fd (some events) }

variable (st : Epoll cpus) (c c' : Fd) (i j : Dispatcher cpus) (b : Bool) (m : Mask)
  (o : Option Mask)

@[simp] theorem setInterest_active : (st.setInterest i c o).active = st.active := rfl
@[simp] theorem setInterest_threadIndex : (st.setInterest i c o).threadIndex = st.threadIndex := rfl
@[simp] theorem setInterest_given : (st.setInterest i c o).given = st.given := rfl

@[simp] theorem setInterest_interest : (st.setInterest i c o).interest j c' =
    if j = i ∧ c' = c then o else st.interest j c' := by
  unfold setInterest
  by_cases hj : j = i
  · subst hj
    by_cases hc : c' = c <;> simp [hc]
  · simp [hj]

@[simp] theorem setActive_active : (st.setActive c b).active c' =
    if c' = c then b else st.active c' := Function.update_apply _ _ _ _
@[simp] theorem setActive_threadIndex : (st.setActive c b).threadIndex = st.threadIndex := rfl
@[simp] theorem setActive_interest : (st.setActive c b).interest = st.interest := rfl
@[simp] theorem setActive_given : (st.setActive c b).given = st.given := rfl

@[simp] theorem setThreadIndex_active : (st.setThreadIndex c i).active = st.active := rfl
@[simp] theorem setThreadIndex_threadIndex : (st.setThreadIndex c i).threadIndex c' =
    if c' = c then i else st.threadIndex c' := Function.update_apply _ _ _ _
@[simp] theorem setThreadIndex_interest : (st.setThreadIndex c i).interest = st.interest := rfl
@[simp] theorem setThreadIndex_given : (st.setThreadIndex c i).given = st.given := rfl

@[simp] theorem setGiven_active : (st.setGiven c m).active = st.active := rfl
@[simp] theorem setGiven_threadIndex : (st.setGiven c m).threadIndex = st.threadIndex := rfl
@[simp] theorem setGiven_interest : (st.setGiven c m).interest = st.interest := rfl
@[simp] theorem setGiven_given : (st.setGiven c m).given c' =
    if c' = c then some m else st.given c' := Function.update_apply _ _ _ _

end Epoll

/-- `epoll_ctl`: an addition fails on a registered descriptor, a change and a removal fail on
others. The result says whether the call succeeded. -/
def epollCtl (st : Epoll cpus) (i : Dispatcher cpus) (op : EpollCtl) (fd : Fd) (events : Mask) :
    Epoll cpus × Bool :=
  let st := st.setGiven fd events
  match op, st.interest i fd with
  | .add, none => (st.setInterest i fd (some events), true)
  | .mod, some _ => (st.setInterest i fd (some events), true)
  | .del, some _ => (st.setInterest i fd none, true)
  | _, _ => (st, false)

/-! ## The driver -/

/-- `agc_epoll_add_connection`; `r` is what `agc_random` draws. -/
def agcEpollAddConnection (st : Epoll cpus) (c : Fd) (r : Dispatcher cpus) :
    Epoll cpus × AgcStatus :=
  let (st, ok) := epollCtl st r .add c (EPOLLIN ||| EPOLLRDHUP)
  if !ok then (st, .generr)
  else ((st.setActive c true).setThreadIndex c r, .success)

/-- `agc_epoll_del_connection`. -/
def agcEpollDelConnection (st : Epoll cpus) (c : Fd) : Epoll cpus × AgcStatus :=
  let (st, ok) := epollCtl (st.setActive c false) (st.threadIndex c) .del c 0
  if !ok then (st, .generr) else (st, .success)

/-- The mask that the driver takes the connection to have besides `event`. -/
def prevEvents (event : Mask) : Mask :=
  if event = AGC_READ_EVENT then EPOLLOUT else EPOLLIN ||| EPOLLRDHUP

/-- `agc_epoll_add_event`; `r` is what `agc_random` draws, if it is called. -/
def agcEpollAddEvent (st : Epoll cpus) (c : Fd) (event : Mask) (r : Dispatcher cpus) :
    Epoll cpus × AgcStatus :=
  let (op, events, index) :=
    if st.active c then (EpollCtl.mod, event ||| prevEvents event, st.threadIndex c)
    -- the instance drawn here is not stored in `c->thread_index`
    else (EpollCtl.add, event, r)
  let (st, ok) := epollCtl st index op c events
  if !ok then (st.setActive c false, .generr)
  else (st.setActive c true, .success)

/-- `agc_epoll_del_event`. -/
def agcEpollDelEvent (st : Epoll cpus) (c : Fd) (event : Mask) : Epoll cpus × AgcStatus :=
  if st.active c then
    let (st, ok) := epollCtl st (st.threadIndex c) .mod c (prevEvents event)
    if !ok then (st, .generr) else (st, .success)
  else (st, .success)

/-- A call of the driver, with what `agc_random` draws in it. -/
inductive EpollOp (cpus : ℕ)
  | addConnection (c : Fd) (r : Dispatcher cpus)
  | delConnection (c : Fd)
  | addEvent (c : Fd) (event : Mask) (r : Dispatcher cpus)
  | delEvent (c : Fd) (event : Mask)

/-- The code of a call. -/
def EpollOp.exec (st : Epoll cpus) : EpollOp cpus → Epoll cpus × AgcStatus
  | addConnection c r => agcEpollAddConnection st c r
  | delConnection c => agcEpollDelConnection st c
  | addEvent c event r => agcEpollAddEvent st c event r
  | delEvent c event => agcEpollDelEvent st c event

/-- The code of a sequence of calls. -/
def epollRun (st : Epoll cpus) (ops : List (EpollOp cpus)) : Epoll cpus :=
  ops.foldl (fun st op => (op.exec st).1) st

@[simp] theorem epollRun_nil (st : Epoll cpus) : epollRun st [] = st := rfl

@[simp] theorem epollRun_snoc (st : Epoll cpus) (ops : List (EpollOp cpus)) (op : EpollOp cpus) :
    epollRun st (ops ++ [op]) = (op.exec (epollRun st ops)).1 := by
  simp [epollRun]

/-- The connection a call is made on. -/
def EpollOp.conn : EpollOp cpus → Fd
  | addConnection c _ => c
  | delConnection c => c
  | addEvent c _ _ => c
  | delEvent c _ => c

namespace Epoll

variable {st st' : Epoll cpus} {c c' fd : Fd} {i j r : Dispatcher cpus} {m events event : Mask}
  {op : EpollOp cpus} {ops : List (EpollOp cpus)}

/-! ## The branches of the functions -/

theorem addConnection_of_none (h : st.interest r c = none) :
    agcEpollAddConnection st c r =
      ((((st.setGiven c AGC_READ_EVENT).setInterest r c (some AGC_READ_EVENT)).setActive c
        true).setThreadIndex c r, .success) := by
  simp [agcEpollAddConnection, epollCtl, h, AGC_READ_EVENT]

theorem addConnection_of_some (h : st.interest r c = some m) :
    agcEpollAddConnection st c r = (st.setGiven c AGC_READ_EVENT, .generr) := by
  simp [agcEpollAddConnection, epollCtl, h, AGC_READ_EVENT]

theorem delConnection_of_none (h : st.interest (st.threadIndex c) c = none) :
    agcEpollDelConnection st c = ((st.setActive c false).setGiven c 0, .generr) := by
  simp [agcEpollDelConnection, epollCtl, h]

theorem delConnection_of_some (h : st.interest (st.threadIndex c) c = some m) :
    agcEpollDelConnection st c =
      (((st.setActive c false).setGiven c 0).setInterest (st.threadIndex c) c none, .success) := by
  simp [agcEpollDelConnection, epollCtl, h]

theorem addEvent_of_inactive (ha : st.active c = false) (h : st.interest r c = none) :
    agcEpollAddEvent st c event r =
      (((st.setGiven c event).setInterest r c (some event)).setActive c true, .success) := by
  simp [agcEpollAddEvent, epollCtl, ha, h]

theorem addEvent_of_active (ha : st.active c = true)
    (h : st.interest (st.threadIndex c) c = some m) :
    agcEpollAddEvent st c event r =
      (((st.setGiven c (event ||| prevEvents event)).setInterest (st.threadIndex c) c
        (some (event ||| prevEvents event))).setActive c true, .success) := by
  simp [agcEpollAddEvent, epollCtl, ha, h]

theorem delEvent_of_inactive (ha : st.active c = false) :
    agcEpollDelEvent st c event = (st, .success) := by
  simp [agcEpollDelEvent, ha]

theorem delEvent_of_active (ha : st.active c = true)
    (h : st.interest (st.threadIndex c) c = some m) :
    agcEpollDelEvent st c event =
      ((st.setGiven c (prevEvents event)).setInterest (st.threadIndex c) c
        (some (prevEvents event)), .success) := by
  simp [agcEpollDelEvent, epollCtl, ha, h]

/-! ## The registrations -/

/-- The registrations of `c` are the ones its fields say: the remembered instance when it is
active, and none otherwise. -/
def ConsistentAt (st : Epoll cpus) (c : Fd) : Prop :=
  (st.active c = true → (st.interest (st.threadIndex c) c).isSome ∧
    ∀ i, i ≠ st.threadIndex c → st.interest i c = none) ∧
  (st.active c = false → ∀ i, st.interest i c = none)

/-- The registrations of every connection are the ones its fields say. -/
def Consistent (st : Epoll cpus) : Prop := ∀ c, st.ConsistentAt c

/-- What a call has to meet in the state before it: an active connection is not added to another
instance, and an inactive one is not made active in another instance than the remembered one. -/
def Recorded (st : Epoll cpus) : EpollOp cpus → Prop
  | .addConnection c r => st.active c = false ∨ r = st.threadIndex c
  | .addEvent c _ r => st.active c = true ∨ r = st.threadIndex c
  | .delConnection _ => True
  | .delEvent _ _ => True

/-- The fields of `c` are the same in the two states. -/
structure Same (st st' : Epoll cpus) (c : Fd) : Prop where
  active : st'.active c = st.active c
  threadIndex : st'.threadIndex c = st.threadIndex c
  interest : ∀ i, st'.interest i c = st.interest i c

theorem Same.consistentAt_iff (h : st.Same st' c) : st'.ConsistentAt c ↔ st.ConsistentAt c := by
  unfold ConsistentAt
  simp only [h.active, h.threadIndex, h.interest]

theorem Same.refl (st : Epoll cpus) (c : Fd) : st.Same st c := ⟨rfl, rfl, fun _ => rfl⟩

theorem Same.setGiven (h : st.Same st' c) : st.Same (st'.setGiven fd m) c :=
  ⟨h.active, h.threadIndex, h.interest⟩

theorem Same.setActive {b : Bool} (h : st.Same st' c) (hc : c ≠ fd) :
    st.Same (st'.setActive fd b) c :=
  ⟨by simp [hc, h.active], h.threadIndex, h.interest⟩

theorem Same.setThreadIndex (h : st.Same st' c) (hc : c ≠ fd) :
    st.Same (st'.setThreadIndex fd i) c :=
  ⟨h.active, by simp [hc, h.threadIndex], h.interest⟩

theorem Same.setInterest {o : Option Mask} (h : st.Same st' c) (hc : c ≠ fd) :
    st.Same (st'.setInterest i fd o) c :=
  ⟨h.active, h.threadIndex, fun j => by simp [hc, h.interest]⟩

theorem Same.ctl {o : EpollCtl} (h : st.Same st' c) (hc : c ≠ fd) :
    st.Same (epollCtl st' i o fd m).1 c := by
  simp only [epollCtl]
  split
  · exact h.setGiven.setInterest hc
  · exact h.setGiven.setInterest hc
  · exact h.setGiven.setInterest hc
  · exact h.setGiven

/-- A call leaves the other connections as they are. -/
theorem same_exec (st : Epoll cpus) (op : EpollOp cpus) (hc : c ≠ op.conn) :
    st.Same (op.exec st).1 c := by
  have h := Same.refl st c
  -- each call writes to the fields of its own connection, and to its entries of the interest lists
  cases op with
  | addConnection d r =>
    simp only [EpollOp.exec, agcEpollAddConnection]
    split
    · exact h.ctl hc
    · exact ((h.ctl hc).setActive hc).setThreadIndex hc
  | delConnection d =>
    simp only [EpollOp.exec, agcEpollDelConnection]
    split
    · exact (h.setActive hc).ctl hc
    · exact (h.setActive hc).ctl hc
  | addEvent d event r =>
    simp only [EpollOp.exec, agcEpollAddEvent]
    split
    · split
      · exact (h.ctl hc).setActive hc
      · exact (h.ctl hc).setActive hc
    · split
      · exact (h.ctl hc).setActive hc
      · exact (h.ctl hc).setActive hc
  | delEvent d event =>
    simp only [EpollOp.exec, agcEpollDelEvent]
    split
    · split
      · exact h.ctl hc
      · exact h.ctl hc
    · exact h

theorem consistentAt_of_active (ha : st.active c = true) :
    st.ConsistentAt c ↔ ∀ i, (st.interest i c).isSome ↔ i = st.threadIndex c := by
  simp only [ConsistentAt, ha, Bool.true_eq_false, false_implies, true_implies, and_true]
  constructor
  · rintro ⟨hreg, hnone⟩ i
    refine ⟨fun hi => ?_, fun hi => hi ▸ hreg⟩
    by_contra hne
    simp [hnone i hne] at hi
  · intro h
    refine ⟨(h _).mpr rfl, fun i hi => ?_⟩
    exact Option.not_isSome_iff_eq_none.mp fun hsome => hi ((h i).mp hsome)

theorem consistentAt_of_inactive (ha : st.active c = false) :
    st.ConsistentAt c ↔ ∀ i, st.interest i c = none := by
  simp [ConsistentAt, ha]

/-- A change of the mask in the one instance that has the connection. -/
theorem isSome_setInterest (hreg : ∀ i, (st.interest i c).isSome ↔ i = j) (i : Dispatcher cpus) :
    ((st.setInterest j c (some m)).interest i c).isSome ↔ i = j := by
  by_cases hi : i = j
  · simp [hi]
  · simpa [hi] using mt (hreg i).mp hi

/-- Adding a connection keeps its registrations consistent exactly when it was inactive or the
remembered instance is drawn again, in which case the kernel refuses. -/
theorem consistentAt_addConnection (h : st.ConsistentAt c) :
    (agcEpollAddConnection st c r).1.ConsistentAt c ↔
      st.active c = false ∨ r = st.threadIndex c := by
  cases ha : st.active c with
  | false =>
    have hnone := (consistentAt_of_inactive ha).mp h
    rw [addConnection_of_none (hnone r), consistentAt_of_active (by simp)]
    simp [hnone]
  | true =>
    have hreg := (consistentAt_of_active ha).mp h
    by_cases hr : r = st.threadIndex c
    · obtain ⟨m, hm⟩ := Option.isSome_iff_exists.mp ((hreg r).mpr hr)
      rw [addConnection_of_some hm, consistentAt_of_active (by simpa using ha)]
      simpa [hr] using hreg
    · have hm : st.interest r c = none :=
        Option.not_isSome_iff_eq_none.mp fun hsome => hr ((hreg r).mp hsome)
      rw [addConnection_of_none hm, consistentAt_of_active (by simp)]
      -- the old registration stays behind in its instance
      have hold := (hreg (st.threadIndex c)).mpr rfl
      simp only [hr, or_false, Bool.true_eq_false, iff_false, not_forall]
      exact ⟨st.threadIndex c, by simp [Ne.symm hr, hold]⟩

theorem consistentAt_delConnection (h : st.ConsistentAt c) :
    (agcEpollDelConnection st c).1.ConsistentAt c := by
  cases ha : st.active c with
  | false =>
    have hnone := (consistentAt_of_inactive ha).mp h
    rw [delConnection_of_none (hnone _), consistentAt_of_inactive (by simp)]
    exact hnone
  | true =>
    have hreg := (consistentAt_of_active ha).mp h
    obtain ⟨m, hm⟩ := Option.isSome_iff_exists.mp ((hreg _).mpr rfl)
    rw [delConnection_of_some hm, consistentAt_of_inactive (by simp)]
    intro i
    by_cases hi : i = st.threadIndex c
    · simp [hi]
    · simpa [hi] using mt (hreg i).mp hi

/-- Adding an event keeps the registrations consistent exactly when the connection was active or
the remembered instance is drawn. -/
theorem consistentAt_addEvent (h : st.ConsistentAt c) :
    (agcEpollAddEvent st c event r).1.ConsistentAt c ↔
      st.active c = true ∨ r = st.threadIndex c := by
  cases ha : st.active c with
  | false =>
    have hnone := (consistentAt_of_inactive ha).mp h
    rw [addEvent_of_inactive ha (hnone r), consistentAt_of_active (by simp)]
    constructor
    · intro hall
      exact Or.inr ((hall r).mp (by simp))
    · rintro (hf | hr) i
      · simp at hf
      · by_cases hi : i = r <;> simp [hi, hnone, hr]
  | true =>
    have hreg := (consistentAt_of_active ha).mp h
    obtain ⟨m, hm⟩ := Option.isSome_iff_exists.mp ((hreg _).mpr rfl)
    rw [addEvent_of_active ha hm, consistentAt_of_active (by simp)]
    simp only [true_or, iff_true]
    exact isSome_setInterest hreg

theorem consistentAt_delEvent (h : st.ConsistentAt c) :
    (agcEpollDelEvent st c event).1.ConsistentAt c := by
  cases ha : st.active c with
  | false => rwa [delEvent_of_inactive ha]
  | true =>
    have hreg := (consistentAt_of_active ha).mp h
    obtain ⟨m, hm⟩ := Option.isSome_iff_exists.mp ((hreg _).mpr rfl)
    rw [delEvent_of_active ha hm, consistentAt_of_active (by simpa using ha)]
    exact isSome_setInterest hreg

/-- **A step**: a call in a consistent state leads to one exactly when it is recorded. -/
theorem Consistent.exec_iff (h : st.Consistent) : (op.exec st).1.Consistent ↔ st.Recorded op := by
  have hother : (op.exec st).1.Consistent ↔ (op.exec st).1.ConsistentAt op.conn := by
    refine ⟨fun hall => hall _, fun hconn c => ?_⟩
    by_cases hc : c = op.conn
    · exact hc ▸ hconn
    · exact (same_exec st op hc).consistentAt_iff.mpr (h c)
  rw [hother]
  cases op with
  | addConnection c r => exact consistentAt_addConnection (h c)
  | delConnection c => exact iff_of_true (consistentAt_delConnection (h c)) trivial
  | addEvent c event r => exact consistentAt_addEvent (h c)
  | delEvent c event => exact iff_of_true (consistentAt_delEvent (h c)) trivial

theorem consistent_init (cpus : ℕ) : (init cpus).Consistent := fun _ =>
  ⟨fun h => absurd h Bool.false_ne_true, fun _ _ => rfl⟩

/-- **Registrations follow the records**: every state of a run is consistent exactly when every
call of it is recorded. -/
theorem consistent_iff_recorded (cpus : ℕ) (ops : List (EpollOp cpus)) :
    (∀ pre, pre <+: ops → (epollRun (init cpus) pre).Consistent) ↔
      Throughout (fun pre op => (epollRun (init cpus) pre).Recorded op) ops := by
  refine prefixes_iff_throughout (consistent_init cpus) (fun pre op h => ?_) ops
  rw [epollRun_snoc]
  exact h.exec_iff

/-- A connection that was deleted and is made active again in another instance is registered in an
instance that it does not remember. -/
theorem added_event_unrecorded :
    ¬ ∀ pre, pre <+: ([.addConnection 7 0, .delConnection 7, .addEvent 7 AGC_READ_EVENT 1] :
      List (EpollOp 4)) → (epollRun (init 4) pre).Consistent := by
  intro h
  have hlast := ((h _ (List.prefix_refl _)) 7).1 (by decide)
  exact absurd hlast.1 (by decide)

/-! ## The interest mask -/

end Epoll

/-- The kinds of events that a connection subscribes to. -/
inductive EventKind
  | read
  | write
  deriving DecidableEq, Repr

namespace EventKind

/-- The argument that stands for the kind. -/
def mask : EventKind → Mask
  | read => AGC_READ_EVENT
  | write => AGC_WRITE_EVENT

def other : EventKind → EventKind
  | read => write
  | write => read

end EventKind

/-- A call that changes the subscriptions of one connection. -/
inductive EventCall (cpus : ℕ)
  | add (k : EventKind) (r : Dispatcher cpus)
  | del (k : EventKind)

namespace EventCall

def kind : EventCall cpus → EventKind
  | add k _ => k
  | del k => k

/-- The driver's call. -/
def toOp (c : Fd) : EventCall cpus → EpollOp cpus
  | add k r => .addEvent c k.mask r
  | del k => .delEvent c k.mask

/-- The subscribed kinds after the call. -/
def apply (s : EventKind → Bool) : EventCall cpus → EventKind → Bool
  | add k _ => Function.update s k true
  | del k => Function.update s k false

/-- The mask that the driver makes for the call. -/
def made : EventCall cpus → Mask
  | add k _ => k.mask ||| k.other.mask
  | del k => k.other.mask

end EventCall

/-- The kinds added and not deleted since, after `agc_epoll_add_connection` and the calls. -/
def subscribedAfter (calls : List (EventCall cpus)) : EventKind → Bool :=
  calls.foldl EventCall.apply fun k => k = .read

/-- The union of the subscribed kinds. -/
def unionMask (s : EventKind → Bool) : Mask :=
  (if s .read then EventKind.read.mask else 0) ||| (if s .write then EventKind.write.mask else 0)

namespace Epoll

variable {st st' : Epoll cpus} {c : Fd} {r : Dispatcher cpus} {m : Mask} {call : EventCall cpus}
  {calls : List (EventCall cpus)}

theorem prevEvents_mask (k : EventKind) : prevEvents k.mask = k.other.mask := by
  cases k <;> decide

/-- The connection is active and registered in the remembered instance with `m`, the mask last
given to the kernel. -/
structure Watched (st : Epoll cpus) (c : Fd) (m : Mask) : Prop where
  active : st.active c = true
  interest : st.interest (st.threadIndex c) c = some m
  given : st.given c = some m

theorem watched_addConnection (h : agcEpollAddConnection st c r = (st', .success)) :
    st'.Watched c AGC_READ_EVENT := by
  cases hi : st.interest r c with
  | some m =>
    rw [addConnection_of_some hi] at h
    simp at h
  | none =>
    rw [addConnection_of_none hi] at h
    obtain rfl := (Prod.ext_iff.mp h).1
    exact ⟨by simp, by simp, by simp⟩

/-- A call on a watched connection succeeds and gives the kernel the mask made for it, whatever the
mask was before. -/
theorem Watched.exec (h : st.Watched c m) (call : EventCall cpus) :
    ((call.toOp c).exec st).1.Watched c call.made ∧ ((call.toOp c).exec st).2 = .success := by
  cases call with
  | add k r =>
    simp only [EventCall.toOp, EpollOp.exec, addEvent_of_active h.active h.interest,
      prevEvents_mask, EventCall.made]
    exact ⟨⟨by simp, by simp, by simp⟩, trivial⟩
  | del k =>
    simp only [EventCall.toOp, EpollOp.exec, delEvent_of_active h.active h.interest,
      prevEvents_mask, EventCall.made]
    exact ⟨⟨by simpa using h.active, by simp, by simp⟩, trivial⟩

/-- The mask made for a call is the union exactly when the other kind is subscribed. -/
theorem made_eq_union_iff (s : EventKind → Bool) (call : EventCall cpus) :
    call.made = unionMask (call.apply s) ↔ s call.kind.other = true := by
  rcases call with ⟨_ | _, r⟩ | ⟨_ | _⟩
  all_goals
    simp only [EventCall.made, EventCall.apply, EventCall.kind, EventKind.other, unionMask,
      Function.update_self, ne_eq, reduceCtorEq, not_false_eq_true, Function.update_of_ne]
    cases s _ <;> decide

@[simp] theorem subscribedAfter_snoc (calls : List (EventCall cpus)) (call : EventCall cpus) :
    subscribedAfter (calls ++ [call]) = call.apply (subscribedAfter calls) := by
  simp [subscribedAfter]

/-- The connection stays watched in a run. -/
theorem Watched.run (h : st.Watched c m) (calls : List (EventCall cpus)) :
    ∃ m', (epollRun st (calls.map (EventCall.toOp c))).Watched c m' := by
  induction calls using List.reverseRecOn with
  | nil => exact ⟨m, h⟩
  | append_singleton calls call ih =>
    obtain ⟨m', h'⟩ := ih
    rw [List.map_append, List.map_singleton, epollRun_snoc]
    exact ⟨_, (h'.exec call).1⟩

/-- **The interest mask**: after each call the mask last given to the kernel is the union of the
subscribed kinds exactly when every call is made while the other kind is subscribed. -/
theorem mask_iff_other_subscribed (h : agcEpollAddConnection st c r = (st', .success))
    (calls : List (EventCall cpus)) :
    (∀ pre, pre <+: calls → (epollRun st' (pre.map (EventCall.toOp c))).given c =
        some (unionMask (subscribedAfter pre))) ↔
      Throughout (fun pre call => subscribedAfter pre call.kind.other = true) calls := by
  have hw := watched_addConnection h
  refine prefixes_iff_throughout ?_ (fun pre call _ => ?_) calls
  · have hread : unionMask (subscribedAfter ([] : List (EventCall cpus))) = AGC_READ_EVENT := by
      simp [unionMask, subscribedAfter, EventKind.mask]
    rw [hread]
    exact hw.given
  · obtain ⟨m, hm⟩ := hw.run pre
    rw [List.map_append, List.map_singleton, epollRun_snoc, (hm.exec call).1.given,
      subscribedAfter_snoc, Option.some_inj]
    exact made_eq_union_iff _ call

/-- Writing switched on and off again while reading stays on. -/
theorem mask_write_switched :
    ∃ st' : Epoll 4, agcEpollAddConnection (init 4) 7 1 = (st', .success) ∧
      ∀ pre, pre <+: [.add .write 0, .del .write] →
        (epollRun st' (pre.map (EventCall.toOp 7))).given 7 =
          some (unionMask (subscribedAfter pre)) := by
  refine ⟨_, addConnection_of_none rfl, ?_⟩
  refine (mask_iff_other_subscribed (addConnection_of_none rfl) _).mpr ?_
  have h0 : Throughout (fun pre (call : EventCall 4) =>
      subscribedAfter pre call.kind.other = true) [] := throughout_nil
  exact throughout_snoc.mpr ⟨throughout_snoc.mpr ⟨h0, rfl⟩, rfl⟩

/-- Subscribing again to reading switches writing on. -/
theorem mask_read_again :
    ∃ st' : Epoll 4, agcEpollAddConnection (init 4) 7 1 = (st', .success) ∧
      ((EventCall.add .read 0).toOp 7 |>.exec st').2 = .success ∧
      (epollRun st' [(EventCall.add .read 0).toOp 7]).given 7 ≠
        some (unionMask (subscribedAfter ([.add .read 0] : List (EventCall 4)))) := by
  refine ⟨_, addConnection_of_none rfl, by decide, by decide⟩

end Epoll
