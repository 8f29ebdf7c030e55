import AgcFramework.Lib.Condition
import AgcFramework.Lib.Ring
import AgcFramework.Lib.Trace
import Mathlib.Logic.Function.Basic
import Mathlib.Order.MinMax

/-!
# The queue of apr-util

An `apr_queue_t` is a ring buffer of pointers with a mutex and two condition variables. Any number
of threads call the `agc_queue_*` functions on one queue. Each function reads `terminated` without
the mutex, and does the rest in critical sections; a push that finds the queue full, and a pop that
finds it empty, wait once and then look again. `agc_queue_push` repeats a push that was interrupted,
and `agc_queue_pop` does not.

A critical section is one step here, and so is each read of `terminated` outside of one. The calls
of pthreads succeed, as they do for a mutex and condition variables that were created.

## Main definitions

* `AprQueue`: `apr_queue_t`
* `QueueSystem`: a queue and where each thread is in its call
* `QueueSystem.step`, `QueueSystem.run`: the steps of all threads, in any order
* `QueueSystem.view`: what a critical section says about the contents, as its caller sees it

## Main results

* `QueueSystem.fifo_refinement`: every interleaving is a history of a bounded queue
-/

open Trace

/-- The values of `apr_status_t` that the queue returns. -/
inductive AprStatus
  | success
  | eof
  | eintr
  | eagain
  deriving DecidableEq, Repr

/-- `apr_queue_t`. Its `unsigned int` fields are numbers below `2 ^ 32`. -/
structure AprQueue (α T : Type) where
  data : List α
  nelts : ℕ
  /-- `in`: the next empty location -/
  inPos : ℕ
  /-- `out`: the next filled location -/
  outPos : ℕ
  bounds : ℕ
  fullWaiters : ℕ
  emptyWaiters : ℕ
  notEmpty : Condition T
  notFull : Condition T
  terminated : Bool

/-- A call of one of the functions, with the pointer it pushes. -/
inductive QueueCall (α : Type)
  | push (d : α)
  | trypush (d : α)
  | pop
  | trypop
  | interruptAll
  | term
  deriving DecidableEq, Repr

/-- What a call returned: its status, and what it stored in `*data`, if anything. -/
structure QueueReturn (α : Type) where
  call : QueueCall α
  rv : AprStatus
  data : Option α
  deriving DecidableEq, Repr

/-- Where a thread is. -/
inductive QueuePc (α : Type)
  /-- In none of the functions. -/
  | outside (last : Option (QueueReturn α))
  /-- Before the test of `terminated` at the beginning. -/
  | calling (c : QueueCall α)
  /-- Before the mutex is taken. -/
  | entered (c : QueueCall α)
  /-- In `apr_thread_cond_wait`. -/
  | waiting (c : QueueCall α)
  /-- Found it still full or still empty and gave the mutex back. -/
  | interrupted (c : QueueCall α)
  /-- In `apr_queue_term`, between its two critical sections. -/
  | broadcasting
  /-- Accessed `data` outside of the array. -/
  | faulted
  deriving DecidableEq, Repr

/-- A queue and where each thread is. -/
structure QueueSystem (α T : Type) where
  queue : AprQueue α T
  pc : T → QueuePc α

/-- A step of a thread. -/
inductive QueueStep (α T : Type)
  | call (t : T) (c : QueueCall α)
  /-- The read of `terminated` without the mutex, at the beginning or at the end. -/
  | test (t : T)
  /-- A critical section; `choice` is the thread that a signal wakes, if it is blocked. -/
  | lock (t choice : T)
  /-- A blocked thread wakes up for no reason. -/
  | spurious (t : T)

namespace AprQueue

variable {α T : Type}

/-- `apr_queue_create`, with the capacity it is given. -/
def create (null : α) (capacity : UInt32) : AprQueue α T where
  data := List.replicate capacity.toNat null
  nelts := 0
  inPos := 0
  outPos := 0
  bounds := capacity.toNat
  fullWaiters := 0
  emptyWaiters := 0
  notEmpty := Condition.create
  notFull := Condition.create
  terminated := false

/-- `apr_queue_full`. -/
def full (q : AprQueue α T) : Bool := q.nelts = q.bounds

/-- `apr_queue_empty`. -/
def empty (q : AprQueue α T) : Bool := q.nelts = 0

/-- An `unsigned int` one up. -/
def incr (n : ℕ) : ℕ := if n + 1 = 2 ^ 32 then 0 else n + 1

/-- An `unsigned int` one down. -/
def decr (n : ℕ) : ℕ := if n = 0 then 2 ^ 32 - 1 else n - 1

/-- An index one on: `i++; if (i >= bounds) i -= bounds`. -/
def next (q : AprQueue α T) (i : ℕ) : ℕ :=
  if q.bounds ≤ incr i then incr i - q.bounds else incr i

variable [DecidableEq T]

/-- The end of both functions that push: the element is stored, and a waiting pop is signalled. -/
def put (q : AprQueue α T) (d : α) (choice : T) : Option (AprQueue α T) :=
  if q.inPos < q.data.length then
    let q' := { q with
      data := q.data.set q.inPos d, inPos := q.next q.inPos, nelts := incr q.nelts }
    some (if q.emptyWaiters ≠ 0 then { q' with notEmpty := q.notEmpty.signal choice } else q')
  else none

/-- The end of both functions that pop: the element is read, and a waiting push is signalled. -/
def take (q : AprQueue α T) (choice : T) : Option (α × AprQueue α T) :=
  q.data[q.outPos]?.map fun d =>
    let q' := { q with nelts := decr q.nelts, outPos := q.next q.outPos }
    (d, if q.fullWaiters ≠ 0 then { q' with notFull := q.notFull.signal choice } else q')

end AprQueue

namespace QueueSystem

variable {α T : Type} [DecidableEq T]

/-- No thread has called anything. -/
def create (null : α) (capacity : UInt32) : QueueSystem α T where
  queue := AprQueue.create null capacity
  pc _ := .outside none

def goto (s : QueueSystem α T) (t : T) (pc : QueuePc α) : QueueSystem α T :=
  { s with pc := Function.update s.pc t pc }

def ret (s : QueueSystem α T) (t : T) (c : QueueCall α) (rv : AprStatus) (data : Option α) :
    QueueSystem α T :=
  s.goto t (.outside (some ⟨c, rv, data⟩))

def setQueue (s : QueueSystem α T) (q : AprQueue α T) : QueueSystem α T := { s with queue := q }

/-- The element is pushed, and the call returns. -/
def store (s : QueueSystem α T) (t : T) (c : QueueCall α) (d : α) (choice : T) :
    QueueSystem α T :=
  match s.queue.put d choice with
  | some q => (s.setQueue q).ret t c .success none
  | none => s.goto t .faulted

/-- An element is popped, and the call returns. -/
def fetch (s : QueueSystem α T) (t : T) (c : QueueCall α) (choice : T) : QueueSystem α T :=
  match s.queue.take choice with
  | some (d, q) => (s.setQueue q).ret t c .success (some d)
  | none => s.goto t .faulted

/-- `apr_queue_push` behind its wait. -/
def pushAwake (s : QueueSystem α T) (t : T) (d : α) (choice : T) : QueueSystem α T :=
  if s.queue.full then s.goto t (.interrupted (.push d)) else s.store t (.push d) d choice

/-- `apr_queue_pop` behind its wait. -/
def popAwake (s : QueueSystem α T) (t : T) (choice : T) : QueueSystem α T :=
  if s.queue.empty then s.goto t (.interrupted .pop) else s.fetch t .pop choice

/-- `apr_queue_push` from its mutex on. -/
def push (s : QueueSystem α T) (t : T) (d : α) (choice : T) : QueueSystem α T :=
  if s.queue.full && !s.queue.terminated then
    (s.setQueue { s.queue with
      fullWaiters := AprQueue.incr s.queue.fullWaiters
      notFull := s.queue.notFull.wait t }).goto t (.waiting (.push d))
  else s.pushAwake t d choice

/-- `apr_queue_trypush` from its mutex on. -/
def trypush (s : QueueSystem α T) (t : T) (d : α) (choice : T) : QueueSystem α T :=
  if s.queue.full then s.ret t (.trypush d) .eagain none else s.store t (.trypush d) d choice

/-- `apr_queue_pop` from its mutex on. -/
def pop (s : QueueSystem α T) (t : T) (choice : T) : QueueSystem α T :=
  if s.queue.empty && !s.queue.terminated then
    (s.setQueue { s.queue with
      emptyWaiters := AprQueue.incr s.queue.emptyWaiters
      notEmpty := s.queue.notEmpty.wait t }).goto t (.waiting .pop)
  else s.popAwake t choice

/-- `apr_queue_trypop` from its mutex on. -/
def trypop (s : QueueSystem α T) (t : T) (choice : T) : QueueSystem α T :=
  if s.queue.empty then s.ret t .trypop .eagain none else s.fetch t .trypop choice

/-- `apr_queue_interrupt_all`; it ends both calls that make it. -/
def interruptAll (s : QueueSystem α T) (t : T) (c : QueueCall α) : QueueSystem α T :=
  (s.setQueue { s.queue with
    notEmpty := s.queue.notEmpty.broadcast, notFull := s.queue.notFull.broadcast }).ret t c
      .success none

/-- The first critical section of `apr_queue_term`. -/
def term (s : QueueSystem α T) (t : T) : QueueSystem α T :=
  (s.setQueue { s.queue with terminated := true }).goto t .broadcasting

/-- The return of `apr_thread_cond_wait` in a push. -/
def leaveFull (s : QueueSystem α T) (t : T) : QueueSystem α T :=
  s.setQueue { s.queue with
    fullWaiters := AprQueue.decr s.queue.fullWaiters, notFull := s.queue.notFull.leave t }

/-- The return of `apr_thread_cond_wait` in a pop. -/
def leaveEmpty (s : QueueSystem α T) (t : T) : QueueSystem α T :=
  s.setQueue { s.queue with
    emptyWaiters := AprQueue.decr s.queue.emptyWaiters, notEmpty := s.queue.notEmpty.leave t }

/-- The critical section that a thread is before, if it can take the mutex: a thread that waits has
to be woken first. -/
def section? (s : QueueSystem α T) (t choice : T) : Option (QueueSystem α T) :=
  match s.pc t with
  | .entered (.push d) => some (s.push t d choice)
  | .entered (.trypush d) => some (s.trypush t d choice)
  | .entered .pop => some (s.pop t choice)
  | .entered .trypop => some (s.trypop t choice)
  | .entered .interruptAll => some (s.interruptAll t .interruptAll)
  | .entered .term => some (s.term t)
  | .broadcasting => some (s.interruptAll t .term)
  | .waiting (.push d) =>
    if t ∈ s.queue.notFull.woken then some ((s.leaveFull t).pushAwake t d choice) else none
  | .waiting .pop =>
    if t ∈ s.queue.notEmpty.woken then some ((s.leaveEmpty t).popAwake t choice) else none
  | _ => none

/-- The reads of `terminated` without the mutex. -/
def test (s : QueueSystem α T) (t : T) : QueueSystem α T :=
  match s.pc t with
  -- these two take the mutex at once
  | .calling .interruptAll => s.goto t (.entered .interruptAll)
  | .calling .term => s.goto t (.entered .term)
  | .calling c => if s.queue.terminated then s.ret t c .eof none else s.goto t (.entered c)
  | .interrupted (.push d) =>
    -- the loop of `agc_queue_push` goes on as long as it is interrupted
    if s.queue.terminated then s.ret t (.push d) .eof none else s.goto t (.calling (.push d))
  | .interrupted c =>
    if s.queue.terminated then s.ret t c .eof none else s.ret t c .eintr none
  | _ => s

/-- A step; a thread that cannot take it does nothing. -/
def step (s : QueueSystem α T) : QueueStep α T → QueueSystem α T
  | .call t c =>
    match s.pc t with
    | .outside _ => s.goto t (.calling c)
    | _ => s
  | .test t => s.test t
  | .lock t choice => (s.section? t choice).getD s
  | .spurious t => s.setQueue { s.queue with
      notEmpty := s.queue.notEmpty.wake t, notFull := s.queue.notFull.wake t }

/-- The state after the steps of all threads. -/
def run (s : QueueSystem α T) (es : List (QueueStep α T)) : QueueSystem α T := es.foldl step s

/-- What a thread knows of the contents where a critical section has brought it: it has pushed or
popped an element, or has found the queue full or empty. -/
def outcome : QueuePc α → List (FifoOp α)
  | .outside (some ⟨.push d, .success, _⟩) => [.put d]
  | .outside (some ⟨.trypush d, .success, _⟩) => [.put d]
  | .outside (some ⟨.trypush _, _, _⟩) => [.full]
  | .interrupted (.push _) => [.full]
  | .outside (some ⟨.pop, .success, some d⟩) => [.take d]
  | .outside (some ⟨.trypop, .success, some d⟩) => [.take d]
  | .outside (some ⟨.trypop, _, _⟩) => [.empty]
  | .interrupted .pop => [.empty]
  | _ => []

/-- What the thread of a step finds out or does, in a critical section. -/
def view (s : QueueSystem α T) : QueueStep α T → List (T × FifoOp α)
  | .lock t choice =>
    match s.section? t choice with
    | some s' => (outcome (s'.pc t)).map (t, ·)
    | none => []
  | _ => []

end QueueSystem

/-! ## The contents -/

namespace AprQueue

variable {α T : Type}

/-- The cells in use hold the elements of `l`, and the counters agree with it. -/
structure Contents (q : AprQueue α T) (l : List α) : Prop where
  cells : Ring.Holds q.data q.outPos l
  size : q.data.length = q.bounds
  nelts : q.nelts = l.length
  inPos : q.inPos = (q.outPos + l.length) % q.bounds
  outPos : q.outPos < max 1 q.bounds
  bounds : q.bounds < 2 ^ 32

variable {q : AprQueue α T} {l : List α} {d : α}

theorem Contents.create (null : α) (capacity : UInt32) :
    (AprQueue.create null capacity : AprQueue α T).Contents [] where
  cells := Ring.Holds.nil _ _
  size := List.length_replicate
  nelts := rfl
  inPos := (Nat.zero_mod _).symm
  outPos := lt_max_iff.mpr (Or.inl Nat.zero_lt_one)
  bounds := capacity.toNat_lt

theorem Contents.length_le (h : q.Contents l) : l.length ≤ q.bounds :=
  h.size ▸ h.cells.length_le

theorem Contents.full_iff (h : q.Contents l) : q.full = true ↔ l.length = q.bounds := by
  rw [full, decide_eq_true_iff, h.nelts]

theorem Contents.room (h : q.Contents l) (hfull : ¬ q.full = true) : l.length < q.bounds := by
  rw [h.full_iff] at hfull
  exact Nat.lt_of_le_of_ne h.length_le hfull

theorem Contents.empty_iff (h : q.Contents l) : q.empty = true ↔ l = [] := by
  rw [empty, decide_eq_true_iff, h.nelts, List.length_eq_zero_iff]

theorem incr_of_lt {n : ℕ} (h : n + 1 < 2 ^ 32) : incr n = n + 1 := if_neg h.ne

theorem decr_succ (n : ℕ) : decr (n + 1) = n := if_neg n.succ_ne_zero

/-- An index that goes one on stays below the bounds, which are less than `2 ^ 32`. -/
theorem Contents.next_eq (h : q.Contents l) {i : ℕ} (hi : i < q.bounds) :
    q.next i = (i + 1) % q.bounds := by
  have := h.bounds
  rw [next, incr_of_lt (by omega)]
  exact Ring.succ_mod hi

variable [DecidableEq T]

/-- A push on a queue that is not full stores its element behind the others. -/
theorem Contents.put (h : q.Contents l) (hroom : l.length < q.bounds) (d : α) (choice : T) :
    ∃ q', q.put d choice = some q' ∧ q'.Contents (l ++ [d]) ∧ q'.bounds = q.bounds := by
  have hin : q.inPos < q.bounds := by
    rw [h.inPos]
    exact Nat.mod_lt _ (Nat.lt_of_le_of_lt (Nat.zero_le _) hroom)
  have hcells := h.cells.put (h.size.symm ▸ hroom) d
  rw [h.size, ← h.inPos] at hcells
  refine ⟨_, if_pos (h.size.symm ▸ hin), ?_, ?_⟩
  · have hcontents : ({ q with
        data := q.data.set q.inPos d, inPos := q.next q.inPos, nelts := incr q.nelts } :
        AprQueue α T).Contents (l ++ [d]) := by
      constructor
      · exact hcells
      · rw [List.length_set]
        exact h.size
      · have := h.bounds
        show incr q.nelts = _
        rw [h.nelts, incr_of_lt (by omega), List.length_append]
        rfl
      · show q.next q.inPos = _
        rw [h.next_eq hin, h.inPos, Nat.mod_add_mod, List.length_append, ← Nat.add_assoc]
        rfl
      · exact h.outPos
      · exact h.bounds
    split_ifs
    · exact ⟨hcontents.1, hcontents.2, hcontents.3, hcontents.4, hcontents.5, hcontents.6⟩
    · exact hcontents
  · split_ifs <;> rfl

/-- A pop on a queue that is not empty gets its first element. -/
theorem Contents.take (h : q.Contents (d :: l)) (choice : T) :
    ∃ q', q.take choice = some (d, q') ∧ q'.Contents l ∧ q'.bounds = q.bounds := by
  have hlen := h.length_le
  rw [List.length_cons] at hlen
  have hout : q.outPos < q.bounds := by
    have := h.outPos
    omega
  obtain ⟨hcell, hcells⟩ := h.cells.take
  rw [h.size] at hcell hcells
  rw [Nat.mod_eq_of_lt hout] at hcell
  refine ⟨_, by rw [AprQueue.take, hcell]; rfl, ?_, ?_⟩
  · have hcontents : ({ q with nelts := decr q.nelts, outPos := q.next q.outPos } :
        AprQueue α T).Contents l := by
      constructor
      · show Ring.Holds q.data (q.next q.outPos) l
        rw [h.next_eq hout]
        exact hcells
      · exact h.size
      · show decr q.nelts = _
        rw [h.nelts, List.length_cons, decr_succ]
      · show q.inPos = (q.next q.outPos + l.length) % q.bounds
        rw [h.next_eq hout, Nat.mod_add_mod, h.inPos, List.length_cons]
        congr 1
        omega
      · show q.next q.outPos < _
        rw [h.next_eq hout]
        exact lt_max_iff.mpr (Or.inr (Nat.mod_lt _ (Nat.lt_of_le_of_lt (Nat.zero_le _) hout)))
      · exact h.bounds
    split_ifs
    · exact ⟨hcontents.1, hcontents.2, hcontents.3, hcontents.4, hcontents.5, hcontents.6⟩
    · exact hcontents
  · split_ifs <;> rfl

end AprQueue

namespace QueueSystem

variable {α T : Type} [DecidableEq T] {s s' : QueueSystem α T} {t choice : T} {l : List α}
  {capacity : ℕ}

@[simp] theorem pc_goto_self (s : QueueSystem α T) (t : T) (pc : QueuePc α) :
    (s.goto t pc).pc t = pc := by
  simp [goto]

theorem pc_goto_of_ne (s : QueueSystem α T) {t u : T} (h : u ≠ t) (pc : QueuePc α) :
    (s.goto t pc).pc u = s.pc u := by
  simp [goto, h]

@[simp] theorem queue_goto (s : QueueSystem α T) (t : T) (pc : QueuePc α) :
    (s.goto t pc).queue = s.queue := rfl

/-- The queue holds `l`, and no thread has left the array. -/
structure Sound (s : QueueSystem α T) (capacity : ℕ) (l : List α) : Prop where
  contents : s.queue.Contents l
  bounds : s.queue.bounds = capacity
  pc : ∀ t, s.pc t ≠ .faulted

omit [DecidableEq T] in
theorem Sound.create (null : α) (capacity : UInt32) :
    (QueueSystem.create null capacity : QueueSystem α T).Sound capacity.toNat [] where
  contents := AprQueue.Contents.create null capacity
  bounds := rfl
  pc := by
    rintro t ⟨⟩

theorem Sound.goto (hs : s.Sound capacity l) (t : T) {pc : QueuePc α} (hpc : pc ≠ .faulted) :
    (s.goto t pc).Sound capacity l where
  contents := hs.contents
  bounds := hs.bounds
  pc := by
    intro u
    rcases eq_or_ne u t with rfl | hu
    · rwa [pc_goto_self]
    · rw [pc_goto_of_ne s hu]
      exact hs.pc u

omit [DecidableEq T] in
/-- A change of what the waits are about leaves the contents alone. -/
theorem Sound.setQueue (hs : s.Sound capacity l) {q : AprQueue α T}
    (hq : q.Contents l) (hbounds : q.bounds = s.queue.bounds) :
    (s.setQueue q).Sound capacity l := ⟨hq, hbounds.trans hs.bounds, hs.pc⟩

omit [DecidableEq T] in
theorem Sound.room (hs : s.Sound capacity l) (hfull : ¬ s.queue.full = true) :
    l.length < capacity := hs.bounds ▸ hs.contents.room hfull

theorem Sound.store (hs : s.Sound capacity l) (hroom : l.length < capacity) (c : QueueCall α)
    (d : α) : (s.store t c d choice).Sound capacity (l ++ [d]) ∧
      (s.store t c d choice).pc t = .outside (some ⟨c, .success, none⟩) := by
  obtain ⟨q, hput, hcontents, hbounds⟩ := hs.contents.put (hs.bounds.symm ▸ hroom) d choice
  rw [QueueSystem.store, hput]
  have hq : (s.setQueue q).Sound capacity (l ++ [d]) :=
    ⟨hcontents, hbounds.trans hs.bounds, hs.pc⟩
  exact ⟨hq.goto t (by rintro ⟨⟩), pc_goto_self _ _ _⟩

theorem Sound.fetch {d : α} (hs : s.Sound capacity (d :: l)) (c : QueueCall α) :
    (s.fetch t c choice).Sound capacity l ∧
      (s.fetch t c choice).pc t = .outside (some ⟨c, .success, some d⟩) := by
  obtain ⟨q, htake, hcontents, hbounds⟩ := hs.contents.take choice
  rw [QueueSystem.fetch, htake]
  have hq : (s.setQueue q).Sound capacity l := ⟨hcontents, hbounds.trans hs.bounds, hs.pc⟩
  exact ⟨hq.goto t (by rintro ⟨⟩), pc_goto_self _ _ _⟩

/-- What the critical section of a thread does is what a bounded queue can do. -/
def Performs (s' : QueueSystem α T) (t : T) (capacity : ℕ) (l : List α) : Prop :=
  ∃ l', FifoRun capacity l (outcome (s'.pc t)) l' ∧ s'.Sound capacity l'

theorem Sound.performs_goto (hs : s.Sound capacity l) {pc : QueuePc α} (hpc : pc ≠ .faulted)
    (hrun : FifoRun capacity l (outcome pc) l) : (s.goto t pc).Performs t capacity l := by
  refine ⟨l, ?_, hs.goto t hpc⟩
  rwa [pc_goto_self]

theorem Sound.performs_store (hs : s.Sound capacity l) (hfull : ¬ s.queue.full = true)
    {c : QueueCall α} {d : α} (hc : outcome (.outside (some ⟨c, .success, none⟩)) = [.put d]) :
    (s.store t c d choice).Performs t capacity l := by
  obtain ⟨hstore, hpc⟩ : (s.store t c d choice).Sound capacity (l ++ [d]) ∧
      (s.store t c d choice).pc t = .outside (some ⟨c, .success, none⟩) :=
    hs.store (hs.room hfull) c d
  refine ⟨l ++ [d], ?_, hstore⟩
  rw [hpc, hc]
  exact (FifoRun.nil l).put d (hs.room hfull)

theorem Sound.performs_fetch (hs : s.Sound capacity l) (hempty : ¬ s.queue.empty = true)
    {c : QueueCall α} (hc : ∀ d, outcome (.outside (some ⟨c, .success, some d⟩)) = [.take d]) :
    (s.fetch t c choice).Performs t capacity l := by
  rw [hs.contents.empty_iff] at hempty
  obtain ⟨d, l, rfl⟩ := List.exists_cons_of_ne_nil hempty
  obtain ⟨hfetch, hpc⟩ : (s.fetch t c choice).Sound capacity l ∧
      (s.fetch t c choice).pc t = .outside (some ⟨c, .success, some d⟩) := hs.fetch c
  refine ⟨l, ?_, hfetch⟩
  rw [hpc, hc]
  exact (FifoRun.nil (d :: l)).take

theorem Sound.performs_full (hs : s.Sound capacity l) (hfull : s.queue.full = true)
    {pc : QueuePc α} (hpc : pc ≠ .faulted) (hout : outcome pc = [.full]) :
    (s.goto t pc).Performs t capacity l := by
  apply hs.performs_goto hpc
  rw [hout]
  exact (FifoRun.nil l).full ((hs.contents.full_iff.mp hfull).trans hs.bounds)

theorem Sound.performs_empty (hs : s.Sound capacity l) (hempty : s.queue.empty = true)
    {pc : QueuePc α} (hpc : pc ≠ .faulted) (hout : outcome pc = [.empty]) :
    (s.goto t pc).Performs t capacity l := by
  apply hs.performs_goto hpc
  rw [hout]
  obtain rfl := hs.contents.empty_iff.mp hempty
  exact (FifoRun.nil []).empty

theorem Sound.pushAwake (hs : s.Sound capacity l) (t : T) (d : α) (choice : T) :
    (s.pushAwake t d choice).Performs t capacity l := by
  unfold QueueSystem.pushAwake
  split_ifs with hfull
  · exact hs.performs_full hfull (by rintro ⟨⟩) rfl
  · exact hs.performs_store hfull rfl

theorem Sound.popAwake (hs : s.Sound capacity l) (t choice : T) :
    (s.popAwake t choice).Performs t capacity l := by
  unfold QueueSystem.popAwake
  split_ifs with hempty
  · exact hs.performs_empty hempty (by rintro ⟨⟩) rfl
  · exact hs.performs_fetch hempty fun _ => rfl

/-- Each critical section does what a bounded queue can do. -/
theorem Sound.section? (hs : s.Sound capacity l) (h : s.section? t choice = some s') :
    s'.Performs t capacity l := by
  -- the waits do not touch the contents
  have hwait : ∀ (q : AprQueue α T) (pc : QueuePc α), q.Contents l → q.bounds = s.queue.bounds →
      pc ≠ .faulted → outcome pc = [] → ((s.setQueue q).goto t pc).Performs t capacity l := by
    intro q pc hq hbounds hpc hout
    apply (hs.setQueue hq hbounds).performs_goto hpc
    rw [hout]
    exact FifoRun.nil l
  have hc := hs.contents
  unfold QueueSystem.section? at h
  split at h
  · rename_i d _
    cases h
    unfold QueueSystem.push
    split_ifs
    · exact hwait _ _ ⟨hc.1, hc.2, hc.3, hc.4, hc.5, hc.6⟩ rfl (by rintro ⟨⟩) rfl
    · exact hs.pushAwake t d choice
  · cases h
    unfold QueueSystem.trypush
    split_ifs with hfull
    · exact hs.performs_full hfull (by rintro ⟨⟩) rfl
    · exact hs.performs_store hfull rfl
  · cases h
    unfold QueueSystem.pop
    split_ifs
    · exact hwait _ _ ⟨hc.1, hc.2, hc.3, hc.4, hc.5, hc.6⟩ rfl (by rintro ⟨⟩) rfl
    · exact hs.popAwake t choice
  · cases h
    unfold QueueSystem.trypop
    split_ifs with hempty
    · exact hs.performs_empty hempty (by rintro ⟨⟩) rfl
    · exact hs.performs_fetch hempty fun _ => rfl
  · cases h
    exact hwait _ _ ⟨hc.1, hc.2, hc.3, hc.4, hc.5, hc.6⟩ rfl (by rintro ⟨⟩) rfl
  · cases h
    exact hwait _ _ ⟨hc.1, hc.2, hc.3, hc.4, hc.5, hc.6⟩ rfl (by rintro ⟨⟩) rfl
  · cases h
    exact hwait _ _ ⟨hc.1, hc.2, hc.3, hc.4, hc.5, hc.6⟩ rfl (by rintro ⟨⟩) rfl
  · rename_i d _
    split_ifs at h
    cases h
    have hleave : (s.leaveFull t).Sound capacity l :=
      hs.setQueue ⟨hc.1, hc.2, hc.3, hc.4, hc.5, hc.6⟩ rfl
    exact hleave.pushAwake t d choice
  · split_ifs at h
    cases h
    have hleave : (s.leaveEmpty t).Sound capacity l :=
      hs.setQueue ⟨hc.1, hc.2, hc.3, hc.4, hc.5, hc.6⟩ rfl
    exact hleave.popAwake t choice
  · cases h

/-- The other steps leave the contents alone. -/
theorem Sound.test (hs : s.Sound capacity l) (t : T) : (s.test t).Sound capacity l := by
  unfold QueueSystem.test
  split
  · exact hs.goto t (by rintro ⟨⟩)
  · exact hs.goto t (by rintro ⟨⟩)
  · split_ifs
    · exact hs.goto t (by rintro ⟨⟩)
    · exact hs.goto t (by rintro ⟨⟩)
  · split_ifs
    · exact hs.goto t (by rintro ⟨⟩)
    · exact hs.goto t (by rintro ⟨⟩)
  · split_ifs
    · exact hs.goto t (by rintro ⟨⟩)
    · exact hs.goto t (by rintro ⟨⟩)
  · exact hs

/-- A step does what its thread sees of the contents. -/
theorem Sound.step (hs : s.Sound capacity l) (e : QueueStep α T) :
    ∃ l', FifoRun capacity l ((s.view e).map Prod.snd) l' ∧ (s.step e).Sound capacity l' := by
  cases e with
  | call t c =>
    refine ⟨l, FifoRun.nil l, ?_⟩
    simp only [QueueSystem.step]
    split
    · exact hs.goto t (by rintro ⟨⟩)
    · exact hs
  | test t => exact ⟨l, FifoRun.nil l, hs.test t⟩
  | lock t choice =>
    rcases hsec : s.section? t choice with _ | s'
    · refine ⟨l, ?_, ?_⟩
      · simp only [view, hsec]
        exact FifoRun.nil l
      · simp only [QueueSystem.step, hsec]
        exact hs
    · obtain ⟨l', hrun, hs'⟩ := hs.section? hsec
      refine ⟨l', ?_, ?_⟩
      · have hsnd : ((outcome (s'.pc t)).map (t, ·)).map Prod.snd = outcome (s'.pc t) := by
          rw [List.map_map]
          exact List.map_id _
        simp only [view, hsec, hsnd]
        exact hrun
      · simp only [QueueSystem.step, hsec]
        exact hs'
  | spurious t =>
    have hc := hs.contents
    exact ⟨l, FifoRun.nil l, hs.setQueue ⟨hc.1, hc.2, hc.3, hc.4, hc.5, hc.6⟩ rfl⟩

/-- What all threads see along a run is a history of a bounded queue. -/
theorem sound_run (null : α) (capacity : UInt32) (es : List (QueueStep α T)) :
    ∃ l, FifoRun capacity.toNat [] ((observed step view (create null capacity) es).map Prod.snd) l ∧
      ((create null capacity : QueueSystem α T).run es).Sound capacity.toNat l := by
  induction es using List.reverseRecOn with
  | nil => exact ⟨[], FifoRun.nil [], Sound.create null capacity⟩
  | append_singleton es e ih =>
    obtain ⟨l, hrun, hs⟩ := ih
    obtain ⟨l', hrun', hs'⟩ := hs.step e
    refine ⟨l', ?_, ?_⟩
    · rw [observed_snoc, List.map_append]
      exact hrun.trans hrun'
    · rw [run, List.foldl_concat]
      exact hs'

/-- **The queue is a bounded queue.** Let any number of threads call the functions of a queue that
was created with some capacity, in any order and with any spurious wakeups. What their calls return
in the order of their critical sections (which element was pushed or popped, and that the queue was
found full or empty) is a history of a first-in first-out queue with that capacity: an element is
popped once, in the order of the pushes, a push is refused only when there are as many elements as
the capacity, and a pop only when there is none. What is in the cells between `out` and `in` is what
the history leaves in the queue, and no access is outside of the array. -/
theorem fifo_refinement (null : α) (capacity : UInt32) (es : List (QueueStep α T)) :
    let s := (create null capacity : QueueSystem α T).run es
    let h := (observed step view (create null capacity) es).map Prod.snd
    ∃ l, FifoRun capacity.toNat [] h l ∧ l.length ≤ capacity.toNat ∧
      h.filterMap FifoOp.joins = h.filterMap FifoOp.leaves ++ l ∧
      s.queue.nelts = l.length ∧
      s.queue.inPos = (s.queue.outPos + l.length) % capacity.toNat ∧
      (∀ k d, l[k]? = some d → s.queue.data[(s.queue.outPos + k) % capacity.toNat]? = some d) ∧
      ∀ t, s.pc t ≠ .faulted := by
  obtain ⟨l, hrun, hs⟩ := sound_run (T := T) null capacity es
  have hc := hs.contents
  refine ⟨l, hrun, ?_, hrun.eq_append, hc.nelts, ?_, ?_, hs.pc⟩
  · exact hs.bounds ▸ hc.length_le
  · exact hs.bounds ▸ hc.inPos
  · intro k d hk
    rw [← hs.bounds, ← hc.size]
    exact hc.cells.cell k d hk

end QueueSystem
