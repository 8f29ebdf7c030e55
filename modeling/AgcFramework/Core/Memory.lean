import AgcFramework.Lib.Ring
import AgcFramework.Lib.Trace
import Mathlib.Data.List.Forall2
import Mathlib.Logic.Function.Basic

/-!
# Pools that are destroyed later

`agc_memory_destroy_pool` hands a pool to a thread over a queue. The thread looks how many pools
there are, sleeps for a second, and destroys as many as it saw. Who called may use the pool until
then, as a dispatcher thread does whose handler destroyed the pool of its own connection.

A call of a function of the queue is one step here, as every interleaving of them is a history of a
bounded queue. Nothing terminates this queue. A sleep does not end early. The model begins when
`agc_core_memory_init` has seen that the thread is running.

## Main definitions

* `PoolManager`: the queue, the clock, the thread and the callers
* `PoolManager.step`, `PoolManager.run`: the steps of all threads, in any order
* `PoolManager.handed`, `PoolManager.destroyed`: the pools that were handed over and destroyed so
  far, and when

## Main results

* `PoolManager.fifo_run`: the queue is a bounded queue
* `PoolManager.destroyed_in_order`: the pools are destroyed once, in the order in which they were
  handed over, and a second later or more
* `PoolManager.reclaimed_after_round`: a round of the thread destroys all that was handed over
  before it
-/

open Trace

/-- The address of an `agc_memory_pool_t`; 0 is `NULL`. -/
abbrev PoolPtr := ℕ

/-- The capacity of `pool_queue`. -/
def POOL_QUEUE_SIZE : ℕ := 50000

/-- The argument of `agc_yield` in `pool_thread`, in microseconds. -/
def POOL_YIELD : ℕ := 1000000

/-- Where the thread is in `pool_thread`. -/
inductive PoolThreadPc
  /-- Before the test of `pool_thread_running`. -/
  | top
  /-- In `agc_yield` after it saw `len` pools. -/
  | sleeping (len wake : ℕ)
  /-- Before the test of `x > 0`. -/
  | popping (x : ℕ)
  /-- Before `apr_pool_destroy` and `x--`, with `x` as it is after that. -/
  | destroying (p : PoolPtr) (x : ℕ)
  /-- In `agc_yield` after it saw none. -/
  | idle (wake : ℕ)
  /-- Before `agc_queue_trypop`. -/
  | draining
  /-- Before `apr_pool_destroy` in the last loop. -/
  | drained (p : PoolPtr)
  | ended
  deriving DecidableEq, Repr

/-- Where a thread is in `agc_memory_destroy_pool`. -/
inductive PoolCallerPc
  | outside
  /-- Before the test of `pool_thread_running`. -/
  | testing (p : PoolPtr)
  /-- Before `agc_queue_push`, or blocked in it. -/
  | pushing (p : PoolPtr)
  /-- Before `apr_pool_destroy`. -/
  | destroying (p : PoolPtr)
  deriving DecidableEq, Repr

/-- `memory_manager`, the clock, and where each thread is. -/
structure PoolManager (T : Type) where
  now : ℕ
  poolThreadRunning : Bool
  poolQueue : List PoolPtr
  thread : PoolThreadPc
  caller : T → PoolCallerPc

/-- A step of the program. -/
inductive PoolStep (T : Type)
  /-- Time passes. -/
  | tick (d : ℕ)
  /-- `pool_thread` goes on. -/
  | thread
  /-- `agc_memory_destroy_pool` is called. -/
  | call (t : T) (p : PoolPtr)
  /-- `agc_memory_destroy_pool` goes on. -/
  | caller (t : T)

/-- What happens to a pool, and when. -/
inductive PoolEvent
  | handed (p : PoolPtr) (time : ℕ)
  | destroyed (p : PoolPtr) (time : ℕ)
  deriving DecidableEq, Repr

/-- The pools that the thread still has to destroy in this round. -/
def PoolThreadPc.counted : PoolThreadPc → ℕ
  | sleeping len _ => len
  | popping x => x
  | destroying _ x => x + 1
  | _ => 0

/-- The pool that the thread took from the queue. -/
def PoolThreadPc.inHand : PoolThreadPc → List PoolPtr
  | destroying p _ => [p]
  | drained p => [p]
  | _ => []

/-- When the thread goes on at the earliest. -/
def PoolThreadPc.due (now : ℕ) : PoolThreadPc → ℕ
  | sleeping _ wake => wake
  | _ => now

namespace PoolManager

variable {T : Type} [DecidableEq T]

/-- The thread is running, and no pool was handed over yet. -/
def init (T : Type) : PoolManager T where
  now := 0
  poolThreadRunning := true
  poolQueue := []
  thread := .top
  caller _ := .outside

def goto (s : PoolManager T) (t : T) (pc : PoolCallerPc) : PoolManager T :=
  { s with caller := Function.update s.caller t pc }

/-- `pool_thread`, from one place to the next. -/
def threadStep (s : PoolManager T) : PoolManager T :=
  match s.thread with
  | .top =>
    if s.poolThreadRunning then
      let len := s.poolQueue.length
      if len ≠ 0 then { s with thread := .sleeping len (s.now + POOL_YIELD) }
      else { s with thread := .idle (s.now + POOL_YIELD) }
    else { s with thread := .draining }
  | .sleeping len wake => if wake ≤ s.now then { s with thread := .popping len } else s
  | .popping 0 => { s with thread := .top }
  | .popping (x + 1) =>
    match s.poolQueue with
    -- the pop blocks
    | [] => s
    | p :: rest =>
      if p = 0 then { s with poolQueue := rest, thread := .draining }
      else { s with poolQueue := rest, thread := .destroying p x }
  | .destroying _ x => { s with thread := .popping x }
  | .idle wake => if wake ≤ s.now then { s with thread := .top } else s
  | .draining =>
    match s.poolQueue with
    | [] => { s with poolThreadRunning := false, thread := .ended }
    | p :: rest =>
      if p = 0 then { s with poolThreadRunning := false, poolQueue := rest, thread := .ended }
      else { s with poolQueue := rest, thread := .drained p }
  | .drained _ => { s with thread := .draining }
  | .ended => s

/-- `agc_memory_destroy_pool`, from one place to the next. -/
def callerStep (s : PoolManager T) (t : T) : PoolManager T :=
  match s.caller t with
  | .outside => s
  | .testing p => if s.poolThreadRunning then s.goto t (.pushing p) else s.goto t (.destroying p)
  | .pushing p =>
    if s.poolQueue.length < POOL_QUEUE_SIZE then
      { s with poolQueue := s.poolQueue ++ [p] }.goto t .outside
    -- the push blocks
    else s
  | .destroying _ => s.goto t .outside

def step (s : PoolManager T) : PoolStep T → PoolManager T
  | .tick d => { s with now := s.now + d }
  | .thread => s.threadStep
  | .call t p =>
    -- a call with `NULL` returns at once
    if s.caller t = .outside ∧ p ≠ 0 then s.goto t (.testing p) else s
  | .caller t => s.callerStep t

def run (l : List (PoolStep T)) : PoolManager T := l.foldl step (init T)

@[simp] theorem run_snoc (l : List (PoolStep T)) (e : PoolStep T) :
    run (l ++ [e]) = (run l).step e := by
  simp [run]

/-- What a step does to a pool. -/
def view (s : PoolManager T) : PoolStep T → List PoolEvent
  | .thread =>
    match s.thread with
    | .destroying p _ | .drained p => [.destroyed p s.now]
    | _ => []
  | .caller t =>
    match s.caller t with
    | .pushing p => if s.poolQueue.length < POOL_QUEUE_SIZE then [.handed p s.now] else []
    | .destroying p => [.destroyed p s.now]
    | _ => []
  | _ => []

/-- The pools that were handed over in some events, and when. -/
def handedIn (events : List PoolEvent) : List (PoolPtr × ℕ) :=
  events.filterMap fun
    | .handed p time => some (p, time)
    | _ => none

/-- The pools that were destroyed in some events, and when. -/
def destroyedIn (events : List PoolEvent) : List (PoolPtr × ℕ) :=
  events.filterMap fun
    | .destroyed p time => some (p, time)
    | _ => none

/-- The pools that were handed over in a run. -/
def handed (l : List (PoolStep T)) : List (PoolPtr × ℕ) :=
  handedIn (observed step view (init T) l)

/-- The pools that were destroyed in a run. -/
def destroyed (l : List (PoolStep T)) : List (PoolPtr × ℕ) :=
  destroyedIn (observed step view (init T) l)

/-- What a step does to the queue. -/
def queueOps (s : PoolManager T) : PoolStep T → List (FifoOp PoolPtr)
  | .thread =>
    match s.thread, s.poolQueue with
    | .popping (_ + 1), p :: _ => [.take p]
    | .draining, p :: _ => [.take p]
    | .draining, [] => [.empty]
    | _, _ => []
  | .caller t =>
    match s.caller t with
    | .pushing p => if s.poolQueue.length < POOL_QUEUE_SIZE then [.put p] else []
    | _ => []
  | _ => []

/-! ## The queue -/

variable {s : PoolManager T} {l p q : List (PoolStep T)} {e : PoolStep T}

@[simp] theorem goto_now (t : T) (pc : PoolCallerPc) : (s.goto t pc).now = s.now := rfl
@[simp] theorem goto_running (t : T) (pc : PoolCallerPc) :
    (s.goto t pc).poolThreadRunning = s.poolThreadRunning := rfl
@[simp] theorem goto_queue (t : T) (pc : PoolCallerPc) :
    (s.goto t pc).poolQueue = s.poolQueue := rfl
@[simp] theorem goto_thread (t : T) (pc : PoolCallerPc) : (s.goto t pc).thread = s.thread := rfl

theorem queue_step (s : PoolManager T) (e : PoolStep T) :
    FifoRun POOL_QUEUE_SIZE s.poolQueue (s.queueOps e) (s.step e).poolQueue := by
  have hnil : FifoRun POOL_QUEUE_SIZE s.poolQueue [] s.poolQueue := FifoRun.nil s.poolQueue
  cases e with
  | tick d => exact hnil
  | thread =>
    simp only [queueOps, step, threadStep]
    rcases hpc : s.thread with _ | ⟨len, wake⟩ | (_ | x) | ⟨p, x⟩ | wake | _ | p | _
    · simp only
      split_ifs <;> exact hnil
    · simp only
      split_ifs <;> exact hnil
    · exact hnil
    · rcases hq : s.poolQueue with _ | ⟨p, rest⟩
      · simp only
        exact hq ▸ hnil
      · simp only
        rw [hq] at hnil
        split_ifs <;> exact hnil.take
    · exact hnil
    · simp only
      split_ifs <;> exact hnil
    · rcases hq : s.poolQueue with _ | ⟨p, rest⟩
      · rw [hq] at hnil
        simpa [hq] using hnil.empty
      · simp only
        rw [hq] at hnil
        split_ifs <;> exact hnil.take
    · exact hnil
    · exact hnil
  | call t p =>
    simp only [queueOps, step]
    split_ifs <;> exact hnil
  | caller t =>
    simp only [queueOps, step, callerStep]
    rcases hpc : s.caller t with _ | p | p | p
    · exact hnil
    · simp only
      split_ifs <;> exact hnil
    · simp only
      split_ifs with hroom
      · exact hnil.put p hroom
      · exact hnil
    · exact hnil

/-- What the threads do to the queue along a run is a history of a bounded queue. -/
theorem fifo_run (l : List (PoolStep T)) :
    FifoRun POOL_QUEUE_SIZE [] (observed step queueOps (init T) l) (run l).poolQueue := by
  induction l using List.reverseRecOn with
  | nil => exact FifoRun.nil []
  | append_singleton l e ih =>
    rw [observed_snoc, run_snoc]
    exact ih.trans (queue_step (run l) e)

/-! ## The pools that were handed over -/

theorem handed_snoc (l : List (PoolStep T)) (e : PoolStep T) :
    handed (l ++ [e]) = handed l ++ handedIn ((run l).view e) := by
  rw [handed, observed_snoc, handedIn, List.filterMap_append]
  rfl

theorem destroyed_snoc (l : List (PoolStep T)) (e : PoolStep T) :
    destroyed (l ++ [e]) = destroyed l ++ destroyedIn ((run l).view e) := by
  rw [destroyed, observed_snoc, destroyedIn, List.filterMap_append]
  rfl

/-- The pool of the first was destroyed at the time of the second, a second later or more. -/
def Graced (handed destroyed : PoolPtr × ℕ) : Prop :=
  destroyed.1 = handed.1 ∧ handed.2 + POOL_YIELD ≤ destroyed.2

/-- A caller has a pool to hand over, and does not destroy one itself. -/
def CallerHolds : PoolCallerPc → Prop
  | .outside => True
  | .testing p | .pushing p => p ≠ 0
  | .destroying _ => False

/-- The thread is in its first loop. -/
def Looping : PoolThreadPc → Prop
  | .draining | .drained _ | .ended => False
  | _ => True

/-- Of the pools that were handed over, those in `done` were destroyed, and the thread and the
queue have the others; those that the thread counted are a second old when it goes on. -/
structure Holds (s : PoolManager T) (hs ds done rest : List (PoolPtr × ℕ)) : Prop where
  handed : hs = done ++ rest
  destroyed : List.Forall₂ Graced done ds
  pools : rest.map Prod.fst = s.thread.inHand ++ s.poolQueue
  past : ∀ e ∈ rest, e.2 ≤ s.now
  counted : s.thread.counted ≤ rest.length
  ripe : ∀ e ∈ rest.take s.thread.counted, e.2 + POOL_YIELD ≤ s.thread.due s.now
  running : s.poolThreadRunning = true
  looping : Looping s.thread
  nonnull : ∀ p ∈ s.poolQueue, p ≠ 0
  callers : ∀ t, CallerHolds (s.caller t)

variable {hs ds done rest : List (PoolPtr × ℕ)}

omit [DecidableEq T] in
theorem Holds.init : Holds (init T) [] [] [] [] where
  handed := rfl
  destroyed := List.Forall₂.nil
  pools := rfl
  past _ he := absurd he List.not_mem_nil
  counted := le_rfl
  ripe _ he := absurd he (by simp)
  running := rfl
  looping := trivial
  nonnull _ hp := absurd hp List.not_mem_nil
  callers _ := trivial

/-- A caller goes on with a pool that it may hold. -/
theorem Holds.goto (h : Holds s hs ds done rest) (t : T) (pc : PoolCallerPc)
    (hpc : CallerHolds pc) :
    Holds (s.goto t pc) hs ds done rest where
  handed := h.handed
  destroyed := h.destroyed
  pools := h.pools
  past := h.past
  counted := h.counted
  ripe := h.ripe
  running := h.running
  looping := h.looping
  nonnull := h.nonnull
  callers t' := by
    by_cases ht : t' = t
    · rw [ht]
      simpa [PoolManager.goto] using hpc
    · simpa [PoolManager.goto, ht] using h.callers t'

omit [DecidableEq T] in
/-- The thread goes to a place with the same pool in hand. -/
theorem Holds.move (h : Holds s hs ds done rest) (pc : PoolThreadPc)
    (hhand : pc.inHand = s.thread.inHand) (hcounted : pc.counted ≤ rest.length)
    (hripe : ∀ e ∈ rest.take pc.counted, e.2 + POOL_YIELD ≤ pc.due s.now) (hloop : Looping pc) :
    Holds { s with thread := pc } hs ds done rest where
  handed := h.handed
  destroyed := h.destroyed
  pools := hhand ▸ h.pools
  past := h.past
  counted := hcounted
  ripe := hripe
  running := h.running
  looping := hloop
  nonnull := h.nonnull
  callers := h.callers

omit [DecidableEq T] in
/-- A caller puts a pool into the queue. -/
theorem Holds.push (h : Holds s hs ds done rest) {p : PoolPtr} (hp : p ≠ 0) :
    Holds { s with poolQueue := s.poolQueue ++ [p] } (hs ++ [(p, s.now)]) ds done
      (rest ++ [(p, s.now)]) where
  handed := by rw [h.handed, List.append_assoc]
  destroyed := h.destroyed
  pools := by simp [h.pools]
  past e he := by
    rcases List.mem_append.mp he with he | he
    · exact h.past e he
    · rw [List.mem_singleton.mp he]
  counted := by
    rw [List.length_append]
    exact h.counted.trans (Nat.le_add_right _ _)
  ripe e he := by
    rw [List.take_append_of_le_length h.counted] at he
    exact h.ripe e he
  running := h.running
  looping := h.looping
  nonnull q hq := by
    rcases List.mem_append.mp hq with hq | hq
    · exact h.nonnull q hq
    · rw [List.mem_singleton.mp hq]
      exact hp
  callers := h.callers

omit [DecidableEq T] in
/-- The thread takes the next one of the pools that it counted. -/
theorem Holds.take (h : Holds s hs ds done rest) {p : PoolPtr} {x : ℕ} {queue : List PoolPtr}
    (hpc : s.thread = .popping (x + 1)) (hq : s.poolQueue = p :: queue) :
    Holds { s with poolQueue := queue, thread := .destroying p x } hs ds done rest where
  handed := h.handed
  destroyed := h.destroyed
  pools := by simpa [hpc, hq, PoolThreadPc.inHand] using h.pools
  past := h.past
  counted := by simpa [hpc, PoolThreadPc.counted] using h.counted
  ripe := by simpa [hpc, PoolThreadPc.counted, PoolThreadPc.due] using h.ripe
  running := h.running
  looping := trivial
  nonnull q hqueue := h.nonnull q (hq ▸ List.mem_cons_of_mem p hqueue)
  callers := h.callers

omit [DecidableEq T] in
/-- The thread destroys the pool that it took, which is the oldest one and was counted. -/
theorem Holds.destroy (h : Holds s hs ds done rest) {p : PoolPtr} {x : ℕ}
    (hpc : s.thread = .destroying p x) :
    ∃ done' rest', Holds { s with thread := .popping x } hs (ds ++ [(p, s.now)]) done' rest' := by
  have hpools := h.pools
  have hcounted := h.counted
  have hripe := h.ripe
  simp only [hpc, PoolThreadPc.inHand, PoolThreadPc.counted, PoolThreadPc.due]
    at hpools hcounted hripe
  rcases rest with _ | ⟨⟨p', time⟩, rest⟩
  · cases hpools
  · obtain ⟨rfl, hrest⟩ := List.cons.inj hpools
    refine ⟨done ++ [(p', time)], rest, ?_⟩
    constructor
    · rw [h.handed, List.append_assoc]
      rfl
    · have hgraced : Graced (p', time) (p', s.now) := ⟨rfl, hripe (p', time) (by simp)⟩
      exact List.rel_append h.destroyed (List.Forall₂.cons hgraced List.Forall₂.nil)
    · exact hrest
    · exact fun e he => h.past e (List.mem_cons_of_mem _ he)
    · exact Nat.le_of_succ_le_succ hcounted
    · intro e he
      refine hripe e ?_
      rw [List.take_succ_cons]
      exact List.mem_cons_of_mem _ he
    · exact h.running
    · trivial
    · exact h.nonnull
    · exact h.callers

omit [DecidableEq T] in
/-- **A step of the thread.** -/
theorem Holds.threadStep (h : Holds s hs ds done rest) :
    ∃ done' rest', Holds s.threadStep (hs ++ handedIn (s.view .thread))
      (ds ++ destroyedIn (s.view .thread)) done' rest' := by
  have hstay : ∀ {s' : PoolManager T}, Holds s' hs ds done rest →
      ∃ done' rest', Holds s' (hs ++ handedIn []) (ds ++ destroyedIn []) done' rest' := by
    intro s' h'
    refine ⟨done, rest, ?_⟩
    simpa [handedIn, destroyedIn] using h'
  have hcounted := h.counted
  have hripe := h.ripe
  have hlooping := h.looping
  have hpools := h.pools
  simp only [view, PoolManager.threadStep]
  rcases hpc : s.thread with _ | ⟨len, wake⟩ | (_ | x) | ⟨p, x⟩ | wake | _ | p | _
  · rw [hpc] at hpools
    have hlen : rest.length = s.poolQueue.length := by
      simpa [PoolThreadPc.inHand] using congrArg List.length hpools
    apply hstay
    simp only
    rw [if_pos h.running]
    split_ifs
    · refine h.move (.sleeping _ _) (by rw [hpc]; rfl) hlen.ge (fun e he => ?_) trivial
      exact Nat.add_le_add_right (h.past e (List.mem_of_mem_take he)) _
    · exact h.move (.idle _) (by rw [hpc]; rfl) (Nat.zero_le _) (by simp [PoolThreadPc.counted])
        trivial
  · rw [hpc] at hcounted hripe
    apply hstay
    simp only
    split_ifs with hwake
    · exact h.move (.popping _) (by rw [hpc]; rfl) hcounted
        (fun e he => (hripe e he).trans hwake) trivial
    · exact h
  · apply hstay
    exact h.move .top (by rw [hpc]; rfl) (Nat.zero_le _) (by simp [PoolThreadPc.counted]) trivial
  · apply hstay
    rcases hq : s.poolQueue with _ | ⟨p, queue⟩
    · exact h
    · simp only
      rw [if_neg (h.nonnull p (hq ▸ List.mem_cons_self))]
      exact h.take hpc hq
  · exact (h.destroy hpc).imp fun done' => Exists.imp fun rest' h' => by
      simpa [handedIn, destroyedIn] using h'
  · apply hstay
    simp only
    split_ifs
    · exact h.move .top (by rw [hpc]; rfl) (Nat.zero_le _) (by simp [PoolThreadPc.counted]) trivial
    · exact h
  -- the thread does not leave its first loop
  · exact absurd hlooping (by rw [hpc]; exact id)
  · exact absurd hlooping (by rw [hpc]; exact id)
  · exact absurd hlooping (by rw [hpc]; exact id)

/-- **A step of a caller.** -/
theorem Holds.callerStep (h : Holds s hs ds done rest) (t : T) :
    ∃ done' rest', Holds (s.callerStep t) (hs ++ handedIn (s.view (.caller t)))
      (ds ++ destroyedIn (s.view (.caller t))) done' rest' := by
  have hcaller := h.callers t
  simp only [view, PoolManager.callerStep]
  rcases hpc : s.caller t with _ | p | p | p
  · exact ⟨done, rest, by simpa [handedIn, destroyedIn] using h⟩
  · refine ⟨done, rest, ?_⟩
    simp only
    rw [if_pos h.running]
    rw [hpc] at hcaller
    simpa [handedIn, destroyedIn] using h.goto t (.pushing p) hcaller
  · simp only
    rw [hpc] at hcaller
    split_ifs
    · refine ⟨done, rest ++ [(p, s.now)], ?_⟩
      simpa [handedIn, destroyedIn] using (h.push hcaller).goto t .outside trivial
    · exact ⟨done, rest, by simpa [handedIn, destroyedIn] using h⟩
  · rw [hpc] at hcaller
    exact hcaller.elim

theorem due_le (x : PoolThreadPc) (now d : ℕ) : x.due now ≤ x.due (now + d) := by
  cases x with
  | sleeping len wake => exact le_rfl
  | _ => exact Nat.le_add_right _ _

omit [DecidableEq T] in
theorem Holds.tick (h : Holds s hs ds done rest) (d : ℕ) :
    Holds { s with now := s.now + d } hs ds done rest where
  handed := h.handed
  destroyed := h.destroyed
  pools := h.pools
  past e he := (h.past e he).trans (Nat.le_add_right _ _)
  counted := h.counted
  ripe e he := (h.ripe e he).trans (due_le _ _ _)
  running := h.running
  looping := h.looping
  nonnull := h.nonnull
  callers := h.callers

/-- **A step** keeps account of the pools. -/
theorem Holds.step (h : Holds s hs ds done rest) (e : PoolStep T) :
    ∃ done' rest', Holds (s.step e) (hs ++ handedIn (s.view e)) (ds ++ destroyedIn (s.view e))
      done' rest' := by
  cases e with
  | tick d =>
    refine ⟨done, rest, ?_⟩
    simpa [view, handedIn, destroyedIn, PoolManager.step] using h.tick d
  | thread => exact h.threadStep
  | call t p =>
    refine ⟨done, rest, ?_⟩
    simp only [PoolManager.step, view, handedIn, destroyedIn, List.filterMap_nil, List.append_nil]
    split_ifs with hcall
    · exact h.goto t (.testing p) hcall.2
    · exact h
  | caller t => exact h.callerStep t

/-- **A run** keeps account of the pools. -/
theorem holds_run (l : List (PoolStep T)) :
    ∃ done rest, Holds (run l) (handed l) (destroyed l) done rest := by
  induction l using List.reverseRecOn with
  | nil => exact ⟨[], [], Holds.init⟩
  | append_singleton l e ih =>
    obtain ⟨done, rest, h⟩ := ih
    rw [run_snoc, handed_snoc, destroyed_snoc]
    exact h.step e

/-- **Later, in order, once.** Whatever the threads do and in whatever order, the thread never
leaves its loop; the pools that were destroyed are the first ones that were handed over, each
destroyed once and a second or more after it was handed over; the thread and the queue have the
others, and no caller destroys a pool itself. -/
theorem destroyed_in_order (l : List (PoolStep T)) :
    ∃ done rest : List (PoolPtr × ℕ), handed l = done ++ rest ∧
      List.Forall₂ Graced done (destroyed l) ∧
      rest.map Prod.fst = (run l).thread.inHand ++ (run l).poolQueue ∧
      (run l).poolThreadRunning = true ∧ Looping (run l).thread ∧
      ∀ t p, (run l).caller t ≠ .destroying p := by
  obtain ⟨done, rest, h⟩ := holds_run l
  refine ⟨done, rest, h.handed, h.destroyed, h.pools, h.running, h.looping, fun t p hp => ?_⟩
  have hcaller := h.callers t
  rw [hp] at hcaller
  exact hcaller

/-! ## A round of the thread -/

/-- A pool that was counted is destroyed before it is counted no more. -/
theorem counted_step (h : Holds s hs ds done rest) (e : PoolStep T) :
    s.thread.counted ≤ (destroyedIn (s.view e)).length + (s.step e).thread.counted := by
  cases e with
  | tick d => exact Nat.le_add_left _ _
  | thread =>
    simp only [view, step, threadStep]
    rcases hpc : s.thread with _ | ⟨len, wake⟩ | (_ | x) | ⟨p, x⟩ | wake | _ | p | _
    · exact Nat.zero_le _
    · simp only
      split_ifs
      · exact Nat.le_add_left _ _
      · simp [hpc, PoolThreadPc.counted]
    · exact Nat.zero_le _
    · rcases hq : s.poolQueue with _ | ⟨p, queue⟩
      · simp [hpc, PoolThreadPc.counted]
      · simp only
        rw [if_neg (h.nonnull p (hq ▸ List.mem_cons_self))]
        exact Nat.le_add_left _ _
    · exact (Nat.add_comm x 1).le
    all_goals exact Nat.zero_le _
  | call t p =>
    simp only [step]
    split_ifs <;> exact Nat.le_add_left _ _
  | caller t =>
    have hthread : (s.callerStep t).thread = s.thread := by
      unfold callerStep
      split
      · rfl
      · split_ifs <;> rfl
      · split_ifs <;> rfl
      · rfl
    simp only [step, hthread]
    exact Nat.le_add_left _ _

/-- All that was handed over before a round is destroyed or counted in it. -/
theorem handed_le_counted (htop : (run p).thread = .top) (q : List (PoolStep T)) :
    (handed p).length ≤
      (destroyed (p ++ .thread :: q)).length + (run (p ++ .thread :: q)).thread.counted := by
  induction q using List.reverseRecOn with
  | nil =>
    obtain ⟨done, rest, h⟩ := holds_run p
    have hds := h.destroyed.length_eq
    have hpools := congrArg List.length h.pools
    rw [run_snoc, destroyed_snoc, h.handed]
    simp only [step, threadStep, view, htop, h.running, if_true]
    simp only [htop, PoolThreadPc.inHand, List.nil_append, List.length_map] at hpools
    simp only [List.length_append]
    split_ifs with hlen
    · simp only [PoolThreadPc.counted]
      omega
    · simp only [PoolThreadPc.counted]
      omega
  | append_singleton q e ih =>
    obtain ⟨done, rest, h⟩ := holds_run (p ++ .thread :: q)
    have hstep := counted_step h e
    rw [← List.cons_append, ← List.append_assoc, destroyed_snoc, run_snoc, List.length_append]
    omega

theorem handed_grows (p q : List (PoolStep T)) : handed p <+: handed (p ++ q) := by
  induction q using List.reverseRecOn with
  | nil => rw [List.append_nil]
  | append_singleton q e ih =>
    rw [← List.append_assoc, handed_snoc]
    exact ih.trans (List.prefix_append _ _)

/-- **A round.** When the thread is at the top of its loop, and there again after steps of its own
and of others, the pools that were handed over before have been destroyed before all others. -/
theorem reclaimed_after_round (p q : List (PoolStep T)) (htop : (run p).thread = .top)
    (hagain : (run (p ++ .thread :: q)).thread = .top) :
    (handed p).map Prod.fst <+: (destroyed (p ++ .thread :: q)).map Prod.fst := by
  obtain ⟨done, rest, h⟩ := holds_run (p ++ .thread :: q)
  have hle : (handed p).length ≤ done.length := by
    have hcounted := handed_le_counted htop q
    rw [hagain] at hcounted
    rw [h.destroyed.length_eq]
    exact hcounted
  have hdone : handed p <+: done := by
    apply List.prefix_of_prefix_length_le (handed_grows p (.thread :: q)) _ hle
    rw [h.handed]
    exact List.prefix_append done rest
  have hpools : done.map Prod.fst = (destroyed (p ++ .thread :: q)).map Prod.fst := by
    rw [← List.forall₂_eq_eq_eq, List.forall₂_map_left_iff, List.forall₂_map_right_iff]
    exact h.destroyed.imp fun _ _ hgraced => hgraced.1.symm
  rw [← hpools]
  exact hdone.map Prod.fst

/-- Two pools, one of them handed over while the thread sleeps. -/
theorem reclaimed_after_round_two :
    let p : List (PoolStep Bool) := [.call true 8, .caller true, .caller true]
    let q : List (PoolStep Bool) := [.call false 16, .caller false, .caller false, .tick 1000000,
      .thread, .thread, .thread, .thread]
    (handed p = [(8, 0)] ∧ (run (p ++ .thread :: q)).poolQueue = [16]) ∧
      (handed p).map Prod.fst <+: (destroyed (p ++ .thread :: q)).map Prod.fst := by
  intro p q
  refine ⟨⟨by decide, by decide⟩, reclaimed_after_round p q ?_ ?_⟩
  · decide
  · decide

end PoolManager
