import Mathlib.Data.Int.Order.Basic
import AgcFramework.Mq.Messages

/-!
# The circuit breaker of a producer

A push that finds the queue of a producer full closes the producer to pushes for
`circuit_breaker_ms` milliseconds. The deadline is on a 64-bit clock of microseconds, but the number
of microseconds is a product of 32-bit unsigned values: it wraps from 4294968 ms on, and the
producer opens again long before its time.

## Main definitions

* `ProducerProfile.Refuses`: a push is tried and finds the queue full
* `ProducerProfile.BreakerLaw`: after a refused push, nothing is pushed before the exact deadline,
  and messages are pushed again from then on

## Main results

* `ProducerProfile.resetTime_le_foldl`: the deadline never moves back
* `ProducerProfile.breaker_law_iff`: the law holds exactly if the product does not wrap
-/

namespace ProducerProfile

variable {M : Type}

/-- A push at the time `now` is tried, whatever the room in the queue. -/
structure Open (p : ProducerProfile M) (now : ℤ) : Prop where
  looping : p.phase = .looping
  running : p.running = true
  waited : p.resetTime ≤ now

/-- `agc_queue_trypush` at the time `now` finds the queue full. -/
structure Refuses (p : ProducerProfile M) (now : ℤ) : Prop extends p.Open now where
  full : MQ_EVENT_LIMIT ≤ p.sendQueue.length

/-- The time of a call of `handle_event`. -/
def timeOf : ProfileEvent M → Option ℤ
  | .handleEvent now _ _ => some now
  | _ => none

/-- The clock that the calls of `handle_event` read does not go back. -/
def Clocked (evs : List (ProfileEvent M)) : Prop := (evs.filterMap timeOf).Pairwise (· ≤ ·)

/-- The law of the circuit breaker, for a producer whose profile carries `circuitBreakerMs`. In
every run in which the push at the time `t` is refused, a later event pushes nothing before the
exact deadline. If no other push was refused in the meantime, then from the deadline on a listed
event is pushed whenever the queue has room. -/
def BreakerLaw (M : Type) (circuitBreakerMs : UInt32) : Prop :=
  ∀ (infos : List AgcmqConnectionInfo) (evs evs' : List (ProfileEvent M)) (t t' : ℤ) (m m' : M)
    (listed : Bool),
    Clocked (evs ++ .handleEvent t true m :: (evs' ++ [.handleEvent t' listed m'])) →
    (run infos circuitBreakerMs.toNat evs).Refuses t →
    -- the producer before and after the later event
    let p := run infos circuitBreakerMs.toNat (evs ++ .handleEvent t true m :: evs')
    let p' := p.step (.handleEvent t' listed m')
    (t' < t + circuitBreakerMs.toNat * 1000 →
      p'.pushed = p.pushed ∧ p'.sendQueue = p.sendQueue) ∧
    (t + circuitBreakerMs.toNat * 1000 ≤ t' → listed = true →
      p.refused = (run infos circuitBreakerMs.toNat evs).refused ++ [m] →
      p.phase = .looping → p.running = true → p.sendQueue.length < MQ_EVENT_LIMIT →
      p'.pushed = p.pushed ++ [m'] ∧ p'.sendQueue = p.sendQueue ++ [m'])

/-! ## One push -/

section Push

variable {p : ProducerProfile M} {now : ℤ} {m : M}

/-- Before the deadline nothing happens. -/
theorem handleEvent_of_lt (h : now < p.resetTime) (listed : Bool) (m : M) :
    p.handleEvent now listed m = p := by
  simp only [handleEvent]
  split_ifs
  · rfl
  · rfl

/-- A push into a queue with room. -/
theorem handleEvent_of_room (h : p.Open now) (hroom : p.sendQueue.length < MQ_EVENT_LIMIT) :
    p.handleEvent now true m =
      { p with sendQueue := p.sendQueue ++ [m], pushed := p.pushed ++ [m] } := by
  have hon : ¬ (p.phase ≠ .looping ∨ p.running = false) := by simp [h.looping, h.running]
  simp only [handleEvent, if_neg hon, if_neg (not_lt.mpr h.waited), Bool.not_true,
    Bool.false_eq_true, if_false, if_pos hroom]

/-- A push into a full queue sets the deadline. -/
theorem handleEvent_of_refuses (h : p.Refuses now) :
    p.handleEvent now true m =
      { p with
        resetTime := now + (p.circuitBreakerMs * 1000 % 2 ^ 32 : ℕ)
        refused := p.refused ++ [m] } := by
  have hon : ¬ (p.phase ≠ .looping ∨ p.running = false) := by simp [h.looping, h.running]
  simp only [handleEvent, if_neg hon, if_neg (not_lt.mpr h.waited), Bool.not_true,
    Bool.false_eq_true, if_false, if_neg (not_lt.mpr h.full)]

end Push

/-! ## The deadline over a run -/

/-- What an event does to the breaker: nothing, or it refuses a message and sets the deadline, which
was over. -/
inductive Moves (p p' : ProducerProfile M) : Prop
  | stays (reset : p'.resetTime = p.resetTime) (refused : p'.refused = p.refused)
  | sets (now : ℤ) (m : M) (waited : p.resetTime ≤ now)
    (reset : p'.resetTime = now + (p.circuitBreakerMs * 1000 % 2 ^ 32 : ℕ))
    (refused : p'.refused = p.refused ++ [m])

theorem moves_handleEvent (p : ProducerProfile M) (now : ℤ) (listed : Bool) (m : M) :
    p.Moves (p.handleEvent now listed m) := by
  simp only [handleEvent]
  split_ifs with hoff hwait hlisted hroom
  · exact .stays rfl rfl
  · exact .stays rfl rfl
  · exact .stays rfl rfl
  · exact .stays rfl rfl
  · exact .sets now m (not_lt.mp hwait) rfl rfl

theorem pop_breaker (p : ProducerProfile M) :
    p.pop.resetTime = p.resetTime ∧ p.pop.refused = p.refused ∧
      p.pop.circuitBreakerMs = p.circuitBreakerMs := by
  unfold pop
  split
  · exact ⟨rfl, rfl, rfl⟩
  · exact ⟨rfl, rfl, rfl⟩

theorem send_breaker (p : ProducerProfile M) (o : RoundAnswers) :
    (p.send o).resetTime = p.resetTime ∧ (p.send o).refused = p.refused ∧
      (p.send o).circuitBreakerMs = p.circuitBreakerMs := by
  unfold send
  split
  · exact ⟨rfl, rfl, rfl⟩
  · dsimp only
    split_ifs
    · exact ⟨rfl, rfl, rfl⟩
    · exact ⟨rfl, rfl, rfl⟩

/-- The thread has no part in the breaker. -/
theorem round_breaker (p : ProducerProfile M) (o : RoundAnswers) :
    (p.round o).resetTime = p.resetTime ∧ (p.round o).refused = p.refused ∧
      (p.round o).circuitBreakerMs = p.circuitBreakerMs := by
  -- a round serves the queue, after a reconnection if one is needed
  have hserve : ∀ p : ProducerProfile M, (p.pop.send o).resetTime = p.resetTime ∧
      (p.pop.send o).refused = p.refused ∧
      (p.pop.send o).circuitBreakerMs = p.circuitBreakerMs := by
    intro p
    obtain ⟨hreset, hrefused, hms⟩ := p.pop_breaker
    obtain ⟨hreset', hrefused', hms'⟩ := p.pop.send_breaker o
    exact ⟨hreset'.trans hreset, hrefused'.trans hrefused, hms'.trans hms⟩
  simp only [round]
  split_ifs
  · exact ⟨rfl, rfl, rfl⟩
  · exact hserve { p with mq := _ }
  · exact hserve p

/-- An event moves the breaker only by a refused push, and never changes its time. -/
theorem moves_step (p : ProducerProfile M) (e : ProfileEvent M) :
    p.Moves (p.step e) ∧ (p.step e).circuitBreakerMs = p.circuitBreakerMs := by
  cases e with
  | create o =>
    simp only [step, create]
    split_ifs
    all_goals exact ⟨.stays rfl rfl, rfl⟩
  | handleEvent now listed m =>
    refine ⟨moves_handleEvent p now listed m, ?_⟩
    simp only [step, handleEvent]
    split_ifs
    all_goals rfl
  | round o =>
    -- the thread of the producer does not look at the breaker
    obtain ⟨hreset, hrefused, hms⟩ := p.round_breaker o
    simp only [step]
    split_ifs
    · exact ⟨.stays hreset hrefused, hms⟩
    · exact ⟨.stays rfl rfl, rfl⟩
    · exact ⟨.stays rfl rfl, rfl⟩
  | stop =>
    simp only [step]
    split_ifs
    all_goals exact ⟨.stays rfl rfl, rfl⟩
  | join =>
    simp only [step]
    split_ifs
    all_goals exact ⟨.stays rfl rfl, rfl⟩

theorem circuitBreakerMs_foldl (evs : List (ProfileEvent M)) (p : ProducerProfile M) :
    (evs.foldl step p).circuitBreakerMs = p.circuitBreakerMs := by
  induction evs generalizing p with
  | nil => rfl
  | cons e evs ih => exact (ih (p.step e)).trans (p.moves_step e).2

/-- The deadline never moves back: it is only set anew once it is over. -/
theorem resetTime_le_foldl (evs : List (ProfileEvent M)) (p : ProducerProfile M) :
    p.resetTime ≤ (evs.foldl step p).resetTime := by
  induction evs generalizing p with
  | nil => exact le_refl _
  | cons e evs ih =>
    refine le_trans ?_ (ih (p.step e))
    rcases (p.moves_step e).1 with ⟨hreset, -⟩ | ⟨now, m, hwaited, hreset, -⟩
    · rw [hreset]
    · -- a push is refused only once the deadline is over
      rw [hreset]
      omega

/-- The refused messages only grow, and the deadline stands as long as they do not. -/
theorem refused_foldl (evs : List (ProfileEvent M)) (p : ProducerProfile M) :
    ∃ more, (evs.foldl step p).refused = p.refused ++ more ∧
      (more = [] → (evs.foldl step p).resetTime = p.resetTime) := by
  -- each refused message is one event that moved the deadline
  induction evs generalizing p with
  | nil => exact ⟨[], by simp, fun _ => rfl⟩
  | cons e evs ih =>
    obtain ⟨more, hmore, hstands⟩ := ih (p.step e)
    rcases (p.moves_step e).1 with ⟨hreset, hrefused⟩ | ⟨now, m, -, -, hrefused⟩
    · refine ⟨more, ?_, fun hnil => (hstands hnil).trans hreset⟩
      rw [List.foldl_cons, hmore, hrefused]
    · refine ⟨m :: more, ?_, fun hnil => absurd hnil (List.cons_ne_nil _ _)⟩
      rw [List.foldl_cons, hmore, hrefused, List.append_assoc, List.singleton_append]

/-! ## The law -/

section Law

variable {infos : List AgcmqConnectionInfo} {evs : List (ProfileEvent M)} {t : ℤ}

theorem run_append (infos : List AgcmqConnectionInfo) (circuitBreakerMs : ℕ)
    (evs evs' : List (ProfileEvent M)) :
    run infos circuitBreakerMs (evs ++ evs') = evs'.foldl step (run infos circuitBreakerMs evs) :=
  List.foldl_append

theorem circuitBreakerMs_run (infos : List AgcmqConnectionInfo) (circuitBreakerMs : ℕ)
    (evs : List (ProfileEvent M)) :
    (run infos circuitBreakerMs evs).circuitBreakerMs = circuitBreakerMs :=
  circuitBreakerMs_foldl evs _

/-- The deadline after a refused push, and what stays of it. -/
theorem deadline_of_refuses {circuitBreakerMs : ℕ} (evs' : List (ProfileEvent M)) (m : M)
    (h : (run infos circuitBreakerMs evs).Refuses t) :
    let p := run infos circuitBreakerMs (evs ++ ProfileEvent.handleEvent t true m :: evs')
    t + (circuitBreakerMs * 1000 % 2 ^ 32 : ℕ) ≤ p.resetTime ∧
      (p.refused = (run infos circuitBreakerMs evs).refused ++ [m] →
        p.resetTime = t + (circuitBreakerMs * 1000 % 2 ^ 32 : ℕ)) := by
  intro p
  -- the state after the refused push
  obtain ⟨r, hr⟩ : ∃ r, r = (run infos circuitBreakerMs evs).handleEvent t true m := ⟨_, rfl⟩
  have hp : p = evs'.foldl step r := by
    rw [hr]
    exact run_append infos circuitBreakerMs evs _
  rw [handleEvent_of_refuses h, circuitBreakerMs_run] at hr
  have hreset : r.resetTime = t + (circuitBreakerMs * 1000 % 2 ^ 32 : ℕ) := by rw [hr]
  have hrefused : r.refused = (run infos circuitBreakerMs evs).refused ++ [m] := by rw [hr]
  rw [hp, ← hreset, ← hrefused]
  refine ⟨resetTime_le_foldl evs' r, ?_⟩
  obtain ⟨more, hmore, hstands⟩ := refused_foldl evs' r
  intro hsame
  -- nothing else was refused, so the deadline is the one that this push set
  apply hstands
  rw [hmore] at hsame
  exact List.append_cancel_left (hsame.trans (List.append_nil _).symm)

/-- The law, where the product of the deadline does not wrap. -/
theorem breakerLaw_of_lt {circuitBreakerMs : UInt32}
    (h : circuitBreakerMs.toNat * 1000 < 2 ^ 32) : BreakerLaw M circuitBreakerMs := by
  intro infos evs evs' t t' m m' listed _ hrefuses p p'
  obtain ⟨hle, heq⟩ := deadline_of_refuses evs' m hrefuses
  have hexact : ((circuitBreakerMs.toNat * 1000 % 2 ^ 32 : ℕ) : ℤ) =
      circuitBreakerMs.toNat * 1000 := by
    rw [Nat.mod_eq_of_lt h]
    exact Int.natCast_mul _ _
  rw [hexact] at hle heq
  -- before the deadline the push returns at once; from then on it finds the breaker open
  refine ⟨?_, ?_⟩
  · intro hlt
    have hsame : p' = p := handleEvent_of_lt (lt_of_lt_of_le hlt hle) listed m'
    rw [hsame]
    exact ⟨rfl, rfl⟩
  · rintro hover rfl hrefused hlooping hrunning hroom
    have hopen : p.Open t' := ⟨hlooping, hrunning, (heq hrefused).trans_le hover⟩
    have hpush : p' = _ := handleEvent_of_room hopen hroom
    rw [hpush]
    exact ⟨rfl, rfl⟩

end Law

/-! ## A deadline that wraps

The queue is filled at the time 0 and one more push is refused. The thread then takes a message, so
that there is room at the wrapped deadline, which is before the exact one. -/

section Wrap

/-- A host whose server answers everything. -/
def someHost : AgcmqConnectionInfo := ⟨"localhost", "/", "guest", "guest", 5672⟩

def opened : OpenOutcome := ⟨true, fun _ _ => 0, fun _ => .normal⟩

def created (M : Type) : ProfileEvent M := .create ⟨opened, .normal, true⟩

/-- Pushes of one message at the time 0, until the queue is full. -/
def fill (m : M) (n : ℕ) : List (ProfileEvent M) := List.replicate n (.handleEvent 0 true m)

theorem foldl_fill (m : M) (n : ℕ) {p : ProducerProfile M} (h : p.Open 0)
    (hn : p.sendQueue.length + n ≤ MQ_EVENT_LIMIT) :
    (fill m n).foldl step p =
      { p with
        sendQueue := p.sendQueue ++ List.replicate n m
        pushed := p.pushed ++ List.replicate n m } := by
  induction n generalizing p with
  | zero => simp [fill]
  | succ n ih =>
    have hroom : p.sendQueue.length < MQ_EVENT_LIMIT := by omega
    obtain ⟨p', hp'⟩ : ∃ p', p' = p.step (.handleEvent 0 true m) := ⟨_, rfl⟩
    have hstep : p' = { p with sendQueue := p.sendQueue ++ [m], pushed := p.pushed ++ [m] } :=
      hp'.trans (handleEvent_of_room h hroom)
    have hopen : p'.Open 0 := by
      rw [hstep]
      exact ⟨h.looping, h.running, h.waited⟩
    have hn' : p'.sendQueue.length + n ≤ MQ_EVENT_LIMIT := by
      rw [hstep]
      simp only [List.length_append, List.length_singleton]
      omega
    have hfill := ih hopen hn'
    rw [fill, List.replicate_succ, List.foldl_cons, ← hp', ← fill, hfill, hstep]
    simp [List.replicate_succ]

/-- The thread takes the first message of a queue and publishes it. -/
def taken : RoundAnswers := ⟨opened, .normal, 0⟩

theorem round_taken {p : ProducerProfile M} {m : M} {q : List M} (hactive : p.mq.active = true)
    (hmsg : p.msg = none) (hq : p.sendQueue = m :: q) :
    (p.round taken).sendQueue = q ∧ (p.round taken).pushed = p.pushed ∧
      (p.round taken).phase = p.phase ∧ (p.round taken).running = p.running ∧
      (p.round taken).resetTime = p.resetTime := by
  have hround : p.round taken = p.pop.send taken := by simp [round, hactive]
  have hpop : p.pop = { p with msg := some m, sendQueue := q } := by simp [pop, hmsg, hq]
  rw [hround, hpop]
  simp [send, agcmqProducerSend, hactive, taken]

variable (m : M)

/-- The events of the run, up to the push that is refused. -/
def filled : List (ProfileEvent M) := created M :: fill m MQ_EVENT_LIMIT

theorem run_filled (circuitBreakerMs : ℕ) :
    (run [someHost] circuitBreakerMs (filled m)).Refuses 0 ∧
      (run [someHost] circuitBreakerMs (filled m)).mq.active = true ∧
      (run [someHost] circuitBreakerMs (filled m)).msg = none ∧
      (run [someHost] circuitBreakerMs (filled m)).sendQueue = List.replicate MQ_EVENT_LIMIT m := by
  obtain ⟨c, hc⟩ : ∃ c, c =
      (init [someHost] circuitBreakerMs : ProducerProfile M).step (created M) := ⟨_, rfl⟩
  have hp : run [someHost] circuitBreakerMs (filled m) = (fill m MQ_EVENT_LIMIT).foldl step c := by
    rw [hc, filled, run, List.foldl_cons]
  have hopen : c.Open 0 := by
    rw [hc]
    exact ⟨rfl, rfl, le_refl 0⟩
  have hempty : c.sendQueue = [] := by
    rw [hc]
    rfl
  have hready : c.mq.active = true ∧ c.msg = none := by
    rw [hc]
    exact ⟨rfl, rfl⟩
  rw [foldl_fill m MQ_EVENT_LIMIT hopen (by simp [hempty])] at hp
  rw [hp]
  refine ⟨⟨⟨hopen.looping, hopen.running, hopen.waited⟩, ?_⟩, hready.1, hready.2, ?_⟩
  · simp
  · simp [hempty]

theorem clocked_filled {t' : ℤ} (h : 0 ≤ t') (listed : Bool) :
    Clocked (filled m ++ ProfileEvent.handleEvent 0 true m ::
      ([ProfileEvent.round taken] ++ [ProfileEvent.handleEvent t' listed m])) := by
  have htimes : List.filterMap timeOf (filled m ++ ProfileEvent.handleEvent 0 true m ::
      ([ProfileEvent.round taken] ++ [ProfileEvent.handleEvent t' listed m])) =
      List.replicate MQ_EVENT_LIMIT 0 ++ [0, t'] := by
    simp [filled, created, fill, timeOf, List.filterMap_cons, List.filterMap_replicate]
  have hzeros : (List.replicate MQ_EVENT_LIMIT (0 : ℤ)).Pairwise (· ≤ ·) :=
    List.pairwise_replicate.mpr (Or.inr (le_refl 0))
  rw [Clocked, htimes, List.pairwise_append]
  refine ⟨hzeros, ?_, ?_⟩
  · simpa using h
  · intro a ha b hb
    obtain rfl : a = 0 := List.eq_of_mem_replicate ha
    rcases List.mem_pair.mp hb with rfl | rfl
    · exact le_refl _
    · exact h

/-- A refused push, a message taken, and a push at the deadline that the code computes. -/
theorem pushed_at_deadline {p : ProducerProfile M} {m : M} {q : List M} {now : ℤ}
    (h : p.Refuses now) (hactive : p.mq.active = true) (hmsg : p.msg = none)
    (hq : p.sendQueue = m :: q) (hroom : q.length < MQ_EVENT_LIMIT) (m' : M) :
    let r := (p.step (.handleEvent now true m')).step (.round taken)
    (r.step (.handleEvent (now + (p.circuitBreakerMs * 1000 % 2 ^ 32 : ℕ)) true m')).pushed =
      r.pushed ++ [m'] := by
  intro r
  obtain ⟨p', hp'⟩ : ∃ p', p' = p.step (.handleEvent now true m') := ⟨_, rfl⟩
  have hstep : p' = { p with
      resetTime := now + (p.circuitBreakerMs * 1000 % 2 ^ 32 : ℕ)
      refused := p.refused ++ [m'] } := hp'.trans (handleEvent_of_refuses h)
  have hloop : p'.phase = .looping := by rw [hstep, h.looping]
  have hrunning : p'.running = true := by rw [hstep, h.running]
  have hr : r = p'.round taken := by
    have hthread : p'.step (.round taken) = p'.round taken := by simp [step, hloop, hrunning]
    rw [← hthread, hp']
  obtain ⟨hqueue, -, hphase, hrun, hreset⟩ :=
    round_taken (p := p') (by rw [hstep, hactive]) (by rw [hstep, hmsg]) (by rw [hstep, hq])
  rw [hr]
  have hopen : (p'.round taken).Open (now + (p.circuitBreakerMs * 1000 % 2 ^ 32 : ℕ)) := by
    refine ⟨hphase.trans hloop, hrun.trans hrunning, ?_⟩
    rw [hreset, hstep]
  have hpush := handleEvent_of_room hopen (m := m') (by rw [hqueue]; exact hroom)
  exact congrArg ProducerProfile.pushed hpush

/-- The law fails where the product wraps. -/
theorem not_breakerLaw_of_le (m : M) {circuitBreakerMs : UInt32}
    (h : 2 ^ 32 ≤ circuitBreakerMs.toNat * 1000) : ¬ BreakerLaw M circuitBreakerMs := by
  intro hlaw
  obtain ⟨hrefuses, hactive, hmsg, hqueue⟩ := run_filled m circuitBreakerMs.toNat
  obtain ⟨hclosed, -⟩ := hlaw [someHost] (filled m) [.round taken] 0
    (0 + (circuitBreakerMs.toNat * 1000 % 2 ^ 32 : ℕ)) m m true
    (clocked_filled m (by omega) true) hrefuses
  -- the deadline that the code computes comes before the exact one
  have hlt : circuitBreakerMs.toNat * 1000 % 2 ^ 32 < circuitBreakerMs.toNat * 1000 :=
    (Nat.mod_lt _ (by decide)).trans_le h
  obtain ⟨hpushed, -⟩ := hclosed (by omega)
  rw [run_append, List.foldl_cons, List.foldl_cons, List.foldl_nil] at hpushed
  have hsome : (run [someHost] circuitBreakerMs.toNat (filled m)).sendQueue =
      m :: List.replicate (MQ_EVENT_LIMIT - 1) m := by
    rw [hqueue, ← List.replicate_succ]
    rfl
  have hroom : (List.replicate (MQ_EVENT_LIMIT - 1) m).length < MQ_EVENT_LIMIT := by
    rw [List.length_replicate]
    decide
  have hpush := pushed_at_deadline hrefuses hactive hmsg hsome hroom m
  rw [circuitBreakerMs_run] at hpush
  dsimp only at hpush
  rw [hpushed] at hpush
  simp at hpush

end Wrap

/-- **The circuit breaker.** The law holds for a producer exactly if the microseconds of its
`circuit_breaker_ms` fit 32 bits, that is up to 4294967 ms. -/
theorem breaker_law_iff (M : Type) [Inhabited M] (circuitBreakerMs : UInt32) :
    BreakerLaw M circuitBreakerMs ↔ circuitBreakerMs.toNat ≤ 4294967 := by
  constructor
  · intro hlaw
    by_contra hlong
    exact not_breakerLaw_of_le (default : M) (by omega) hlaw
  · intro hshort
    exact breakerLaw_of_lt (by omega)

/-- With 4294968 ms the producer waits for 704 microseconds. -/
theorem breaker_law_wraps : ¬ BreakerLaw Unit 4294968 :=
  not_breakerLaw_of_le () (by decide)

end ProducerProfile
