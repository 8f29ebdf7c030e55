import Mathlib.Algebra.Group.Nat.Defs
import AgcFramework.Mq.Threads

/-!
# The messages of a producer

Event callbacks push messages into the queue of a producer, and its thread pops them one at a time
and publishes them. A message that could not be published stays in the thread's hand through any
number of reconnections, so that nothing overtakes it. When the producer is stopped, the thread
destroys the message in its hand and `agcmq_producer_destroy` those in the queue. The connection is
that of `Producer`, whose runs are the runs of this module without the messages.

## Main definitions

* `ProducerProfile.step`: a push, an iteration of the thread, and the events of a producer's run
* `ProducerProfile.published`: the messages whose publication succeeded, in order

## Main results

* `ProducerProfile.toProducer_run`: without the messages, a run is one of `Producer`
* `ProducerProfile.order_and_no_loss`: what was published is an initial part of what was pushed, and
  every message pushed is destroyed once
-/

/-- `MQ_EVENT_LIMIT`. -/
def MQ_EVENT_LIMIT : ℕ := 10000

/-- Who destroys a message. -/
inductive Destroyer
  | thread
  | destroy
  deriving DecidableEq, Repr

/-- What is done with a message that was pushed. -/
inductive MessageEffect (M : Type)
  /-- Its publication succeeded. -/
  | published (m : M)
  | destroyed (who : Destroyer) (m : M)

/-- An `agcmq_producer_profile_t` with its messages, and what was done with them. -/
structure ProducerProfile (M : Type) where
  infos : List AgcmqConnectionInfo
  mq : Mq
  /-- The message in the thread's hand. -/
  msg : Option M
  running : Bool
  phase : Phase
  sendQueue : List M
  /-- Until when pushes are refused, after one found the queue full. -/
  resetTime : ℤ
  circuitBreakerMs : ℕ
  pushed : List M
  effects : List (MessageEffect M)
  /-- The messages that found the queue full; the callback destroys them. -/
  refused : List M

/-- What the library answers during an iteration of the producer's thread. -/
structure RoundAnswers where
  opening : OpenOutcome
  declare : ReplyType
  publish : ℤ

/-- An event of a producer's run. -/
inductive ProfileEvent (M : Type)
  | create (o : CreateOutcome)
  /-- The part of `handle_event` for this producer: the time, whether the event is in the
  producer's list, and the message made of it. -/
  | handleEvent (now : ℤ) (listed : Bool) (m : M)
  | round (o : RoundAnswers)
  | stop
  | join

namespace ProducerProfile

variable {M : Type}

def init (infos : List AgcmqConnectionInfo) (circuitBreakerMs : ℕ) : ProducerProfile M :=
  ⟨infos, .init, none, true, .fresh, [], 0, circuitBreakerMs, [], [], []⟩

/-- The producer without its messages. -/
def toProducer (p : ProducerProfile M) : Producer :=
  ⟨p.infos, p.mq, p.msg.isSome, p.running, p.phase⟩

/-- The end of `agcmq_producer_destroy`, after the thread has ended. -/
def destroy (p : ProducerProfile M) : ProducerProfile M :=
  { p with
    mq := agcmqRelease p.mq
    running := false
    phase := .destroyed
    sendQueue := []
    effects := p.effects ++ p.sendQueue.map (.destroyed .destroy) }

/-- `agcmq_producer_create`. -/
def create (p : ProducerProfile M) (o : CreateOutcome) : ProducerProfile M :=
  if p.infos.isEmpty then p
  else
    let (w, status) := agcmqConnectionOpen p.mq p.infos o.opening
    if status ≠ .success then destroy { p with mq := w }
    else
      let w := w.rpc .exchangeDeclare
      if agcmqParseAmqpReply o.declare ≠ 0 then destroy { p with mq := w }
      else if !o.thread then destroy { p with mq := w }
      else { p with mq := w, phase := .looping }

/-- The part of `handle_event` for one producer; it takes part from the end of its creation on. -/
def handleEvent (p : ProducerProfile M) (now : ℤ) (listed : Bool) (m : M) : ProducerProfile M :=
  if p.phase ≠ .looping ∨ p.running = false then p
  else if now < p.resetTime then p
  else if !listed then p
  else if p.sendQueue.length < MQ_EVENT_LIMIT then
    { p with sendQueue := p.sendQueue ++ [m], pushed := p.pushed ++ [m] }
  else
    { p with
      resetTime := now + (p.circuitBreakerMs * 1000 % 2 ^ 32 : ℕ)
      refused := p.refused ++ [m] }

/-- The thread takes a message if it has none and there is one. -/
def pop (p : ProducerProfile M) : ProducerProfile M :=
  match p.msg, p.sendQueue with
  | none, m :: q => { p with msg := some m, sendQueue := q }
  | _, _ => p

/-- The sending of the message in the thread's hand. -/
def send (p : ProducerProfile M) (o : RoundAnswers) : ProducerProfile M :=
  match p.msg with
  | none => p
  | some m =>
    let (w, status) := agcmqProducerSend p.mq o.publish
    if status = .success then
      { p with
        mq := w
        msg := none
        effects := p.effects ++ [.published m, .destroyed .thread m] }
    else { p with mq := w }

/-- An iteration of `agcmq_producer_thread`. -/
def round (p : ProducerProfile M) (o : RoundAnswers) : ProducerProfile M :=
  if !p.mq.active then
    let (w, status) := agcmqConnectionOpen p.mq p.infos o.opening
    -- whatever the reply to the declaration, the thread goes on with the connection
    if status = .success then { p with mq := w.rpc .exchangeDeclare }
    else ({ p with mq := w } : ProducerProfile M).pop.send o
  else p.pop.send o

/-- The end of `agcmq_producer_thread`. -/
def finish (p : ProducerProfile M) : ProducerProfile M :=
  { p with
    msg := none
    phase := .finished
    effects := p.effects ++ p.msg.toList.map (.destroyed .thread) }

/-- What an event does; one that the phase does not allow does nothing. -/
def step (p : ProducerProfile M) : ProfileEvent M → ProducerProfile M
  | .create o => if p.phase = .fresh then p.create o else p
  | .handleEvent now listed m => p.handleEvent now listed m
  | .round o =>
    if p.phase = .looping then
      if p.running then p.round o else p.finish
    else p
  | .stop => if p.phase = .fresh then p else { p with running := false }
  | .join => if p.phase = .finished ∧ p.running = false then p.destroy else p

/-- A run of a producer. -/
def run (infos : List AgcmqConnectionInfo) (circuitBreakerMs : ℕ) (evs : List (ProfileEvent M)) :
    ProducerProfile M :=
  evs.foldl step (init infos circuitBreakerMs)

/-- The message of a successful publication. -/
def publishedOf : MessageEffect M → Option M
  | .published m => some m
  | .destroyed _ _ => none

/-- The messages whose publication succeeded, in order. -/
def published (p : ProducerProfile M) : List M := p.effects.filterMap publishedOf

/-! ## The run without the messages -/

/-- The answers of an iteration together with whether there is a message to pop. -/
def erase (p : ProducerProfile M) (o : RoundAnswers) : ProducerRound :=
  ⟨o.opening, o.declare, !p.sendQueue.isEmpty, o.publish⟩

theorem toProducer_pop_send (p : ProducerProfile M) (o : RoundAnswers) :
    (p.pop.send o).toProducer = p.toProducer.serve (p.erase o) := by
  rcases p with ⟨infos, mq, _ | m, running, phase, _ | ⟨m', q⟩⟩
  -- nothing in hand and nothing to pop
  · rfl
  all_goals
    by_cases hs : (agcmqProducerSend mq o.publish).2 = .success <;>
      simp [pop, send, toProducer, Producer.serve, erase, hs]

theorem toProducer_round (p : ProducerProfile M) (o : RoundAnswers) :
    (p.round o).toProducer = p.toProducer.round (p.erase o) := by
  simp only [round, Producer.round]
  cases ha : p.mq.active with
  | true =>
    have ha' : p.toProducer.mq.active = true := ha
    simpa [ha'] using toProducer_pop_send p o
  | false =>
    have ha' : p.toProducer.mq.active = false := ha
    have hopen : agcmqConnectionOpen p.toProducer.mq p.toProducer.infos (p.erase o).opening =
        agcmqConnectionOpen p.mq p.infos o.opening := rfl
    simp only [ha', hopen, Bool.not_false, if_true]
    by_cases hs : (agcmqConnectionOpen p.mq p.infos o.opening).2 = .success
    · simp only [hs, if_true]
      rfl
    · simp only [hs, if_false]
      exact toProducer_pop_send { p with mq := (agcmqConnectionOpen p.mq p.infos o.opening).1 } o

theorem toProducer_create (p : ProducerProfile M) (o : CreateOutcome) :
    (p.create o).toProducer = p.toProducer.create o := by
  have hmq : p.toProducer.mq = p.mq := rfl
  have hinfos : p.toProducer.infos = p.infos := rfl
  simp only [create, Producer.create, hmq, hinfos]
  split_ifs <;> rfl

/-- An event without its message; a push is nothing to the connection. -/
def eraseEvent (p : ProducerProfile M) : ProfileEvent M → List ProducerEvent
  | .create o => [.create o]
  | .handleEvent _ _ _ => []
  | .round o => [.round (p.erase o)]
  | .stop => [.stop]
  | .join => [.join]

/-- A producer without messages stands where the profile does; once the thread has ended, the
message in its hand does not matter. -/
structure Erases (p : ProducerProfile M) (q : Producer) : Prop where
  infos : q.infos = p.infos
  mq : q.mq = p.mq
  running : q.running = p.running
  phase : q.phase = p.phase
  msg : p.phase ≠ .finished → p.phase ≠ .destroyed → q.msg = p.msg.isSome

theorem Erases.toProducer (p : ProducerProfile M) : p.Erases p.toProducer :=
  ⟨rfl, rfl, rfl, rfl, fun _ _ => rfl⟩

theorem Erases.eq {p : ProducerProfile M} {q : Producer} (h : p.Erases q)
    (hf : p.phase ≠ .finished) (hd : p.phase ≠ .destroyed) : q = p.toProducer := by
  obtain ⟨hinfos, hmq, hrunning, hphase, hmsg⟩ := h
  have hmsg := hmsg hf hd
  cases q
  simp_all [ProducerProfile.toProducer]

theorem Erases.step {p : ProducerProfile M} {q : Producer} (h : p.Erases q) (e : ProfileEvent M) :
    (p.step e).Erases ((p.eraseEvent e).foldl Producer.step q) := by
  cases e with
  | create o =>
    simp only [ProducerProfile.step, eraseEvent, List.foldl_cons, List.foldl_nil, Producer.step,
      h.phase]
    split
    · rename_i hfresh
      rw [h.eq (by simp [hfresh]) (by simp [hfresh]), ← toProducer_create]
      exact Erases.toProducer _
    · exact h
  | handleEvent now listed m =>
    -- a push changes neither the connection nor what is in the thread's hand
    simp only [ProducerProfile.step, handleEvent, eraseEvent, List.foldl_nil]
    split_ifs
    all_goals exact ⟨h.infos, h.mq, h.running, h.phase, h.msg⟩
  | round o =>
    simp only [ProducerProfile.step, eraseEvent, List.foldl_cons, List.foldl_nil, Producer.step,
      h.phase, h.running]
    split
    · rename_i hloop
      split
      · rw [h.eq (by simp [hloop]) (by simp [hloop]), ← toProducer_round]
        exact Erases.toProducer _
      · exact ⟨h.infos, h.mq, rfl, rfl, fun hne => absurd rfl hne⟩
    · exact h
  | stop =>
    simp only [ProducerProfile.step, eraseEvent, List.foldl_cons, List.foldl_nil, Producer.step,
      h.phase]
    split
    · exact h
    · exact ⟨h.infos, h.mq, rfl, rfl, h.msg⟩
  | join =>
    simp only [ProducerProfile.step, eraseEvent, List.foldl_cons, List.foldl_nil, Producer.step,
      h.phase, h.running]
    split
    · refine ⟨h.infos, ?_, rfl, rfl, fun _ hne => absurd rfl hne⟩
      exact congrArg agcmqRelease h.mq
    · exact h

/-- Without the messages, a run is one of `Producer`: the life cycle of the connection is that of
`Mq.life_cycle_iff`. -/
theorem toProducer_run (infos : List AgcmqConnectionInfo) (circuitBreakerMs : ℕ)
    (evs : List (ProfileEvent M)) :
    ∃ evs', (run infos circuitBreakerMs evs).Erases (Producer.run infos evs') := by
  induction evs using List.reverseRecOn with
  | nil => exact ⟨[], Erases.toProducer _⟩
  | append_singleton evs e ih =>
    obtain ⟨evs', ih⟩ := ih
    refine ⟨evs' ++ (run infos circuitBreakerMs evs).eraseEvent e, ?_⟩
    rw [run, List.foldl_concat, Producer.run, List.foldl_append]
    exact ih.step e

/-! ## The ledger of the messages -/

/-- What the thread does with messages that it publishes. -/
def sentEffects (sent : List M) : List (MessageEffect M) :=
  sent.flatMap fun m => [.published m, .destroyed .thread m]

/-- What a profile has done with its messages: those sent, those that the thread destroyed at its
end, and those that were destroyed in the queue. -/
structure Ledger (p : ProducerProfile M) (sent hand queued : List M) : Prop where
  effects : p.effects =
    sentEffects sent ++ hand.map (.destroyed .thread) ++ queued.map (.destroyed .destroy)
  pushed : sent ++ hand ++ p.msg.toList ++ queued ++ p.sendQueue = p.pushed
  single : hand.length ≤ 1
  fresh : p.phase = .fresh → p.msg = none ∧ p.sendQueue = []
  running : p.phase ≠ .finished → p.phase ≠ .destroyed → hand = [] ∧ queued = []
  finished : p.phase = .finished → queued = [] ∧ p.msg = none
  destroyed : p.phase = .destroyed → p.msg = none ∧ p.sendQueue = []

/-- The thread takes messages in the order of the queue. -/
theorem pop_spec (p : ProducerProfile M) :
    p.pop.msg.toList ++ p.pop.sendQueue = p.msg.toList ++ p.sendQueue ∧
      p.pop.effects = p.effects ∧ p.pop.pushed = p.pushed ∧ p.pop.phase = p.phase := by
  unfold pop
  split
  · rename_i m q hmsg hq
    simp [hmsg, hq]
  · exact ⟨rfl, rfl, rfl, rfl⟩

/-- A message is sent and destroyed, or stays in hand. -/
theorem send_spec (p : ProducerProfile M) (o : RoundAnswers) :
    ∃ sent, (p.send o).effects = p.effects ++ sentEffects sent ∧
      sent ++ (p.send o).msg.toList = p.msg.toList ∧ (p.send o).sendQueue = p.sendQueue ∧
      (p.send o).pushed = p.pushed ∧ (p.send o).phase = p.phase := by
  unfold send
  cases hmsg : p.msg with
  | none => exact ⟨[], by simp [sentEffects], by simp [hmsg], rfl, rfl, rfl⟩
  | some m =>
    by_cases hs : (agcmqProducerSend p.mq o.publish).2 = .success
    · exact ⟨[m], by simp [hs, sentEffects], by simp [hs], by simp [hs], by simp [hs], by simp [hs]⟩
    · exact ⟨[], by simp [hs, sentEffects], by simp [hs], by simp [hs], by simp [hs],
        by simp [hs]⟩

/-- What an iteration sends is taken from the thread's hand and the front of the queue. -/
theorem round_spec (p : ProducerProfile M) (o : RoundAnswers) :
    ∃ sent, (p.round o).effects = p.effects ++ sentEffects sent ∧
      sent ++ (p.round o).msg.toList ++ (p.round o).sendQueue = p.msg.toList ++ p.sendQueue ∧
      (p.round o).pushed = p.pushed ∧ (p.round o).phase = p.phase := by
  have hserve : ∀ p : ProducerProfile M, ∃ sent,
      (p.pop.send o).effects = p.effects ++ sentEffects sent ∧
      sent ++ (p.pop.send o).msg.toList ++ (p.pop.send o).sendQueue = p.msg.toList ++ p.sendQueue ∧
      (p.pop.send o).pushed = p.pushed ∧ (p.pop.send o).phase = p.phase := by
    intro p
    obtain ⟨hmsgs, heffects, hpushed, hphase⟩ := p.pop_spec
    obtain ⟨sent, heffects', hmsgs', hqueue', hpushed', hphase'⟩ := p.pop.send_spec o
    refine ⟨sent, ?_, ?_, hpushed'.trans hpushed, hphase'.trans hphase⟩
    · rw [heffects', heffects]
    · rw [hqueue', hmsgs', hmsgs]
  unfold round
  split
  · by_cases hs : (agcmqConnectionOpen p.mq p.infos o.opening).2 = .success
    · simp only [hs, if_true]
      exact ⟨[], by simp [sentEffects], by simp, trivial, trivial⟩
    · simp only [hs, if_false]
      exact hserve { p with mq := _ }
  · exact hserve p

theorem sentEffects_append (sent sent' : List M) :
    sentEffects (sent ++ sent') = sentEffects sent ++ sentEffects sent' := by
  simp [sentEffects]

theorem Ledger.init (infos : List AgcmqConnectionInfo) (circuitBreakerMs : ℕ) :
    (init infos circuitBreakerMs : ProducerProfile M).Ledger [] [] [] := by
  constructor <;> simp [ProducerProfile.init, sentEffects]

section Step

variable {p p' : ProducerProfile M} {sent hand queued : List M}

/-- A change of nothing that the ledger speaks about, in the same phase. -/
theorem Ledger.of_eq (h : p.Ledger sent hand queued) (heffects : p'.effects = p.effects)
    (hmsg : p'.msg = p.msg) (hqueue : p'.sendQueue = p.sendQueue) (hpushed : p'.pushed = p.pushed)
    (hphase : p'.phase = p.phase) : p'.Ledger sent hand queued := by
  constructor
  · rw [heffects, h.effects]
  · rw [hmsg, hqueue, hpushed, h.pushed]
  · exact h.single
  · rw [hphase, hmsg, hqueue]
    exact h.fresh
  · rw [hphase]
    exact h.running
  · rw [hphase, hmsg]
    exact h.finished
  · rw [hphase, hmsg, hqueue]
    exact h.destroyed

/-- A profile that is not running any more destroys what is left in the queue. -/
theorem Ledger.destroy (h : p.Ledger sent hand []) (hmsg : p.msg = none) :
    p.destroy.Ledger sent hand p.sendQueue := by
  have heffects := h.effects
  have hpushed := h.pushed
  constructor
  · simp [ProducerProfile.destroy, heffects]
  · simpa [ProducerProfile.destroy, hmsg] using hpushed
  · exact h.single
  · intro hphase
    cases hphase
  · exact fun _ hne => absurd rfl hne
  · intro hphase
    cases hphase
  · exact fun _ => ⟨hmsg, rfl⟩

theorem Ledger.create (h : p.Ledger sent [] []) (hfresh : p.phase = .fresh) (o : CreateOutcome) :
    ∃ queued, (p.create o).Ledger sent [] queued := by
  obtain ⟨hmsg, hqueue⟩ := h.fresh hfresh
  -- the profile with another connection
  have hwith : ∀ w, ({ p with mq := w } : ProducerProfile M).Ledger sent [] [] :=
    fun w => h.of_eq rfl rfl rfl rfl rfl
  simp only [ProducerProfile.create]
  split_ifs
  · exact ⟨[], h⟩
  · exact ⟨_, (hwith _).destroy hmsg⟩
  · exact ⟨_, (hwith _).destroy hmsg⟩
  · exact ⟨_, (hwith _).destroy hmsg⟩
  · refine ⟨[], h.effects, h.pushed, h.single, ?_, fun _ _ => ⟨rfl, rfl⟩, ?_, ?_⟩
    all_goals
      intro hphase
      cases hphase

theorem Ledger.handleEvent (h : p.Ledger sent hand queued) (now : ℤ) (listed : Bool) (m : M) :
    (p.handleEvent now listed m).Ledger sent hand queued := by
  simp only [ProducerProfile.handleEvent]
  split_ifs with hoff
  · exact h
  · exact h
  · exact h
  · -- the message is the last one pushed, and the last one of the queue
    have hloop : p.phase = .looping := by
      by_contra hne
      exact hoff (Or.inl hne)
    refine ⟨h.effects, ?_, h.single, ?_, h.running, ?_, ?_⟩
    · simp [← h.pushed]
    all_goals
      intro hphase
      rw [hloop] at hphase
      cases hphase
  · exact h.of_eq rfl rfl rfl rfl rfl

theorem Ledger.round (h : p.Ledger sent [] []) (hloop : p.phase = .looping) (o : RoundAnswers) :
    ∃ sent', (p.round o).Ledger (sent ++ sent') [] [] := by
  obtain ⟨sent', heffects, hmsgs, hpushed, hphase⟩ := p.round_spec o
  have hlooping : (p.round o).phase = .looping := hphase.trans hloop
  refine ⟨sent', ?_, ?_, by simp, ?_, fun _ _ => ⟨rfl, rfl⟩, ?_, ?_⟩
  · simp [heffects, h.effects, sentEffects_append]
  · have hp := h.pushed
    simp only [List.append_nil, List.append_assoc] at hp hmsgs ⊢
    rw [hmsgs, hp, hpushed]
  all_goals
    intro hphase
    rw [hlooping] at hphase
    cases hphase

theorem Ledger.finish (h : p.Ledger sent [] []) : p.finish.Ledger sent p.msg.toList [] := by
  have heffects := h.effects
  have hpushed := h.pushed
  refine ⟨?_, ?_, ?_, ?_, ?_, ?_, ?_⟩
  · simpa [ProducerProfile.finish] using heffects
  · simpa [ProducerProfile.finish] using hpushed
  · cases p.msg <;> simp
  · intro hphase
    cases hphase
  · exact fun hne => absurd rfl hne
  · exact fun _ => ⟨rfl, rfl⟩
  · intro hphase
    cases hphase

/-- Every event keeps a ledger in which what was sent only grows. -/
theorem Ledger.step (h : p.Ledger sent hand queued) (e : ProfileEvent M) :
    ∃ sent' hand' queued', (p.step e).Ledger (sent ++ sent') hand' queued' := by
  cases e with
  | create o =>
    simp only [ProducerProfile.step]
    split
    · rename_i hfresh
      obtain ⟨rfl, rfl⟩ := h.running (by simp [hfresh]) (by simp [hfresh])
      obtain ⟨queued', h'⟩ := h.create hfresh o
      exact ⟨[], [], queued', by simpa using h'⟩
    · exact ⟨[], hand, queued, by simpa using h⟩
  | handleEvent now listed m =>
    refine ⟨[], hand, queued, ?_⟩
    simpa [ProducerProfile.step] using h.handleEvent now listed m
  | round o =>
    simp only [ProducerProfile.step]
    split
    · rename_i hloop
      -- the thread publishes, or leaves the loop with the message that it holds
      obtain ⟨rfl, rfl⟩ := h.running (by simp [hloop]) (by simp [hloop])
      split
      · obtain ⟨sent', h'⟩ := h.round hloop o
        exact ⟨sent', [], [], h'⟩
      · exact ⟨[], p.msg.toList, [], by simpa using h.finish⟩
    · exact ⟨[], hand, queued, by simpa using h⟩
  | stop =>
    refine ⟨[], hand, queued, ?_⟩
    simp only [ProducerProfile.step, List.append_nil]
    split
    · exact h
    · exact h.of_eq rfl rfl rfl rfl rfl
  | join =>
    simp only [ProducerProfile.step]
    split
    · rename_i hjoin
      obtain ⟨rfl, hmsg⟩ := h.finished hjoin.1
      exact ⟨[], hand, p.sendQueue, by simpa using h.destroy hmsg⟩
    · exact ⟨[], hand, queued, by simpa using h⟩

end Step

theorem exists_ledger (infos : List AgcmqConnectionInfo) (circuitBreakerMs : ℕ)
    (evs : List (ProfileEvent M)) :
    ∃ sent hand queued, (run infos circuitBreakerMs evs).Ledger sent hand queued := by
  induction evs using List.reverseRecOn with
  | nil => exact ⟨[], [], [], Ledger.init infos circuitBreakerMs⟩
  | append_singleton evs e ih =>
    obtain ⟨sent, hand, queued, ih⟩ := ih
    obtain ⟨sent', hand', queued', h⟩ := ih.step e
    refine ⟨sent ++ sent', hand', queued', ?_⟩
    rw [run, List.foldl_concat]
    exact h

theorem Ledger.published_eq {p : ProducerProfile M} {sent hand queued : List M}
    (h : p.Ledger sent hand queued) : p.published = sent := by
  have hsent : ∀ l : List M, (sentEffects l).filterMap publishedOf = l := by
    intro l
    induction l with
    | nil => rfl
    | cons m l ih =>
      rw [← List.singleton_append, sentEffects_append, List.filterMap_append, ih]
      rfl
  have hdestroyed : ∀ (who : Destroyer) (l : List M),
      (l.map (MessageEffect.destroyed who)).filterMap publishedOf = [] := by
    intro who l
    simp [List.filterMap_map, Function.comp_def, publishedOf]
  rw [published, h.effects, List.filterMap_append, List.filterMap_append, hsent, hdestroyed,
    hdestroyed, List.append_nil, List.append_nil]

/-- A producer that is stopped ends: its thread leaves the loop and is joined. -/
theorem phase_of_stopped {p : ProducerProfile M} (hloop : p.phase = .looping) (o : RoundAnswers) :
    (((p.step .stop).step (.round o)).step .join).phase = .destroyed := by
  simp [step, hloop, finish, destroy]

/-- **Order and no loss.** At every moment of every run the messages published are an initial part
of the messages pushed. Until the thread ends, the effects on the messages are the publication of
each and then its destruction, and what is left of the messages pushed is in the thread's hand and
in the queue. A producer that is stopped while its thread runs comes to its end, and then each
message that was not published has been destroyed once: the one in the thread's hand, if any, by the
thread, and those of the queue by `agcmq_producer_destroy`. -/
theorem order_and_no_loss (infos : List AgcmqConnectionInfo) (circuitBreakerMs : ℕ)
    (evs : List (ProfileEvent M)) :
    let p := run infos circuitBreakerMs evs
    p.published <+: p.pushed ∧
    (p.phase ≠ .finished → p.phase ≠ .destroyed →
      p.effects = p.published.flatMap (fun m => [.published m, .destroyed .thread m]) ∧
      p.published ++ p.msg.toList ++ p.sendQueue = p.pushed) ∧
    (p.phase = .looping → ∀ o,
      (run infos circuitBreakerMs (evs ++ [.stop, .round o, .join])).phase = .destroyed) ∧
    (p.phase = .destroyed → ∃ hand queued, hand.length ≤ 1 ∧
      p.published ++ hand ++ queued = p.pushed ∧
      p.effects = p.published.flatMap (fun m => [.published m, .destroyed .thread m]) ++
        hand.map (.destroyed .thread) ++ queued.map (.destroyed .destroy)) := by
  intro p
  obtain ⟨sent, hand, queued, h⟩ := exists_ledger infos circuitBreakerMs evs
  obtain rfl : p.published = sent := h.published_eq
  refine ⟨?_, ?_, ?_, ?_⟩
  · rw [← h.pushed]
    simp only [List.append_assoc]
    exact List.prefix_append _ _
  · intro hf hd
    obtain ⟨rfl, rfl⟩ := h.running hf hd
    have heffects := h.effects
    simp only [List.map_nil, List.append_nil] at heffects
    exact ⟨heffects, by simpa using h.pushed⟩
  · intro hloop o
    rw [run, List.foldl_append]
    exact phase_of_stopped hloop o
  · intro hdestroyed
    obtain ⟨hmsg, hqueue⟩ := h.destroyed hdestroyed
    have hpushed := h.pushed
    rw [hmsg, hqueue] at hpushed
    exact ⟨hand, queued, h.single, by simpa using hpushed, h.effects⟩

end ProducerProfile
