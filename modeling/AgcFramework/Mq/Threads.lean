import AgcFramework.Mq.Connection

/-!
# The producer and the consumer of the message broker

Each of them owns one connection and runs a thread that reconnects when the connection is not
active. A run is a sequence of events: the creation, an iteration of the loop the thread is in, and
the two halves of the destruction (the flag is cleared, and the connection is closed after the
thread has ended).

## Main definitions

* `Producer.step`, `Consumer.step`: what an event does
* `Producer.opens`, `Consumer.opens`: the opening that an event makes

## Main results

* `Mq.life_cycle_iff`: a run meets the life cycle exactly when each of its openings is of a null
  connection and succeeds
-/

open Trace

/-- Where the thread stands. -/
inductive Phase
  | fresh
  | looping
  | consuming
  | finished
  | destroyed
  deriving DecidableEq, Repr

/-- The part of `agcmq_producer_destroy` and `agcmq_consumer_destroy` that is about the
connection. -/
def agcmqRelease (w : Mq) : Mq := if w.active then agcmqConnectionClose w else w

/-- A call whose reply is asked for. -/
def Mq.rpc (w : Mq) (f : AmqpFun) : Mq := (w.call f w.state).call .getRpcReply w.state

/-! ## The producer -/

/-- An `agcmq_producer_profile_t`; `msg` is whether the thread holds a message. -/
structure Producer where
  infos : List AgcmqConnectionInfo
  mq : Mq
  msg : Bool
  running : Bool
  phase : Phase

/-- What the library answers during `agcmq_producer_create`, and whether the thread starts. -/
structure CreateOutcome where
  opening : OpenOutcome
  declare : ReplyType
  thread : Bool

/-- What the library answers during an iteration of the producer's thread, and whether the queue
has a message. -/
structure ProducerRound where
  opening : OpenOutcome
  declare : ReplyType
  pop : Bool
  publish : ℤ

/-- `agcmq_producer_send`, on the connection. -/
def agcmqProducerSend (w : Mq) (publish : ℤ) : Mq × AgcStatus :=
  if !w.active then (w, .notInitialized)
  else
    let w := w.call .basicPublish w.state
    if publish < 0 then (agcmqConnectionClose w, .sockerr) else (w, .success)

namespace Producer

def init (infos : List AgcmqConnectionInfo) : Producer := ⟨infos, .init, false, true, .fresh⟩

/-- `agcmq_producer_destroy`, after the thread has ended. -/
def destroy (p : Producer) : Producer :=
  { p with mq := agcmqRelease p.mq, running := false, phase := .destroyed }

/-- `agcmq_producer_create`. -/
def create (p : Producer) (o : CreateOutcome) : Producer :=
  if p.infos.isEmpty then p
  else
    let (w, status) := agcmqConnectionOpen p.mq p.infos o.opening
    if status ≠ .success then destroy { p with mq := w }
    else
      let w := w.rpc .exchangeDeclare
      if agcmqParseAmqpReply o.declare ≠ 0 then destroy { p with mq := w }
      else if !o.thread then destroy { p with mq := w }
      else { p with mq := w, phase := .looping }

/-- The sending part of an iteration. -/
def serve (p : Producer) (o : ProducerRound) : Producer :=
  if !p.msg && !o.pop then p
  else
    let (w, status) := agcmqProducerSend p.mq o.publish
    if status = .success then { p with mq := w, msg := false } else { p with mq := w, msg := true }

/-- An iteration of `agcmq_producer_thread`. -/
def round (p : Producer) (o : ProducerRound) : Producer :=
  if !p.mq.active then
    let (w, status) := agcmqConnectionOpen p.mq p.infos o.opening
    -- whatever the reply to the declaration, the thread goes on with the connection
    if status = .success then { p with mq := w.rpc .exchangeDeclare }
    else serve { p with mq := w } o
  else serve p o

end Producer

/-- An event of a producer's run. -/
inductive ProducerEvent
  | create (o : CreateOutcome)
  | round (o : ProducerRound)
  | stop
  | join

namespace Producer

/-- What an event does; one that the phase does not allow does nothing. -/
def step (p : Producer) : ProducerEvent → Producer
  | .create o => if p.phase = .fresh then p.create o else p
  | .round o =>
    if p.phase = .looping then
      if p.running then p.round o else { p with phase := .finished }
    else p
  | .stop => if p.phase = .fresh then p else { p with running := false }
  | .join => if p.phase = .finished ∧ p.running = false then p.destroy else p

/-- A run of a producer. -/
def run (infos : List AgcmqConnectionInfo) (evs : List ProducerEvent) : Producer :=
  evs.foldl step (init infos)

/-- The opening that an event makes. -/
def opens (p : Producer) : ProducerEvent → Option OpenOutcome
  | .create o => if p.phase = .fresh ∧ p.infos ≠ [] then some o.opening else none
  | .round o =>
    if p.phase = .looping ∧ p.running = true ∧ p.mq.active = false then some o.opening else none
  | .stop => none
  | .join => none

end Producer

/-! ## The consumer -/

/-- An `agcmq_consumer_profile_t`. -/
structure Consumer where
  infos : List AgcmqConnectionInfo
  mq : Mq
  running : Bool
  phase : Phase

/-- The library's error codes that the consumer tells apart. -/
inductive LibraryError
  | unexpectedState
  | socketError
  | connectionClosed
  | tcpError
  | other
  deriving DecidableEq, Repr

/-- What the library answers during an iteration of one of the consumer's loops, and whether the
name of the queue can be copied. -/
structure ConsumerRound where
  opening : OpenOutcome
  declareExchange : ReplyType
  declareQueue : ReplyType
  dup : Bool
  bindQueue : ReplyType
  consume : ReplyType
  message : ReplyType
  libraryError : LibraryError

namespace Consumer

def init (infos : List AgcmqConnectionInfo) : Consumer := ⟨infos, .init, true, .fresh⟩

/-- `agcmq_consumer_destroy`, after the thread has ended. -/
def destroy (c : Consumer) : Consumer :=
  { c with mq := agcmqRelease c.mq, running := false, phase := .destroyed }

/-- `agcmq_consumer_create`. -/
def create (c : Consumer) (thread : Bool) : Consumer :=
  if c.infos.isEmpty then c
  else if !thread then c.destroy
  else { c with phase := .looping }

/-- The declarations after a successful opening. -/
def declare (c : Consumer) (o : ConsumerRound) : Consumer :=
  let w := c.mq.rpc .exchangeDeclare
  if agcmqParseAmqpReply o.declareExchange ≠ 0 then { c with mq := agcmqConnectionClose w }
  else
    let w := w.rpc .queueDeclare
    if agcmqParseAmqpReply o.declareQueue ≠ 0 then { c with mq := agcmqConnectionClose w }
    else if !o.dup then { c with mq := w, phase := .finished }
    else
      let w := w.rpc .queueBind
      if agcmqParseAmqpReply o.bindQueue ≠ 0 then { c with mq := agcmqConnectionClose w }
      else { c with mq := w }

/-- An iteration of the outer loop of `agcmq_consumer_thread`, up to its inner loop. -/
def round (c : Consumer) (o : ConsumerRound) : Consumer :=
  if !c.mq.active then
    let (w, status) := agcmqConnectionOpen c.mq c.infos o.opening
    if status ≠ .success then { c with mq := w } else declare { c with mq := w } o
  else
    let w := c.mq.rpc .basicConsume
    if agcmqParseAmqpReply o.consume ≠ 0 then { c with mq := agcmqConnectionClose w }
    else { c with mq := w, phase := .consuming }

/-- The end of the outer loop's body, after the inner loop. -/
def leave (c : Consumer) : Consumer := { c with mq := agcmqConnectionClose c.mq, phase := .looping }

/-- An iteration of the inner loop, without what the message itself brings about. -/
def consumeRound (c : Consumer) (o : ConsumerRound) : Consumer :=
  let w := (c.mq.call .maybeReleaseBuffers c.mq.state).call .consumeMessage c.mq.state
  match o.message with
  | .libraryException =>
    match o.libraryError with
    | .unexpectedState => { c with mq := w.call .simpleWaitFrame w.state }
    | .other => { c with mq := w }
    | _ => leave { c with mq := w }
  | .normal => { c with mq := w }
  | _ => leave { c with mq := w }

end Consumer

/-- An event of a consumer's run. -/
inductive ConsumerEvent
  | create (thread : Bool)
  | round (o : ConsumerRound)
  | stop
  | join

namespace Consumer

/-- What an event does; one that the phase does not allow does nothing. -/
def step (c : Consumer) : ConsumerEvent → Consumer
  | .create thread => if c.phase = .fresh then c.create thread else c
  | .round o =>
    match c.phase with
    | .looping => if c.running then c.round o else { c with phase := .finished }
    | .consuming => if c.running && c.mq.active then c.consumeRound o else c.leave
    | _ => c
  | .stop => if c.phase = .fresh then c else { c with running := false }
  | .join => if c.phase = .finished ∧ c.running = false then c.destroy else c

/-- A run of a consumer. -/
def run (infos : List AgcmqConnectionInfo) (evs : List ConsumerEvent) : Consumer :=
  evs.foldl step (init infos)

/-- The opening that an event makes. -/
def opens (c : Consumer) : ConsumerEvent → Option OpenOutcome
  | .round o =>
    if c.phase = .looping ∧ c.running = true ∧ c.mq.active = false then some o.opening else none
  | .create _ => none
  | .stop => none
  | .join => none

end Consumer

/-! ## Common steps -/

namespace Mq

variable {w : Mq} {f : AmqpFun}

@[simp] theorem rpc_active (w : Mq) (f : AmqpFun) : (w.rpc f).active = w.active := rfl

theorem Inv.rpc (h : w.Inv) (ha : w.active = true) (hf : f ≠ .destroyConnection) : (w.rpc f).Inv :=
  (h.use ha hf).use ha (by decide)

theorem Inv.release (h : w.Inv) : (agcmqRelease w).Inv := by
  unfold agcmqRelease
  split
  · rename_i ha
    exact h.close ha
  · exact h

theorem grows_rpc (w : Mq) (f : AmqpFun) : w.calls <+: (w.rpc f).calls :=
  (grows_call _ _ _).trans (grows_call _ _ _)

theorem grows_release (w : Mq) : w.calls <+: (agcmqRelease w).calls := by
  unfold agcmqRelease
  split
  · exact grows_close w
  · exact List.prefix_refl _

theorem grows_send (w : Mq) (publish : ℤ) : w.calls <+: (agcmqProducerSend w publish).1.calls := by
  simp only [agcmqProducerSend]
  split
  · exact List.prefix_refl _
  · split
    · exact (grows_call _ _ _).trans (grows_close _)
    · exact grows_call _ _ _

theorem Inv.send (h : w.Inv) (publish : ℤ) : (agcmqProducerSend w publish).1.Inv := by
  simp only [agcmqProducerSend]
  split
  · exact h
  · rename_i ha
    have ha : w.active = true := by simpa using ha
    have huse := h.use (f := .basicPublish) ha (by decide)
    split
    · exact huse.close ha
    · exact huse

/-- A thread's run meets the life cycle exactly when each of its steps is settled, if the record of
calls only grows, a settled step keeps the thread's invariant, and any other step breaks the life
cycle. -/
theorem lifeCycle_foldl {σ ι : Type} {step : σ → ι → σ} {calls : σ → List MqLabel} {I : σ → Prop}
    {Settled : σ → ι → Prop} {start : σ} (hstart : I start)
    (hlife : ∀ s, I s → LifeCycle (calls s)) (hgrows : ∀ s ev, calls s <+: calls (step s ev))
    (hstep : ∀ s ev, I s → Settled s ev → I (step s ev))
    (hbreaks : ∀ s ev, I s → ¬ Settled s ev → ¬ LifeCycle (calls (step s ev))) (evs : List ι) :
    LifeCycle (calls (evs.foldl step start)) ↔
      Throughout (fun pre ev => Settled (pre.foldl step start) ev) evs := by
  refine iff_throughout (S := fun evs => LifeCycle (calls (evs.foldl step start)))
    (I := fun evs => I (evs.foldl step start)) (hlife start hstart) hstart ?_ ?_ ?_ evs
  · intro evs ev hl
    rw [List.foldl_concat] at hl
    exact hl.of_prefix (hgrows _ ev)
  · intro evs ev hinv
    rw [List.foldl_concat]
    constructor
    · intro hl
      by_contra hset
      exact hbreaks _ ev hinv hset hl
    · exact fun hset => hlife _ (hstep _ ev hinv hset)
  · intro evs ev hinv hset
    rw [List.foldl_concat]
    exact hstep _ ev hinv hset

end Mq

/-! ## The producer's runs -/

namespace Producer

variable {p : Producer} {infos : List AgcmqConnectionInfo} {ev : ProducerEvent}

structure Inv (p : Producer) : Prop where
  mq : p.mq.Inv
  fresh : p.phase = .fresh → p.mq.active = false

/-- Each opening that the event makes is of a null connection and succeeds. -/
def Settled (p : Producer) (ev : ProducerEvent) : Prop :=
  ∀ o, p.opens ev = some o → p.mq.state = none ∧ o.Succeeds p.infos

theorem grows_serve (p : Producer) (o : ProducerRound) : p.mq.calls <+: (p.serve o).mq.calls := by
  simp only [serve]
  split
  · exact List.prefix_refl _
  · split
    · exact Mq.grows_send _ _
    · exact Mq.grows_send _ _

theorem serve_phase (p : Producer) (o : ProducerRound) : (p.serve o).phase = p.phase := by
  simp only [serve]
  split
  · rfl
  · split <;> rfl

theorem serve_inv (h : p.mq.Inv) (o : ProducerRound) : (p.serve o).mq.Inv := by
  simp only [serve]
  split
  · exact h
  · split
    · exact h.send _
    · exact h.send _

/-- The record of the creation goes on from the opening's. -/
theorem grows_create (p : Producer) (o : CreateOutcome) (hinfos : p.infos ≠ []) :
    (agcmqConnectionOpen p.mq p.infos o.opening).1.calls <+: (p.create o).mq.calls := by
  have hempty : p.infos.isEmpty = false := by simpa using hinfos
  simp only [create, hempty, Bool.false_eq_true, if_false]
  split
  · exact Mq.grows_release _
  · split
    · exact (Mq.grows_rpc _ _).trans (Mq.grows_release _)
    · split
      · exact (Mq.grows_rpc _ _).trans (Mq.grows_release _)
      · exact Mq.grows_rpc _ _

/-- The record of an iteration that reconnects goes on from the opening's. -/
theorem grows_round (p : Producer) (o : ProducerRound) (ha : p.mq.active = false) :
    (agcmqConnectionOpen p.mq p.infos o.opening).1.calls <+: (p.round o).mq.calls := by
  simp only [round, ha, Bool.not_false, if_true]
  split
  · exact Mq.grows_rpc _ _
  · exact grows_serve { p with mq := (agcmqConnectionOpen p.mq p.infos o.opening).1 } o

theorem grows_step (p : Producer) (ev : ProducerEvent) : p.mq.calls <+: (p.step ev).mq.calls := by
  cases ev with
  | create o =>
    simp only [step]
    split
    · by_cases hinfos : p.infos = []
      · simp [create, hinfos]
      · exact (Mq.grows_open _ _ _).trans (grows_create p o hinfos)
    · exact List.prefix_refl _
  | round o =>
    simp only [step]
    split
    · split
      · cases ha : p.mq.active with
        | false => exact (Mq.grows_open _ _ _).trans (grows_round p o ha)
        | true =>
          simp only [round, ha, Bool.not_true, Bool.false_eq_true, if_false]
          exact grows_serve p o
      · exact List.prefix_refl _
    · exact List.prefix_refl _
  | stop =>
    simp only [step]
    split <;> exact List.prefix_refl _
  | join =>
    simp only [step]
    split
    · exact Mq.grows_release _
    · exact List.prefix_refl _

theorem create_inv {o : CreateOutcome} (h : p.mq.Inv) (hs : p.mq.state = none)
    (ho : o.opening.Succeeds p.infos) : (p.create o).Inv := by
  obtain ⟨hstatus, hinv, ha⟩ := h.open_of_ready hs ho
  have hrpc := hinv.rpc (f := .exchangeDeclare) ha (by decide)
  have hempty : p.infos.isEmpty = false := by
    cases hinfos : p.infos with
    | nil =>
      obtain ⟨-, info, hreach, -⟩ := ho
      rw [hinfos] at hreach
      cases hreach
    | cons info infos => rfl
  simp only [create, hempty, Bool.false_eq_true, if_false, hstatus, ne_eq, not_true_eq_false]
  -- the declaration of the exchange, then the start of the thread, may fail
  split
  · exact ⟨hrpc.release, fun hf => by cases hf⟩
  · split
    · exact ⟨hrpc.release, fun hf => by cases hf⟩
    · exact ⟨hrpc, fun hf => by cases hf⟩

theorem round_inv {o : ProducerRound} (h : p.mq.Inv) (hphase : p.phase = .looping)
    (hready : p.mq.active = false → p.mq.state = none ∧ o.opening.Succeeds p.infos) :
    (p.round o).Inv := by
  cases ha : p.mq.active with
  | false =>
    obtain ⟨hs, ho⟩ := hready ha
    obtain ⟨hstatus, hinv, ha'⟩ := h.open_of_ready hs ho
    simp only [round, ha, Bool.not_false, if_true, hstatus]
    exact ⟨hinv.rpc ha' (by decide), fun hf => absurd (hphase.symm.trans hf) (by decide)⟩
  | true =>
    simp only [round, ha, Bool.not_true, Bool.false_eq_true, if_false]
    refine ⟨serve_inv h o, fun hf => ?_⟩
    rw [serve_phase, hphase] at hf
    cases hf

/-- **A step that is settled** keeps the invariant. -/
theorem Inv.step (h : p.Inv) (hset : p.Settled ev) : (p.step ev).Inv := by
  cases ev with
  | create o =>
    simp only [Producer.step]
    split
    · rename_i hphase
      by_cases hinfos : p.infos = []
      · simpa [create, hinfos] using h
      · -- only a step that opens a connection has a condition to meet
        obtain ⟨hs, ho⟩ := hset o.opening (by simp [opens, hphase, hinfos])
        exact create_inv h.mq hs ho
    · exact h
  | round o =>
    simp only [Producer.step]
    split
    · rename_i hphase
      split
      · rename_i hrun
        exact round_inv h.mq hphase fun ha => hset o.opening (by simp [opens, hphase, hrun, ha])
      · exact ⟨h.mq, fun hf => by cases hf⟩
    · exact h
  | stop =>
    simp only [Producer.step]
    split
    · exact h
    · exact ⟨h.mq, h.fresh⟩
  | join =>
    simp only [Producer.step]
    split
    · exact ⟨h.mq.release, fun hf => by cases hf⟩
    · exact h

/-- **Any other step** breaks the life cycle. -/
theorem Inv.not_lifeCycle_step (h : p.Inv) (hset : ¬ p.Settled ev) :
    ¬ LifeCycle (p.step ev).mq.calls := by
  simp only [Settled, not_forall] at hset
  obtain ⟨o, hopens, hready⟩ := hset
  cases ev with
  | create o' =>
    simp only [opens, Option.ite_none_right_eq_some, Option.some.injEq] at hopens
    obtain ⟨⟨hphase, hinfos⟩, rfl⟩ := hopens
    simp only [Producer.step, hphase, if_true]
    exact fun hlife => h.mq.open_of_not_ready (h.fresh hphase) hready
      (hlife.of_prefix (grows_create p o' hinfos))
  | round o' =>
    simp only [opens, Option.ite_none_right_eq_some, Option.some.injEq] at hopens
    obtain ⟨⟨hphase, hrun, ha⟩, rfl⟩ := hopens
    simp only [Producer.step, hphase, hrun, if_true]
    exact fun hlife => h.mq.open_of_not_ready ha hready (hlife.of_prefix (grows_round p o' ha))
  | stop => cases hopens
  | join => cases hopens

theorem life_cycle_run (infos : List AgcmqConnectionInfo) (evs : List ProducerEvent) :
    LifeCycle (run infos evs).mq.calls ↔
      Throughout (fun pre ev => (run infos pre).Settled ev) evs :=
  Mq.lifeCycle_foldl (I := Inv) ⟨Mq.inv_init, fun _ => rfl⟩ (fun _ h => h.mq.lifeCycle) grows_step
    (fun _ _ h hset => h.step hset) (fun _ _ h hset => h.not_lifeCycle_step hset) evs

end Producer

/-! ## The consumer's runs -/

namespace Consumer

variable {c : Consumer} {ev : ConsumerEvent} {o : ConsumerRound}

structure Inv (c : Consumer) : Prop where
  mq : c.mq.Inv
  consuming : c.phase = .consuming → c.mq.active = true

/-- Each opening that the event makes is of a null connection and succeeds. -/
def Settled (c : Consumer) (ev : ConsumerEvent) : Prop :=
  ∀ o, c.opens ev = some o → c.mq.state = none ∧ o.Succeeds c.infos

theorem grows_declare (c : Consumer) (o : ConsumerRound) :
    c.mq.calls <+: (c.declare o).mq.calls := by
  have hexchange := Mq.grows_rpc c.mq .exchangeDeclare
  have hqueue := hexchange.trans (Mq.grows_rpc _ .queueDeclare)
  have hbind := hqueue.trans (Mq.grows_rpc _ .queueBind)
  simp only [declare]
  split
  · exact hexchange.trans (Mq.grows_close _)
  · split
    · exact hqueue.trans (Mq.grows_close _)
    · split
      · exact hqueue
      · split
        · exact hbind.trans (Mq.grows_close _)
        · exact hbind

/-- The record of an iteration that reconnects goes on from the opening's. -/
theorem grows_reconnect (c : Consumer) (o : ConsumerRound) (ha : c.mq.active = false) :
    (agcmqConnectionOpen c.mq c.infos o.opening).1.calls <+: (c.round o).mq.calls := by
  simp only [round, ha, Bool.not_false, if_true]
  split
  · exact List.prefix_refl _
  · exact grows_declare { c with mq := (agcmqConnectionOpen c.mq c.infos o.opening).1 } o

theorem grows_round (c : Consumer) (o : ConsumerRound) : c.mq.calls <+: (c.round o).mq.calls := by
  cases ha : c.mq.active with
  | false => exact (Mq.grows_open _ _ _).trans (grows_reconnect c o ha)
  | true =>
    simp only [round, ha, Bool.not_true, Bool.false_eq_true, if_false]
    split
    · exact (Mq.grows_rpc _ _).trans (Mq.grows_close _)
    · exact Mq.grows_rpc _ _

theorem grows_consumeRound (c : Consumer) (o : ConsumerRound) :
    c.mq.calls <+: (c.consumeRound o).mq.calls := by
  have hcalls := (Mq.grows_call c.mq .maybeReleaseBuffers c.mq.state).trans
    (Mq.grows_call _ .consumeMessage c.mq.state)
  simp only [consumeRound]
  split
  · split
    · exact hcalls.trans (Mq.grows_call _ _ _)
    · exact hcalls
    · exact hcalls.trans (Mq.grows_close _)
  · exact hcalls
  · exact hcalls.trans (Mq.grows_close _)

theorem grows_step (c : Consumer) (ev : ConsumerEvent) : c.mq.calls <+: (c.step ev).mq.calls := by
  cases ev with
  | create thread =>
    simp only [step, create]
    split
    · split
      · exact List.prefix_refl _
      · split
        · exact Mq.grows_release _
        · exact List.prefix_refl _
    · exact List.prefix_refl _
  | round o =>
    simp only [step]
    split
    · split
      · exact grows_round c o
      · exact List.prefix_refl _
    · split
      · exact grows_consumeRound c o
      · exact Mq.grows_close _
    · exact List.prefix_refl _
  | stop =>
    simp only [step]
    split <;> exact List.prefix_refl _
  | join =>
    simp only [step]
    split
    · exact Mq.grows_release _
    · exact List.prefix_refl _

theorem declare_inv (h : c.mq.Inv) (ha : c.mq.active = true) (hphase : c.phase = .looping)
    (o : ConsumerRound) : (c.declare o).Inv := by
  have hexchange := h.rpc (f := .exchangeDeclare) ha (by decide)
  have hqueue := hexchange.rpc (f := .queueDeclare) ha (by decide)
  have hbind := hqueue.rpc (f := .queueBind) ha (by decide)
  simp only [declare]
  split
  · exact ⟨hexchange.close ha, fun hf => absurd (hphase.symm.trans hf) (by decide)⟩
  · split
    · exact ⟨hqueue.close ha, fun hf => absurd (hphase.symm.trans hf) (by decide)⟩
    · split
      · -- the name of the queue could not be copied: the thread ends with the connection open
        exact ⟨hqueue, fun _ => ha⟩
      · split
        · exact ⟨hbind.close ha, fun hf => absurd (hphase.symm.trans hf) (by decide)⟩
        · exact ⟨hbind, fun _ => ha⟩

theorem round_inv (h : c.mq.Inv) (hphase : c.phase = .looping)
    (hready : c.mq.active = false → c.mq.state = none ∧ o.opening.Succeeds c.infos) :
    (c.round o).Inv := by
  cases ha : c.mq.active with
  | false =>
    obtain ⟨hs, ho⟩ := hready ha
    obtain ⟨hstatus, hinv, ha'⟩ := h.open_of_ready hs ho
    simp only [round, ha, Bool.not_false, if_true, hstatus, ne_eq, not_true_eq_false, if_false]
    exact declare_inv (c := { c with mq := (agcmqConnectionOpen c.mq c.infos o.opening).1 })
      hinv ha' hphase o
  | true =>
    have hconsume := h.rpc (f := .basicConsume) ha (by decide)
    simp only [round, ha, Bool.not_true, Bool.false_eq_true, if_false]
    split
    · exact ⟨hconsume.close ha, fun hf => absurd (hphase.symm.trans hf) (by decide)⟩
    · exact ⟨hconsume, fun _ => ha⟩

theorem leave_inv (h : c.mq.Inv) (ha : c.mq.active = true) : c.leave.Inv :=
  ⟨h.close ha, fun hf => by cases hf⟩

theorem consumeRound_inv (h : c.mq.Inv) (ha : c.mq.active = true) (o : ConsumerRound) :
    (c.consumeRound o).Inv := by
  have hrelease := h.use (f := .maybeReleaseBuffers) ha (by decide)
  have hmessage := hrelease.use (f := .consumeMessage) ha (by decide)
  -- only an error that the loop takes for a lost connection closes it
  simp only [consumeRound]
  split
  · split
    · exact ⟨hmessage.use ha (by decide), fun _ => ha⟩
    · exact ⟨hmessage, fun _ => ha⟩
    · exact leave_inv hmessage ha
  · exact ⟨hmessage, fun _ => ha⟩
  · exact leave_inv hmessage ha

/-- **A step that is settled** keeps the invariant. -/
theorem Inv.step (h : c.Inv) (hset : c.Settled ev) : (c.step ev).Inv := by
  cases ev with
  | create thread =>
    simp only [Consumer.step, create]
    split
    · split
      · exact h
      · split
        · exact ⟨h.mq.release, fun hf => by cases hf⟩
        · exact ⟨h.mq, fun hf => by cases hf⟩
    · exact h
  | round o =>
    simp only [Consumer.step]
    split
    · rename_i hphase
      split
      · rename_i hrun
        exact round_inv h.mq hphase fun ha => hset o.opening (by simp [opens, hphase, hrun, ha])
      · exact ⟨h.mq, fun hf => by cases hf⟩
    · rename_i hphase
      split
      · -- the inner loop runs while the consumer does
        exact consumeRound_inv h.mq (h.consuming hphase) o
      · exact leave_inv h.mq (h.consuming hphase)
    · exact h
  | stop =>
    simp only [Consumer.step]
    split
    · exact h
    · exact ⟨h.mq, h.consuming⟩
  | join =>
    simp only [Consumer.step]
    split
    · exact ⟨h.mq.release, fun hf => by cases hf⟩
    · exact h

/-- **Any other step** breaks the life cycle. -/
theorem Inv.not_lifeCycle_step (h : c.Inv) (hset : ¬ c.Settled ev) :
    ¬ LifeCycle (c.step ev).mq.calls := by
  simp only [Settled, not_forall] at hset
  obtain ⟨o, hopens, hready⟩ := hset
  cases ev with
  | create thread => cases hopens
  | round o' =>
    simp only [opens, Option.ite_none_right_eq_some, Option.some.injEq] at hopens
    obtain ⟨⟨hphase, hrun, ha⟩, rfl⟩ := hopens
    simp only [Consumer.step, hphase, hrun, if_true]
    exact fun hlife => h.mq.open_of_not_ready ha hready (hlife.of_prefix (grows_reconnect c o' ha))
  | stop => cases hopens
  | join => cases hopens

theorem life_cycle_run (infos : List AgcmqConnectionInfo) (evs : List ConsumerEvent) :
    LifeCycle (run infos evs).mq.calls ↔
      Throughout (fun pre ev => (run infos pre).Settled ev) evs :=
  Mq.lifeCycle_foldl (I := Inv) ⟨Mq.inv_init, fun hf => by cases hf⟩
    (fun _ h => h.mq.lifeCycle) grows_step
    (fun _ _ h hset => h.step hset) (fun _ _ h hset => h.not_lifeCycle_step hset) evs

end Consumer

/-! ## Both -/

namespace Mq

/-- **The life cycle of the library's objects**: a run of the producer or of the consumer meets it
exactly when each opening in it is of a null connection and succeeds, so that none follows a
closing. -/
theorem life_cycle_iff (infos : List AgcmqConnectionInfo) :
    (∀ evs, LifeCycle (Producer.run infos evs).mq.calls ↔
      Throughout (fun pre ev => (Producer.run infos pre).Settled ev) evs) ∧
    (∀ evs, LifeCycle (Consumer.run infos evs).mq.calls ↔
      Throughout (fun pre ev => (Consumer.run infos pre).Settled ev) evs) :=
  ⟨Producer.life_cycle_run infos, Consumer.life_cycle_run infos⟩

/-- A library that always succeeds in opening. -/
def helpful : OpenOutcome := ⟨true, fun _ _ => 0, fun _ => .normal⟩

/-- A publication that fails closes the connection, and the reconnection destroys its object a
second time. -/
theorem life_cycle_reconnected :
    ¬ ∀ evs,
      LifeCycle (Producer.run [⟨"localhost", "/", "guest", "guest", 5672⟩] evs).mq.calls := by
  intro h
  have hlife := h [.create ⟨helpful, .normal, true⟩, .round ⟨helpful, .normal, true, -1⟩,
    .round ⟨helpful, .normal, false, 0⟩]
  exact absurd (hlife.once 0) (by decide)

end Mq
