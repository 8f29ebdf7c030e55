import Mathlib.Data.List.Forall2
import AgcFramework.Lib.Memory
import AgcFramework.Event.Ids
import AgcFramework.Mq.Breaker

/-!
# The messages of an event

`handle_event` of `mod_rabbitmq` makes a message of an event for each producer that wants it: the
text of the event, and a routing key that is the value of a header or is made of the host's name and
the event's. The key is copied into 255 bytes, behind which the block has the pointer to the text,
without a look at its length.

## Main definitions

* `AgcmqMessage`: a message as the block that it is
* `mqHandleEvent`: `handle_event` for the list of the producers
* `MqProducer.Tries`: a message is made for the producer
* `MqProducer.FanoutLaw`: what the event is to do to a producer

## Main results

* `newMessage_block`: the key is at the start of the block, also one that is too long
* `fanout_iff`: the law holds for all producers exactly if the key and the text fit or nobody wants
  the event
-/

open Exec

/-- `MAX_MQ_ROUTING_KEY_LENGTH`. -/
def MAX_MQ_ROUTING_KEY_LENGTH : ℕ := 255

/-- `EVENT_HEADER_ROUTING`. -/
def EVENT_HEADER_ROUTING : CStr := CStr.ofString "_routingkey"

/-- `agcmq_message_t`: the block from its start, with the key and the pointer behind it, and the
text that the pointer was set to. -/
structure AgcmqMessage where
  block : Mem
  pjson : CStr

/-- What `handle_event` reads from elsewhere. -/
structure MqEnv where
  /-- `agc_core_get_hostname`. -/
  hostname : CStr
  templates : EventTemplates
  /-- How the JSON printer prints numbers. -/
  printNumber : List Byte → List Byte
  /-- What stands in the block that `malloc` returns. -/
  fresh : Mem

/-- `make_routingkey`. -/
def makeRoutingkey (env : MqEnv) (routingKey : Mem) (keylen : ℕ) (evt : Event) : Exec Mem := do
  let len := env.hostname.bytes.length
  -- `memset` clears the array, and the `strcpy`s and the dot are written over it
  let routingKey := routingKey.write 0 (List.replicate keylen 0)
  let routingKey := routingKey.strcpy 0 env.hostname
  let routingKey := routingKey.write len [46]
  match ← agcEventGetName env.templates evt.eventId with
  | some eventname => pure (routingKey.strcpy (len + 1) eventname)
  | none => pure routingKey

/-- The message that `handle_event` makes of an event; `malloc` succeeds. -/
def newMessage (env : MqEnv) (fuel : ℕ) (event : Event) : Exec AgcmqMessage := do
  let pjson ← agcEventSerializeJson env.printNumber fuel env.templates event
  match ← agcEventGetHeader fuel event EVENT_HEADER_ROUTING with
  -- the header is copied without a look at its length
  | some routingHeader => pure ⟨env.fresh.strcpy 0 routingHeader, pjson⟩
  | none => do
    let block ← makeRoutingkey env env.fresh MAX_MQ_ROUTING_KEY_LENGTH event
    pure ⟨block, pjson⟩

/-- A producer of `agcmq_global`, with its `event_list`. -/
structure MqProducer where
  profile : ProducerProfile AgcmqMessage
  eventList : ℕ → Bool

/-- The iteration of `handle_event` for one producer. -/
def mqHandleEventFor (env : MqEnv) (fuel : ℕ) (now : ℤ) (event : Event) (producer : MqProducer) :
    Exec MqProducer :=
  if producer.profile.phase ≠ .looping ∨ producer.profile.running = false then pure producer
  else if now < producer.profile.resetTime then pure producer
  else do
    let listed ← eventListed producer.eventList event.eventId
    -- the message is made before the push, which may refuse it
    if listed then
      let msg ← newMessage env fuel event
      pure { producer with profile := producer.profile.handleEvent now true msg }
    else pure producer

/-- `handle_event`. -/
def mqHandleEvent (env : MqEnv) (fuel : ℕ) (now : ℤ) (event : Event)
    (producers : List MqProducer) : Exec (List MqProducer) :=
  producers.mapM (mqHandleEventFor env fuel now event)

/-! ## The key -/

/-- The routing key of an event, from the value of its header and its name. -/
def routingKey (hostname : CStr) (header name : Option CStr) : CStr :=
  match header with
  | some value => value
  | none =>
    { bytes := hostname.bytes ++ 46 :: (name.map CStr.bytes).getD []
      nul_notMem := by
        intro hmem
        rcases List.mem_append.mp hmem with hmem | hmem
        · exact hostname.nul_notMem hmem
        · rcases List.mem_cons.mp hmem with hmem | hmem
          · exact absurd hmem (by decide)
          · cases name with
            | none => cases hmem
            | some name => exact name.nul_notMem hmem }

/-- The block has the key at its start; a key that is shorter than its room is terminated, and
nothing is written behind the room. -/
structure HoldsKey (fresh block : Mem) (key : CStr) : Prop where
  bytes : block.bytes 0 key.bytes.length = key.bytes
  nul : key.bytes.length < MAX_MQ_ROUTING_KEY_LENGTH → block key.bytes.length = 0
  behind : key.bytes.length < MAX_MQ_ROUTING_KEY_LENGTH →
    ∀ x, MAX_MQ_ROUTING_KEY_LENGTH ≤ x → block x = fresh x

theorem holdsKey_strcpy (fresh : Mem) (key : CStr) : HoldsKey fresh (fresh.strcpy 0 key) key := by
  refine ⟨Mem.bytes_strcpy fresh 0 key, fun _ => ?_, fun hlt x hx => ?_⟩
  · have hnul := Mem.strcpy_nul fresh 0 key
    rwa [Nat.zero_add] at hnul
  · exact Mem.strcpy_of_notMem (Or.inr (by omega))

section Key

variable (fresh : Mem) (hostname : CStr)

/-- The block before the event's name is copied. -/
def hostPart : Mem :=
  ((fresh.write 0 (List.replicate MAX_MQ_ROUTING_KEY_LENGTH 0)).strcpy 0 hostname).write
    hostname.bytes.length [46]

theorem bytes_hostPart :
    (hostPart fresh hostname).bytes 0 (hostname.bytes.length + 1) = hostname.bytes ++ [46] := by
  have hhost : (hostPart fresh hostname).bytes 0 hostname.bytes.length = hostname.bytes := by
    -- the dot is behind the host name
    refine (Mem.bytes_congr fun i hi => ?_).trans (Mem.bytes_strcpy
      (fresh.write 0 (List.replicate MAX_MQ_ROUTING_KEY_LENGTH 0)) 0 hostname)
    exact Mem.write_of_notMem (Or.inl (by omega))
  have hdot : (hostPart fresh hostname).bytes hostname.bytes.length 1 = [46] :=
    Mem.bytes_write _ _ [46]
  rw [Mem.bytes_add, hhost, Nat.zero_add, hdot]

/-- Behind the dot stands what `memset` wrote, and then what stood there before. -/
theorem hostPart_of_lt {x : ℕ} (hx : hostname.bytes.length < x) :
    hostPart fresh hostname x = if x < MAX_MQ_ROUTING_KEY_LENGTH then 0 else fresh x := by
  have hdot : hostPart fresh hostname x =
      (fresh.write 0 (List.replicate MAX_MQ_ROUTING_KEY_LENGTH 0)).strcpy 0 hostname x :=
    Mem.write_of_notMem (Or.inr hx)
  rw [hdot, Mem.strcpy_of_notMem (Or.inr (by omega))]
  -- up to the end of the array these are the zeros, behind it the bytes of the block
  split_ifs with hlt
  · have hroom : x < (List.replicate MAX_MQ_ROUTING_KEY_LENGTH (0 : Byte)).length := by
      simpa using hlt
    have hset := Mem.write_add fresh 0 hroom
    rw [Nat.zero_add] at hset
    rw [hset, List.getElem_replicate]
  · exact Mem.write_of_notMem (Or.inr (by simpa using hlt))

theorem holdsKey_hostPart :
    HoldsKey fresh (hostPart fresh hostname) (routingKey hostname none none) := by
  have hlength : (routingKey hostname none none).bytes.length = hostname.bytes.length + 1 := by
    simp [routingKey]
  refine ⟨?_, fun hlt => ?_, fun hlt x hx => ?_⟩
  · rw [hlength, bytes_hostPart]
    rfl
  · rw [hlength] at hlt ⊢
    rw [hostPart_of_lt fresh hostname (by omega), if_pos hlt]
  · rw [hlength] at hlt
    rw [hostPart_of_lt fresh hostname (by omega), if_neg (by omega)]

theorem holdsKey_named (name : CStr) :
    HoldsKey fresh ((hostPart fresh hostname).strcpy (hostname.bytes.length + 1) name)
      (routingKey hostname none (some name)) := by
  have hlength : (routingKey hostname none (some name)).bytes.length =
      hostname.bytes.length + 1 + name.bytes.length := by
    simp [routingKey]
    omega
  refine ⟨?_, fun hlt => ?_, fun hlt x hx => ?_⟩
  · rw [hlength, Mem.bytes_add, Nat.zero_add, Mem.bytes_strcpy]
    have hhost : ((hostPart fresh hostname).strcpy (hostname.bytes.length + 1) name).bytes 0
        (hostname.bytes.length + 1) = hostname.bytes ++ [46] := by
      rw [← bytes_hostPart fresh hostname]
      exact Mem.bytes_congr fun i hi => Mem.strcpy_of_notMem (Or.inl (by omega))
    rw [hhost, List.append_assoc]
    rfl
  · rw [hlength]
    exact Mem.strcpy_nul _ _ _
  · rw [hlength] at hlt
    rw [Mem.strcpy_of_notMem (Or.inr (by omega)), hostPart_of_lt fresh hostname (by omega),
      if_neg (by omega)]

end Key

/-- The message that is made of an event: its text, and the key at the start of the block. -/
theorem newMessage_block {env : MqEnv} {event : Event} {pairs : List (CStr × CStr)} {pjson : CStr}
    (hevent : event.Represents pairs) (h0 : 0 < event.eventId)
    (hid : event.eventId < EVENT_ID_LIMIT)
    (hjson : Returns (fun fuel => agcEventSerializeJson env.printNumber fuel env.templates event)
      pjson) :
    ∃ block, Returns (fun fuel => newMessage env fuel event) ⟨block, pjson⟩ ∧
      HoldsKey env.fresh block (routingKey env.hostname
        ((pairs.find? fun p => decide (p.1.SameName EVENT_HEADER_ROUTING)).map Prod.snd)
        (env.templates event.eventId.toNat)) := by
  have hheader := hevent.getHeader EVENT_HEADER_ROUTING
  cases hvalue : (pairs.find? fun p => decide (p.1.SameName EVENT_HEADER_ROUTING)).map Prod.snd with
  | some value =>
    rw [hvalue] at hheader
    exact ⟨_, hjson.bind (hheader.bind (Returns.const _)), holdsKey_strcpy env.fresh value⟩
  -- without the header the key is the host name, a dot and the name of the event
  | none =>
    rw [hvalue] at hheader
    have hname : agcEventGetName env.templates event.eventId =
        .ok (env.templates event.eventId.toNat) := by
      have hvalid : eventIdIsInvalid event.eventId = false := by
        simp [eventIdIsInvalid, EVENT_ID_ALL, h0.ne', hid]
      rw [agcEventGetName, hvalid]
      simp [eventTemplate, h0.le, hid]
    cases hn : env.templates event.eventId.toNat with
    | none =>
      refine ⟨_, hjson.bind (hheader.bind ((Returns.const _).congr fun k => ?_)),
        holdsKey_hostPart env.fresh env.hostname⟩
      simp only [makeRoutingkey, hname, hn, ok_bind, pure_eq_ok]
      rfl
    | some name =>
      refine ⟨_, hjson.bind (hheader.bind ((Returns.const _).congr fun k => ?_)),
        holdsKey_named env.fresh env.hostname name⟩
      simp only [makeRoutingkey, hname, hn, ok_bind, pure_eq_ok]
      rfl

/-! ## The fan-out -/

namespace MqProducer

variable {p p' : MqProducer} {now id : ℤ} {msg : AgcmqMessage}

/-- A message is made for the producer: it runs, it is not in its reset wait, and it wants the
event. -/
structure Tries (p : MqProducer) (now id : ℤ) : Prop extends p.profile.Open now where
  listed : p.eventList id.toNat = true

/-- A message that carries a text and a key within its room. -/
structure Carries (fresh : Mem) (msg : AgcmqMessage) (IsText : CStr → Prop) (key : CStr) :
    Prop where
  pjson : IsText msg.pjson
  key : msg.block.str 0 MAX_MQ_ROUTING_KEY_LENGTH = .ok key
  behind : ∀ x, MAX_MQ_ROUTING_KEY_LENGTH ≤ x → msg.block x = fresh x

/-- What an event is to do to a producer. -/
structure FanoutLaw (fresh : Mem) (now id : ℤ) (IsText : CStr → Prop) (key : CStr)
    (p p' : MqProducer) : Prop where
  /-- A producer that tries and has room gets one message, if the key fits. -/
  enqueues : p.Tries now id → p.profile.sendQueue.length < MQ_EVENT_LIMIT →
    key.bytes.length < MAX_MQ_ROUTING_KEY_LENGTH →
    ∃ msg, p'.profile.sendQueue = p.profile.sendQueue ++ [msg] ∧ Carries fresh msg IsText key
  /-- The others get none. -/
  skips : ¬ (p.Tries now id ∧ p.profile.sendQueue.length < MQ_EVENT_LIMIT ∧
    key.bytes.length < MAX_MQ_ROUTING_KEY_LENGTH) → p'.profile.sendQueue = p.profile.sendQueue
  /-- A message that is made, also one that the queue refuses, has a key that ends within its room
  and nothing written behind it. -/
  within : ∀ msg, p'.profile.pushed = p.profile.pushed ++ [msg] ∨
      p'.profile.refused = p.profile.refused ++ [msg] →
    (∃ k < MAX_MQ_ROUTING_KEY_LENGTH, msg.block k = 0) ∧
      ∀ x, MAX_MQ_ROUTING_KEY_LENGTH ≤ x → msg.block x = fresh x

/-- A producer behind the event, for the message that is made of it. -/
def afterEvent (now id : ℤ) (msg : AgcmqMessage) (p : MqProducer) : MqProducer :=
  { p with profile := p.profile.handleEvent now (p.eventList id.toNat) msg }

theorem afterEvent_of_not_tries (h : ¬ p.Tries now id) : p.afterEvent now id msg = p := by
  have hsame : p.profile.handleEvent now (p.eventList id.toNat) msg = p.profile := by
    simp only [ProducerProfile.handleEvent]
    split_ifs with hoff hwait hlisted
    · rfl
    · rfl
    · rfl
    -- the branches that push are taken only by a producer that tries
    all_goals
      exfalso
      push Not at hoff
      exact h ⟨⟨hoff.1, by simpa using hoff.2, by omega⟩, by simpa using hlisted⟩
  rw [afterEvent, hsame]

theorem Tries.afterEvent_of_room (h : p.Tries now id) (msg : AgcmqMessage)
    (hroom : p.profile.sendQueue.length < MQ_EVENT_LIMIT) :
    (p.afterEvent now id msg).profile =
      { p.profile with
        sendQueue := p.profile.sendQueue ++ [msg]
        pushed := p.profile.pushed ++ [msg] } := by
  rw [afterEvent, h.listed]
  exact ProducerProfile.handleEvent_of_room h.toOpen hroom

theorem Tries.afterEvent_of_full (h : p.Tries now id) (msg : AgcmqMessage)
    (hfull : ¬ p.profile.sendQueue.length < MQ_EVENT_LIMIT) :
    (p.afterEvent now id msg).profile =
      { p.profile with
        resetTime := now + (p.profile.circuitBreakerMs * 1000 % 2 ^ 32 : ℕ)
        refused := p.profile.refused ++ [msg] } := by
  rw [afterEvent, h.listed]
  exact ProducerProfile.handleEvent_of_refuses ⟨h.toOpen, Nat.not_lt.mp hfull⟩

section Law

variable {fresh : Mem} {key : CStr} {IsText : CStr → Prop}

/-- A producer for which no message is made is as it was. -/
theorem fanoutLaw_of_not_tries (h : ¬ p.Tries now id) :
    FanoutLaw fresh now id IsText key p p := by
  refine ⟨fun htries => absurd htries h, fun _ => rfl, ?_⟩
  rintro msg (hmsg | hmsg)
  · simp at hmsg
  · simp at hmsg

/-- A message whose key fits carries it. -/
theorem carries_of_holdsKey (h : HoldsKey fresh msg.block key) (htext : IsText msg.pjson)
    (hfits : key.bytes.length < MAX_MQ_ROUTING_KEY_LENGTH) : Carries fresh msg IsText key := by
  have hbytes : msg.block.bytes 0 key.bytes.length = key.bytes := h.bytes
  refine ⟨htext, (Mem.str_eq_iff hbytes (by omega)).mpr ?_, h.behind hfits⟩
  rw [Nat.zero_add]
  exact h.nul hfits

/-- The law, for a key that fits. -/
theorem fanoutLaw_of_fits (h : HoldsKey fresh msg.block key) (htext : IsText msg.pjson)
    (hfits : key.bytes.length < MAX_MQ_ROUTING_KEY_LENGTH) (p : MqProducer) :
    FanoutLaw fresh now id IsText key p (p.afterEvent now id msg) := by
  by_cases htries : p.Tries now id
  · -- the message that was made is the only new one
    have hwithin : ∀ msg', msg' = msg → (∃ k < MAX_MQ_ROUTING_KEY_LENGTH, msg'.block k = 0) ∧
        ∀ x, MAX_MQ_ROUTING_KEY_LENGTH ≤ x → msg'.block x = fresh x := by
      rintro msg' rfl
      exact ⟨⟨_, hfits, h.nul hfits⟩, h.behind hfits⟩
    by_cases hroom : p.profile.sendQueue.length < MQ_EVENT_LIMIT
    · have hafter := htries.afterEvent_of_room msg hroom
      refine ⟨fun _ _ _ => ⟨msg, by rw [hafter], carries_of_holdsKey h htext hfits⟩,
        fun hnot => absurd ⟨htries, hroom, hfits⟩ hnot, fun msg' hmsg' => ?_⟩
      rw [hafter] at hmsg'
      rcases hmsg' with hmsg' | hmsg'
      · exact hwithin msg' (by simpa using hmsg'.symm)
      · simp at hmsg'
    · have hafter := htries.afterEvent_of_full msg hroom
      refine ⟨fun _ hroom' => absurd hroom' hroom, fun _ => by rw [hafter], fun msg' hmsg' => ?_⟩
      rw [hafter] at hmsg'
      rcases hmsg' with hmsg' | hmsg'
      · simp at hmsg'
      · exact hwithin msg' (by simpa using hmsg'.symm)
  · rw [afterEvent_of_not_tries htries]
    exact fanoutLaw_of_not_tries htries

/-- A key that is too long fills its room without an end. -/
theorem not_fanoutLaw_of_long (h : HoldsKey fresh msg.block key)
    (hlong : MAX_MQ_ROUTING_KEY_LENGTH ≤ key.bytes.length) (htries : p.Tries now id) :
    ¬ FanoutLaw fresh now id IsText key p (p.afterEvent now id msg) := by
  intro hlaw
  have hmade : (p.afterEvent now id msg).profile.pushed = p.profile.pushed ++ [msg] ∨
      (p.afterEvent now id msg).profile.refused = p.profile.refused ++ [msg] := by
    by_cases hroom : p.profile.sendQueue.length < MQ_EVENT_LIMIT
    · exact Or.inl (by rw [htries.afterEvent_of_room msg hroom])
    · exact Or.inr (by rw [htries.afterEvent_of_full msg hroom])
  obtain ⟨⟨k, hk, hnul⟩, -⟩ := hlaw.within msg hmade
  -- the byte is one of the key
  have hmem : msg.block k ∈ key.bytes := by
    rw [← h.bytes]
    exact List.mem_map.mpr ⟨k, List.mem_range.mpr (by omega), by rw [Nat.zero_add]⟩
  rw [hnul] at hmem
  exact key.nul_notMem hmem

end Law

end MqProducer

section Fanout

variable {env : MqEnv} {event : Event} {pairs : List (CStr × CStr)} {pjson : CStr} {now : ℤ}

theorem eventListed_eq (h0 : 0 < event.eventId) (hid : event.eventId < EVENT_ID_LIMIT)
    (eventList : ℕ → Bool) :
    eventListed eventList event.eventId = .ok (eventList event.eventId.toNat) := by
  simp [eventListed, eventIndex, h0.le, hid]

theorem mqHandleEventFor_of_tries {p : MqProducer} {fuel : ℕ} (h : p.Tries now event.eventId)
    (h0 : 0 < event.eventId) (hid : event.eventId < EVENT_ID_LIMIT) :
    mqHandleEventFor env fuel now event p = newMessage env fuel event >>= fun msg =>
      pure (p.afterEvent now event.eventId msg) := by
  have hon : ¬ (p.profile.phase ≠ .looping ∨ p.profile.running = false) := by
    simp [h.looping, h.running]
  have hwaited : ¬ now < p.profile.resetTime := not_lt.mpr h.waited
  simp only [mqHandleEventFor, if_neg hon, if_neg hwaited, eventListed_eq h0 hid, ok_bind,
    h.listed, if_true, MqProducer.afterEvent]

theorem mqHandleEventFor_of_not_tries {p : MqProducer} {fuel : ℕ}
    (h : ¬ p.Tries now event.eventId) (h0 : 0 < event.eventId)
    (hid : event.eventId < EVENT_ID_LIMIT) : mqHandleEventFor env fuel now event p = .ok p := by
  simp only [mqHandleEventFor]
  split_ifs with hoff hwait
  · rfl
  · rfl
  · rw [eventListed_eq h0 hid, ok_bind, if_neg]
    · rfl
    · intro hin
      push Not at hoff
      exact h ⟨⟨hoff.1, by simpa using hoff.2, not_lt.mp hwait⟩, hin⟩

/-- What `handle_event` returns, for the message that is made of the event. -/
theorem mqHandleEvent_returns {msg : AgcmqMessage} (now : ℤ) (h0 : 0 < event.eventId)
    (hid : event.eventId < EVENT_ID_LIMIT)
    (hmsg : Returns (fun fuel => newMessage env fuel event) msg) (producers : List MqProducer) :
    Returns (fun fuel => mqHandleEvent env fuel now event producers)
      (producers.map (MqProducer.afterEvent now event.eventId msg)) := by
  -- the list is served producer by producer, and none sees another
  refine Returns.mapM producers fun p _ => ?_
  by_cases htries : p.Tries now event.eventId
  · have hpush : Returns (fun fuel => newMessage env fuel event >>= fun msg =>
        pure (p.afterEvent now event.eventId msg)) (p.afterEvent now event.eventId msg) :=
      hmsg.bind (Returns.const _)
    exact hpush.congr fun k => mqHandleEventFor_of_tries htries h0 hid
  · rw [MqProducer.afterEvent_of_not_tries htries]
    exact (Returns.const p).congr fun k => mqHandleEventFor_of_not_tries htries h0 hid

variable (env event pairs) in
/-- The key of the event's message. -/
def eventKey : CStr :=
  routingKey env.hostname
    ((pairs.find? fun p => decide (p.1.SameName EVENT_HEADER_ROUTING)).map Prod.snd)
    (env.templates event.eventId.toNat)

variable (env event pairs now) in
/-- `handle_event` returns and has done to each producer what it is to do. -/
def FansOut (producers : List MqProducer) : Prop :=
  ∃ producers', Returns (fun fuel => mqHandleEvent env fuel now event producers) producers' ∧
    List.Forall₂ (MqProducer.FanoutLaw env.fresh now event.eventId
      (Returns fun fuel => agcEventSerializeJson env.printNumber fuel env.templates event)
      (eventKey env event pairs)) producers producers'

/-- A producer that tries has the event written. -/
theorem FansOut.fits {producers : List MqProducer} {p : MqProducer}
    (h : FansOut env event pairs now producers) (hevent : event.Represents pairs)
    (h0 : 0 < event.eventId) (hid : event.eventId < EVENT_ID_LIMIT) (hp : p ∈ producers)
    (htries : p.Tries now event.eventId) : Event.Fits env.templates event pairs := by
  obtain ⟨producers', ⟨n, hn⟩, -⟩ := h
  refine Event.fits_of_serializes env.printNumber hevent h0.le hid n fun k hk => ?_
  -- the iteration of this producer has returned, and with it the printer
  obtain ⟨p', hp'⟩ := mapM_eq_ok_mem (hn k hk) hp
  rw [mqHandleEventFor_of_tries htries h0 hid] at hp'
  obtain ⟨msg, hmsg, -⟩ := bind_eq_ok.mp hp'
  obtain ⟨pjson, hpjson, -⟩ := bind_eq_ok.mp hmsg
  exact ⟨pjson, hpjson⟩

/-- A key that does not fit is not kept out of a message. -/
theorem FansOut.key_lt {producers : List MqProducer} {p : MqProducer}
    (h : FansOut env event pairs now producers) (hevent : event.Represents pairs)
    (h0 : 0 < event.eventId) (hid : event.eventId < EVENT_ID_LIMIT) (hp : p ∈ producers)
    (htries : p.Tries now event.eventId) :
    (eventKey env event pairs).bytes.length < MAX_MQ_ROUTING_KEY_LENGTH := by
  obtain ⟨pjson, hjson⟩ := (Event.serializes_iff hevent h0.le hid).mpr
    (h.fits hevent h0 hid hp htries)
  obtain ⟨block, hmsg, hkey⟩ := newMessage_block hevent h0 hid hjson
  obtain ⟨producers', hreturns', hlaw⟩ := h
  -- there is only one outcome, in which the message was made
  obtain rfl := hreturns'.unique (mqHandleEvent_returns now h0 hid hmsg producers)
  rw [List.forall₂_map_right_iff, List.forall₂_same] at hlaw
  by_contra hlong
  exact MqProducer.not_fanoutLaw_of_long hkey (not_lt.mp hlong) htries (hlaw p hp)

/-- What the producers are behind an event that nobody wants. -/
theorem mqHandleEvent_of_no_tries {producers : List MqProducer} (h0 : 0 < event.eventId)
    (hid : event.eventId < EVENT_ID_LIMIT)
    (hnone : ∀ p ∈ producers, ¬ p.Tries now event.eventId) :
    Returns (fun fuel => mqHandleEvent env fuel now event producers) producers := by
  have hmap := Returns.mapM (f := fun fuel => mqHandleEventFor env fuel now event) (g := id)
    producers fun p hp =>
      (Returns.const p).congr fun k => mqHandleEventFor_of_not_tries (hnone p hp) h0 hid
  rwa [List.map_id] at hmap

/-- **The fan-out of an event.** Each producer that runs, is not in its reset wait, wants the event
and has room gets one message with the text of the event and its key, and no other producer gets
one, whatever the other producers do; and no key goes beyond its room: if and only if no producer
has a message made for it, or the key is shorter than its room and the printer can write the
event. -/
theorem fanout_iff (hevent : event.Represents pairs) (h0 : 0 < event.eventId)
    (hid : event.eventId < EVENT_ID_LIMIT) (producers : List MqProducer) :
    FansOut env event pairs now producers ↔
      ((eventKey env event pairs).bytes.length < MAX_MQ_ROUTING_KEY_LENGTH ∧
        Event.Fits env.templates event pairs) ∨
        ∀ p ∈ producers, ¬ p.Tries now event.eventId := by
  constructor
  · intro h
    by_cases htries : ∃ p ∈ producers, p.Tries now event.eventId
    · obtain ⟨p, hp, htries⟩ := htries
      exact Or.inl ⟨h.key_lt hevent h0 hid hp htries, h.fits hevent h0 hid hp htries⟩
    · push Not at htries
      exact Or.inr htries
  · rintro (⟨hshort, hfits⟩ | hnone)
    · obtain ⟨pjson, hjson⟩ := (Event.serializes_iff hevent h0.le hid).mpr hfits
      obtain ⟨block, hmsg, hkey⟩ := newMessage_block hevent h0 hid hjson
      refine ⟨_, mqHandleEvent_returns now h0 hid hmsg producers, ?_⟩
      rw [List.forall₂_map_right_iff, List.forall₂_same]
      exact fun p _ => MqProducer.fanoutLaw_of_fits hkey hjson hshort p
    · refine ⟨producers, mqHandleEvent_of_no_tries h0 hid hnone, ?_⟩
      rw [List.forall₂_same]
      exact fun p hp => MqProducer.fanoutLaw_of_not_tries (hnone p hp)

end Fanout

/-! ### An event with a routing key -/

section Example

/-- A host, where every event has a name and memory is not cleared. -/
def someEnv : MqEnv := ⟨CStr.ofString "host", fun _ => some (CStr.ofString "X"), id, fun _ => 1⟩

/-- A producer that was created and wants every event. -/
def wantsAll : MqProducer where
  profile := ProducerProfile.run [ProducerProfile.someHost] 1000
    [ProducerProfile.created AgcmqMessage]
  eventList _ := true

theorem tries_wantsAll : wantsAll.Tries 0 7 := ⟨⟨rfl, rfl, le_refl 0⟩, rfl⟩

/-- An event whose routing key is a number of letters. -/
def keyed (n : ℕ) : Event :=
  Event.single EVENT_HEADER_ROUTING (CStr.replicate n 97 (by decide)) none

/-- The headers of such an event. -/
def keyedPairs (n : ℕ) : List (CStr × CStr) :=
  [(EVENT_HEADER_ROUTING, CStr.replicate n 97 (by decide))]

theorem keyed_represents (n : ℕ) : (keyed n).Represents (keyedPairs n) :=
  Event.represents_single _ _ none

theorem eventKey_keyed (n : ℕ) :
    (eventKey someEnv (keyed n) (keyedPairs n)).bytes.length = n := by
  have hsame : EVENT_HEADER_ROUTING.SameName EVENT_HEADER_ROUTING := rfl
  simp [eventKey, keyedPairs, routingKey, hsame, CStr.replicate]

theorem keyed_fits {n : ℕ} (hn : n ≤ 1000) :
    Event.Fits someEnv.templates (keyed n) (keyedPairs n) := by
  have hmax : INT_MAX = 2147483647 := by decide
  have hvalue := Event.printedLength_replicate n
  have hname : Event.printedLength EVENT_HEADER_ROUTING ≤ INT_MAX := by decide
  refine ⟨?_, ?_⟩
  · change 3 ≤ INT_MAX
    omega
  intro p hp
  rcases List.mem_cons.mp hp with rfl | hp
  · refine ⟨hname, ?_⟩
    rw [hvalue]
    omega
  · -- the other texts do not depend on the key
    have hall : ∀ p ∈
        [(CStr.ofString "_id", intText 7), (CStr.ofString "_name", CStr.ofString "X")],
        Event.printedLength p.1 ≤ INT_MAX ∧ Event.printedLength p.2 ≤ INT_MAX := by
      decide
    exact hall p hp

/-- A key of 20 letters. -/
theorem fanout_short_key : FansOut someEnv (keyed 20) (keyedPairs 20) 0 [wantsAll] := by
  have hshort : (eventKey someEnv (keyed 20) (keyedPairs 20)).bytes.length <
      MAX_MQ_ROUTING_KEY_LENGTH := by
    rw [eventKey_keyed]
    decide
  exact (fanout_iff (keyed_represents 20) (by decide) (by decide) [wantsAll]).mpr
    (Or.inl ⟨hshort, keyed_fits (by decide)⟩)

/-- A key of 300 letters is written over the pointer to the text and beyond. -/
theorem fanout_long_key : ¬ FansOut someEnv (keyed 300) (keyedPairs 300) 0 [wantsAll] := by
  intro h
  have hshort := h.key_lt (keyed_represents 300) (by decide) (by decide) List.mem_cons_self
    tries_wantsAll
  rw [eventKey_keyed] at hshort
  exact absurd hshort (by decide)

end Example
