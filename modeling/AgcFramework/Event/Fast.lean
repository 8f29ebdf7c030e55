import AgcFramework.Event.Dispatch
import AgcFramework.Lib.Places

/-!
# The pools of fast events

The events of a fast type are created once and then go from their free queue to a caller, through a
dispatch queue to a thread, and back into the free queue. `agc_event_fire` of a stopped system
hands every event to `agc_event_destroy`, also one that belongs to a pool.

The system is a step function on the free queues, the callers, the dispatch queues and the threads.
A call of `agc_event_fire` takes two steps, the test of `SYSTEM_RUNNING` and the push, which blocks
while the queue is full; a thread tests `SYSTEM_RUNNING` before each attempt to take an event. A run
is any interleaving of these steps.

## Main definitions

* `FastState D`: the state, with a record of what was destroyed and of failed pushes
* `fastStep`: the steps of callers and threads
* `FastState.Conserved`: each pooled event is in exactly one place, and none was destroyed

## Main results

* `FastState.Typed.step`: what every step keeps
* `FastState.Conserved.step_iff`: which steps keep the pools
* `FastState.pool_conserved_iff`: the runs that conserve the pools
-/

open Trace Places

/-- `EVENT_FAST_TYPE_CallBack`. -/
def EVENT_FAST_TYPE_CallBack : ℕ := 0

/-- `EVENT_FAST_TYPE_Invalid`, the number of the types. -/
def EVENT_FAST_TYPE_Invalid : ℕ := 27

/-- An event, with the type of its pool if it has one. -/
structure FastEvent where
  id : ℕ
  fast : Option ℕ
  deriving DecidableEq

/-- Where a dispatch thread is: before the test of `SYSTEM_RUNNING`, before `agc_queue_trypop`, in
`agc_event_deliver`, or at its end. -/
inductive ThreadPhase
  | top
  | popping
  | delivering (e : FastEvent)
  | ended

/-- The state of the pools and of the dispatch. -/
structure FastState (D : ℕ) where
  /-- `SYSTEM_RUNNING`. -/
  running : Bool
  /-- `FAST_EVENT_QUEUES`: a null pointer, or the free events of the type. -/
  free : ℕ → Option (List FastEvent)
  /-- The capacities of these queues. -/
  capacity : ℕ → ℕ
  /-- The events that each caller holds. -/
  held : ℕ → List FastEvent
  /-- The events that each caller is about to push. -/
  firing : ℕ → List FastEvent
  queues : Fin D → List FastEvent
  threads : Fin D → ThreadPhase
  /-- The next new event. -/
  next : ℕ
  /-- Ghost state: the events that the pools were made of. -/
  pooled : ℕ → List FastEvent
  /-- Ghost state: the events passed to `agc_event_destroy`. -/
  destroyed : List FastEvent
  /-- Ghost state: the events whose push into the free queue failed. -/
  refused : List FastEvent

/-- The state after the queues and threads are created. -/
def fastInit (D : ℕ) : FastState D where
  running := true
  free _ := none
  capacity _ := 0
  held _ := []
  firing _ := []
  queues _ := []
  threads _ := .top
  next := 0
  pooled _ := []
  destroyed := []
  refused := []

section Steps

variable {D : ℕ} [NeZero D]

/-- The events that `agc_event_fast_initial` creates. -/
def newEvents (next type capacity : ℕ) : List FastEvent :=
  (List.range capacity).map fun i => ⟨next + i, some type⟩

/-- `agc_event_fast_initial`. -/
def agcEventFastInitial (s : FastState D) (type capacity : ℕ) : FastState D :=
  if EVENT_FAST_TYPE_Invalid ≤ type then s
  else match s.free type with
    | some _ => s
    | none => { s with
        free := Function.update s.free type (some (newEvents s.next type capacity))
        capacity := Function.update s.capacity type (capacity + 10)
        next := s.next + capacity
        pooled := Function.update s.pooled type (newEvents s.next type capacity) }

/-- `agc_event_fast_alloc` by a caller, who holds the event if there is one. -/
def agcEventFastAlloc (s : FastState D) (caller type : ℕ) : FastState D :=
  if EVENT_FAST_TYPE_Invalid ≤ type then s
  else match s.free type with
    | some (e :: rest) => { s with
        free := Function.update s.free type (some rest)
        held := Function.update s.held caller (s.held caller ++ [e]) }
    | _ => s

/-- `agc_event_fast_create_callback`, of which the callback itself does not matter here. -/
def agcEventFastCreateCallback (s : FastState D) (caller : ℕ) : FastState D :=
  agcEventFastAlloc s caller EVENT_FAST_TYPE_CallBack

/-- `agc_event_create` by a caller. -/
def createHeap (s : FastState D) (caller : ℕ) : FastState D :=
  { s with
    held := Function.update s.held caller (s.held caller ++ [⟨s.next, none⟩])
    next := s.next + 1 }

/-- `agc_event_fast_release` of an event that the caller has taken out of its place; the result of
`agc_queue_trypush` is not looked at. An event without a pool is left alone. -/
def agcEventFastRelease (s : FastState D) (e : FastEvent) : FastState D :=
  match e.fast with
  | none => s
  | some type =>
    if ((s.free type).getD []).length < s.capacity type then
      { s with free := Function.update s.free type (some ((s.free type).getD [] ++ [e])) }
    else { s with refused := s.refused ++ [e] }

/-- `agc_event_destroy`. -/
def destroyEvent (s : FastState D) (e : FastEvent) : FastState D :=
  { s with destroyed := s.destroyed ++ [e] }

/-- The end of `agc_event_deliver`. -/
def giveBackEvent (s : FastState D) (e : FastEvent) : FastState D :=
  match e.fast with
  | some _ => agcEventFastRelease s e
  | none => destroyEvent s e

/-- The test of `agc_event_fire`: a stopped system destroys the event. -/
def fireTest (s : FastState D) (caller : ℕ) (e : FastEvent) : Option (FastState D) :=
  if e ∈ s.held caller then
    let s' := { s with held := Function.update s.held caller ((s.held caller).erase e) }
    if s.running then
      some { s' with firing := Function.update s.firing caller (s.firing caller ++ [e]) }
    -- without a look at `fast`, unlike `agc_event_deliver`
    else some (destroyEvent s' e)
  else none

/-- The push of `agc_event_fire`; `source` is the event's source, `r` what `agc_random` returns. -/
def firePush (s : FastState D) (caller : ℕ) (e : FastEvent) (source : UInt32) (r : Fin D) :
    Option (FastState D) :=
  let i := queueIndex ⟨e.id, source⟩ r
  if e ∈ s.firing caller ∧ (s.queues i).length < dispatchQueueLimit then
    some { s with
      firing := Function.update s.firing caller ((s.firing caller).erase e)
      queues := Function.update s.queues i (s.queues i ++ [e]) }
  else none

/-- The thread `i` tests `SYSTEM_RUNNING`. -/
def threadTest (s : FastState D) (i : Fin D) : Option (FastState D) :=
  match s.threads i with
  | .top => some { s with
      threads := Function.update s.threads i (if s.running then .popping else .ended) }
  | _ => none

/-- The thread `i` tries to take an event out of its queue. -/
def threadPop (s : FastState D) (i : Fin D) : Option (FastState D) :=
  match s.threads i with
  | .popping =>
    match s.queues i with
    | [] => some { s with threads := Function.update s.threads i .top }
    | e :: rest => some { s with
        queues := Function.update s.queues i rest
        threads := Function.update s.threads i (.delivering e) }
  | _ => none

/-- The thread `i` gives the event back at the end of its delivery. -/
def threadFinish (s : FastState D) (i : Fin D) : Option (FastState D) :=
  match s.threads i with
  | .delivering e =>
    some (giveBackEvent { s with threads := Function.update s.threads i .top } e)
  | _ => none

/-- A caller gives back an event that it holds; one without a pool stays with the caller. -/
def releaseHeld (s : FastState D) (caller : ℕ) (e : FastEvent) : Option (FastState D) :=
  if e ∈ s.held caller then
    match e.fast with
    | none => some s
    | some _ => some (agcEventFastRelease
        { s with held := Function.update s.held caller ((s.held caller).erase e) } e)
  else none

/-- A step of a caller, of a thread, or of `agc_event_shutdown`. -/
inductive FastAction (D : ℕ)
  | initial (type capacity : ℕ)
  | alloc (caller type : ℕ)
  | createCallback (caller : ℕ)
  | create (caller : ℕ)
  | fire (caller : ℕ) (e : FastEvent)
  | push (caller : ℕ) (e : FastEvent) (source : UInt32) (r : Fin D)
  | test (i : Fin D)
  | pop (i : Fin D)
  | finish (i : Fin D)
  | release (caller : ℕ) (e : FastEvent)
  | shutdown

/-- One step, if it is enabled. -/
def fastStep (s : FastState D) : FastAction D → Option (FastState D)
  | .initial type capacity => some (agcEventFastInitial s type capacity)
  | .alloc caller type => some (agcEventFastAlloc s caller type)
  | .createCallback caller => some (agcEventFastCreateCallback s caller)
  | .create caller => some (createHeap s caller)
  | .fire caller e => fireTest s caller e
  | .push caller e source r => firePush s caller e source r
  | .test i => threadTest s i
  | .pop i => threadPop s i
  | .finish i => threadFinish s i
  | .release caller e => releaseHeld s caller e
  | .shutdown => some { s with running := false }

/-- A sequence of enabled steps. -/
def fastRun (acts : List (FastAction D)) : Option (FastState D) :=
  acts.foldlM fastStep (fastInit D)

theorem fastRun_snoc (acts : List (FastAction D)) (act : FastAction D) :
    fastRun (acts ++ [act]) = fastRun acts >>= fun s => fastStep s act := by
  simp only [fastRun, List.foldlM_append, List.foldlM_cons, List.foldlM_nil, bind_pure]

end Steps

namespace FastState

variable {D : ℕ} {s s' : FastState D} {act : FastAction D}

/-- The places of an event. -/
inductive Place (D : ℕ)
  | free (type : ℕ)
  | held (caller : ℕ)
  | firing (caller : ℕ)
  | queue (i : Fin D)
  | delivering (i : Fin D)

/-- What a thread is delivering. -/
def inDelivery : ThreadPhase → List FastEvent
  | .delivering e => [e]
  | .top | .popping | .ended => []

/-- The events in each place. -/
def contents (s : FastState D) : Place D → List FastEvent
  | .free type => (s.free type).getD []
  | .held caller => s.held caller
  | .firing caller => s.firing caller
  | .queue i => s.queues i
  | .delivering i => inDelivery (s.threads i)

/-- Each pooled event is in exactly one place, the free events are in the queue of their type, no
push into a free queue failed, and no event of a pool was destroyed. -/
structure Conserved (s : FastState D) : Prop where
  once : ∀ type, ∀ e ∈ s.pooled type, ExactlyOnce s.contents e
  own : ∀ type, ∀ e ∈ s.contents (.free type), e.fast = some type
  refused : s.refused = []
  destroyed : ∀ e ∈ s.destroyed, e.fast = none

/-- What every run keeps: an event with a type is one of its pool, and a queue has room for more
than the pool. -/
structure Typed (s : FastState D) : Prop where
  known : ∀ p, ∀ e ∈ s.contents p, e.id < s.next ∧ ∀ type, e.fast = some type → e ∈ s.pooled type
  pooled : ∀ type, ∀ e ∈ s.pooled type, e.fast = some type ∧ e.id < s.next
  own : ∀ type, ∀ e ∈ s.contents (.free type), e.fast = some type
  size : ∀ type, s.free type ≠ none → (s.pooled type).length < s.capacity type
  none : ∀ type, s.free type = none → s.pooled type = []

/-! ## What a step does -/

/-- The step is not an initialisation and creates no event. -/
structure Frame (s s' : FastState D) : Prop where
  pooled : s'.pooled = s.pooled
  capacity : s'.capacity = s.capacity
  next : s'.next = s.next
  free : ∀ type, s'.free type = Option.none ↔ s.free type = Option.none

/-- What a step does to the places: an event moves, is destroyed, cannot be pushed into its full
free queue, or is created, or nothing changes. -/
inductive Effect (s : FastState D) (act : FastAction D) (s' : FastState D) : Prop
  | same (hf : Frame s s') (hc : s'.contents = s.contents) (hd : s'.destroyed = s.destroyed)
      (hr : s'.refused = s.refused)
  | moved (x : FastEvent) (p q : Place D) (hf : Frame s s')
      (hm : Moved s.contents s'.contents x p q) (hq : ∀ type, q = .free type → x.fast = some type)
      (hd : s'.destroyed = s.destroyed) (hr : s'.refused = s.refused)
  | destroyed (x : FastEvent) (p : Place D) (hf : Frame s s')
      (hm : Removed s.contents s'.contents x p) (hd : s'.destroyed = s.destroyed ++ [x])
      (hr : s'.refused = s.refused)
      (hx : x.fast = Option.none ∨ (s.running = false ∧ ∃ caller, act = .fire caller x))
  | refused (x : FastEvent) (p : Place D) (type : ℕ) (hf : Frame s s')
      (hm : Removed s.contents s'.contents x p) (hd : s'.destroyed = s.destroyed)
      (hr : s'.refused = s.refused ++ [x]) (hx : x.fast = some type)
      (hfull : s.capacity type ≤ (s.contents (.free type)).length)
  | created (caller : ℕ) (hc : s' = createHeap s caller)
  | initialised (type capacity : ℕ) (hn : s.free type = Option.none)
      (hc : s' = { s with
        free := Function.update s.free type (some (newEvents s.next type capacity))
        capacity := Function.update s.capacity type (capacity + 10)
        next := s.next + capacity
        pooled := Function.update s.pooled type (newEvents s.next type capacity) })

/-- A release, of an event that was taken out of the place `p`. -/
theorem effect_release {x : FastEvent} {type : ℕ} {p : Place D} {s₁ : FastState D}
    (hx : x.fast = some type) (hp : ∀ type, p ≠ .free type)
    (hm : Removed s.contents s₁.contents x p) (hfree : s₁.free = s.free)
    (hpooled : s₁.pooled = s.pooled) (hcap : s₁.capacity = s.capacity) (hnext : s₁.next = s.next)
    (hd : s₁.destroyed = s.destroyed) (hr : s₁.refused = s.refused) (hn : s.free type ≠ .none) :
    Effect s act (agcEventFastRelease s₁ x) := by
  -- the type has a queue, as the event came out of a pool of the type
  obtain ⟨l, hl⟩ := Option.ne_none_iff_exists'.mp hn
  have hcontents : ((s₁.free type).getD []) = s.contents (.free type) := by
    rw [hfree]
    rfl
  unfold agcEventFastRelease
  simp only [hx]
  split
  · -- the event goes back into its queue
    have hsame : ∀ r, r ≠ .free type → contents { s₁ with
        free := Function.update s₁.free type (some ((s₁.free type).getD [] ++ [x])) } r =
          s₁.contents r := by
      intro r hr
      cases r with
      | free type' =>
        have hne : type' ≠ type := fun h => hr (h ▸ rfl)
        simp [contents, Function.update_of_ne hne]
      | held caller => rfl
      | firing caller => rfl
      | queue i => rfl
      | delivering i => rfl
    refine .moved x p (.free type) ⟨hpooled, hcap, hnext, fun type' => ?_⟩ ⟨hp type, ?_, ?_, ?_⟩
      (fun type' h => ?_) hd hr
    · show Function.update s₁.free type _ type' = _ ↔ _
      by_cases hne : type' = type
      · rw [hne, Function.update_self, hl]
        simp
      · rw [Function.update_of_ne hne, hfree]
    · rw [hsame p (hp type)]
      exact hm.source
    · simp only [contents, Function.update_self, Option.getD_some, hfree]
      exact List.perm_append_comm
    · intro r hrp hrq
      rw [hsame r hrq]
      exact hm.others r hrp
    · rw [Place.free.inj h] at hx
      exact hx
  · -- the queue is full, and the event is in no place any more
    rename_i hfull
    rw [hcontents, hcap] at hfull
    refine .refused x p type ⟨hpooled, hcap, hnext, fun type' => ?_⟩ ⟨hm.source, hm.others⟩ hd ?_ hx
      (Nat.not_lt.mp hfull)
    · show s₁.free type' = _ ↔ _
      rw [hfree]
    · show s₁.refused ++ [x] = _
      rw [hr]

theorem Typed.free_ne_none {p : Place D} {x : FastEvent} {type : ℕ} (h : s.Typed)
    (hx : x ∈ s.contents p) (ht : x.fast = some type) : s.free type ≠ .none := by
  intro hn
  have hmem := (h.known p x hx).2 type ht
  rw [h.none type hn] at hmem
  cases hmem

/-- Taking an event from its holder. -/
theorem removed_held {caller : ℕ} {x : FastEvent} (hx : x ∈ s.held caller) :
    Removed s.contents (contents { s with
      held := Function.update s.held caller ((s.held caller).erase x) }) x (.held caller) := by
  constructor
  · show (s.held caller).Perm (x :: Function.update s.held caller _ caller)
    rw [Function.update_self]
    exact List.perm_cons_erase hx
  · intro r hr
    cases r with
    | held caller' =>
      have hne : caller' ≠ caller := fun h => hr (h ▸ rfl)
      exact Function.update_of_ne hne _ _
    | free type => rfl
    | firing caller' => rfl
    | queue i => rfl
    | delivering i => rfl

/-- Taking an event from its thread. -/
theorem removed_delivering {i : Fin D} {x : FastEvent} (hx : s.threads i = .delivering x) :
    Removed s.contents (contents { s with
      threads := Function.update s.threads i .top }) x (.delivering i) := by
  constructor
  · show (inDelivery (s.threads i)).Perm (x :: inDelivery (Function.update s.threads i .top i))
    rw [Function.update_self, hx]
    exact List.Perm.refl _
  · intro r hr
    cases r with
    | delivering j =>
      have hne : j ≠ i := fun h => hr (h ▸ rfl)
      exact congrArg inDelivery (Function.update_of_ne hne _ _)
    | free type => rfl
    | held caller => rfl
    | firing caller => rfl
    | queue j => rfl

theorem frame_of_free {s' : FastState D} (hpooled : s'.pooled = s.pooled)
    (hcap : s'.capacity = s.capacity) (hnext : s'.next = s.next) (hfree : s'.free = s.free) :
    Frame s s' := ⟨hpooled, hcap, hnext, fun type => by rw [hfree]⟩

theorem effect_alloc [NeZero D] (caller type : ℕ) :
    Effect s act (agcEventFastAlloc s caller type) := by
  have hsame : Effect s act s := .same (frame_of_free rfl rfl rfl rfl) rfl rfl rfl
  unfold agcEventFastAlloc
  split
  · exact hsame
  · split
    · -- the first free event goes to the caller
      rename_i e rest hfree
      refine .moved e (.free type) (.held caller) ⟨rfl, rfl, rfl, fun type' => ?_⟩
        ⟨by simp, ?_, ?_, ?_⟩ (fun type' h => by cases h) rfl rfl
      · show Function.update s.free type _ type' = _ ↔ _
        by_cases hne : type' = type
        · rw [hne, Function.update_self, hfree]
          simp
        · rw [Function.update_of_ne hne]
      · simp [contents, hfree]
      · simp only [contents, Function.update_self]
        exact List.perm_append_comm
      · intro r hrp hrq
        cases r with
        | free type' =>
          have hne : type' ≠ type := fun h => hrp (h ▸ rfl)
          simp [contents, Function.update_of_ne hne]
        | held caller' =>
          have hne : caller' ≠ caller := fun h => hrq (h ▸ rfl)
          simp [contents, Function.update_of_ne hne]
        | firing caller' => rfl
        | queue i => rfl
        | delivering i => rfl
    · exact hsame

theorem effect_fire {caller : ℕ} {e : FastEvent} (h : fireTest s caller e = some s') :
    Effect s (.fire caller e) s' := by
  unfold fireTest at h
  split at h
  · rename_i hmem
    have hrem := removed_held hmem
    split at h
    · cases h
      -- the system runs: the event is on its way to a queue
      refine .moved e (.held caller) (.firing caller) (frame_of_free rfl rfl rfl rfl)
        ⟨by simp, hrem.source, ?_, ?_⟩ (fun type h => by cases h) rfl rfl
      · simp only [contents, Function.update_self]
        exact List.perm_append_comm
      · intro r hrp hrq
        cases r with
        | firing caller' =>
          have hne : caller' ≠ caller := fun h => hrq (h ▸ rfl)
          exact Function.update_of_ne hne _ _
        | held caller' => exact hrem.others _ hrp
        | free type => rfl
        | queue i => rfl
        | delivering i => rfl
    · -- the system is stopped
      rename_i hrun
      cases h
      exact .destroyed e (.held caller) (frame_of_free rfl rfl rfl rfl) ⟨hrem.source, hrem.others⟩
        rfl rfl (Or.inr ⟨Bool.eq_false_iff.mpr hrun, caller, rfl⟩)
  · cases h

theorem effect_push [NeZero D] {caller : ℕ} {e : FastEvent} {source : UInt32} {r : Fin D}
    (h : firePush s caller e source r = some s') : Effect s act s' := by
  unfold firePush at h
  simp only at h
  split at h
  · rename_i hguard
    cases h
    refine .moved e (.firing caller) (.queue (queueIndex ⟨e.id, source⟩ r))
      (frame_of_free rfl rfl rfl rfl) ⟨by simp, ?_, ?_, ?_⟩ (fun type h => by cases h) rfl rfl
    · simp only [contents, Function.update_self]
      exact List.perm_cons_erase hguard.1
    · simp only [contents, Function.update_self]
      exact List.perm_append_comm
    · intro p hp hq
      cases p with
      | firing caller' =>
        have hne : caller' ≠ caller := fun h => hp (h ▸ rfl)
        exact Function.update_of_ne hne _ _
      | queue i =>
        have hne : i ≠ queueIndex ⟨e.id, source⟩ r := fun h => hq (h ▸ rfl)
        exact Function.update_of_ne hne _ _
      | free type => rfl
      | held caller' => rfl
      | delivering i => rfl
  · cases h

/-- A change of a thread that delivers nothing before and after it. -/
theorem contents_thread {i : Fin D} {phase : ThreadPhase} (h : inDelivery (s.threads i) = [])
    (h' : inDelivery phase = []) :
    contents { s with threads := Function.update s.threads i phase } = s.contents := by
  funext r
  cases r with
  | delivering j =>
    show inDelivery (Function.update s.threads i phase j) = inDelivery (s.threads j)
    by_cases hne : j = i
    · rw [hne, Function.update_self, h, h']
    · rw [Function.update_of_ne hne]
  | free type => rfl
  | held caller => rfl
  | firing caller => rfl
  | queue j => rfl

theorem effect_test {i : Fin D} (h : threadTest s i = some s') : Effect s act s' := by
  unfold threadTest at h
  split at h
  · rename_i hphase
    cases h
    refine .same (frame_of_free rfl rfl rfl rfl) (contents_thread ?_ ?_) rfl rfl
    · rw [hphase]
      rfl
    · split
      · rfl
      · rfl
  · cases h

theorem effect_pop {i : Fin D} (h : threadPop s i = some s') : Effect s act s' := by
  unfold threadPop at h
  split at h
  · rename_i hphase
    split at h
    · cases h
      -- the queue is empty, and the thread starts over
      refine .same (frame_of_free rfl rfl rfl rfl) (contents_thread ?_ rfl) rfl rfl
      rw [hphase]
      rfl
    · rename_i e rest hqueue
      cases h
      refine .moved e (.queue i) (.delivering i) (frame_of_free rfl rfl rfl rfl)
        ⟨by simp, ?_, ?_, ?_⟩ (fun type h => by cases h) rfl rfl
      · simp [contents, hqueue]
      · simp [contents, hphase, inDelivery]
      · intro r hrp hrq
        cases r with
        | queue j =>
          have hne : j ≠ i := fun h => hrp (h ▸ rfl)
          exact Function.update_of_ne hne _ _
        | delivering j =>
          have hne : j ≠ i := fun h => hrq (h ▸ rfl)
          exact congrArg inDelivery (Function.update_of_ne hne _ _)
        | free type => rfl
        | held caller => rfl
        | firing caller => rfl
  · cases h

theorem effect_finish [NeZero D] {i : Fin D} (ht : s.Typed) (h : threadFinish s i = some s') :
    Effect s act s' := by
  unfold threadFinish at h
  split at h
  · rename_i e hphase
    cases h
    have hrem := removed_delivering hphase
    have hmem : e ∈ s.contents (.delivering i) := by
      simp [contents, hphase, inDelivery]
    cases hfast : e.fast with
    | none =>
      simp only [giveBackEvent, hfast]
      exact .destroyed e (.delivering i) (frame_of_free rfl rfl rfl rfl)
        ⟨hrem.source, hrem.others⟩ rfl rfl (Or.inl hfast)
    | some type =>
      simp only [giveBackEvent, hfast]
      exact effect_release hfast (fun _ h => by cases h) hrem rfl rfl rfl rfl rfl rfl
        (ht.free_ne_none hmem hfast)
  · cases h

theorem effect_releaseHeld [NeZero D] {caller : ℕ} {e : FastEvent} (ht : s.Typed)
    (h : releaseHeld s caller e = some s') : Effect s act s' := by
  unfold releaseHeld at h
  split at h
  · rename_i hmem
    cases hfast : e.fast with
    | none =>
      simp only [hfast] at h
      cases h
      exact .same (frame_of_free rfl rfl rfl rfl) rfl rfl rfl
    | some type =>
      simp only [hfast] at h
      cases h
      exact effect_release hfast (fun _ h => by cases h) (removed_held hmem) rfl rfl rfl rfl rfl
        rfl (ht.free_ne_none (p := .held caller) hmem hfast)
  · cases h

/-- What a step of a run does. -/
theorem Typed.effect [NeZero D] (ht : s.Typed) (h : fastStep s act = some s') :
    Effect s act s' := by
  cases act with
  | initial type capacity =>
    have hs' : agcEventFastInitial s type capacity = s' := Option.some.inj h
    unfold agcEventFastInitial at hs'
    split at hs'
    · subst hs'
      exact .same (frame_of_free rfl rfl rfl rfl) rfl rfl rfl
    · split at hs'
      · subst hs'
        exact .same (frame_of_free rfl rfl rfl rfl) rfl rfl rfl
      · rename_i hnone
        exact .initialised type capacity hnone hs'.symm
  | alloc caller type => exact Option.some.inj h ▸ effect_alloc caller type
  | createCallback caller => exact Option.some.inj h ▸ effect_alloc caller _
  | create caller => exact .created caller (Option.some.inj h).symm
  | fire caller e => exact effect_fire h
  | push caller e source r => exact effect_push h
  | test i => exact effect_test h
  | pop i => exact effect_pop h
  | finish i => exact effect_finish ht h
  | release caller e => exact effect_releaseHeld ht h
  | shutdown =>
    cases h
    exact .same (frame_of_free rfl rfl rfl rfl) rfl rfl rfl

/-! ## What every run keeps -/

theorem mem_newEvents {next type capacity : ℕ} {e : FastEvent} :
    e ∈ newEvents next type capacity ↔
      e.fast = some type ∧ next ≤ e.id ∧ e.id < next + capacity := by
  simp only [newEvents, List.mem_map, List.mem_range]
  constructor
  · rintro ⟨i, hi, rfl⟩
    exact ⟨rfl, Nat.le_add_right next i, Nat.add_lt_add_left hi next⟩
  · rintro ⟨hfast, hle, hlt⟩
    refine ⟨e.id - next, by omega, ?_⟩
    have hid : next + (e.id - next) = e.id := by omega
    rw [hid, ← hfast]

theorem length_newEvents (next type capacity : ℕ) :
    (newEvents next type capacity).length = capacity := by
  simp [newEvents]

/-- The places keep their events when something is taken out or moved. -/
theorem Typed.of_frame (h : s.Typed) (hf : Frame s s')
    (hmem : ∀ p, ∀ e ∈ s'.contents p, ∃ q, e ∈ s.contents q)
    (hown : ∀ type, ∀ e ∈ s'.contents (.free type), e.fast = some type) : s'.Typed := by
  constructor
  · intro p e he
    obtain ⟨q, hq⟩ := hmem p e he
    rw [hf.next, hf.pooled]
    exact h.known q e hq
  · rw [hf.next, hf.pooled]
    exact h.pooled
  · exact hown
  · intro type hn
    rw [hf.pooled, hf.capacity]
    exact h.size type fun hnone => hn ((hf.free type).mpr hnone)
  · intro type hn
    rw [hf.pooled]
    exact h.none type ((hf.free type).mp hn)

/-- The contents behind the creation of an event. -/
theorem mem_contents_create [NeZero D] {caller : ℕ} {p : Place D} {e : FastEvent}
    (he : e ∈ (createHeap s caller).contents p) :
    e ∈ s.contents p ∨ (e = ⟨s.next, .none⟩ ∧ p = .held caller) := by
  cases p with
  | held caller' =>
    have he : e ∈ Function.update s.held caller (s.held caller ++ [⟨s.next, .none⟩]) caller' := he
    by_cases hne : caller' = caller
    · rw [hne, Function.update_self] at he
      rcases List.mem_append.mp he with he | he
      · exact Or.inl (hne.symm ▸ he)
      · exact Or.inr ⟨List.mem_singleton.mp he, hne ▸ rfl⟩
    · rw [Function.update_of_ne hne] at he
      exact Or.inl he
  | free type => exact Or.inl he
  | firing caller' => exact Or.inl he
  | queue i => exact Or.inl he
  | delivering i => exact Or.inl he

/-- The state behind an initialisation. -/
def initialised (s : FastState D) (type capacity : ℕ) : FastState D :=
  { s with
    free := Function.update s.free type (some (newEvents s.next type capacity))
    capacity := Function.update s.capacity type (capacity + 10)
    next := s.next + capacity
    pooled := Function.update s.pooled type (newEvents s.next type capacity) }

/-- The contents behind an initialisation. -/
theorem contents_initialised {type capacity : ℕ} (p : Place D) (hp : p ≠ .free type) :
    (s.initialised type capacity).contents p = s.contents p := by
  cases p with
  | free type' =>
    have hne : type' ≠ type := fun h => hp (h ▸ rfl)
    simp [contents, initialised, Function.update_of_ne hne]
  | held caller => rfl
  | firing caller => rfl
  | queue i => rfl
  | delivering i => rfl

theorem contents_initialised_self {type capacity : ℕ} :
    (s.initialised type capacity).contents (.free type) = newEvents s.next type capacity := by
  simp [contents, initialised]

theorem Typed.initialised (h : s.Typed) {type capacity : ℕ} (hn : s.free type = .none) :
    (s.initialised type capacity).Typed := by
  have hpooled : ∀ type' e, e ∈ s.pooled type' →
      e ∈ (s.initialised type capacity).pooled type' := by
    -- a type without a queue had no pool
    intro type' e he
    by_cases hne : type' = type
    · rw [hne, h.none type hn] at he
      cases he
    · show e ∈ Function.update s.pooled type _ type'
      rw [Function.update_of_ne hne]
      exact he
  constructor
  · intro p e he
    show e.id < s.next + capacity ∧ _
    by_cases hp : p = .free type
    · rw [hp, contents_initialised_self] at he
      obtain ⟨hfast, -, hlt⟩ := mem_newEvents.mp he
      refine ⟨hlt, fun type' ht' => ?_⟩
      obtain rfl : type = type' := Option.some.inj (hfast.symm.trans ht')
      show e ∈ Function.update s.pooled type _ type
      rw [Function.update_self]
      exact he
    · rw [contents_initialised p hp] at he
      obtain ⟨hlt, hk⟩ := h.known p e he
      exact ⟨Nat.lt_add_right capacity hlt, fun type' ht' => hpooled type' e (hk type' ht')⟩
  · intro type' e he
    have he : e ∈ Function.update s.pooled type (newEvents s.next type capacity) type' := he
    show _ ∧ e.id < s.next + capacity
    by_cases hne : type' = type
    · rw [hne, Function.update_self] at he
      obtain ⟨hfast, -, hlt⟩ := mem_newEvents.mp he
      exact ⟨hne ▸ hfast, hlt⟩
    · rw [Function.update_of_ne hne] at he
      obtain ⟨hfast, hlt⟩ := h.pooled type' e he
      exact ⟨hfast, Nat.lt_add_right capacity hlt⟩
  · intro type' e he
    by_cases hne : type' = type
    · rw [hne, contents_initialised_self] at he
      rw [hne]
      exact (mem_newEvents.mp he).1
    · rw [contents_initialised _ fun hp => hne (Place.free.inj hp)] at he
      exact h.own type' e he
  · intro type' hfree
    show (Function.update s.pooled type _ type').length < Function.update s.capacity type _ type'
    by_cases hne : type' = type
    · rw [hne, Function.update_self, Function.update_self, length_newEvents]
      omega
    · have hfree : Function.update s.free type _ type' ≠ .none := hfree
      rw [Function.update_of_ne hne] at hfree
      rw [Function.update_of_ne hne, Function.update_of_ne hne]
      exact h.size type' hfree
  · intro type' hfree
    have hfree : Function.update s.free type _ type' = .none := hfree
    show Function.update s.pooled type _ type' = []
    by_cases hne : type' = type
    · rw [hne, Function.update_self] at hfree
      cases hfree
    · rw [Function.update_of_ne hne] at hfree ⊢
      exact h.none type' hfree

/-- Every step keeps the types. -/
theorem Typed.step [NeZero D] (h : s.Typed) (hstep : fastStep s act = some s') : s'.Typed := by
  cases h.effect hstep with
  | same hf hc hd hr =>
    refine h.of_frame hf (fun p e he => ⟨p, hc ▸ he⟩) ?_
    rw [hc]
    exact h.own
  | moved x p q hf hm hq hd hr =>
    refine h.of_frame hf (fun r e he => hm.mem_of_mem he) fun type e he => ?_
    -- a free queue gets only an event of its type
    by_cases hqt : Place.free type = q
    · rw [hqt] at he
      rcases List.mem_cons.mp (hm.target.mem_iff.mp he) with rfl | he
      · exact hq type hqt.symm
      · exact h.own type e (hqt ▸ he)
    · by_cases hpt : Place.free type = p
      · rw [hpt] at he
        exact h.own type e (hpt ▸ hm.source.mem_iff.mpr (List.mem_cons_of_mem x he))
      · rw [hm.others _ hpt hqt] at he
        exact h.own type e he
  | destroyed x p hf hm hd hr hx =>
    exact h.of_frame hf (fun r e he => ⟨r, hm.mem_of_mem he⟩)
      fun type e he => h.own type e (hm.mem_of_mem he)
  | refused x p type hf hm hd hr hx hfull =>
    exact h.of_frame hf (fun r e he => ⟨r, hm.mem_of_mem he⟩)
      fun type e he => h.own type e (hm.mem_of_mem he)
  | created caller hc =>
    subst hc
    constructor
    · intro p e he
      rcases mem_contents_create he with he | ⟨rfl, -⟩
      · obtain ⟨hlt, hk⟩ := h.known p e he
        exact ⟨Nat.lt_succ_of_lt hlt, hk⟩
      · exact ⟨Nat.lt_succ_self s.next, fun type ht => by cases ht⟩
    · intro type e he
      obtain ⟨hfast, hlt⟩ := h.pooled type e he
      exact ⟨hfast, Nat.lt_succ_of_lt hlt⟩
    · exact h.own
    · exact h.size
    · exact h.none
  | initialised type capacity hn hc =>
    subst hc
    exact h.initialised hn

/-! ## The pools -/

/-- A free queue never fills up. -/
theorem Conserved.room (hc : s.Conserved) (ht : s.Typed) {type : ℕ} (hn : s.free type ≠ .none) :
    (s.contents (.free type)).length < s.capacity type := by
  refine Nat.lt_of_le_of_lt (length_le (fun e he => ?_) fun e he => ?_) (ht.size type hn)
  · -- the free events are pooled ones, each of them once, and fewer than the queue has room for
    exact hc.once type e ((ht.known _ e he).2 type (ht.own type e he))
  · exact (ht.known _ e he).2 type (ht.own type e he)

theorem Conserved.initialised (hc : s.Conserved) (ht : s.Typed) {type capacity : ℕ}
    (hn : s.free type = .none) : (s.initialised type capacity).Conserved := by
  -- the new events are none of the old ones
  have hold : ∀ p, ∀ e ∈ s.contents p, e.id < s.next := fun p e he => (ht.known p e he).1
  have hself : s.contents (.free type) = [] := by
    simp [contents, hn]
  refine ⟨fun type' e he => ?_, (ht.initialised hn).own, hc.refused, hc.destroyed⟩
  have he : e ∈ Function.update s.pooled type (newEvents s.next type capacity) type' := he
  by_cases hne : type' = type
  · rw [hne, Function.update_self] at he
    -- a new event is in its free queue and, its number being new, nowhere else
    refine ⟨.free type, ?_, fun q hq hmem => ?_⟩
    · rw [contents_initialised_self]
      have hnodup : (newEvents s.next type capacity).Nodup := by
        refine List.nodup_range.map fun i j hij => ?_
        have hid : s.next + i = s.next + j := congrArg FastEvent.id hij
        omega
      exact List.count_eq_one_of_mem hnodup he
    · rw [contents_initialised q hq] at hmem
      exact absurd (hold q e hmem) (Nat.not_lt.mpr (mem_newEvents.mp he).2.1)
  · rw [Function.update_of_ne hne] at he
    -- the events of the other pools stay where they are
    refine (hc.once type' e he).congr fun r => ?_
    by_cases hr : r = .free type
    · rw [hr, contents_initialised_self, hself, List.count_nil, List.count_eq_zero]
      intro hmem
      have hfast := (mem_newEvents.mp hmem).1.symm.trans (ht.pooled type' e he).1
      exact hne (Option.some.inj hfast).symm
    · rw [contents_initialised r hr]

/-- A step keeps the pools unless it fires an event of a pool in a stopped system. -/
theorem Conserved.step_iff [NeZero D] (hc : s.Conserved) (ht : s.Typed)
    (hstep : fastStep s act = some s') :
    s'.Conserved ↔ ∀ caller e, act = .fire caller e → e.fast ≠ .none → s.running = true := by
  constructor
  · rintro hc' caller e rfl hfast
    -- a pooled event that is fired in a stopped system is destroyed
    by_contra hrun
    have hrun : s.running = false := Bool.eq_false_iff.mpr hrun
    simp only [fastStep, fireTest, hrun] at hstep
    split at hstep
    · cases hstep
      exact hfast (hc'.destroyed e (List.mem_append_right _ List.mem_cons_self))
    · cases hstep
  · intro hlive
    have ht' := ht.step hstep
    cases ht.effect hstep with
    | same hf hcont hd hr =>
      refine ⟨?_, ht'.own, hr.trans hc.refused, hd ▸ hc.destroyed⟩
      rw [hf.pooled, hcont]
      exact hc.once
    | moved x p q hf hm hq hd hr =>
      refine ⟨?_, ht'.own, hr.trans hc.refused, hd ▸ hc.destroyed⟩
      rw [hf.pooled]
      exact fun type e he => hm.exactlyOnce (hc.once type e he)
    | destroyed x p hf hm hd hr hx =>
      -- what is destroyed belongs to no pool, since no pooled event is fired when stopped
      have hx : x.fast = .none := by
        rcases hx with hx | ⟨hrun, caller, hact⟩
        · exact hx
        · by_contra hfast
          rw [hlive caller x hact hfast] at hrun
          cases hrun
      refine ⟨?_, ht'.own, hr.trans hc.refused, ?_⟩
      · rw [hf.pooled]
        intro type e he
        refine (hc.once type e he).congr fun r => hm.count_of_ne ?_ r
        rintro rfl
        rw [(ht.pooled type e he).1] at hx
        cases hx
      · rw [hd]
        intro e he
        rcases List.mem_append.mp he with he | he
        · exact hc.destroyed e he
        · rw [List.mem_singleton.mp he]
          exact hx
    | refused x p type hf hm hd hr hx hfull =>
      -- a free queue has room for every event of its pool
      have hmem : x ∈ s.contents p := hm.source.mem_iff.mpr List.mem_cons_self
      exact absurd (hc.room ht (ht.free_ne_none hmem hx)) (Nat.not_lt.mpr hfull)
    | created caller hcreate =>
      subst hcreate
      refine ⟨fun type e he => ?_, ht'.own, hc.refused, hc.destroyed⟩
      refine (hc.once type e he).congr fun r => ?_
      have hne : e ≠ ⟨s.next, .none⟩ := by
        rintro rfl
        exact Nat.lt_irrefl _ (ht.pooled type _ he).2
      cases r with
      | held caller' =>
        show (Function.update s.held caller _ caller').count e = (s.held caller').count e
        by_cases hcaller : caller' = caller
        · rw [hcaller, Function.update_self, List.count_append, List.count_singleton, if_neg]
          · rw [Nat.add_zero]
          · simpa using Ne.symm hne
        · rw [Function.update_of_ne hcaller]
      | free type' => rfl
      | firing caller' => rfl
      | queue i => rfl
      | delivering i => rfl
    | initialised type capacity hn hinit =>
      subst hinit
      exact hc.initialised ht hn

/-! ## Runs -/

theorem typed_init : (fastInit D).Typed := by
  constructor
  · intro p e he
    cases p with
    | free type => cases he
    | held caller => cases he
    | firing caller => cases he
    | queue i => cases he
    | delivering i => cases he
  · exact fun type e he => by cases he
  · exact fun type e he => by cases he
  · exact fun type hn => absurd rfl hn
  · exact fun type _ => rfl

theorem conserved_init : (fastInit D).Conserved where
  once _ _ he := by cases he
  own _ _ he := by cases he
  refused := rfl
  destroyed _ he := by cases he

theorem running_release (s : FastState D) (e : FastEvent) :
    (agcEventFastRelease s e).running = s.running := by
  unfold agcEventFastRelease
  split
  · rfl
  · split
    · rfl
    · rfl

section Runs

variable [NeZero D] {acts : List (FastAction D)}

/-- A run that was made longer by a step. -/
theorem fastRun_snoc_eq (h : fastRun (acts ++ [act]) = some s') :
    ∃ s, fastRun acts = some s ∧ fastStep s act = some s' := by
  rw [fastRun_snoc] at h
  exact Option.bind_eq_some_iff.mp h

theorem typed_of_run (h : fastRun acts = some s) : s.Typed := by
  induction acts using List.reverseRecOn generalizing s with
  | nil =>
    cases h
    exact typed_init
  | append_singleton acts act ih =>
    obtain ⟨s₁, hs₁, hstep⟩ := fastRun_snoc_eq h
    exact (ih hs₁).step hstep

/-- Only `agc_event_shutdown` writes `SYSTEM_RUNNING`. -/
theorem running_step (h : fastStep s act = some s') (hact : act ≠ .shutdown) :
    s'.running = s.running := by
  have halloc : ∀ caller type, (agcEventFastAlloc s caller type).running = s.running := by
    intro caller type
    unfold agcEventFastAlloc
    split
    · rfl
    · split
      · rfl
      · rfl
  cases act with
  | initial type capacity =>
    cases h
    unfold agcEventFastInitial
    split
    · rfl
    · split
      · rfl
      · rfl
  | alloc caller type =>
    cases h
    exact halloc caller type
  | createCallback caller =>
    cases h
    exact halloc caller _
  | create caller =>
    cases h
    rfl
  | fire caller e =>
    simp only [fastStep, fireTest] at h
    split at h
    · split at h
      · cases h
        rfl
      · cases h
        rfl
    · cases h
  | push caller e source r =>
    simp only [fastStep, firePush] at h
    split at h
    · cases h
      rfl
    · cases h
  | test i =>
    simp only [fastStep, threadTest] at h
    split at h
    · cases h
      rfl
    · cases h
  | pop i =>
    simp only [fastStep, threadPop] at h
    split at h
    · split at h
      · cases h
        rfl
      · cases h
        rfl
    · cases h
  -- the thread gives its event back, which goes through the release
  | finish i =>
    simp only [fastStep, threadFinish] at h
    split at h
    · rename_i e hphase
      cases h
      unfold giveBackEvent
      split
      · exact running_release _ e
      · rfl
    · cases h
  | release caller e =>
    simp only [fastStep, releaseHeld] at h
    split at h
    · split at h
      · cases h
        rfl
      · cases h
        exact running_release _ e
    · cases h
  | shutdown => exact absurd rfl hact

/-- The system runs until it is shut down. -/
theorem running_iff (h : fastRun acts = some s) : s.running = true ↔ .shutdown ∉ acts := by
  induction acts using List.reverseRecOn generalizing s with
  | nil =>
    cases h
    simp [fastInit]
  | append_singleton acts act ih =>
    obtain ⟨s₁, hs₁, hstep⟩ := fastRun_snoc_eq h
    by_cases hact : act = .shutdown
    · subst hact
      cases hstep
      simp
    · rw [running_step hstep hact, ih hs₁, List.mem_append, List.mem_singleton]
      simp [Ne.symm hact]

/-- No event of a pool is fired behind a shutdown. -/
def FiresLive (done : List (FastAction D)) (act : FastAction D) : Prop :=
  ∀ caller e, act = .fire caller e → e.fast ≠ .none → .shutdown ∉ done

/-- **The pools of fast events are conserved** in every state of a run, exactly when the run fires
no event of a pool behind the shutdown. -/
theorem pool_conserved_iff (acts : List (FastAction D)) (h : (fastRun acts).isSome) :
    (∀ p, p <+: acts → ∀ s, fastRun p = some s → s.Conserved) ↔ Throughout FiresLive acts := by
  refine prefixes_iff_throughout_of ?_ acts fun done act hpre hdone => ?_
  · intro s hs
    cases hs
    exact conserved_init
  · -- every initial part of the run is a run
    obtain ⟨s', hs'⟩ : ∃ s', fastRun (done ++ [act]) = some s' := by
      obtain ⟨rest, hrest⟩ := hpre
      obtain ⟨s, hs⟩ := Option.isSome_iff_exists.mp h
      rw [← hrest, fastRun, List.foldlM_append] at hs
      obtain ⟨s', hs', -⟩ := Option.bind_eq_some_iff.mp hs
      exact ⟨s', hs'⟩
    obtain ⟨s, hs, hstep⟩ := fastRun_snoc_eq hs'
    have hiff := (hdone s hs).step_iff (typed_of_run hs) hstep
    constructor
    · intro hall caller e hact hfast
      exact (running_iff hs).mp (hiff.mp (hall s' hs') caller e hact hfast)
    · intro hlive t ht
      obtain rfl : s' = t := Option.some.inj (hs'.symm.trans ht)
      exact hiff.mpr fun caller e hact hfast =>
        (running_iff hs).mpr (hlive caller e hact hfast)

end Runs

/-- An event of the pool of callbacks is taken, fired, delivered and given back. -/
def fastCycle : List (FastAction 2) :=
  [.initial 0 1, .createCallback 0, .fire 0 ⟨0, some 0⟩, .push 0 ⟨0, some 0⟩ 2 0, .test 0, .pop 0,
    .finish 0, .shutdown]

theorem pool_conserved_cycle :
    (fastRun fastCycle).isSome ∧
      ∀ p, p <+: fastCycle → ∀ s, fastRun p = some s → s.Conserved := by
  have hrun : (fastRun fastCycle).isSome := rfl
  refine ⟨hrun, (pool_conserved_iff fastCycle hrun).mpr ?_⟩
  -- the shutdown is the last step
  have hsplit : fastCycle = fastCycle.dropLast ++ [.shutdown] := rfl
  rw [hsplit, throughout_snoc]
  refine ⟨fun done act rest hacts caller e hact hfast hmem => ?_, fun caller e hact => ?_⟩
  · have hin : FastAction.shutdown ∈ fastCycle.dropLast := by
      rw [hacts]
      exact List.mem_append_left _ hmem
    simp [fastCycle] at hin
  · cases hact

/-- An event of a pool is fired behind the shutdown: it is destroyed. -/
def fireStopped : List (FastAction 2) :=
  [.initial 0 1, .createCallback 0, .shutdown, .fire 0 ⟨0, some 0⟩]

theorem pool_lost_at_shutdown :
    ¬ ∀ acts : List (FastAction 2), (fastRun acts).isSome →
      ∀ p, p <+: acts → ∀ s, fastRun p = some s → s.Conserved := by
  intro hall
  obtain ⟨s, hs⟩ : ∃ s, fastRun fireStopped = some s := ⟨_, rfl⟩
  have hc := hall fireStopped (by rw [hs]; rfl) fireStopped (List.prefix_refl _) s hs
  have hmem : (⟨0, some 0⟩ : FastEvent) ∈ s.destroyed := by
    cases hs
    exact List.mem_cons_self
  cases hc.destroyed _ hmem

end FastState
