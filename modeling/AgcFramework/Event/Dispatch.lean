import AgcFramework.Lib.Trace
import Mathlib.Algebra.BigOperators.Fin
import Mathlib.Algebra.Order.BigOperators.Group.Finset

/-!
# Dispatching

`agc_event_fire` puts an event into one of `MAX_DISPATCHER` bounded queues, and one thread for each
queue takes the events out and delivers them. An event with a source goes to the queue its source
selects; one without goes to any queue. The functions act on the queues, the threads and the source
counter; a run is any interleaving of the calls of producers and threads while the system is
running, and the step that makes a call notes what it returned. A push into a full queue blocks, so
it is no step.

## Main definitions

* `Dispatch D`: the source counter, the queues, and what each of the `D` threads is delivering
* `agcEventAllocSource`, `agcEventFire`, `dispatchPop`, `dispatchFinish`: the functions
* `Dispatching P D`: a run so far, with the source id each producer has and a log
* `Dispatching.places s e`: in how many places the event is

## Main results

* `Dispatching.Inv.step`: every step keeps the invariant of the queues
* `Dispatching.per_source_order`: a producer fires with the source id it was given, events of one
  source are delivered one after the other in the order in which they were pushed, and no event is
  lost or duplicated
-/

open Trace

/-- An event handed to `agc_event_fire`; `id` tells the instances apart. -/
structure Fired where
  id : ℕ
  source : UInt32
  deriving DecidableEq

/-- What happened to an event: it was pushed into the queue `i`, or its delivery by the thread `i`
started or finished. -/
inductive DispatchLabel (D : ℕ)
  | pushed (e : Fired) (i : Fin D)
  | started (e : Fired) (i : Fin D)
  | finished (e : Fired) (i : Fin D)
  deriving DecidableEq

/-- The state of the dispatcher. -/
structure Dispatch (D : ℕ) where
  /-- The counter `EVENT_SOURCE_ID`. -/
  sourceId : UInt32
  queues : Fin D → List Fired
  /-- The event the thread of each queue is delivering. -/
  delivering : Fin D → Option Fired

/-- `DISPATCH_QUEUE_LIMIT`. -/
def dispatchQueueLimit : ℕ := 10000

/-- `UINT32_MAX`. -/
def uint32Max : UInt32 := 0xFFFFFFFF

/-- The state after `agc_event_init`. -/
def agcEventInit (D : ℕ) : Dispatch D where
  sourceId := 0
  queues _ := []
  delivering _ := none

section Functions

variable {D : ℕ}

/-- `agc_event_alloc_source`: the counter is incremented, and reset when it has reached the
largest value. -/
def agcEventAllocSource (s : Dispatch D) : Dispatch D × UInt32 :=
  let sourceId := s.sourceId + 1
  ({ s with sourceId := if sourceId = uint32Max then 0 else sourceId }, sourceId)

/-- The queue of an event; `r` is the index `agc_random` returns. -/
def queueIndex [NeZero D] (e : Fired) (r : Fin D) : Fin D :=
  if e.source ≠ 0 then Fin.ofNat D e.source.toNat else r

/-- `agc_event_fire`, up to the push; a full queue blocks. -/
def agcEventFire [NeZero D] (s : Dispatch D) (e : Fired) (r : Fin D) : Option (Dispatch D) :=
  let i := queueIndex e r
  if (s.queues i).length < dispatchQueueLimit then
    some { s with queues := Function.update s.queues i (s.queues i ++ [e]) }
  else none

/-- The thread `i`, between two deliveries, takes an event out of its queue and begins to deliver
it. -/
def dispatchPop (s : Dispatch D) (i : Fin D) : Option (Dispatch D × Fired) :=
  match s.delivering i, s.queues i with
  | none, e :: rest => some ({ s with
      queues := Function.update s.queues i rest
      delivering := Function.update s.delivering i (some e) }, e)
  | _, _ => none

/-- The thread `i` returns from `agc_event_deliver` with the event it had taken out. -/
def dispatchFinish (s : Dispatch D) (i : Fin D) : Option (Dispatch D × Fired) :=
  match s.delivering i with
  | some e => some ({ s with delivering := Function.update s.delivering i none }, e)
  | none => none

end Functions

/-- A run so far, seen by those who make the calls: the source id each producer fires its events
with, the ids that allocations returned, and what happened to the events. -/
structure Dispatching (P : Type) (D : ℕ) extends Dispatch D where
  sources : P → UInt32
  issued : List UInt32
  log : List (DispatchLabel D)

/-- A step of a producer or of a thread. -/
inductive DispatchAction (P : Type) (D : ℕ)
  /-- The producer asks for a source id, and fires with it from then on. -/
  | alloc (p : P)
  /-- The producer takes any other id: that of another producer, none, or one of its own making. -/
  | adopt (p : P) (source : UInt32)
  | fire (p : P) (id : ℕ) (r : Fin D)
  | pop (i : Fin D)
  | finish (i : Fin D)

section Steps

variable {P : Type} [DecidableEq P] {D : ℕ} [NeZero D]

/-- Before the first call; a producer without a source id has the null id. -/
def dispatchStart (P : Type) (D : ℕ) : Dispatching P D where
  toDispatch := agcEventInit D
  sources _ := 0
  issued := []
  log := []

/-- One step; an event instance is fired at most once, as its delivery releases it. -/
def dispatchStep (s : Dispatching P D) : DispatchAction P D → Option (Dispatching P D)
  | .alloc p =>
    let ret := agcEventAllocSource s.toDispatch
    some { s with
      toDispatch := ret.1
      sources := Function.update s.sources p ret.2
      issued := s.issued ++ [ret.2] }
  | .adopt p source => some { s with sources := Function.update s.sources p source }
  | .fire p id r =>
    let e : Fired := ⟨id, s.sources p⟩
    if ∃ i, .pushed e i ∈ s.log then none
    else (agcEventFire s.toDispatch e r).map fun d =>
      { s with toDispatch := d, log := s.log ++ [.pushed e (queueIndex e r)] }
  | .pop i => (dispatchPop s.toDispatch i).map fun ret =>
      { s with toDispatch := ret.1, log := s.log ++ [.started ret.2 i] }
  | .finish i => (dispatchFinish s.toDispatch i).map fun ret =>
      { s with toDispatch := ret.1, log := s.log ++ [.finished ret.2 i] }

/-- A run: any sequence of enabled steps. -/
def dispatchRun (s : Dispatching P D) (acts : List (DispatchAction P D)) :
    Option (Dispatching P D) :=
  acts.foldlM dispatchStep s

end Steps

namespace Dispatching

variable {P : Type} {D : ℕ} {s s' : Dispatching P D} {e : Fired} {i : Fin D}

/-- The events pushed into the queue `i`, in order. -/
def pushes (i : Fin D) (log : List (DispatchLabel D)) : List Fired :=
  log.filterMap fun
    | .pushed e j => if j = i then some e else none
    | _ => none

/-- The events whose delivery the thread `i` started, in order. -/
def starts (i : Fin D) (log : List (DispatchLabel D)) : List Fired :=
  log.filterMap fun
    | .started e j => if j = i then some e else none
    | _ => none

/-- The events whose delivery the thread `i` finished, in order. -/
def finishes (i : Fin D) (log : List (DispatchLabel D)) : List Fired :=
  log.filterMap fun
    | .finished e j => if j = i then some e else none
    | _ => none

section Snoc

open DispatchLabel

variable (log : List (DispatchLabel D)) (e : Fired) (i j : Fin D)

@[simp] theorem pushes_pushed :
    pushes i (log ++ [pushed e j]) = pushes i log ++ if j = i then [e] else [] := by
  by_cases h : j = i <;> simp [pushes, h]

@[simp] theorem pushes_started : pushes i (log ++ [started e j]) = pushes i log := by
  simp [pushes]

@[simp] theorem pushes_finished : pushes i (log ++ [finished e j]) = pushes i log := by
  simp [pushes]

@[simp] theorem starts_pushed : starts i (log ++ [pushed e j]) = starts i log := by
  simp [starts]

@[simp] theorem starts_started :
    starts i (log ++ [started e j]) = starts i log ++ if j = i then [e] else [] := by
  by_cases h : j = i <;> simp [starts, h]

@[simp] theorem starts_finished : starts i (log ++ [finished e j]) = starts i log := by
  simp [starts]

@[simp] theorem finishes_pushed : finishes i (log ++ [pushed e j]) = finishes i log := by
  simp [finishes]

@[simp] theorem finishes_started : finishes i (log ++ [started e j]) = finishes i log := by
  simp [finishes]

@[simp] theorem finishes_finished :
    finishes i (log ++ [finished e j]) = finishes i log ++ if j = i then [e] else [] := by
  by_cases h : j = i <;> simp [finishes, h]

end Snoc

theorem count_pushes (log : List (DispatchLabel D)) (e : Fired) (i : Fin D) :
    (pushes i log).count e = log.count (.pushed e i) := by
  induction log using List.reverseRecOn with
  | nil => rfl
  | append_singleton log l ih =>
    cases l with
    | pushed e' j =>
      rw [pushes_pushed, List.count_append, List.count_append, ih]
      by_cases hj : j = i
      · by_cases he : e' = e <;> simp [hj, he]
      · simp [hj]
    | started e' j => simpa using ih
    | finished e' j => simpa using ih

theorem count_finishes (log : List (DispatchLabel D)) (e : Fired) (i : Fin D) :
    (finishes i log).count e = log.count (.finished e i) := by
  induction log using List.reverseRecOn with
  | nil => rfl
  | append_singleton log l ih =>
    cases l with
    | finished e' j =>
      rw [finishes_finished, List.count_append, List.count_append, ih]
      by_cases hj : j = i
      · by_cases he : e' = e <;> simp [hj, he]
      · simp [hj]
    | pushed e' j => simpa using ih
    | started e' j => simpa using ih

/-- In how many places the event is: in queues, in delivery, or delivered. -/
def places (s : Dispatching P D) (e : Fired) : ℕ :=
  ∑ i, ((s.queues i).count e + (s.delivering i).toList.count e + s.log.count (.finished e i))

/-- What the queues, the threads and the log have in common. -/
structure Inv [NeZero D] (s : Dispatching P D) : Prop where
  sourceId_ne : s.sourceId ≠ uint32Max
  issued_ne : ∀ x ∈ s.issued, x ≠ 0
  /-- A queue holds what was pushed into it and not yet started, in order. -/
  fifo : ∀ i, pushes i s.log = starts i s.log ++ s.queues i
  /-- A thread has finished what it started, up to the event it is delivering. -/
  serial : ∀ i, starts i s.log = finishes i s.log ++ (s.delivering i).toList
  /-- No event instance is pushed twice. -/
  once : ∀ e i, .pushed e i ∈ s.log → ∑ j, s.log.count (.pushed e j) = 1
  /-- An event with a source is in the queue of its source. -/
  routed : ∀ e i, .pushed e i ∈ s.log → e.source ≠ 0 → i = Fin.ofNat D e.source.toNat
  /-- When a delivery starts, everything pushed before it into that queue is delivered. -/
  ordered : Throughout (fun p l => ∀ e i, l = .started e i →
    ∃ post, pushes i p = finishes i p ++ e :: post) s.log

theorem inv_init [NeZero D] : (dispatchStart P D).Inv where
  sourceId_ne := by
    show (0 : UInt32) ≠ uint32Max
    decide
  issued_ne := by simp [dispatchStart]
  fifo _ := rfl
  serial _ := rfl
  once := by simp [dispatchStart]
  routed := by simp [dispatchStart]
  ordered := throughout_nil

section Step

variable [NeZero D]

/-- The id that an allocation returns is not that of no source. -/
theorem Inv.allocSource_ne (h : s.Inv) : (agcEventAllocSource s.toDispatch).2 ≠ 0 := by
  intro h0
  apply h.sourceId_ne
  have hnat := congrArg UInt32.toNat h0
  have hlt := s.sourceId.toNat_lt
  simp only [agcEventAllocSource] at hnat
  rw [UInt32.toNat_add] at hnat
  apply UInt32.toNat_inj.mp
  simp only [uint32Max, UInt32.reduceToNat] at hnat ⊢
  omega

variable [DecidableEq P]

theorem Inv.alloc {p : P} (h : s.Inv) (hs : dispatchStep s (.alloc p) = some s') : s'.Inv := by
  obtain rfl := Option.some.inj hs
  refine { h with sourceId_ne := ?_, issued_ne := ?_ }
  · simp only [agcEventAllocSource]
    split
    · decide
    · assumption
  · intro x hx
    rcases List.mem_append.mp hx with hx | hx
    · exact h.issued_ne x hx
    · rw [List.mem_singleton.mp hx]
      exact h.allocSource_ne

/-- What a push leaves, and the queue it goes to. -/
theorem fire_cases {p : P} {n : ℕ} {r : Fin D}
    (hs : dispatchStep s (.fire p n r) = some s') :
    (¬ ∃ i, .pushed ⟨n, s.sources p⟩ i ∈ s.log) ∧
      s' = { s with
        queues := Function.update s.queues (queueIndex ⟨n, s.sources p⟩ r)
          (s.queues (queueIndex ⟨n, s.sources p⟩ r) ++ [⟨n, s.sources p⟩])
        log := s.log ++ [.pushed ⟨n, s.sources p⟩ (queueIndex ⟨n, s.sources p⟩ r)] } := by
  simp only [dispatchStep] at hs
  split at hs
  case isTrue => cases hs
  case isFalse hfresh =>
    obtain ⟨d, hd, rfl⟩ := Option.map_eq_some_iff.mp hs
    simp only [agcEventFire] at hd
    split at hd
    case isFalse => cases hd
    obtain rfl := Option.some.inj hd
    exact ⟨hfresh, rfl⟩

theorem Inv.fire {p : P} {n : ℕ} {r : Fin D} (h : s.Inv)
    (hs : dispatchStep s (.fire p n r) = some s') : s'.Inv := by
  obtain ⟨hfresh, rfl⟩ := fire_cases hs
  set e : Fired := ⟨n, s.sources p⟩
  set i := queueIndex e r with hi
  -- an event is fired once, so it was in no queue
  have hcount : ∀ j, s.log.count (.pushed e j) = 0 := fun j =>
    List.count_eq_zero.mpr fun hm => hfresh ⟨j, hm⟩
  refine { h with fifo := ?_, serial := ?_, once := ?_, routed := ?_, ordered := ?_ }
  · intro j
    by_cases hj : i = j
    · subst hj
      simp [h.fifo]
    · simp [h.fifo, hj, Function.update_of_ne (Ne.symm hj)]
  · intro j
    simpa using h.serial j
  · intro e' j hm
    by_cases he : e' = e
    · subst he
      simp [List.count_append, hcount, List.count_singleton]
    · have hm' : .pushed e' j ∈ s.log := by simpa [he] using hm
      have hsame : ∀ k, (s.log ++ [DispatchLabel.pushed e i]).count (DispatchLabel.pushed e' k) =
          s.log.count (.pushed e' k) := by
        intro k
        rw [List.count_append, List.count_singleton]
        simp [Ne.symm he]
      simp only [hsame]
      exact h.once e' j hm'
  · intro e' j hm hsrc
    rcases List.mem_append.mp hm with hm | hm
    · exact h.routed e' j hm hsrc
    · obtain ⟨rfl, rfl⟩ := DispatchLabel.pushed.inj (List.mem_singleton.mp hm)
      rw [hi, queueIndex, if_pos hsrc]
  · refine throughout_snoc.mpr ⟨h.ordered, ?_⟩
    rintro e' j ⟨⟩

theorem Inv.pop (h : s.Inv) (hs : dispatchStep s (.pop i) = some s') : s'.Inv := by
  obtain ⟨ret, hret, rfl⟩ := Option.map_eq_some_iff.mp hs
  rw [dispatchPop] at hret
  split at hret
  case h_2 => cases hret
  rename_i e rest hd hq
  obtain rfl := Option.some.inj hret
  refine { h with fifo := ?_, serial := ?_, once := ?_, routed := ?_, ordered := ?_ }
  · intro j
    by_cases hj : i = j
    · subst hj
      simp [h.fifo, hq]
    · simp [h.fifo, hj, Function.update_of_ne (Ne.symm hj)]
  · intro j
    by_cases hj : i = j
    · subst hj
      simp [h.serial, hd]
    · simp [h.serial, hj, Function.update_of_ne (Ne.symm hj)]
  · intro e' j hm
    have hm' : .pushed e' j ∈ s.log := by simpa using hm
    simpa [List.count_append] using h.once e' j hm'
  · intro e' j hm hsrc
    exact h.routed e' j (by simpa using hm) hsrc
  · refine throughout_snoc.mpr ⟨h.ordered, ?_⟩
    rintro e' j he
    obtain ⟨rfl, rfl⟩ := DispatchLabel.started.inj he
    -- the thread was free, so it has finished all it started
    refine ⟨rest, ?_⟩
    rw [h.fifo, h.serial, hd, hq]
    simp

theorem Inv.finish (h : s.Inv) (hs : dispatchStep s (.finish i) = some s') : s'.Inv := by
  obtain ⟨ret, hret, rfl⟩ := Option.map_eq_some_iff.mp hs
  rw [dispatchFinish] at hret
  split at hret
  case h_2 => cases hret
  rename_i e hd
  obtain rfl := Option.some.inj hret
  refine { h with fifo := ?_, serial := ?_, once := ?_, routed := ?_, ordered := ?_ }
  · intro j
    simpa using h.fifo j
  · intro j
    by_cases hj : i = j
    · subst hj
      simp [h.serial, hd]
    · simp [h.serial, hj, Function.update_of_ne (Ne.symm hj)]
  · intro e' j hm
    have hm' : .pushed e' j ∈ s.log := by simpa using hm
    simpa [List.count_append] using h.once e' j hm'
  · intro e' j hm hsrc
    exact h.routed e' j (by simpa using hm) hsrc
  · refine throughout_snoc.mpr ⟨h.ordered, ?_⟩
    rintro e' j ⟨⟩

/-- The step lemma: every step of a producer or of a thread keeps the invariant. -/
theorem Inv.step {a : DispatchAction P D} (h : s.Inv) (hs : dispatchStep s a = some s') :
    s'.Inv := by
  cases a with
  | alloc p => exact h.alloc hs
  | adopt p source =>
    obtain rfl := Option.some.inj hs
    exact { h with }
  | fire p n r => exact h.fire hs
  | pop i => exact h.pop hs
  | finish i => exact h.finish hs

/-- The run lemma. -/
theorem Inv.run {acts : List (DispatchAction P D)} (h : s.Inv) (hs : dispatchRun s acts = some s') :
    s'.Inv := by
  induction acts generalizing s with
  | nil =>
    obtain rfl := Option.some.inj hs
    exact h
  | cons a acts ih =>
    rw [dispatchRun, List.foldlM_cons] at hs
    obtain ⟨s₁, hs₁, hs₂⟩ := Option.bind_eq_some_iff.mp hs
    exact ih (h.step hs₁) hs₂

end Step

/-! ## Order and exactly-once delivery -/

/-- One label stands before another in the log. -/
def Precedes (x y : DispatchLabel D) (log : List (DispatchLabel D)) : Prop :=
  ∃ a b c, log = a ++ x :: b ++ y :: c

theorem nodup_pushes [NeZero D] (h : s.Inv) (i : Fin D) : (pushes i s.log).Nodup := by
  rw [List.nodup_iff_count_le_one]
  intro e
  rw [count_pushes]
  by_cases hm : .pushed e i ∈ s.log
  · rw [← h.once e i hm]
    exact Finset.single_le_sum (f := fun j => s.log.count (.pushed e j)) (fun _ _ => Nat.zero_le _)
      (Finset.mem_univ i)
  · rw [List.count_eq_zero.mpr hm]
    exact Nat.zero_le 1

theorem mem_pushes {log : List (DispatchLabel D)} : e ∈ pushes i log ↔ .pushed e i ∈ log := by
  rw [← List.count_pos_iff, count_pushes, List.count_pos_iff]

theorem mem_finishes {log : List (DispatchLabel D)} : e ∈ finishes i log ↔ .finished e i ∈ log := by
  rw [← List.count_pos_iff, count_finishes, List.count_pos_iff]

theorem pushes_append (i : Fin D) (log log' : List (DispatchLabel D)) :
    pushes i (log ++ log') = pushes i log ++ pushes i log' :=
  List.filterMap_append

/-- A fired event is in exactly one place. -/
theorem Inv.places_eq_one [NeZero D] (h : s.Inv) (hm : .pushed e i ∈ s.log) : s.places e = 1 := by
  rw [← h.once e i hm, places]
  refine Finset.sum_congr rfl fun j _ => ?_
  rw [← count_pushes, h.fifo, h.serial, List.count_append, List.count_append, count_finishes]
  omega

/-- What is pushed first into a queue is delivered before the next delivery starts. -/
theorem Inv.finished_of_precedes [NeZero D] {e₁ e₂ : Fired} {p q : List (DispatchLabel D)}
    (h : s.Inv) (hlog : s.log = p ++ .started e₂ i :: q)
    (hpre : Precedes (.pushed e₁ i) (.pushed e₂ i) s.log) : .finished e₁ i ∈ p := by
  obtain ⟨post, hpost⟩ := h.ordered p (.started e₂ i) q hlog e₂ i rfl
  obtain ⟨a, b, c, habc⟩ := hpre
  -- both splits of the queue's pushes are at `e₂`, which occurs in them once
  have hsplit : pushes i s.log = (pushes i a ++ e₁ :: pushes i b) ++ e₂ :: pushes i c := by
    rw [habc]
    simp [pushes, List.filterMap_append]
  have hsplit' : pushes i s.log =
      finishes i p ++ e₂ :: (post ++ pushes i (.started e₂ i :: q)) := by
    rw [hlog, pushes_append, hpost]
    simp
  have hnd := nodup_pushes h i
  rw [hsplit] at hnd
  obtain ⟨hl, hr⟩ := not_or.mp fun hm =>
    (List.nodup_middle.mp hnd).notMem (List.mem_append.mpr hm)
  obtain ⟨hfin, -, -⟩ := (List.append_cons_inj_of_notMem hl hr).mp (hsplit.symm.trans hsplit')
  rw [← mem_finishes, ← hfin]
  simp

/-- A producer that was given a source id fires with it, into the queue of that id. -/
theorem Inv.fire_of_alloc [DecidableEq P] [NeZero D] {p : P} {n : ℕ} {r : Fin D}
    {s₁ s₂ : Dispatching P D} (h : s.Inv) (halloc : dispatchStep s (.alloc p) = some s₁)
    (hfire : dispatchStep s₁ (.fire p n r) = some s₂) :
    s₂.log = s.log ++ [.pushed ⟨n, (agcEventAllocSource s.toDispatch).2⟩
      (Fin.ofNat D (agcEventAllocSource s.toDispatch).2.toNat)] := by
  obtain ⟨-, rfl⟩ := fire_cases hfire
  obtain rfl := Option.some.inj halloc
  simp [queueIndex, h.allocSource_ne]

/-- Events of one source are delivered one after the other, as they were pushed. -/
theorem Inv.finished_precedes [NeZero D] {e₁ e₂ : Fired} {i₁ i₂ j : Fin D} (h : s.Inv)
    (hsrc : e₁.source = e₂.source) (hne₁ : e₁.source ≠ 0)
    (hpre : Precedes (.pushed e₁ i₁) (.pushed e₂ i₂) s.log) (hst : .started e₂ j ∈ s.log) :
    i₁ = j ∧ Precedes (.finished e₁ j) (.started e₂ j) s.log := by
  have hne₂ : e₂.source ≠ 0 := hsrc ▸ hne₁
  obtain ⟨a, b, c, habc⟩ := id hpre
  obtain ⟨p, q, hlog⟩ := List.append_of_mem hst
  -- the started event was pushed into the same queue
  obtain ⟨post, hpost⟩ := h.ordered p (.started e₂ j) q hlog e₂ j rfl
  have hm₂ : .pushed e₂ j ∈ s.log := by
    rw [hlog]
    refine List.mem_append_left _ (mem_pushes.mp ?_)
    rw [hpost]
    simp
  have hi₁ : i₁ = Fin.ofNat D e₁.source.toNat := h.routed e₁ i₁ (by rw [habc]; simp) hne₁
  have hi₂ : i₂ = Fin.ofNat D e₂.source.toNat := h.routed e₂ i₂ (by rw [habc]; simp) hne₂
  have hj : j = Fin.ofNat D e₂.source.toNat := h.routed e₂ j hm₂ hne₂
  obtain rfl : i₁ = j := by rw [hi₁, hj, hsrc]
  obtain rfl : i₂ = i₁ := by rw [hi₁, hi₂, hsrc]
  refine ⟨rfl, ?_⟩
  obtain ⟨p₁, p₂, rfl⟩ := List.append_of_mem (h.finished_of_precedes hlog hpre)
  exact ⟨p₁, p₂, q, hlog⟩

/-- **Per-source order.** In every interleaving of any producers and the threads of `D` queues: no
id that `agc_event_alloc_source` returned is the null source, and the producer that asked for it
fires its event with it, into the queue of that id. For two events with the same returned id,
whichever producers fired them: if the first was pushed before the second and the delivery of the
second has started, then the delivery of the first finished before that, in the same thread. And
every fired event is in exactly one place: in one queue, in delivery by one thread, or delivered
once. -/
theorem per_source_order [DecidableEq P] [NeZero D] {acts : List (DispatchAction P D)}
    (hrun : dispatchRun (dispatchStart P D) acts = some s) :
    (∀ source ∈ s.issued, source ≠ 0) ∧
    (∀ p n r s₁ s₂, dispatchStep s (.alloc p) = some s₁ →
      dispatchStep s₁ (.fire p n r) = some s₂ →
      let source := (agcEventAllocSource s.toDispatch).2
      source ≠ 0 ∧ source ∈ s₂.issued ∧
        s₂.log = s.log ++ [.pushed ⟨n, source⟩ (Fin.ofNat D source.toNat)]) ∧
    (∀ e₁ e₂ i₁ i₂ j, e₁.source = e₂.source → e₁.source ∈ s.issued →
      Precedes (.pushed e₁ i₁) (.pushed e₂ i₂) s.log → .started e₂ j ∈ s.log →
      i₁ = j ∧ Precedes (.finished e₁ j) (.started e₂ j) s.log) ∧
    ∀ e i, .pushed e i ∈ s.log → s.places e = 1 := by
  have h : s.Inv := inv_init.run hrun
  refine ⟨h.issued_ne, ?_, ?_, fun e i hm => h.places_eq_one hm⟩
  · intro p n r s₁ s₂ halloc hfire source
    refine ⟨h.allocSource_ne, ?_, h.fire_of_alloc halloc hfire⟩
    obtain ⟨-, rfl⟩ := fire_cases hfire
    obtain rfl := Option.some.inj halloc
    simp [source]
  · intro e₁ e₂ i₁ i₂ j hsrc hiss hpre hst
    exact h.finished_precedes hsrc (h.issued_ne _ hiss) hpre hst

/-- Two producers are given the ids 1 and 2 and fire with them, the third one fires with the id of
the first; the two events of that id go through the queue 1 in turn. -/
theorem per_source_order_two :
    ∃ s, dispatchRun (dispatchStart (Fin 3) 2)
        [.alloc 0, .alloc 1, .adopt 2 1, .fire 0 0 0, .fire 1 1 0, .fire 2 2 0,
          .pop 1, .pop 0, .finish 1, .pop 1] = some s ∧
      s.issued = [1, 2] ∧
      .pushed ⟨0, 1⟩ 1 ∈ s.log ∧ .pushed ⟨1, 2⟩ 0 ∈ s.log ∧
      Precedes (.finished ⟨0, 1⟩ 1) (.started ⟨2, 1⟩ 1) s.log ∧
      ∀ e i, .pushed e i ∈ s.log → s.places e = 1 := by
  obtain ⟨s, hs⟩ := Option.isSome_iff_exists.mp (show (dispatchRun (dispatchStart (Fin 3) 2)
    [.alloc 0, .alloc 1, .adopt 2 1, .fire 0 0 0, .fire 1 1 0, .fire 2 2 0,
      .pop 1, .pop 0, .finish 1, .pop 1]).isSome = true by decide)
  have hissued : s.issued = [1, 2] := by
    obtain rfl := Option.some.inj (hs.symm.trans rfl)
    rfl
  have hlog : s.log = [.pushed ⟨0, 1⟩ 1, .pushed ⟨1, 2⟩ 0, .pushed ⟨2, 1⟩ 1, .started ⟨0, 1⟩ 1,
      .started ⟨1, 2⟩ 0, .finished ⟨0, 1⟩ 1, .started ⟨2, 1⟩ 1] := by
    obtain rfl := Option.some.inj (hs.symm.trans rfl)
    rfl
  obtain ⟨-, -, horder, hplaces⟩ := per_source_order hs
  refine ⟨s, hs, hissued, by simp [hlog], by simp [hlog], ?_, hplaces⟩
  refine (horder ⟨0, 1⟩ ⟨2, 1⟩ 1 1 1 rfl (by simp [hissued]) ?_ (by simp [hlog])).2
  rw [hlog]
  exact ⟨[], [.pushed ⟨1, 2⟩ 0], _, rfl⟩

end Dispatching
