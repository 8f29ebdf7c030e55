import AgcFramework.Event.Bind

/-!
# Delivering an event

A dispatch thread that took an event out of its queue calls the event's own callback, or the
callbacks of the nodes bound to the event's id and to `EVENT_ID_ALL`, and then gives the event
back. What it does is a list of effects. The two lists that it walks are one list when the id is
`EVENT_ID_ALL` itself, and then every node is called twice.

## Main definitions

* `agcEventDeliver`: the function of `agc_event.c`
* `Deliverable.Delivered t e effects`: each callback is called once, and the event given back once

## Main results

* `Deliverable.notifyNodes_spec`: a walk calls the nodes of its list in order
* `Deliverable.deliver_exactly_once_iff`: when an event is delivered exactly once
-/

open Exec Chain

/-- The fields of `agc_event_t` that its delivery reads. -/
structure Deliverable where
  /-- The address of the event. -/
  ptr : ℕ
  eventId : ℤ
  callBack : Option Callback
  context : ℕ
  /-- The type of a fast event; a null pointer for an event of the heap. -/
  fast : Option ℕ

/-- What a delivery does. -/
inductive DeliverEffect
  /-- A callback is called with an argument, by the node if it is that of a node. -/
  | call (node : Option Addr) (callback : Callback) (data : ℕ)
  /-- The event is pushed into the free queue of its type. -/
  | fastRelease (type : ℕ) (event : ℕ)
  /-- The event is passed to `agc_event_destroy`. -/
  | destroy (event : ℕ)
  deriving DecidableEq

/-- The loops of `agc_event_deliver` over a list of nodes. -/
def notifyNodes (t : EventNodes) (data : ℕ) : ℕ → Option Addr → Exec (List DeliverEffect)
  | 0, _ => .error .fuel
  | _ + 1, none => pure []
  | fuel + 1, some node => do
    let c ← t.load node
    let effects ← notifyNodes t data fuel c.next
    pure (.call (some node) c.callback data :: effects)

/-- The end of `agc_event_deliver`. -/
def giveBack (e : Deliverable) : DeliverEffect :=
  match e.fast with
  | some type => .fastRelease type e.ptr
  | none => .destroy e.ptr

/-- The calls of `agc_event_deliver`. -/
def deliverCalls (fuel : ℕ) (t : EventNodes) (e : Deliverable) : Exec (List DeliverEffect) :=
  match e.callBack with
  | some callback => pure [.call none callback e.context]
  | none => do
    let own ← notifyNodes t e.ptr fuel (← t.head e.eventId)
    let all ← notifyNodes t e.ptr fuel (← t.head EVENT_ID_ALL)
    pure (own ++ all)

/-- `agc_event_deliver`, while `SYSTEM_RUNNING` is `running`. It holds the lock of the table for
reading, so that the callbacks cannot change it. -/
def agcEventDeliver (fuel : ℕ) (running : Bool) (t : EventNodes) (e : Deliverable) :
    Exec (EventNodes × List DeliverEffect) := do
  let calls ← if running then deliverCalls fuel t e else pure []
  pure (t, calls ++ [giveBack e])

namespace Deliverable

variable {t : EventNodes} {e : Deliverable} {cs ds : List EventNodes.Cell}

/-- The call of a node. -/
def callOf (e : Deliverable) (x : EventNodes.Cell) : DeliverEffect :=
  .call (some x.1) x.2.callback e.ptr

theorem notifyNodes_spec {p : Option Addr} (h : Segment EventNode.next t.mem p cs none) :
    Returns (fun fuel => notifyNodes t e.ptr fuel p) (cs.map e.callOf) := by
  induction cs generalizing p with
  | nil =>
    obtain rfl : p = none := h
    exact (Returns.const []).succ fun k => rfl
  | cons x cs ih =>
    obtain ⟨a, c⟩ := x
    obtain ⟨rfl, hm, hcs⟩ := h
    refine ((ih hcs).bind (g := fun _ effects => .ok (e.callOf (a, c) :: effects))
      (Returns.const _)).succ fun k => ?_
    simp only [notifyNodes, EventNodes.load_eq hm, ok_bind]
    rfl

/-- The effects are those of a delivery: the event's own callback is called once with its context,
or else each node that is bound to its id or to `EVENT_ID_ALL` is called once with the event; and
then the event is given back once. -/
def Delivered (t : EventNodes) (e : Deliverable) (effects : List DeliverEffect) : Prop :=
  ∃ calls, effects = calls ++ [giveBack e] ∧
    match e.callBack with
    | some callback => calls = [.call none callback e.context]
    | none => ∃ cs ds, t.Chained e.eventId.toNat cs ∧ t.Chained EVENT_ID_ALL.toNat ds ∧
        calls.Nodup ∧ ∀ c, c ∈ calls ↔ ∃ x, (x ∈ cs ∨ x ∈ ds) ∧ c = e.callOf x

/-- The effects of a delivery to subscribers. -/
theorem deliver_returns (hcb : e.callBack = none)
    (hid : 0 ≤ e.eventId ∧ e.eventId < EVENT_ID_LIMIT)
    (hcs : t.Chained e.eventId.toNat cs) (hds : t.Chained EVENT_ID_ALL.toNat ds) :
    Returns (fun fuel => agcEventDeliver fuel true t e)
      (t, (cs.map e.callOf ++ ds.map e.callOf) ++ [giveBack e]) := by
  have hhead : t.head e.eventId = .ok (t.heads e.eventId.toNat) := by
    rw [EventNodes.head, eventIndex, if_pos hid]
    rfl
  have hall : t.head EVENT_ID_ALL = .ok (t.heads EVENT_ID_ALL.toNat) := rfl
  -- the two walks, with enough fuel for both
  obtain ⟨n, hn⟩ := notifyNodes_spec (e := e) hcs.chain
  obtain ⟨m, hm⟩ := notifyNodes_spec (e := e) hds.chain
  refine ⟨max n m, fun k hk => ?_⟩
  have hnk := hn k (le_trans (Nat.le_max_left n m) hk)
  have hmk := hm k (le_trans (Nat.le_max_right n m) hk)
  simp only [agcEventDeliver, deliverCalls, hcb, hhead, hall, ok_bind, hnk, hmk, if_true,
    pure_eq_ok]

/-- The node that a call is made for. -/
def calledNode : DeliverEffect → Option Addr
  | .call node _ _ => node
  | .fastRelease _ _ | .destroy _ => none

/-- The callbacks of different nodes are different calls. -/
theorem nodup_calls (h : (cs.map Prod.fst).Nodup) : (cs.map e.callOf).Nodup := by
  have hnode : (cs.map e.callOf).map calledNode = (cs.map Prod.fst).map some := by
    rw [List.map_map, List.map_map]
    rfl
  refine List.Nodup.of_map calledNode ?_
  rw [hnode]
  exact h.map (Option.some_injective Addr)

/-- The nodes of two lists are called once each when they are different nodes. -/
theorem delivered_of_nodup (hcb : e.callBack = none) (hcs : t.Chained e.eventId.toNat cs)
    (hds : t.Chained EVENT_ID_ALL.toNat ds) (hnd : ((cs ++ ds).map Prod.fst).Nodup) :
    Delivered t e ((cs.map e.callOf ++ ds.map e.callOf) ++ [giveBack e]) := by
  refine ⟨_, rfl, ?_⟩
  rw [hcb]
  refine ⟨cs, ds, hcs, hds, ?_, fun c => ?_⟩
  · rw [← List.map_append]
    exact nodup_calls hnd
  · rw [← List.map_append, List.mem_map]
    constructor
    · rintro ⟨x, hx, rfl⟩
      exact ⟨x, List.mem_append.mp hx, rfl⟩
    · rintro ⟨x, hx, rfl⟩
      exact ⟨x, List.mem_append.mpr hx, rfl⟩

/-- A node that is in both lists is called twice. -/
theorem not_delivered_of_twice (hcb : e.callBack = none) {x : EventNodes.Cell} (hcs : x ∈ cs)
    (hds : x ∈ ds) :
    ¬ Delivered t e ((cs.map e.callOf ++ ds.map e.callOf) ++ [giveBack e]) := by
  rintro ⟨calls, heq, h⟩
  rw [hcb] at h
  obtain ⟨-, -, -, -, hnd, -⟩ := h
  -- the calls are determined by the effects, and the node is among them twice
  rw [← List.append_cancel_right heq] at hnd
  obtain ⟨-, -, hdisj⟩ := List.nodup_append.mp hnd
  exact hdisj _ (List.mem_map_of_mem hcs) _ (List.mem_map_of_mem hds) rfl

/-- The event's own callback is called, and no other. -/
theorem delivered_callBack {callback : Callback} (hcb : e.callBack = some callback) :
    ∃ effects, Returns (fun fuel => agcEventDeliver fuel true t e) (t, effects) ∧
      Delivered t e effects := by
  refine ⟨[.call none callback e.context] ++ [giveBack e], ?_, _, rfl, ?_⟩
  · refine (Returns.const _).congr fun k => ?_
    simp only [agcEventDeliver, deliverCalls, hcb, if_true, pure_eq_ok, ok_bind]
  · rw [hcb]

/-- **Exactly-once delivery**, for every table that calls lead to and every event with an id of the
table: it holds unless the event has the id `EVENT_ID_ALL`, no callback of its own, and something is
bound to that id. -/
theorem deliver_exactly_once_iff (ht : EventNodes.Reachable t)
    (hid : 0 ≤ e.eventId ∧ e.eventId < EVENT_ID_LIMIT) :
    (∃ effects, Returns (fun fuel => agcEventDeliver fuel true t e) (t, effects) ∧
      Delivered t e effects) ↔
      e.callBack ≠ none ∨ e.eventId ≠ EVENT_ID_ALL ∨ t.heads EVENT_ID_ALL.toNat = none := by
  obtain ⟨b, hb⟩ := ht.holds
  cases hcb : e.callBack with
  | some callback => exact iff_of_true (delivered_callBack hcb) (Or.inl (by simp))
  | none =>
    have hi : e.eventId.toNat < EVENT_ID_LIMIT.toNat := by omega
    have h0 : EVENT_ID_ALL.toNat < EVENT_ID_LIMIT.toNat := by decide
    obtain ⟨cs, hcs, hcsb⟩ := hb.lists _ hi
    obtain ⟨ds, hds, hdsb⟩ := hb.lists _ h0
    have hret := deliver_returns hcb hid hcs hds
    constructor
    · rintro ⟨effects, hret', hdel⟩
      obtain rfl : effects = _ := congrArg Prod.snd (hret'.unique hret)
      by_contra hcon
      simp only [ne_eq, not_true_eq_false, false_or, not_or, not_not] at hcon
      obtain ⟨hall, hhead⟩ := hcon
      -- both lists are that of `EVENT_ID_ALL`, which has a node
      obtain rfl : cs = ds := by
        rw [hall] at hcs
        exact hcs.chain.unique hds.chain
      cases cs with
      | nil => exact hhead hds.chain
      | cons x cs =>
        exact not_delivered_of_twice hcb List.mem_cons_self List.mem_cons_self hdel
    · intro hcond
      refine ⟨_, hret, delivered_of_nodup hcb hcs hds ?_⟩
      rw [List.map_append]
      rcases hcond with hcond | hne | hhead
      · exact absurd rfl hcond
      · -- a node is bound to one id
        refine List.nodup_append.mpr ⟨hcs.nodup, hds.nodup, fun a ha c hc hac => ?_⟩
        have hne : e.eventId.toNat ≠ EVENT_ID_ALL.toNat := by
          unfold EVENT_ID_ALL at hne ⊢
          omega
        rw [← EventNodes.map_fst_eq hcsb] at ha
        rw [← EventNodes.map_fst_eq hdsb] at hc
        obtain ⟨x, hx, rfl⟩ := List.mem_map.mp ha
        obtain ⟨y, hy, rfl⟩ := List.mem_map.mp hc
        exact hb.node_ne hi h0 hne hx hy hac
      · obtain rfl : ds = [] := by
          have hchain := hds.chain
          rw [hhead] at hchain
          exact hchain.unique rfl
        rw [List.map_nil, List.append_nil]
        exact hcs.nodup

/-- A table with one node for the id `i`. -/
def oneBound (i : ℕ) : EventNodes :=
  ⟨Function.update (fun _ => none) i (some 0),
    Function.update (fun _ => none) 0 (some ⟨CStr.ofString "a", i, 5, none⟩), 1⟩

theorem reachable_oneBound {i : ℕ} (hi : i < EVENT_ID_LIMIT.toNat) :
    EventNodes.Reachable (oneBound i) := by
  have hret : Returns (fun fuel => EventNodes.step fuel .initial (.bind (CStr.ofString "a") i 5))
      (oneBound i, .success) := by
    refine (Returns.const _).congr fun k => ?_
    simp only [EventNodes.step, agcEventBind, EventNodes.bindRemovable_eq _ _ _ hi, ok_bind]
    rfl
  exact .step .initial hret

/-- An event with the id `i`, from the heap. -/
def ofId (i : ℤ) : Deliverable := ⟨64, i, none, 0, none⟩

/-- An event with the id 7 is delivered to the node that is bound to it. -/
theorem deliver_exactly_once_seven :
    ∃ effects, Returns (fun fuel => agcEventDeliver fuel true (oneBound 7) (ofId 7))
        (oneBound 7, effects) ∧ Delivered (oneBound 7) (ofId 7) effects := by
  refine (deliver_exactly_once_iff (reachable_oneBound (by decide)) ?_).mpr (Or.inr (Or.inl ?_))
  · exact ⟨by decide, by decide⟩
  · decide

/-- An event with the id `EVENT_ID_ALL` calls the node that is bound to it twice. -/
theorem deliver_all_twice :
    ¬ ∀ (t : EventNodes) (e : Deliverable), EventNodes.Reachable t →
      (0 ≤ e.eventId ∧ e.eventId < EVENT_ID_LIMIT) →
      ∃ effects, Returns (fun fuel => agcEventDeliver fuel true t e) (t, effects) ∧
        Delivered t e effects := by
  intro hall
  obtain ⟨effects, hret, hdel⟩ := hall (oneBound 0) (ofId 0) (reachable_oneBound (by decide))
    ⟨by decide, by decide⟩
  have hchained : (oneBound 0).Chained EVENT_ID_ALL.toNat
      [(0, ⟨CStr.ofString "a", 0, 5, none⟩)] := ⟨⟨rfl, rfl, rfl⟩, List.nodup_singleton 0⟩
  have hret' := deliver_returns (e := ofId 0) rfl ⟨by decide, by decide⟩ hchained hchained
  obtain rfl : effects = _ := congrArg Prod.snd (hret.unique hret')
  exact not_delivered_of_twice rfl List.mem_cons_self List.mem_cons_self hdel

end Deliverable
