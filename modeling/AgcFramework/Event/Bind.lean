import AgcFramework.Event.Json
import AgcFramework.Lib.Trace

/-!
# The binding table

`EVENT_NODES` holds a linked list of nodes for each event id, the newest first. A node is taken out
by its address or, in every list, by its callback. The removal by callback leaves a list at the
first node that it takes out, so that it keeps the binding table exactly when no list has two nodes
with the callback.

## Main definitions

* `EventNodes`: the table and its nodes in memory
* `agcEventBind`, `agcEventBindRemovable`, `agcEventUnbind`, `agcEventUnbindCallback`: the functions
  of `agc_event.c`
* `Bindings`: what the table is for, the lists of what is bound
* `EventNodes.Holds t b`: the table holds the bindings

## Main results

* `EventNodes.unlinkFirst_spec`: the loop of both removals takes out the first node that it is after
* `EventNodes.Holds.step`: a step, at the bindings it changes
* `EventNodes.binding_table_iff`: the runs in which the table is what was bound and not removed
-/

open Exec Chain Trace

/-- The address of a callback function. -/
abbrev Callback := ℕ

/-- `agc_event_node_t`. -/
structure EventNode where
  id : CStr
  eventId : ℤ
  callback : Callback
  next : Option Addr

/-- `EVENT_NODES`, with the nodes of the program's memory. -/
structure EventNodes where
  /-- The heads of the lists; the array has `EVENT_ID_LIMIT` of them. -/
  heads : ℕ → Option Addr
  /-- The nodes in memory. -/
  mem : Addr → Option EventNode
  /-- The address `malloc` returns next. -/
  brk : Addr

/-- An index into an array of `EVENT_ID_LIMIT` entries. -/
def eventIndex (eventId : ℤ) : Exec ℕ :=
  if 0 ≤ eventId ∧ eventId < EVENT_ID_LIMIT then .ok eventId.toNat else .error .fault

namespace EventNodes

/-- `EVENT_NODES[event_id]`. -/
def head (t : EventNodes) (eventId : ℤ) : Exec (Option Addr) := do
  let i ← eventIndex eventId
  pure (t.heads i)

/-- `EVENT_NODES[event_id] = p`. -/
def setHead (t : EventNodes) (eventId : ℤ) (p : Option Addr) : Exec EventNodes := do
  let i ← eventIndex eventId
  pure { t with heads := Function.update t.heads i p }

/-- A read of the node at `a`. -/
def load (t : EventNodes) (a : Addr) : Exec EventNode :=
  match t.mem a with
  | some c => .ok c
  | none => .error .fault

/-- `node->next = next`. -/
def setNext (t : EventNodes) (a : Addr) (next : Option Addr) : Exec EventNodes := do
  let c ← t.load a
  pure { t with mem := Function.update t.mem a (some { c with next := next }) }

/-- The release of the node at `a`. -/
def free (t : EventNodes) (a : Addr) : EventNodes :=
  { t with mem := Function.update t.mem a none }

/-- `malloc` of a node, which is zeroed and gets its fields. -/
def alloc (t : EventNodes) (id : CStr) (eventId : ℤ) (callback : Callback) : EventNodes × Addr :=
  ({ t with
    mem := Function.update t.mem t.brk (some ⟨id, eventId, callback, none⟩)
    brk := t.brk + 1 }, t.brk)

/-- The removal of a node from its list: the one before it, or the head, gets its link. -/
def unlink (t : EventNodes) (eventId : ℤ) (lnp next : Option Addr) : Exec EventNodes :=
  match lnp with
  | some lnp => t.setNext lnp next
  | none => t.setHead eventId next

end EventNodes

/-- `agc_event_bind_removable`: the table, the status, and the node that `*node` is set to. -/
def agcEventBindRemovable (t : EventNodes) (id : CStr) (eventId : ℤ) (callback : Callback) :
    Exec (EventNodes × AgcStatus × Option Addr) :=
  if EVENT_ID_LIMIT < eventId then pure (t, .generr, none)
  else do
    let (t, node) := t.alloc id eventId callback
    let t ← match ← t.head eventId with
      | some head => t.setNext node (some head)
      | none => pure t
    let t ← t.setHead eventId (some node)
    pure (t, .success, some node)

/-- `agc_event_bind`. -/
def agcEventBind (t : EventNodes) (id : CStr) (eventId : ℤ) (callback : Callback) :
    Exec (EventNodes × AgcStatus) := do
  let (t, status, _) ← agcEventBindRemovable t id eventId callback
  pure (t, status)

/-- The loop of both removals over the list of an event id, which ends at the first node that meets
the test. -/
def unlinkFirst (test : Addr → Callback → Bool) (eventId : ℤ) :
    ℕ → EventNodes → Option Addr → Option Addr → Exec (EventNodes × Bool)
  | 0, _, _, _ => .error .fuel
  | _ + 1, t, _, none => pure (t, false)
  | fuel + 1, t, lnp, some np => do
    let node ← t.load np
    if test np node.callback then do
      let t ← t.unlink eventId lnp node.next
      pure (t.free np, true)
    else unlinkFirst test eventId fuel t (some np) node.next

/-- `agc_event_unbind`: the table, the status, and what `*node` is afterwards. -/
def agcEventUnbind (fuel : ℕ) (t : EventNodes) :
    Option Addr → Exec (EventNodes × AgcStatus × Option Addr)
  | none => pure (t, .generr, none)
  | some node => do
    -- the node is read before it is looked for
    let eventNode ← t.load node
    let np ← t.head eventNode.eventId
    let (t, found) ← unlinkFirst (fun np _ => np = node) eventNode.eventId fuel t none np
    pure (if found then (t, .success, none) else (t, .false, some node))

/-- The body of the loop of `agc_event_unbind_callback` over the event ids. -/
def unbindCallbackAt (fuel : ℕ) (callback : Callback) (s : EventNodes × AgcStatus) (id : ℕ) :
    Exec (EventNodes × AgcStatus) := do
  let np ← s.1.head id
  let (t, found) ← unlinkFirst (fun _ cb => cb = callback) id fuel s.1 none np
  pure (t, if found then .success else s.2)

/-- `agc_event_unbind_callback`. -/
def agcEventUnbindCallback (fuel : ℕ) (t : EventNodes) (callback : Callback) :
    Exec (EventNodes × AgcStatus) :=
  (List.range EVENT_ID_LIMIT.toNat).foldlM (unbindCallbackAt fuel callback) (t, .false)

/-- A call on the binding table. -/
inductive BindOp
  | bind (id : CStr) (eventId : ℤ) (callback : Callback)
  | bindRemovable (id : CStr) (eventId : ℤ) (callback : Callback)
  | unbind (node : Option Addr)
  | unbindCallback (callback : Callback)

namespace EventNodes

/-- The empty table. -/
def initial : EventNodes := ⟨fun _ => none, fun _ => none, 0⟩

/-- One call, with the status that it returns. -/
def step (fuel : ℕ) (t : EventNodes) : BindOp → Exec (EventNodes × AgcStatus)
  | .bind id eventId callback => agcEventBind t id eventId callback
  | .bindRemovable id eventId callback => do
    let (t, status, _) ← agcEventBindRemovable t id eventId callback
    pure (t, status)
  | .unbind node => do
    let (t, status, _) ← agcEventUnbind fuel t node
    pure (t, status)
  | .unbindCallback callback => agcEventUnbindCallback fuel t callback

/-- One call of a run, which collects the statuses. -/
def stepLog (fuel : ℕ) (s : EventNodes × List AgcStatus) (op : BindOp) :
    Exec (EventNodes × List AgcStatus) := do
  let (t, status) ← step fuel s.1 op
  pure (t, s.2 ++ [status])

/-- A sequence of calls on the empty table, with the statuses that they return. -/
def run (fuel : ℕ) (ops : List BindOp) : Exec (EventNodes × List AgcStatus) :=
  ops.foldlM (stepLog fuel) (initial, [])

end EventNodes

/-! ## What is bound -/

/-- A node that is bound. -/
structure Binding where
  node : Addr
  id : CStr
  eventId : ℤ
  callback : Callback

/-- The binding is that of the node. -/
def Binding.isNode (node : Addr) (x : Binding) : Bool := x.node = node

/-- The binding has the callback. -/
def Binding.hasCallback (callback : Callback) (x : Binding) : Bool := x.callback = callback

/-- The nodes that are bound to each event id, the newest first, and the name of the next one. -/
structure Bindings where
  lists : ℕ → List Binding
  next : Addr

namespace Bindings

def initial : Bindings := ⟨fun _ => [], 0⟩

/-- A new node for the event id. -/
def add (b : Bindings) (id : CStr) (eventId : ℤ) (callback : Callback) : Bindings where
  lists := Function.update b.lists eventId.toNat
    (⟨b.next, id, eventId, callback⟩ :: b.lists eventId.toNat)
  next := b.next + 1

/-- The nodes that meet the test are gone, and the others are kept in order. -/
def remove (b : Bindings) (test : Binding → Bool) : Bindings where
  lists := fun i => (b.lists i).filter fun x => !test x
  next := b.next

/-- The status of a removal: success when there is something to remove. -/
def removeStatus (b : Bindings) (test : Binding → Bool) : AgcStatus :=
  if ∃ i < EVENT_ID_LIMIT.toNat, (b.lists i).any test then .success else .false

/-- What a call is to do. -/
def step (b : Bindings) : BindOp → Bindings × AgcStatus
  | .bind id eventId callback | .bindRemovable id eventId callback =>
    (b.add id eventId callback, .success)
  | .unbind none => (b, .generr)
  | .unbind (some node) => (b.remove (Binding.isNode node), b.removeStatus (Binding.isNode node))
  | .unbindCallback callback =>
    (b.remove (Binding.hasCallback callback), b.removeStatus (Binding.hasCallback callback))

/-- What is bound after the calls, and the statuses that they are to return. -/
def run (ops : List BindOp) : Bindings × List AgcStatus :=
  ops.foldl (fun s op => ((s.1.step op).1, s.2 ++ [(s.1.step op).2])) (initial, [])

theorem run_snoc (ops : List BindOp) (op : BindOp) :
    run (ops ++ [op]) = (((run ops).1.step op).1, (run ops).2 ++ [((run ops).1.step op).2]) := by
  simp only [run, List.foldl_append, List.foldl_cons, List.foldl_nil]

/-- The bindings with another list for the event id. -/
def setList (b : Bindings) (i : ℕ) (bs : List Binding) : Bindings :=
  { b with lists := Function.update b.lists i bs }

theorem setList_self (b : Bindings) (i : ℕ) (bs : List Binding) : (b.setList i bs).lists i = bs :=
  Function.update_self ..

theorem setList_of_ne (b : Bindings) {i j : ℕ} (h : j ≠ i) (bs : List Binding) :
    (b.setList i bs).lists j = b.lists j :=
  Function.update_of_ne h _ _

end Bindings

namespace EventNodes

variable {t t' : EventNodes} {b : Bindings} {i : ℕ}

/-- A node with its address. -/
abbrev Cell := Addr × EventNode

/-- What a node binds. -/
def binding (x : Cell) : Binding := ⟨x.1, x.2.id, x.2.eventId, x.2.callback⟩

/-- The test of a removal, on what is bound. -/
def onBinding (test : Addr → Callback → Bool) (x : Binding) : Bool := test x.node x.callback

theorem eventIndex_natCast (hi : i < EVENT_ID_LIMIT.toNat) : eventIndex i = .ok i := by
  have hlt : (i : ℤ) < EVENT_ID_LIMIT := by omega
  exact if_pos ⟨Int.natCast_nonneg i, hlt⟩

theorem head_natCast (hi : i < EVENT_ID_LIMIT.toNat) : t.head i = .ok (t.heads i) := by
  rw [head, eventIndex_natCast hi]
  rfl

theorem setHead_natCast (hi : i < EVENT_ID_LIMIT.toNat) (p : Option Addr) :
    t.setHead i p = .ok { t with heads := Function.update t.heads i p } := by
  rw [setHead, eventIndex_natCast hi]
  rfl

theorem load_eq {a : Addr} {c : EventNode} (hm : t.mem a = some c) : t.load a = .ok c := by
  rw [load, hm]

theorem setNext_eq {a : Addr} {c : EventNode} (hm : t.mem a = some c) (next : Option Addr) :
    t.setNext a next =
      .ok { t with mem := Function.update t.mem a (some { c with next := next }) } := by
  rw [setNext, load_eq hm]
  rfl

/-! ## One list -/

/-- The list of the event id leads through the cells to the end and visits none of them twice. -/
structure Chained (t : EventNodes) (i : ℕ) (cs : List Cell) : Prop where
  chain : Segment EventNode.next t.mem (t.heads i) cs none
  nodup : (cs.map Prod.fst).Nodup

/-- The change from `t` to `t'` is in the list of `i` only: what is left in memory of its cells
`cs` stands in `cs'`. -/
structure Within (t t' : EventNodes) (i : ℕ) (cs cs' : List Cell) : Prop where
  heads : ∀ j, j ≠ i → t'.heads j = t.heads j
  brk : t'.brk = t.brk
  mem : ∀ a, a ∉ cs.map Prod.fst → t'.mem a = t.mem a
  left : ∀ a ∈ cs.map Prod.fst, t'.mem a ≠ none → a ∈ cs'.map Prod.fst

theorem Within.refl (t : EventNodes) (i : ℕ) (cs : List Cell) : Within t t i cs cs where
  heads _ _ := rfl
  brk := rfl
  mem _ _ := rfl
  left _ ha _ := ha

/-- Taking a cell out of the list: its predecessor, or the head, leads past it. -/
theorem Chained.unlink {done rest : List Cell} {a : Addr} {c : EventNode}
    (h : t.Chained i (done ++ (a, c) :: rest)) (hi : i < EVENT_ID_LIMIT.toNat) :
    ∃ t' done', t.unlink i (done.map Prod.fst).getLast? c.next = .ok t' ∧
      (t'.free a).Chained i (done' ++ rest) ∧ done'.map binding = done.map binding ∧
      Within t (t'.free a) i (done ++ (a, c) :: rest) (done' ++ rest) := by
  -- the list has no cell twice, so the write reaches one cell and leaves the others in place
  have hnd : (done.map Prod.fst ++ a :: rest.map Prod.fst).Nodup := by
    have := h.nodup
    rwa [List.map_append, List.map_cons] at this
  obtain ⟨hdone, hcons, hdisj⟩ := List.nodup_append.mp hnd
  obtain ⟨harest, hrest⟩ := List.nodup_cons.mp hcons
  have hadone : a ∉ done.map Prod.fst := fun hm => hdisj a hm a List.mem_cons_self rfl
  rcases List.eq_nil_or_concat' done with rfl | ⟨init, ⟨p, d⟩, rfl⟩
  · -- the cell is the head
    obtain ⟨hhead, -, hseg⟩ := h.chain
    refine ⟨{ t with heads := Function.update t.heads i c.next }, [],
      setHead_natCast hi _, ⟨?_, hrest⟩, rfl, ?_⟩
    · show Segment EventNode.next (Function.update t.mem a none)
        (Function.update t.heads i c.next i) rest none
      rw [Function.update_self]
      exact hseg.update_of_not_mem harest _
    · constructor
      · exact fun j hj => Function.update_of_ne hj _ _
      · rfl
      · intro x hx
        refine Function.update_of_ne (fun hxa => hx ?_) _ _
        rw [hxa]
        exact List.mem_cons_self
      · -- a cell of the list that is gone can only be the one that is freed
        intro x hx hne
        rcases List.mem_cons.mp hx with rfl | hx
        · exact absurd (Function.update_self ..) hne
        · exact hx
  · -- the cell stands behind `p`
    have hlast : ((init ++ [(p, d)]).map Prod.fst).getLast? = some p := by simp
    have hchain := h.chain
    rw [List.append_assoc, List.singleton_append] at hchain
    have hmp : t.mem p = some d := hchain.get (x := (p, d)) (by simp)
    rw [List.map_append, List.map_singleton] at hdone hadone
    obtain ⟨-, -, hpinit⟩ := List.nodup_append.mp hdone
    have hpinit : p ∉ init.map Prod.fst := fun hm => hpinit p hm p List.mem_cons_self rfl
    have hprest : p ∉ rest.map Prod.fst := fun hm =>
      hdisj p (by simp) p (List.mem_cons_of_mem a hm) rfl
    have hap : a ≠ p := fun hap => hadone (hap ▸ List.mem_append_right _ List.mem_cons_self)
    refine ⟨{ t with mem := Function.update t.mem p (some { d with next := c.next }) },
      init ++ [(p, { d with next := c.next })], ?_, ⟨?_, ?_⟩, ?_, ?_⟩
    · rw [hlast]
      exact setNext_eq hmp c.next
    · -- the chain is cut behind `p`, and the cell that is freed is not in it any more
      have hseg := hchain.splice hpinit hprest (rfl : { d with next := c.next }.next = c.next)
      rw [List.append_assoc, List.singleton_append]
      refine hseg.update_of_not_mem ?_ _
      rw [List.map_append, List.map_cons]
      intro hm
      rcases List.mem_append.mp hm with hm | hm
      · exact hadone (List.mem_append_left _ hm)
      · rcases List.mem_cons.mp hm with hm | hm
        · exact hap hm
        · exact harest hm
    · have hmap : (init ++ [(p, { d with next := c.next })] ++ rest).map Prod.fst =
          (init ++ [(p, d)]).map Prod.fst ++ rest.map Prod.fst := by simp
      rw [hmap]
      exact hnd.sublist (List.Sublist.append_left (List.sublist_cons_self a _) _)
    · simp [binding]
    · constructor
      · exact fun j _ => rfl
      · rfl
      · intro x hx
        have hxa : x ≠ a := fun hxa => hx (by simp [hxa])
        have hxp : x ≠ p := fun hxp => hx (by simp [hxp])
        show Function.update (Function.update t.mem p _) a none x = t.mem x
        rw [Function.update_of_ne hxa, Function.update_of_ne hxp]
      · intro x hx hne
        by_cases hxa : x = a
        · rw [hxa] at hne
          exact absurd (Function.update_self ..) hne
        · simp only [List.map_append, List.map_cons, List.map_nil, List.mem_append,
            List.mem_cons, List.not_mem_nil, or_false] at hx ⊢
          rcases hx with hx | rfl | hx
          · exact Or.inl hx
          · exact absurd rfl hxa
          · exact Or.inr hx

/-- The loop takes out the first cell of the rest that meets the test. -/
theorem unlinkFirst_spec (test : Addr → Callback → Bool) (done : List Cell) {rest : List Cell}
    {np : Option Addr} (h : t.Chained i (done ++ rest)) (hi : i < EVENT_ID_LIMIT.toNat)
    (hnp : Segment EventNode.next t.mem np rest none) :
    ∃ t' cs', Returns (fun fuel => unlinkFirst test i fuel t (done.map Prod.fst).getLast? np)
        (t', (rest.map binding).any (onBinding test)) ∧
      t'.Chained i cs' ∧
      cs'.map binding = done.map binding ++ (rest.map binding).eraseP (onBinding test) ∧
      Within t t' i (done ++ rest) cs' := by
  induction rest generalizing done np with
  | nil =>
    obtain rfl : np = none := hnp
    refine ⟨t, done ++ [], (Returns.const _).succ fun k => rfl, h, ?_, Within.refl t i _⟩
    simp
  | cons x rest ih =>
    obtain ⟨a, c⟩ := x
    obtain ⟨rfl, hma, hrest⟩ := hnp
    by_cases htest : test a c.callback
    · -- the loop ends here: the cell is taken out
      obtain ⟨t', done', hunlink, hchained, hdone', hwithin⟩ := h.unlink hi
      refine ⟨t'.free a, done' ++ rest, ?_, hchained, ?_, hwithin⟩
      · refine (Returns.const _).succ fun k => ?_
        have hany : (((a, c) :: rest).map binding).any (onBinding test) = true := by
          simp [binding, onBinding, htest]
        simp only [unlinkFirst, load_eq hma, ok_bind, htest, if_true, hunlink, pure_eq_ok, hany]
      · rw [List.map_append, hdone', List.map_cons, List.eraseP_cons_of_pos]
        exact htest
    · -- the cell is kept, and the loop goes on behind it
      have hsplit : done ++ (a, c) :: rest = (done ++ [(a, c)]) ++ rest := by simp
      rw [hsplit] at h
      obtain ⟨t', cs', hret, hchained, hcs', hwithin⟩ := ih _ h hrest
      have hlast : ((done ++ [(a, c)]).map Prod.fst).getLast? = some a := by simp
      rw [hlast] at hret
      have htest' : ¬ onBinding test (binding (a, c)) = true := htest
      refine ⟨t', cs', ?_, hchained, ?_, ?_⟩
      · rw [List.map_cons, List.any_cons, Bool.eq_false_iff.mpr htest', Bool.false_or]
        refine hret.succ fun k => ?_
        simp only [unlinkFirst, load_eq hma, ok_bind, htest, Bool.false_eq_true, if_false]
      · rw [hcs', List.map_cons, List.eraseP_cons_of_neg htest']
        simp
      · rw [hsplit]
        exact hwithin

/-! ## The table -/

/-- The table holds the bindings, and nothing else is in memory. -/
structure Holds (t : EventNodes) (b : Bindings) : Prop where
  next : b.next = t.brk
  lists : ∀ i < EVENT_ID_LIMIT.toNat, ∃ cs, t.Chained i cs ∧ cs.map binding = b.lists i
  bound : ∀ i < EVENT_ID_LIMIT.toNat, ∀ x ∈ b.lists i, x.eventId = i ∧ x.node < b.next
  only : ∀ a, t.mem a ≠ none → ∃ i < EVENT_ID_LIMIT.toNat, ∃ x ∈ b.lists i, x.node = a

theorem holds_initial : initial.Holds Bindings.initial where
  next := rfl
  lists _ _ := ⟨[], ⟨rfl, List.nodup_nil⟩, rfl⟩
  bound _ _ x hx := by cases hx
  only _ h := absurd rfl h

theorem Holds.congr {b' : Bindings} (h : t.Holds b) (hnext : b'.next = b.next)
    (hlists : ∀ i < EVENT_ID_LIMIT.toNat, b'.lists i = b.lists i) : t.Holds b' := by
  constructor
  · exact hnext.trans h.next
  · intro i hi
    rw [hlists i hi]
    exact h.lists i hi
  · intro i hi x hx
    rw [hlists i hi] at hx
    rw [hnext]
    exact h.bound i hi x hx
  · intro a ha
    obtain ⟨i, hi, x, hx, hxa⟩ := h.only a ha
    exact ⟨i, hi, x, (hlists i hi).symm ▸ hx, hxa⟩

/-- A table holds one collection of lists. -/
theorem Holds.unique {b' : Bindings} (h : t.Holds b) (h' : t.Holds b')
    (hi : i < EVENT_ID_LIMIT.toNat) : b.lists i = b'.lists i := by
  obtain ⟨cs, hc, hb⟩ := h.lists i hi
  obtain ⟨cs', hc', hb'⟩ := h'.lists i hi
  rw [← hb, ← hb', hc.chain.unique hc'.chain]

theorem map_fst_eq {cs : List Cell} {bs : List Binding} (h : cs.map binding = bs) :
    bs.map Binding.node = cs.map Prod.fst := by
  rw [← h, List.map_map]
  rfl

theorem Holds.nodup (h : t.Holds b) (hi : i < EVENT_ID_LIMIT.toNat) :
    ((b.lists i).map Binding.node).Nodup := by
  obtain ⟨cs, hc, hb⟩ := h.lists i hi
  rw [map_fst_eq hb]
  exact hc.nodup

/-- A bound node stands in memory with its event id. -/
theorem Holds.mem (h : t.Holds b) (hi : i < EVENT_ID_LIMIT.toNat) {x : Binding}
    (hx : x ∈ b.lists i) :
    ∃ c, t.mem x.node = some c ∧ c.eventId = i ∧ c.callback = x.callback := by
  have hid := (h.bound i hi x hx).1
  obtain ⟨cs, hc, hb⟩ := h.lists i hi
  rw [← hb] at hx
  obtain ⟨y, hy, rfl⟩ := List.mem_map.mp hx
  exact ⟨y.2, hc.chain.get hy, hid, rfl⟩

/-- A node is bound to one event id. -/
theorem Holds.node_ne (h : t.Holds b) {j : ℕ} (hi : i < EVENT_ID_LIMIT.toNat)
    (hj : j < EVENT_ID_LIMIT.toNat) (hij : i ≠ j) {x y : Binding} (hx : x ∈ b.lists i)
    (hy : y ∈ b.lists j) : x.node ≠ y.node := by
  intro hxy
  obtain ⟨c, hc, hci, -⟩ := h.mem hi hx
  obtain ⟨d, hd, hdj, -⟩ := h.mem hj hy
  rw [hxy, hd] at hc
  have hcd : d = c := Option.some.inj hc
  rw [hcd, hci] at hdj
  exact hij (Int.ofNat_inj.mp hdj)

/-- A change within one list leaves the others as they are. -/
theorem Holds.within {cs cs' : List Cell} {bs : List Binding} (h : t.Holds b)
    (hi : i < EVENT_ID_LIMIT.toNat) (hc : t.Chained i cs) (hw : Within t t' i cs cs')
    (hc' : t'.Chained i cs') (hbs : cs'.map binding = bs) (hsub : ∀ x ∈ bs, x ∈ b.lists i) :
    t'.Holds (b.setList i bs) := by
  have hcs : cs.map binding = b.lists i := by
    obtain ⟨ds, hd, hbd⟩ := h.lists i hi
    rw [hc.chain.unique hd.chain, hbd]
  constructor
  · rw [hw.brk]
    exact h.next
  · intro j hj
    by_cases hji : j = i
    · subst hji
      refine ⟨cs', hc', ?_⟩
      rw [Bindings.setList_self]
      exact hbs
    · -- the nodes of another list are not among the cells of this one
      obtain ⟨ds, hd, hbd⟩ := h.lists j hj
      refine ⟨ds, ⟨?_, hd.nodup⟩, ?_⟩
      · rw [hw.heads j hji]
        refine hd.chain.congr fun y hy => hw.mem y.1 fun hm => ?_
        obtain ⟨z, hz, hzy⟩ := List.mem_map.mp hm
        have hzi : binding z ∈ b.lists i := hcs ▸ List.mem_map_of_mem hz
        have hyj : binding y ∈ b.lists j := hbd ▸ List.mem_map_of_mem hy
        exact h.node_ne hi hj (Ne.symm hji) hzi hyj hzy
      · rw [b.setList_of_ne hji]
        exact hbd
  · intro j hj x hx
    by_cases hji : j = i
    · subst hji
      rw [Bindings.setList_self] at hx
      exact h.bound j hj x (hsub x hx)
    · rw [b.setList_of_ne hji] at hx
      exact h.bound j hj x hx
  · intro a ha
    by_cases hac : a ∈ cs.map Prod.fst
    · -- a cell of the list that is left stands in its new part
      have hm := hw.left a hac ha
      rw [← map_fst_eq hbs] at hm
      obtain ⟨x, hx, hxa⟩ := List.mem_map.mp hm
      refine ⟨i, hi, x, ?_, hxa⟩
      rw [Bindings.setList_self]
      exact hx
    · rw [hw.mem a hac] at ha
      obtain ⟨j, hj, x, hx, hxa⟩ := h.only a ha
      refine ⟨j, hj, x, ?_, hxa⟩
      rw [b.setList_of_ne]
      · exact hx
      · rintro rfl
        rw [← map_fst_eq hcs] at hac
        exact hac (List.mem_map.mpr ⟨x, hx, hxa⟩)

/-- The first node of a list that meets the test is taken out. -/
theorem Holds.unlinkFirst (h : t.Holds b) (hi : i < EVENT_ID_LIMIT.toNat)
    (test : Addr → Callback → Bool) :
    ∃ t', Returns (fun fuel => unlinkFirst test i fuel t none (t.heads i))
        (t', (b.lists i).any (onBinding test)) ∧
      t'.Holds (b.setList i ((b.lists i).eraseP (onBinding test))) := by
  obtain ⟨cs, hc, hb⟩ := h.lists i hi
  obtain ⟨t', cs', hret, hc', hcs', hw⟩ :=
    unlinkFirst_spec test [] hc hi hc.chain
  rw [hb] at hret
  rw [hb, List.map_nil, List.nil_append] at hcs'
  exact ⟨t', hret, h.within hi hc hw hc' hcs' fun x hx => List.mem_of_mem_eraseP hx⟩

/-! ## Binding -/

/-- A new node becomes the head of its list. -/
theorem bindRemovable_eq (t : EventNodes) (id : CStr) (callback : Callback)
    (hi : i < EVENT_ID_LIMIT.toNat) :
    agcEventBindRemovable t id i callback =
      .ok (⟨Function.update t.heads i (some t.brk),
        Function.update t.mem t.brk (some ⟨id, i, callback, t.heads i⟩), t.brk + 1⟩,
        .success, some t.brk) := by
  have hlimit : ¬ EVENT_ID_LIMIT < (i : ℤ) := by omega
  have hmem : (t.alloc id i callback).1.mem t.brk = some ⟨id, i, callback, none⟩ :=
    Function.update_self ..
  simp only [agcEventBindRemovable, if_neg hlimit, head_natCast hi, ok_bind]
  cases hhead : t.heads i with
  | none =>
    have hnone : (t.alloc id i callback).1.heads i = none := hhead
    simp only [hnone, pure_eq_ok, ok_bind, setHead_natCast hi]
    rfl
  | some a =>
    have hsome : (t.alloc id i callback).1.heads i = some a := hhead
    have hset := setNext_eq hmem (some a)
    simp only [hsome]
    rw [show (t.alloc id i callback).2 = t.brk from rfl, hset]
    simp only [ok_bind, setHead_natCast hi, pure_eq_ok, alloc, Function.update_idem]

theorem Holds.lt_brk {cs : List Cell} (h : t.Holds b) (hi : i < EVENT_ID_LIMIT.toNat)
    (hb : cs.map binding = b.lists i) {x : Cell} (hx : x ∈ cs) : x.1 < t.brk := by
  rw [← h.next]
  exact (h.bound i hi (binding x) (hb ▸ List.mem_map_of_mem hx)).2

/-- A bound node is the newest of its event id. -/
theorem Holds.add (h : t.Holds b) (hi : i < EVENT_ID_LIMIT.toNat) (id : CStr)
    (callback : Callback) :
    Holds ⟨Function.update t.heads i (some t.brk),
      Function.update t.mem t.brk (some ⟨id, i, callback, t.heads i⟩), t.brk + 1⟩
      (b.add id i callback) := by
  have hadd : b.add id i callback =
      { b.setList i (⟨t.brk, id, i, callback⟩ :: b.lists i) with next := t.brk + 1 } := by
    simp only [Bindings.add, Bindings.setList, Int.toNat_natCast, h.next]
  rw [hadd]
  -- the new address is in none of the lists
  have hfresh : ∀ {j : ℕ} {ds : List Cell}, j < EVENT_ID_LIMIT.toNat →
      ds.map binding = b.lists j → t.brk ∉ ds.map Prod.fst := by
    intro j ds hj hb hm
    obtain ⟨x, hx, hxb⟩ := List.mem_map.mp hm
    exact (h.lt_brk hj hb hx).ne hxb
  constructor
  · rfl
  · intro j hj
    obtain ⟨ds, hd, hbd⟩ := h.lists j hj
    have hseg := hd.chain.update_of_not_mem (hfresh hj hbd)
      (some ⟨id, i, callback, t.heads i⟩)
    by_cases hji : j = i
    · subst hji
      refine ⟨(t.brk, ⟨id, j, callback, t.heads j⟩) :: ds, ⟨⟨?_, ?_, hseg⟩, ?_⟩, ?_⟩
      · exact Function.update_self ..
      · exact Function.update_self ..
      · exact List.nodup_cons.mpr ⟨hfresh hj hbd, hd.nodup⟩
      · show _ = (b.setList j _).lists j
        rw [b.setList_self, List.map_cons, hbd]
        rfl
    · refine ⟨ds, ⟨?_, hd.nodup⟩, ?_⟩
      · show Segment _ _ (Function.update t.heads i _ j) _ _
        rw [Function.update_of_ne hji]
        exact hseg
      · show _ = (b.setList i _).lists j
        rw [b.setList_of_ne hji]
        exact hbd
  · intro j hj x hx
    have hx : x ∈ (b.setList i (⟨t.brk, id, i, callback⟩ :: b.lists i)).lists j := hx
    by_cases hji : j = i
    · subst hji
      rw [b.setList_self] at hx
      rcases List.mem_cons.mp hx with rfl | hx
      · exact ⟨rfl, Nat.lt_succ_self t.brk⟩
      · obtain ⟨hid, hlt⟩ := h.bound j hj x hx
        exact ⟨hid, Nat.lt_succ_of_lt (h.next ▸ hlt)⟩
    · rw [b.setList_of_ne hji] at hx
      obtain ⟨hid, hlt⟩ := h.bound j hj x hx
      exact ⟨hid, Nat.lt_succ_of_lt (h.next ▸ hlt)⟩
  · intro a ha
    by_cases hab : a = t.brk
    · refine ⟨i, hi, ⟨t.brk, id, i, callback⟩, ?_, hab.symm⟩
      show _ ∈ (b.setList i _).lists i
      rw [b.setList_self]
      exact List.mem_cons_self
    · have ha : Function.update t.mem t.brk _ a ≠ none := ha
      rw [Function.update_of_ne hab] at ha
      obtain ⟨j, hj, x, hx, hxa⟩ := h.only a ha
      refine ⟨j, hj, x, ?_, hxa⟩
      show _ ∈ (b.setList i _).lists j
      by_cases hji : j = i
      · subst hji
        rw [b.setList_self]
        exact List.mem_cons_of_mem _ hx
      · rw [b.setList_of_ne hji]
        exact hx

/-- A call that binds to an event id of the table. -/
theorem Holds.bindRemovable (h : t.Holds b) {eventId : ℤ}
    (hr : 0 ≤ eventId ∧ eventId < EVENT_ID_LIMIT) (id : CStr) (callback : Callback) :
    ∃ t', agcEventBindRemovable t id eventId callback = .ok (t', .success, some t.brk) ∧
      t'.Holds (b.add id eventId callback) := by
  obtain ⟨i, rfl⟩ := Int.eq_ofNat_of_zero_le hr.1
  have hi : i < EVENT_ID_LIMIT.toNat := by
    have := hr.2
    omega
  exact ⟨_, bindRemovable_eq t id callback hi, h.add hi id callback⟩

/-! ## Removing -/

/-- Among elements of which at most one meets the test, taking out the first is taking out all. -/
theorem eraseP_eq_filter_iff {α : Type} (p : α → Bool) (l : List α) :
    l.eraseP p = l.filter (fun x => !p x) ↔ l.countP p ≤ 1 := by
  induction l with
  | nil => simp
  | cons x l ih =>
    by_cases hx : p x
    · have hzero : l = l.filter (fun x => !p x) ↔ l.countP p = 0 := by
        rw [eq_comm, List.filter_eq_self, List.countP_eq_zero]
        simp
      simp only [List.eraseP_cons_of_pos hx, List.filter_cons, hx, Bool.not_true,
        Bool.false_eq_true, if_false, List.countP_cons_of_pos hx, hzero]
      omega
    · simp only [List.eraseP_cons_of_neg hx, List.filter_cons, hx, Bool.not_false, if_true,
        List.countP_cons_of_neg hx, List.cons.injEq, true_and, ih]

/-- The removal of a bound node. -/
theorem Holds.unbind (h : t.Holds b) (hi : i < EVENT_ID_LIMIT.toNat) {x : Binding}
    (hx : x ∈ b.lists i) :
    ∃ t', Returns (fun fuel => agcEventUnbind fuel t (some x.node)) (t', .success, none) ∧
      t'.Holds (b.remove (Binding.isNode x.node)) := by
  obtain ⟨c, hc, hci, -⟩ := h.mem hi hx
  obtain ⟨t', hret, ht'⟩ := h.unlinkFirst hi fun np _ => decide (np = x.node)
  have hany : (b.lists i).any (onBinding fun np _ => decide (np = x.node)) = true :=
    List.any_eq_true.mpr ⟨x, hx, by simp [onBinding]⟩
  refine ⟨t', ?_, ht'.congr rfl fun j hj => ?_⟩
  · rw [hany] at hret
    refine (hret.bind (g := fun _ r => pure (if r.2 then (r.1, .success, none)
      else (r.1, .false, some x.node))) (Returns.const _)).congr fun k => ?_
    simp only [agcEventUnbind, load_eq hc, ok_bind, hci, head_natCast hi]
  · show (b.lists j).filter (fun y => !Binding.isNode x.node y) = _
    by_cases hji : j = i
    · -- the nodes of a list are distinct
      subst hji
      rw [b.setList_self, eq_comm]
      refine (eraseP_eq_filter_iff _ _).mpr ?_
      have hcount := List.nodup_iff_count_le_one.mp (h.nodup hj) x.node
      rw [List.count, List.countP_map] at hcount
      exact hcount
    · rw [b.setList_of_ne hji, List.filter_eq_self]
      intro y hy
      simpa [Binding.isNode] using h.node_ne hj hi hji hy hx

/-- The first node that meets the test leaves each of the first `n` lists. -/
def eraseBelow (b : Bindings) (n : ℕ) (test : Binding → Bool) : Bindings :=
  { b with lists := fun i => if i < n then (b.lists i).eraseP test else b.lists i }

/-- The loop over the first `n` event ids takes the first node with the callback out of each of
their lists. -/
theorem Holds.unbindCallbackLoop (h : t.Holds b) (callback : Callback) {n : ℕ}
    (hn : n ≤ EVENT_ID_LIMIT.toNat) :
    ∃ t', Returns (fun fuel => (List.range n).foldlM (unbindCallbackAt fuel callback) (t, .false))
        (t', if ∃ i < n, (b.lists i).any (Binding.hasCallback callback) then .success else .false) ∧
      t'.Holds (eraseBelow b n (Binding.hasCallback callback)) := by
  induction n with
  | zero =>
    refine ⟨t, ?_, h.congr rfl fun i _ => ?_⟩
    · simpa using Returns.const (t, AgcStatus.false)
    · simp [eraseBelow]
  | succ n ih =>
    -- the lists from `n` on are as they were before the loop
    obtain ⟨t₁, hret₁, ht₁⟩ := ih (Nat.le_of_succ_le hn)
    have hlist : (eraseBelow b n (Binding.hasCallback callback)).lists n = b.lists n :=
      if_neg (Nat.lt_irrefl n)
    obtain ⟨t₂, hret₂, ht₂⟩ := ht₁.unlinkFirst hn fun _ cb => decide (cb = callback)
    rw [hlist] at hret₂ ht₂
    refine ⟨t₂, ?_, ht₂.congr rfl fun i hi => ?_⟩
    · rw [List.range_succ]
      refine hret₁.foldlM_snoc ?_
      -- one success is enough for the status
      have hstatus : (if ∃ i < n + 1, (b.lists i).any (Binding.hasCallback callback) then
            AgcStatus.success else .false) =
          if (b.lists n).any (onBinding fun _ cb => decide (cb = callback)) then .success
          else if ∃ i < n, (b.lists i).any (Binding.hasCallback callback) then .success
          else .false := by
        have hex : (∃ i < n + 1, (b.lists i).any (Binding.hasCallback callback) = true) ↔
            (b.lists n).any (Binding.hasCallback callback) = true ∨
              ∃ i < n, (b.lists i).any (Binding.hasCallback callback) = true := by
          rw [Nat.exists_lt_succ_right, or_comm]
        have hany : (b.lists n).any (onBinding fun _ cb => decide (cb = callback)) =
            (b.lists n).any (Binding.hasCallback callback) := rfl
        rw [hany]
        simp only [hex, ite_or]
      rw [hstatus]
      obtain ⟨m, hm⟩ := hret₂
      refine ⟨m, fun k hk => ?_⟩
      simp only [unbindCallbackAt, head_natCast hn, ok_bind, hm k hk]
      rfl
    · by_cases hin : i = n
      · subst hin
        rw [Bindings.setList_self]
        exact if_pos (Nat.lt_succ_self i)
      · rw [Bindings.setList_of_ne _ hin]
        have hlt : i < n + 1 ↔ i < n := by omega
        simp only [eraseBelow, hlt]

/-- The removal by callback, as it is: the first node with the callback leaves each list. -/
theorem Holds.unbindCallback (h : t.Holds b) (callback : Callback) :
    ∃ t', Returns (fun fuel => agcEventUnbindCallback fuel t callback)
        (t', b.removeStatus (Binding.hasCallback callback)) ∧
      t'.Holds { b with lists := fun i => (b.lists i).eraseP (Binding.hasCallback callback) } := by
  -- the loop is over all event ids
  obtain ⟨t', hret, ht'⟩ := h.unbindCallbackLoop callback (Nat.le_refl _)
  exact ⟨t', hret, ht'.congr rfl fun i hi => (if_pos hi).symm⟩

/-! ## Runs -/

/-- The ids that a call binds are those of the table. -/
def InRange : BindOp → Prop
  | .bind _ eventId _ | .bindRemovable _ eventId _ => 0 ≤ eventId ∧ eventId < EVENT_ID_LIMIT
  | .unbind _ | .unbindCallback _ => True

/-- After the calls the table holds what was bound and not removed, and the calls returned the
statuses of what they removed. -/
def Correct (ops : List BindOp) : Prop :=
  ∃ t, Returns (fun fuel => run fuel ops) (t, (Bindings.run ops).2) ∧ t.Holds (Bindings.run ops).1

/-- A call that is made while `b` is bound removes a node that is bound, or a callback that no event
id has twice. -/
def Removable (b : Bindings) : BindOp → Prop
  | .bind _ _ _ | .bindRemovable _ _ _ | .unbind none => True
  | .unbind (some node) => ∃ i < EVENT_ID_LIMIT.toNat, ∃ x ∈ b.lists i, x.node = node
  | .unbindCallback callback =>
    ∀ i < EVENT_ID_LIMIT.toNat, (b.lists i).countP (Binding.hasCallback callback) ≤ 1

/-- A removable call does what it is to do. -/
theorem Holds.step {op : BindOp} (h : t.Holds b) (hr : InRange op) (hop : Removable b op) :
    ∃ t', Returns (fun fuel => step fuel t op) (t', (b.step op).2) ∧ t'.Holds (b.step op).1 := by
  cases op with
  | bind id eventId callback =>
    obtain ⟨t', hok, ht'⟩ := h.bindRemovable hr id callback
    refine ⟨t', (Returns.const _).congr fun k => ?_, ht'⟩
    simp only [EventNodes.step, agcEventBind, hok, ok_bind]
    rfl
  | bindRemovable id eventId callback =>
    obtain ⟨t', hok, ht'⟩ := h.bindRemovable hr id callback
    refine ⟨t', (Returns.const _).congr fun k => ?_, ht'⟩
    simp only [EventNodes.step, hok, ok_bind]
    rfl
  | unbind node =>
    cases node with
    | none => exact ⟨t, Returns.const _, h⟩
    | some node =>
      obtain ⟨i, hi, x, hx, rfl⟩ := hop
      obtain ⟨t', hret, ht'⟩ := h.unbind hi hx
      -- the node that is removed is bound, so the call reports success
      have hstatus : b.removeStatus (Binding.isNode x.node) = .success :=
        if_pos ⟨i, hi, List.any_eq_true.mpr ⟨x, hx, by simp [Binding.isNode]⟩⟩
      simp only [Bindings.step, hstatus]
      refine ⟨t', ?_, ht'⟩
      exact hret.bind (g := fun _ r => .ok (r.1, r.2.1)) (Returns.const _)
  | unbindCallback callback =>
    obtain ⟨t', hret, ht'⟩ := h.unbindCallback callback
    simp only [Bindings.step]
    refine ⟨t', hret, ht'.congr rfl fun i hi => ?_⟩
    exact ((eraseP_eq_filter_iff _ _).mpr (hop i hi)).symm

/-- A node that is removed by its address is bound: the read of the node shows that it is in
memory. -/
theorem Holds.bound_of_unbind {node : Addr} {status : AgcStatus} (h : t.Holds b)
    (hret : Returns (fun fuel => EventNodes.step fuel t (.unbind (some node))) (t', status)) :
    ∃ i < EVENT_ID_LIMIT.toNat, ∃ x ∈ b.lists i, x.node = node := by
  obtain ⟨n, r, hr, -⟩ := hret.exists_bind
  obtain ⟨c, hc, -⟩ := bind_eq_ok.mp hr
  refine h.only node fun hnone => ?_
  rw [load, hnone] at hc
  cases hc

/-- A call that returns and does what it is to do is removable. -/
theorem Holds.removable {op : BindOp} (h : t.Holds b) {status : AgcStatus}
    (hret : Returns (fun fuel => EventNodes.step fuel t op) (t', status))
    (ht' : t'.Holds (b.step op).1) : Removable b op := by
  cases op with
  | bind id eventId callback => trivial
  | bindRemovable id eventId callback => trivial
  | unbind node =>
    cases node with
    | none => trivial
    | some node => exact h.bound_of_unbind hret
  | unbindCallback callback =>
    -- the call took out the first node of each list; that must have been all of them
    obtain ⟨t₁, hret₁, ht₁⟩ := h.unbindCallback callback
    obtain rfl : t' = t₁ := congrArg Prod.fst (hret.unique hret₁)
    intro i hi
    refine (eraseP_eq_filter_iff _ _).mp ?_
    exact ht₁.unique ht' hi

/-- Whatever a call that returns does, the table holds something afterwards. -/
theorem Holds.of_step {op : BindOp} {status : AgcStatus} (h : t.Holds b)
    (hret : Returns (fun fuel => EventNodes.step fuel t op) (t', status)) : ∃ b', t'.Holds b' := by
  -- both binds go through the removable one, with an index that may be out of the array
  have hbind : ∀ id eventId callback node,
      agcEventBindRemovable t id eventId callback = .ok (t', status, node) →
        ∃ b', t'.Holds b' := by
    intro id eventId callback node hok
    by_cases hlimit : EVENT_ID_LIMIT < eventId
    · rw [agcEventBindRemovable, if_pos hlimit] at hok
      cases hok
      exact ⟨b, h⟩
    · by_cases hrange : 0 ≤ eventId ∧ eventId < EVENT_ID_LIMIT
      · obtain ⟨t₁, hok₁, ht₁⟩ := h.bindRemovable hrange id callback
        rw [hok₁] at hok
        cases hok
        exact ⟨_, ht₁⟩
      · -- the index is outside of the array
        rw [agcEventBindRemovable, if_neg hlimit] at hok
        simp only [head, eventIndex, if_neg hrange, error_bind] at hok
        cases hok
  cases op with
  | bind id eventId callback =>
    obtain ⟨n, ⟨t₁, status₁, node⟩, hok, heq⟩ := hret.exists_bind
    cases heq
    exact hbind _ _ _ _ hok
  | bindRemovable id eventId callback =>
    obtain ⟨n, ⟨t₁, status₁, node⟩, hok, heq⟩ := hret.exists_bind
    cases heq
    exact hbind _ _ _ _ hok
  | unbind node =>
    cases node with
    | none =>
      have hnull : Returns (fun fuel => EventNodes.step fuel t (.unbind none)) (t, .generr) :=
        Returns.const _
      cases hret.unique hnull
      exact ⟨b, h⟩
    | some node =>
      obtain ⟨i, hi, x, hx, rfl⟩ := h.bound_of_unbind hret
      obtain ⟨t₁, hret₁, ht₁⟩ := h.unbind hi hx
      have hstep := hret₁.bind (g := fun _ r => .ok (r.1, r.2.1)) (Returns.const _)
      cases hret.unique hstep
      exact ⟨_, ht₁⟩
  | unbindCallback callback =>
    obtain ⟨t₁, hret₁, ht₁⟩ := h.unbindCallback callback
    cases hret.unique hret₁
    exact ⟨_, ht₁⟩

/-- The tables that calls lead to. -/
inductive Reachable : EventNodes → Prop
  | initial : Reachable initial
  | step {t t' : EventNodes} {op : BindOp} {status : AgcStatus} (h : Reachable t)
      (hret : Returns (fun fuel => EventNodes.step fuel t op) (t', status)) : Reachable t'

/-- A reachable table is well formed. -/
theorem Reachable.holds (h : Reachable t) : ∃ b, t.Holds b := by
  induction h with
  | initial => exact ⟨_, holds_initial⟩
  | step _ hret ih =>
    obtain ⟨b, hb⟩ := ih
    exact hb.of_step hret

/-- The call after a correct run. -/
theorem correct_snoc_iff {ops : List BindOp} {op : BindOp} (hc : Correct ops) (hr : InRange op) :
    Correct (ops ++ [op]) ↔ Removable (Bindings.run ops).1 op := by
  obtain ⟨t, hret, ht⟩ := hc
  constructor
  · rintro ⟨t', hret', ht'⟩
    rw [Bindings.run_snoc] at hret' ht'
    obtain ⟨n, hn⟩ := Returns.of_foldlM_snoc hret' hret
    -- the last step of the run is the call
    have hcall : Returns (fun fuel => EventNodes.step fuel t op)
        (t', ((Bindings.run ops).1.step op).2) := by
      refine ⟨n, fun k hk => ?_⟩
      obtain ⟨r, hr, hlog⟩ := bind_eq_ok.mp (hn k hk)
      obtain ⟨rfl, hstatus⟩ := Prod.mk.inj (Except.ok.inj hlog)
      have hlast := List.append_cancel_left hstatus
      rw [List.singleton_inj] at hlast
      rw [← hlast]
      exact hr
    exact ht.removable hcall ht'
  · intro hop
    -- conversely, a removable call does what it is to do
    obtain ⟨t', hret', ht'⟩ := ht.step hr hop
    refine ⟨t', ?_, ?_⟩
    · rw [Bindings.run_snoc]
      refine Returns.foldlM_snoc hret ?_
      exact hret'.bind (g := fun _ r => .ok (r.1, (Bindings.run ops).2 ++ [r.2]))
        (Returns.const _)
    · rw [Bindings.run_snoc]
      exact ht'

/-- **The binding table** is, after every call of a run, what was bound and not removed, with the
statuses of what was removed, exactly when each call removes a node that is bound then or a callback
that no event id has twice. -/
theorem binding_table_iff (ops : List BindOp) (hr : ∀ op ∈ ops, InRange op) :
    (∀ p, p <+: ops → Correct p) ↔
      Throughout (fun done op => Removable (Bindings.run done).1 op) ops := by
  refine prefixes_iff_throughout_of ⟨initial, Returns.const _, holds_initial⟩ ops ?_
  intro done op hpre hc
  exact correct_snoc_iff hc (hr op (hpre.subset (by simp)))

/-- The callback `5` is bound to the event ids 7 and 8, and removed from both. -/
def bindOnce : List BindOp :=
  [.bind (CStr.ofString "a") 7 5, .bind (CStr.ofString "b") 8 5, .unbindCallback 5]

theorem binding_table_bindOnce :
    (∀ op ∈ bindOnce, InRange op) ∧ ∀ p, p <+: bindOnce → Correct p := by
  have hr : ∀ op ∈ bindOnce, InRange op := by
    simp [bindOnce, InRange, EVENT_ID_LIMIT]
  refine ⟨hr, (binding_table_iff bindOnce hr).mpr ?_⟩
  rw [show bindOnce = (([] ++ [BindOp.bind (CStr.ofString "a") 7 5]) ++
    [BindOp.bind (CStr.ofString "b") 8 5]) ++ [BindOp.unbindCallback 5] from rfl]
  rw [throughout_snoc, throughout_snoc, throughout_snoc]
  refine ⟨⟨⟨throughout_nil, trivial⟩, trivial⟩, fun i hi => ?_⟩
  -- each of the two lists has one node
  have hlists : (Bindings.run ([] ++ [BindOp.bind (CStr.ofString "a") 7 5] ++
      [BindOp.bind (CStr.ofString "b") 8 5])).1.lists i =
        Function.update (Function.update (fun _ => []) 7 [⟨0, CStr.ofString "a", 7, 5⟩]) 8
          [⟨1, CStr.ofString "b", 8, 5⟩] i := rfl
  rw [hlists]
  by_cases h8 : i = 8
  · rw [h8, Function.update_self]
    exact List.countP_le_length
  · rw [Function.update_of_ne h8]
    by_cases h7 : i = 7
    · rw [h7, Function.update_self]
      exact List.countP_le_length
    · rw [Function.update_of_ne h7]
      exact Nat.zero_le 1

/-- The callback `5` is bound to the event id 7 twice. -/
def bindTwice : List BindOp := [.bind (CStr.ofString "a") 7 5, .bind (CStr.ofString "b") 7 5]

/-- After two bindings of a callback to one event id, its removal leaves one of them. -/
theorem binding_table_bindTwice :
    ¬ ∀ ops : List BindOp, (∀ op ∈ ops, InRange op) → ∀ p, p <+: ops → Correct p := by
  intro hall
  have hr : ∀ op ∈ bindTwice ++ [.unbindCallback 5], InRange op := by
    simp [bindTwice, InRange, EVENT_ID_LIMIT]
  have hpre := hall _ hr
  have hlast : InRange (.unbindCallback 5) := trivial
  have hrem : Removable (Bindings.run bindTwice).1 (.unbindCallback 5) :=
    (correct_snoc_iff (hpre bindTwice (List.prefix_append _ _)) hlast).mp
      (hpre _ (List.prefix_refl _))
  have hlist : (Bindings.run bindTwice).1.lists 7 =
      [⟨1, CStr.ofString "b", 7, 5⟩, ⟨0, CStr.ofString "a", 7, 5⟩] := rfl
  have hcount := hrem 7 (by decide)
  rw [hlist] at hcount
  simp [Binding.hasCallback] at hcount

end EventNodes
