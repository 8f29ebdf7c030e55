import AgcFramework.Lib.CString
import AgcFramework.Lib.Exec
import AgcFramework.Lib.Ledger
import AgcFramework.Types

/-!
# Events on the heap

An event is a record on the heap, and its headers are nodes that point to their names and values.
Every function that makes or drops a part of an event allocates or releases something. Here the
events stand on an explicit heap, on which each of these is an allocation of its own, with a ledger
of the allocations and releases and of the event for which they were made.

A read through a null or a released pointer is a fault. `malloc` does not fail, and it hands out
addresses that were not used before.

## Main definitions

* `Heap`: the records, the header nodes and the texts, with the ledger
* `agcEventCreate`, `agcEventAddHeader`, `agcEventAddHeaderString`, `agcEventDelHeader`,
  `agcEventSetBody`, `agcEventAddBody`, `agcEventDup`, `agcEventDestroy`, `agcEventDeliver`: the
  functions of `agc_event.c`
* `Op`, `step`, `run`: the calls on any number of events
-/

namespace EventHeap

open Exec Ledger

/-- An address. -/
abbrev Ptr := ℕ

/-- `struct agc_event_header`. -/
structure HeaderRec where
  name : Option Ptr
  value : Option Ptr
  next : Option Ptr
  deriving DecidableEq

/-- The fields of `agc_event_t` that the functions use. -/
structure EventRec where
  eventId : ℤ
  sourceId : UInt32
  /-- The callback with its context. -/
  callBack : Option (ℕ × ℕ)
  fast : Bool
  headers : Option Ptr
  lastHeader : Option Ptr
  body : Option Ptr
  deriving DecidableEq

/-- The heap. -/
structure Heap where
  events : Ptr → Option EventRec
  headers : Ptr → Option HeaderRec
  texts : Ptr → Option CStr
  /-- The address `malloc` returns next. -/
  brk : Ptr
  /-- The allocations and releases, each with the number of the event for which it was made. -/
  log : List (Act (ℕ × Ptr))

namespace Heap

/-- A read of the record at `ep`. -/
def event (h : Heap) (ep : Ptr) : Exec EventRec :=
  match h.events ep with
  | some r => .ok r
  | none => .error .fault

/-- A read of the node at `a`. -/
def header (h : Heap) (a : Ptr) : Exec HeaderRec :=
  match h.headers a with
  | some c => .ok c
  | none => .error .fault

/-- A read of a text. -/
def text (h : Heap) (p : Option Ptr) : Exec CStr :=
  match p.bind h.texts with
  | some s => .ok s
  | none => .error .fault

/-- A write of the record at `ep`. -/
def setEvent (h : Heap) (ep : Ptr) (r : EventRec) : Heap :=
  { h with events := Function.update h.events ep (some r) }

/-- A write of the node at `a`. -/
def setHeader (h : Heap) (a : Ptr) (c : HeaderRec) : Heap :=
  { h with headers := Function.update h.headers a (some c) }

variable (i : ℕ)

/-- `strdup`. -/
def strdup (h : Heap) (s : CStr) : Heap :=
  { h with
    texts := Function.update h.texts h.brk (some s)
    brk := h.brk + 1
    log := h.log ++ [.alloc (i, h.brk)] }

/-- `malloc` for a record. -/
def mallocEvent (h : Heap) (r : EventRec) : Heap :=
  { h with
    events := Function.update h.events h.brk (some r)
    brk := h.brk + 1
    log := h.log ++ [.alloc (i, h.brk)] }

/-- `malloc` for a node, which is zeroed. -/
def mallocHeader (h : Heap) : Heap :=
  { h with
    headers := Function.update h.headers h.brk (some ⟨none, none, none⟩)
    brk := h.brk + 1
    log := h.log ++ [.alloc (i, h.brk)] }

/-- `agc_safe_free` of a text. -/
def freeText (h : Heap) : Option Ptr → Heap
  | none => h
  | some p =>
    { h with texts := Function.update h.texts p none, log := h.log ++ [.free (i, p)] }

/-- `agc_safe_free` of a node. -/
def freeHeader (h : Heap) (a : Ptr) : Heap :=
  { h with headers := Function.update h.headers a none, log := h.log ++ [.free (i, a)] }

end Heap

/-! ## The functions, for the event of the number `i` -/

section Functions

variable (i : ℕ)

/-- `agc_event_create`: the record is at the address that was the next one. -/
def agcEventCreate (h : Heap) (eventId : ℤ) (sourceId : UInt32) : Heap :=
  h.mallocEvent i ⟨eventId, sourceId, none, false, none, none, none⟩

/-- `agc_event_create_callback`. -/
def agcEventCreateCallback (h : Heap) (sourceId : UInt32) (data callback : ℕ) : Exec Heap := do
  let ep := h.brk
  let h := agcEventCreate i h 0 sourceId
  let r ← h.event ep
  pure (h.setEvent ep { r with callBack := some (callback, data) })

/-- The loop of `agc_event_get_header_ptr`. -/
def findHeader (h : Heap) (name : CStr) : ℕ → Option Ptr → Exec (Option Ptr)
  | 0, _ => .error .fuel
  | _ + 1, none => pure none
  | fuel + 1, some hp => do
    let c ← h.header hp
    let s ← h.text c.name
    if s.SameName name then pure (some hp) else findHeader h name fuel c.next

/-- `new_header`: the node is at the address that was the next one. -/
def newHeader (h : Heap) (name : CStr) : Heap :=
  let a := h.brk
  let h := h.mallocHeader i
  let p := h.brk
  let h := h.strdup i name
  h.setHeader a ⟨some p, none, none⟩

/-- `header->value = data`. -/
def setValue (h : Heap) (a data : Ptr) : Exec Heap := do
  let c ← h.header a
  pure (h.setHeader a { c with value := some data })

/-- The end of both adding functions: the node is linked behind the last one. -/
def linkLast (h : Heap) (ep a : Ptr) : Exec Heap := do
  let r ← h.event ep
  match r.lastHeader with
  | some last =>
    let c ← h.header last
    let h := h.setHeader last { c with next := some a }
    pure (h.setEvent ep { r with lastHeader := some a })
  | none =>
    let c ← h.header a
    let h := h.setHeader a { c with next := none }
    pure (h.setEvent ep { r with headers := some a, lastHeader := some a })

/-- `agc_event_base_add_header`; the data is a text that the event takes over. -/
def agcEventBaseAddHeader (fuel : ℕ) (h : Heap) (ep : Ptr) (name : CStr) (data : Ptr) :
    Exec Heap := do
  let r ← h.event ep
  match ← findHeader h name fuel r.headers with
  | none =>
    let a := h.brk
    let h ← setValue (newHeader i h name) a data
    linkLast h ep a
  | some a =>
    let c ← h.header a
    let h ← setValue (h.freeText i c.value) a data
    linkLast h ep a

/-- `agc_event_base_add_header_nocheck`. -/
def agcEventBaseAddHeaderNocheck (h : Heap) (ep : Ptr) (name : CStr) (data : Ptr) : Exec Heap := do
  let a := h.brk
  let h ← setValue (newHeader i h name) a data
  linkLast h ep a

/-- `agc_event_add_header`; the data is what `agc_vasprintf` made, or none if it failed. -/
def agcEventAddHeader (h : Heap) (ep : Ptr) (name : CStr) (data : Option CStr) :
    Exec (Heap × AgcStatus) :=
  match data with
  | none => pure (h, .memerr)
  | some data => do
    let h ← agcEventBaseAddHeaderNocheck i (h.strdup i data) ep name h.brk
    pure (h, .success)

/-- `agc_event_add_header_string`; the data may be null. -/
def agcEventAddHeaderString (fuel : ℕ) (h : Heap) (ep : Ptr) (name : CStr) (data : Option CStr) :
    Exec (Heap × AgcStatus) :=
  match data with
  | none => pure (h, .generr)
  | some data => do
    let h ← agcEventBaseAddHeader i fuel (h.strdup i data) ep name h.brk
    pure (h, .success)

/-- A node is released with its texts. -/
def freeNode (h : Heap) (a : Ptr) (c : HeaderRec) : Heap :=
  ((h.freeText i c.name).freeText i c.value).freeHeader i a

/-- The unlinking of the node `hp`, which holds `c`, behind the kept node `lp`. -/
def unlinkHeader (h : Heap) (ep : Ptr) (lp : Option Ptr) (hp : Ptr) (c : HeaderRec) :
    Exec Heap := do
  let r ← h.event ep
  let last := if some hp = r.lastHeader ∨ c.next = none then lp else r.lastHeader
  match lp with
  | some lp =>
    let l ← h.header lp
    let h := h.setHeader lp { l with next := c.next }
    pure (h.setEvent ep { r with lastHeader := last })
  | none => pure (h.setEvent ep { r with headers := c.next, lastHeader := last })

/-- The loop of `agc_event_del_header`. -/
def delHeaderLoop (ep : Ptr) (name : CStr) : ℕ → Heap → Option Ptr → Option Ptr → Exec Heap
  | 0, _, _, _ => .error .fuel
  | _ + 1, h, _, none => pure h
  | fuel + 1, h, lp, some hp => do
    let c ← h.header hp
    let s ← h.text c.name
    if name.SameName s then do
      let h ← unlinkHeader h ep lp hp c
      delHeaderLoop ep name fuel (freeNode i h hp c) lp c.next
    else delHeaderLoop ep name fuel h (some hp) c.next

/-- `agc_event_del_header`. -/
def agcEventDelHeader (fuel : ℕ) (h : Heap) (ep : Ptr) (name : CStr) : Exec (Heap × AgcStatus) := do
  let r ← h.event ep
  let h ← delHeaderLoop i ep name fuel h none r.headers
  pure (h, .success)

/-- `agc_event_set_body`; the body may be null. -/
def agcEventSetBody (h : Heap) (ep : Ptr) (body : Option CStr) : Exec (Heap × AgcStatus) :=
  match body with
  | none => pure (h, .generr)
  | some body => do
    let r ← h.event ep
    let h := h.freeText i r.body
    let p := h.brk
    pure ((h.strdup i body).setEvent ep { r with body := some p }, .success)

/-- `agc_event_add_body`; the data is what `agc_vasprintf` made, or none if there is no format or it
failed. It is made before the old body is released. -/
def agcEventAddBody (h : Heap) (ep : Ptr) (data : Option CStr) : Exec (Heap × AgcStatus) :=
  match data with
  | none => pure (h, .generr)
  | some data => do
    let p := h.brk
    let h := h.strdup i data
    let r ← h.event ep
    let h := h.freeText i r.body
    pure (h.setEvent ep { r with body := some p }, .success)

/-- The text of a value, which may be null. -/
def valueText (h : Heap) (p : Option Ptr) : Exec (Option CStr) :=
  match p with
  | none => pure none
  | some p => do
    let s ← h.text (some p)
    pure (some s)

/-- The loop of `agc_event_dup` over the headers of the original. -/
def dupHeaders (ep : Ptr) : ℕ → Heap → Option Ptr → Exec Heap
  | 0, _, _ => .error .fuel
  | _ + 1, h, none => pure h
  | fuel + 1, h, some hp => do
    let c ← h.header hp
    let name ← h.text c.name
    let value ← valueText h c.value
    let (h, _) ← agcEventAddHeaderString i fuel h ep name value
    -- the link is read behind the addition
    let c ← h.header hp
    dupHeaders ep fuel h c.next

/-- The body of a clone. -/
def dupBody (h : Heap) (ep : Ptr) (body : Option Ptr) : Exec Heap :=
  match body with
  | none => pure h
  | some p => do
    let s ← h.text (some p)
    let r ← h.event ep
    pure ((h.strdup i s).setEvent ep { r with body := some h.brk })

/-- `agc_event_dup`: the clone is at the address that was the next one. -/
def agcEventDup (fuel : ℕ) (h : Heap) (todup : Ptr) : Exec Heap := do
  let r ← h.event todup
  let ep := h.brk
  let h ← dupHeaders i ep fuel (agcEventCreate i h r.eventId r.sourceId) r.headers
  dupBody i h ep r.body

/-- The loop of `agc_event_destroy`. -/
def destroyLoop : ℕ → Heap → Option Ptr → Exec Heap
  | 0, _, _ => .error .fuel
  | _ + 1, h, none => pure h
  | fuel + 1, h, some hp => do
    let c ← h.header hp
    destroyLoop fuel (freeNode i h hp c) c.next

/-- `agc_event_destroy`, of an event that is not null. -/
def agcEventDestroy (fuel : ℕ) (h : Heap) (ep : Ptr) : Exec Heap := do
  let r ← h.event ep
  let h ← destroyLoop i fuel h r.headers
  pure (h.freeText i r.body)

/-- `agc_event_deliver`, behind the subscribers: an event that is not a fast one is destroyed. What
the subscribers do to events are calls of their own. -/
def agcEventDeliver (fuel : ℕ) (h : Heap) (ep : Ptr) : Exec Heap := do
  let r ← h.event ep
  if r.fast then pure h else agcEventDestroy i fuel h ep

end Functions

/-! ## Calls on any number of events -/

/-- A call. The events are numbered in the order in which they are made. -/
inductive Op
  | create (eventId : ℤ) (sourceId : UInt32)
  | createCallback (sourceId : UInt32) (data callback : ℕ)
  | addHeader (i : ℕ) (name : CStr) (data : Option CStr)
  | addHeaderString (i : ℕ) (name : CStr) (data : Option CStr)
  | delHeader (i : ℕ) (name : CStr)
  | setBody (i : ℕ) (body : Option CStr)
  | addBody (i : ℕ) (data : Option CStr)
  | dup (i : ℕ)
  | destroy (i : ℕ)
  | deliver (i : ℕ)

/-- The heap and the caller's pointers to the events; that of a destroyed event is null. -/
structure World where
  heap : Heap
  events : List (Option Ptr)

/-- No events. -/
def World.init : World where
  heap := ⟨fun _ => none, fun _ => none, fun _ => none, 0, []⟩
  events := []

/-- The pointer to the event; a call on another one is a fault. -/
def World.ptr (w : World) (i : ℕ) : Exec Ptr :=
  match w.events[i]? with
  | some (some ep) => .ok ep
  | _ => .error .fault

/-- A call that leaves the pointers alone. -/
def World.on (w : World) (i : ℕ) (f : Heap → Ptr → Exec (Heap × AgcStatus)) : Exec World := do
  let ep ← w.ptr i
  let (h, _) ← f w.heap ep
  pure { w with heap := h }

/-- A call that makes an event. -/
def World.make (w : World) (f : Heap → Exec Heap) : Exec World := do
  let h ← f w.heap
  pure { heap := h, events := w.events ++ [some w.heap.brk] }

/-- A call that ends an event, whose pointer becomes null. -/
def World.finish (w : World) (i : ℕ) (f : Heap → Ptr → Exec Heap) : Exec World := do
  let ep ← w.ptr i
  let h ← f w.heap ep
  pure { heap := h, events := w.events.set i none }

/-- What a call does. -/
def step (fuel : ℕ) (w : World) : Op → Exec World
  | .create eventId sourceId =>
    w.make fun h => pure (agcEventCreate w.events.length h eventId sourceId)
  | .createCallback sourceId data callback =>
    w.make fun h => agcEventCreateCallback w.events.length h sourceId data callback
  | .addHeader i name data => w.on i fun h ep => agcEventAddHeader i h ep name data
  | .addHeaderString i name data =>
    w.on i fun h ep => agcEventAddHeaderString i fuel h ep name data
  | .delHeader i name => w.on i fun h ep => agcEventDelHeader i fuel h ep name
  | .setBody i body => w.on i fun h ep => agcEventSetBody i h ep body
  | .addBody i data => w.on i fun h ep => agcEventAddBody i h ep data
  | .dup i => do
    let todup ← w.ptr i
    w.make fun h => agcEventDup w.events.length fuel h todup
  | .destroy i =>
    match w.events[i]? with
    -- nothing is done to an event that is null
    | some none => pure w
    | _ => w.finish i fun h ep => agcEventDestroy i fuel h ep
  | .deliver i => w.finish i fun h ep => agcEventDeliver i fuel h ep

/-- The calls of a run. -/
def run (fuel : ℕ) (ops : List Op) : Exec World := ops.foldlM (step fuel) World.init

end EventHeap
