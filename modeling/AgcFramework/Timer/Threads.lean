import AgcFramework.Lib.Trace
import AgcFramework.Timer.Model

/-!
# The timers under threads

The dispatcher thread and the callers of `agc_timer_add_timer` share the tree and the flags of the
events. Only the single operations on the tree are under the mutex. In between a call the other
threads may take steps: the dispatcher reads the root, takes the minimum below it, compares its
key, clears its flag, removes it and fires it; an arming removes the event if its flag is set, sets
its key, inserts it and sets its flag.

A re-arming of the event that the dispatcher has found expired breaks the tree or fires the event
too early. The steps of a run are undisturbed when no arming comes into these gaps, and then all
is well.

## Main definitions

* `TimerThreads`, `TimerThreads.step`: the shared state, the place of each thread, and a step
* `TimerThreads.Undisturbed`: no arming comes into the gaps of the dispatcher
* `TimerThreads.SafeStep`: the step does what the tree and the deadlines allow

## Main results

* `TimerThreads.Inv.step`: an undisturbed step keeps the invariant
* `TimerThreads.undisturbed_safe`: an undisturbed run is safe in every step
-/

open RedBlack Rbtree Exec Trace

/-- How far a call of `agc_timer_add_timer` is, with the key it has computed. -/
inductive Arming
  /-- Before the flag is looked at. -/
  | started (key : Key)
  /-- The event is not in the tree. -/
  | detached (key : Key)
  /-- The key is set. -/
  | keyed (key : Key)
  /-- The event is in the tree; its flag is not set yet. -/
  | inserted (key : Key)
  deriving DecidableEq

/-- How far the iteration of the dispatcher is, with the millisecond it runs at. -/
inductive DispatchPoint
  | idle
  /-- The root is read. -/
  | rooted (ms : Key) (root : Ptr)
  /-- The minimum below the root is taken. -/
  | found (ms : Key) (node : Ptr)
  /-- Its deadline has passed. -/
  | expired (ms : Key) (node : Ptr)
  /-- Its flag is cleared. -/
  | cleared (ms : Key) (node : Ptr)
  /-- It is removed and is to be fired. -/
  | removed (ms : Key) (node : Ptr)
  deriving DecidableEq

/-- The tree and the flags, with the calls in progress. At most one call is in progress for an
event. -/
structure TimerThreads where
  tree : Rbtree
  timerSet : Ptr → Bool
  arming : Ptr → Option Arming
  dispatcher : DispatchPoint
  /-- Ghost state: the deadline of the latest completed arming of an event. -/
  deadline : Ptr → Option Key

/-- A step of a thread, with the clock it reads. -/
inductive ThreadStep
  /-- A thread calls `agc_timer_add_timer`. -/
  | begin (ev : Ptr) (now : ℤ) (timer : Key)
  /-- The call for the event goes on. -/
  | arm (ev : Ptr)
  /-- The dispatcher goes on. -/
  | dispatch (now : ℤ)

namespace TimerThreads

/-- After `agc_timer_init`. -/
def init (t : Rbtree) (s : Ptr) : TimerThreads where
  tree := agcRbtreeInit t s
  timerSet _ := false
  arming _ := none
  dispatcher := .idle
  deadline _ := none

/-- The call for the event is at the given place. -/
def setArming (g : TimerThreads) (ev : Ptr) (a : Option Arming) : TimerThreads :=
  { g with arming := Function.update g.arming ev a }

/-- A step of `agc_timer_add_timer`. -/
def armStep (fuel : ℕ) (g : TimerThreads) (ev : Ptr) : Arming → Exec TimerThreads
  | .started key => do
    -- `agc_timer_del_timer` under the mutex, without a change of the flag
    let tree ← if g.timerSet ev then agcRbtreeDelete fuel g.tree ev else pure g.tree
    pure ({ g with tree }.setArming ev (some (.detached key)))
  | .detached key => do
    let tree ← g.tree.setKey ev key
    pure ({ g with tree }.setArming ev (some (.keyed key)))
  | .keyed key => do
    let tree ← agcRbtreeInsert agcRbtreeInsertTimerValue fuel g.tree ev
    pure ({ g with tree }.setArming ev (some (.inserted key)))
  | .inserted key =>
    pure ({ g with
      timerSet := Function.update g.timerSet ev true
      deadline := Function.update g.deadline ev (some key) }.setArming ev none)

/-- A step of `agc_timer_dispatch_timer`. -/
def dispatchStep (fuel : ℕ) (g : TimerThreads) (now : ℤ) : DispatchPoint → Exec TimerThreads
  | .idle =>
    -- the root is read outside the mutex
    if g.tree.root = g.tree.sentinel then pure g
    else pure { g with dispatcher := .rooted (currentMs now) g.tree.root }
  | .rooted ms root => do
    let node ← agcRbtreeMin g.tree fuel root
    pure { g with dispatcher := .found ms node }
  | .found ms node => do
    -- the key, too, is read outside the mutex
    let key ← g.tree.getKey node
    if 0 < (key - ms).toInt then pure { g with dispatcher := .idle }
    else pure { g with dispatcher := .expired ms node }
  | .expired ms node =>
    pure { g with
      timerSet := Function.update g.timerSet node false
      dispatcher := .cleared ms node }
  | .cleared ms node => do
    let tree ← agcRbtreeDelete fuel g.tree node
    pure { g with tree, dispatcher := .removed ms node }
  | .removed _ _ => pure { g with dispatcher := .idle }

/-- A step. A thread without a call in progress does nothing. -/
def step (fuel : ℕ) (g : TimerThreads) : ThreadStep → Exec TimerThreads
  | .begin ev now timer =>
    match g.arming ev with
    | none => pure (g.setArming ev (some (.started (currentMs now + timer))))
    | some _ => pure g
  | .arm ev =>
    match g.arming ev with
    | none => pure g
    | some a => g.armStep fuel ev a
  | .dispatch now => g.dispatchStep fuel now g.dispatcher

/-- A run. -/
def run (fuel : ℕ) (g : TimerThreads) (ls : List ThreadStep) : Exec TimerThreads :=
  ls.foldlM (step fuel) g

/-! ## What is to hold, and when -/

def InTree (g : TimerThreads) (ev : Ptr) : Prop := ∃ T, g.tree.Shape T ∧ ev ∈ T.inorder

def NotInTree (g : TimerThreads) (ev : Ptr) : Prop := ∃ T, g.tree.Shape T ∧ ev ∉ T.inorder

/-- What the next step of a call needs: a removal, of a node in the tree; a new key and an
insertion, of a node outside it. -/
def SafeArm (g : TimerThreads) (ev : Ptr) : Arming → Prop
  | .started _ => g.timerSet ev = true → g.InTree ev
  | .detached _ => g.NotInTree ev
  | .keyed _ => g.NotInTree ev
  | .inserted _ => True

/-- What the next step of the dispatcher needs: a removal, of a node in the tree; a firing, that
the deadline of the latest completed arming has passed. -/
def SafeDispatch (g : TimerThreads) : DispatchPoint → Prop
  | .cleared _ node => g.InTree node
  | .removed ms node => ∀ key, g.deadline node = some key → (key - ms).toInt ≤ 0
  | _ => True

/-- The step does what the tree and the deadlines allow. -/
def SafeStep (g : TimerThreads) : ThreadStep → Prop
  | .begin _ _ _ => True
  | .arm ev => ∀ a, g.arming ev = some a → g.SafeArm ev a
  | .dispatch _ => g.SafeDispatch g.dispatcher

/-- No call for the event has gone past its look at the flag. -/
def Quiet : Option Arming → Prop
  | none => True
  | some (.started _) => True
  | some _ => False

/-- The dispatcher has found the event expired and has not removed it. -/
inductive Stage
  | expired (ms : Key)
  | cleared (ms : Key)

def stageOf (ev : Ptr) : DispatchPoint → Option Stage
  | .expired ms node => if node = ev then some (.expired ms) else none
  | .cleared ms node => if node = ev then some (.cleared ms) else none
  | _ => none

/-- The step does not come into a gap of the dispatcher: a call does not go on with an event that
the dispatcher has found expired and not removed, and none is completed with a deadline still ahead
between the removal and the firing; the root the dispatcher has read is in the tree when it takes
the minimum; no call is under way for a node it finds expired. -/
def Undisturbed (g : TimerThreads) : ThreadStep → Prop
  | .begin _ _ _ => True
  | .arm ev => stageOf ev g.dispatcher = none ∧
      ∀ ms key, g.dispatcher = .removed ms ev → g.arming ev = some (.inserted key) →
        (key - ms).toInt ≤ 0
  | .dispatch _ =>
    match g.dispatcher with
    | .rooted _ root => g.InTree root
    | .found ms node => (g.tree.key node - ms).toInt ≤ 0 → Quiet (g.arming node)
    | _ => True

/-! ## The invariant -/

/-- What concerns one event. -/
structure View where
  flag : Bool
  pending : Option Key
  key : Key
  deadline : Option Key
  arming : Option Arming
  stage : Option Stage

def view (g : TimerThreads) (m : Pending) (ev : Ptr) : View where
  flag := g.timerSet ev
  pending := m ev
  key := g.tree.key ev
  deadline := g.deadline ev
  arming := g.arming ev
  stage := stageOf ev g.dispatcher

/-- The states of an event. -/
inductive View.Ok (v : View) : Prop
  /-- The flag says whether the event is in the tree, under its deadline. -/
  | resting (hs : v.stage = none) (ha : Quiet v.arming) (hf : v.flag = true ↔ v.pending ≠ none)
      (hd : ∀ k, v.pending = some k → v.deadline = some k)
  | detached (k : Key) (hs : v.stage = none) (ha : v.arming = some (.detached k))
      (hp : v.pending = none)
  | keyed (k : Key) (hs : v.stage = none) (ha : v.arming = some (.keyed k)) (hp : v.pending = none)
      (hk : v.key = k)
  | inserted (k : Key) (hs : v.stage = none) (ha : v.arming = some (.inserted k))
      (hp : v.pending = some k)
  /-- The deadline has passed, and the event is in the tree. -/
  | expired (ms k : Key) (hs : v.stage = some (.expired ms)) (ha : Quiet v.arming)
      (hf : v.flag = true) (hp : v.pending = some k) (hd : v.deadline = some k)
      (hdue : (k - ms).toInt ≤ 0)
  | cleared (ms k : Key) (hs : v.stage = some (.cleared ms)) (ha : Quiet v.arming)
      (hf : v.flag = false) (hp : v.pending = some k) (hd : v.deadline = some k)
      (hdue : (k - ms).toInt ≤ 0)

/-- The tree holds the events of the map `m`, and every event is in one of its states. -/
structure Inv (g : TimerThreads) (T : ColorTree Ptr) (m : Pending) : Prop where
  holds : g.tree.Holds T m
  proper : ∀ ev, g.arming ev ≠ none → ev ≠ 0 ∧ ev ≠ g.tree.sentinel
  found : ∀ ms node, g.dispatcher = .found ms node →
    node ≠ 0 ∧ (Quiet (g.arming node) → m node ≠ none)
  removed : ∀ ms node, g.dispatcher = .removed ms node →
    ∀ key, g.deadline node = some key → (key - ms).toInt ≤ 0
  events : ∀ ev, (g.view m ev).Ok

/-- With enough fuel the code returns a state that keeps the invariant, with the same sentinel. -/
def ReturnsInv (g : TimerThreads) (f : ℕ → Exec TimerThreads) : Prop :=
  ∃ g' T' m', Returns f g' ∧ g'.Inv T' m' ∧ g'.tree.sentinel = g.tree.sentinel

theorem inv_init (t : Rbtree) {s : Ptr} (hs : s ≠ 0) : (init t s).Inv .leaf fun _ => none := by
  refine ⟨holds_init t hs, by simp [init], by simp [init], by simp [init], fun ev => ?_⟩
  exact .resting rfl trivial (by simp [view, init]) (by simp [view])

section Views

variable {v : View} {k : Key}

/-- An event that no thread has begun to move. -/
theorem View.Ok.of_quiet (h : v.Ok) (hs : v.stage = none) (ha : Quiet v.arming) :
    (v.flag = true ↔ v.pending ≠ none) ∧ ∀ k, v.pending = some k → v.deadline = some k := by
  cases h with
  | resting _ _ hf hd => exact ⟨hf, hd⟩
  | detached k _ ha' _ => rw [ha'] at ha; exact ha.elim
  | keyed k _ ha' _ _ => rw [ha'] at ha; exact ha.elim
  | inserted k _ ha' _ => rw [ha'] at ha; exact ha.elim
  | expired ms k hs' => rw [hs'] at hs; cases hs
  | cleared ms k hs' => rw [hs'] at hs; cases hs

/-- Where an event is while a call moves it. -/
def View.Placed (v : View) : Option Arming → Prop
  | some (.detached _) => v.pending = none
  | some (.keyed k) => v.pending = none ∧ v.key = k
  | some (.inserted k) => v.pending = some k
  | _ => True

theorem View.placed_of_quiet {a : Option Arming} (ha : Quiet a) : v.Placed a := by
  rcases a with _ | ⟨_ | _ | _ | _⟩
  · trivial
  · trivial
  all_goals exact ha.elim

theorem View.Ok.placed (h : v.Ok) : v.Placed v.arming := by
  cases h with
  | resting _ ha => exact placed_of_quiet ha
  | detached k _ ha hp => rw [ha]; exact hp
  | keyed k _ ha hp hk => rw [ha]; exact ⟨hp, hk⟩
  | inserted k _ ha hp => rw [ha]; exact hp
  | expired ms k _ ha => exact placed_of_quiet ha
  | cleared ms k _ ha => exact placed_of_quiet ha

end Views

section Steps

variable {g g' : TimerThreads} {T T' : ColorTree Ptr} {m m' : Pending} {ev : Ptr} {k ms : Key}

theorem Inv.inTree_iff (h : g.Inv T m) : g.InTree ev ↔ m ev ≠ none := by
  rw [← h.holds.nodes ev]
  constructor
  · rintro ⟨T', hs, hev⟩
    rwa [h.holds.shape.unique hs]
  · exact fun hev => ⟨T, h.holds.shape, hev⟩

theorem Inv.notInTree (h : g.Inv T m) (hm : m ev = none) : g.NotInTree ev :=
  ⟨T, h.holds.shape, fun hev => (h.holds.nodes ev).mp hev hm⟩

/-- A step of the call for one event. The other events are left alone. -/
theorem Inv.moveCall (h : g.Inv T m) (hholds : g'.tree.Holds T' m')
    (hsen : g'.tree.sentinel = g.tree.sentinel) (hdis : g'.dispatcher = g.dispatcher)
    (hev : ev ≠ 0 ∧ ev ≠ g.tree.sentinel) (hothers : ∀ e, e ≠ ev → g'.view m' e = g.view m e)
    (hok : (g'.view m' ev).Ok)
    (hfound : (Quiet (g.arming ev) → m ev ≠ none) → Quiet (g'.arming ev) → m' ev ≠ none)
    (hremoved : ∀ ms, g.dispatcher = .removed ms ev →
      ∀ key, g'.deadline ev = some key → (key - ms).toInt ≤ 0) : g'.Inv T' m' := by
  refine ⟨hholds, fun e he => ?_, fun ms a ha => ?_, fun ms a ha => ?_, fun e => ?_⟩
  · -- the events of the calls: the call is that of `ev`
    rw [hsen]
    by_cases hee : e = ev
    · rw [hee]
      exact hev
    · have harm : g'.arming e = g.arming e := congrArg View.arming (hothers e hee)
      rw [harm] at he
      exact h.proper e he
  · -- the minimum that the dispatcher has found
    rw [hdis] at ha
    obtain ⟨ha0, hquiet⟩ := h.found ms a ha
    refine ⟨ha0, ?_⟩
    by_cases hae : a = ev
    · rw [hae] at hquiet ⊢
      exact hfound hquiet
    · have harm : g'.arming a = g.arming a := congrArg View.arming (hothers a hae)
      have hm : m' a = m a := congrArg View.pending (hothers a hae)
      rw [harm, hm]
      exact hquiet
  · -- the event that the dispatcher has removed
    rw [hdis] at ha
    by_cases hae : a = ev
    · rw [hae] at ha ⊢
      exact hremoved ms ha
    · have hd : g'.deadline a = g.deadline a := congrArg View.deadline (hothers a hae)
      rw [hd]
      exact h.removed ms a ha
  · by_cases hee : e = ev
    · rw [hee]
      exact hok
    · rw [hothers e hee]
      exact h.events e

/-- Where the event of a call in progress is. -/
theorem Inv.placed (h : g.Inv T m) {a : Arming} (ha : g.arming ev = some a) :
    (g.view m ev).Placed (some a) := by
  have := (h.events ev).placed
  rwa [show (g.view m ev).arming = some a from ha] at this

/-- The flag of an event that no thread has begun to move. -/
theorem Inv.flag_iff (h : g.Inv T m) (hs : stageOf ev g.dispatcher = none)
    (ha : Quiet (g.arming ev)) :
    (g.timerSet ev = true ↔ m ev ≠ none) ∧ ∀ k, m ev = some k → g.deadline ev = some k :=
  (h.events ev).of_quiet hs ha

@[simp] theorem setArming_self (g : TimerThreads) (ev : Ptr) (a : Option Arming) :
    (g.setArming ev a).arming ev = a := Function.update_self _ _ _

/-- A call past its look at the flag is not quiet, so a found event need not be in the tree. -/
theorem not_quiet_setArming {a : Arming} (ha : ¬ Quiet (some a)) :
    ¬ Quiet ((g.setArming ev (some a)).arming ev) := by
  rw [setArming_self]
  exact ha

theorem view_setArming_of_ne {e : Ptr} (he : e ≠ ev) (a : Option Arming) :
    (g.setArming ev a).view m e = g.view m e := by
  simp [view, setArming, Function.update_of_ne he]

/-! ### Calls of `agc_timer_add_timer` -/

/-- A call that has begun. -/
theorem Inv.begin (h : g.Inv T m) (ha : g.arming ev = none)
    (hev : ev ≠ 0 ∧ ev ≠ g.tree.sentinel) :
    (g.setArming ev (some (.started k))).Inv T m := by
  have hquiet : Quiet (g.arming ev) := by
    rw [ha]
    trivial
  have hnew := setArming_self g ev (some (.started k))
  refine h.moveCall h.holds rfl rfl hev (fun e he => view_setArming_of_ne he _) ?_
    (fun hf _ => hf hquiet) fun ms hms => h.removed ms ev hms
  -- nothing that the state of the event speaks of has changed
  cases h.events ev with
  | resting hs _ hf hd => exact .resting hs (by rw [view, hnew]; trivial) hf hd
  | detached k _ ha' =>
    rw [view, ha] at ha'
    cases ha'
  | keyed k _ ha' =>
    rw [view, ha] at ha'
    cases ha'
  | inserted k _ ha' =>
    rw [view, ha] at ha'
    cases ha'
  | expired ms k hs _ hf hp hd hdue =>
    exact .expired ms k hs (by rw [view, hnew]; trivial) hf hp hd hdue
  | cleared ms k hs _ hf hp hd hdue =>
    exact .cleared ms k hs (by rw [view, hnew]; trivial) hf hp hd hdue

/-- The event is taken out of the tree if its flag is set. -/
theorem Inv.arm_started (h : g.Inv T m) (ha : g.arming ev = some (.started k))
    (hs : stageOf ev g.dispatcher = none) :
    g.ReturnsInv fun fuel => g.armStep fuel ev (.started k) := by
  have hquiet : Quiet (g.arming ev) := by
    rw [ha]
    trivial
  have hev := h.proper ev (by simp [ha])
  obtain ⟨hflag, -⟩ := h.flag_iff hs hquiet
  by_cases hset : g.timerSet ev = true
  · -- the flag is set, so the event is in the tree
    obtain ⟨t', T', hrun, hh, hsen, hkey, -⟩ := h.holds.delete (hflag.mp hset)
    refine ⟨({ g with tree := t' }.setArming ev (some (.detached k))), T',
      Function.update m ev none, ?_, ?_, hsen⟩
    · refine Returns.congr (f := fun fuel => agcRbtreeDelete fuel g.tree ev >>= fun tree =>
        .ok ({ g with tree }.setArming ev (some (.detached k)))) (hrun.bind (Returns.const _)) ?_
      intro fuel
      simp only [armStep, hset, if_true, pure_eq_ok]
    · refine h.moveCall hh hsen rfl hev (fun e he => ?_) ?_ ?_ fun ms hms => h.removed ms ev hms
      · rw [view_setArming_of_ne he]
        simp [view, hkey, Function.update_of_ne he]
      · exact .detached k hs (Function.update_self _ _ _) (Function.update_self _ _ _)
      · exact fun _ hq => absurd hq (not_quiet_setArming id)
  · -- the flag is not set, and no thread is moving the event: it is outside the tree
    have hm : m ev = none := by
      by_contra hne
      exact hset (hflag.mpr hne)
    refine ⟨g.setArming ev (some (.detached k)), T, m, ?_, ?_, rfl⟩
    · refine (Returns.const _).congr fun fuel => ?_
      simp only [armStep, hset]
      rfl
    · refine h.moveCall h.holds rfl rfl hev (fun e he => view_setArming_of_ne he _) ?_ ?_
        fun ms hms => h.removed ms ev hms
      · exact .detached k hs (Function.update_self _ _ _) hm
      · exact fun _ hq => absurd hq (not_quiet_setArming id)

/-- The key of an event outside the tree is set. -/
theorem Inv.arm_detached (h : g.Inv T m) (ha : g.arming ev = some (.detached k))
    (hs : stageOf ev g.dispatcher = none) :
    g.ReturnsInv fun fuel => g.armStep fuel ev (.detached k) := by
  have hev := h.proper ev (by simp [ha])
  have hm : m ev = none := h.placed ha
  refine ⟨{ g with tree := g.tree.putKey ev k }.setArming ev (some (.keyed k)), T, m, ?_, ?_, rfl⟩
  · refine (Returns.const _).congr fun fuel => ?_
    simp only [armStep, setKey_eq _ _ hev.1, ok_bind]
    rfl
  · refine h.moveCall (h.holds.putKey hm k) rfl rfl hev (fun e he => ?_) ?_ ?_
      fun ms hms => h.removed ms ev hms
    · rw [view_setArming_of_ne he]
      simp [view, he]
    · refine .keyed k hs (setArming_self _ _ _) hm ?_
      simp [view, setArming]
    · exact fun _ hq => absurd hq (not_quiet_setArming id)

/-- The event is put into the tree under its key. -/
theorem Inv.arm_keyed (h : g.Inv T m) (ha : g.arming ev = some (.keyed k))
    (hs : stageOf ev g.dispatcher = none) :
    g.ReturnsInv fun fuel => g.armStep fuel ev (.keyed k) := by
  have hev := h.proper ev (by simp [ha])
  obtain ⟨hm, hk⟩ : m ev = none ∧ g.tree.key ev = k := h.placed ha
  obtain ⟨t', T', ρ, hrun, hh, hsen, hkey, -⟩ := h.holds.insert hev.1 hev.2 hm k
  -- the key has been set by the step before
  have hput : g.tree.putKey ev k = g.tree := by
    rw [← hk]
    simp [putKey]
  refine ⟨{ g with tree := t' }.setArming ev (some (.inserted k)), T',
    Function.update m ev (some k), ?_, ?_, hsen⟩
  · refine Returns.congr (f := fun fuel => StoreOp.exec fuel g.tree (.insert ev k) >>= fun tree =>
      .ok ({ g with tree }.setArming ev (some (.inserted k)))) (hrun.bind (Returns.const _)) ?_
    intro fuel
    simp only [armStep, StoreOp.exec, setKey_eq _ _ hev.1, hput, ok_bind, pure_eq_ok]
  · refine h.moveCall hh hsen rfl hev (fun e he => ?_) ?_ ?_ fun ms hms => h.removed ms ev hms
    · rw [view_setArming_of_ne he]
      simp [view, hkey, Function.update_of_ne he]
    · exact .inserted k hs (setArming_self _ _ _) (Function.update_self _ _ _)
    · exact fun _ hq => absurd hq (not_quiet_setArming id)

/-- The arming is completed. -/
theorem Inv.arm_inserted (h : g.Inv T m) (ha : g.arming ev = some (.inserted k))
    (hs : stageOf ev g.dispatcher = none)
    (hdue : ∀ ms, g.dispatcher = .removed ms ev → (k - ms).toInt ≤ 0) :
    g.ReturnsInv fun fuel => g.armStep fuel ev (.inserted k) := by
  have hev := h.proper ev (by simp [ha])
  have hm : m ev = some k := h.placed ha
  refine ⟨_, T, m, Returns.const _, ?_, rfl⟩
  refine h.moveCall h.holds rfl rfl hev (fun e he => ?_) ?_ ?_ fun ms hms key hkey => ?_
  · rw [view_setArming_of_ne he]
    simp [view, Function.update_of_ne he]
  · refine .resting hs (by rw [view, setArming_self]; trivial) ?_ fun k' hk' => ?_
    · simp [view, setArming, hm]
    · obtain rfl : k = k' := Option.some.inj (hm.symm.trans hk')
      simp [view, setArming]
  · intro _ _
    simp [hm]
  · obtain rfl : k = key := by simpa [setArming] using hkey
    exact hdue ms hms

/-- An undisturbed step of a call. -/
theorem Inv.arm (h : g.Inv T m) {a : Arming} (ha : g.arming ev = some a)
    (hu : g.Undisturbed (.arm ev)) :
    g.ReturnsInv fun fuel => g.armStep fuel ev a := by
  obtain ⟨hs, hdue⟩ := hu
  cases a with
  | started k => exact h.arm_started ha hs
  | detached k => exact h.arm_detached ha hs
  | keyed k => exact h.arm_keyed ha hs
  | inserted k => exact h.arm_inserted ha hs fun ms hms => hdue ms k hms ha

/-! ### The dispatcher -/

/-- The dispatcher moves without touching an event. -/
theorem Inv.moveDispatcher (h : g.Inv T m) {d : DispatchPoint}
    (hstage : ∀ e, stageOf e d = stageOf e g.dispatcher)
    (hfound : ∀ ms node, d = .found ms node →
      node ≠ 0 ∧ (Quiet (g.arming node) → m node ≠ none))
    (hremoved : ∀ ms node, d ≠ .removed ms node) : { g with dispatcher := d }.Inv T m := by
  refine ⟨h.holds, h.proper, hfound, fun ms node hd => absurd hd (hremoved ms node), fun e => ?_⟩
  have hview : { g with dispatcher := d }.view m e = g.view m e := by
    simp [view, hstage e]
  rw [hview]
  exact h.events e

/-- The minimum below a node of the tree is a node of the tree. -/
theorem min_of_inTree {root : Ptr} (h : g.Inv T m) (hroot : g.InTree root) :
    ∃ node, node ∈ T.inorder ∧ Returns (fun fuel => agcRbtreeMin g.tree fuel root) node := by
  have hmem : root ∈ T.inorder := (h.holds.nodes root).mpr (h.inTree_iff.mp hroot)
  -- the root that was read need not be the root any more, only a node of the tree
  obtain ⟨π, c, l, r, rfl⟩ := exists_path hmem
  obtain ⟨ρ, c', y, u, hfill, -, hmin⟩ := agcRbtreeMin_spec h.holds.shape (by simp)
  refine ⟨y, ?_, ⟨_, hmin⟩⟩
  rw [hfill, mem_inorder_fill, mem_inorder_fill]
  simp [ColorTree.inorder]

/-- The dispatcher finds the event expired: no thread has begun to move it. -/
theorem Inv.expire (h : g.Inv T m) (hd : g.dispatcher = .found ms ev)
    (hdue : (g.tree.key ev - ms).toInt ≤ 0) (ha : Quiet (g.arming ev)) :
    { g with dispatcher := .expired ms ev }.Inv T m := by
  have hs : stageOf ev g.dispatcher = none := by rw [hd]; rfl
  obtain ⟨hflag, hdead⟩ := h.flag_iff hs ha
  obtain ⟨-, hfound⟩ := h.found ms ev hd
  obtain ⟨k, hk⟩ := Option.ne_none_iff_exists'.mp (hfound ha)
  -- the event waits for its removal; the other events stay in their states
  refine ⟨h.holds, h.proper, by simp, by simp, fun e => ?_⟩
  by_cases hee : e = ev
  · subst hee
    refine .expired ms k (by simp [view, stageOf]) ha (hflag.mpr (hfound ha)) hk (hdead k hk) ?_
    rwa [h.holds.keys e k hk] at hdue
  · have hview : { g with dispatcher := .expired ms ev }.view m e = g.view m e := by
      simp [view, stageOf, hd, Ne.symm hee]
    rw [hview]
    exact h.events e

theorem View.Ok.of_expired {v : View} (h : v.Ok) (hs : v.stage = some (.expired ms)) :
    Quiet v.arming ∧ ∃ k, v.pending = some k ∧ v.deadline = some k ∧ (k - ms).toInt ≤ 0 := by
  cases h with
  | expired ms' k hs' ha hf hp hd hdue =>
    rw [hs'] at hs
    cases hs
    exact ⟨ha, k, hp, hd, hdue⟩
  | resting hs' | detached _ hs' | keyed _ hs' | inserted _ hs' | cleared _ _ hs' =>
    rw [hs'] at hs
    cases hs

theorem View.Ok.of_cleared {v : View} (h : v.Ok) (hs : v.stage = some (.cleared ms)) :
    Quiet v.arming ∧ v.flag = false ∧
      ∃ k, v.pending = some k ∧ v.deadline = some k ∧ (k - ms).toInt ≤ 0 := by
  cases h with
  | cleared ms' k hs' ha hf hp hd hdue =>
    rw [hs'] at hs
    cases hs
    exact ⟨ha, hf, k, hp, hd, hdue⟩
  | resting hs' | detached _ hs' | keyed _ hs' | inserted _ hs' | expired _ _ hs' =>
    rw [hs'] at hs
    cases hs

theorem Inv.of_cleared (h : g.Inv T m) (hd : g.dispatcher = .cleared ms ev) :
    Quiet (g.arming ev) ∧ g.timerSet ev = false ∧
      ∃ k, m ev = some k ∧ g.deadline ev = some k ∧ (k - ms).toInt ≤ 0 :=
  (h.events ev).of_cleared (by simp [view, hd, stageOf])

/-- The flag of the expired event is cleared. -/
theorem Inv.clear (h : g.Inv T m) (hd : g.dispatcher = .expired ms ev) :
    { g with
      timerSet := Function.update g.timerSet ev false
      dispatcher := .cleared ms ev }.Inv T m := by
  have hs : (g.view m ev).stage = some (.expired ms) := by simp [view, hd, stageOf]
  obtain ⟨ha, k, hp, hdead, hdue⟩ := (h.events ev).of_expired hs
  refine ⟨h.holds, h.proper, by simp, by simp, fun e => ?_⟩
  by_cases hee : e = ev
  · subst hee
    exact .cleared ms k (by simp [view, stageOf]) ha (Function.update_self _ _ _) hp hdead hdue
  · have hview : { g with
        timerSet := Function.update g.timerSet ev false
        dispatcher := .cleared ms ev }.view m e = g.view m e := by
      simp [view, stageOf, hd, Ne.symm hee, Function.update_of_ne hee]
    rw [hview]
    exact h.events e

/-- The expired event is removed. -/
theorem Inv.remove (h : g.Inv T m) (hd : g.dispatcher = .cleared ms ev) :
    ∃ t' T', Returns (fun fuel => agcRbtreeDelete fuel g.tree ev) t' ∧
      { g with tree := t', dispatcher := .removed ms ev }.Inv T' (Function.update m ev none) ∧
      t'.sentinel = g.tree.sentinel := by
  obtain ⟨ha, hf, k, hp, hdead, hdue⟩ := h.of_cleared hd
  obtain ⟨t', T', hrun, hh, hsen, hkey, -⟩ := h.holds.delete (a := ev) (by simp [hp])
  refine ⟨t', T', hrun, ⟨hh, fun e he => ?_, by simp, ?_, fun e => ?_⟩, hsen⟩
  · rw [hsen]
    exact h.proper e he
  · -- the firing: the deadline of the event is the key it had in the tree
    intro ms' node hd' key hk
    cases hd'
    obtain rfl : k = key := Option.some.inj (hdead.symm.trans hk)
    exact hdue
  · by_cases hee : e = ev
    · subst hee
      exact .resting rfl ha (by simp [view, hf]) (by simp [view])
    · have hview : { g with tree := t', dispatcher := .removed ms ev }.view
          (Function.update m ev none) e = g.view m e := by
        simp [view, stageOf, hd, Ne.symm hee, Function.update_of_ne hee, hkey]
      rw [hview]
      exact h.events e

/-- An undisturbed step of the dispatcher. -/
theorem Inv.dispatch (h : g.Inv T m) {now : ℤ} (hu : g.Undisturbed (.dispatch now)) :
    g.ReturnsInv fun fuel => g.dispatchStep fuel now g.dispatcher := by
  simp only [Undisturbed] at hu
  cases hd : g.dispatcher with
  | idle =>
    by_cases hroot : g.tree.root = g.tree.sentinel
    · exact ⟨g, T, m, (Returns.const g).congr fun _ => if_pos hroot, h, rfl⟩
    · refine ⟨_, T, m, (Returns.const _).congr fun _ => if_neg hroot, ?_, rfl⟩
      exact h.moveDispatcher (fun e => by rw [hd]; rfl) (by simp) (by simp)
  | rooted ms root =>
    rw [hd] at hu
    -- a root outside the tree is excluded: the minimum starts at a node of the tree
    obtain ⟨node, hnode, hmin⟩ := min_of_inTree h hu
    refine ⟨_, T, m, hmin.bind (Returns.const _), ?_, rfl⟩
    refine h.moveDispatcher (fun e => by rw [hd]; rfl) (fun ms' node' hf => ?_) (by simp)
    cases hf
    obtain ⟨rp, hh⟩ := h.holds.shape.hangs
    exact ⟨(hh.ne node hnode).1, fun _ => (h.holds.nodes node).mp hnode⟩
  | found ms node =>
    rw [hd] at hu
    obtain ⟨hnode, -⟩ := h.found ms node hd
    by_cases hdue : 0 < (g.tree.key node - ms).toInt
    · refine ⟨{ g with dispatcher := .idle }, T, m, (Returns.const _).congr fun fuel => ?_, ?_, rfl⟩
      · simp only [dispatchStep, getKey_eq _ hnode, ok_bind, hdue, if_true, pure_eq_ok]
      · exact h.moveDispatcher (fun e => by rw [hd]; rfl) (by simp) (by simp)
    · refine ⟨{ g with dispatcher := .expired ms node }, T, m,
        (Returns.const _).congr fun fuel => ?_, ?_, rfl⟩
      · simp only [dispatchStep, getKey_eq _ hnode, ok_bind, hdue, if_false, pure_eq_ok]
      · -- the only place where a call under way matters to the dispatcher
        exact h.expire hd (not_lt.mp hdue) (hu (not_lt.mp hdue))
  | expired ms node => exact ⟨_, T, m, Returns.const _, h.clear hd, rfl⟩
  | cleared ms node =>
    obtain ⟨t', T', hrun, hinv, hsen⟩ := h.remove hd
    exact ⟨_, T', _, hrun.bind (Returns.const _), hinv, hsen⟩
  | removed ms node =>
    refine ⟨_, T, m, Returns.const _, ?_, rfl⟩
    exact h.moveDispatcher (fun e => by rw [hd]; rfl) (by simp) (by simp)

/-- An event that a call arms is a node other than NULL and the sentinel. -/
def Proper (s : Ptr) : ThreadStep → Prop
  | .begin ev _ _ => ev ≠ 0 ∧ ev ≠ s
  | _ => True

/-- **One step** that is undisturbed keeps the invariant. -/
theorem Inv.step (h : g.Inv T m) {lab : ThreadStep} (hp : Proper g.tree.sentinel lab)
    (hu : g.Undisturbed lab) :
    g.ReturnsInv fun fuel => TimerThreads.step fuel g lab := by
  cases lab with
  | begin ev now timer =>
    cases ha : g.arming ev with
    | none =>
      refine ⟨g.setArming ev (some (.started (currentMs now + timer))), T, m,
        (Returns.const _).congr fun fuel => ?_, h.begin ha hp, rfl⟩
      simp only [TimerThreads.step, ha]
      rfl
    | some a =>
      refine ⟨g, T, m, (Returns.const g).congr fun fuel => ?_, h, rfl⟩
      simp only [TimerThreads.step, ha]
      rfl
  -- the next step of the call for the event, if there is one
  | arm ev =>
    cases ha : g.arming ev with
    | none =>
      refine ⟨g, T, m, (Returns.const g).congr fun fuel => ?_, h, rfl⟩
      simp only [TimerThreads.step, ha]
      rfl
    | some a =>
      obtain ⟨g', T', m', hrun, hinv, hsen⟩ := h.arm ha hu
      refine ⟨g', T', m', hrun.congr fun fuel => ?_, hinv, hsen⟩
      simp only [TimerThreads.step, ha]
  | dispatch now => exact h.dispatch hu

/-- An undisturbed step is safe. -/
theorem Inv.safeStep (h : g.Inv T m) {lab : ThreadStep} (hu : g.Undisturbed lab) :
    g.SafeStep lab := by
  cases lab with
  | begin ev now timer => trivial
  | arm ev =>
    intro a ha
    cases a with
    | started k =>
      intro hset
      have hquiet : Quiet (g.arming ev) := by
        rw [ha]
        trivial
      exact h.inTree_iff.mpr ((h.flag_iff hu.1 hquiet).1.mp hset)
    | detached k => exact h.notInTree (h.placed ha)
    | keyed k => exact h.notInTree (h.placed ha).1
    | inserted k => trivial
  | dispatch now =>
    show g.SafeDispatch g.dispatcher
    cases hd : g.dispatcher with
    | cleared ms node =>
      obtain ⟨-, -, k, hk, -⟩ := h.of_cleared hd
      exact h.inTree_iff.mpr (by simp [hk])
    | removed ms node => exact h.removed ms node hd
    | idle | rooted | found | expired => trivial

end Steps

/-! ## Runs -/

/-- In the state that the steps before have led to. -/
def After (t₀ : Rbtree) (s : Ptr) (pre : List ThreadStep) (g : TimerThreads) : Prop :=
  Returns (fun fuel => run fuel (init t₀ s) pre) g

theorem inv_run (t₀ : Rbtree) {s : Ptr} (hs : s ≠ 0) {ls : List ThreadStep}
    (hp : ∀ lab ∈ ls, Proper s lab)
    (hu : Throughout (fun pre lab => ∀ g, After t₀ s pre g → g.Undisturbed lab) ls) :
    (∃ g T m, After t₀ s ls g ∧ g.Inv T m ∧ g.tree.sentinel = s) ∧
      Throughout (fun pre lab => ∃ g, After t₀ s pre g ∧ g.SafeStep lab) ls := by
  induction ls using List.reverseRecOn with
  | nil => exact ⟨⟨_, .leaf, _, Returns.const _, inv_init t₀ hs, rfl⟩, throughout_nil⟩
  | append_singleton ls lab ih =>
    -- one more step: the invariant after the steps before makes it safe, and is kept by it
    obtain ⟨hu, hlab⟩ := throughout_snoc.mp hu
    obtain ⟨⟨g, T, m, hrun, hinv, hsen⟩, hsafe⟩ := ih
      (fun lab' hmem => hp lab' (List.mem_append_left _ hmem)) hu
    have hproper : Proper g.tree.sentinel lab := by
      rw [hsen]
      exact hp lab (by simp)
    obtain ⟨g', T', m', hstep, hinv', hsen'⟩ := hinv.step hproper (hlab g hrun)
    refine ⟨⟨g', T', m', Returns.foldlM_snoc hrun hstep, hinv', hsen'.trans hsen⟩, ?_⟩
    exact throughout_snoc.mpr ⟨hsafe, g, hrun, hinv.safeStep (hlab g hrun)⟩

/-- **The timers under threads.** In an undisturbed run every step returns and is safe: a node is
removed when it is in the tree, inserted and given a key when it is not, and an event is fired when
the deadline of its latest completed arming has passed. -/
theorem undisturbed_safe (t₀ : Rbtree) {s : Ptr} (hs : s ≠ 0) {ls : List ThreadStep}
    (hp : ∀ lab ∈ ls, Proper s lab)
    (hu : Throughout (fun pre lab => ∀ g, After t₀ s pre g → g.Undisturbed lab) ls) :
    Throughout (fun pre lab => ∃ g, After t₀ s pre g ∧ g.SafeStep lab) ls :=
  (inv_run t₀ hs hp hu).2

/-! ## The gaps -/

/-- An arming that begins between the clearing of the flag and the removal does not see that the
event is in the tree, and goes on to set its key there. -/
theorem Inv.cleared_gap {g : TimerThreads} {T : ColorTree Ptr} {m : Pending} {ev : Ptr} {k ms : Key}
    (h : g.Inv T m) (hd : g.dispatcher = .cleared ms ev) (ha : g.arming ev = some (.started k)) :
    ∃ g', Returns (fun fuel => TimerThreads.step fuel g (.arm ev)) g' ∧
      ¬ g'.SafeStep (.arm ev) := by
  obtain ⟨-, hflag, k', hk', -⟩ := h.of_cleared hd
  refine ⟨g.setArming ev (some (.detached k)), (Returns.const _).congr fun fuel => ?_,
    fun hsafe => ?_⟩
  · simp only [TimerThreads.step, ha, armStep, hflag]
    rfl
  · obtain ⟨T', hs', hnot⟩ := hsafe (.detached k) (setArming_self _ _ _)
    rw [← h.holds.shape.unique hs'] at hnot
    exact hnot ((h.holds.nodes ev).mpr (by simp [hk']))

/-- A run of few steps is read off the code. -/
theorem eq_of_after {α : Type} (f : TimerThreads → α) {a : α} {t₀ : Rbtree} {s : Ptr}
    {ls : List ThreadStep} {g : TimerThreads} (hg : After t₀ s ls g)
    (h : ∀ n, (run (n + 1) (init t₀ s) ls).toOption.map f = some a) : f g = a := by
  obtain ⟨n, hn⟩ := hg
  have hok : run (n + 1) (init t₀ s) ls = .ok g := hn (n + 1) (Nat.le_succ n)
  have hval := h n
  rw [hok] at hval
  exact Option.some.inj hval

/-- The memory of a tree of one node. -/
theorem inTree_single {g : TimerThreads} (h : (g.tree.sentinel, g.tree.root, g.tree.color 1,
    g.tree.child .left 2, g.tree.child .right 2) = (1, 2, .black, 1, 1)) : g.InTree 2 := by
  simp only [Prod.mk.injEq] at h
  obtain ⟨hsen, hroot, hblack, hleft, hright⟩ := h
  refine ⟨.node (g.tree.color 2) .leaf 2 .leaf, ⟨?_, ?_, hroot, ?_, g.tree.parent 2, ?_⟩, ?_⟩
  · rw [hsen]
    decide
  · rw [hsen]
    exact hblack
  · simp [ColorTree.inorder]
  · refine ⟨by decide, ?_, rfl, rfl, ?_, ?_, trivial, trivial⟩
    · rw [hsen]
      decide
    · rw [hleft]
      exact hsen.symm
    · rw [hright]
      exact hsen.symm
  · simp [ColorTree.inorder]

/-- An event is armed, the dispatcher finds it expired and clears its flag, and a second arming
begins. -/
def clearedRun : List ThreadStep :=
  [.begin 2 0 5, .arm 2, .arm 2, .arm 2, .arm 2, .dispatch 5000, .dispatch 5000, .dispatch 5000,
    .dispatch 5000, .begin 2 5000 5]

theorem clearedRun_proper : ∀ lab ∈ clearedRun, Proper 1 lab := by
  simp [clearedRun, Proper]

theorem clearedRun_undisturbed :
    Throughout (fun pre lab => ∀ g, After blank 1 pre g → g.Undisturbed lab) clearedRun := by
  have hidle : ∀ {g : TimerThreads}, g.dispatcher = .idle → g.Undisturbed (.arm 2) := by
    intro g hd
    refine ⟨by rw [hd]; rfl, fun ms key hr => ?_⟩
    rw [hd] at hr
    cases hr
  simp only [clearedRun, throughout_cons, throughout_nil, and_true]
  refine ⟨fun g _ => trivial, fun g hg => hidle (eq_of_after (·.dispatcher) hg fun n => rfl),
    fun g hg => hidle (eq_of_after (·.dispatcher) hg fun n => rfl),
    fun g hg => hidle (eq_of_after (·.dispatcher) hg fun n => rfl),
    fun g hg => hidle (eq_of_after (·.dispatcher) hg fun n => rfl), fun g hg => ?_, fun g hg => ?_,
    fun g hg => ?_, fun g hg => ?_, fun g _ => trivial⟩
  · have hd : g.dispatcher = .idle := eq_of_after (·.dispatcher) hg fun n => rfl
    simp only [Undisturbed, hd]
  · have hd : g.dispatcher = .rooted 5 2 := eq_of_after (·.dispatcher) hg fun n => rfl
    simp only [Undisturbed, hd]
    refine inTree_single (eq_of_after (fun g => (g.tree.sentinel, g.tree.root, g.tree.color 1,
      g.tree.child .left 2, g.tree.child .right 2)) hg fun n => rfl)
  · have hd : g.dispatcher = .found 5 2 := eq_of_after (·.dispatcher) hg fun n => rfl
    have ha : g.arming 2 = none := eq_of_after (·.arming 2) hg fun n => rfl
    simp only [Undisturbed, hd, ha]
    exact fun _ => trivial
  · have hd : g.dispatcher = .expired 5 2 := eq_of_after (·.dispatcher) hg fun n => rfl
    simp only [Undisturbed, hd]

/-- The steps of such a run are safe. -/
theorem undisturbed_safe_cleared :
    Throughout (fun pre lab => ∀ g, After blank 1 pre g → g.Undisturbed lab) clearedRun ∧
      Throughout (fun pre lab => ∃ g, After blank 1 pre g ∧ g.SafeStep lab) clearedRun :=
  ⟨clearedRun_undisturbed,
    undisturbed_safe blank (by decide) clearedRun_proper clearedRun_undisturbed⟩

/-- The second arming does not remove the event: its key is about to change in the tree. -/
theorem rearmed_in_tree : ∃ g, After blank 1 (clearedRun ++ [.arm 2]) g ∧
    ¬ g.SafeStep (.arm 2) := by
  obtain ⟨⟨g, T, m, hrun, hinv, -⟩, -⟩ := inv_run blank (by decide) clearedRun_proper
    clearedRun_undisturbed
  have hd : g.dispatcher = .cleared 5 2 := eq_of_after (·.dispatcher) hrun fun n => rfl
  have ha : g.arming 2 = some (.started 10) := eq_of_after (·.arming 2) hrun fun n => rfl
  obtain ⟨g', hstep, hunsafe⟩ := hinv.cleared_gap hd ha
  exact ⟨g', Returns.foldlM_snoc hrun hstep, hunsafe⟩

end TimerThreads
