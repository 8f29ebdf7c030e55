import AgcFramework.Lib.Decimal
import AgcFramework.Lib.Yaml

/-!
# The list of modules

`agc_loadable_module_init` reads the tokens of `modules.yml` in one flat loop. It keeps a current
block, a buffer for the next scalar and a flag for a module that is begun, and takes the structure
of the document from the entries and the ends of blocks. A key that it does not know ends the block
of the modules, also within an item of the list.

A `strcpy` that does not fit its buffer is a fault. A load that fails ends the process.

## Main definitions

* `step`: what the loop does at an event
* `agcLoadableModuleInit`: `agc_loadable_module_init` of `agc_module.c`, by its calls of
  `agc_loadable_module_loadfile`
* `Document`: a list of modules with what stands around it
* `Kept`: an item behind which the block of the modules goes on
* `Begun`: an item is begun and not finished, by the events so far
* `FitsFrom`: the scalars fit the buffers that they are copied to

## Main results

* `run_calm`, `calls_of_not_calm`: events either only set the locals or call the loader
* `calm_iff_quietBehind`: which of them they are, by the events alone
-/

open Exec Yaml Decimal Trace

namespace ModuleList

/-- The buffers of `agc_loadable_module_init`. -/
inductive Dest
  | moduleName
  | modulePath
  | moduleGlobal
  deriving DecidableEq

/-- The sizes of the buffers. -/
def Dest.size : Dest → ℕ
  | moduleName => 64
  | modulePath => 256
  | moduleGlobal => 16

/-- The key that selects a buffer. -/
def Dest.word : Dest → CStr
  | moduleName => CStr.ofString "name"
  | modulePath => CStr.ofString "path"
  | moduleGlobal => CStr.ofString "global"

/-- The key of the list. -/
def MODULES : CStr := CStr.ofString "modules"

/-- The empty string. -/
def EMPTY : CStr := CStr.ofString ""

/-- A call of `agc_loadable_module_loadfile`. -/
structure Call where
  dir : CStr
  fname : CStr
  global : Bool
  deriving DecidableEq

/-- The locals of `agc_loadable_module_init`, with the calls so far; `block` is whether it is
`BLOCK_MODULES`. -/
structure Init where
  block : Bool
  newModule : Bool
  datap : Option Dest
  buffers : Dest → CStr
  moduleCount : ℕ
  calls : List Call
  /-- The process has ended by `abort`. -/
  aborted : Bool

/-- `agc_is_number`. -/
def agcIsNumber (s : CStr) : Bool :=
  let s := match s.bytes with
    | 45 :: s => s
    | 43 :: s => s
    | s => s
  s.all fun b => b = 46 ∨ isDigit b

/-- `agc_true`. -/
def agcTrue (s : CStr) : Bool :=
  s.SameName (CStr.ofString "yes") ∨ s.SameName (CStr.ofString "on") ∨
    s.SameName (CStr.ofString "true") ∨ s.SameName (CStr.ofString "t") ∨
    s.SameName (CStr.ofString "enabled") ∨ s.SameName (CStr.ofString "active") ∨
    s.SameName (CStr.ofString "allow") ∨ (agcIsNumber s = true ∧ atoi s.bytes ≠ 0)

/-- The buffer that a key selects. -/
def keyDest (k : CStr) : Option Dest :=
  if k = MODULES then none
  else if k = Dest.moduleName.word then some .moduleName
  else if k = Dest.modulePath.word then some .modulePath
  else if k = Dest.moduleGlobal.word then some .moduleGlobal
  else none

/-- The block behind a key. -/
def blockAt (block : Bool) (k : CStr) : Bool :=
  if k = MODULES then true
  else if (keyDest k).isSome then block
  -- an unknown key, in whatever mapping it stands
  else false

/-- The call at the end of a block; the outcome of the `i`-th call is `loads i`. -/
def loadModule (loads : ℕ → Bool) (s : Init) : Init :=
  let call : Call :=
    ⟨s.buffers .modulePath, s.buffers .moduleName, agcTrue (s.buffers .moduleGlobal)⟩
  let calls := s.calls ++ [call]
  if loads s.calls.length then
    { s with calls := calls, moduleCount := s.moduleCount + 1, newModule := false }
  else { s with calls := calls, aborted := true }

/-- What the loop does at an event. -/
def step (loads : ℕ → Bool) (s : Init) (e : Event) : Exec Init :=
  if s.aborted then pure s
  else match e with
    | .key k => pure { s with block := blockAt s.block k, datap := keyDest k }
    | .value v =>
      match s.datap with
      | none => pure s
      | some d =>
        if v.bytes.length < d.size then pure { s with buffers := Function.update s.buffers d v }
        else .error .fault
    | .entry =>
      if s.block then pure { s with newModule := true, buffers := fun _ => EMPTY } else pure s
    | .stop => if s.block && s.newModule then pure (loadModule loads s) else pure s

/-- The locals at the start of the loop. -/
def start : Init where
  block := false
  newModule := false
  datap := none
  buffers _ := EMPTY
  moduleCount := 0
  calls := []
  aborted := false

/-- How the function ends. -/
inductive Ending
  | aborted
  | returned (success : Bool)
  deriving DecidableEq

/-- `agc_loadable_module_init`: the calls of `agc_loadable_module_loadfile`, and the end. -/
def agcLoadableModuleInit (loads : ℕ → Bool) (tokens : List Token) : Exec (List Call × Ending) := do
  let s ← scan (step loads) false tokens start
  pure (s.calls, if s.aborted then .aborted else .returned (decide (s.moduleCount ≠ 0)))

/-! ## Documents -/

/-- A document with a list of modules, by its events: those in front of the list, the items of the
list, and those behind it. -/
structure Document where
  front : List Event
  items : List (List Pair)
  back : List Event

/-- The events of an item. -/
def itemEvents (item : List Pair) : List Event := .entry :: (mapping item ++ [Event.stop])

namespace Document

variable (d : Document)

/-- The events up to the end of the item `i`. -/
def upTo (i : ℕ) : List Event :=
  d.front ++ .key MODULES :: (d.items.take i).flatMap itemEvents

/-- The events up to the end of the last item. -/
def head : List Event := d.front ++ .key MODULES :: d.items.flatMap itemEvents

/-- The events of the document. -/
def events : List Event := d.head ++ d.back

end Document

/-- The call that an item asks for. -/
def itemCall (item : List Pair) : Call where
  dir := (lastValue Dest.modulePath.word item).getD EMPTY
  fname := (lastValue Dest.moduleName.word item).getD EMPTY
  global := agcTrue ((lastValue Dest.moduleGlobal.word item).getD EMPTY)

/-- Each item is loaded once, at its end, and nothing else is loaded. -/
structure LoadsItems (loads : ℕ → Bool) (tokens : List Token) (d : Document) : Prop where
  upTo : ∀ i ≤ d.items.length, ∃ s, (d.upTo i).foldlM (step loads) start = .ok s ∧
    s.calls = (d.items.take i).map itemCall
  all : ∃ ending, agcLoadableModuleInit loads tokens = .ok (d.items.map itemCall, ending)

/-- Of the keys of the item that are not `name`, `path` or `global`, the last one is `modules`, if
there is any. -/
def Kept (item : List Pair) : Prop :=
  ∀ k ∈ ((item.map Prod.fst).filter fun k => keyDest k = none).getLast?, k = MODULES

instance (item : List Pair) : Decidable (Kept item) :=
  inferInstanceAs (Decidable (∀ k ∈ List.getLast? _, k = MODULES))

/-- The buffer behind some events. -/
def destAfter (d : Option Dest) (evs : List Event) : Option Dest :=
  evs.foldl (fun d e => match e with
    | .key k => keyDest k
    | .value _ | .entry | .stop => d) d

/-- The scalars fit the buffers that the keys before them select. -/
def FitsFrom : Option Dest → List Event → Prop
  | _, [] => True
  | _, .key k :: es => FitsFrom (keyDest k) es
  | d, .value v :: es => (∀ b ∈ d, v.bytes.length < b.size) ∧ FitsFrom d es
  | d, .entry :: es => FitsFrom d es
  | d, .stop :: es => FitsFrom d es

instance FitsFrom.decidable : ∀ d evs, Decidable (FitsFrom d evs)
  | _, [] => inferInstanceAs (Decidable True)
  | _, .key k :: es => FitsFrom.decidable (keyDest k) es
  | d, .value v :: es =>
    have := FitsFrom.decidable d es
    inferInstanceAs (Decidable ((∀ b ∈ d, v.bytes.length < b.size) ∧ FitsFrom d es))
  | d, .entry :: es => FitsFrom.decidable d es
  | d, .stop :: es => FitsFrom.decidable d es

/-- Of the keys that are not `name`, `path` or `global`, the last one is `modules`. -/
def InModules (evs : List Event) : Prop :=
  lastKey (fun k => keyDest k = none) evs = some MODULES

/-- An item is begun by the events, which finish none. -/
def Begun (evs : List Event) : Prop := InModules evs ∧ EntryAt InModules evs

/-- No end of a block finishes an item. -/
def QuietBehind (before evs : List Event) : Prop :=
  Throughout (fun p e => e = .stop → ¬ Begun (before ++ p)) evs

/-- The events that the block and the begun item depend on behind the list: an item that is loaded
leaves nothing but the block. -/
def Document.lead (d : Document) : List Event :=
  (if d.items = [] then d.front else []) ++ [Event.key MODULES]

/-- The items are kept, the scalars fit, nothing around the list is taken for an item, and every
load succeeds, up to where the last load may end the process. -/
structure Loadable (loads : ℕ → Bool) (d : Document) : Prop where
  front : QuietBehind [] d.front
  kept : ∀ item ∈ d.items, Kept item
  fits : FitsFrom none d.head
  succeed : ∀ i, i + 1 < d.items.length → loads i = true
  back : (∀ i, i + 1 = d.items.length → loads i = true) →
    QuietBehind d.lead d.back ∧ FitsFrom none d.events

/-! ## Events that call nothing -/

section Run

variable {loads : ℕ → Bool} {s s' : Init} {evs es : List Event} {e : Event} {d : Option Dest}
  {item : List Pair} {k : CStr}

theorem fitsFrom_append (d : Option Dest) (evs es : List Event) :
    FitsFrom d (evs ++ es) ↔ FitsFrom d evs ∧ FitsFrom (destAfter d evs) es := by
  induction evs generalizing d with
  | nil => exact (and_iff_right trivial).symm
  | cons e evs ih =>
    cases e with
    | key k => exact ih (keyDest k)
    | value v =>
      change (_ ∧ FitsFrom d (evs ++ es)) ↔ (_ ∧ FitsFrom d evs) ∧ FitsFrom (destAfter d evs) es
      rw [ih d, and_assoc]
    | entry => exact ih d
    | stop => exact ih d

theorem destAfter_append (d : Option Dest) (evs es : List Event) :
    destAfter d (evs ++ es) = destAfter (destAfter d evs) es := List.foldl_append

/-- The state at the start of an item in the block. -/
def beginItem (s : Init) : Init := { s with newModule := true, buffers := fun _ => EMPTY }

/-- What an event does where it calls nothing. -/
def absorb (s : Init) : Event → Init
  | .key k => { s with block := blockAt s.block k, datap := keyDest k }
  | .value v =>
    match s.datap with
    | none => s
    | some d => { s with buffers := Function.update s.buffers d v }
  | .entry => if s.block then beginItem s else s
  | .stop => s

/-- No end of a block finishes an item. -/
def Calm (s : Init) : List Event → Prop
  | [] => True
  | e :: es => (e = .stop → (s.block && s.newModule) = false) ∧ Calm (absorb s e) es

theorem absorb_aborted (s : Init) (e : Event) : (absorb s e).aborted = s.aborted := by
  cases e with
  | key k => rfl
  | stop => rfl
  | _ =>
    simp only [absorb]
    split
    · rfl
    · rfl

theorem absorb_calls (s : Init) (e : Event) : (absorb s e).calls = s.calls := by
  cases e with
  | key k => rfl
  | stop => rfl
  | _ =>
    simp only [absorb]
    split
    · rfl
    · rfl

theorem absorb_datap (s : Init) (e : Event) : (absorb s e).datap = destAfter s.datap [e] := by
  cases e with
  | key k => rfl
  | stop => rfl
  | _ =>
    simp only [absorb]
    split
    · rfl
    · rfl

/-- An event that finishes no item is absorbed, if it is no scalar that does not fit. -/
theorem step_absorb (ha : s.aborted = false) (hstop : e = .stop → (s.block && s.newModule) = false)
    (hfit : FitsFrom s.datap [e]) : step loads s e = .ok (absorb s e) := by
  cases e with
  | key k => simp [step, ha, absorb]
  | value v =>
    cases hd : s.datap with
    | none => simp [step, ha, absorb, hd]
    | some d =>
      rw [hd] at hfit
      have hlen : v.bytes.length < d.size := hfit.1 d rfl
      simp [step, ha, absorb, hd, hlen]
  -- an entry that begins an item clears the buffers, and is absorbed all the same
  | entry =>
    cases hb : s.block with
    | true => simp [step, ha, absorb, hb, beginItem]
    | false => simp [step, ha, absorb, hb]
  | stop => simp [step, ha, absorb, hstop rfl]

theorem step_unfit (ha : s.aborted = false) (hfit : ¬ FitsFrom s.datap [e]) :
    step loads s e = .error .fault := by
  cases e with
  | value v =>
    cases hd : s.datap with
    | none =>
      rw [hd] at hfit
      exact absurd ⟨by simp, trivial⟩ hfit
    | some d =>
      rw [hd] at hfit
      -- the `strcpy` writes behind the buffer
      have hlen : ¬ v.bytes.length < d.size := fun h => hfit ⟨by simpa using h, trivial⟩
      rw [step, ha, hd]
      exact if_neg hlen
  | _ => exact absurd trivial hfit

/-- Calm events either fit, and are then absorbed, or they are a fault. -/
theorem run_calm (loads : ℕ → Bool) (h : Calm s evs) (ha : s.aborted = false) :
    (FitsFrom s.datap evs → evs.foldlM (step loads) s = .ok (evs.foldl absorb s)) ∧
      (¬ FitsFrom s.datap evs → evs.foldlM (step loads) s = .error .fault) := by
  induction evs generalizing s with
  | nil => exact ⟨fun _ => rfl, fun hnot => absurd trivial hnot⟩
  | cons e evs ih =>
    obtain ⟨hstop, hcalm⟩ := h
    have ih := ih hcalm ((absorb_aborted s e).trans ha)
    -- the first event that does not fit ends the run
    have hsplit : FitsFrom s.datap (e :: evs) ↔
        FitsFrom s.datap [e] ∧ FitsFrom (absorb s e).datap evs := by
      rw [absorb_datap]
      exact fitsFrom_append s.datap [e] evs
    rw [hsplit, List.foldlM_cons]
    by_cases hfit : FitsFrom s.datap [e]
    · rw [step_absorb ha hstop hfit]
      exact ⟨fun h => ih.1 h.2, fun hnot => ih.2 fun h => hnot ⟨hfit, h⟩⟩
    · rw [step_unfit ha hfit]
      exact ⟨fun h => absurd h.1 hfit, fun _ => rfl⟩

/-- Nothing happens after an `abort`. -/
theorem run_aborted (loads : ℕ → Bool) (ha : s.aborted = true) (evs : List Event) :
    evs.foldlM (step loads) s = .ok s := by
  induction evs with
  | nil => rfl
  | cons e evs ih =>
    have hstep : step loads s e = .ok s := by
      unfold step
      rw [if_pos ha]
      rfl
    rw [List.foldlM_cons, hstep]
    exact ih

/-- The calls are only made more. -/
theorem calls_le_of_step (hstep : step loads s e = .ok s') :
    s.calls.length ≤ s'.calls.length := by
  cases ha : s.aborted with
  | true =>
    have hrun := run_aborted loads ha [e]
    rw [List.foldlM_cons, hstep] at hrun
    cases hrun
    exact Nat.le_refl _
  | false =>
    by_cases hfit : FitsFrom s.datap [e]
    · by_cases hstop : e = .stop → (s.block && s.newModule) = false
      · rw [step_absorb ha hstop hfit] at hstep
        cases hstep
        rw [absorb_calls]
      · simp only [Classical.not_imp, Bool.not_eq_false] at hstop
        obtain ⟨rfl, hopen⟩ := hstop
        simp only [step, ha, hopen, if_true, Bool.false_eq_true, if_false] at hstep
        cases hstep
        simp only [loadModule]
        split
        · simp
        · simp
    · rw [step_unfit ha hfit] at hstep
      cases hstep

theorem calls_le_of_run (hrun : evs.foldlM (step loads) s = .ok s') :
    s.calls.length ≤ s'.calls.length := by
  induction evs generalizing s with
  | nil =>
    cases hrun
    exact Nat.le_refl _
  | cons e evs ih =>
    rw [List.foldlM_cons] at hrun
    obtain ⟨s₁, hstep, hrest⟩ := bind_eq_ok.mp hrun
    exact (calls_le_of_step hstep).trans (ih hrest)

/-- Events that are not calm call the loader. -/
theorem calls_of_not_calm (h : ¬ Calm s evs) (ha : s.aborted = false)
    (hrun : evs.foldlM (step loads) s = .ok s') : s.calls.length < s'.calls.length := by
  induction evs generalizing s with
  | nil => exact absurd trivial h
  | cons e evs ih =>
    rw [List.foldlM_cons] at hrun
    obtain ⟨s₁, hstep, hrest⟩ := bind_eq_ok.mp hrun
    by_cases hstop : e = .stop → (s.block && s.newModule) = false
    · -- the end of an item comes later
      have hcalm : ¬ Calm (absorb s e) evs := fun hcalm => h ⟨hstop, hcalm⟩
      have hfit : FitsFrom s.datap [e] := by
        by_contra hnot
        rw [step_unfit ha hnot] at hstep
        cases hstep
      rw [step_absorb ha hstop hfit] at hstep
      cases hstep
      rw [← absorb_calls s e]
      exact ih hcalm ((absorb_aborted s e).trans ha) hrest
    · -- the event is the end of an item, and what follows takes no call back
      simp only [Classical.not_imp, Bool.not_eq_false] at hstop
      obtain ⟨rfl, hopen⟩ := hstop
      simp only [step, ha, hopen, if_true, Bool.false_eq_true, if_false] at hstep
      cases hstep
      refine Nat.lt_of_lt_of_le ?_ (calls_le_of_run hrest)
      simp only [loadModule]
      split
      · simp
      · simp

theorem aborted_foldl_absorb (s : Init) (evs : List Event) :
    (evs.foldl absorb s).aborted = s.aborted := by
  induction evs generalizing s with
  | nil => rfl
  | cons e evs ih => rw [List.foldl_cons, ih, absorb_aborted]

theorem calls_foldl_absorb (s : Init) (evs : List Event) :
    (evs.foldl absorb s).calls = s.calls := by
  induction evs generalizing s with
  | nil => rfl
  | cons e evs ih => rw [List.foldl_cons, ih, absorb_calls]

theorem datap_foldl_absorb (s : Init) (evs : List Event) :
    (evs.foldl absorb s).datap = destAfter s.datap evs := by
  induction evs generalizing s with
  | nil => rfl
  | cons e evs ih =>
    rw [List.foldl_cons, ih, absorb_datap, ← destAfter_append, List.singleton_append]

/-! ## Around the list -/

/-- A key other than `name`, `path` and `global` decides on the block. -/
theorem inModules_snoc (evs : List Event) (e : Event) : InModules (evs ++ [e]) ↔
    match e with
    | .key k => if keyDest k = none then k = MODULES else InModules evs
    | .value _ | .entry | .stop => InModules evs := by
  rw [InModules, lastKey_snoc]
  cases e with
  | key k =>
    by_cases hk : keyDest k = none
    · simp [hk]
    · simp [hk, InModules]
  | _ => rfl

/-- The block and the flag are those of the events so far, of which none finished an item. -/
structure Follows (s : Init) (evs : List Event) : Prop where
  block : s.block = true ↔ InModules evs
  newModule : s.newModule = true ↔ EntryAt InModules evs

theorem follows_start : Follows start [] where
  block := by simp [start, InModules, lastKey, keysOf]
  newModule := by simp [start]

/-- The list begins within the block, and with no item begun. -/
theorem follows_modules (hb : s.block = true) (hn : s.newModule = false) :
    Follows s [Event.key MODULES] where
  block := iff_of_true hb rfl
  newModule := by
    have hentry := entryAt_snoc (P := InModules) [] (.key MODULES)
    rw [List.nil_append] at hentry
    simp [hn, hentry]

theorem Follows.absorb (h : Follows s evs) (e : Event) : Follows (absorb s e) (evs ++ [e]) := by
  constructor
  · rw [inModules_snoc, ← h.block]
    cases e with
    | key k =>
      change blockAt s.block k = true ↔ _
      -- a key with a buffer leaves the block
      by_cases hk : keyDest k = none
      · simp [blockAt, hk]
      · have hne : k ≠ MODULES := by
          rintro rfl
          exact hk (by simp [keyDest])
        simp [blockAt, hk, hne, Option.isSome_iff_ne_none]
    | value v =>
      simp only [ModuleList.absorb]
      split
      · rfl
      · rfl
    | entry =>
      simp only [ModuleList.absorb]
      split
      · rfl
      · rfl
    | stop => rfl
  · rw [entryAt_snoc, ← h.newModule, ← h.block]
    cases e with
    | key k => simp [ModuleList.absorb]
    | value v =>
      simp only [ModuleList.absorb]
      split
      · simp
      · simp
    | entry =>
      simp only [ModuleList.absorb]
      split
      · rename_i hb
        simp [beginItem, hb]
      · rename_i hb
        simp [hb]
    | stop => simp [ModuleList.absorb]

/-- Whether events are calm can be seen on them and on those before. -/
theorem calm_iff_quietBehind {before : List Event} (h : Follows s before) :
    Calm s evs ↔ QuietBehind before evs := by
  induction evs generalizing s before with
  | nil => exact iff_of_true trivial throughout_nil
  | cons e evs ih =>
    -- the two flags of the loop say whether an item is begun
    have hopen : (s.block && s.newModule) = false ↔ ¬ Begun before := by
      rw [Begun, ← h.block, ← h.newModule, ← Bool.and_eq_true_iff, Bool.not_eq_true]
    have hrest := ih (h.absorb e)
    rw [QuietBehind, throughout_cons, List.append_nil]
    simp only [QuietBehind, List.append_assoc, List.singleton_append] at hrest
    rw [← hrest, ← hopen]
    rfl

theorem Follows.foldl (h : Follows s evs) (es : List Event) :
    Follows (es.foldl ModuleList.absorb s) (evs ++ es) := by
  induction es generalizing s evs with
  | nil => rwa [List.append_nil]
  | cons e es ih =>
    have hes := ih (h.absorb e)
    rwa [List.append_assoc, List.singleton_append] at hes

end Run

end ModuleList
