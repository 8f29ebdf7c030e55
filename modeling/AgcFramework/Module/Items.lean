import AgcFramework.Module.Config

/-!
# The items of the list of modules

An item begins at an entry and is loaded at the end of its block, if the block of the modules has
not been left by then. The keys of the item decide that alone, so that the loop can be followed from
item to item.

## Main definitions

* `endItem`: the locals at the end of an item
* `Loaded`, `LoadedAll`: the locals behind items that are loaded

## Main results

* `buffers_mapping`, `block_mapping`: what a flat mapping does to the buffers and to the block
* `run_item`, `kept_of_calls`: an item in the block is loaded exactly if it is kept and fits
* `run_items`, `kept_of_run`: the list, item by item
* `loadsItems_iff`: the documents whose items are loaded, each at its end
-/

open Exec Yaml Decimal Trace

namespace ModuleList

section Items

variable {loads : ℕ → Bool} {s s' : Init} {d : Option Dest} {item : List Pair} {k : CStr}

/-! ## An item -/

theorem calm_mapping (s : Init) (pairs : List Pair) : Calm s (mapping pairs) := by
  have hevents : ∀ e ∈ mapping pairs, e ≠ .stop := by
    intro e he
    obtain ⟨p, -, hp⟩ := List.mem_flatMap.mp he
    rcases List.mem_cons.mp hp with rfl | hp
    · simp
    · obtain ⟨v, -, rfl⟩ := Option.map_eq_some_iff.mp (Option.mem_toList.mp hp)
      simp
  generalize mapping pairs = evs at hevents
  induction evs generalizing s with
  | nil => trivial
  | cons e evs ih =>
    exact ⟨fun he => absurd he (hevents e List.mem_cons_self),
      ih _ fun e' he' => hevents e' (List.mem_cons_of_mem _ he')⟩

theorem keyDest_eq_some_iff {d : Dest} : keyDest k = some d ↔ k = d.word := by
  constructor
  · intro h
    simp only [keyDest] at h
    split_ifs at h with h0 h1 h2 h3
    · cases h
      exact h1
    · cases h
      exact h2
    · cases h
      exact h3
  · rintro rfl
    -- the three keys are none of `modules` and of each other
    cases d with
    | moduleName => decide
    | modulePath => decide
    | moduleGlobal => decide

/-- The buffers behind a key with its value. -/
def assign (buffers : Dest → CStr) (p : Pair) : Dest → CStr :=
  match keyDest p.1, p.2 with
  | some d, some v => Function.update buffers d v
  | _, _ => buffers

theorem foldl_absorb_pairEvents (s : Init) (p : Pair) : (pairEvents p).foldl absorb s =
    { s with
      block := blockAt s.block p.1, datap := keyDest p.1, buffers := assign s.buffers p } := by
  obtain ⟨k, v⟩ := p
  cases v with
  | none =>
    have hassign : assign s.buffers (k, none) = s.buffers := by
      simp only [assign]
      cases keyDest k with
      | none => rfl
      | some d => rfl
    rw [hassign]
    rfl
  | some v =>
    simp only [pairEvents, Option.map_some, Option.toList_some, List.foldl_cons, List.foldl_nil,
      absorb, assign]
    cases keyDest k with
    | none => rfl
    | some d => rfl

/-- Behind a mapping, the buffers have the last values of their keys. -/
theorem buffers_mapping (s : Init) (pairs : List Pair) (d : Dest) :
    ((mapping pairs).foldl absorb s).buffers d =
      (lastValue d.word pairs).getD (s.buffers d) := by
  induction pairs using List.reverseRecOn with
  | nil => rfl
  | append_singleton pairs p ih =>
    rw [mapping_append, List.foldl_append, lastValue_snoc]
    have hp : mapping [p] = pairEvents p := List.append_nil _
    rw [hp, foldl_absorb_pairEvents]
    obtain ⟨k, v⟩ := p
    by_cases hk : k = d.word
    · -- the key of the buffer itself
      rw [if_pos hk]
      simp only [assign, keyDest_eq_some_iff.mpr hk]
      cases v with
      | none => exact ih
      | some v => simp
    · -- any other key leaves the buffer as it is
      rw [if_neg hk, ← ih]
      simp only [assign]
      cases hd : keyDest k with
      | none => rfl
      | some d' =>
        have hne : d ≠ d' := by
          rintro rfl
          exact hk (keyDest_eq_some_iff.mp hd)
        cases v with
        | none => rfl
        | some v => exact Function.update_of_ne hne _ _

/-- Behind a mapping, the block is the one of its last key that is not `name`, `path` or
`global`. -/
theorem block_mapping (s : Init) (pairs : List Pair) :
    ((mapping pairs).foldl absorb s).block =
      match ((pairs.map Prod.fst).filter fun k => keyDest k = none).getLast? with
      | some k => decide (k = MODULES)
      | none => s.block := by
  induction pairs using List.reverseRecOn with
  | nil => rfl
  | append_singleton pairs p ih =>
    have hp : mapping [p] = pairEvents p := List.append_nil _
    rw [mapping_append, List.foldl_append, hp, foldl_absorb_pairEvents]
    simp only [ih, List.map_append, List.filter_append, List.map_cons, List.map_nil]
    cases hd : keyDest p.1 with
    | none =>
      simp only [hd, decide_true, List.filter_cons_of_pos, List.filter_nil, List.getLast?_concat,
        blockAt, Option.isSome_none, Bool.false_eq_true, if_false]
      split
      · simp [*]
      · simp [*]
    | some d =>
      have hne : p.1 ≠ MODULES := by
        intro heq
        rw [heq] at hd
        simp [keyDest] at hd
      simp [hd, blockAt, hne]

theorem kept_iff_block (s : Init) (item : List Pair) (hb : s.block = true) :
    Kept item ↔ ((mapping item).foldl absorb s).block = true := by
  rw [block_mapping, Kept]
  cases ((item.map Prod.fst).filter fun k => keyDest k = none).getLast? with
  | none => simp [hb]
  | some k => simp

theorem newModule_mapping (s : Init) (pairs : List Pair) :
    ((mapping pairs).foldl absorb s).newModule = s.newModule := by
  induction pairs generalizing s with
  | nil => rfl
  | cons p pairs ih =>
    have hp : mapping (p :: pairs) = pairEvents p ++ mapping pairs := List.flatMap_cons
    rw [hp, List.foldl_append, ih, foldl_absorb_pairEvents]

/-- The locals at the end of an item that begins in the block. -/
def endItem (s : Init) (item : List Pair) : Init := (mapping item).foldl absorb (beginItem s)

/-- What the end of an item calls, if it does. -/
theorem loadModule_endItem (loads : ℕ → Bool) (s : Init) (item : List Pair) :
    (loadModule loads (endItem s item)).calls = s.calls ++ [itemCall item] := by
  have hcall : (⟨(endItem s item).buffers .modulePath, (endItem s item).buffers .moduleName,
      agcTrue ((endItem s item).buffers .moduleGlobal)⟩ : Call) = itemCall item := by
    simp only [endItem, buffers_mapping, itemCall]
    rfl
  have hcalls : (endItem s item).calls = s.calls := calls_foldl_absorb (beginItem s) _
  rw [loadModule, hcall, hcalls]
  split
  · rfl
  · rfl

theorem fitsFrom_itemEvents {d : Option Dest} :
    FitsFrom d (itemEvents item) ↔ FitsFrom d (mapping item) := by
  change FitsFrom d (mapping item ++ [Event.stop]) ↔ _
  rw [fitsFrom_append]
  exact and_iff_left trivial

theorem destAfter_itemEvents (d : Option Dest) (item : List Pair) :
    destAfter d (itemEvents item) = destAfter d (mapping item) := by
  change destAfter d (mapping item ++ [Event.stop]) = _
  rw [destAfter_append]
  rfl

/-- An item in the block runs up to the end of its block, or it is a fault. -/
theorem run_itemEvents (hb : s.block = true) (ha : s.aborted = false) :
    (FitsFrom s.datap (itemEvents item) →
      (itemEvents item).foldlM (step loads) s = step loads (endItem s item) .stop) ∧
    (¬ FitsFrom s.datap (itemEvents item) →
      (itemEvents item).foldlM (step loads) s = .error .fault) := by
  have hentry : step loads s .entry = .ok (beginItem s) := by
    simp [step, ha, hb, beginItem]
  obtain ⟨hok, hfault⟩ := run_calm loads (calm_mapping (beginItem s) item) ha
  rw [itemEvents, List.foldlM_cons, hentry, ok_bind, List.foldlM_append, ← itemEvents,
    fitsFrom_itemEvents]
  constructor
  · intro hfit
    rw [hok hfit, ok_bind, List.foldlM_cons]
    exact bind_pure _
  · intro hnot
    rw [hfault hnot]
    rfl

/-- An item in the block that is kept is loaded at its end. -/
theorem run_item (loads : ℕ → Bool) (hb : s.block = true) (ha : s.aborted = false)
    (hkept : Kept item) (hfit : FitsFrom s.datap (itemEvents item)) :
    (itemEvents item).foldlM (step loads) s = .ok (loadModule loads (endItem s item)) := by
  -- the item is begun by its entry and not ended by its keys
  have hblock : (endItem s item).block = true := (kept_iff_block (beginItem s) item hb).mp hkept
  have hnew : (endItem s item).newModule = true := newModule_mapping (beginItem s) item
  have haborted : (endItem s item).aborted = false :=
    (aborted_foldl_absorb (beginItem s) _).trans ha
  rw [(run_itemEvents hb ha).1 hfit]
  simp [step, haborted, hnew, hblock]

/-- An item in the block that is loaded at its end is kept and fits. -/
theorem kept_of_calls (hb : s.block = true) (ha : s.aborted = false)
    (hrun : (itemEvents item).foldlM (step loads) s = .ok s')
    (hcalls : s'.calls.length = s.calls.length + 1) :
    Kept item ∧ FitsFrom s.datap (itemEvents item) := by
  have hfit : FitsFrom s.datap (itemEvents item) := by
    -- otherwise the block is over at the end of the item, and nothing is called
    by_contra hnot
    rw [(run_itemEvents hb ha).2 hnot] at hrun
    cases hrun
  refine ⟨?_, hfit⟩
  by_contra hnot
  have hblock : (endItem s item).block = false := by
    rw [← Bool.not_eq_true]
    exact fun h => hnot ((kept_iff_block (beginItem s) item hb).mpr h)
  have haborted : (endItem s item).aborted = false :=
    (aborted_foldl_absorb (beginItem s) _).trans ha
  have hsame : (endItem s item).calls = s.calls := calls_foldl_absorb (beginItem s) _
  rw [(run_itemEvents hb ha).1 hfit] at hrun
  simp only [step, haborted, hblock, Bool.false_and, Bool.false_eq_true, if_false] at hrun
  cases hrun
  rw [hsame] at hcalls
  omega

/-- The locals behind an item whose load succeeded. -/
structure Loaded (s : Init) (item : List Pair) (s' : Init) : Prop where
  block : s'.block = true
  newModule : s'.newModule = false
  aborted : s'.aborted = false
  calls : s'.calls = s.calls ++ [itemCall item]
  datap : s'.datap = destAfter s.datap (itemEvents item)

theorem loaded_of_loads (hb : s.block = true) (ha : s.aborted = false) (hkept : Kept item)
    (hload : loads s.calls.length = true) : Loaded s item (loadModule loads (endItem s item)) := by
  have hcalls : (endItem s item).calls = s.calls := calls_foldl_absorb (beginItem s) _
  have hblock : (endItem s item).block = true := (kept_iff_block (beginItem s) item hb).mp hkept
  have haborted : (endItem s item).aborted = false :=
    (aborted_foldl_absorb (beginItem s) _).trans ha
  have hdatap : (endItem s item).datap = destAfter s.datap (mapping item) :=
    datap_foldl_absorb (beginItem s) _
  refine ⟨?_, ?_, ?_, loadModule_endItem loads s item, ?_⟩
  all_goals simp only [loadModule, hcalls, hload, if_true]
  · exact hblock
  · exact haborted
  · rw [destAfter_itemEvents]
    exact hdatap

/-- A load that fails ends the process. -/
theorem aborted_of_not_loads (item : List Pair) (hload : loads s.calls.length = false) :
    (loadModule loads (endItem s item)).aborted = true := by
  have hcalls : (endItem s item).calls = s.calls := calls_foldl_absorb (beginItem s) _
  simp only [loadModule, hcalls, hload, Bool.false_eq_true, if_false]

/-! ## The items -/

/-- What the items leave behind. -/
structure LoadedAll (loads : ℕ → Bool) (s : Init) (items : List (List Pair)) (s' : Init) :
    Prop where
  calls : s'.calls = s.calls ++ items.map itemCall
  succeed : (∀ i < items.length, loads (s.calls.length + i) = true) →
    s'.block = true ∧ s'.aborted = false ∧ (items ≠ [] → s'.newModule = false) ∧
      s'.datap = destAfter s.datap (items.flatMap itemEvents)
  fail : (∃ i < items.length, loads (s.calls.length + i) = false) → s'.aborted = true

/-- Items that are kept and fit are all loaded, if every load but the last one succeeds. -/
theorem run_items {items : List (List Pair)} (hb : s.block = true) (ha : s.aborted = false)
    (hkept : ∀ item ∈ items, Kept item) (hfit : FitsFrom s.datap (items.flatMap itemEvents))
    (hloads : ∀ i, i + 1 < items.length → loads (s.calls.length + i) = true) :
    ∃ s', (items.flatMap itemEvents).foldlM (step loads) s = .ok s' ∧
      LoadedAll loads s items s' := by
  induction items generalizing s with
  | nil =>
    refine ⟨s, rfl, by simp, fun _ => ⟨hb, ha, fun h => absurd rfl h, rfl⟩, ?_⟩
    rintro ⟨i, hi, -⟩
    exact absurd hi (Nat.not_lt_zero i)
  | cons item items ih =>
    rw [List.flatMap_cons, fitsFrom_append] at hfit
    have hitem := hkept item List.mem_cons_self
    have hrun := run_item loads hb ha hitem hfit.1
    rw [List.flatMap_cons, List.foldlM_append, hrun, ok_bind]
    cases hload : loads s.calls.length with
    | false =>
      -- only the last load may fail
      have hnil : items = [] := by
        by_contra hne
        have hlt : 0 + 1 < (item :: items).length := by
          simpa using List.length_pos_iff.mpr hne
        exact Bool.noConfusion (hload.symm.trans (hloads 0 hlt))
      subst hnil
      refine ⟨_, rfl, loadModule_endItem loads s item, fun h => ?_, fun _ => ?_⟩
      · exact Bool.noConfusion (hload.symm.trans (h 0 Nat.one_pos))
      · exact aborted_of_not_loads item hload
    | true =>
      have hone := loaded_of_loads hb ha hitem hload
      generalize loadModule loads (endItem s item) = s₁ at hone ⊢
      have hlen : s₁.calls.length = s.calls.length + 1 := by simp [hone.calls]
      have hshift : ∀ i, s₁.calls.length + i = s.calls.length + (i + 1) := by
        intro i
        omega
      obtain ⟨s', hrun', hall⟩ := ih hone.block hone.aborted
        (fun it hit => hkept it (List.mem_cons_of_mem _ hit)) (hone.datap ▸ hfit.2) fun i hi => by
          rw [hshift]
          exact hloads (i + 1) (Nat.succ_lt_succ hi)
      refine ⟨s', hrun', by simp [hall.calls, hone.calls], fun h => ?_, ?_⟩
      · obtain ⟨hb', ha', hn', hd'⟩ := hall.succeed fun i hi => by
          rw [hshift]
          exact h (i + 1) (Nat.succ_lt_succ hi)
        refine ⟨hb', ha', fun _ => ?_, ?_⟩
        · cases items with
          | nil =>
            cases hrun'
            exact hone.newModule
          | cons _ _ => exact hn' (List.cons_ne_nil _ _)
        · rw [hd', hone.datap, List.flatMap_cons, destAfter_append]
      · rintro ⟨i, hi, hfalse⟩
        cases i with
        | zero => exact Bool.noConfusion (hload.symm.trans hfalse)
        | succ i => exact hall.fail ⟨i, Nat.lt_of_succ_lt_succ hi, by rw [hshift]; exact hfalse⟩

/-- Items that are each loaded at their end are kept and fit, and every load but the last one
succeeded. -/
theorem kept_of_run {items : List (List Pair)} (hb : s.block = true) (ha : s.aborted = false)
    (hrun : ∀ i ≤ items.length, ∃ s', ((items.take i).flatMap itemEvents).foldlM (step loads) s =
      .ok s' ∧ s'.calls.length = s.calls.length + i) :
    (∀ item ∈ items, Kept item) ∧ FitsFrom s.datap (items.flatMap itemEvents) ∧
      ∀ i, i + 1 < items.length → loads (s.calls.length + i) = true := by
  induction items generalizing s with
  | nil => exact ⟨by simp, trivial, fun i hi => absurd hi (Nat.not_lt_zero _)⟩
  | cons item items ih =>
    -- the first item by itself
    obtain ⟨s', hitem, hlen⟩ := hrun 1 (Nat.le_add_left 1 _)
    rw [List.take_succ_cons, List.take_zero, List.flatMap_singleton] at hitem
    obtain ⟨hkept, hfit⟩ := kept_of_calls hb ha hitem hlen
    have hone := run_item loads hb ha hkept hfit
    have hsplit : ∀ i, ((item :: items).take (i + 1)).flatMap itemEvents =
        itemEvents item ++ (items.take i).flatMap itemEvents := by
      intro i
      rw [List.take_succ_cons, List.flatMap_cons]
    simp only [List.forall_mem_cons, List.flatMap_cons, fitsFrom_append]
    cases hload : loads s.calls.length with
    | false =>
      have ha' := aborted_of_not_loads item hload
      -- the process has ended, so that a second item would not be loaded
      have hnil : items = [] := by
        by_contra hne
        have hlt : 1 ≤ items.length := List.length_pos_iff.mpr hne
        obtain ⟨s₂, hrun₂, hlen₂⟩ := hrun 2 (Nat.succ_le_succ hlt)
        rw [hsplit, List.foldlM_append, hone, ok_bind, run_aborted loads ha'] at hrun₂
        cases hrun₂
        rw [loadModule_endItem, List.length_append, List.length_singleton] at hlen₂
        omega
      subst hnil
      exact ⟨⟨hkept, by simp⟩, ⟨hfit, trivial⟩, fun i hi => absurd hi (by simp)⟩
    | true =>
      have hloaded := loaded_of_loads hb ha hkept hload
      generalize loadModule loads (endItem s item) = s₁ at hone hloaded
      have hlen₁ : s₁.calls.length = s.calls.length + 1 := by simp [hloaded.calls]
      obtain ⟨hkepts, hfits, hloads⟩ := ih hloaded.block hloaded.aborted fun i hi => by
        obtain ⟨s₂, hrun₂, hlen₂⟩ := hrun (i + 1) (Nat.succ_le_succ hi)
        rw [hsplit, List.foldlM_append, hone, ok_bind] at hrun₂
        exact ⟨s₂, hrun₂, by omega⟩
      refine ⟨⟨hkept, hkepts⟩, ⟨hfit, hloaded.datap ▸ hfits⟩, fun i hi => ?_⟩
      cases i with
      | zero => exact hload
      | succ i =>
        have hi' := hloads i (by simpa using hi)
        rwa [hlen₁, Nat.add_assoc, Nat.add_comm 1 i] at hi'

end Items

/-! ## The document -/

section Whole

variable {loads : ℕ → Bool} {tokens : List Token} {d : Document} {s : Init}

/-- The events up to the start of the list. -/
def Document.opening (d : Document) : List Event := d.front ++ [Event.key MODULES]

theorem head_eq (d : Document) : d.head = d.opening ++ d.items.flatMap itemEvents := by
  rw [Document.head, Document.opening, List.append_assoc, List.singleton_append]

theorem calm_opening : Calm start d.opening ↔ QuietBehind [] d.front := by
  rw [calm_iff_quietBehind follows_start, Document.opening, QuietBehind, throughout_snoc]
  exact and_iff_left fun h => by cases h

/-- The locals at the start of the list. -/
def Document.opened (d : Document) : Init := d.opening.foldl absorb start

theorem opened_block (d : Document) : d.opened.block = true := by
  rw [Document.opened, Document.opening, List.foldl_append]
  simp [absorb, blockAt]

theorem opened_aborted (d : Document) : d.opened.aborted = false :=
  aborted_foldl_absorb start d.opening

theorem opened_calls (d : Document) : d.opened.calls = [] := calls_foldl_absorb start d.opening

theorem opened_datap (d : Document) : d.opened.datap = destAfter none d.opening :=
  datap_foldl_absorb start d.opening

theorem fitsFrom_head (d : Document) : FitsFrom none d.head ↔
    FitsFrom none d.opening ∧ FitsFrom d.opened.datap (d.items.flatMap itemEvents) := by
  rw [head_eq, fitsFrom_append, opened_datap]

theorem run_opening (hcalm : Calm start d.opening) (hfit : FitsFrom none d.opening)
    (evs : List Event) : (d.opening ++ evs).foldlM (step loads) start =
      evs.foldlM (step loads) d.opened := by
  rw [List.foldlM_append, (run_calm loads hcalm rfl).1 hfit]
  rfl

/-- What the list leaves behind, where all its loads succeed. -/
structure Listed (d : Document) (s : Init) : Prop where
  aborted : s.aborted = false
  follows : Follows s d.lead
  datap : s.datap = destAfter none d.head

/-- The events up to the end of the list call the loader for its items. -/
theorem run_head (d : Document) (hcalm : Calm start d.opening) (hkept : ∀ item ∈ d.items, Kept item)
    (hfit : FitsFrom none d.head) (hloads : ∀ i, i + 1 < d.items.length → loads i = true) :
    ∃ s, d.head.foldlM (step loads) start = .ok s ∧ s.calls = d.items.map itemCall ∧
      ((∀ i < d.items.length, loads i = true) → Listed d s) ∧
      ((∃ i < d.items.length, loads i = false) → s.aborted = true) := by
  obtain ⟨hopening, hitems⟩ := (fitsFrom_head d).mp hfit
  -- no call was made before the list, so the item and its call have the same number
  have hcount : ∀ i, d.opened.calls.length + i = i := by
    intro i
    rw [opened_calls, List.length_nil, Nat.zero_add]
  obtain ⟨s, hrun, hall⟩ := run_items (opened_block d) (opened_aborted d) hkept
    hitems (by simpa only [hcount] using hloads)
  obtain ⟨hcalls, hsucceed, hfail⟩ := hall
  simp only [hcount] at hsucceed hfail
  refine ⟨s, ?_, by rw [hcalls, opened_calls, List.nil_append], fun h => ?_, hfail⟩
  · rw [head_eq, run_opening hcalm hopening]
    exact hrun
  · obtain ⟨hb, ha, hn, hd⟩ := hsucceed h
    refine ⟨ha, ?_, ?_⟩
    · -- without an item the flag of the front is still there
      by_cases hnil : d.items = []
      · rw [hnil] at hrun
        cases hrun
        rw [Document.lead, if_pos hnil]
        exact follows_start.foldl d.opening
      · rw [Document.lead, if_neg hnil]
        exact follows_modules hb (hn hnil)
    · rw [hd, opened_datap, ← destAfter_append, ← head_eq]

theorem agcLoadableModuleInit_eq (htok : Yaml.events false tokens = d.events) :
    agcLoadableModuleInit loads tokens = (d.head.foldlM (step loads) start >>= fun s =>
      d.back.foldlM (step loads) s >>= fun s =>
        pure (s.calls,
          if s.aborted then .aborted else .returned (decide (s.moduleCount ≠ 0)))) := by
  rw [agcLoadableModuleInit, scan_eq_foldlM, htok, Document.events, List.foldlM_append, bind_assoc]

/-- The document with the first `i` items only. -/
def Document.takeItems (d : Document) (i : ℕ) : Document := { d with items := d.items.take i }

/-- Each item of the list is loaded once, at its end, with its own name, path and flag, exactly for
the documents that are loadable. -/
theorem loadsItems_iff (htok : Yaml.events false tokens = d.events) :
    LoadsItems loads tokens d ↔ Loadable loads d := by
  constructor
  · rintro ⟨hupTo, hall⟩
    obtain ⟨s₀, hrun₀, hcalls₀⟩ := hupTo 0 (Nat.zero_le _)
    -- nothing is loaded in front of the list
    have hcalm : Calm start d.opening := by
      by_contra hnot
      have hlt := calls_of_not_calm hnot rfl hrun₀
      rw [hcalls₀] at hlt
      exact absurd hlt (Nat.lt_irrefl 0)
    have hopening : FitsFrom none d.opening := by
      by_contra hnot
      have hfault := (run_calm loads hcalm rfl).2 hnot
      cases hfault.symm.trans hrun₀
    obtain ⟨hkept, hitems, hloads⟩ := kept_of_run (opened_block d)
      (opened_aborted d) fun i hi => by
        obtain ⟨s, hrun, hcalls⟩ := hupTo i hi
        rw [← run_opening hcalm hopening]
        refine ⟨s, ?_, ?_⟩
        · rw [← hrun, Document.upTo, Document.opening, List.append_assoc, List.singleton_append]
        · rw [hcalls, opened_calls, List.length_map, List.length_take, Nat.min_eq_left hi,
            List.length_nil, Nat.zero_add]
    rw [opened_calls] at hloads
    simp only [List.length_nil, Nat.zero_add] at hloads
    have hfit := (fitsFrom_head d).mpr ⟨hopening, hitems⟩
    refine ⟨calm_opening.mp hcalm, hkept, hfit, hloads, fun hlast => ?_⟩
    obtain ⟨s, hrun, hcalls, hlisted, -⟩ := run_head d hcalm hkept hfit hloads
    obtain ⟨ha, hfollows, hdatap⟩ := hlisted fun i hi => by
      by_cases hi' : i + 1 < d.items.length
      · exact hloads i hi'
      · exact hlast i (by omega)
    obtain ⟨ending, hall⟩ := hall
    rw [agcLoadableModuleInit_eq htok, hrun, ok_bind] at hall
    obtain ⟨s', hback, hend⟩ := bind_eq_ok.mp hall
    have hcalls' : s'.calls = s.calls := (Prod.mk.inj (Except.ok.inj hend)).1.trans hcalls.symm
    -- nothing is loaded behind it
    have hcalm' : Calm s d.back := by
      by_contra hnot
      have hlt := calls_of_not_calm hnot ha hback
      rw [hcalls'] at hlt
      exact absurd hlt (Nat.lt_irrefl _)
    refine ⟨(calm_iff_quietBehind hfollows).mp hcalm', ?_⟩
    rw [Document.events, fitsFrom_append, ← hdatap]
    refine ⟨hfit, ?_⟩
    by_contra hnot
    rw [(run_calm loads hcalm' ha).2 hnot] at hback
    cases hback
  · rintro ⟨hfront, hkept, hfit, hloads, hback⟩
    have hcalm := calm_opening.mpr hfront
    refine ⟨fun i hi => ?_, ?_⟩
    · have hsub : (d.items.take i).length ≤ d.items.length := by simp
      have hfit' : FitsFrom none (d.takeItems i).head := by
        rw [head_eq, ← List.take_append_drop i d.items, List.flatMap_append, ← List.append_assoc,
          fitsFrom_append] at hfit
        rw [head_eq]
        exact hfit.1
      obtain ⟨s, hrun, hcalls, -⟩ := run_head (d.takeItems i) hcalm
        (fun item hitem => hkept item (List.mem_of_mem_take hitem)) hfit'
        fun j hj => hloads j (Nat.lt_of_lt_of_le hj hsub)
      exact ⟨s, hrun, hcalls⟩
    · obtain ⟨s, hrun, hcalls, hlisted, hfail⟩ := run_head d hcalm hkept hfit hloads
      rw [agcLoadableModuleInit_eq htok, hrun, ok_bind]
      by_cases hlast : ∀ i, i + 1 = d.items.length → loads i = true
      · obtain ⟨hquiet, hfits⟩ := hback hlast
        obtain ⟨ha, hfollows, hdatap⟩ := hlisted fun i hi => by
          by_cases hi' : i + 1 < d.items.length
          · exact hloads i hi'
          · exact hlast i (by omega)
        rw [Document.events, fitsFrom_append, ← hdatap] at hfits
        have hcalm' := (calm_iff_quietBehind hfollows).mpr hquiet
        rw [(run_calm loads hcalm' ha).1 hfits.2, ok_bind, calls_foldl_absorb, hcalls]
        exact ⟨_, rfl⟩
      · -- the last load has ended the process
        push Not at hlast
        obtain ⟨i, hi, hfalse⟩ := hlast
        have ha := hfail ⟨i, by omega, Bool.eq_false_iff.mpr hfalse⟩
        rw [run_aborted loads ha, ok_bind, hcalls]
        exact ⟨_, rfl⟩

/-! ## Two documents -/

/-- Two modules, of which the first one has a description. -/
def described (description : CStr) : Document where
  front := []
  items :=
    [[(CStr.ofString "name", some (CStr.ofString "mod_logfile")),
      (description, some (CStr.ofString "logs to a file"))],
    [(CStr.ofString "name", some (CStr.ofString "mod_epoll"))]]
  back := [.stop, .stop]

/-- The tokens of `described`. -/
def describedTokens (description : CStr) : List Token :=
  [.streamStart, .blockMappingStart, .key, .scalar MODULES, .value, .blockSequenceStart,
    .blockEntry, .blockMappingStart,
    .key, .scalar (CStr.ofString "name"), .value, .scalar (CStr.ofString "mod_logfile"),
    .key, .scalar description, .value, .scalar (CStr.ofString "logs to a file"), .blockEnd,
    .blockEntry, .blockMappingStart,
    .key, .scalar (CStr.ofString "name"), .value, .scalar (CStr.ofString "mod_epoll"), .blockEnd,
    .blockEnd, .blockEnd, .streamEnd]

/-- A key `description` in the first item, and no module is loaded. -/
theorem not_loadsItems_of_description :
    Yaml.events false (describedTokens (CStr.ofString "description")) =
      (described (CStr.ofString "description")).events ∧
    agcLoadableModuleInit (fun _ => true) (describedTokens (CStr.ofString "description")) =
      .ok ([], .returned false) ∧
    ¬ LoadsItems (fun _ => true) (describedTokens (CStr.ofString "description"))
      (described (CStr.ofString "description")) := by
  have hrun : agcLoadableModuleInit (fun _ => true)
      (describedTokens (CStr.ofString "description")) = .ok ([], .returned false) := by
    decide
  refine ⟨rfl, hrun, fun h => ?_⟩
  obtain ⟨ending, hall⟩ := h.all
  rw [hrun] at hall
  cases hall

theorem loadsItems_of_path : LoadsItems (fun _ => true) (describedTokens Dest.modulePath.word)
    (described Dest.modulePath.word) :=
  (loadsItems_iff rfl).mpr
    { front := throughout_nil
      kept := by decide
      fits := by decide
      succeed := fun _ _ => rfl
      back := fun _ => by
        refine ⟨?_, by decide⟩
        have hfollows : Follows { start with block := true } [Event.key MODULES] :=
          follows_modules rfl rfl
        exact (calm_iff_quietBehind hfollows).mp ⟨fun _ => rfl, fun _ => rfl, trivial⟩ }

end Whole

end ModuleList
