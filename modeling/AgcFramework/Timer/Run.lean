import AgcFramework.Lib.Trace
import AgcFramework.Timer.Model

/-!
# Runs of the timers

A run is a sequence of armings, explicit removals and dispatcher iterations. It leaves a trace
with one label for each operation.

## Main definitions

* `TimerOp`, `timerRun`: the operations and the code of a run
* `Timer.InStep`: the flags say which nodes are in the tree
* `Timer.pendingOf`: the armed events after a trace

## Main results

* `Timer.timer_set_in_step_iff`: the flags stay in step with the tree exactly in the runs without
  an explicit removal
* `Timer.tracks_run`: without one the tree and the flags follow the trace
-/

open RedBlack RedBlack.ColorTree Rbtree Exec Circular Trace

/-- An operation on the timers, with the clock it reads. -/
inductive TimerOp
  | add (now : ℤ) (ev : Ptr) (timer : Key)
  | del (ev : Ptr)
  | dispatch (now : ℤ)

/-- What an operation did. -/
inductive TimerLabel
  | armed (ev : Ptr) (key : Key)
  | deleted (ev : Ptr)
  | fired (ev : Ptr) (ms : Key)
  | idle (ms : Key)

/-- The label of an iteration at `ms`. -/
def TimerLabel.ofFired (ms : Key) : Option Ptr → TimerLabel
  | some ev => fired ev ms
  | none => idle ms

/-- What a label says about the map of the armed events. -/
def TimerLabel.apply (m : Pending) : TimerLabel → Pending
  | armed ev k => Function.update m ev (some k)
  | deleted ev => Function.update m ev none
  | fired ev _ => Function.update m ev none
  | idle _ => m

/-- The code of an operation. -/
def TimerOp.exec (fuel : ℕ) (st : Timer) : TimerOp → Exec (Timer × TimerLabel)
  | add now ev timer => do
    let st ← agcTimerAddTimer fuel st now ev timer
    pure (st, .armed ev (currentMs now + timer))
  | del ev => do
    let st ← agcTimerDelTimer fuel st ev
    pure (st, .deleted ev)
  | dispatch now => do
    let (st, r) ← agcTimerDispatchTimer fuel st now
    pure (st, .ofFired (currentMs now) r)

/-- The labels an operation may leave. -/
def TimerOp.Emits : TimerOp → TimerLabel → Prop
  | add now ev timer, l => l = .armed ev (currentMs now + timer)
  | del ev, l => l = .deleted ev
  | dispatch now, l => l = .idle (currentMs now) ∨ ∃ ev, l = .fired ev (currentMs now)

/-- An operation, whose label is put at the end of the trace. -/
def timerStep (fuel : ℕ) (s : Timer × List TimerLabel) (op : TimerOp) :
    Exec (Timer × List TimerLabel) := do
  let (st, l) ← op.exec fuel s.1
  pure (st, s.2 ++ [l])

/-- The code of a run, with its trace. -/
def timerRun (fuel : ℕ) (st : Timer) (ops : List TimerOp) : Exec (Timer × List TimerLabel) :=
  ops.foldlM (timerStep fuel) (st, [])

namespace Timer

variable {st st₀ : Timer} {T : ColorTree Ptr} {m : Pending} {ev : Ptr} {ops : List TimerOp}
  {op : TimerOp} {tr : List TimerLabel}

theorem timerRun_nil (st : Timer) : Returns (fun fuel => timerRun fuel st []) (st, []) :=
  Returns.const _

theorem timerRun_snoc {st' : Timer} {l : TimerLabel}
    (h : Returns (fun fuel => timerRun fuel st₀ ops) (st, tr))
    (h' : Returns (fun fuel => op.exec fuel st) (st', l)) :
    Returns (fun fuel => timerRun fuel st₀ (ops ++ [op])) (st', tr ++ [l]) :=
  Returns.foldlM_snoc h (h'.bind (Returns.const (st', tr ++ [l])))

/-- An operation that the callers may make: an event's node is neither null nor the sentinel, and
an explicit removal is of an armed event, whose node is in the tree. -/
def Legal (st : Timer) : TimerOp → Prop
  | .add _ ev _ => ev ≠ 0 ∧ ev ≠ st.tree.sentinel
  | .del ev => ∃ T, st.tree.Shape T ∧ ev ∈ T.inorder
  | .dispatch _ => True

/-- Every operation of the run is legal in the state in which it is made. -/
def LegalRun (st₀ : Timer) (ops : List TimerOp) : Prop :=
  Throughout (fun pre op => ∀ st tr, Returns (fun fuel => timerRun fuel st₀ pre) (st, tr) →
    st.Legal op) ops

/-! ## The flags -/

/-- The flags say which nodes are in the tree, and every call on the tree was sound. -/
def InStep (st : Timer) : Prop :=
  ∃ T, st.tree.Shape T ∧ (∀ ev, st.timerSet ev = true ↔ ev ∈ T.inorder) ∧
    ∀ c ∈ st.calls, Sound c

theorem Tracks.inStep (h : st.Tracks T m) : st.InStep :=
  ⟨T, h.holds.shape, fun ev => (h.flags ev).trans (h.holds.nodes ev).symm, h.calls⟩

/-- The map of the armed events that a trace leads to. -/
def pendingOf (tr : List TimerLabel) : Pending := tr.foldl TimerLabel.apply fun _ => none

@[simp] theorem pendingOf_snoc (tr : List TimerLabel) (l : TimerLabel) :
    pendingOf (tr ++ [l]) = l.apply (pendingOf tr) := by
  simp [pendingOf]

/-- What an operation other than an explicit removal does to a state in step with its trace. -/
theorem Tracks.exec (h : st.Tracks T (pendingOf tr)) (hl : st.Legal op) (hd : ∀ ev, op ≠ .del ev) :
    ∃ st' T' l, Returns (fun fuel => op.exec fuel st) (st', l) ∧ op.Emits l ∧
      st'.Tracks T' (pendingOf (tr ++ [l])) ∧ st'.tree.sentinel = st.tree.sentinel ∧
      (st.tree.Ordered T → Window (pendingOf (tr ++ [l])).keys → st'.tree.Ordered T') := by
  cases op with
  | add now ev timer =>
    obtain ⟨st', T', hrun, htr, hsen, hord⟩ := h.addTimer hl.1 hl.2 now timer
    refine ⟨st', T', .armed ev (currentMs now + timer), hrun.bind (Returns.const _), rfl, ?_, hsen,
      ?_⟩
    · rw [pendingOf_snoc]
      exact htr
    · intro ho hw
      rw [pendingOf_snoc] at hw
      exact hord ho hw
  | del ev => exact absurd rfl (hd ev)
  | dispatch now =>
    -- an iteration fires one event, or none
    obtain ⟨st', T', r, hrun, hsen, hres⟩ := h.dispatchTimer now
    refine ⟨st', T', .ofFired (currentMs now) r, hrun.bind (Returns.const _), ?_, ?_, hsen, ?_⟩
    · rcases hres with ⟨rfl, -⟩ | ⟨y, rest, rfl, -⟩
      · exact Or.inl rfl
      · exact Or.inr ⟨y, rfl⟩
    · rcases hres with ⟨rfl, htr, -⟩ | ⟨y, rest, rfl, -, -, htr, -⟩
      · rw [pendingOf_snoc]
        exact htr
      · rw [pendingOf_snoc]
        exact htr
    · intro ho hw
      rcases hres with ⟨rfl, -, rfl, hst, -⟩ | ⟨y, rest, rfl, -, -, -, hord⟩
      · rw [hst]
        exact ho
      · exact hord ho

/-- A run without an explicit removal keeps the flags in step with the tree. -/
theorem tracks_run {t₀ : Rbtree} {s : Ptr} (hs : s ≠ 0) (hl : LegalRun (agcTimerInit t₀ s) ops)
    (hd : ∀ ev, .del ev ∉ ops) :
    ∃ st T tr, Returns (fun fuel => timerRun fuel (agcTimerInit t₀ s) ops) (st, tr) ∧
      st.Tracks T (pendingOf tr) ∧ st.tree.sentinel = s ∧
      List.Forall₂ TimerOp.Emits ops tr := by
  induction ops using List.reverseRecOn with
  | nil => exact ⟨_, leaf, [], timerRun_nil _, tracks_init t₀ hs, rfl, .nil⟩
  | append_singleton ops op ih =>
    obtain ⟨hl, hop⟩ := throughout_snoc.mp hl
    obtain ⟨st, T, tr, hrun, htr, hsen, hem⟩ := ih hl fun ev he =>
      hd ev (List.mem_append_left _ he)
    obtain ⟨st', T', l, hstep, hl', htr', hsen', -⟩ := htr.exec (hop st tr hrun) fun ev he =>
      hd ev (by simp [he])
    exact ⟨st', T', _, timerRun_snoc hrun hstep, htr', hsen'.trans hsen,
      List.rel_append hem (.cons hl' .nil)⟩

/-- The operations of a run that arms proper nodes and removes none are legal. -/
theorem legal_of_add {s : Ptr} (hsen : st.tree.sentinel = s)
    (ha : ∀ now ev timer, .add now ev timer ∈ ops → ev ≠ 0 ∧ ev ≠ s)
    (hd : ∀ ev, .del ev ∉ ops) (hop : op ∈ ops) : st.Legal op := by
  cases op with
  | add now ev timer =>
    rw [Legal, hsen]
    exact ha now ev timer hop
  | del ev => exact absurd hop (hd ev)
  | dispatch now => trivial

/-- A run of armings and iterations is legal when it arms proper nodes. -/
theorem legalRun_of_add {t₀ : Rbtree} {s : Ptr} (hs : s ≠ 0)
    (ha : ∀ now ev timer, .add now ev timer ∈ ops → ev ≠ 0 ∧ ev ≠ s)
    (hd : ∀ ev, .del ev ∉ ops) : LegalRun (agcTimerInit t₀ s) ops := by
  induction ops using List.reverseRecOn with
  | nil => exact throughout_nil
  | append_singleton ops op ih =>
    have hl := ih (fun now ev timer he => ha now ev timer (List.mem_append_left _ he)) fun ev he =>
      hd ev (List.mem_append_left _ he)
    refine throughout_snoc.mpr ⟨hl, fun st tr hr => ?_⟩
    obtain ⟨st', T, tr', hrun, -, hsen, -⟩ := tracks_run hs hl fun ev he =>
      hd ev (List.mem_append_left _ he)
    obtain ⟨rfl, -⟩ := Prod.mk.inj (hrun.unique hr)
    exact legal_of_add hsen ha hd (by simp)

/-- An explicit removal of an armed event puts its flag out of step. -/
theorem Tracks.not_inStep_del {st' : Timer} {tr' : List TimerLabel} (h : st.Tracks T m)
    (hl : st.Legal (.del ev))
    (hr : Returns (fun fuel => timerStep fuel (st, tr) (.del ev)) (st', tr')) : ¬ st'.InStep := by
  obtain ⟨T₀, hs₀, hev⟩ := hl
  have hm : m ev ≠ none := by
    rw [← h.holds.nodes ev, h.holds.shape.unique hs₀]
    exact hev
  obtain ⟨st₁, T₁, hrun, hrem⟩ := h.delTimer hm
  have hstep : Returns (fun fuel => timerStep fuel (st, tr) (.del ev))
      (st₁, tr ++ [.deleted ev]) := by
    refine Returns.congr (Returns.bind (g := fun _ x => .ok (x, tr ++ [.deleted ev])) hrun
      (Returns.const _)) fun fuel => ?_
    rw [timerStep, TimerOp.exec, bind_assoc]
    rfl
  obtain ⟨rfl, -⟩ := Prod.mk.inj (hstep.unique hr)
  rintro ⟨T', hs', hflags, -⟩
  have hset : st₁.timerSet ev = true := by
    rw [hrem.timerSet_eq]
    exact (h.flags ev).mpr hm
  have hin := (hflags ev).mp hset
  rw [← hrem.holds.shape.unique hs', hrem.holds.nodes ev] at hin
  exact hin (by simp)

/-- **The flags and the tree.** In a legal run every state reached has the flags in step with the
tree exactly when the run makes no explicit removal. -/
theorem timer_set_in_step_iff (t₀ : Rbtree) {s : Ptr} (hs : s ≠ 0) {ops : List TimerOp}
    (hl : LegalRun (agcTimerInit t₀ s) ops) :
    (∀ pre suf, ops = pre ++ suf →
        ∃ st tr, Returns (fun fuel => timerRun fuel (agcTimerInit t₀ s) pre) (st, tr) ∧
          st.InStep) ↔
      ∀ ev, .del ev ∉ ops := by
  constructor
  · intro h
    induction ops using List.reverseRecOn with
    | nil => simp
    | append_singleton ops op ih =>
      obtain ⟨hl, hop⟩ := throughout_snoc.mp hl
      have hd := ih hl fun pre suf he => h pre (suf ++ [op]) (by rw [he]; simp)
      obtain ⟨st, T, tr, hrun, htr, -⟩ := tracks_run hs hl hd
      intro ev hev
      rcases List.mem_append.mp hev with hev | hev
      · exact hd ev hev
      · -- the last step is the first explicit removal
        obtain rfl := List.mem_singleton.mp hev
        obtain ⟨st', tr', hrun', hin⟩ := h (ops ++ [.del ev]) [] (by simp)
        exact htr.not_inStep_del (hop st tr hrun) (Returns.of_foldlM_snoc hrun' hrun) hin
  · rintro hd pre suf rfl
    obtain ⟨st, T, tr, hrun, htr, -⟩ := tracks_run hs hl.of_append fun ev he =>
      hd ev (List.mem_append_left _ he)
    exact ⟨st, tr, hrun, htr.inStep⟩

/-- An event armed and fired by an iteration after its deadline. -/
theorem timer_set_in_step_fired :
    LegalRun (agcTimerInit blank 1) [.add 0 2 5, .dispatch 5000] ∧
      ∀ pre suf, [.add 0 2 5, .dispatch 5000] = pre ++ suf →
        ∃ st tr, Returns (fun fuel => timerRun fuel (agcTimerInit blank 1) pre) (st, tr) ∧
          st.InStep := by
  have hlegal : LegalRun (agcTimerInit blank 1) [.add 0 2 5, .dispatch 5000] := by
    refine legalRun_of_add (by decide) ?_ (by simp)
    intro now ev timer hm
    simp only [List.mem_cons, TimerOp.add.injEq, List.not_mem_nil, reduceCtorEq, or_false] at hm
    obtain ⟨-, rfl, -⟩ := hm
    decide
  exact ⟨hlegal, (timer_set_in_step_iff blank (by decide) hlegal).mpr (by simp)⟩

/-- An event armed and removed explicitly keeps its flag. -/
theorem timer_set_out_of_step :
    LegalRun (agcTimerInit blank 1) [.add 0 2 5, .del 2] ∧
      ¬ ∀ pre suf, [.add 0 2 5, .del 2] = pre ++ suf →
        ∃ st tr, Returns (fun fuel => timerRun fuel (agcTimerInit blank 1) pre) (st, tr) ∧
          st.InStep := by
  have h2 : (2 : Ptr) ≠ 0 := by decide
  obtain ⟨st, T, hadd, htr, -⟩ := (tracks_init blank (s := 1) (by decide)).addTimer h2 (by decide)
    0 5
  have hrun : Returns (fun fuel => timerRun fuel (agcTimerInit blank 1) [.add 0 2 5])
      (st, [.armed 2 (currentMs 0 + 5)]) :=
    timerRun_snoc (timerRun_nil _) (hadd.bind (Returns.const _))
  have hlegal : st.Legal (.del 2) := ⟨T, htr.holds.shape, by rw [htr.holds.nodes]; simp⟩
  refine ⟨?_, fun h => ?_⟩
  · refine (throughout_snoc (l := [TimerOp.add 0 2 5])).mpr ⟨?_, fun st' tr' hr => ?_⟩
    · refine (throughout_snoc (l := ([] : List TimerOp))).mpr ⟨throughout_nil, fun st' tr' hr => ?_⟩
      obtain ⟨rfl, -⟩ := Prod.mk.inj ((timerRun_nil _).unique hr)
      exact ⟨by decide, by decide⟩
    · obtain ⟨rfl, -⟩ := Prod.mk.inj (hrun.unique hr)
      exact hlegal
  · obtain ⟨st', tr', hrun', hin⟩ := h ([.add 0 2 5] ++ [.del 2]) [] (by simp)
    exact htr.not_inStep_del hlegal (Returns.of_foldlM_snoc hrun' hrun) hin

end Timer
