import AgcFramework.Timer.Run

/-!
# Firing in time

In a run of armings and dispatcher iterations the leftmost node of the tree is the event with the
earliest deadline, as long as the deadlines and the clock stay in a window of the 64-bit circle.
The trace then shows every event fired once for each arming that was not replaced.

## Main definitions

* `Timer.PendingIn tr ev k`: after the trace `tr` the event waits for the deadline `k`
* `Timer.OnTime`: what a firing or an idle iteration must satisfy after a trace
* `Timer.InWindow`: the deadlines and the clock lie in a window at every time

## Main results

* `Timer.fires_in_time`: every run of armings and iterations fires in time
-/

open RedBlack RedBlack.ColorTree Rbtree Exec Circular Trace

/-- The event a label is about. -/
def TimerLabel.event : TimerLabel → Option Ptr
  | armed ev _ => some ev
  | deleted ev => some ev
  | fired ev _ => some ev
  | idle _ => none

/-- The millisecond at which an operation reads the clock. -/
def TimerOp.clock : TimerOp → Set Key
  | add now _ _ => {currentMs now}
  | del _ => ∅
  | dispatch now => {currentMs now}

namespace Timer

variable {st : Timer} {T : ColorTree Ptr} {ev : Ptr} {k : Key} {ops : List TimerOp} {op : TimerOp}
  {tr : List TimerLabel} {l : TimerLabel}

/-- After the trace `tr` the event waits for the deadline `k`: its last label is the arming that
set `k`. -/
def PendingIn (tr : List TimerLabel) (ev : Ptr) (k : Key) : Prop :=
  ∃ p q, tr = p ++ .armed ev k :: q ∧ ∀ l ∈ q, l.event ≠ some ev

theorem pendingIn_snoc :
    PendingIn (tr ++ [l]) ev k ↔ l = .armed ev k ∨ (l.event ≠ some ev ∧ PendingIn tr ev k) := by
  constructor
  · rintro ⟨p, q, he, hq⟩
    rcases snoc_eq_append_cons he with ⟨-, hl, -⟩ | ⟨q', rfl, rfl⟩
    · exact Or.inl hl.symm
    · refine Or.inr ⟨hq l (by simp), p, q', rfl, fun x hx => hq x ?_⟩
      exact List.mem_append_left _ hx
  · rintro (rfl | ⟨hl, p, q, rfl, hq⟩)
    · exact ⟨tr, [], rfl, by simp⟩
    · refine ⟨p, q ++ [l], by simp, fun x hx => ?_⟩
      rcases List.mem_append.mp hx with hx | hx
      · exact hq x hx
      · obtain rfl := List.mem_singleton.mp hx
        exact hl

/-- The map of the armed events is read off the trace. -/
theorem pendingOf_eq_some : pendingOf tr ev = some k ↔ PendingIn tr ev k := by
  induction tr using List.reverseRecOn with
  | nil => simp [pendingOf, PendingIn]
  | append_singleton tr l ih =>
    rw [pendingOf_snoc, pendingIn_snoc, ← ih]
    cases l with
    | armed ev' k' =>
      by_cases he : ev = ev'
      · subst he
        simp [TimerLabel.apply, TimerLabel.event]
      · simp [TimerLabel.apply, TimerLabel.event, he, Ne.symm he]
    | deleted ev' =>
      by_cases he : ev = ev'
      · subst he
        simp [TimerLabel.apply, TimerLabel.event]
      · simp [TimerLabel.apply, TimerLabel.event, he, Ne.symm he]
    | fired ev' ms =>
      by_cases he : ev = ev'
      · subst he
        simp [TimerLabel.apply, TimerLabel.event]
      · simp [TimerLabel.apply, TimerLabel.event, he, Ne.symm he]
    | idle ms => simp [TimerLabel.apply, TimerLabel.event]

/-- The deadlines pending after a trace. -/
def deadlines (tr : List TimerLabel) : Set Key := {k | ∃ ev, PendingIn tr ev k}

theorem keys_pendingOf (tr : List TimerLabel) : (pendingOf tr).keys = deadlines tr := by
  ext k
  simp only [Pending.keys, deadlines, Set.mem_ofPred_eq, pendingOf_eq_some]

/-- What a label must satisfy after the trace `p`. A firing is of a pending event, whose deadline
has passed and is one of the earliest; an idle iteration had no pending deadline behind it. -/
def OnTime (p : List TimerLabel) : TimerLabel → Prop
  | .fired ev ms => ∃ k, PendingIn p ev k ∧ (k - ms).toInt ≤ 0 ∧
      ∀ ev' k', PendingIn p ev' k' → ¬ (k' - k).toInt < 0
  | .idle ms => ∀ ev k, PendingIn p ev k → 0 < (k - ms).toInt
  | .armed _ _ => True
  | .deleted _ => True

/-- At the operation `op` after the trace `p` the pending deadlines and the clock lie in a window,
before the operation and after it. -/
def InWindow (st₀ : Timer) (pre : List TimerOp) (op : TimerOp) : Prop :=
  ∀ st tr, Returns (fun fuel => timerRun fuel st₀ pre) (st, tr) →
    Window (deadlines tr ∪ op.clock) ∧
      ∀ st' l, Returns (fun fuel => op.exec fuel st) (st', l) →
        Window (deadlines (tr ++ [l]) ∪ op.clock)

/-- The first node of an ordered tree has one of the earliest deadlines. -/
theorem Tracks.head_le {y : Ptr} {rest : List Ptr} (h : st.Tracks T (pendingOf tr))
    (ho : st.tree.Ordered T) (hy : T.inorder = y :: rest) (hp : PendingIn tr ev k) :
    k = st.tree.key y ∨ 0 ≤ (k - st.tree.key y).toInt := by
  have hm : pendingOf tr ev = some k := pendingOf_eq_some.mpr hp
  have hev : ev ∈ T.inorder := by
    rw [h.holds.nodes, hm]
    simp
  obtain rfl := h.holds.keys ev k hm
  rw [Ordered, hy] at ho
  rw [hy] at hev
  rcases List.mem_cons.mp hev with rfl | hev
  · exact Or.inl rfl
  · exact Or.inr ((List.pairwise_cons.mp ho).1 ev hev)

/-- An iteration on an ordered tree in step with the trace is in time. -/
theorem Tracks.onTime_dispatch {st' : Timer} {now : ℤ} (h : st.Tracks T (pendingOf tr))
    (ho : st.tree.Ordered T) (hw : Window (deadlines tr ∪ {currentMs now}))
    (hr : Returns (fun fuel => (TimerOp.dispatch now).exec fuel st) (st', l)) :
    OnTime tr l := by
  obtain ⟨st₁, T₁, r, hrun, -, hres⟩ := h.dispatchTimer now
  have hlab : Returns (fun fuel => (TimerOp.dispatch now).exec fuel st)
      (st₁, .ofFired (currentMs now) r) := hrun.bind (Returns.const _)
  obtain ⟨-, rfl⟩ := Prod.mk.inj (hlab.unique hr)
  rcases hres with ⟨rfl, -, -, -, hwait⟩ | ⟨y, rest, rfl, hy, hdue, -, -⟩
  · intro ev k hp
    -- the deadline is not before the first one, which is still ahead of the clock
    have hne : T.inorder ≠ [] := by
      intro he
      have hm : pendingOf tr ev = some k := pendingOf_eq_some.mpr hp
      have := h.holds.nodes ev
      rw [he, hm] at this
      simp at this
    obtain ⟨y, rest, hy⟩ := List.exists_cons_of_ne_nil hne
    have hpos := hwait y rest hy
    rcases h.head_le ho hy hp with rfl | hle
    · exact hpos
    · have hyp : st.tree.key y ∈ deadlines tr := by
        refine ⟨y, pendingOf_eq_some.mp (h.holds.key_eq ?_)⟩
        simp [hy]
      exact hw.toInt_sub_pos (Or.inr rfl) (Or.inl hyp) (Or.inl ⟨ev, hp⟩) hpos hle
  · refine ⟨st.tree.key y, ?_, hdue, fun ev' k' hp => ?_⟩
    · refine pendingOf_eq_some.mp (h.holds.key_eq ?_)
      simp [hy]
    · rcases h.head_le ho hy hp with rfl | hle
      · simp
      · exact not_lt.mpr hle

/-- Two firings of an event have an arming of it between them. -/
theorem armed_between {p q : List TimerLabel} {ms ms' : Key}
    (h : OnTime (p ++ .fired ev ms :: q) (.fired ev ms')) : ∃ k, .armed ev k ∈ q := by
  obtain ⟨k, ⟨p', q', he, hq'⟩, -⟩ := h
  rcases List.append_eq_append_iff.mp he with ⟨c, -, hc⟩ | ⟨c, -, hc⟩
  · cases c with
    | nil => cases hc
    | cons x c =>
      obtain ⟨-, rfl⟩ := List.cons.inj hc
      exact ⟨k, by simp⟩
  · -- an arming before the first firing would have that firing after it
    cases c with
    | nil => cases hc
    | cons x c =>
      obtain ⟨-, rfl⟩ := List.cons.inj hc
      exact absurd rfl (hq' (.fired ev ms) (by simp))

/-- The run lemma: a run of armings and iterations in a window keeps an ordered tree in step with
its trace, and the trace is in time. -/
theorem tracks_run_onTime {t₀ : Rbtree} {s : Ptr} (hs : s ≠ 0)
    (ha : ∀ now ev timer, .add now ev timer ∈ ops → ev ≠ 0 ∧ ev ≠ s)
    (hd : ∀ ev, .del ev ∉ ops) (hw : Throughout (InWindow (agcTimerInit t₀ s)) ops) :
    ∃ st T tr, Returns (fun fuel => timerRun fuel (agcTimerInit t₀ s) ops) (st, tr) ∧
      st.Tracks T (pendingOf tr) ∧ st.tree.Ordered T ∧ st.tree.sentinel = s ∧
      List.Forall₂ TimerOp.Emits ops tr ∧ Throughout OnTime tr := by
  induction ops using List.reverseRecOn with
  | nil =>
    exact ⟨_, leaf, [], timerRun_nil _, tracks_init t₀ hs, List.Pairwise.nil, rfl, .nil,
      throughout_nil⟩
  | append_singleton ops op ih =>
    obtain ⟨hw, hop⟩ := throughout_snoc.mp hw
    obtain ⟨st, T, tr, hrun, htr, ho, hsen, hem, hon⟩ := ih
      (fun now ev timer he => ha now ev timer (List.mem_append_left _ he))
      (fun ev he => hd ev (List.mem_append_left _ he)) hw
    obtain ⟨hbefore, hafter⟩ := hop st tr hrun
    have hl : st.Legal op := legal_of_add hsen ha hd (by simp)
    obtain ⟨st', T', l, hstep, hlab, htr', hsen', hord⟩ := htr.exec hl fun ev he =>
      hd ev (by simp [he])
    -- an arming is always in time; an iteration is, because the leftmost event is the earliest
    have hlon : OnTime tr l := by
      cases op with
      | add now ev timer =>
        obtain rfl : l = .armed ev (currentMs now + timer) := hlab
        trivial
      | del ev => exact absurd (by simp) (hd ev)
      | dispatch now => exact htr.onTime_dispatch ho hbefore hstep
    refine ⟨st', T', tr ++ [l], timerRun_snoc hrun hstep, htr', ?_, hsen'.trans hsen, ?_,
      throughout_snoc.mpr ⟨hon, hlon⟩⟩
    · refine hord ho ?_
      rw [keys_pendingOf]
      exact (hafter st' l hstep).mono Set.subset_union_left
    · exact List.rel_append hem (.cons hlab .nil)

/-- **Firing in time.** In every run of armings and dispatcher iterations whose deadlines and clock
stay in a window, each operation returns; a firing is of an event whose last arming set a deadline
that has passed, with no pending deadline strictly earlier; two firings of one event have an arming
between them; and an iteration is idle only when no pending deadline has passed. The clock need not
be monotone. -/
theorem fires_in_time (t₀ : Rbtree) {s : Ptr} (hs : s ≠ 0) {ops : List TimerOp}
    (ha : ∀ now ev timer, .add now ev timer ∈ ops → ev ≠ 0 ∧ ev ≠ s)
    (hd : ∀ ev, .del ev ∉ ops) (hw : Throughout (InWindow (agcTimerInit t₀ s)) ops) :
    ∃ st tr, Returns (fun fuel => timerRun fuel (agcTimerInit t₀ s) ops) (st, tr) ∧
      List.Forall₂ TimerOp.Emits ops tr ∧ Throughout OnTime tr ∧
      ∀ p q r ev ms ms', tr = p ++ .fired ev ms :: q ++ .fired ev ms' :: r →
        ∃ k, .armed ev k ∈ q := by
  obtain ⟨st, T, tr, hrun, -, -, -, hem, hon⟩ := tracks_run_onTime hs ha hd hw
  refine ⟨st, tr, hrun, hem, hon, ?_⟩
  intro p q r ev ms ms' he
  exact armed_between (hon _ _ _ he)

/-- The deadlines of a trace that its operations keep below a bound are below it. -/
theorem deadlines_lt {b : Key} {n : ℕ} (hem : List.Forall₂ TimerOp.Emits ops tr)
    (hb : ∀ now ev timer, .add now ev timer ∈ ops → offset b (currentMs now + timer) < n) :
    ∀ k ∈ deadlines tr, offset b k < n := by
  have hmem : ∀ ev k, .armed ev k ∈ tr → offset b k < n := by
    induction hem with
    | nil => simp
    | @cons op l ops tr hop _ ih =>
      intro ev k hm
      rcases List.mem_cons.mp hm with rfl | hm
      · cases op with
        | add now ev' timer =>
          cases hop
          exact hb now ev timer (by simp)
        | del ev' => cases hop
        | dispatch now => rcases hop with hop | ⟨ev', hop⟩ <;> cases hop
      · exact ih (fun now ev timer he => hb now ev timer (List.mem_cons_of_mem _ he)) ev k hm
  rintro k ⟨ev, p, q, rfl, -⟩
  exact hmem ev k (by simp)

/-- A run all of whose deadlines and clock readings lie in one window is in a window throughout. -/
theorem inWindow_of_lt {t₀ : Rbtree} {s : Ptr} {b : Key} {n : ℕ} (hs : s ≠ 0) (hn : n < 2 ^ 63)
    (ha : ∀ now ev timer, .add now ev timer ∈ ops → ev ≠ 0 ∧ ev ≠ s)
    (hd : ∀ ev, .del ev ∉ ops)
    (hk : ∀ now ev timer, .add now ev timer ∈ ops → offset b (currentMs now + timer) < n)
    (hc : ∀ op ∈ ops, ∀ k ∈ op.clock, offset b k < n) :
    Throughout (InWindow (agcTimerInit t₀ s)) ops := by
  rintro pre op suf rfl st tr hr
  have hsub : ∀ x ∈ pre, x ∈ pre ++ op :: suf := fun x hx => List.mem_append_left _ hx
  have hd' : ∀ ev, .del ev ∉ pre := fun ev he => hd ev (hsub _ he)
  have hl : LegalRun (agcTimerInit t₀ s) pre :=
    legalRun_of_add hs (fun now ev timer he => ha now ev timer (hsub _ he)) hd'
  obtain ⟨st₁, T, tr₁, hrun, htr, hsen, hem⟩ := tracks_run hs hl hd'
  obtain ⟨rfl, rfl⟩ := Prod.mk.inj (hrun.unique hr)
  have hop : op ∈ pre ++ op :: suf := by simp
  -- the deadlines of a trace are those that its operations have set
  have hwin : ∀ (tr' : List TimerLabel) (ops' : List TimerOp), (∀ x ∈ ops', x ∈ pre ++ op :: suf) →
      List.Forall₂ TimerOp.Emits ops' tr' → Window (deadlines tr' ∪ op.clock) := by
    intro tr' ops' hsub' hem'
    refine ⟨b, n, hn, ?_⟩
    rintro k (hk' | hk')
    · exact deadlines_lt hem' (fun now ev timer he => hk now ev timer (hsub' _ he)) k hk'
    · exact hc op hop k hk'
  refine ⟨hwin _ _ hsub hem, fun st' l hstep => ?_⟩
  have hlegal : st₁.Legal op := legal_of_add hsen ha hd hop
  obtain ⟨st₂, T₂, l₂, hstep₂, hl₂, -⟩ := htr.exec hlegal fun ev he => hd ev (he ▸ hop)
  obtain ⟨rfl, rfl⟩ := Prod.mk.inj (hstep₂.unique hstep)
  refine hwin _ (pre ++ [op]) (fun x hx => ?_) (List.rel_append hem (.cons hl₂ .nil))
  rcases List.mem_append.mp hx with hx | hx
  · exact hsub x hx
  · exact List.mem_singleton.mp hx ▸ hop

/-- Two events armed, one of them again, and an iteration after the first deadline. -/
theorem fires_in_time_rearmed :
    ∃ st tr, Returns (fun fuel => timerRun fuel (agcTimerInit blank 1)
        [.add 0 2 5, .add 1000 3 6, .add 2000 2 9, .dispatch 8000]) (st, tr) ∧
      List.Forall₂ TimerOp.Emits [.add 0 2 5, .add 1000 3 6, .add 2000 2 9, .dispatch 8000] tr ∧
      Throughout OnTime tr ∧
      ∀ p q r ev ms ms', tr = p ++ .fired ev ms :: q ++ .fired ev ms' :: r →
        ∃ k, .armed ev k ∈ q := by
  have ha : ∀ now ev timer, TimerOp.add now ev timer ∈
      [.add 0 2 5, .add 1000 3 6, .add 2000 2 9, .dispatch 8000] → ev ≠ 0 ∧ ev ≠ 1 := by
    intro now ev timer hm
    simp only [List.mem_cons, TimerOp.add.injEq, List.not_mem_nil, reduceCtorEq, or_false] at hm
    rcases hm with ⟨-, rfl, -⟩ | ⟨-, rfl, -⟩ | ⟨-, rfl, -⟩ <;> decide
  refine fires_in_time blank (by decide) ha (by simp) ?_
  refine inWindow_of_lt (b := 0) (n := 20) (by decide) (by decide) ha (by simp) ?_ ?_
  · intro now ev timer hm
    simp only [List.mem_cons, TimerOp.add.injEq, List.not_mem_nil, reduceCtorEq, or_false] at hm
    rcases hm with ⟨rfl, -, rfl⟩ | ⟨rfl, -, rfl⟩ | ⟨rfl, -, rfl⟩ <;> decide
  · intro op hm k hk
    simp only [List.mem_cons, List.not_mem_nil, or_false] at hm
    rcases hm with rfl | rfl | rfl | rfl <;> (obtain rfl := Set.mem_singleton_iff.mp hk; decide)

end Timer
