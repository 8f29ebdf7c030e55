import AgcFramework.Timer.Firing

/-!
# Firing in the order of arming

An insertion goes to the right of a node with the same key, so that events with the same deadline
stand in the tree in the order in which they were armed for it, and are fired in that order.

## Main definitions

* `Timer.Precedes tr x y k`: after the last arming of `x`, for the deadline `k`, `y` was armed for
  the same deadline
* `Timer.InOrder`: the nodes of a tree stand in the order of arming

## Main results

* `Timer.Tracks.exec_inOrder`: an operation keeps the order
* `Timer.fires_in_order`: every run fires events with one deadline in the order of arming
-/

open RedBlack RedBlack.ColorTree Rbtree Exec Circular Trace

namespace Timer

variable {st st' : Timer} {T T' : ColorTree Ptr} {m : Pending} {ev x y : Ptr} {k : Key}
  {ops : List TimerOp} {op : TimerOp} {tr : List TimerLabel} {l : TimerLabel} {now : ℤ}

/-! ## What the operations do to the sequence -/

/-- The nodes to the right of the place that a search found have other keys. -/
theorem key_ne_of_mem_after {key : Ptr → Key} {ρ : Path Ptr}
    (hdir : ∀ g ∈ ρ, g.dir = if timerLess k (key g.item) then .left else .right)
    (ho : (after ρ).Pairwise fun x y => 0 ≤ (key y - key x).toInt) : ∀ y ∈ after ρ, key y ≠ k := by
  induction ρ with
  | nil => simp [after]
  | cons g ρ ih =>
    obtain ⟨hg, hρ⟩ := List.forall_mem_cons.mp hdir
    obtain ⟨d, c, a, u⟩ := g
    cases d with
    | right => exact ih hρ ho
    | left =>
      rw [after, List.cons_append, List.pairwise_cons, List.pairwise_append] at ho
      have hless : (k - key a).toInt < 0 := by
        by_contra hnot
        rw [timerLess, decide_eq_false hnot] at hg
        cases hg
      intro y hy he
      rw [after, List.cons_append, List.mem_cons, List.mem_append] at hy
      rcases hy with rfl | hy | hy
      · rw [he, BitVec.sub_self] at hless
        exact absurd hless (by decide)
      · have hle := ho.1 y (List.mem_append_left _ hy)
        rw [he] at hle
        omega
      · exact ih hρ ho.2.2.1 y hy he

/-- A removal leaves the others in their order. -/
theorem delete_sublist {t t' : Rbtree} (h : t.Holds T m) (hev : m ev ≠ none)
    (hr : Returns (fun fuel => agcRbtreeDelete fuel t ev) t') (hT' : t'.Shape T') :
    T'.inorder.Sublist T.inorder := by
  obtain ⟨t₁, T₁, hrun, hholds, -, -, pre, post, hT, hT₁⟩ := h.delete hev
  have hrun' : Returns (fun fuel => agcRbtreeDelete fuel t ev) t₁ := hrun
  obtain rfl := hr.unique hrun'
  obtain rfl := hT'.unique hholds.shape
  rw [hT, hT₁]
  exact List.Sublist.append_left (List.sublist_cons_self ev post) pre

/-- The first part of an arming leaves the others in their order. -/
theorem disarm_sublist (h : st.Tracks T m)
    (hr : Returns (fun fuel => disarmIfSet fuel { st with currentTime := now } ev) st')
    (hT' : st'.tree.Shape T') : T'.inorder.Sublist T.inorder := by
  by_cases hset : st.timerSet ev = true
  · have hm : m ev ≠ none := (h.flags ev).mp hset
    obtain ⟨t₁, T₁, hrun, hholds, -⟩ := h.holds.delete hm
    have hdel : Returns (fun fuel => agcTimerDelTimer fuel { st with currentTime := now } ev)
        { st with
          tree := t₁
          currentTime := now
          calls := st.calls ++ [(st.tree, .delete ev)] } := hrun.bind (Returns.const _)
    obtain rfl := hr.unique (hdel.congr fun fuel => if_pos hset)
    exact delete_sublist h.holds hm hrun hT'
  · have hdel : Returns (fun fuel => disarmIfSet fuel { st with currentTime := now } ev)
        { st with currentTime := now } := (Returns.const _).congr fun fuel => if_neg hset
    obtain rfl := hr.unique hdel
    obtain rfl := h.holds.shape.unique hT'
    exact List.Sublist.refl _

/-- An arming puts the event behind all events with its deadline. -/
theorem addTimer_inorder (h : st.Tracks T m) (ho : st.tree.Ordered T) (h0 : ev ≠ 0)
    (hs : ev ≠ st.tree.sentinel) {timer : Key}
    (hr : Returns (fun fuel => agcTimerAddTimer fuel st now ev timer) st')
    (hT' : st'.tree.Shape T') :
    ∃ b a, T'.inorder = b ++ ev :: a ∧ (b ++ a).Sublist T.inorder ∧ ev ∉ b ++ a ∧
      ∀ y ∈ a, st'.tree.key y ≠ currentMs now + timer := by
  obtain ⟨st₁, T₁, hrun₁, hrem⟩ := h.disarmIfSet ev now
  have hsub := disarm_sublist h hrun₁ hrem.holds.shape
  have hev₁ : (Function.update m ev none) ev = none := by simp
  have hs₁ : ev ≠ st₁.tree.sentinel := by rw [hrem.sentinel_eq]; exact hs
  set k := currentMs now + timer with hk
  obtain ⟨t', T'', ρ, hrun, hh, -, hkey, hT, hins, hdir⟩ := hrem.holds.insert h0 hs₁ hev₁ k
  have hout : ev ∉ T₁.inorder := fun hm => (hrem.holds.nodes ev).mp hm hev₁
  -- the arming that was run is this one
  have hadd : Returns (fun fuel => agcTimerAddTimer fuel st now ev timer)
      { st₁ with
        tree := t'
        timerSet := Function.update st₁.timerSet ev true
        calls := st₁.calls ++ [(st₁.tree.putKey ev k, .insert ev)] } := by
    refine hrun₁.bind ?_
    obtain ⟨n, hn⟩ := hrun
    refine ⟨n, fun fuel hf => ?_⟩
    have hinsert := hn fuel hf
    simp only [StoreOp.exec, setKey_eq _ _ h0, ok_bind] at hinsert
    simp only [← hk, setKey_eq _ _ h0, ok_bind, hinsert, pure_eq_ok]
  obtain rfl := hr.unique hadd
  obtain rfl := hT'.unique hh.shape
  rw [hT] at hout hsub
  refine ⟨before ρ, after ρ, hins, hsub, hout, key_ne_of_mem_after hdir ?_⟩
  have hord := hrem.ordered ho
  rw [Ordered, hT, List.pairwise_append] at hord
  refine List.Pairwise.imp_of_mem ?_ hord.2.1
  intro x y hx hy hle
  rw [List.mem_append, not_or] at hout
  show 0 ≤ (t'.key y - t'.key x).toInt
  rw [hkey, Function.update_of_ne (by rintro rfl; exact hout.2 hy),
    Function.update_of_ne (by rintro rfl; exact hout.2 hx)]
  exact hle

/-- An iteration leaves the events that it does not fire in their order. -/
theorem dispatchTimer_sublist (h : st.Tracks T m) {r : Option Ptr}
    (hr : Returns (fun fuel => agcTimerDispatchTimer fuel st now) (st', r))
    (hT' : st'.tree.Shape T') : T'.inorder.Sublist T.inorder := by
  obtain ⟨st₁, T₁, r₁, hrun, -, hres⟩ := h.dispatchTimer now
  obtain ⟨rfl, rfl⟩ := Prod.mk.inj (hr.unique hrun)
  rcases hres with ⟨-, htr, rfl, -⟩ | ⟨y, rest, rfl, hy, -, htr, -⟩
  · obtain rfl := hT'.unique htr.holds.shape
    exact List.Sublist.refl _
  · have hm : m y ≠ none := by
      apply (h.holds.nodes y).mp
      rw [hy]
      exact List.mem_cons_self
    -- the tree that the iteration leaves is that of the removal
    have hdel : Returns (fun fuel => agcRbtreeDelete fuel st.tree y) st'.tree := by
      obtain ⟨n, hn⟩ := hr
      refine ⟨n, fun fuel hf => ?_⟩
      have hfire := hn fuel hf
      unfold agcTimerDispatchTimer at hfire
      simp only at hfire
      split_ifs at hfire
      · cases hfire
      · obtain ⟨node, -, hfire⟩ := bind_eq_ok.mp hfire
        obtain ⟨key, -, hfire⟩ := bind_eq_ok.mp hfire
        split_ifs at hfire
        · cases hfire
        · obtain ⟨tree, htree, hfire⟩ := bind_eq_ok.mp hfire
          cases hfire
          exact htree
    exact delete_sublist h.holds hm hdel hT'

/-! ## The order of arming -/

/-- After the last arming of `x`, for the deadline `k`, `y` was armed for the same deadline. -/
def Precedes (tr : List TimerLabel) (x y : Ptr) (k : Key) : Prop :=
  ∃ p q, tr = p ++ .armed x k :: q ∧ (∀ l ∈ q, l.event ≠ some x) ∧ PendingIn q y k

theorem Precedes.snoc (h : Precedes tr x y k) (hx : l.event ≠ some x) (hy : l.event ≠ some y) :
    Precedes (tr ++ [l]) x y k := by
  obtain ⟨p, q, rfl, hq, hpend⟩ := h
  refine ⟨p, q ++ [l], by simp, ?_, pendingIn_snoc.mpr (Or.inr ⟨hy, hpend⟩)⟩
  intro l' hl'
  rcases List.mem_append.mp hl' with hl' | hl'
  · exact hq l' hl'
  · rw [List.mem_singleton.mp hl']
    exact hx

/-- An event that is armed last comes behind the ones that wait for the deadline. -/
theorem Precedes.armed (h : PendingIn tr x k) (hne : x ≠ y) :
    Precedes (tr ++ [.armed y k]) x y k := by
  obtain ⟨p, q, rfl, hq⟩ := h
  refine ⟨p, q ++ [.armed y k], by simp, ?_, pendingIn_snoc.mpr (Or.inl rfl)⟩
  intro l hl
  rcases List.mem_append.mp hl with hl | hl
  · exact hq l hl
  · rw [List.mem_singleton.mp hl]
    rintro ⟨⟩
    exact hne rfl

/-- Of two nodes that wait for one deadline the first one was armed first. -/
def InOrder (tr : List TimerLabel) (T : ColorTree Ptr) : Prop :=
  T.inorder.Pairwise fun x y => ∀ k, PendingIn tr x k → PendingIn tr y k → Precedes tr x y k

/-- The nodes of a tree without the event of a label stay in order. -/
theorem pairwise_snoc {L L' : List Ptr} (hsub : L'.Sublist L) (hl : ∀ x ∈ L', l.event ≠ some x)
    (h : L.Pairwise fun x y => ∀ k, PendingIn tr x k → PendingIn tr y k → Precedes tr x y k) :
    L'.Pairwise fun x y => ∀ k, PendingIn (tr ++ [l]) x k → PendingIn (tr ++ [l]) y k →
      Precedes (tr ++ [l]) x y k := by
  have hpend : ∀ x ∈ L', ∀ k, PendingIn (tr ++ [l]) x k → PendingIn tr x k := by
    intro x hx k hk
    rcases pendingIn_snoc.mp hk with rfl | ⟨-, hk⟩
    · exact absurd rfl (hl x hx)
    · exact hk
  refine List.Pairwise.imp_of_mem ?_ (h.sublist hsub)
  intro x y hx hy hxy k hkx hky
  exact (hxy k (hpend x hx k hkx) (hpend y hy k hky)).snoc (hl x hx) (hl y hy)

/-- An arming keeps the nodes in order. -/
theorem Tracks.inOrder_add {timer : Key} (h : st.Tracks T (pendingOf tr))
    (ho : st.tree.Ordered T) (hin : InOrder tr T) (h0 : ev ≠ 0) (hs : ev ≠ st.tree.sentinel)
    (hr : Returns (fun fuel => agcTimerAddTimer fuel st now ev timer) st')
    (htr' : st'.Tracks T' (pendingOf (tr ++ [.armed ev (currentMs now + timer)]))) :
    InOrder (tr ++ [.armed ev (currentMs now + timer)]) T' := by
  obtain ⟨b, a, hT', hsub, hev, hkey⟩ := addTimer_inorder h ho h0 hs hr htr'.holds.shape
  set k := currentMs now + timer
  have hne : ∀ x ∈ b ++ a, (TimerLabel.armed ev k).event ≠ some x := by
    rintro x hx ⟨⟩
    exact hev hx
  -- the event waits for the new deadline only
  have hlast : ∀ k', PendingIn (tr ++ [.armed ev k]) ev k' → k' = k := by
    intro k' hk'
    rcases pendingIn_snoc.mp hk' with he | ⟨hne, -⟩
    · exact (TimerLabel.armed.inj he).2.symm
    · exact absurd rfl hne
  have hold := pairwise_snoc hsub hne hin
  rw [List.pairwise_append] at hold
  rw [InOrder, hT', List.pairwise_append, List.pairwise_cons]
  refine ⟨hold.1, ⟨fun y hy k' hk' hy' => ?_, hold.2.1⟩, fun x hx y hy => ?_⟩
  · obtain rfl := hlast k' hk'
    exact absurd (htr'.holds.keys y _ (pendingOf_eq_some.mpr hy')) (hkey y hy)
  · rcases List.mem_cons.mp hy with rfl | hy
    · intro k' hx' hk'
      obtain rfl := hlast k' hk'
      have hxy : x ≠ y := by
        rintro rfl
        exact hev (List.mem_append_left _ hx)
      rcases pendingIn_snoc.mp hx' with he | ⟨-, hx'⟩
      · exact absurd (TimerLabel.armed.inj he).1.symm hxy
      · exact Precedes.armed hx' hxy
    · exact hold.2.2 x hx y hy

/-- A label that is put behind a trace by an iteration. -/
theorem Tracks.inOrder_dispatch (h : st.Tracks T (pendingOf tr)) (hin : InOrder tr T)
    {r : Option Ptr} (hr : Returns (fun fuel => agcTimerDispatchTimer fuel st now) (st', r))
    (htr' : st'.Tracks T' (pendingOf (tr ++ [.ofFired (currentMs now) r]))) :
    InOrder (tr ++ [.ofFired (currentMs now) r]) T' := by
  refine pairwise_snoc (dispatchTimer_sublist h hr htr'.holds.shape) ?_ hin
  intro x hx hl
  -- the event that is fired is not in the tree any more
  have hm : pendingOf (tr ++ [.ofFired (currentMs now) r]) x ≠ none :=
    (htr'.holds.nodes x).mp hx
  rw [pendingOf_snoc] at hm
  cases r with
  | none => cases hl
  | some y =>
    obtain rfl := Option.some.inj hl
    exact hm (Function.update_self _ _ _)

/-- A firing is of the event that was armed first, of those that wait for its deadline. -/
def FiresFirst (p : List TimerLabel) : TimerLabel → Prop
  | .fired ev _ => ∀ ev' k, ev' ≠ ev → PendingIn p ev k → PendingIn p ev' k → Precedes p ev ev' k
  | .idle _ => True
  | .armed _ _ => True
  | .deleted _ => True

theorem Tracks.firesFirst (h : st.Tracks T (pendingOf tr)) (hin : InOrder tr T) {r : Option Ptr}
    (hr : Returns (fun fuel => agcTimerDispatchTimer fuel st now) (st', r)) :
    FiresFirst tr (.ofFired (currentMs now) r) := by
  obtain ⟨st₁, T₁, r₁, hrun, -, hres⟩ := h.dispatchTimer now
  obtain ⟨rfl, rfl⟩ := Prod.mk.inj (hr.unique hrun)
  rcases hres with ⟨rfl, -⟩ | ⟨y, rest, rfl, hy, -⟩
  · trivial
  · intro ev' k hne hk hk'
    have hmem : ev' ∈ T.inorder := by
      rw [h.holds.nodes, pendingOf_eq_some.mpr hk']
      rintro ⟨⟩
    rw [InOrder, hy, List.pairwise_cons] at hin
    rw [hy, List.mem_cons] at hmem
    exact hin.1 ev' (hmem.resolve_left hne) k hk hk'

/-- One operation keeps the nodes in order, and fires the first one. -/
theorem Tracks.exec_inOrder (h : st.Tracks T (pendingOf tr)) (ho : st.tree.Ordered T)
    (hin : InOrder tr T) (hl : st.Legal op) (hd : ∀ ev, op ≠ .del ev)
    (hr : Returns (fun fuel => op.exec fuel st) (st', l))
    (htr' : st'.Tracks T' (pendingOf (tr ++ [l]))) :
    InOrder (tr ++ [l]) T' ∧ FiresFirst tr l := by
  cases op with
  | add now ev timer =>
    obtain ⟨st₁, -, hrun, -⟩ := h.addTimer hl.1 hl.2 now timer
    obtain ⟨rfl, rfl⟩ := Prod.mk.inj (hr.unique (hrun.bind (Returns.const _)))
    exact ⟨h.inOrder_add ho hin hl.1 hl.2 hrun htr', trivial⟩
  | del ev => exact absurd rfl (hd ev)
  | dispatch now =>
    obtain ⟨st₁, -, r, hrun, -⟩ := h.dispatchTimer now
    obtain ⟨rfl, rfl⟩ := Prod.mk.inj (hr.unique (hrun.bind (Returns.const _)))
    exact ⟨h.inOrder_dispatch hin hrun htr', h.firesFirst hin hrun⟩

/-! ## Runs -/

/-- **Firing in the order of arming.** In every run of armings and dispatcher iterations whose
deadlines and clock stay in a window, an event is fired before every other one that was armed for
the same deadline after it. -/
theorem fires_in_order (t₀ : Rbtree) {s : Ptr} (hs : s ≠ 0) {ops : List TimerOp}
    (ha : ∀ now ev timer, .add now ev timer ∈ ops → ev ≠ 0 ∧ ev ≠ s)
    (hd : ∀ ev, .del ev ∉ ops) (hw : Throughout (InWindow (agcTimerInit t₀ s)) ops) :
    ∃ st tr, Returns (fun fuel => timerRun fuel (agcTimerInit t₀ s) ops) (st, tr) ∧
      List.Forall₂ TimerOp.Emits ops tr ∧ Throughout FiresFirst tr := by
  suffices hrun : ∃ st T tr, Returns (fun fuel => timerRun fuel (agcTimerInit t₀ s) ops) (st, tr) ∧
      st.Tracks T (pendingOf tr) ∧ st.tree.Ordered T ∧ st.tree.sentinel = s ∧ InOrder tr T ∧
      List.Forall₂ TimerOp.Emits ops tr ∧ Throughout FiresFirst tr by
    obtain ⟨st, T, tr, hrun, -, -, -, -, hem, hfirst⟩ := hrun
    exact ⟨st, tr, hrun, hem, hfirst⟩
  induction ops using List.reverseRecOn with
  | nil =>
    exact ⟨_, leaf, [], timerRun_nil _, tracks_init t₀ hs, List.Pairwise.nil, rfl,
      List.Pairwise.nil, .nil, throughout_nil⟩
  | append_singleton ops op ih =>
    obtain ⟨hw, hop⟩ := throughout_snoc.mp hw
    obtain ⟨st, T, tr, hrun, htr, ho, hsen, hin, hem, hfirst⟩ := ih
      (fun now ev timer he => ha now ev timer (List.mem_append_left _ he))
      (fun ev he => hd ev (List.mem_append_left _ he)) hw
    have hl : st.Legal op := legal_of_add hsen ha hd (by simp)
    have hop' : ∀ ev, op ≠ .del ev := fun ev he => hd ev (by simp [he])
    obtain ⟨st', T', l, hstep, hlab, htr', hsen', hord⟩ := htr.exec hl hop'
    obtain ⟨hin', hl'⟩ := htr.exec_inOrder ho hin hl hop' hstep htr'
    refine ⟨st', T', tr ++ [l], timerRun_snoc hrun hstep, htr', hord ho ?_, hsen'.trans hsen, hin',
      List.rel_append hem (.cons hlab .nil), throughout_snoc.mpr ⟨hfirst, hl'⟩⟩
    rw [keys_pendingOf]
    exact ((hop st tr hrun).2 st' l hstep).mono Set.subset_union_left

/-- Two events with one deadline, the second one armed at a later time. -/
theorem fires_in_order_two :
    ∃ st tr, Returns (fun fuel => timerRun fuel (agcTimerInit blank 1)
        [.add 0 3 6, .add 1000 2 5, .dispatch 8000, .dispatch 8000]) (st, tr) ∧
      List.Forall₂ TimerOp.Emits [.add 0 3 6, .add 1000 2 5, .dispatch 8000, .dispatch 8000] tr ∧
      Throughout FiresFirst tr := by
  have ha : ∀ now ev timer, TimerOp.add now ev timer ∈
      [.add 0 3 6, .add 1000 2 5, .dispatch 8000, .dispatch 8000] → ev ≠ 0 ∧ ev ≠ 1 := by
    intro now ev timer hm
    simp only [List.mem_cons, TimerOp.add.injEq, List.not_mem_nil, reduceCtorEq, or_false] at hm
    rcases hm with ⟨-, rfl, -⟩ | ⟨-, rfl, -⟩
    · exact ⟨by decide, by decide⟩
    · exact ⟨by decide, by decide⟩
  refine fires_in_order blank (by decide) ha (by simp) ?_
  refine inWindow_of_lt (b := 0) (n := 20) (by decide) (by decide) ha (by simp) ?_ ?_
  · intro now ev timer hm
    simp only [List.mem_cons, TimerOp.add.injEq, List.not_mem_nil, reduceCtorEq, or_false] at hm
    rcases hm with ⟨rfl, -, rfl⟩ | ⟨rfl, -, rfl⟩
    · decide
    · decide
  · intro op hm k hk
    simp only [List.mem_cons, List.not_mem_nil, or_false] at hm
    rcases hm with rfl | rfl | rfl | rfl <;> (obtain rfl := Set.mem_singleton_iff.mp hk; decide)

end Timer
