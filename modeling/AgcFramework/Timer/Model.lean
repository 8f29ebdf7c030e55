import AgcFramework.Rbtree.Store

/-!
# Timers

`agc_timer.c` arms an event by putting its embedded node into the tree under the deadline in
milliseconds, and remembers in the flag `timer_set` of the event that it did. The dispatcher thread
takes the leftmost node out when its deadline has passed and fires the event. An event is named by
the address of its timer node. Every operation is atomic, as the tree's mutex makes it.

## Main definitions

* `Timer`: the tree, the flags, and a log of the calls made on the tree
* `agcTimerAddTimer`, `agcTimerDelTimer`, `agcTimerDispatchTimer`: the operations of `agc_timer.c`
* `Timer.Tracks st T m`: the tree and the flags are in step with the map `m` of armed events

## Main results

* `Timer.Tracks.addTimer`: arming moves the event to its new deadline
* `Timer.Tracks.dispatchTimer`: an iteration takes out the leftmost node or waits for it
-/

open RedBlack RedBlack.ColorTree Rbtree Exec Circular

/-- A call on the tree. -/
inductive TreeCall
  | insert (node : Ptr)
  | delete (node : Ptr)

/-- The state of `agc_timer.c` and of the events' timer fields. -/
structure Timer where
  tree : Rbtree
  timerSet : Ptr → Bool
  /-- The static variable `current_time`, in microseconds. -/
  currentTime : ℤ
  /-- Ghost state: every call made on the tree, with the tree it was made on. -/
  calls : List (Rbtree × TreeCall)

/-- `agc_timer_init`, on any memory in which no event is armed. -/
def agcTimerInit (t : Rbtree) (s : Ptr) : Timer where
  tree := agcRbtreeInit t s
  timerSet _ := false
  currentTime := 0
  calls := []

/-- `current_time / 1000`, as it enters the unsigned arithmetic of the keys. -/
def currentMs (now : ℤ) : Key := BitVec.ofInt 64 (now.tdiv 1000)

/-- `agc_timer_del_timer`. -/
def agcTimerDelTimer (fuel : ℕ) (st : Timer) (ev : Ptr) : Exec Timer := do
  let tree ← agcRbtreeDelete fuel st.tree ev
  pure { st with tree := tree, calls := st.calls ++ [(st.tree, .delete ev)] }

/-- `if (ev->timer_set) agc_timer_del_timer(ev)`. -/
def disarmIfSet (fuel : ℕ) (st : Timer) (ev : Ptr) : Exec Timer :=
  if st.timerSet ev then agcTimerDelTimer fuel st ev else pure st

/-- `agc_timer_add_timer`, when `agc_time_now` is `now`. -/
def agcTimerAddTimer (fuel : ℕ) (st : Timer) (now : ℤ) (ev : Ptr) (timer : Key) : Exec Timer := do
  let st ← disarmIfSet fuel { st with currentTime := now } ev
  let keyed ← st.tree.setKey ev (currentMs now + timer)
  let tree ← agcRbtreeInsert agcRbtreeInsertTimerValue fuel keyed ev
  pure { st with
    tree := tree
    timerSet := Function.update st.timerSet ev true
    calls := st.calls ++ [(keyed, .insert ev)] }

/-- One iteration of the loop of `agc_timer_dispatch_timer`, when `agc_time_now` is `now`; the
event passed to `agc_event_fire` is returned. -/
def agcTimerDispatchTimer (fuel : ℕ) (st : Timer) (now : ℤ) : Exec (Timer × Option Ptr) := do
  let st := { st with currentTime := now }
  if st.tree.root = st.tree.sentinel then pure (st, none) else do
    let node ← agcRbtreeMin st.tree fuel st.tree.root
    let key ← st.tree.getKey node
    if 0 < (key - currentMs now).toInt then pure (st, none) else do
      let st := { st with timerSet := Function.update st.timerSet node false }
      let tree ← agcRbtreeDelete fuel st.tree node
      pure ({ st with tree := tree, calls := st.calls ++ [(st.tree, .delete node)] }, some node)

namespace Timer

/-! ## The armed events -/

/-- The call was made on a tree in the right state: a removal of a node in the tree, or an
insertion of a node outside it. -/
def Sound : Rbtree × TreeCall → Prop
  | (t, .insert a) => ∃ T, t.Shape T ∧ a ∉ T.inorder
  | (t, .delete a) => ∃ T, t.Shape T ∧ a ∈ T.inorder

/-- The tree `T` and the flags are in step with the map `m` of the armed events. -/
structure Tracks (st : Timer) (T : ColorTree Ptr) (m : Pending) : Prop where
  holds : st.tree.Holds T m
  flags : ∀ ev, st.timerSet ev = true ↔ m ev ≠ none
  calls : ∀ c ∈ st.calls, Sound c

variable {st : Timer} {T : ColorTree Ptr} {m : Pending} {ev : Ptr}

theorem tracks_init (t : Rbtree) {s : Ptr} (hs : s ≠ 0) :
    (agcTimerInit t s).Tracks leaf fun _ => none :=
  ⟨holds_init t hs, by simp [agcTimerInit], by simp [agcTimerInit]⟩

/-- The event was taken out of the tree, and its flag was left as it was. -/
structure Removed (st : Timer) (T : ColorTree Ptr) (m : Pending) (ev : Ptr) (st' : Timer)
    (T' : ColorTree Ptr) : Prop where
  holds : st'.tree.Holds T' (Function.update m ev none)
  timerSet_eq : st'.timerSet = st.timerSet
  sentinel_eq : st'.tree.sentinel = st.tree.sentinel
  calls : ∀ c ∈ st'.calls, Sound c
  ordered : st.tree.Ordered T → st'.tree.Ordered T'

theorem sound_append {l : List (Rbtree × TreeCall)} {c : Rbtree × TreeCall}
    (hl : ∀ c ∈ l, Sound c) (hc : Sound c) : ∀ c' ∈ l ++ [c], Sound c' := by
  intro c' hc'
  rcases List.mem_append.mp hc' with h | h
  · exact hl c' h
  · obtain rfl := List.mem_singleton.mp h
    exact hc

/-- `agc_timer_del_timer` takes an armed event out of the tree and leaves its flag set. -/
theorem Tracks.delTimer (h : st.Tracks T m) (hev : m ev ≠ none) :
    ∃ st' T', Returns (fun fuel => agcTimerDelTimer fuel st ev) st' ∧
      Removed st T m ev st' T' := by
  obtain ⟨t', T', hrun, hh, hsen, hkey, pre, post, hT, hT'⟩ := h.holds.delete hev
  refine ⟨{ st with tree := t', calls := st.calls ++ [(st.tree, .delete ev)] }, T',
    hrun.bind (Returns.const _), hh, rfl, hsen, ?_, ?_⟩
  · exact sound_append h.calls ⟨T, h.holds.shape, (h.holds.nodes ev).mpr hev⟩
  · intro ho
    exact ho.delete h.holds.shape.nodup hkey hT hT'

/-- The first part of an arming leaves the event outside the tree. -/
theorem Tracks.disarmIfSet (h : st.Tracks T m) (ev : Ptr) (now : ℤ) :
    ∃ st' T', Returns (fun fuel => disarmIfSet fuel { st with currentTime := now } ev) st' ∧
      Removed st T m ev st' T' := by
  have h' : Tracks { st with currentTime := now } T m := ⟨h.holds, h.flags, h.calls⟩
  by_cases hset : st.timerSet ev = true
  · obtain ⟨st', T', hrun, hrem⟩ := h'.delTimer ((h.flags ev).mp hset)
    refine ⟨st', T', hrun.congr fun fuel => ?_, hrem.1, hrem.2, hrem.3, hrem.4, hrem.5⟩
    exact if_pos hset
  · have hm : m ev = none := by
      by_contra hne
      exact hset ((h.flags ev).mpr hne)
    refine ⟨_, T, (Returns.const _).congr fun fuel => if_neg hset, ?_, rfl, rfl, h.calls, id⟩
    rw [← hm, Function.update_eq_self]
    exact h.holds

/-- **Arming** an event, armed or not, leaves it in the tree under its new deadline. -/
theorem Tracks.addTimer (h : st.Tracks T m) (h0 : ev ≠ 0) (hs : ev ≠ st.tree.sentinel) (now : ℤ)
    (timer : Key) :
    ∃ st' T', Returns (fun fuel => agcTimerAddTimer fuel st now ev timer) st' ∧
      st'.Tracks T' (Function.update m ev (some (currentMs now + timer))) ∧
      st'.tree.sentinel = st.tree.sentinel ∧
      (st.tree.Ordered T →
        Window (Pending.keys (Function.update m ev (some (currentMs now + timer)))) →
        st'.tree.Ordered T') := by
  -- an event that is armed is taken out first, so that the key of a node in the tree is not written
  obtain ⟨st₁, T₁, hrun₁, hrem⟩ := h.disarmIfSet ev now
  have hev₁ : (Function.update m ev none) ev = none := by simp
  have hs₁ : ev ≠ st₁.tree.sentinel := by rw [hrem.sentinel_eq]; exact hs
  set key := currentMs now + timer with hkeydef
  obtain ⟨t', T', ρ, hrun, hh, hsen, hkey, hT, hT', hdir⟩ := hrem.holds.insert h0 hs₁ hev₁ key
  rw [Function.update_idem] at hh
  have hout : ev ∉ T₁.inorder := fun hm => (hrem.holds.nodes ev).mp hm hev₁
  refine ⟨{ st₁ with
      tree := t'
      timerSet := Function.update st₁.timerSet ev true
      calls := st₁.calls ++ [(st₁.tree.putKey ev key, .insert ev)] }, T', ?_, ⟨hh, ?_, ?_⟩, ?_, ?_⟩
  · obtain ⟨n₁, hn₁⟩ := hrun₁
    obtain ⟨n, hn⟩ := hrun
    refine ⟨max n₁ n, fun fuel hf => ?_⟩
    have e₁ := hn₁ fuel (Nat.le_trans (Nat.le_max_left _ _) hf)
    have e₂ := hn fuel (Nat.le_trans (Nat.le_max_right _ _) hf)
    simp only [StoreOp.exec, setKey_eq _ _ h0, ok_bind] at e₂
    simp only [agcTimerAddTimer, e₁, ok_bind, setKey_eq _ _ h0, ← hkeydef, e₂, pure_eq_ok]
  · intro b
    simp only [hrem.timerSet_eq]
    by_cases hb : b = ev
    · simp [hb]
    · simpa [Function.update_of_ne hb] using h.flags b
  · exact sound_append hrem.calls ⟨T₁, (hrem.holds.putKey hev₁ key).shape, hout⟩
  · exact hsen.trans hrem.sentinel_eq
  · intro ho hw
    refine (hrem.ordered ho).insert (hw.mono ?_) hkey hT hT' hout hdir
    rintro k ⟨b, hb, rfl⟩
    exact ⟨b, hh.key_eq hb⟩

/-- The head of a non-empty tree's sequence is the node `agc_rbtree_min` returns. -/
theorem min_root {t : Rbtree} (hs : t.Shape T) (hT : T ≠ leaf) :
    ∃ y rest, T.inorder = y :: rest ∧ Returns (fun fuel => agcRbtreeMin t fuel t.root) y := by
  obtain ⟨ρ, c, y, u, rfl, hleft, hmin⟩ := agcRbtreeMin_spec (π := []) hs hT
  refine ⟨y, u.inorder ++ after ρ, ?_, ⟨(fill ρ (.node c leaf y u)).height, fun fuel hf => ?_⟩⟩
  · simp [inorder_fill, before_eq_nil hleft, inorder]
  · rw [hs.root_eq]
    exact hmin fuel hf

/-- **An iteration of the dispatcher** fires the leftmost event if its deadline has passed, and
otherwise does nothing. -/
theorem Tracks.dispatchTimer (h : st.Tracks T m) (now : ℤ) :
    ∃ st' T' r, Returns (fun fuel => agcTimerDispatchTimer fuel st now) (st', r) ∧
      st'.tree.sentinel = st.tree.sentinel ∧
      ((r = none ∧ st'.Tracks T' m ∧ T' = T ∧ st'.tree = st.tree ∧
          ∀ y rest, T.inorder = y :: rest → 0 < (st.tree.key y - currentMs now).toInt) ∨
        ∃ y rest, r = some y ∧ T.inorder = y :: rest ∧
          (st.tree.key y - currentMs now).toInt ≤ 0 ∧ st'.Tracks T' (Function.update m y none) ∧
          (st.tree.Ordered T → st'.tree.Ordered T')) := by
  have hidle : Tracks { st with currentTime := now } T m := ⟨h.holds, h.flags, h.calls⟩
  -- nothing is armed, the first deadline is not reached, or it is
  by_cases hT : T = leaf
  · refine ⟨{ st with currentTime := now }, T, none, (Returns.const _).congr fun fuel => ?_, rfl,
      Or.inl ⟨rfl, hidle, rfl, rfl, ?_⟩⟩
    · have hroot : st.tree.root = st.tree.sentinel := by rw [h.holds.shape.root_eq, hT]; rfl
      simp only [agcTimerDispatchTimer, hroot, if_true, pure_eq_ok]
    · intro y rest hy
      rw [hT] at hy
      cases hy
  · obtain ⟨y, rest, hy, ⟨n, hmin⟩⟩ := min_root h.holds.shape hT
    have hyT : y ∈ T.inorder := by simp [hy]
    obtain ⟨rp, hh⟩ := h.holds.shape.hangs
    obtain ⟨hy0, -⟩ := hh.ne y hyT
    have hroot : st.tree.root ≠ st.tree.sentinel := by
      rw [h.holds.shape.root_eq]
      exact (hh.ne _ (ptr_mem hT)).2
    by_cases hdue : 0 < (st.tree.key y - currentMs now).toInt
    · refine ⟨{ st with currentTime := now }, T, none, ⟨n, fun fuel hf => ?_⟩, rfl,
        Or.inl ⟨rfl, hidle, rfl, rfl, ?_⟩⟩
      · simp only [agcTimerDispatchTimer, hroot, if_false, hmin fuel hf, ok_bind,
          getKey_eq _ hy0, hdue, if_true, pure_eq_ok]
      · intro y' rest' hy'
        obtain ⟨rfl, -⟩ := List.cons.inj (hy.symm.trans hy')
        exact hdue
    · -- the leftmost event is due, and it is taken out of the tree
      have hm : m y ≠ none := (h.holds.nodes y).mp hyT
      obtain ⟨t', T', ⟨k, hrun⟩, hh', hsen, hkey, pre, post, hpre, hpost⟩ := h.holds.delete hm
      refine ⟨{ st with
          tree := t'
          timerSet := Function.update st.timerSet y false
          currentTime := now
          calls := st.calls ++ [(st.tree, .delete y)] }, T', some y, ⟨max n k, fun fuel hf => ?_⟩,
        hsen, Or.inr ⟨y, rest, rfl, hy, not_lt.mp hdue, ⟨hh', ?_, ?_⟩, ?_⟩⟩
      · have e₁ := hmin fuel (Nat.le_trans (Nat.le_max_left _ _) hf)
        have e₂ : agcRbtreeDelete fuel st.tree y = .ok t' :=
          hrun fuel (Nat.le_trans (Nat.le_max_right _ _) hf)
        simp only [agcTimerDispatchTimer, hroot, if_false, e₁, ok_bind, getKey_eq _ hy0, hdue, e₂,
          pure_eq_ok]
      · intro b
        by_cases hb : b = y
        · simp [hb]
        · simpa [Function.update_of_ne hb] using h.flags b
      · exact sound_append h.calls ⟨T, h.holds.shape, hyT⟩
      · intro ho
        exact ho.delete h.holds.shape.nodup hkey hpre hpost

end Timer
