import AgcFramework.Types
import AgcFramework.Sql.Bound

/-!
# The wait for a database handle

A thread that calls `_agc_sql_get_handle` while the pool is at its bound and in use stays in a loop.
The loop sleeps in its first iteration only, and only there looks at the time it has slept: a thread
that the first sleep did not bring over `db_handle_timeout` spins until somebody gives a handle
back. The test of the loop compares the number of checkouts with the number of handles once the pool
has reached its bound, and the two are comparable as long as no thread has checked out one handle
twice.

## Main definitions

* `SqlSystem.waitIteration`: an iteration of the loop, with its sleep and its return
* `SqlSystem.WaitEnds`: along a schedule, the wait of a thread ends by its timeout
* `SqlSystem.Serves`: a thread that wants a handle is not made to wait and gets one of the pool
* `SqlSystem.Sole`: at the bound, a search does not give a thread a handle that it holds

## Main results

* `SqlSystem.wait_ends_iff`: the wait ends exactly if the first sleep exceeds the timeout
* `SqlSystem.serves_of_sole`: where, at the bound, no thread holds a handle twice, a free handle is
  found
-/

open Trace

/-- How an iteration of the wait loop ends. -/
inductive WaitEnd
  /-- The call returns, with what it stores in `*dbh`. -/
  | returned (status : AgcStatus) (dbh : Option ℕ)
  | again (waiting : Bool) (totalYield : ℕ)
  /-- The test of the loop fails, and the thread goes on to look for a handle. -/
  | passed

namespace SqlSystem

variable {T : Type} [DecidableEq T] (cfg : SqlConfig) (hash : T → ℕ) (limit : ℕ)

/-! ## The iterations -/

/-- An iteration of the wait loop, with whether it calls `agc_yield`. The counter `waiting` stands
as whether it is positive: its overflow is undefined. -/
def waitIteration (p : SqlPool T) (waiting : Bool) (totalYield : ℕ) : WaitEnd × Bool :=
  if blocked cfg p then
    -- the test of the counter is before the sleep: from the second iteration on there is none
    if waiting then (.again true totalYield, false)
    else
      let totalYield := totalYield + 100000
      if cfg.dbHandleTimeout ≠ 0 ∧ cfg.dbHandleTimeout < totalYield then
        (.returned .false none, true)
      else (.again true totalYield, true)
  else (.passed, false)

variable {cfg hash limit} {s : SqlSystem T} {t : T} {waiting : Bool} {totalYield : ℕ}

theorem goto_eq_self {pc : SqlPc} (hpc : s.pc t = pc) : s.goto t pc = s := by
  subst hpc
  simp [goto]

variable (cfg hash limit) in
/-- The step of a test is an iteration of the loop. -/
theorem step_test (hpc : s.pc t = .testing waiting totalYield) :
    s.step cfg hash limit (.test t) =
      match (waitIteration cfg s.pool.toSqlPool waiting totalYield).1 with
      | .returned _ _ => s.goto t .idle
      | .again waiting totalYield => s.goto t (.testing waiting totalYield)
      | .passed => s.goto t .searching := by
  simp only [step, hpc, wait, waitIteration]
  split_ifs with hblocked hwaiting
  · -- a thread that has slept stays where it is
    subst hwaiting
    exact (goto_eq_self hpc).symm
  all_goals rfl

/-- A thread in the loop is moved by its own tests only. -/
theorem pc_step_of_ne (hpc : s.pc t = .testing waiting totalYield) {e : SqlStep T}
    (he : e ≠ .test t) : (s.step cfg hash limit e).pc t = .testing waiting totalYield := by
  -- a step of another thread
  have hother : ∀ (s' : SqlSystem T) (u : T) (pc : SqlPc), s'.pc = s.pc → u ≠ t →
      (s'.goto u pc).pc t = .testing waiting totalYield := by
    intro s' u pc hs' hut
    rw [pc_goto_of_ne s' (Ne.symm hut), hs', hpc]
  cases e with
  | call u =>
    simp only [step]
    split_ifs with hu
    · exact hother s u _ rfl (by rintro rfl; simp [hpc] at hu)
    · exact hpc
  | test u =>
    have hut : u ≠ t := by
      rintro rfl
      exact he rfl
    simp only [step]
    split
    · unfold wait
      split_ifs
      · exact hpc
      all_goals exact hother s u _ rfl hut
    · exact hpc
  | search u =>
    simp only [step]
    split_ifs with hu
    · have hut : u ≠ t := by
        rintro rfl
        simp [hpc] at hu
      unfold search
      split
      all_goals exact hother { s with pool := _ } u _ rfl hut
    · exact hpc
  | connect u connected created =>
    simp only [step]
    split_ifs with hu
    all_goals first
      | exact hother s u _ rfl (by rintro rfl; simp [hpc] at hu)
      | exact hpc
  | add u =>
    simp only [step]
    split_ifs with hu
    · exact hother { s with pool := _ } u _ rfl (by rintro rfl; simp [hpc] at hu)
    · exact hpc
  | release u h =>
    simp only [step]
    split_ifs
    · exact hpc
    · exact hpc

/-! ## Schedules -/

/-- The pool is at its bound and all of it is checked out. -/
def Exhausted (cfg : SqlConfig) (p : SqlPool T) : Prop :=
  cfg.maxDbHandles ≤ p.totalHandles.toNat ∧ p.totalHandles ≤ p.totalUsedHandles

omit [DecidableEq T] in
theorem blocked_of_exhausted {p : SqlPool T} (hmax : 0 < cfg.maxDbHandles)
    (h : Exhausted cfg p) : blocked cfg p = true := by
  simp [blocked, hmax.ne', h.1, h.2]

variable (cfg hash limit) in
/-- The states along a schedule of the steps of all threads. -/
def states (s : SqlSystem T) (sched : ℕ → SqlStep T) : ℕ → SqlSystem T
  | 0 => s
  | n + 1 => (states s sched n).step cfg hash limit (sched n)

variable (cfg hash limit) in
/-- The iteration of the wait loop that a thread makes at a place of a schedule, if any. -/
def iterationAt (s : SqlSystem T) (sched : ℕ → SqlStep T) (t : T) (n : ℕ) :
    Option (WaitEnd × Bool) :=
  match sched n, (states cfg hash limit s sched n).pc t with
  | .test u, .testing waiting totalYield =>
    if u = t then
      some (waitIteration cfg (states cfg hash limit s sched n).pool.toSqlPool waiting totalYield)
    else none
  | _, _ => none

variable (cfg hash limit) in
/-- The time that a thread has slept in the loop, before a place of a schedule. -/
def slept (s : SqlSystem T) (sched : ℕ → SqlStep T) (t : T) (n : ℕ) : ℕ :=
  100000 * (List.range n).countP fun i => (iterationAt cfg hash limit s sched t i).any (·.2)

variable (cfg hash limit) in
/-- A thread that calls `_agc_sql_get_handle` in the state `s` returns `AGC_STATUS_FALSE` with a
null handle at some place of the schedule, where the time it has slept comes over the timeout, and
has slept in every iteration up to there. -/
def WaitEnds (s : SqlSystem T) (sched : ℕ → SqlStep T) (t : T) : Prop :=
  let s' := s.step cfg hash limit (.call t)
  ∃ n, (iterationAt cfg hash limit s' sched t n).map Prod.fst = some (.returned .false none) ∧
    slept cfg hash limit s' sched t n ≤ cfg.dbHandleTimeout ∧
    cfg.dbHandleTimeout < slept cfg hash limit s' sched t (n + 1) ∧
    ∀ i ≤ n, ∀ it, iterationAt cfg hash limit s' sched t i = some it → it.2 = true

section Schedule

variable {sched : ℕ → SqlStep T} {n : ℕ}

theorem iterationAt_of_ne (h : sched n ≠ .test t) :
    iterationAt cfg hash limit s sched t n = none := by
  unfold iterationAt
  split
  · rename_i u _ _ hn _
    rw [if_neg]
    rintro rfl
    exact h hn
  · rfl

theorem iterationAt_of_test (h : sched n = .test t)
    (hpc : (states cfg hash limit s sched n).pc t = .testing waiting totalYield) :
    iterationAt cfg hash limit s sched t n =
      some (waitIteration cfg (states cfg hash limit s sched n).pool.toSqlPool waiting
        totalYield) := by
  simp only [iterationAt, h, hpc, if_true]

variable (cfg hash limit) in
/-- Before its first test a thread stays at the beginning of the loop. -/
theorem pc_states_of_untested (hpc : s.pc t = .testing waiting totalYield)
    (h : ∀ i < n, sched i ≠ .test t) :
    (states cfg hash limit s sched n).pc t = .testing waiting totalYield := by
  induction n with
  | zero => exact hpc
  | succ n ih =>
    have ih := ih fun i hi => h i (hi.trans n.lt_succ_self)
    exact pc_step_of_ne ih (h n n.lt_succ_self)

/-- A thread that has slept once stays in the loop as long as the pool is exhausted. -/
theorem pc_states_of_waiting {m : ℕ}
    (hpc : (states cfg hash limit s sched m).pc t = .testing true totalYield)
    (hblocked : ∀ n, blocked cfg (states cfg hash limit s sched n).pool.toSqlPool = true) (k : ℕ) :
    (states cfg hash limit s sched (m + k)).pc t = .testing true totalYield := by
  -- neither a test nor a step of another thread moves it
  induction k with
  | zero => exact hpc
  | succ k ih =>
    by_cases he : sched (m + k) = .test t
    · have hsame : (states cfg hash limit s sched (m + k)).step cfg hash limit (.test t) =
          states cfg hash limit s sched (m + k) := by
        simp only [step, ih, wait, hblocked, if_true]
      have hnext : states cfg hash limit s sched (m + (k + 1)) =
          (states cfg hash limit s sched (m + k)).step cfg hash limit (sched (m + k)) := rfl
      rw [hnext, he, hsame]
      exact ih
    · exact pc_step_of_ne ih he

theorem slept_eq_zero (h : ∀ i < n, sched i ≠ .test t) :
    slept cfg hash limit s sched t n = 0 := by
  have hcount : (List.range n).countP
      (fun i => (iterationAt cfg hash limit s sched t i).any (·.2)) = 0 := by
    rw [List.countP_eq_zero]
    intro i hi
    simp [iterationAt_of_ne (h i (List.mem_range.mp hi))]
  rw [slept, hcount]

theorem slept_succ (it : WaitEnd)
    (h : iterationAt cfg hash limit s sched t n = some (it, true)) :
    slept cfg hash limit s sched t (n + 1) = slept cfg hash limit s sched t n + 100000 := by
  simp only [slept, List.range_succ, List.countP_append, List.countP_singleton, h, Option.any_some,
    if_true]
  omega

omit [DecidableEq T] in
/-- The place of the first test of a thread. -/
theorem exists_first_test (hfair : ∀ n, ∃ m, n ≤ m ∧ sched m = .test t) :
    ∃ m, sched m = .test t ∧ ∀ i < m, sched i ≠ .test t := by
  classical
  have hsome : ∃ m, sched m = .test t := by
    obtain ⟨m, -, hm⟩ := hfair 0
    exact ⟨m, hm⟩
  exact ⟨Nat.find hsome, Nat.find_spec hsome, fun i hi => Nat.find_min hsome hi⟩

variable (cfg hash limit) in
theorem pc_step_call (hidle : s.pc t = .idle) :
    (s.step cfg hash limit (.call t)).pc t = .testing false 0 := by
  simp [step, hidle]

/-- The first sleep brings the thread over the timeout. -/
theorem waitEnds_of_lt (hmax : 0 < cfg.maxDbHandles) (htimeout : 0 < cfg.dbHandleTimeout)
    (hidle : s.pc t = .idle) (hfair : ∀ n, ∃ m, n ≤ m ∧ sched m = .test t)
    (hfull : ∀ n, Exhausted cfg
      (states cfg hash limit (s.step cfg hash limit (.call t)) sched n).pool.toSqlPool)
    (h : cfg.dbHandleTimeout < 100000) : WaitEnds cfg hash limit s sched t := by
  -- the first iteration is also the last one
  obtain ⟨m, hm, hfirst⟩ := exists_first_test hfair
  have hpc := pc_states_of_untested cfg hash limit
    (pc_step_call cfg hash limit hidle) hfirst
  have hit : iterationAt cfg hash limit (s.step cfg hash limit (.call t)) sched t m =
      some (.returned .false none, true) := by
    rw [iterationAt_of_test hm hpc, waitIteration, if_pos (blocked_of_exhausted hmax (hfull m))]
    simp only [Bool.false_eq_true, if_false, Nat.zero_add]
    rw [if_pos ⟨htimeout.ne', h⟩]
  refine ⟨m, by rw [hit]; rfl, ?_, ?_, ?_⟩
  · rw [slept_eq_zero hfirst]
    exact Nat.zero_le _
  · rw [slept_succ _ hit, slept_eq_zero hfirst]
    omega
  · intro i hi it heq
    rcases Nat.lt_or_eq_of_le hi with hlt | rfl
    · rw [iterationAt_of_ne (hfirst i hlt)] at heq
      cases heq
    · rw [hit] at heq
      cases heq
      rfl

/-- A thread whose first sleep does not bring it over the timeout stays in the loop for good. -/
theorem not_waitEnds_of_le (hmax : 0 < cfg.maxDbHandles) (hidle : s.pc t = .idle)
    (hfair : ∀ n, ∃ m, n ≤ m ∧ sched m = .test t)
    (hfull : ∀ n, Exhausted cfg
      (states cfg hash limit (s.step cfg hash limit (.call t)) sched n).pool.toSqlPool)
    (h : 100000 ≤ cfg.dbHandleTimeout) : ¬ WaitEnds cfg hash limit s sched t := by
  rintro ⟨n, hreturned, -, -, -⟩
  have hblocked := fun n => blocked_of_exhausted hmax (hfull n)
  obtain ⟨m, hm, hfirst⟩ := exists_first_test hfair
  have hpc := pc_states_of_untested cfg hash limit
    (pc_step_call cfg hash limit hidle) hfirst
  have hfirstIt : waitIteration cfg (states cfg hash limit (s.step cfg hash limit (.call t))
      sched m).pool.toSqlPool false 0 = (.again true 100000, true) := by
    rw [waitIteration, if_pos (hblocked m)]
    simp only [Bool.false_eq_true, if_false, Nat.zero_add]
    rw [if_neg fun hlt => absurd hlt.2 (Nat.not_lt.mpr h)]
  -- after the first iteration
  have hpc' : (states cfg hash limit (s.step cfg hash limit (.call t)) sched (m + 1)).pc t =
      .testing true 100000 := by
    have hstep := step_test cfg hash limit hpc
    rw [hfirstIt] at hstep
    rw [states, hm, hstep]
    exact pc_goto_self _ _ _
  -- before its first iteration the thread is still in the loop, in it it sleeps and goes on, and
  -- later it tests the pool only
  rcases Nat.lt_trichotomy n m with hlt | rfl | hgt
  · rw [iterationAt_of_ne (hfirst n hlt)] at hreturned
    cases hreturned
  · rw [iterationAt_of_test hm hpc, hfirstIt] at hreturned
    cases hreturned
  · obtain ⟨k, rfl⟩ := Nat.exists_eq_add_of_le hgt
    by_cases hn : sched (m + 1 + k) = .test t
    · rw [iterationAt_of_test hn (pc_states_of_waiting hpc' hblocked k), waitIteration,
        if_pos (hblocked _)] at hreturned
      cases hreturned
    · rw [iterationAt_of_ne hn] at hreturned
      cases hreturned

/-- **The wait for a handle.** Let a thread call `_agc_sql_get_handle` and be scheduled again and
again, while the pool stays exhausted whatever the other threads do. Its wait ends by the timeout,
after sleeping in each iteration, exactly if the first sleep of 100000 microseconds exceeds
`db_handle_timeout`; otherwise the thread never leaves the loop. -/
theorem wait_ends_iff (hmax : 0 < cfg.maxDbHandles) (htimeout : 0 < cfg.dbHandleTimeout)
    (hidle : s.pc t = .idle) (hfair : ∀ n, ∃ m, n ≤ m ∧ sched m = .test t)
    (hfull : ∀ n, Exhausted cfg
      (states cfg hash limit (s.step cfg hash limit (.call t)) sched n).pool.toSqlPool) :
    WaitEnds cfg hash limit s sched t ↔ cfg.dbHandleTimeout < 100000 := by
  constructor
  · intro hends
    by_contra hle
    exact not_waitEnds_of_le hmax hidle hfair hfull (Nat.not_lt.mp hle) hends
  · exact waitEnds_of_lt hmax htimeout hidle hfair hfull

end Schedule

/-! ### A schedule with an exhausted pool

The thread `false` holds the only handle, and the thread `true` waits for it. -/

section Spin

/-- A bound of one handle. -/
def oneHandle (dbHandleTimeout : ℕ) : SqlConfig := ⟨1, by decide, dbHandleTimeout⟩

/-- The state in which the only handle is held. -/
def onlyHeld (dbHandleTimeout : ℕ) : SqlSystem Bool :=
  run (oneHandle dbHandleTimeout) Bool.toNat (2 ^ 32 - 1)
    [.call false, .test false, .search false, .connect false true true, .add false]

theorem pool_states_test (s : SqlSystem T) (t : T) (n : ℕ) :
    (states cfg hash limit s (fun _ => .test t) n).pool = s.pool := by
  have htest : ∀ s : SqlSystem T, (s.step cfg hash limit (.test t)).pool = s.pool := by
    intro s
    simp only [step]
    split
    · unfold wait
      split_ifs
      all_goals rfl
    · rfl
  induction n with
  | zero => rfl
  | succ n ih => exact (htest _).trans ih

theorem exhausted_onlyHeld (dbHandleTimeout n : ℕ) :
    Exhausted (oneHandle dbHandleTimeout)
      (states (oneHandle dbHandleTimeout) Bool.toNat (2 ^ 32 - 1)
        ((onlyHeld dbHandleTimeout).step (oneHandle dbHandleTimeout) Bool.toNat (2 ^ 32 - 1)
          (.call true)) (fun _ => .test true) n).pool.toSqlPool := by
  rw [pool_states_test]
  have htotal : ((onlyHeld dbHandleTimeout).step (oneHandle dbHandleTimeout) Bool.toNat
      (2 ^ 32 - 1) (.call true)).pool.totalHandles = 1 := rfl
  have hused : ((onlyHeld dbHandleTimeout).step (oneHandle dbHandleTimeout) Bool.toNat
      (2 ^ 32 - 1) (.call true)).pool.totalUsedHandles = 1 := rfl
  rw [Exhausted, htotal, hused]
  exact ⟨le_refl 1, by decide⟩

/-- With a timeout of 50 ms the wait ends. -/
theorem wait_ends_onlyHeld :
    WaitEnds (oneHandle 50000) Bool.toNat (2 ^ 32 - 1) (onlyHeld 50000) (fun _ => .test true)
      true :=
  (wait_ends_iff (by decide) (by decide) rfl (fun n => ⟨n, le_refl n, rfl⟩)
    (exhausted_onlyHeld 50000)).mpr (by decide)

/-- With the timeout of 5 s that `agc_core.c` sets, it does not. -/
theorem wait_never_ends :
    (∀ n, Exhausted (oneHandle 5000000) (states (oneHandle 5000000) Bool.toNat (2 ^ 32 - 1)
      ((onlyHeld 5000000).step (oneHandle 5000000) Bool.toNat (2 ^ 32 - 1) (.call true))
      (fun _ => .test true) n).pool.toSqlPool) ∧
    ¬ WaitEnds (oneHandle 5000000) Bool.toNat (2 ^ 32 - 1) (onlyHeld 5000000)
      (fun _ => .test true) true := by
  refine ⟨exhausted_onlyHeld 5000000, ?_⟩
  exact not_waitEnds_of_le (by decide) rfl (fun n => ⟨n, le_refl n, rfl⟩)
    (exhausted_onlyHeld 5000000) (by decide)

end Spin

/-! ## Free handles -/

end SqlSystem

namespace HeldPool

variable {T : Type} [DecidableEq T] {hash : T → ℕ} {limit : ℕ} {p : HeldPool T} {t : T} {h : ℕ}

omit [DecidableEq T] in
/-- A handle of the pool that nobody has checked out. -/
def Free (p : HeldPool T) (h : ℕ) : Prop := h ∈ p.handlePool ∧ ∀ t, (t, h) ∉ p.obtained

/-- A free handle is one whose mutex is free. -/
theorem Accounted.free_iff (hp : p.Accounted) (hh : h ∈ p.handlePool) :
    p.Free h ↔ (p.handles h).mutex.depth = 0 := by
  rw [hp.depth h hh, List.count_eq_zero, Free]
  constructor
  · rintro ⟨-, hfree⟩ hmem
    obtain ⟨⟨t, h'⟩, hpair, rfl⟩ := List.mem_map.mp hmem
    exact hfree t hpair
  · intro hfree
    exact ⟨hh, fun t hpair => hfree (List.mem_map.mpr ⟨_, hpair, rfl⟩)⟩

theorem Accounted.trylock_of_free (hp : p.Accounted) (hfree : p.Free h) (t : T) :
    (p.handles h).mutex.trylock limit t = some (.held t 0) :=
  NestedMutex.trylock_of_depth_eq_zero ((hp.free_iff hfree.1).mp hfree)

/-- A handle whose mutex a thread can take is free or its own. -/
theorem Accounted.free_or_own (hp : p.Accounted) (hh : h ∈ p.handlePool) {mutex : NestedMutex T}
    (htry : (p.handles h).mutex.trylock limit t = some mutex) :
    p.Free h ∨ (t, h) ∈ p.obtained := by
  cases hm : (p.handles h).mutex with
  | free =>
    refine Or.inl ((hp.free_iff hh).mpr ?_)
    rw [hm]
    rfl
  | held owner more =>
    rw [hm, NestedMutex.trylock] at htry
    split_ifs at htry with howner
    right
    have hheld := hp.heldBy h hh t
    rw [hm, NestedMutex.heldBy, if_pos howner.1] at hheld
    exact List.count_pos_iff.mp (by omega)

variable (hash limit) in
/-- Whenever the second search of `get_freehandle` would come to a handle that the thread holds and
could take once more, a free handle stands before it, or the first search finds a free one. -/
def FirstFree (p : HeldPool T) (t : T) : Prop :=
  (∃ h, p.Free h ∧ (p.handles h).threadHash = hash t) ∨
  ∀ pre h post, p.handlePool = pre ++ h :: post → (t, h) ∈ p.obtained →
    (p.handles h).mutex.trylock limit t ≠ none → ∃ h' ∈ pre, p.Free h'

/-- What the first search finds is free. -/
theorem Accounted.free_of_tryOwn (hp : p.Accounted) {found : ℕ × NestedMutex T}
    (hfound : p.handlePool.findSome? (p.tryOwn hash limit t) = some found) :
    p.Free found.1 ∧ (p.handles found.1).mutex.trylock limit t = some found.2 := by
  obtain ⟨h, hh, htry⟩ := List.exists_of_findSome?_eq_some hfound
  simp only [SqlPool.tryOwn] at htry
  split_ifs at htry with hown
  obtain ⟨mutex, hmutex, rfl⟩ := Option.map_eq_some_iff.mp htry
  refine ⟨(hp.free_iff hh).mpr ?_, hmutex⟩
  rw [← hp.useCount h hh, hown.2]
  rfl

/-- Under the condition a search that finds a handle finds a free one. -/
theorem Accounted.get_free (hp : p.Accounted) (hfirst : p.FirstFree hash limit t) :
    (∃ h mutex, p.Free h ∧ (p.handles h).mutex.trylock limit t = some mutex ∧
      p.get hash limit t = (⟨p.use hash t h mutex, (t, h) :: p.obtained⟩, some h)) ∨
    p.get hash limit t = (p, none) := by
  unfold get SqlPool.getFreehandle
  cases hown : p.handlePool.findSome? (p.tryOwn hash limit t) with
  | some found =>
    obtain ⟨hfree, htry⟩ := hp.free_of_tryOwn hown
    exact Or.inl ⟨found.1, found.2, hfree, htry, rfl⟩
  | none =>
    cases hany : p.handlePool.findSome? (p.tryAny limit t) with
    | none => exact Or.inr rfl
    | some found =>
      obtain ⟨pre, h, post, hsplit, htry, hbefore⟩ := List.findSome?_eq_some_iff.mp hany
      obtain ⟨mutex, hmutex, rfl⟩ := Option.map_eq_some_iff.mp htry
      have hh : h ∈ p.handlePool := by simp [hsplit]
      refine Or.inl ⟨h, mutex, ?_, hmutex, rfl⟩
      rcases hp.free_or_own hh hmutex with hfree | hheld
      · exact hfree
      · exfalso
        rcases hfirst with ⟨h', hfree', hhash⟩ | hpre
        · -- the first search would have found that handle
          have hnone := List.findSome?_eq_none_iff.mp hown h' hfree'.1
          have hzero : (p.handles h').useCount = 0 := by
            apply UInt32.toNat_inj.mp
            rw [hp.useCount h' hfree'.1, (hp.free_iff hfree'.1).mp hfree']
            rfl
          simp [SqlPool.tryOwn, hhash, hzero, hp.trylock_of_free hfree'] at hnone
        · -- the second search would have come to that handle before
          obtain ⟨h', hmem, hfree'⟩ := hpre pre h post hsplit hheld (by simp [hmutex])
          have hnone := hbefore h' hmem
          simp [SqlPool.tryAny, hp.trylock_of_free hfree'] at hnone

/-- No handle is checked out twice. -/
def Distinct (p : HeldPool T) : Prop := (p.obtained.map Prod.snd).Nodup

theorem Distinct.get (hp : p.Accounted) (hd : p.Distinct) (hfirst : p.FirstFree hash limit t) :
    (p.get hash limit t).1.Distinct := by
  rcases hp.get_free hfirst with ⟨h, mutex, hfree, htry, heq⟩ | heq
  · rw [heq]
    refine List.nodup_cons.mpr ⟨?_, hd⟩
    intro hmem
    obtain ⟨⟨u, h'⟩, hpair, rfl⟩ := List.mem_map.mp hmem
    exact hfree.2 u hpair
  · rw [heq]
    exact hd

theorem Distinct.add (hp : p.Accounted) (hd : p.Distinct) (t : T) : (p.add hash t).Distinct := by
  refine List.nodup_cons.mpr ⟨?_, hd⟩
  intro hmem
  obtain ⟨⟨u, h'⟩, hpair, heq⟩ := List.mem_map.mp hmem
  have hlt := hp.lt_next h' (hp.pooled _ hpair)
  exact absurd heq hlt.ne

theorem Distinct.release (hd : p.Distinct) : (p.release t h).Distinct :=
  hd.sublist (List.erase_sublist.map Prod.snd)

/-- With a free handle, fewer are checked out than there are. -/
theorem Distinct.used_lt_total (hp : p.Accounted) (hd : p.Distinct)
    (hlt : p.handlePool.length < 2 ^ 32) (hfree : p.Free h) :
    p.totalUsedHandles < p.totalHandles := by
  have hnotin : h ∉ p.obtained.map Prod.snd := by
    intro hmem
    obtain ⟨⟨u, h'⟩, hpair, rfl⟩ := List.mem_map.mp hmem
    exact hfree.2 u hpair
  have hsub : h :: p.obtained.map Prod.snd ⊆ p.handlePool := by
    intro h' hmem
    rcases List.mem_cons.mp hmem with rfl | hmem
    · exact hfree.1
    · obtain ⟨pair, hpair, rfl⟩ := List.mem_map.mp hmem
      exact hp.pooled pair hpair
  have hless : p.obtained.length < p.handlePool.length := by
    have hle := (List.subperm_of_subset (List.nodup_cons.mpr ⟨hnotin, hd⟩) hsub).length_le
    simp only [List.length_cons, List.length_map] at hle
    exact hle
  rw [hp.used, hp.total, UInt32.lt_iff_toNat_lt, UInt32.toNat_ofNat', UInt32.toNat_ofNat']
  omega

end HeldPool

namespace SqlSystem

variable {T : Type} [DecidableEq T] (cfg : SqlConfig) (hash : T → ℕ) (limit : ℕ)

/-- A thread that wants a handle is not made to wait and gets one of the pool: the test of the loop
lets it pass, and its search returns a handle. -/
structure Serves (s : SqlSystem T) (t : T) : Prop where
  passes : ∀ waiting totalYield, s.pc t = .testing waiting totalYield →
    s.step cfg hash limit (.test t) = s.goto t .searching
  finds : s.pc t = .searching → ∃ h ∈ s.pool.handlePool,
    (s.step cfg hash limit (.search t)).pc t = .idle ∧
    (s.step cfg hash limit (.search t)).pool.obtained = (t, h) :: s.pool.obtained

/-- There is no bound, or the number of handles stays below it. -/
def Below (n : ℕ) : Prop := cfg.maxDbHandles = 0 ∨ n < cfg.maxDbHandles

/-- In a pool at its bound a search does not give a thread a handle that it holds; and a handle with
which the pool reaches its bound is added while none is checked out twice, and while the number of
handles fits its 32-bit counter. -/
def Sole (pre : List (SqlStep T)) : SqlStep T → Prop
  | .search t => (run cfg hash limit pre).pc t = .searching →
    Below cfg (run cfg hash limit pre).pool.handlePool.length ∨
      (run cfg hash limit pre).pool.FirstFree hash limit t
  | .add t => (run cfg hash limit pre).pc t = .adding →
    Below cfg ((run cfg hash limit pre).pool.handlePool.length + 1) ∨
      ((run cfg hash limit pre).pool.Distinct ∧
        (run cfg hash limit pre).pool.handlePool.length + 1 < 2 ^ 32)
  | _ => True

/-- In a pool at its bound no handle is checked out twice, and the counters do not wrap. -/
structure Comparable (p : HeldPool T) : Prop extends p.Accounted where
  distinct : Below cfg p.handlePool.length ∨ (p.Distinct ∧ p.handlePool.length < 2 ^ 32)

theorem Comparable.init : Comparable cfg (.init : HeldPool T) :=
  ⟨HeldPool.Accounted.init, Or.inr ⟨List.nodup_nil, by simp [HeldPool.init, SqlPool.init]⟩⟩

variable {cfg hash limit} {evs : List (SqlStep T)} {p : HeldPool T}

theorem Comparable.get (hp : Comparable cfg p) (hlimit : limit < 2 ^ 32)
    (hfirst : Below cfg p.handlePool.length ∨ p.FirstFree hash limit t) :
    Comparable cfg (p.get hash limit t).1 := by
  -- a search leaves the list of the handles as it is
  have hacc : (p.get hash limit t).1.Accounted ∧
      (p.get hash limit t).1.handlePool = p.handlePool := by
    rcases HeldPool.get_cases hash limit p t with ⟨h, hh, mutex, htry, heq⟩ | ⟨-, heq⟩
    · rw [heq]
      exact ⟨hp.toAccounted.use hlimit hh htry, rfl⟩
    · rw [heq]
      exact ⟨hp.toAccounted, rfl⟩
  refine ⟨hacc.1, ?_⟩
  rw [hacc.2]
  rcases hp.distinct with hbelow | ⟨hd, hlt⟩
  · exact Or.inl hbelow
  · rcases hfirst with hbelow | hfirst
    · exact Or.inl hbelow
    · exact Or.inr ⟨hd.get hp.toAccounted hfirst, hlt⟩

theorem Comparable.add (hp : Comparable cfg p) (t : T)
    (hadd : Below cfg (p.handlePool.length + 1) ∨
      (p.Distinct ∧ p.handlePool.length + 1 < 2 ^ 32)) :
    Comparable cfg (p.add hash t) := by
  refine ⟨hp.toAccounted.add t, ?_⟩
  rcases hadd with hbelow | ⟨hd, hlt⟩
  · exact Or.inl hbelow
  · exact Or.inr ⟨hd.add hp.toAccounted t, hlt⟩

theorem Comparable.release (hp : Comparable cfg p) {h : ℕ} (hth : (t, h) ∈ p.obtained) :
    Comparable cfg (p.release t h) := by
  refine ⟨hp.toAccounted.release hth, ?_⟩
  rcases hp.distinct with hbelow | ⟨hd, hlt⟩
  · exact Or.inl hbelow
  · exact Or.inr ⟨hd.release, hlt⟩

/-- In a pool with a free handle the test of the loop fails. -/
theorem Comparable.not_blocked (hp : Comparable cfg p) {h : ℕ} (hfree : p.Free h) :
    blocked cfg p.toSqlPool = false := by
  rcases hp.distinct with hbelow | ⟨hd, hlt⟩
  · rcases hbelow with hnone | hbelow
    · simp [blocked, hnone]
    · have hmax := cfg.max_lt
      have hnot : ¬ cfg.maxDbHandles ≤ p.totalHandles.toNat := by
        rw [hp.total, UInt32.toNat_ofNat']
        omega
      simp [blocked, hnot]
  · have hnot : ¬ p.totalHandles ≤ p.totalUsedHandles :=
      UInt32.not_le.mpr (hd.used_lt_total hp.toAccounted hlt hfree)
    simp [blocked, hnot]

/-- A step that meets the condition keeps the two counters comparable at the bound. -/
theorem comparable_snoc (hlimit : limit < 2 ^ 32) {e : SqlStep T}
    (h : Comparable cfg (run cfg hash limit evs).pool) (he : Sole cfg hash limit evs e) :
    Comparable cfg (run cfg hash limit (evs ++ [e])).pool := by
  rw [run, List.foldl_concat]
  change Comparable cfg ((run cfg hash limit evs).step cfg hash limit e).pool
  obtain ⟨s, hs⟩ : ∃ s, s = run cfg hash limit evs := ⟨_, rfl⟩
  rw [← hs] at h ⊢
  cases e with
  | call t =>
    simp only [step]
    split_ifs
    · exact h
    · exact h
  | test t =>
    simp only [step]
    split
    · unfold wait
      split_ifs
      all_goals exact h
    · exact h
  | search t =>
    simp only [step]
    split_ifs with hpc
    · -- the condition on the step: a thread that searches finds a free handle first, or none
      have hget := h.get hlimit (hs ▸ he (hs ▸ hpc))
      unfold search
      split
      · rename_i p h' heq
        rw [heq] at hget
        exact hget
      · rename_i p heq
        rw [heq] at hget
        exact hget
    · exact h
  | connect t connected created =>
    simp only [step]
    split_ifs
    all_goals exact h
  | add t =>
    simp only [step]
    split_ifs with hpc
    · exact h.add t (hs ▸ he (hs ▸ hpc))
    · exact h
  | release t h' =>
    simp only [step]
    split_ifs with hheld
    · exact h.release hheld.2
    · exact h

theorem comparable_run (hlimit : limit < 2 ^ 32) (h : Throughout (Sole cfg hash limit) evs) :
    Comparable cfg (run cfg hash limit evs).pool := by
  induction evs using List.reverseRecOn with
  | nil => exact Comparable.init cfg
  | append_singleton evs e ih =>
    rw [throughout_snoc] at h
    exact comparable_snoc hlimit (ih h.1) h.2

/-- In such a pool with a free handle nobody waits. -/
theorem serves_of_free {s : SqlSystem T} (hs : Comparable cfg s.pool) {h : ℕ}
    (hfree : s.pool.Free h) (t : T) : s.Serves cfg hash limit t := by
  constructor
  · intro waiting totalYield hpc
    simp only [step, hpc, wait, hs.not_blocked hfree, Bool.false_eq_true, if_false]
  · intro hpc
    rcases HeldPool.get_cases hash limit s.pool t with ⟨h', hh', mutex, -, heq⟩ | ⟨hnone, -⟩
    · refine ⟨h', hh', ?_, ?_⟩
      · simp [step, hpc, search, heq]
      · simp only [step, hpc, if_true, search, heq]
        rfl
    · have htry := hnone h hfree.1
      rw [hs.toAccounted.trylock_of_free hfree t] at htry
      cases htry

/-- **No false exhaustion.** Along a run in which no thread has one handle twice when the pool is at
its bound (no search gives a thread a handle that it already holds there, and none is checked out
twice when the pool gets there), whatever the interleaving of gets and releases, a thread that wants
a handle while one is free is not made to wait, and gets a handle of the pool. -/
theorem serves_of_sole (hlimit : limit < 2 ^ 32) (h : Throughout (Sole cfg hash limit) evs) :
    ∀ pre, pre <+: evs → ∀ h, (run cfg hash limit pre).pool.Free h →
      ∀ t, (run cfg hash limit pre).Serves cfg hash limit t := by
  rintro pre ⟨post, rfl⟩ h' hfree t
  exact serves_of_free (comparable_run hlimit h.of_append) hfree t

/-- A handle that was opened, given back, and is there for the next thread. -/
theorem serves_after_release :
    let evs : List (SqlStep Bool) := [.call false, .test false, .search false,
      .connect false true true, .add false, .release false 0, .call true]
    (run (oneHandle 5000000) Bool.toNat (2 ^ 32 - 1) evs).Serves (oneHandle 5000000) Bool.toNat
      (2 ^ 32 - 1) true := by
  intro evs
  refine serves_of_sole (by decide) ?_ evs (List.prefix_refl _) 0 ⟨by decide, ?_⟩ true
  · simp only [evs, throughout_cons, throughout_nil, Sole, true_and, and_true]
    -- the pool is empty at the search, and the only handle is not checked out when it is added
    exact ⟨fun _ => Or.inl (Or.inr (by decide)),
      fun _ => Or.inr ⟨List.nodup_nil, by decide⟩⟩
  · decide

/-- The thread `false` holds the first of two handles twice, and the second one is free. -/
theorem free_handle_not_served :
    ¬ ∀ evs h, (run ⟨2, by decide, 5000000⟩ Bool.toNat (2 ^ 32 - 1) evs).pool.Free h →
      ∀ t, (run ⟨2, by decide, 5000000⟩ Bool.toNat (2 ^ 32 - 1) evs).Serves ⟨2, by decide, 5000000⟩
        Bool.toNat (2 ^ 32 - 1) t := by
  intro hall
  have hserves := hall [.call false, .test false, .search false, .connect false true true,
    .add false, .call false, .test false, .search false, .call true, .test true, .search true,
    .connect true true true, .add true, .release true 1, .call true] 1 ⟨by decide, by decide⟩ true
  have hpc := congrArg (fun s => s.pc true) (hserves.passes false 0 (by decide))
  exact absurd hpc (by decide)

end SqlSystem
