import AgcFramework.Lib.Trace
import AgcFramework.Redis.Run

/-!
# The back-off of a Redis connection

When a connection loses its context, or cannot get one, `next_connect_time` sets the time from
which it may be tried again. `check_connection` tests that time for a connection that is not
connected, the wrong way round: a try is made while the time is still ahead.

## Main definitions

* `TestsBackOff`: the step in which an operation asks for the time of the test
* `RetriesOnTime`: the connection is tried again exactly when its time has come

## Main results

* `backOff_test`: what the test decides
* `retriesOnTime_iff`: a run retries on time exactly when it never gets to the test
-/

open Trace

namespace Redis

variable {n : ℕ} {load : List Outcome} {ls : List Label} {g : Config} {lab : Label}

/-- The next call asks for the time. -/
def asksTime : Option (Op × Client Result) → Bool
  | some (_, .call .curtime _) => true
  | _ => false

/-- The step in which an operation tests the back-off of the connection it has popped. -/
def TestsBackOff (g : Config) : Label → Prop
  | .start _ _ => False
  | .step t _ => asksTime (g.thread t) = true

/-- At a test of the back-off the thread holds a connection that is not connected. If the time in
milliseconds has reached `connect_time` it calls `create_context`, and the operation gets the
connection if that succeeds; otherwise the connection is put back. -/
def RetriesOnTime (g : Config) : Label → Prop
  | .start _ _ => True
  | .step t o => ∀ op next, g.thread t = some (op, .call .curtime next) →
      ∃ c rest, g.state.held t = [c] ∧ (g.state.conn c).connected = false ∧
        op.body = getConnection >>= rest ∧
        next (g.state.curtime o) =
          if (g.state.conn c).connectTime ≤ g.state.curtime o / 1000 then retry c rest
          else handBack c rest

theorem exists_of_asksTime {p : Option (Op × Client Result)} (h : asksTime p = true) :
    ∃ op next, p = some (op, .call .curtime next) := by
  rcases p with _ | ⟨op, _ | ⟨c, next⟩⟩
  · simp [asksTime] at h
  · simp [asksTime] at h
  · cases c <;> first | exact ⟨op, next, rfl⟩ | simp [asksTime] at h

/-- What the test of the back-off decides in a run. -/
theorem backOff_test (h : run n load ls = some g) {t : ℕ} {op : Op}
    {next : ℕ → Client Result} (ht : g.thread t = some (op, .call .curtime next)) :
    ∃ c rest, g.state.held t = [c] ∧ op.body = getConnection >>= rest ∧ ∀ now,
      next now = if (g.state.conn c).connectTime > now / 1000 then retry c rest
        else handBack c rest := by
  -- the discipline of the operations says what stands after the call
  obtain ⟨l, ⟨⟨owner, hown⟩, -⟩, -, hsafe⟩ := run_sound h
  obtain ⟨⟨c, v, rest, hl, -, hop, hnext⟩, -⟩ := hsafe t op _ ht
  obtain ⟨hv, -⟩ := hown.holding t c v _ hl.1
  refine ⟨c, rest, ?_, hop, fun now => ?_⟩
  · rw [hown.held_eq t, hl.1]
    rfl
  · rw [hnext now, hv]

/-- A new try begins with a look at the old context. -/
theorem retry_ne_handBack (c : Conn) (rest rest' : Option Conn → Client Result) :
    retry c rest ≠ handBack c rest' := by
  intro h
  simp [retry, handBack, createContext, dropContext] at h

/-- One step retries on time exactly when it is no test. -/
theorem retriesOnTime_step_iff (h : run n load ls = some g) :
    RetriesOnTime g lab ↔ ¬ TestsBackOff g lab := by
  cases lab with
  | start t op => simp [RetriesOnTime, TestsBackOff]
  | step t o =>
    constructor
    · intro hon htest
      obtain ⟨op, next, ht⟩ := exists_of_asksTime htest
      obtain ⟨c, rest, hheld, -, -, hnext⟩ := hon op next ht
      obtain ⟨c', rest', hheld', -, hnext'⟩ := backOff_test h ht
      obtain rfl : c = c' := List.singleton_inj.mp (hheld.symm.trans hheld')
      rw [hnext'] at hnext
      -- the two comparisons are opposite
      by_cases hdue : (g.state.conn c).connectTime ≤ g.state.curtime o / 1000
      · rw [if_pos hdue, if_neg (Nat.not_lt.mpr hdue)] at hnext
        exact retry_ne_handBack c rest rest' hnext.symm
      · rw [if_neg hdue, if_pos (Nat.lt_of_not_le hdue)] at hnext
        exact retry_ne_handBack c rest' rest hnext
    · intro htest op next ht
      refine absurd ?_ htest
      show asksTime (g.thread t) = true
      rw [ht]
      rfl

/-- A run retries on time in each of its steps exactly when no operation gets to the test of the
back-off, which it does with every connection it has popped that is not connected. -/
theorem retriesOnTime_iff (entries : List ℕ) (load : List Outcome) (ls : List Label) :
    Throughout (fun before lab => ∀ g, run (connectionPoolSize entries) load before = some g →
        RetriesOnTime g lab) ls ↔
      Throughout (fun before lab => ∀ g, run (connectionPoolSize entries) load before = some g →
        ¬ TestsBackOff g lab) ls := by
  constructor
  · intro hon before lab after hls g hg
    exact (retriesOnTime_step_iff hg).mp (hon before lab after hls g hg)
  · intro hno before lab after hls g hg
    exact (retriesOnTime_step_iff hg).mpr (hno before lab after hls g hg)

/-- The first connection cannot connect when the module is loaded. An operation pops it twenty
seconds later, ten seconds after its time, and puts it back unused. -/
theorem backOff_over_not_retried : ∃ g,
    run (connectionPoolSize [2])
      (List.replicate 13 { err := true } ++ List.replicate 10 { made := true })
      [.start 1 (.delete (CStr.ofString "a")), .step 1 { made := true }, .step 1 { made := true },
        .step 1 { made := true }] = some g ∧
    (g.state.conn 0).connectTime ≤ g.state.curtime { elapsed := 20000000 } / 1000 ∧
      ¬ RetriesOnTime g (.step 1 { elapsed := 20000000 }) := by
  have hrun : (run (connectionPoolSize [2])
      (List.replicate 13 { err := true } ++ List.replicate 10 { made := true })
      [.start 1 (.delete (CStr.ofString "a")), .step 1 { made := true }, .step 1 { made := true },
        .step 1 { made := true }]).map
      (fun g => (asksTime (g.thread 1), (g.state.conn 0).connectTime,
        g.state.curtime { elapsed := 20000000 })) = some (true, 10000, 20000000) := by
    decide +kernel
  obtain ⟨g, hg, hvalues⟩ := Option.map_eq_some_iff.mp hrun
  simp only [Prod.mk.injEq] at hvalues
  obtain ⟨htest, htime, hnow⟩ := hvalues
  refine ⟨g, hg, ?_, fun hon => (retriesOnTime_step_iff hg).mp hon htest⟩
  rw [htime, hnow]
  decide

end Redis
