import AgcFramework.Types
import Mathlib.Data.List.Basic
import Mathlib.Data.List.Flatten
import Mathlib.Tactic.Common

/-!
# A text in a transaction

`agc_db_persistant_execute_trans` opens a transaction, executes a text of several statements in it,
again and again until an execution succeeds, and ends with a `COMMIT` whose result it does not look
at. A statement that an execution completed before it failed stays in the transaction, so it is
there once more after the next execution, and it is committed even when all executions failed.

`sqlite3_exec` is outside of the repository. The outcome of each of its calls is a parameter, and
what it does to the connection is what its documentation says: the statements of a text run in
order until one fails, and a `COMMIT` makes the open transaction durable or leaves it open.

## Main definitions

* `Db α`: a connection, with the statements of the open transaction and the durable ones
* `agcDbExec`, `agcDbPersistantExecuteTrans`: the functions of `agc_db.c`
* `Db.AllOrNothing`: a call commits every statement once, or nothing
* `Db.Undisturbed`: the outcomes under which it does so

## Main results

* `Db.exec_text`, `Db.textLoop_spec`: what the executions of the text leave in the transaction
* `Db.execute_trans_iff`: the outcomes for which a call is all-or-nothing
-/

/-- `MAX_DB_RETRIES`. -/
def MAX_DB_RETRIES : ℕ := 5

/-- How a call of `sqlite3_exec` ends: it succeeds, or it fails with a busy database, a locked table
or another error, behind `ran` statements that it completed. -/
inductive SqlOutcome
  | ok
  | busy (ran : ℕ)
  | locked (ran : ℕ)
  | error (ran : ℕ)
  deriving DecidableEq

/-- What a call of `sqlite3_exec` returns; the message of an error is that of a nested transaction
or another one. -/
inductive SqlResult
  | ok
  | busy
  | locked
  | error (nested : Bool)
  deriving DecidableEq

/-- The texts that are executed. -/
inductive Sql (α : Type)
  | begin
  | commit
  | text (stmts : List α)

/-- A connection. -/
structure Db (α : Type) where
  /-- The statements that ran in the open transaction, if there is one. -/
  trans : Option (List α)
  /-- The statements whose effects are durable, in order. -/
  durable : List α
  /-- How many calls of `sqlite3_exec` were made. -/
  calls : ℕ

variable {α : Type}

/-- The result of an outcome. -/
def SqlOutcome.result : SqlOutcome → SqlResult
  | .ok => .ok
  | .busy _ => .busy
  | .locked _ => .locked
  | .error _ => .error false

/-- The statements of a text that a call completes: a call that fails does not complete the last
one. -/
def SqlOutcome.completed (stmts : List α) : SqlOutcome → List α
  | .ok => stmts
  | .busy ran | .locked ran | .error ran => stmts.dropLast.take ran

/-- The effects of statements, in the open transaction or at once. -/
def Db.run (db : Db α) (stmts : List α) : Db α :=
  match db.trans with
  | some l => { db with trans := some (l ++ stmts) }
  | none => { db with durable := db.durable ++ stmts }

section Exec

variable (outcomes : ℕ → SqlOutcome)

/-- `sqlite3_exec`, whose next call has the outcome that comes next. -/
def sqlite3Exec (db : Db α) (sql : Sql α) : Db α × SqlResult :=
  let outcome := outcomes db.calls
  let db := { db with calls := db.calls + 1 }
  match sql with
  | .begin =>
    match db.trans with
    -- a nested transaction is refused, whatever the outcome
    | some _ => (db, .error true)
    | none => (if outcome = .ok then { db with trans := some [] } else db, outcome.result)
  | .commit =>
    match db.trans with
    | some l =>
      (if outcome = .ok then { db with trans := none, durable := db.durable ++ l } else db,
        outcome.result)
    | none => (db, .error false)
  | .text stmts => (db.run (outcome.completed stmts), outcome.result)

/-- The loop of `agc_db_exec`; `ret` is the result of the call before. -/
def execLoop (sql : Sql α) : ℕ → Db α → SqlResult → Db α × SqlResult
  | 0, db, ret => (db, ret)
  | retries + 1, db, _ =>
    let (db, ret) := sqlite3Exec outcomes db sql
    match ret with
    | .busy | .locked => execLoop sql retries db ret
    | .ok | .error _ => (db, ret)

/-- `agc_db_exec`: the counter starts at ten and is decremented before each of the attempts. There
is an error message unless the result is `ok`. -/
def agcDbExec (db : Db α) (sql : Sql α) : Db α × SqlResult := execLoop outcomes sql 9 db .ok

/-- The loop over `BEGIN`: true when a transaction was opened before the retries ran out. -/
def beginLoop : ℕ → Db α → Db α × Bool
  | 0, db => (db, false)
  | retries + 1, db =>
    match agcDbExec outcomes db .begin with
    | (db, .ok) => (db, true)
    | (db, .error true) =>
      -- someone else's transaction is committed
      beginLoop retries (agcDbExec outcomes db .commit).1
    | (db, _) => beginLoop retries db

/-- The loop over the text. -/
def textLoop (stmts : List α) : ℕ → Db α → Db α × AgcStatus
  | 0, db => (db, .false)
  | retries + 1, db =>
    match agcDbExec outcomes db (.text stmts) with
    | (db, .ok) => (db, .success)
    | (db, _) => textLoop stmts retries db

/-- The retries that the caller asks for, as far as they are allowed. -/
def allowedRetries (retries : UInt32) : ℕ :=
  if retries = 0 ∨ MAX_DB_RETRIES < retries.toNat then MAX_DB_RETRIES else retries.toNat

/-- `agc_db_persistant_execute_trans`. -/
def agcDbPersistantExecuteTrans (db : Db α) (stmts : List α) (retries : UInt32) :
    Db α × AgcStatus :=
  match beginLoop outcomes MAX_DB_RETRIES db with
  -- the final `COMMIT` is issued on every path, and its result is not looked at
  | (db, false) => ((agcDbExec outcomes db .commit).1, .false)
  | (db, true) =>
    let (db, status) := textLoop outcomes stmts (allowedRetries retries) db
    ((agcDbExec outcomes db .commit).1, status)

end Exec

/-! ## The outcomes of a loop -/

namespace Db

variable {outcomes : ℕ → SqlOutcome} {db : Db α} {stmts l : List α} {k n : ℕ}

/-- The outcome makes `agc_db_exec` try again. -/
def Retried : SqlOutcome → Prop
  | .busy _ | .locked _ => True
  | .ok | .error _ => False

instance (o : SqlOutcome) : Decidable (Retried o) :=
  match o with
  | .busy _ => inferInstanceAs (Decidable True)
  | .locked _ => inferInstanceAs (Decidable True)
  | .ok => inferInstanceAs (Decidable False)
  | .error _ => inferInstanceAs (Decidable False)

/-- The last call of an `agc_db_exec` that starts at the call `k`, with `n` attempts left behind the
first. -/
def lastCall (outcomes : ℕ → SqlOutcome) : ℕ → ℕ → ℕ
  | 0, k => k
  | n + 1, k => if Retried (outcomes k) then lastCall outcomes n (k + 1) else k

/-- The call at which a loop over `agc_db_exec` that starts at the call `k` succeeds. -/
def firstOk (outcomes : ℕ → SqlOutcome) : ℕ → ℕ → Option ℕ
  | 0, _ => none
  | n + 1, k =>
    if outcomes (lastCall outcomes 8 k) = .ok then some (lastCall outcomes 8 k)
    else firstOk outcomes n (lastCall outcomes 8 k + 1)

/-- The call behind the last one of such a loop. -/
def loopEnd (outcomes : ℕ → SqlOutcome) : ℕ → ℕ → ℕ
  | 0, k => k
  | n + 1, k =>
    if outcomes (lastCall outcomes 8 k) = .ok then lastCall outcomes 8 k + 1
    else loopEnd outcomes n (lastCall outcomes 8 k + 1)

/-- What the calls from `k` up to `k'` complete of the text. -/
def completedBy (outcomes : ℕ → SqlOutcome) (stmts : List α) (k k' : ℕ) : List α :=
  (List.range' k (k' - k)).flatMap fun i => (outcomes i).completed stmts

theorem le_lastCall (outcomes : ℕ → SqlOutcome) (n k : ℕ) : k ≤ lastCall outcomes n k := by
  induction n generalizing k with
  | zero => exact Nat.le_refl k
  | succ n ih =>
    rw [lastCall]
    split
    · exact Nat.le_of_succ_le (ih (k + 1))
    · exact Nat.le_refl k

theorem le_loopEnd (outcomes : ℕ → SqlOutcome) (n k : ℕ) : k ≤ loopEnd outcomes n k := by
  induction n generalizing k with
  | zero => exact Nat.le_refl k
  | succ n ih =>
    have hlast := le_lastCall outcomes 8 k
    rw [loopEnd]
    split
    · omega
    · have := ih (lastCall outcomes 8 k + 1)
      omega

/-- The calls before the last one of an `agc_db_exec` are tried again. -/
theorem retried_of_lt_lastCall {i : ℕ} (hk : k ≤ i) (hi : i < lastCall outcomes n k) :
    Retried (outcomes i) := by
  induction n generalizing k with
  | zero => exact absurd hi (Nat.not_lt.mpr hk)
  | succ n ih =>
    rw [lastCall] at hi
    split at hi
    · rename_i hret
      rcases Nat.eq_or_lt_of_le hk with rfl | hlt
      · exact hret
      · exact ih hlt hi
    · exact absurd hi (Nat.not_lt.mpr hk)

theorem ne_ok_of_retried {o : SqlOutcome} (h : Retried o) : o ≠ .ok := by
  rintro rfl
  exact h

theorem ne_ok_of_lt_lastCall {i : ℕ} (hk : k ≤ i) (hi : i < lastCall outcomes n k) :
    outcomes i ≠ .ok := ne_ok_of_retried (retried_of_lt_lastCall hk hi)

/-- A loop that succeeds ends with the call that succeeds, and none before it does. -/
theorem firstOk_some {t : ℕ} (h : firstOk outcomes n k = some t) :
    outcomes t = .ok ∧ loopEnd outcomes n k = t + 1 ∧ k ≤ t ∧
      ∀ i, k ≤ i → i < t → outcomes i ≠ .ok := by
  induction n generalizing k with
  | zero => cases h
  | succ n ih =>
    have hlast := le_lastCall outcomes 8 k
    rw [firstOk] at h
    rw [loopEnd]
    split at h
    · rename_i hok
      cases h
      rw [if_pos hok]
      exact ⟨hok, rfl, hlast, fun i hk hi => ne_ok_of_lt_lastCall hk hi⟩
    · rename_i hok
      rw [if_neg hok]
      obtain ⟨ht, hend, hle, hbefore⟩ := ih h
      refine ⟨ht, hend, by omega, fun i hk hi => ?_⟩
      -- a call before the last one of an attempt is tried again, the last one has failed
      rcases Nat.lt_trichotomy i (lastCall outcomes 8 k) with hlt | rfl | hgt
      · exact ne_ok_of_lt_lastCall hk hlt
      · exact hok
      · exact hbefore i hgt hi

/-- In a loop that does not succeed no call does. -/
theorem firstOk_none (h : firstOk outcomes n k = none) :
    ∀ i, k ≤ i → i < loopEnd outcomes n k → outcomes i ≠ .ok := by
  induction n generalizing k with
  | zero => exact fun i hk hi => absurd hi (Nat.not_lt.mpr hk)
  | succ n ih =>
    rw [firstOk] at h
    rw [loopEnd]
    split at h
    · cases h
    · rename_i hok
      rw [if_neg hok]
      intro i hk hi
      rcases Nat.lt_trichotomy i (lastCall outcomes 8 k) with hlt | rfl | hgt
      · exact ne_ok_of_lt_lastCall hk hlt
      · exact hok
      · exact ih h i hgt hi

theorem completedBy_self (k : ℕ) : completedBy outcomes stmts k k = [] := by
  simp [completedBy]

theorem completedBy_append {m k' : ℕ} (hm : k ≤ m) (hk' : m ≤ k') :
    completedBy outcomes stmts k k' =
      completedBy outcomes stmts k m ++ completedBy outcomes stmts m k' := by
  have hrange : List.range' k (k' - k) = List.range' k (m - k) ++ List.range' m (k' - m) := by
    have hk : k + (m - k) = m := by omega
    have hlen : (m - k) + (k' - m) = k' - k := by omega
    rw [← hlen, ← List.range'_append_1, hk]
  rw [completedBy, hrange, List.flatMap_append]
  rfl

theorem completedBy_succ {i : ℕ} (h : k ≤ i) :
    completedBy outcomes stmts k (i + 1) =
      completedBy outcomes stmts k i ++ (outcomes i).completed stmts := by
  have hone : completedBy outcomes stmts i (i + 1) = (outcomes i).completed stmts := by
    simp [completedBy]
  rw [completedBy_append h (Nat.le_succ i), hone]

theorem completedBy_eq_nil {k' : ℕ} :
    completedBy outcomes stmts k k' = [] ↔
      ∀ i, k ≤ i → i < k' → (outcomes i).completed stmts = [] := by
  simp only [completedBy, List.flatMap_eq_nil_iff, List.mem_range'_1]
  constructor
  · exact fun h i hk hi => h i ⟨hk, by omega⟩
  · exact fun h i hi => h i hi.1 (by omega)

/-! ## The calls -/

/-- An `agc_db_exec` whose calls lead through the states `st`, as long as they are tried again, and
from them to the states `next`. -/
theorem execLoop_eq (outcomes : ℕ → SqlOutcome) (sql : Sql α) (st next : ℕ → Db α) (n : ℕ)
    (hcall : ∀ i, k ≤ i → sqlite3Exec outcomes (st i) sql = (next i, (outcomes i).result))
    (hnext : ∀ i, k ≤ i → Retried (outcomes i) → next i = st (i + 1)) (ret : SqlResult) :
    execLoop outcomes sql (n + 1) (st k) ret =
      (next (lastCall outcomes n k), (outcomes (lastCall outcomes n k)).result) := by
  induction n generalizing k ret with
  | zero =>
    rw [execLoop, hcall k (Nat.le_refl k)]
    cases hres : (outcomes k).result with
    | ok => simp [lastCall, hres]
    | busy => simp [lastCall, hres, execLoop]
    | locked => simp [lastCall, hres, execLoop]
    | error nested => simp [lastCall, hres]
  | succ n ih =>
    -- the call `k` is tried again, or it is the last one
    have hrest := ih (fun i hi => hcall i (Nat.le_of_succ_le hi))
      (fun i hi => hnext i (Nat.le_of_succ_le hi)) (outcomes k).result
    rw [execLoop, hcall k (Nat.le_refl k), lastCall]
    cases ho : outcomes k with
    | ok => simp [Retried, SqlOutcome.result, ho]
    | busy ran =>
      have hret : Retried (outcomes k) := ho ▸ trivial
      rw [ho, ← hnext k (Nat.le_refl k) hret] at hrest
      simpa [Retried, SqlOutcome.result] using hrest
    | locked ran =>
      have hret : Retried (outcomes k) := ho ▸ trivial
      rw [ho, ← hnext k (Nat.le_refl k) hret] at hrest
      simpa [Retried, SqlOutcome.result] using hrest
    | error ran => simp [Retried, SqlOutcome.result, ho]

/-- `BEGIN`, while no transaction is open. -/
theorem exec_begin (h : db.trans = none) :
    agcDbExec outcomes db .begin =
      ({ db with
        trans := if outcomes (lastCall outcomes 8 db.calls) = .ok then some [] else none
        calls := lastCall outcomes 8 db.calls + 1 },
      (outcomes (lastCall outcomes 8 db.calls)).result) := by
  refine execLoop_eq (k := db.calls) outcomes .begin (fun i => { db with calls := i })
    (fun i => { db with
      trans := if outcomes i = .ok then some [] else none, calls := i + 1 }) 8 ?_ ?_ .ok
  · intro i _
    simp only [sqlite3Exec, h]
    split
    · rfl
    · rfl
  · intro i _ hret
    simp only [if_neg (ne_ok_of_retried hret), h]

/-- `COMMIT` of an open transaction. -/
theorem exec_commit (h : db.trans = some l) :
    (agcDbExec outcomes db .commit).1 =
      if outcomes (lastCall outcomes 8 db.calls) = .ok then
        ⟨none, db.durable ++ l, lastCall outcomes 8 db.calls + 1⟩
      else ⟨some l, db.durable, lastCall outcomes 8 db.calls + 1⟩ := by
  have hexec := execLoop_eq (k := db.calls) outcomes .commit (fun i => { db with calls := i })
    (fun i => if outcomes i = .ok then ⟨none, db.durable ++ l, i + 1⟩
      else ⟨some l, db.durable, i + 1⟩) 8 ?_ ?_ .ok
  · exact congrArg Prod.fst hexec
  · intro i _
    simp only [sqlite3Exec, h]
  · intro i _ hret
    simp only [if_neg (ne_ok_of_retried hret), h]

/-- `COMMIT` while no transaction is open. -/
theorem exec_commit_closed (h : db.trans = none) :
    (agcDbExec outcomes db .commit).1 = { db with calls := db.calls + 1 } := by
  simp only [agcDbExec, execLoop, sqlite3Exec, h]

/-- The text in an open transaction. -/
theorem exec_text (h : db.trans = some l) (stmts : List α) :
    agcDbExec outcomes db (.text stmts) =
      ({ db with
        trans := some (l ++
          completedBy outcomes stmts db.calls (lastCall outcomes 8 db.calls + 1))
        calls := lastCall outcomes 8 db.calls + 1 },
      (outcomes (lastCall outcomes 8 db.calls)).result) := by
  have hstart : ({ db with
      trans := some (l ++ completedBy outcomes stmts db.calls db.calls) } : Db α) = db := by
    rw [completedBy_self, List.append_nil, ← h]
  have hexec := execLoop_eq (k := db.calls) outcomes (.text stmts)
    (fun i => { db with
      trans := some (l ++ completedBy outcomes stmts db.calls i), calls := i })
    (fun i => { db with
      trans := some (l ++ completedBy outcomes stmts db.calls (i + 1)), calls := i + 1 })
    8 ?_ (fun _ _ _ => rfl) .ok
  · rw [hstart] at hexec
    exact hexec
  · intro i hi
    simp only [sqlite3Exec, Db.run, completedBy_succ hi, List.append_assoc]

/-! ## The loops -/

theorem result_ne_ok {o : SqlOutcome} (h : o ≠ .ok) :
    o.result ≠ .ok ∧ o.result ≠ .error true := by
  cases o with
  | ok => exact absurd rfl h
  | busy ran => exact ⟨by simp [SqlOutcome.result], by simp [SqlOutcome.result]⟩
  | locked ran => exact ⟨by simp [SqlOutcome.result], by simp [SqlOutcome.result]⟩
  | error ran => exact ⟨by simp [SqlOutcome.result], by simp [SqlOutcome.result]⟩

/-- The loop over `BEGIN` opens a transaction when a call succeeds. -/
theorem beginLoop_spec (h : db.trans = none) (n : ℕ) :
    beginLoop outcomes n db =
      ({ db with
        trans := if (firstOk outcomes n db.calls).isSome then some [] else none
        calls := loopEnd outcomes n db.calls },
      (firstOk outcomes n db.calls).isSome) := by
  induction n generalizing db with
  | zero => simp [beginLoop, firstOk, loopEnd, ← h]
  | succ n ih =>
    rw [beginLoop, exec_begin h, firstOk, loopEnd]
    by_cases hok : outcomes (lastCall outcomes 8 db.calls) = .ok
    · simp [hok, SqlOutcome.result]
    · obtain ⟨hres, hnested⟩ := result_ne_ok hok
      rw [if_neg hok, if_neg hok, if_neg hok]
      have hrest := ih (rfl : ({ db with
        trans := none, calls := lastCall outcomes 8 db.calls + 1 } : Db α).trans = none)
      -- the transaction is not open, so the message is not that of a nested one
      split
      · rename_i heq
        exact absurd (congrArg Prod.snd heq) hres
      · rename_i heq
        exact absurd (congrArg Prod.snd heq) hnested
      · rename_i heq
        rw [← (Prod.mk.inj heq).1]
        exact hrest

/-- The loop over the text leaves in the transaction what its calls complete. -/
theorem textLoop_spec (h : db.trans = some l) (stmts : List α) (n : ℕ) :
    textLoop outcomes stmts n db =
      ({ db with
        trans := some (l ++ completedBy outcomes stmts db.calls (loopEnd outcomes n db.calls))
        calls := loopEnd outcomes n db.calls },
      if (firstOk outcomes n db.calls).isSome then .success else .false) := by
  induction n generalizing db l with
  | zero => simp [textLoop, firstOk, loopEnd, completedBy_self, ← h]
  | succ n ih =>
    rw [textLoop, exec_text h, firstOk, loopEnd]
    by_cases hok : outcomes (lastCall outcomes 8 db.calls) = .ok
    · simp [hok, SqlOutcome.result]
    · obtain ⟨hres, -⟩ := result_ne_ok hok
      rw [if_neg hok, if_neg hok]
      have hlast := le_lastCall outcomes 8 db.calls
      have hend := le_loopEnd outcomes n (lastCall outcomes 8 db.calls + 1)
      -- what a failed attempt completed stays in the transaction
      set l' := l ++ completedBy outcomes stmts db.calls (lastCall outcomes 8 db.calls + 1)
        with hl'
      have hrest := ih (rfl : ({ db with
        trans := some l', calls := lastCall outcomes 8 db.calls + 1 } : Db α).trans = some l')
      simp only at hrest
      rw [hl', List.append_assoc, ← completedBy_append (by omega) hend] at hrest
      split
      · rename_i heq
        exact absurd (congrArg Prod.snd heq) hres
      · rename_i heq
        rw [← (Prod.mk.inj heq).1]
        exact hrest

/-! ## All or nothing -/

/-- A call that returns success has made every statement of the text durable once, and one that
returns anything else has made none durable and leaves no transaction open. -/
def AllOrNothing (outcomes : ℕ → SqlOutcome) (db : Db α) (stmts : List α) (retries : UInt32) :
    Prop :=
  let r := agcDbPersistantExecuteTrans outcomes db stmts retries
  if r.2 = .success then r.1.durable = db.durable ++ stmts
  else r.1.durable = db.durable ∧ r.1.trans = none

/-- The outcomes from the call `k` on do not come between the statements: `BEGIN` fails each time;
or no execution of the text that fails has completed a statement, and the `COMMIT` succeeds, or has
nothing to commit behind a text without statements. -/
def Undisturbed (outcomes : ℕ → SqlOutcome) (stmts : List α) (retries : UInt32) (k : ℕ) : Prop :=
  ∀ b, firstOk outcomes MAX_DB_RETRIES k = some b →
    (∀ i, b < i → i < loopEnd outcomes (allowedRetries retries) (b + 1) → outcomes i ≠ .ok →
      (outcomes i).completed stmts = []) ∧
    (outcomes (lastCall outcomes 8 (loopEnd outcomes (allowedRetries retries) (b + 1))) = .ok ∨
      (stmts = [] ∧ (firstOk outcomes (allowedRetries retries) (b + 1)).isSome))

/-- Failing executions complete nothing of a text without statements. -/
theorem completed_nil {o : SqlOutcome} : o.completed ([] : List α) = [] := by
  cases o <;> simp [SqlOutcome.completed]

/-- The executions before one that succeeds, and the one that succeeds. -/
theorem completedBy_of_firstOk {t : ℕ} (h : firstOk outcomes n k = some t) :
    completedBy outcomes stmts k (loopEnd outcomes n k) =
      completedBy outcomes stmts k t ++ stmts := by
  obtain ⟨hok, hend, hle, -⟩ := firstOk_some h
  rw [hend, completedBy_succ hle, hok]
  rfl

/-- A call that opens no transaction changes nothing. -/
theorem execute_closed (h : db.trans = none)
    (hbegin : firstOk outcomes MAX_DB_RETRIES db.calls = none) (retries : UInt32) :
    AllOrNothing outcomes db stmts retries := by
  have hrun : agcDbPersistantExecuteTrans outcomes db stmts retries =
      ({ db with
        trans := none, calls := loopEnd outcomes MAX_DB_RETRIES db.calls + 1 }, .false) := by
    simp only [agcDbPersistantExecuteTrans, beginLoop_spec h, hbegin, Option.isSome_none,
      Bool.false_eq_true, if_false]
    rw [exec_commit_closed rfl]
  rw [AllOrNothing, hrun]
  exact ⟨rfl, rfl⟩

/-- A call that opens a transaction at the call `b`. -/
theorem execute_opened (h : db.trans = none) {b : ℕ}
    (hbegin : firstOk outcomes MAX_DB_RETRIES db.calls = some b) (retries : UInt32) :
    agcDbPersistantExecuteTrans outcomes db stmts retries =
      ((agcDbExec outcomes { db with
        trans := some (completedBy outcomes stmts (b + 1)
          (loopEnd outcomes (allowedRetries retries) (b + 1)))
        calls := loopEnd outcomes (allowedRetries retries) (b + 1) } .commit).1,
      if (firstOk outcomes (allowedRetries retries) (b + 1)).isSome then .success
      else .false) := by
  obtain ⟨-, hend, -, -⟩ := firstOk_some hbegin
  simp only [agcDbPersistantExecuteTrans, beginLoop_spec h, hbegin, hend, Option.isSome_some,
    if_true]
  rw [textLoop_spec (l := []) rfl]
  rfl

/-- **A text in a transaction is all-or-nothing**, for every text, every number of retries and all
outcomes of the calls, exactly when the outcomes do not come between its statements. -/
theorem execute_trans_iff (outcomes : ℕ → SqlOutcome) (db : Db α) (stmts : List α)
    (retries : UInt32) (h : db.trans = none) :
    AllOrNothing outcomes db stmts retries ↔ Undisturbed outcomes stmts retries db.calls := by
  cases hbegin : firstOk outcomes MAX_DB_RETRIES db.calls with
  | none =>
    refine iff_of_true (execute_closed h hbegin retries) fun b hb => ?_
    rw [hbegin] at hb
    cases hb
  | some b =>
    -- the condition, at the one call at which the transaction is opened
    have hund : Undisturbed outcomes stmts retries db.calls ↔
        (∀ i, b < i → i < loopEnd outcomes (allowedRetries retries) (b + 1) →
          outcomes i ≠ .ok → (outcomes i).completed stmts = []) ∧
        (outcomes (lastCall outcomes 8 (loopEnd outcomes (allowedRetries retries) (b + 1))) =
            .ok ∨
          (stmts = [] ∧ (firstOk outcomes (allowedRetries retries) (b + 1)).isSome)) := by
      constructor
      · exact fun hu => hu b hbegin
      · rintro hu b' hb'
        obtain rfl : b = b' := Option.some.inj (hbegin.symm.trans hb')
        exact hu
    rw [hund, AllOrNothing, execute_opened h hbegin, exec_commit rfl]
    set e := loopEnd outcomes (allowedRetries retries) (b + 1) with he
    cases htext : firstOk outcomes (allowedRetries retries) (b + 1) with
    | some t =>
      obtain ⟨-, hend, hle, hbefore⟩ := firstOk_some htext
      -- the failing executions are those before `t`
      have hfailed : (∀ i, b < i → i < e → outcomes i ≠ .ok → (outcomes i).completed stmts = []) ↔
          completedBy outcomes stmts (b + 1) t = [] := by
        rw [completedBy_eq_nil]
        constructor
        · exact fun hall i hi hit => hall i hi (by omega) (hbefore i hi hit)
        · intro hall i hi hie hne
          refine hall i hi (Nat.lt_of_le_of_ne (by omega) ?_)
          rintro rfl
          exact hne (firstOk_some htext).1
      rw [hfailed, he, completedBy_of_firstOk htext, ← he]
      by_cases hcommit : outcomes (lastCall outcomes 8 e) = .ok
      · simp [hcommit]
      · -- without the `COMMIT` nothing is durable: that is right only for a text without statements
        have hnil : stmts = [] → completedBy outcomes stmts (b + 1) t = [] := by
          rintro rfl
          exact completedBy_eq_nil.mpr fun _ _ _ => completed_nil
        simp only [hcommit, if_false, Option.isSome_some, if_true, false_or, and_true]
        rw [List.self_eq_append_right]
        exact ⟨fun hs => ⟨hnil hs, hs⟩, fun hs => hs.2⟩
    | none =>
      have hbefore := firstOk_none htext
      have hfailed : (∀ i, b < i → i < e → outcomes i ≠ .ok → (outcomes i).completed stmts = []) ↔
          completedBy outcomes stmts (b + 1) e = [] := by
        rw [completedBy_eq_nil]
        constructor
        · exact fun hall i hi hie => hall i hi hie (hbefore i hi hie)
        · exact fun hall i hi hie _ => hall i hi hie
      rw [hfailed]
      by_cases hcommit : outcomes (lastCall outcomes 8 e) = .ok
      · simp [hcommit]
      · simp [hcommit]

/-- The first execution of a text of two statements is busy before its first statement; the others
and the rest of the calls succeed. -/
def busyFirst : ℕ → SqlOutcome := fun i => if i = 1 then .busy 0 else .ok

theorem execute_trans_busyFirst :
    AllOrNothing busyFirst (⟨none, [], 0⟩ : Db ℕ) [10, 11] 3 := by
  refine (execute_trans_iff busyFirst _ _ _ rfl).mpr fun b hb => ?_
  obtain rfl : 0 = b := Option.some.inj hb
  refine ⟨fun i hi hie hne => ?_, Or.inl rfl⟩
  have hi1 : i = 1 := by
    by_contra hi1
    exact hne (if_neg hi1)
  rw [hi1]
  rfl

/-- The first execution of a text of two statements is busy behind its first statement. -/
def busyBetween : ℕ → SqlOutcome := fun i => if i = 1 then .busy 1 else .ok

/-- The first statement is committed twice. -/
theorem execute_trans_twice :
    ¬ ∀ (outcomes : ℕ → SqlOutcome) (db : Db ℕ) (stmts : List ℕ) (retries : UInt32),
      db.trans = none → AllOrNothing outcomes db stmts retries := by
  intro hall
  have h : AllOrNothing busyBetween (⟨none, [], 0⟩ : Db ℕ) [10, 11] 3 := hall _ _ _ _ rfl
  have hdurable : [10, 10, 11] = [10, 11] := h
  simp at hdurable

end Db
