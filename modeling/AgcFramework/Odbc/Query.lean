import AgcFramework.Odbc.LifeCycle

/-!
# The rows and the errors of a query

`agc_odbc_handle_callback_exec` runs a statement and gives its rows to a callback one by one. An
error before the first row is reported with a text. An error of `SQLFetch` takes the same exit after
the statement has been given back and without a text of its own, so that the caller is told that the
query failed and not why. A row that `SQLFetch` delivers with `SQL_SUCCESS_WITH_INFO` is taken for
such an error.

## Main definitions

* `Fetch`, `queryFetches`: the rounds of the loop over the rows, with what the callback was given
* `Delivered`: each row that was fetched was given to the callback once, in order, to the end
* `agcSqlExecuteSqlCallbackErr`: the function of `agc_sql.c` with an error callback

## Main results

* `query_eq`: the observed query is `agc_odbc_handle_callback_exec`
* `query_reported_iff`: the rows are delivered and a failure is reported exactly if each `SQLFetch`
  is answered with a row or with their end
-/

namespace Odbc

open Ledger Command

/-! ## The observed query -/

/-- A call of `SQLFetch`: its result, and what the callback was given for the row and whether it
ended the query, if it was called. -/
structure Fetch where
  ret : SqlReturn
  passed : Option (List (String × String) × Bool)
  deriving DecidableEq

/-- `fetchLoop`, with the rounds it makes. -/
def observedLoop (stmt : Option SqlHandle) (c : ℕ) (callback : Callback) :
    ℕ → ℕ → OdbcM (Bool × List Fetch)
  | 0, _ => return (true, [])
  | rounds + 1, i => do
    let row ← sqlCall .fetch stmt
    -- `SQL_SUCCESS_WITH_INFO` ends the loop like an error
    if row.ret ≠ .success then return (row.ret ≠ .noData, [⟨row.ret, none⟩]) else
      let cols ← columns stmt c
      if callback i cols then return (false, [⟨row.ret, some (cols, true)⟩]) else
        let rest ← observedLoop stmt c callback rounds (i + 1)
        return (rest.1, ⟨row.ret, some (cols, false)⟩ :: rest.2)

/-- `fetchRows`, with the rounds of its loop. -/
def observedRows (stmt : Option SqlHandle) (c : ℕ) (callback : Callback) :
    OdbcM (Bool × List Fetch) := do
  let w ← get
  observedLoop stmt c callback (w.answers.length + 1) 0

/-- What is seen of a query: its status, its error, and the rounds of the loop over the rows if the
statement ran. -/
structure Query where
  status : AgcOdbcStatus
  err : Option String
  fetches : Option (List Fetch)
  deriving DecidableEq

/-- `agc_odbc_handle_callback_exec`, observed. -/
def observedQuery (sql : String) (callback : Callback) : OdbcM Query := do
  update ({ · with affectedRows := 0 })
  let s ← startStatement callbackTexts sql
  if s.ok then
    let cols ← sqlCall .numResultCols s.stmt
    let rows ← sqlCall .rowCount s.stmt
    update ({ · with affectedRows := toInt rows.value })
    let r ← observedRows s.stmt cols.columns callback
    sqlFreeHandle s.stmt
    -- no text is set for a failure of the loop
    return ⟨if r.1 then .fail else .success, none, some r.2⟩
  else
    let err ← stmtError s.stmt s.err
    freeStmt s.stmt
    return ⟨.fail, err, none⟩

/-- The rounds that `agc_odbc_handle_callback_exec` makes in the world `w`. -/
def queryFetches (sql : String) (callback : Callback) (w : World) : Option (List Fetch) :=
  (observedQuery sql callback w).1.fetches

theorem agrees_observedLoop (stmt : Option SqlHandle) (c : ℕ) (callback : Callback)
    (rounds i : ℕ) :
    Agrees Prod.fst (observedLoop stmt c callback rounds i)
      (fetchLoop stmt c callback rounds i) := by
  induction rounds generalizing i with
  | zero => exact Agrees.pure _
  | succ rounds ih =>
    refine Agrees.bind_left fun row => ?_
    refine Agrees.ite (fun _ => Agrees.pure _) fun _ => ?_
    refine Agrees.bind_left fun cols => ?_
    refine Agrees.ite (fun _ => Agrees.pure _) fun _ => ?_
    exact Agrees.map (ih (i + 1))

/-- The observed query is `agc_odbc_handle_callback_exec`. -/
theorem agrees_observedQuery (sql : String) (callback : Callback) :
    Agrees (fun q => (q.status, q.err)) (observedQuery sql callback)
      (agcOdbcHandleCallbackExec sql callback) := by
  refine Agrees.bind_left fun _ => ?_
  refine Agrees.bind_left fun s => ?_
  refine Agrees.ite (fun _ => ?_) fun _ => ?_
  · refine Agrees.bind_left fun cols => ?_
    refine Agrees.bind_left fun rows => ?_
    refine Agrees.bind_left fun _ => ?_
    refine Agrees.bind (g := Prod.fst) ?_ fun r => ?_
    · exact Agrees.bind_left fun w => agrees_observedLoop _ _ _ _ _
    · exact Agrees.bind_left fun _ => Agrees.pure _
  · refine Agrees.bind_left fun err => ?_
    exact Agrees.bind_left fun _ => Agrees.pure _

theorem query_eq (sql : String) (callback : Callback) (w : World) :
    (agcOdbcHandleCallbackExec sql callback w).1 =
      ((observedQuery sql callback w).1.status, (observedQuery sql callback w).1.err) :=
  congrArg Prod.fst (agrees_observedQuery sql callback w)

/-! ## The rows -/

namespace Fetch

/-- The callback was called exactly if a row was fetched. -/
def Given (f : Fetch) : Prop := f.passed.isSome ↔ f.ret.ok

/-- A row was given to the callback, and it asked for more. -/
def goesOn (f : Fetch) : Bool := f.passed.any fun p => !p.2

/-- `SQLFetch` was answered with a row or with the end of the rows, and with nothing to add. -/
def Plain (f : Fetch) : Prop := f.ret = .success ∨ f.ret = .noData

end Fetch

/-- Each row that is fetched is given to the callback once, in order, until the callback returns
other than zero or a fetch gives no row. -/
inductive Delivered : List Fetch → Prop
  | last {f : Fetch} (given : f.Given) (stops : f.goesOn = false) : Delivered [f]
  | row {f : Fetch} {fs : List Fetch} (given : f.Given) (more : f.goesOn = true)
    (rest : Delivered fs) : Delivered (f :: fs)

/-- What the loop over the rows does, if its rounds do not run out. -/
structure LoopSpec (r : Bool × List Fetch) : Prop where
  /-- The loop fails exactly if its last fetch gives neither a row nor their end, as the code
  takes it. -/
  failed : r.1 = true ↔ ∃ f ∈ r.2, ¬ f.Plain
  delivered : (∀ f ∈ r.2, f.Plain) → Delivered r.2

section Loop

variable {stmt : Option SqlHandle} {c : ℕ} {callback : Callback} {rounds i : ℕ} {w : World}

/-- What `SQLFetch` answers next. -/
def nextFetch (w : World) : SqlReturn := (w.answers.headD { ret := .error }).ret

/-- The texts of the columns that are read next, behind a fetch. -/
def nextColumns (stmt : Option SqlHandle) (c : ℕ) (w : World) : List (String × String) × World :=
  let r := columns stmt c { w with answers := w.answers.tail }
  (r.1, r.2.1)

/-- A round of the loop, by what is answered. -/
theorem observedLoop_succ :
    (observedLoop stmt c callback (rounds + 1) i w).1 =
      if nextFetch w ≠ .success then (decide (nextFetch w ≠ .noData), [⟨nextFetch w, none⟩])
      else if callback i (nextColumns stmt c w).1 then
        (false, [⟨nextFetch w, some ((nextColumns stmt c w).1, true)⟩])
      else
        let rest := (observedLoop stmt c callback rounds (i + 1) (nextColumns stmt c w).2).1
        (rest.1, ⟨nextFetch w, some ((nextColumns stmt c w).1, false)⟩ :: rest.2) := by
  have hfetch : (sqlCall .fetch stmt w).1.ret = nextFetch w := rfl
  have hcols : (columns stmt c (sqlCall .fetch stmt w).2.1).1 = (nextColumns stmt c w).1 := rfl
  rw [observedLoop, fst_bind, hfetch]
  by_cases hret : nextFetch w ≠ .success
  · rw [if_pos hret, if_pos hret]
    rfl
  · rw [if_neg hret, if_neg hret, fst_bind, hcols]
    by_cases hstop : callback i (nextColumns stmt c w).1 = true
    · rw [if_pos hstop, if_pos hstop]
      rfl
    · rw [if_neg hstop, if_neg hstop]
      rfl

variable (stmt c) in
theorem nextColumns_answers (hret : nextFetch w = .success) :
    (nextColumns stmt c w).2.answers.length < w.answers.length := by
  cases hanswers : w.answers with
  | nil => simp [nextFetch, hanswers] at hret
  | cons a rest =>
    have hle := columns_answers stmt c { w with answers := w.answers.tail }
    simp only [hanswers, List.tail_cons] at hle
    simp only [nextColumns, hanswers, List.tail_cons, List.length_cons]
    omega

theorem loopSpec_observedLoop (h : w.answers.length < rounds) :
    LoopSpec (observedLoop stmt c callback rounds i w).1 := by
  induction rounds generalizing i w with
  | zero => omega
  | succ rounds ih =>
    rw [observedLoop_succ]
    split_ifs with hret hstop
    · -- no row
      refine ⟨?_, ?_⟩
      · simp [Fetch.Plain, hret]
      · intro hplain
        have hend : nextFetch w = .noData :=
          (hplain _ (List.mem_singleton_self _)).resolve_left hret
        exact .last (by simp [Fetch.Given, hend, SqlReturn.ok]) rfl
    · -- the callback ends the query
      have hsuccess : nextFetch w = .success := not_not.mp hret
      refine ⟨?_, ?_⟩
      · simp [Fetch.Plain, hsuccess]
      · intro _
        exact .last (by simp [Fetch.Given, hsuccess, SqlReturn.ok]) rfl
    · -- a row, and the callback wants more
      have hsuccess : nextFetch w = .success := not_not.mp hret
      have hshorter := nextColumns_answers stmt c hsuccess
      have hrest := ih (i := i + 1) (w := (nextColumns stmt c w).2) (by omega)
      refine ⟨?_, ?_⟩
      · simp [Fetch.Plain, hsuccess, hrest.failed]
      · intro hplain
        refine .row (by simp [Fetch.Given, hsuccess, SqlReturn.ok]) rfl (hrest.delivered ?_)
        intro f hf
        exact hplain f (List.mem_cons_of_mem _ hf)

end Loop

/-! ## The error -/

/-- A statement that does not run has a text for it. -/
theorem err_of_not_started {sql : String} {w : World}
    (h : (startStatement callbackTexts sql w).1.ok = false) :
    ∃ text, (startStatement callbackTexts sql w).1.err = some text := by
  revert h
  rw [startStatement, fst_bind]
  split_ifs
  · exact fun _ => ⟨_, rfl⟩
  · rw [fst_bind, fst_bind]
    split_ifs
    · exact fun _ => ⟨_, rfl⟩
    · rw [prepareExecute, fst_bind]
      split_ifs
      · exact fun _ => ⟨_, rfl⟩
      · rw [fst_bind]
        split_ifs
        · exact fun h => absurd h (by decide)
        · exact fun _ => ⟨_, rfl⟩

/-- What the driver manager says comes in place of the text. -/
theorem stmtError_some (stmt : Option SqlHandle) (text : String) (w : World) :
    ∃ text', (stmtError stmt (some text) w).1 = some text' := by
  rw [stmtError, fst_bind]
  cases ((if stmt.isSome then agcOdbcHandleGetError stmt else pure none : OdbcM _) w).1 with
  | none => exact ⟨text, rfl⟩
  | some text' => exact ⟨text', rfl⟩

/-- A query runs its loop over the rows and has no text, or it fails before with a text. -/
theorem observedQuery_cases (sql : String) (callback : Callback) (w : World) :
    (∃ r, LoopSpec r ∧ (observedQuery sql callback w).1 =
      ⟨if r.1 then .fail else .success, none, some r.2⟩) ∨
    ∃ text, (observedQuery sql callback w).1 = ⟨.fail, some text, none⟩ := by
  rw [observedQuery, fst_bind, fst_bind]
  obtain ⟨w', hw'⟩ : ∃ w', w' = (update ({ · with affectedRows := 0 }) w).2.1 := ⟨_, rfl⟩
  rw [← hw']
  split_ifs with hok
  · left
    rw [fst_bind, fst_bind, fst_bind, fst_bind, fst_bind]
    -- the rounds are one more than the answers, so that they do not run out
    refine ⟨_, ?_, rfl⟩
    exact loopSpec_observedLoop (Nat.lt_succ_self _)
  · right
    obtain ⟨text, htext⟩ := err_of_not_started (Bool.not_eq_true _ ▸ hok)
    rw [fst_bind, fst_bind, htext]
    obtain ⟨text', htext'⟩ :=
      stmtError_some (startStatement callbackTexts sql w').1.stmt text
        (startStatement callbackTexts sql w').2.1
    rw [htext']
    exact ⟨text', rfl⟩

/-! ## The queries of `agc_sql.c` -/

/-- `agc_sql_execute_sql_callback_err`, with a non-null `err`: its status, the error, and the texts
that the error callback is given. -/
def agcSqlExecuteSqlCallbackErr (sql : String) (callback : Callback) :
    OdbcM (AgcOdbcStatus × Option String × List String) := do
  let r ← agcOdbcHandleCallbackExec sql callback
  return (r.1, r.2, r.2.toList)

/-- What a query is to report: its rows to the callback, and a failure in its error, with the error
callback of `agc_sql_execute_sql_callback_err`. -/
structure Reported (sql : String) (callback : Callback) (w : World) : Prop where
  rows : ∀ fs, queryFetches sql callback w = some fs → Delivered fs
  status : (agcOdbcHandleCallbackExec sql callback w).1.1 = .fail ↔
    (agcOdbcHandleCallbackExec sql callback w).1.2.isSome
  told : (agcSqlExecuteSqlCallbackErr sql callback w).1.2.2 ≠ [] ↔
    (agcSqlExecuteSqlCallbackErr sql callback w).1.1 = .fail

/-- The error callback is called exactly if there is an error. -/
theorem told_iff (sql : String) (callback : Callback) (w : World) :
    (agcSqlExecuteSqlCallbackErr sql callback w).1.2.2 ≠ [] ↔
      (agcOdbcHandleCallbackExec sql callback w).1.2.isSome := by
  rw [agcSqlExecuteSqlCallbackErr, fst_bind]
  cases (agcOdbcHandleCallbackExec sql callback w).1.2 with
  | none => exact iff_of_false (fun h => h rfl) (by decide)
  | some text => exact iff_of_true (List.cons_ne_nil _ _) rfl

/-- A failure that shows in the error is one that the error callback is called for. -/
theorem told_of_status {sql : String} {callback : Callback} {w : World}
    (h : (agcOdbcHandleCallbackExec sql callback w).1.1 = .fail ↔
      (agcOdbcHandleCallbackExec sql callback w).1.2.isSome) :
    (agcSqlExecuteSqlCallbackErr sql callback w).1.2.2 ≠ [] ↔
      (agcSqlExecuteSqlCallbackErr sql callback w).1.1 = .fail := by
  have hstatus : (agcSqlExecuteSqlCallbackErr sql callback w).1.1 =
      (agcOdbcHandleCallbackExec sql callback w).1.1 := rfl
  rw [told_iff, hstatus, h]

/-- **The report of a query.** For every driver manager and callback, the rows are given to the
callback as they are fetched, the call returns `AGC_ODBC_FAIL` exactly with an error, and the error
callback is called exactly for a query that failed, if and only if each `SQLFetch` of the query is
answered with `SQL_SUCCESS` or `SQL_NO_DATA`. -/
theorem query_reported_iff (sql : String) (callback : Callback) (w : World) :
    Reported sql callback w ↔
      ∀ fs, queryFetches sql callback w = some fs → ∀ f ∈ fs, f.Plain := by
  have hq := query_eq sql callback w
  rcases observedQuery_cases sql callback w with ⟨r, hspec, hr⟩ | ⟨text, htext⟩
  · have hfetches : queryFetches sql callback w = some r.2 := by rw [queryFetches, hr]
    rw [hr] at hq
    constructor
    · rintro ⟨-, hstatus, -⟩ fs hfs
      obtain rfl : r.2 = fs := Option.some.inj (hfetches.symm.trans hfs)
      -- a fetch that is not plain fails the query without a text
      rw [hq] at hstatus
      by_contra hplain
      push Not at hplain
      have hfailed : r.1 = true := hspec.failed.mpr hplain
      simp [hfailed] at hstatus
    · intro hplain
      have hplain := hplain r.2 hfetches
      have hok : r.1 = false := by
        by_contra hfailed
        obtain ⟨f, hf, hnot⟩ := hspec.failed.mp (Bool.not_eq_false _ ▸ hfailed)
        exact hnot (hplain f hf)
      have hstatus : (agcOdbcHandleCallbackExec sql callback w).1.1 = .fail ↔
          (agcOdbcHandleCallbackExec sql callback w).1.2.isSome := by simp [hq, hok]
      refine ⟨?_, hstatus, told_of_status hstatus⟩
      intro fs hfs
      obtain rfl : r.2 = fs := Option.some.inj (hfetches.symm.trans hfs)
      exact hspec.delivered hplain
  · -- without a loop there is nothing to deliver, and the failure has its text
    have hfetches : queryFetches sql callback w = none := by rw [queryFetches, htext]
    rw [htext] at hq
    have hstatus : (agcOdbcHandleCallbackExec sql callback w).1.1 = .fail ↔
        (agcOdbcHandleCallbackExec sql callback w).1.2.isSome := by simp [hq]
    refine iff_of_true ⟨?_, hstatus, told_of_status hstatus⟩ ?_
    · intro fs hfs
      rw [hfetches] at hfs
      cases hfs
    · intro fs hfs
      rw [hfetches] at hfs
      cases hfs

/-- A query of one column whose second fetch fails. The first part of the answers is for the
connect, the second for the probe, the third for the statement and the last for the rows. -/
def brokenQuery : World :=
  (calls (.new "db" 2
    ([{ ret := .success }, { ret := .success }, { ret := .success }, { ret := .success },
      { ret := .success }, { ret := .success }] ++
    [{ ret := .success }, { ret := .success }, { ret := .success }, { ret := .success },
      { ret := .success }, { ret := .success, columns := ⟨1, by decide⟩ }, { ret := .success }] ++
    [{ ret := .success }, { ret := .success }, { ret := .success },
      { ret := .success, columns := ⟨1, by decide⟩ },
      { ret := .success, value := 2 }] ++
    [{ ret := .success }, { ret := .success, text := "id" }, { ret := .success, text := "7" },
      { ret := .error }])) [.connect]).1

/-- The query fails after its first row, and its error is not set. -/
theorem query_truncated :
    (agcOdbcHandleCallbackExec "select id from t" (fun _ _ => false) brokenQuery).1 =
      (.fail, none) ∧
    queryFetches "select id from t" (fun _ _ => false) brokenQuery =
      some [⟨.success, some ([("id", "7")], false)⟩, ⟨.error, none⟩] ∧
    ¬ Reported "select id from t" (fun _ _ => false) brokenQuery := by
  have hfail : (agcOdbcHandleCallbackExec "select id from t" (fun _ _ => false) brokenQuery).1 =
      (.fail, none) := by decide +kernel
  refine ⟨hfail, by decide +kernel, ?_⟩
  rintro ⟨-, hstatus, -⟩
  rw [hfail] at hstatus
  simp at hstatus

end Odbc
