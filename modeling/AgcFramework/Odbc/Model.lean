import AgcFramework.Lib.Command
import AgcFramework.Lib.Ledger
import Mathlib.Algebra.Group.Nat.Defs
import Mathlib.Data.Int.Basic

/-!
# Database handles over ODBC

A handle of `agc_odbc.c` owns an environment and a connection of the ODBC driver manager, and its
functions allocate statements on the connection. The two are allocated together by
`init_odbc_handles`, and given back and allocated again when a connect fails. Before a statement
runs, `db_is_up` probes the connection and connects again when the probe fails, up to a number of
times.

The driver manager is outside of the repository. What it answers to each call is a parameter, and a
handle that it makes is one that was not made before. The calls are logged as they are made, with
the handles that they are given.

## Main definitions

* `SqlFn`, `Answer`: the functions of the driver manager and what it answers
* `OdbcHandle`: the record of a handle
* `World`: the handle and the answers to come
* `agcOdbcHandleConnect`, `agcOdbcHandleDisconnect`, `agcOdbcHandleExec`,
  `agcOdbcHandleExecString`, `agcOdbcHandleCallbackExec`, `agcOdbcHandleDestroy`: the functions of
  `agc_odbc.c`
* `Op`, `calls`, `life`: the calls on one handle, and its whole life
-/

namespace Odbc

open Ledger Command

/-- `SQLRETURN`. -/
inductive SqlReturn
  | success
  | successWithInfo
  | noData
  | needData
  | stillExecuting
  | error
  | invalidHandle
  deriving DecidableEq, Repr

/-- `SQL_SUCCESS` or `SQL_SUCCESS_WITH_INFO`. -/
def SqlReturn.ok : SqlReturn → Bool
  | success | successWithInfo => true
  | _ => false

/-- The kinds of driver handles. -/
inductive HandleType
  | env
  | dbc
  | stmt
  deriving DecidableEq, Repr

/-- A handle that the driver manager made; none stands for `SQL_NULL_HANDLE`. -/
abbrev SqlHandle := HandleType × ℕ

/-- The functions of the driver manager that are called. -/
inductive SqlFn
  | allocHandle
  | freeHandle
  | setEnvAttr
  | setConnectAttr
  | setStmtAttr
  | connect
  | driverConnect
  | disconnect
  | getInfo
  | error
  | getDiagRec
  | prepare (sql : String)
  | execute
  | rowCount
  | numResultCols
  | fetch
  | describeCol
  | getData
  deriving DecidableEq

/-- The number of columns of a result, an `SQLSMALLINT`. It is taken to be less than the greatest
one, at which the index of the loop over the columns wraps and the loop does not end. -/
abbrev Columns := Fin 32767

/-- No columns, as for a statement that selects nothing. -/
def Columns.none : Columns := ⟨0, by decide⟩

/-- What a call of the driver manager answers: its result, and the numbers and the texts that it
stores for the caller. -/
structure Answer where
  ret : SqlReturn
  value : ℤ := 0
  columns : Columns := .none
  sqlstate : String := ""
  text : String := ""

/-- `agc_odbc_state_t`. -/
inductive AgcOdbcState
  | init
  | down
  | connected
  | error
  deriving DecidableEq, Repr

/-- `agc_odbc_status_t`. -/
inductive AgcOdbcStatus
  | success
  | fail
  deriving DecidableEq, Repr

/-- `struct agc_odbc_handle`. -/
structure OdbcHandle where
  dsn : String
  env : Option SqlHandle
  con : Option SqlHandle
  state : AgcOdbcState
  odbcDriver : String
  isFirebird : Bool
  isOracle : Bool
  affectedRows : ℤ
  numRetries : ℤ
  deriving DecidableEq

/-- `DEFAULT_ODBC_RETRIES`. -/
def DEFAULT_ODBC_RETRIES : ℕ := 120

/-- `agc_odbc_handle_new`. -/
def agcOdbcHandleNew (dsn : String) : OdbcHandle where
  dsn := dsn
  env := none
  con := none
  state := .init
  odbcDriver := ""
  isFirebird := false
  isOracle := false
  affectedRows := 0
  numRetries := DEFAULT_ODBC_RETRIES

/-- `agc_odbc_set_num_retries`. -/
def agcOdbcSetNumRetries (h : OdbcHandle) (numRetries : ℤ) : OdbcHandle :=
  { h with numRetries := numRetries }

/-- A call of the driver manager on one of the handles that it is given, and the environment of the
record at that time. -/
structure Entry where
  fn : SqlFn
  act : Act (Option SqlHandle)
  env : Option SqlHandle
  deriving DecidableEq

/-- A call of `agc_odbc_handle_connect` or of `agc_odbc_handle_disconnect`, with the status that it
returned. -/
inductive Link
  | connect (status : AgcOdbcStatus)
  | disconnect (status : AgcOdbcStatus)
  deriving DecidableEq

/-- A handle and the driver manager. -/
structure World where
  handle : OdbcHandle
  /-- What the driver manager answers to the calls to come. -/
  answers : List Answer
  /-- The number of the next handle that it makes. -/
  next : ℕ
  /-- The connects and disconnects so far, in order. -/
  links : List Link
  /-- The statements that were handed to the caller and that it holds. -/
  held : List SqlHandle

/-- The functions work on the handle and call the driver manager. -/
abbrev OdbcM := Command World Entry

/-- A call whose result nobody looks at. -/
def ignore {α : Type} (m : OdbcM α) : OdbcM Unit := do
  let _ ← m
  return ()

/-! ## The driver manager -/

/-- A call goes into the log. -/
def record (fn : SqlFn) (act : Act (Option SqlHandle)) : OdbcM Unit :=
  tell fun w => ⟨fn, act, w.handle.env⟩

/-- The next answer; a driver manager without answers fails. -/
def answer : OdbcM Answer := do
  let w ← get
  modify fun w => { w with answers := w.answers.tail }
  return w.answers.headD { ret := .error }

/-- A call that is given one handle. -/
def sqlCall (fn : SqlFn) (h : Option SqlHandle) : OdbcM Answer := do
  record fn (.use h)
  answer

/-- `SQLFreeHandle`, whose result nobody looks at: the handle is given back with the call. -/
def sqlFreeHandle (h : Option SqlHandle) : OdbcM Unit := do
  record .freeHandle (.free h)
  ignore answer

/-- A handle that was not made before. -/
def newHandle (kind : HandleType) : OdbcM (Option SqlHandle) := do
  let w ← get
  modify fun w => { w with next := w.next + 1 }
  record .allocHandle (.alloc (some (kind, w.next)))
  return some (kind, w.next)

/-- The result of `SQLAllocHandle`, and what it stores. -/
structure Alloc where
  ret : SqlReturn
  handle : Option SqlHandle

/-- `SQLAllocHandle`: it stores the new handle when it succeeds, and `SQL_NULL_HANDLE` otherwise. -/
def sqlAllocHandle (kind : HandleType) : OdbcM Alloc := do
  let a ← answer
  if a.ret.ok then
    let h ← newHandle kind
    return ⟨a.ret, h⟩
  else
    return ⟨a.ret, none⟩

/-- `SQLAllocHandle` for a handle below another one. -/
def sqlAllocHandleOn (kind : HandleType) (input : Option SqlHandle) : OdbcM Alloc := do
  record .allocHandle (.use input)
  sqlAllocHandle kind

/-! ## The record -/

/-- A read of the record. -/
def field {α : Type} (f : OdbcHandle → α) : OdbcM α := do
  let w ← get
  return f w.handle

/-- A write to the record. -/
def update (f : OdbcHandle → OdbcHandle) : OdbcM Unit :=
  modify fun w => { w with handle := f w.handle }

/-- A connect or a disconnect is noted, where it returns to its caller. -/
def note (l : Link) : OdbcM Unit := modify fun w => { w with links := w.links ++ [l] }

/-- `strstr` finds the text. -/
def strstr (s text : String) : Bool := text.toList <:+: s.toList

/-- A cast to `int`. -/
def toInt (m : ℤ) : ℤ := m.bmod (2 ^ 32)

/-- The kind of the driver, by its name. -/
def OdbcHandle.classify (h : OdbcHandle) : OdbcHandle :=
  if strstr h.odbcDriver "SQORA32.DLL" ∨ strstr h.odbcDriver "SQORA64.DLL" then
    { h with isFirebird := false, isOracle := true }
  else if strstr h.odbcDriver "FIREBIRD" ∨ strstr h.odbcDriver "FB32" ∨
      strstr h.odbcDriver "FB64" then
    { h with isFirebird := true, isOracle := false }
  else
    { h with isFirebird := false, isOracle := false }

/-- The statement of the probe. -/
def OdbcHandle.probeSql (h : OdbcHandle) : String :=
  if h.isOracle then "select 1 from dual"
  else if h.isFirebird then "select first 1 * from RDB$RELATIONS"
  else "select 1"

/-- The number of tries of `db_is_up`. -/
def OdbcHandle.maxTries (h : OdbcHandle) : ℕ :=
  if h.numRetries < 1 then DEFAULT_ODBC_RETRIES else h.numRetries.toNat

/-- `agc_odbc_handle_get_error`. -/
def agcOdbcHandleGetError (stmt : Option SqlHandle) : OdbcM (Option String) := do
  let env ← field (·.env)
  let con ← field (·.con)
  record .error (.use env)
  record .error (.use con)
  (if stmt.isSome then record .error (.use stmt) else pure ())
  let a ← answer
  if a.ret = .success then
    return some ("STATE: " ++ a.sqlstate ++ " CODE " ++ toString a.value ++ " ERROR: " ++ a.text ++
      "\n")
  else
    return none

/-! ## The environment and the connection -/

/-- The two handles are given back. -/
def freeHandles : OdbcM Unit := do
  let con ← field (·.con)
  sqlFreeHandle con
  let env ← field (·.env)
  sqlFreeHandle env

/-- The part of `init_odbc_handles` that gives the handles back first. -/
def reinit : OdbcM Unit := do
  let env ← field (·.env)
  if env.isSome then
    freeHandles
    update ({ · with env := none })
  else
    return ()

/-- The environment is given back again, on a way out of `init_odbc_handles`. -/
def dropEnv : OdbcM AgcOdbcStatus := do
  let env ← field (·.env)
  sqlFreeHandle env
  update ({ · with env := none })
  return .fail

/-- The part of `init_odbc_handles` that allocates the connection in a new environment. -/
def allocCon : OdbcM AgcOdbcStatus := do
  let env ← field (·.env)
  let con ← sqlAllocHandleOn .dbc env
  update ({ · with con := con.handle })
  if con.ret.ok then
    let _ ← sqlCall .setConnectAttr con.handle
    return .success
  else
    dropEnv

/-- The part of `init_odbc_handles` that allocates both handles. -/
def allocHandles : OdbcM AgcOdbcStatus := do
  let env ← sqlAllocHandle .env
  update ({ · with env := env.handle })
  if env.ret.ok then
    let version ← sqlCall .setEnvAttr env.handle
    if version.ret.ok then allocCon else dropEnv
  else
    update ({ · with env := none })
    return .fail

/-- `init_odbc_handles`. -/
def initOdbcHandles (doReinit : Bool) : OdbcM AgcOdbcStatus := do
  (if doReinit then reinit else pure ())
  let env ← field (·.env)
  if env.isSome then return .success else allocHandles

/-! ## Connecting -/

/-- `agc_odbc_handle_disconnect`. -/
def agcOdbcHandleDisconnect : OdbcM AgcOdbcStatus := do
  let state ← field (·.state)
  let con ← field (·.con)
  (if state = .connected then ignore (sqlCall .disconnect con) else pure ())
  update ({ · with state := .down })
  return .success

/-- A call of `agc_odbc_handle_disconnect`, which is noted when it returns. -/
def callDisconnect : OdbcM Unit := do
  let status ← agcOdbcHandleDisconnect
  note (.disconnect status)

/-- The part of `agc_odbc_handle_connect` behind a successful connect. -/
def connected : OdbcM AgcOdbcStatus := do
  let con ← field (·.con)
  let info ← sqlCall .getInfo con
  update fun h => if info.ret.ok then { h with odbcDriver := info.text.toUpper } else h
  update OdbcHandle.classify
  update ({ · with state := .connected })
  return .success

/-- The part of `agc_odbc_handle_connect` behind a failed connect: the handles are made anew. -/
def connectFailed : OdbcM AgcOdbcStatus := do
  let con ← field (·.con)
  let errStr ← agcOdbcHandleGetError none
  (if errStr.isSome then pure () else ignore (sqlCall .getDiagRec con))
  let _ ← initOdbcHandles true
  return .fail

/-- `SQLConnect` or `SQLDriverConnect`, by the name of the source. -/
def sqlConnect : OdbcM Answer := do
  let dsn ← field (·.dsn)
  let con ← field (·.con)
  sqlCall (if strstr dsn "DRIVER" then .driverConnect else .connect) con

/-- `agc_odbc_handle_connect`: the result of `init_odbc_handles` is not looked at. -/
def agcOdbcHandleConnect : OdbcM AgcOdbcStatus := do
  let _ ← initOdbcHandles false
  let state ← field (·.state)
  (if state = .connected then callDisconnect else pure ())
  let result ← sqlConnect
  if result.ret.ok then connected else connectFailed

/-- A call of `agc_odbc_handle_connect`, which is noted with the status that it returns. -/
def callConnect : OdbcM Unit := do
  let status ← agcOdbcHandleConnect
  note (.connect status)

/-- `agc_odbc_handle_destroy`. -/
def agcOdbcHandleDestroy : OdbcM Unit := do
  callDisconnect
  let env ← field (·.env)
  if env.isSome then freeHandles else return ()

/-! ## Statements -/

/-- A statement is given back, if there is one. -/
def freeStmt (stmt : Option SqlHandle) : OdbcM Unit :=
  if stmt.isSome then sqlFreeHandle stmt else pure ()

/-- How a try of `db_is_up` comes to one of its labels: whether the connection is up, the statement
of the probe, and the number to return. -/
structure Probe where
  up : Bool
  stmt : Option SqlHandle
  ret : ℤ

/-- The part of a try behind the allocation of its statement; `ret` is the number of the try
before. -/
def probeStmt (stmt : Option SqlHandle) (sql : String) (ret : ℤ) : OdbcM Probe := do
  let _ ← sqlCall .setStmtAttr stmt
  let prepared ← sqlCall (.prepare sql) stmt
  if prepared.ret ≠ .success then return ⟨false, stmt, ret⟩ else
    let executed ← sqlCall .execute stmt
    if ¬ executed.ret.ok then return ⟨false, stmt, ret⟩ else
      let _ ← sqlCall .rowCount stmt
      let cols ← sqlCall .numResultCols stmt
      if cols.ret ≠ .success then return ⟨false, stmt, ret⟩ else
        -- a statement without columns is not a select statement
        return ⟨0 < cols.columns, stmt, cols.columns⟩

/-- One try of `db_is_up`, up to one of its labels. -/
def probe (ret : ℤ) : OdbcM Probe := do
  let sql ← field OdbcHandle.probeSql
  let con ← field (·.con)
  let stmt ← sqlAllocHandleOn .stmt con
  if stmt.ret ≠ .success then return ⟨false, stmt.handle, ret⟩
  else probeStmt stmt.handle sql ret

/-- The tries of `db_is_up`: one that fails connects again, and the next one follows while there are
some left. -/
def dbIsUpLoop : ℕ → ℤ → OdbcM ℤ
  | 0, ret => return ret
  | tries + 1, ret => do
    let p ← probe ret
    if p.up then
      freeStmt p.stmt
      return p.ret
    else
      let _ ← agcOdbcHandleGetError p.stmt
      freeStmt p.stmt
      callConnect
      dbIsUpLoop tries p.ret

/-- `db_is_up`. -/
def dbIsUp : OdbcM ℤ := do
  let tries ← field OdbcHandle.maxTries
  dbIsUpLoop tries 0

/-- The errors of a function that runs a statement. -/
structure ExecTexts where
  down : Option String
  alloc : String
  prepare : String
  execute : SqlReturn → String

/-- Whether a statement runs, the statement if there is one, and the text of the error. -/
structure Started where
  ok : Bool
  stmt : Option SqlHandle
  err : Option String

/-- The part that `agc_odbc_handle_exec` and `agc_odbc_handle_callback_exec` have in common behind
the allocation of the statement, up to the label of the errors. -/
def prepareExecute (texts : ExecTexts) (sql : String) (stmt : Option SqlHandle) :
    OdbcM Started := do
  let prepared ← sqlCall (.prepare sql) stmt
  if prepared.ret ≠ .success then return ⟨false, stmt, some texts.prepare⟩ else
    let executed ← sqlCall .execute stmt
    if executed.ret.ok ∨ executed.ret = .noData then return ⟨true, stmt, none⟩
    else return ⟨false, stmt, some (texts.execute executed.ret)⟩

/-- The part that the two have in common. -/
def startStatement (texts : ExecTexts) (sql : String) : OdbcM Started := do
  let up ← dbIsUp
  if up = 0 then return ⟨false, none, texts.down⟩ else
    let con ← field (·.con)
    let stmt ← sqlAllocHandleOn .stmt con
    if stmt.ret ≠ .success then return ⟨false, stmt.handle, some texts.alloc⟩
    else prepareExecute texts sql stmt.handle

/-- The error of a statement: what the driver manager says, or the text of the function. -/
def stmtError (stmt : Option SqlHandle) (err : Option String) : OdbcM (Option String) := do
  let errStr ← (if stmt.isSome then agcOdbcHandleGetError stmt else pure none)
  return errStr.or err

/-- The errors of `agc_odbc_handle_exec`. -/
def execTexts : ExecTexts where
  down := none
  alloc := "SQLAllocHandle failed."
  prepare := "SQLPrepare failed."
  execute
    | .error => "SQLExecute returned SQL_ERROR."
    | .needData => "SQLExecute returned SQL_NEED_DATA."
    | _ => "SQLExecute returned unknown result code."

/-- What `agc_odbc_handle_exec` returns: its status, the statement for the caller that wants it, and
the error. -/
structure ExecResult where
  status : AgcOdbcStatus
  stmt : Option SqlHandle
  err : Option String

/-- `agc_odbc_handle_exec`: the caller that wants the statement is handed it when the execution
failed, too. -/
def agcOdbcHandleExec (sql : String) (rstmt : Bool) : OdbcM ExecResult := do
  let s ← startStatement execTexts sql
  if s.ok then
    let rows ← sqlCall .rowCount s.stmt
    update ({ · with affectedRows := toInt rows.value })
    if rstmt then return ⟨.success, s.stmt, none⟩ else
      sqlFreeHandle s.stmt
      return ⟨.success, none, none⟩
  else
    let err ← stmtError s.stmt s.err
    if rstmt then return ⟨.fail, s.stmt, err.getD "SQL ERROR!"⟩ else
      freeStmt s.stmt
      return ⟨.fail, none, err.getD "SQL ERROR!"⟩

/-- The part of `agc_odbc_handle_exec_string` behind a successful execution: the text of the first
column of the first row, up to the label at the end. -/
def firstColumn (stmt : Option SqlHandle) : OdbcM (AgcOdbcStatus × Option String) := do
  let rows ← sqlCall .rowCount stmt
  update ({ · with affectedRows := toInt rows.value })
  if rows.value = 0 then return (.fail, none) else
    let row ← sqlCall .fetch stmt
    if ¬ row.ret.ok ∧ row.ret ≠ .noData then return (.fail, none) else
      let _ ← sqlCall .describeCol stmt
      let data ← sqlCall .getData stmt
      return (.success, some data.text)

/-- `agc_odbc_statement_handle_free`: its status, and the statement that it leaves in the caller's
variable. -/
def agcOdbcStatementHandleFree (stmt : Option SqlHandle) :
    OdbcM (AgcOdbcStatus × Option SqlHandle) := do
  if stmt.isSome then
    sqlFreeHandle stmt
    return (.success, none)
  else
    return (.fail, stmt)

/-- `agc_odbc_handle_exec_string`: its status, the text in the caller's buffer, and the error. -/
def agcOdbcHandleExecString (sql : String) :
    OdbcM (AgcOdbcStatus × Option String × Option String) := do
  update ({ · with affectedRows := 0 })
  let r ← agcOdbcHandleExec sql true
  let data ← (if r.status = .success then firstColumn r.stmt else pure (.fail, none))
  ignore (agcOdbcStatementHandleFree r.stmt)
  return (data.1, data.2, r.err)

/-- The names and the texts of the columns of a row. -/
def columns (stmt : Option SqlHandle) : ℕ → OdbcM (List (String × String))
  | 0 => return []
  | c + 1 => do
    let column ← sqlCall .describeCol stmt
    let data ← sqlCall .getData stmt
    let rest ← columns stmt c
    return (column.text, data.text) :: rest

/-- A callback of a query: what it returns at each of its calls, for the columns that it is given.
Other than zero, which is true here, ends the query. -/
abbrev Callback := ℕ → List (String × String) → Bool

/-- The loop over the rows, at the call `i` of the callback: true for an error of `SQLFetch`. Each
round takes an answer of the driver manager, and one without answers fails, so the rounds are no
more than the answers. -/
def fetchLoop (stmt : Option SqlHandle) (c : ℕ) (callback : Callback) : ℕ → ℕ → OdbcM Bool
  | 0, _ => return true
  | rounds + 1, i => do
    let row ← sqlCall .fetch stmt
    if row.ret ≠ .success then return row.ret ≠ .noData else
      let cols ← columns stmt c
      if callback i cols then return false else fetchLoop stmt c callback rounds (i + 1)

/-- The loop over the rows. -/
def fetchRows (stmt : Option SqlHandle) (c : ℕ) (callback : Callback) : OdbcM Bool := do
  let w ← get
  fetchLoop stmt c callback (w.answers.length + 1) 0

/-- The errors of `agc_odbc_handle_callback_exec`. -/
def callbackTexts : ExecTexts where
  down := some "DB is not up!"
  alloc := "Unable to SQL allocate handle!"
  prepare := "Unable to prepare SQL statement!"
  execute _ := "execute error!"

/-- `agc_odbc_handle_callback_exec`: its status and the error. -/
def agcOdbcHandleCallbackExec (sql : String) (callback : Callback) :
    OdbcM (AgcOdbcStatus × Option String) := do
  update ({ · with affectedRows := 0 })
  let s ← startStatement callbackTexts sql
  if s.ok then
    let cols ← sqlCall .numResultCols s.stmt
    let rows ← sqlCall .rowCount s.stmt
    update ({ · with affectedRows := toInt rows.value })
    let failed ← fetchRows s.stmt cols.columns callback
    sqlFreeHandle s.stmt
    return (if failed then .fail else .success, none)
  else
    let err ← stmtError s.stmt s.err
    freeStmt s.stmt
    return (.fail, err)

/-! ## The life of a handle -/

/-- A call on the handle, or the release of a statement that the caller holds. -/
inductive Op
  | connect
  | disconnect
  | exec (sql : String) (rstmt : Bool)
  | execString (sql : String)
  | callbackExec (sql : String) (callback : Callback)
  | statementHandleFree (stmt : SqlHandle)

/-- The caller holds the statement that is in its variable, if there is one. -/
def hold (stmt : Option SqlHandle) : OdbcM Unit :=
  modify fun w => { w with held := stmt.toList ++ w.held }

/-- The caller takes a statement out of those that it holds, to call a function on it. -/
def take (stmt : SqlHandle) : OdbcM Unit := modify fun w => { w with held := w.held.erase stmt }

/-- A call of `agc_odbc_statement_handle_free` on a statement that the caller holds: it goes on to
hold what the call leaves in its variable. -/
def callFree (stmt : SqlHandle) : OdbcM Unit := do
  let w ← get
  if stmt ∈ w.held then
    take stmt
    let r ← agcOdbcStatementHandleFree (some stmt)
    hold r.2
  else
    return ()

/-- What a call does. -/
def Op.command : Op → OdbcM Unit
  | connect => callConnect
  | disconnect => callDisconnect
  | exec sql rstmt => do
    let r ← agcOdbcHandleExec sql rstmt
    hold r.stmt
  | execString sql => ignore (agcOdbcHandleExecString sql)
  | callbackExec sql callback => ignore (agcOdbcHandleCallbackExec sql callback)
  | statementHandleFree stmt => callFree stmt

/-- A new handle, before the first call. -/
def World.new (dsn : String) (numRetries : ℤ) (answers : List Answer) : World where
  handle := agcOdbcSetNumRetries (agcOdbcHandleNew dsn) numRetries
  answers := answers
  next := 0
  links := []
  held := []

/-- The calls of a sequence, one after the other. -/
def calls (w : World) (ops : List Op) : World × List Entry :=
  ops.foldl (fun s op => op.command.run s) (w, [])

/-- The calls, and the destruction of the handle at the end. -/
def life (w : World) (ops : List Op) : World × List Entry := agcOdbcHandleDestroy.run (calls w ops)

end Odbc
