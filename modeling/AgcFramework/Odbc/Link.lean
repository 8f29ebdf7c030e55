import AgcFramework.Odbc.Model

/-!
# The state of a database handle

The state in the record is written in two places: a connect that succeeds sets it to connected, and
a disconnect sets it to down. A connect that fails has disconnected first. So the record is in the
state connected exactly when the last connect succeeded and no disconnect followed, whatever the
driver manager answers. The connects are those of the caller and those of `db_is_up`; each is noted
by its caller, with the status that it returned.

## Main definitions

* `LinkInv J`: a condition on the state and the connects and disconnects so far
* `Tracks`: the state says how the last of them ended

## Main results

* `initOdbcHandles_env`: the status of `init_odbc_handles` tells whether there is an environment
* `connect_status`: the status of a connect tells whether the record is connected
* `keeps_callConnect`: a connect keeps the state right
* `tracks_calls`: the state is right behind every sequence of calls
-/

namespace Odbc

open Command

/-- A condition on the state and the connects and disconnects so far. -/
def LinkInv (J : AgcOdbcState → List Link → Prop) (w : World) : Prop := J w.handle.state w.links

variable {J : AgcOdbcState → List Link → Prop}

/-! ## The environment -/

section Env

variable {h : OdbcHandle}

/-- An allocation leaves the record alone, and stores a handle when it succeeds. -/
theorem sqlAllocHandle_stored (kind : HandleType) :
    Triple (fun _ => False) (fun w _ => w.handle = h) (sqlAllocHandle kind) fun a w _ =>
      w.handle = h ∧ a.handle.isSome = a.ret.ok := by
  refine Triple.bind (Q := fun _ w _ => w.handle = h) (fun w _ hw => Or.inl hw) fun a => ?_
  refine Triple.ite (fun ha => ?_) fun ha => ?_
  · refine Triple.bind (Q := fun y w _ => w.handle = h ∧ y.isSome) ?_ fun y => ?_
    · exact fun w _ hw => Or.inl ⟨hw, rfl⟩
    · exact Triple.pure fun w _ hw => ⟨hw.1, hw.2.trans ha.symm⟩
  · refine Triple.pure fun w _ hw => ⟨hw, ?_⟩
    simpa using ha

/-- The status tells whether there is an environment in the record. -/
def Told (s : AgcOdbcStatus) (w : World) (_ : List Entry) : Prop :=
  s = .success ↔ w.handle.env.isSome

theorem told_fail {w : World} {log : List Entry} (hw : w.handle.env = none) : Told .fail w log :=
  iff_of_false (fun h => by cases h) (by simp [hw])

theorem told_dropEnv {P : World → List Entry → Prop} :
    Triple (fun _ => False) P dropEnv Told :=
  fun _ _ _ => Or.inl (told_fail rfl)

theorem told_allocCon (henv : h.env.isSome) :
    Triple (fun _ => False) (fun w _ => w.handle = h) allocCon Told := by
  refine Triple.bind (Q := fun _ w _ => w.handle = h) (fun w _ hw => Or.inl hw) fun env => ?_
  refine Triple.bind (Q := fun _ w _ => w.handle = h) ?_ fun con => ?_
  · refine Triple.bind (Q := fun _ w _ => w.handle = h) (fun w _ hw => Or.inl hw) fun _ => ?_
    exact (sqlAllocHandle_stored .dbc).mono (fun _ _ hw => hw) fun _ _ _ hw => hw.1
  refine Triple.bind (Q := fun _ w _ => w.handle.env = h.env) ?_ fun _ => ?_
  · refine fun w _ hw => Or.inl ?_
    rw [← hw]
    rfl
  refine Triple.ite (fun _ w _ hw => Or.inl (iff_of_true rfl ?_)) fun _ => told_dropEnv
  change w.handle.env.isSome
  rw [hw]
  exact henv

theorem told_allocHandles {P : World → List Entry → Prop} :
    Triple (fun _ => False) P allocHandles Told := by
  intro w log _
  have hstored : Triple (fun _ => False) (fun v _ => v.handle = w.handle) allocHandles Told := by
    refine Triple.bind (sqlAllocHandle_stored .env) fun env => ?_
    refine Triple.of_pre (fun _ _ hw => hw.2) fun hsome => ?_
    refine Triple.bind (Q := fun _ v _ => v.handle = { w.handle with env := env.handle }) ?_
      fun _ => ?_
    · exact fun v _ hv => Or.inl (congrArg (fun h => { h with env := env.handle }) hv.1)
    refine Triple.ite (fun hok => ?_) fun _ v _ _ => Or.inl (told_fail rfl)
    refine Triple.bind (Q := fun _ v _ => v.handle = { w.handle with env := env.handle })
      (fun v _ hv => Or.inl hv) fun version => Triple.ite (fun _ => ?_) fun _ => told_dropEnv
    exact told_allocCon (hsome.trans hok)
  exact hstored w log rfl

/-- `init_odbc_handles` succeeds exactly when it leaves an environment in the record. -/
theorem initOdbcHandles_env (doReinit : Bool) (w : World) :
    (initOdbcHandles doReinit w).1 = .success ↔
      (initOdbcHandles doReinit w).2.1.handle.env.isSome := by
  have htold : Triple (fun _ => False) (fun _ _ => True) (initOdbcHandles doReinit) Told := by
    refine Triple.bind (Q := fun _ _ _ => True) (fun _ _ _ => Or.inl trivial) fun _ => ?_
    refine Triple.bind (Q := fun env v _ => v.handle.env = env) (fun _ _ _ => Or.inl rfl)
      fun env => ?_
    refine Triple.ite (fun henv => Triple.pure fun v _ hv => ?_) fun _ => told_allocHandles
    exact iff_of_true rfl (hv ▸ henv)
  exact (htold w [] trivial).resolve_right id

end Env

/-! ## Commands that are no connect and no disconnect -/

section Frame

instance (fn : SqlFn) (act : Ledger.Act (Option SqlHandle)) : Keeps (LinkInv J) (record fn act) :=
  ⟨fun _ hw => hw⟩

instance : Keeps (LinkInv J) answer := ⟨fun _ hw => hw⟩

instance (kind : HandleType) : Keeps (LinkInv J) (newHandle kind) := ⟨fun _ hw => hw⟩

instance {α : Type} (f : OdbcHandle → α) : Keeps (LinkInv J) (field f) := ⟨fun _ hw => hw⟩

instance (stmt : Option SqlHandle) : Keeps (LinkInv J) (hold stmt) := ⟨fun _ hw => hw⟩

instance (stmt : SqlHandle) : Keeps (LinkInv J) (take stmt) := ⟨fun _ hw => hw⟩

instance (e : Option SqlHandle) : Keeps (LinkInv J) (update ({ · with env := e })) :=
  ⟨fun _ hw => hw⟩

instance (c : Option SqlHandle) : Keeps (LinkInv J) (update ({ · with con := c })) :=
  ⟨fun _ hw => hw⟩

instance (n : ℤ) : Keeps (LinkInv J) (update ({ · with affectedRows := n })) := ⟨fun _ hw => hw⟩

instance {α : Type} (m : OdbcM α) [Keeps (LinkInv J) m] : Keeps (LinkInv J) (ignore m) := by
  unfold ignore
  infer_instance

instance (fn : SqlFn) (h : Option SqlHandle) : Keeps (LinkInv J) (sqlCall fn h) := by
  unfold sqlCall
  infer_instance

instance (h : Option SqlHandle) : Keeps (LinkInv J) (sqlFreeHandle h) := by
  unfold sqlFreeHandle
  infer_instance

instance (kind : HandleType) : Keeps (LinkInv J) (sqlAllocHandle kind) := by
  unfold sqlAllocHandle
  infer_instance

instance (kind : HandleType) (h : Option SqlHandle) :
    Keeps (LinkInv J) (sqlAllocHandleOn kind h) := by
  unfold sqlAllocHandleOn
  infer_instance

instance (stmt : Option SqlHandle) : Keeps (LinkInv J) (agcOdbcHandleGetError stmt) := by
  unfold agcOdbcHandleGetError
  infer_instance

instance : Keeps (LinkInv J) dropEnv := by
  unfold dropEnv
  infer_instance

instance : Keeps (LinkInv J) allocCon := by
  unfold allocCon
  infer_instance

instance : Keeps (LinkInv J) allocHandles := by
  unfold allocHandles
  infer_instance

instance (doReinit : Bool) : Keeps (LinkInv J) (initOdbcHandles doReinit) := by
  unfold initOdbcHandles reinit freeHandles
  infer_instance

instance : Keeps (LinkInv J) sqlConnect := by
  unfold sqlConnect
  infer_instance

instance : Keeps (LinkInv J) connectFailed := by
  unfold connectFailed
  infer_instance

instance (stmt : Option SqlHandle) : Keeps (LinkInv J) (freeStmt stmt) := by
  unfold freeStmt
  infer_instance

instance (stmt : Option SqlHandle) : Keeps (LinkInv J) (agcOdbcStatementHandleFree stmt) := by
  unfold agcOdbcStatementHandleFree
  infer_instance

instance (stmt : SqlHandle) : Keeps (LinkInv J) (callFree stmt) := by
  unfold callFree
  infer_instance

instance (stmt : Option SqlHandle) (sql : String) (ret : ℤ) :
    Keeps (LinkInv J) (probeStmt stmt sql ret) := by
  unfold probeStmt
  infer_instance

instance (ret : ℤ) : Keeps (LinkInv J) (probe ret) := by
  unfold probe
  infer_instance

instance (texts : ExecTexts) (sql : String) (stmt : Option SqlHandle) :
    Keeps (LinkInv J) (prepareExecute texts sql stmt) := by
  unfold prepareExecute
  infer_instance

instance (stmt : Option SqlHandle) (err : Option String) :
    Keeps (LinkInv J) (stmtError stmt err) := by
  unfold stmtError
  infer_instance

instance (stmt : Option SqlHandle) : Keeps (LinkInv J) (firstColumn stmt) := by
  unfold firstColumn
  infer_instance

instance (stmt : Option SqlHandle) (c : ℕ) : Keeps (LinkInv J) (columns stmt c) := by
  induction c with
  | zero =>
    unfold columns
    infer_instance
  | succ c ih =>
    unfold columns
    infer_instance

instance (stmt : Option SqlHandle) (c : ℕ) (callback : Callback) :
    Keeps (LinkInv J) (fetchRows stmt c callback) := by
  have hloop : ∀ rounds i, Keeps (LinkInv J) (fetchLoop stmt c callback rounds i) := by
    intro rounds
    induction rounds with
    | zero =>
      intro i
      unfold fetchLoop
      infer_instance
    | succ rounds ih =>
      intro i
      unfold fetchLoop
      infer_instance
  unfold fetchRows
  infer_instance

end Frame

/-! ## Connects and disconnects -/

/-- The state is connected when the last connect succeeded and no disconnect followed. -/
def Tracks : World → Prop :=
  LinkInv fun state links => state = .connected ↔ links.getLast? = some (.connect .success)

instance {α : Type} (m : OdbcM α) [hm : ∀ J, Keeps (LinkInv J) m] : Keeps Tracks m := hm _

instance keeps_callDisconnect : Keeps Tracks callDisconnect := by
  refine ⟨fun w _ => iff_of_false ?_ ?_⟩
  · change AgcOdbcState.down ≠ .connected
    decide
  · change (_ ++ [Link.disconnect .success]).getLast? ≠ _
    simp

/-- The record is not in the state connected. -/
def Offline : World → Prop := LinkInv fun state _ => state ≠ .connected

/-- The status of a connect tells whether the record is connected: a connect disconnects first when
the record is connected, and one that fails leaves the state alone. -/
theorem connect_status (w : World) :
    (agcOdbcHandleConnect w).1 = .success ↔
      (agcOdbcHandleConnect w).2.1.handle.state = .connected := by
  have hstatus : Triple (fun _ => False) (fun _ _ => True) agcOdbcHandleConnect fun status w _ =>
      status = .success ↔ w.handle.state = .connected := by
    refine Triple.bind (Q := fun _ _ _ => True) (fun _ _ _ => Or.inl trivial) fun _ => ?_
    refine Triple.bind (Q := fun state w _ => state = w.handle.state)
      (fun _ _ _ => Or.inl rfl) fun state => ?_
    refine Triple.bind (Q := fun _ w _ => Offline w) ?_ fun _ => ?_
    · refine Triple.ite (fun _ w _ _ => Or.inl ?_) fun hstate => Triple.pure ?_
      · change AgcOdbcState.down ≠ .connected
        decide
      · rintro w _ rfl
        exact hstate
    have hkeeps : Keeps Offline sqlConnect := inferInstanceAs (Keeps (LinkInv _) _)
    refine Triple.bind (hkeeps.triple _) fun result => Triple.ite (fun _ => ?_) fun _ => ?_
    · exact fun w _ _ => Or.inl (iff_of_true rfl rfl)
    · have hfailed : Keeps Offline connectFailed := inferInstanceAs (Keeps (LinkInv _) _)
      exact fun w _ hw => Or.inl (iff_of_false nofun (hfailed.keeps w hw))
  exact (hstatus w [] trivial).resolve_right id

instance keeps_callConnect : Keeps Tracks callConnect := by
  refine ⟨fun w _ => ?_⟩
  have hstatus := connect_status w
  change (agcOdbcHandleConnect w).2.1.handle.state = .connected ↔
    (_ ++ [Link.connect (agcOdbcHandleConnect w).1]).getLast? = _
  rw [List.getLast?_concat, Option.some.injEq, Link.connect.injEq]
  exact hstatus.symm

instance keeps_dbIsUpLoop (tries : ℕ) (ret : ℤ) : Keeps Tracks (dbIsUpLoop tries ret) := by
  induction tries generalizing ret with
  | zero =>
    unfold dbIsUpLoop
    infer_instance
  | succ tries ih =>
    unfold dbIsUpLoop
    infer_instance

instance (texts : ExecTexts) (sql : String) : Keeps Tracks (startStatement texts sql) := by
  unfold startStatement dbIsUp
  infer_instance

instance (sql : String) (rstmt : Bool) : Keeps Tracks (agcOdbcHandleExec sql rstmt) := by
  unfold agcOdbcHandleExec
  infer_instance

instance (sql : String) : Keeps Tracks (agcOdbcHandleExecString sql) := by
  unfold agcOdbcHandleExecString
  infer_instance

instance (sql : String) (callback : Callback) :
    Keeps Tracks (agcOdbcHandleCallbackExec sql callback) := by
  unfold agcOdbcHandleCallbackExec
  infer_instance

instance {α : Type} (m : OdbcM α) [Keeps Tracks m] : Keeps Tracks (ignore m) := by
  unfold ignore
  infer_instance

instance keeps_command (op : Op) : Keeps Tracks op.command := by
  cases op with
  | connect => exact keeps_callConnect
  | disconnect => exact keeps_callDisconnect
  | exec sql rstmt => exact inferInstanceAs (Keeps Tracks (_ >>= _))
  | execString sql => exact inferInstanceAs (Keeps Tracks (ignore _))
  | callbackExec sql callback => exact inferInstanceAs (Keeps Tracks (ignore _))
  | statementHandleFree stmt => exact inferInstanceAs (Keeps Tracks (callFree stmt))

/-- The state is right behind every sequence of calls on a new handle. -/
theorem tracks_calls (dsn : String) (numRetries : ℤ) (answers : List Answer) (ops : List Op) :
    Tracks (calls (.new dsn numRetries answers) ops).1 := by
  refine Keeps.foldl (f := Op.command) ops _ (iff_of_false ?_ ?_)
  · exact fun h => by cases h
  · exact fun h => by cases h

end Odbc
