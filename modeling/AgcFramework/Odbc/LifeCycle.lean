import AgcFramework.Odbc.Link

/-!
# The life cycle of a database handle

A handle of the driver manager must be live in every call that it is given to, and it must be given
back once. The record keeps its part of this: it has an environment exactly as long as its two
handles are live. But a connect and the allocation of a statement take the connection of the record
without a look at the environment. When the last `init_odbc_handles` failed they are given a
connection that was never made or that was given back.

The functions are specified with the live handles as an explicit list. A call that takes the
connection of a record without environment is the one way in which a life is lost.

## Main definitions

* `Initialised`: each call that takes the connection finds an environment in the record
* `Owns`, `Holds`: the live handles are those of a list
* `Settled`: they are those of the record and some statements
* `Orderly`: what is asked of a life that is over

## Main results

* `spec_connect`, `spec_dbIsUpLoop`, `spec_exec`, `spec_command`: each function leaves the handle
  settled, or the life is lost
* `fetchLoop_eq`: the loop over the rows ends
* `life_cycle_iff_initialised`: the lives that are in order
-/

namespace Odbc

open Ledger Command

/-! ## What is asked of a life -/

/-- What the calls of a log do to the handles of the driver manager. -/
def acts (log : List Entry) : List (Act (Option SqlHandle)) := log.map Entry.act

/-- A call that takes the connection of the record as it stands there: `SQLConnect`,
`SQLDriverConnect` and the `SQLAllocHandle` of a statement. -/
def Entry.takesCon (e : Entry) : Bool :=
  match e.fn, e.act with
  | .connect, .use _ | .driverConnect, .use _ | .allocHandle, .use _ => true
  | _, _ => false

/-- Each call that takes the connection finds an environment in the record: the last
`init_odbc_handles` before it succeeded. -/
def Initialised (log : List Entry) : Prop := ∀ e ∈ log, e.takesCon → e.env.isSome

instance (log : List Entry) : Decidable (Initialised log) :=
  inferInstanceAs (Decidable (∀ e ∈ log, _))

/-- A call took the connection of a record without environment, and a call was given a handle that
is not live. -/
def Lost (log : List Entry) : Prop := ¬ Initialised log ∧ ¬ Sound (acts log)

variable {log log' : List Entry} {e : Entry}

theorem initialised_append :
    Initialised (log ++ log') ↔ Initialised log ∧ Initialised log' := List.forall_mem_append

theorem initialised_singleton : Initialised [e] ↔ (e.takesCon → e.env.isSome) := by
  simp [Initialised]

theorem acts_append : acts (log ++ log') = acts log ++ acts log' := List.map_append

instance : Sticky Lost where
  append log' := by
    rintro ⟨hinit, hsound⟩
    refine ⟨fun h => hinit (initialised_append.mp h).1, fun h => hsound ?_⟩
    rw [acts_append] at h
    exact h.of_append

/-! ## The live handles -/

/-- The live handles are those of the list. -/
structure Owns (l : List SqlHandle) (w : World) (log : List Entry) : Prop where
  initialised : Initialised log
  fresh : ∀ x, .alloc (some x) ∈ acts log → x.2 < w.next
  ledger : Ledger.Owns (fun _ => True) (acts log) (l.map some)

variable {w : World} {h : OdbcHandle} {k l l' : List SqlHandle} {x : SqlHandle}

theorem Owns.perm (hw : Owns l w log) (hl : l.Perm l') : Owns l' w log :=
  ⟨hw.initialised, hw.fresh, hw.ledger.perm (hl.map some)⟩

theorem Owns.of_next {w' : World} (hw : Owns l w log) (hnext : w'.next = w.next) : Owns l w' log :=
  ⟨hw.initialised, hnext ▸ hw.fresh, hw.ledger⟩

theorem Owns.sound (hw : Owns l w log) : Sound (acts log) := hw.ledger.sound

theorem Owns.live (hw : Owns l w log) {y : Option SqlHandle} :
    Live (acts log) y ↔ ∃ x ∈ l, some x = y := by
  rw [hw.ledger.live y trivial, List.mem_map]

theorem acts_snoc : acts (log ++ [e]) = acts log ++ [e.act] := acts_append

/-- A call on a live handle. -/
theorem Owns.use (hw : Owns l w log) (hx : x ∈ l) (he : e.act = .use (some x))
    (hcon : e.takesCon → e.env.isSome) : Owns l w (log ++ [e]) := by
  refine ⟨initialised_append.mpr ⟨hw.initialised, initialised_singleton.mpr hcon⟩, ?_, ?_⟩
  · rw [acts_snoc, he]
    simpa using hw.fresh
  · rw [acts_snoc, he]
    exact hw.ledger.use (List.mem_map_of_mem hx)

/-- A live handle is given back. -/
theorem Owns.free (hw : Owns (x :: l) w log) (he : e.act = .free (some x))
    (hcon : e.takesCon = false) : Owns l w (log ++ [e]) := by
  refine ⟨initialised_append.mpr ⟨hw.initialised, ?_⟩, ?_, ?_⟩
  · simp [initialised_singleton, hcon]
  · rw [acts_snoc, he]
    simpa using hw.fresh
  · rw [acts_snoc, he]
    exact hw.ledger.free

/-- A new handle is live. -/
theorem Owns.alloc {w' : World} (hw : Owns l w log) (hx : x.2 = w.next)
    (hnext : w'.next = w.next + 1) (he : e.act = .alloc (some x)) (hcon : e.takesCon = false) :
    Owns (x :: l) w' (log ++ [e]) := by
  have hnew : .alloc (some x) ∉ acts log := by
    intro h
    have := hw.fresh x h
    omega
  refine ⟨initialised_append.mpr ⟨hw.initialised, ?_⟩, fun y hy => ?_, ?_⟩
  · simp [initialised_singleton, hcon]
  · rw [acts_snoc, he, List.mem_append, List.mem_singleton] at hy
    rcases hy with hy | hy
    · have := hw.fresh y hy
      omega
    · obtain rfl : y = x := Option.some.inj (Act.alloc.inj hy)
      omega
  · rw [acts_snoc, he]
    exact hw.ledger.alloc trivial hnew

/-- A call takes a connection that is not live, and the record has no environment. -/
theorem Owns.lost (hw : Owns l w log) {y : Option SqlHandle} (hy : ∀ x ∈ l, y ≠ some x)
    (he : e.act = .use y) (hcon : e.takesCon) (henv : e.env = none) : Lost (log ++ [e]) := by
  constructor
  · intro h
    have := initialised_singleton.mp (initialised_append.mp h).2 hcon
    rw [henv] at this
    cases this
  · intro h
    rw [acts_snoc, he, sound_snoc] at h
    obtain ⟨z, hz, hyz⟩ := hw.live.mp h.2
    exact hy z hz hyz.symm

/-! ## The calls -/

/-- The record and the statements in the caller's hands are these, and the live handles are those of
the list. -/
structure Holds (h : OdbcHandle) (k l : List SqlHandle) (w : World) (log : List Entry) : Prop where
  handle : w.handle = h
  held : w.held = k
  owns : Owns l w log

/-- A specification of a command. -/
abbrev Spec {α : Type} (P : World → List Entry → Prop) (m : OdbcM α)
    (Q : α → World → List Entry → Prop) : Prop :=
  Triple Lost P m Q

theorem Holds.perm (hw : Holds h k l w log) (hl : l.Perm l') : Holds h k l' w log :=
  ⟨hw.handle, hw.held, hw.owns.perm hl⟩

/-- A read of the record. -/
theorem spec_field {α β : Type} {f : OdbcHandle → α} {c : α → OdbcM β}
    {Q : β → World → List Entry → Prop} (hc : Spec (Holds h k l) (c (f h)) Q) :
    Spec (Holds h k l) (field f >>= c) Q := by
  rintro w log hw
  obtain rfl := hw.handle
  exact hc w log hw

theorem spec_update (f : OdbcHandle → OdbcHandle) :
    Spec (Holds h k l) (update f) fun _ => Holds (f h) k l := by
  refine Triple.modify fun w log hw => ?_
  exact ⟨congrArg f hw.handle, hw.held, hw.owns.of_next rfl⟩

theorem spec_note (link : Link) : Spec (Holds h k l) (note link) fun _ => Holds h k l := by
  exact Triple.modify fun w log hw => ⟨hw.handle, hw.held, hw.owns.of_next rfl⟩

theorem spec_answer : Spec (Holds h k l) answer fun _ => Holds h k l := by
  refine Triple.bind (Triple.get fun _ _ hw => hw) fun _ => ?_
  refine Triple.bind (Q := fun _ => Holds h k l) (Triple.modify fun w log hw => ?_) fun _ => ?_
  · exact ⟨hw.handle, hw.held, hw.owns.of_next rfl⟩
  · exact Triple.pure fun _ _ hw => hw

theorem spec_ignore {α : Type} {m : OdbcM α} {P Q : World → List Entry → Prop}
    (hm : Spec P m fun _ => Q) : Spec P (ignore m) fun _ => Q :=
  Triple.bind hm fun _ => Triple.pure fun _ _ hw => hw

/-- A call on a live handle, which does not take the connection of a record without environment. -/
theorem spec_use {fn : SqlFn} (hx : x ∈ l)
    (hcon : Entry.takesCon ⟨fn, .use (some x), h.env⟩ → h.env.isSome) :
    Spec (Holds h k l) (record fn (.use (some x))) fun _ => Holds h k l := by
  refine Triple.tell fun w log hw => Or.inl ⟨hw.handle, hw.held, hw.owns.use hx rfl ?_⟩
  rw [hw.handle]
  exact hcon

theorem spec_sqlCall {fn : SqlFn} (hx : x ∈ l)
    (hcon : Entry.takesCon ⟨fn, .use (some x), h.env⟩ → h.env.isSome) :
    Spec (Holds h k l) (sqlCall fn (some x)) fun _ => Holds h k l :=
  Triple.bind (spec_use hx hcon) fun _ => spec_answer

theorem spec_sqlFreeHandle :
    Spec (Holds h k (x :: l)) (sqlFreeHandle (some x)) fun _ => Holds h k l := by
  refine Triple.bind (Q := fun _ => Holds h k l) ?_ fun _ => spec_ignore spec_answer
  refine Triple.tell fun w log hw => Or.inl ⟨hw.handle, hw.held, hw.owns.free rfl rfl⟩

/-- What an allocation stores is live behind it. -/
structure Made (kind : HandleType) (h : OdbcHandle) (k l : List SqlHandle) (a : Alloc) (w : World)
    (log : List Entry) : Prop where
  isSome : a.handle.isSome = a.ret.ok
  kind : ∀ x ∈ a.handle, x.1 = kind
  holds : Holds h k (a.handle.toList ++ l) w log

theorem spec_newHandle (kind : HandleType) : Spec (Holds h k l) (newHandle kind) fun y w log =>
    ∃ x, y = some x ∧ x.1 = kind ∧ Holds h k (x :: l) w log := by
  rintro w log hw
  refine Or.inl ⟨(kind, w.next), rfl, rfl, hw.handle, hw.held, ?_⟩
  exact hw.owns.alloc rfl rfl rfl rfl

theorem spec_sqlAllocHandle (kind : HandleType) :
    Spec (Holds h k l) (sqlAllocHandle kind) (Made kind h k l) := by
  refine Triple.bind spec_answer fun a => Triple.ite (fun ha => ?_) fun ha => ?_
  · refine Triple.bind (spec_newHandle kind) fun y => Triple.pure ?_
    rintro w log ⟨x, rfl, hkind, hw⟩
    refine ⟨ha.symm, ?_, hw⟩
    rintro z ⟨⟩
    exact hkind
  · refine Triple.pure fun w log hw => ⟨?_, ?_, hw⟩
    · simpa using ha
    · rintro z ⟨⟩

theorem spec_of_made {kind : HandleType} {α : Type} {a : Alloc} {m : OdbcM α}
    {Q : α → World → List Entry → Prop}
    (hm : a.handle.isSome = a.ret.ok → (∀ x ∈ a.handle, x.1 = kind) →
      Spec (Holds h k (a.handle.toList ++ l)) m Q) :
    Spec (Made kind h k l a) m Q :=
  fun w log hw => hm hw.isSome hw.kind w log hw.holds

/-! ## The environment and the connection -/

/-- The handles of the record: the environment and the connection, as long as there is an
environment. -/
def OdbcHandle.handles (h : OdbcHandle) : List SqlHandle :=
  if h.env.isSome then h.env.toList ++ h.con.toList else []

/-- A record as the functions leave it: with the environment there is a connection, and without an
environment the handle is not connected. -/
structure OdbcHandle.Wf (h : OdbcHandle) : Prop where
  con_of_env : h.env.isSome → h.con.isSome
  env_of_connected : h.state = .connected → h.env.isSome
  kind : ∀ x ∈ h.con, x.1 = .dbc

/-- Between two functions: the live handles are those of the record and the statements of the
list. -/
def Settled (k l : List SqlHandle) (w : World) (log : List Entry) : Prop :=
  ∃ h : OdbcHandle, h.Wf ∧ Holds h k (h.handles ++ l) w log

/-- The handle is settled and not connected. -/
def Down (k l : List SqlHandle) (w : World) (log : List Entry) : Prop :=
  ∃ h : OdbcHandle, (h.Wf ∧ h.state ≠ .connected) ∧ Holds h k (h.handles ++ l) w log

/-- The handle is settled and its connection is live. -/
def Ready (k l : List SqlHandle) (w : World) (log : List Entry) : Prop :=
  ∃ h : OdbcHandle, (h.Wf ∧ h.env.isSome) ∧ Holds h k (h.handles ++ l) w log

theorem Down.settled (hw : Down k l w log) : Settled k l w log := by
  obtain ⟨h, ⟨hwf, -⟩, hw⟩ := hw
  exact ⟨h, hwf, hw⟩

theorem Ready.settled (hw : Ready k l w log) : Settled k l w log := by
  obtain ⟨h, ⟨hwf, -⟩, hw⟩ := hw
  exact ⟨h, hwf, hw⟩

/-- A precondition that speaks about the record. -/
theorem spec_of_record {α : Type} {p : OdbcHandle → Prop} {l : OdbcHandle → List SqlHandle}
    {m : OdbcM α} {Q : α → World → List Entry → Prop}
    (hm : ∀ h, p h → Spec (Holds h k (l h)) m Q) :
    Spec (fun w log => ∃ h, p h ∧ Holds h k (l h) w log) m Q := by
  rintro w log ⟨h, hp, hw⟩
  exact hm h hp w log hw

theorem OdbcHandle.Wf.exists_of_env (hwf : h.Wf) (henv : h.env.isSome) :
    ∃ e c, h.env = some e ∧ h.con = some c ∧ h.handles = [e, c] := by
  obtain ⟨e, he⟩ := Option.isSome_iff_exists.mp henv
  obtain ⟨c, hc⟩ := Option.isSome_iff_exists.mp (hwf.con_of_env henv)
  exact ⟨e, c, he, hc, by simp [OdbcHandle.handles, he, hc]⟩

theorem OdbcHandle.handles_of_env (henv : h.env = none) : h.handles = [] := by
  simp [OdbcHandle.handles, henv]

/-- A call that takes the connection finds it live, or the life is lost. -/
theorem spec_takeCon {fn : SqlFn} (hwf : h.Wf) (hl : ∀ x ∈ l, x.1 = .stmt)
    (hcon : Entry.takesCon ⟨fn, .use h.con, h.env⟩) :
    Spec (Holds h k (h.handles ++ l)) (record fn (.use h.con)) fun _ w log =>
      h.env.isSome ∧ Holds h k (h.handles ++ l) w log := by
  rcases henv : h.env with _ | e
  · -- the connection is no statement, so it is not live
    refine Triple.tell fun w log hw => Or.inr ?_
    obtain rfl := hw.handle
    refine hw.owns.lost (fun x hx hxc => ?_) rfl hcon henv
    rw [OdbcHandle.handles_of_env henv, List.nil_append] at hx
    have hstmt := hl x hx
    rw [hwf.kind x hxc] at hstmt
    cases hstmt
  · have hsome : h.env.isSome := henv ▸ rfl
    obtain ⟨e, c, -, hc, hhandles⟩ := hwf.exists_of_env hsome
    rw [hc]
    refine (spec_use (by simp [hhandles]) fun _ => hsome).mono (fun _ _ hw => hw) ?_
    exact fun _ _ _ hw => ⟨rfl, hw⟩

/-- The two handles are given back. -/
theorem spec_freeHandles (hwf : h.Wf) (henv : h.env.isSome) :
    Spec (Holds h k (h.handles ++ l)) freeHandles fun _ => Holds h k l := by
  obtain ⟨e, c, he, hc, hhandles⟩ := hwf.exists_of_env henv
  rw [hhandles]
  refine spec_field (Triple.bind (Q := fun _ => Holds h k (e :: l)) ?_ fun _ => spec_field ?_)
  · rw [hc]
    exact spec_sqlFreeHandle.mono (fun _ _ hw => hw.perm (List.Perm.swap c e l)) fun _ _ _ hw => hw
  · rw [he]
    exact spec_sqlFreeHandle

theorem OdbcHandle.Wf.dropEnv (hkind : ∀ x ∈ h.con, x.1 = .dbc) (hstate : h.state ≠ .connected) :
    OdbcHandle.Wf { h with env := none } where
  con_of_env henv := by cases henv
  env_of_connected hs := absurd hs hstate
  kind := hkind

theorem spec_reinit : Spec (Down k l) reinit fun _ w log =>
    ∃ h, ((h.Wf ∧ h.state ≠ .connected) ∧ h.env = none) ∧ Holds h k l w log := by
  refine spec_of_record fun h ⟨hwf, hstate⟩ => spec_field ?_
  refine Triple.ite (fun henv => ?_) fun henv => ?_
  · refine Triple.bind (spec_freeHandles hwf henv) fun _ => ?_
    refine (spec_update _).mono (fun _ _ hw => hw) fun _ w log hw => ?_
    exact ⟨_, ⟨⟨.dropEnv hwf.kind hstate, hstate⟩, rfl⟩, hw⟩
  · have henv : h.env = none := by simpa using henv
    rw [OdbcHandle.handles_of_env henv]
    exact Triple.pure fun w log hw => ⟨h, ⟨⟨hwf, hstate⟩, henv⟩, hw⟩

theorem spec_dropEnv {e : SqlHandle} (he : h.env = some e) (hkind : ∀ x ∈ h.con, x.1 = .dbc)
    (hstate : h.state ≠ .connected) :
    Spec (Holds h k (e :: l)) dropEnv fun _ => Down k l := by
  refine spec_field (Triple.bind (Q := fun _ => Holds h k l) ?_ fun _ => ?_)
  · rw [he]
    exact spec_sqlFreeHandle
  · refine Triple.bind (spec_update _) fun _ => Triple.pure fun w log hw => ?_
    exact ⟨_, ⟨.dropEnv hkind hstate, hstate⟩, hw⟩

theorem spec_allocCon {e : SqlHandle} (he : h.env = some e) (hstate : h.state ≠ .connected) :
    Spec (Holds h k (e :: l)) allocCon fun _ => Down k l := by
  refine spec_field (Triple.bind (Q := Made .dbc h k (e :: l)) ?_ fun a => ?_)
  · rw [he]
    refine Triple.bind (spec_use List.mem_cons_self fun _ => ?_) fun _ => spec_sqlAllocHandle .dbc
    rw [he]
    rfl
  · refine spec_of_made fun hsome hkind => Triple.bind (spec_update _) fun _ => ?_
    refine Triple.ite (fun hok => ?_) fun hok => ?_
    · obtain ⟨c, hc⟩ := Option.isSome_iff_exists.mp (hsome.trans hok)
      simp only [hc, Option.toList_some, List.singleton_append] at hkind ⊢
      refine Triple.bind (spec_sqlCall List.mem_cons_self fun h => by cases h) fun _ => ?_
      refine Triple.pure fun w log hw =>
        ⟨{ h with con := some c }, ⟨⟨fun _ => rfl, ?_, hkind⟩, hstate⟩, ?_⟩
      · exact fun hs => absurd hs hstate
      · refine hw.perm ?_
        simpa [OdbcHandle.handles, he] using List.Perm.swap e c l
    · have hnone : a.handle = none := by simpa [hok] using hsome
      simp only [hnone, Option.toList_none, List.nil_append]
      exact spec_dropEnv he (by simp) hstate

theorem spec_allocHandles (hwf : h.Wf) (henv : h.env = none) :
    Spec (Holds h k l) allocHandles fun _ => Down k l := by
  have hstate : h.state ≠ .connected := by
    intro hs
    have := hwf.env_of_connected hs
    rw [henv] at this
    cases this
  refine Triple.bind (spec_sqlAllocHandle .env) fun a => spec_of_made fun hsome hkind => ?_
  refine Triple.bind (spec_update _) fun _ => Triple.ite (fun hok => ?_) fun hok => ?_
  · obtain ⟨e, he⟩ := Option.isSome_iff_exists.mp (hsome.trans hok)
    simp only [he, Option.toList_some, List.singleton_append]
    refine Triple.bind (spec_sqlCall List.mem_cons_self fun h => by cases h) fun version => ?_
    refine Triple.ite (fun _ => ?_) fun _ => ?_
    · exact spec_allocCon rfl hstate
    · exact spec_dropEnv rfl hwf.kind hstate
  · have hnone : a.handle = none := by simpa [hok] using hsome
    simp only [hnone, Option.toList_none, List.nil_append]
    refine Triple.bind (spec_update _) fun _ => Triple.pure fun w log hw => ?_
    exact ⟨_, ⟨.dropEnv hwf.kind hstate, hstate⟩, hw⟩

/-- `init_odbc_handles` behind a failed connect. -/
theorem spec_initOdbcHandles_true : Spec (Down k l) (initOdbcHandles true) fun _ => Down k l := by
  refine Triple.bind spec_reinit fun _ => spec_of_record fun h ⟨⟨hwf, hstate⟩, henv⟩ => ?_
  refine spec_field (Triple.ite (fun hsome => ?_) fun _ => spec_allocHandles hwf henv)
  rw [henv] at hsome
  cases hsome

/-- `init_odbc_handles` before a connect. -/
theorem spec_initOdbcHandles_false :
    Spec (Settled k l) (initOdbcHandles false) fun _ => Settled k l := by
  refine Triple.bind (Q := fun _ => Settled k l) (Triple.pure fun _ _ hw => hw) fun _ => ?_
  refine spec_of_record fun h hwf => spec_field (Triple.ite (fun henv => ?_) fun henv => ?_)
  · exact Triple.pure fun w log hw => ⟨h, hwf, hw⟩
  · have henv : h.env = none := by simpa using henv
    rw [OdbcHandle.handles_of_env henv]
    exact (spec_allocHandles hwf henv).mono (fun _ _ hw => hw) fun _ _ _ hw => hw.settled

/-! ## Connecting -/

theorem spec_disconnect : Spec (Settled k l) agcOdbcHandleDisconnect fun _ => Down k l := by
  refine spec_of_record fun h hwf => spec_field (spec_field ?_)
  refine Triple.bind (Q := fun _ => Holds h k (h.handles ++ l)) ?_ fun _ => ?_
  · refine Triple.ite (fun hs => spec_ignore ?_) fun _ => Triple.pure fun _ _ hw => hw
    obtain ⟨e, c, he, hc, hhandles⟩ := hwf.exists_of_env (hwf.env_of_connected hs)
    rw [hc]
    exact spec_sqlCall (by simp [hhandles]) fun h => by cases h
  · refine Triple.bind (spec_update _) fun _ => ?_
    refine Triple.pure fun w log hw =>
      ⟨{ h with state := .down }, ⟨⟨hwf.con_of_env, ?_, hwf.kind⟩, ?_⟩, hw⟩
    · intro hs
      cases hs
    · intro hs
      cases hs

theorem spec_callDisconnect : Spec (Settled k l) callDisconnect fun _ => Down k l :=
  Triple.bind spec_disconnect fun _ => spec_of_record fun h hh =>
    (spec_note _).mono (fun _ _ hw => hw) fun _ _ _ hw => ⟨h, hh, hw⟩

/-- The error of a statement, or of the connection. -/
theorem spec_getError {stmt : Option SqlHandle} (hwf : h.Wf) (henv : h.env.isSome)
    (hstmt : ∀ x ∈ stmt, x ∈ l) :
    Spec (Holds h k (h.handles ++ l)) (agcOdbcHandleGetError stmt) fun _ =>
      Holds h k (h.handles ++ l) := by
  obtain ⟨e, c, he, hc, hhandles⟩ := hwf.exists_of_env henv
  refine spec_field (spec_field ?_)
  refine Triple.bind (Q := fun _ => Holds h k (h.handles ++ l)) ?_ fun _ => ?_
  · rw [he]
    exact spec_use (by simp [hhandles]) fun h => by cases h
  refine Triple.bind (Q := fun _ => Holds h k (h.handles ++ l)) ?_ fun _ => ?_
  · rw [hc]
    exact spec_use (by simp [hhandles]) fun h => by cases h
  refine Triple.bind (Q := fun _ => Holds h k (h.handles ++ l)) ?_ fun _ => ?_
  · refine Triple.ite (fun hsome => ?_) fun _ => Triple.pure fun _ _ hw => hw
    obtain ⟨x, rfl⟩ := Option.isSome_iff_exists.mp hsome
    exact spec_use (List.mem_append_right _ (hstmt x rfl)) fun h => by cases h
  · refine Triple.bind spec_answer fun a => Triple.ite (fun _ => ?_) fun _ => ?_
    · exact Triple.pure fun _ _ hw => hw
    · exact Triple.pure fun _ _ hw => hw

/-- The record after a change that leaves the environment and the connection alone. -/
theorem Ready.of_same {h' : OdbcHandle} (hw : Holds h' k (h.handles ++ l) w log) (hwf : h.Wf)
    (henv : h.env.isSome) (hsame : h'.env = h.env ∧ h'.con = h.con) : Ready k l w log := by
  have hhandles : h.handles = h'.handles := by
    rw [OdbcHandle.handles, OdbcHandle.handles, hsame.1, hsame.2]
  refine ⟨h', ⟨⟨fun _ => ?_, fun _ => ?_, ?_⟩, ?_⟩, hhandles ▸ hw⟩
  · rw [hsame.2]
    exact hwf.con_of_env henv
  · rw [hsame.1]
    exact henv
  · rw [hsame.2]
    exact hwf.kind
  · rw [hsame.1]
    exact henv

theorem OdbcHandle.classify_same (h : OdbcHandle) :
    h.classify.env = h.env ∧ h.classify.con = h.con := by
  unfold OdbcHandle.classify
  split_ifs
  · exact ⟨rfl, rfl⟩
  · exact ⟨rfl, rfl⟩
  · exact ⟨rfl, rfl⟩

theorem spec_connected (hwf : h.Wf) (henv : h.env.isSome) :
    Spec (Holds h k (h.handles ++ l)) connected fun _ => Ready k l := by
  obtain ⟨e, c, he, hc, hhandles⟩ := hwf.exists_of_env henv
  refine spec_field (Triple.bind (Q := fun _ => Holds h k (h.handles ++ l)) ?_ fun info => ?_)
  · rw [hc]
    exact spec_sqlCall (by simp [hhandles]) fun h => by cases h
  refine Triple.bind (spec_update _) fun _ => Triple.bind (spec_update _) fun _ => ?_
  refine Triple.bind (spec_update _) fun _ => ?_
  refine Triple.pure fun w log hw => .of_same hw hwf henv ?_
  -- neither the name of the driver nor its kind is a handle
  rw [(OdbcHandle.classify_same _).1, (OdbcHandle.classify_same _).2]
  split
  · exact ⟨rfl, rfl⟩
  · exact ⟨rfl, rfl⟩

theorem spec_connectFailed (hwf : h.Wf) (henv : h.env.isSome) (hstate : h.state ≠ .connected) :
    Spec (Holds h k (h.handles ++ l)) connectFailed fun _ => Down k l := by
  obtain ⟨e, c, he, hc, hhandles⟩ := hwf.exists_of_env henv
  refine spec_field (Triple.bind (spec_getError hwf henv (by simp)) fun errStr => ?_)
  refine Triple.bind (Q := fun _ => Holds h k (h.handles ++ l)) ?_ fun _ => ?_
  · refine Triple.ite (fun _ => Triple.pure fun _ _ hw => hw) fun _ => spec_ignore ?_
    rw [hc]
    exact spec_sqlCall (by simp [hhandles]) fun h => by cases h
  have hdown : Spec (Holds h k (h.handles ++ l)) (initOdbcHandles true) fun _ => Down k l :=
    spec_initOdbcHandles_true.mono (fun _ _ hw => ⟨h, ⟨hwf, hstate⟩, hw⟩) fun _ _ _ hw => hw
  exact Triple.bind hdown fun _ => Triple.pure fun _ _ hw => hw

/-- The connect itself: from here on the life is lost, or there is a connection. -/
theorem spec_sqlConnect (hwf : h.Wf) (hl : ∀ x ∈ l, x.1 = .stmt) :
    Spec (Holds h k (h.handles ++ l)) sqlConnect fun _ w log =>
      h.env.isSome ∧ Holds h k (h.handles ++ l) w log := by
  refine spec_field (spec_field (Triple.bind (spec_takeCon hwf hl ?_) fun _ => ?_))
  · split
    · rfl
    · rfl
  · exact Triple.of_pre (fun _ _ hw => hw.1) fun henv =>
      spec_answer.mono (fun _ _ hw => hw.2) fun _ _ _ hw => ⟨henv, hw⟩

theorem spec_connect (hl : ∀ x ∈ l, x.1 = .stmt) :
    Spec (Settled k l) agcOdbcHandleConnect fun _ => Settled k l := by
  refine Triple.bind spec_initOdbcHandles_false fun _ => ?_
  refine spec_of_record fun h hwf => spec_field ?_
  have hreconnect : Spec (Holds h k (h.handles ++ l))
      (if h.state = .connected then callDisconnect else pure ())
      fun _ => Down k l := by
    refine Triple.ite (fun _ => ?_) fun hstate => ?_
    · exact spec_callDisconnect.mono (fun _ _ hw => ⟨h, hwf, hw⟩) fun _ _ _ hw => hw
    · exact Triple.pure fun w log hw => ⟨h, ⟨hwf, hstate⟩, hw⟩
  refine Triple.bind hreconnect fun _ => spec_of_record fun h ⟨hwf, hstate⟩ => ?_
  refine Triple.bind (spec_sqlConnect hwf hl) fun result => ?_
  refine Triple.of_pre (fun _ _ hw => hw.1) fun henv => Triple.ite (fun _ => ?_) fun _ => ?_
  · exact (spec_connected hwf henv).mono (fun _ _ hw => hw.2) fun _ _ _ hw => hw.settled
  · exact (spec_connectFailed hwf henv hstate).mono (fun _ _ hw => hw.2) fun _ _ _ hw => hw.settled

theorem spec_callConnect (hl : ∀ x ∈ l, x.1 = .stmt) :
    Spec (Settled k l) callConnect fun _ => Settled k l :=
  Triple.bind (spec_connect hl) fun _ => spec_of_record fun h hwf =>
    (spec_note _).mono (fun _ _ hw => hw) fun _ _ _ hw => ⟨h, hwf, hw⟩

/-- The end of the life: what is still live are the statements of the caller. -/
theorem spec_destroy : Spec (Settled k l) agcOdbcHandleDestroy fun _ w log =>
    w.held = k ∧ Owns l w log := by
  refine Triple.bind spec_callDisconnect fun _ => spec_of_record fun h ⟨hwf, _⟩ => spec_field ?_
  refine Triple.ite (fun henv => ?_) fun henv => ?_
  · exact (spec_freeHandles hwf henv).mono (fun _ _ hw => hw) fun _ _ _ hw => ⟨hw.held, hw.owns⟩
  · rw [OdbcHandle.handles_of_env (by simpa using henv)]
    exact Triple.pure fun w log hw => ⟨hw.held, hw.owns⟩

/-! ## Statements -/

/-- A call on a statement that is live. -/
theorem spec_stmtCall {fn : SqlFn} (hfn : fn ≠ .connect ∧ fn ≠ .driverConnect ∧ fn ≠ .allocHandle)
    (hx : x ∈ l) : Spec (Holds h k l) (sqlCall fn (some x)) fun _ => Holds h k l := by
  refine spec_sqlCall hx fun hcon => ?_
  obtain ⟨h₁, h₂, h₃⟩ := hfn
  cases fn with
  | connect => exact absurd rfl h₁
  | driverConnect => exact absurd rfl h₂
  | allocHandle => exact absurd rfl h₃
  | _ => cases hcon

theorem spec_freeStmt (stmt : Option SqlHandle) :
    Spec (Holds h k (h.handles ++ (stmt.toList ++ l))) (freeStmt stmt) fun _ =>
      Holds h k (h.handles ++ l) := by
  refine Triple.ite (fun hsome => ?_) fun hsome => ?_
  · obtain ⟨x, rfl⟩ := Option.isSome_iff_exists.mp hsome
    exact spec_sqlFreeHandle.mono (fun _ _ hw => hw.perm List.perm_middle) fun _ _ _ hw => hw
  · obtain rfl : stmt = none := by simpa using hsome
    exact Triple.pure fun _ _ hw => hw

/-- A statement is allocated on a live connection, or the life is lost. -/
theorem spec_allocStmt (hwf : h.Wf) (hl : ∀ x ∈ l, x.1 = .stmt) :
    Spec (Holds h k (h.handles ++ l)) (sqlAllocHandleOn .stmt h.con) fun a w log =>
      (h.env.isSome ∧ a.handle.isSome = a.ret.ok ∧ ∀ x ∈ a.handle, x.1 = .stmt) ∧
      Holds h k (h.handles ++ (a.handle.toList ++ l)) w log := by
  refine Triple.bind (spec_takeCon hwf hl rfl) fun _ => Triple.of_pre (fun _ _ hw => hw.1) ?_
  intro henv
  refine (spec_sqlAllocHandle .stmt).mono (fun _ _ hw => hw.2) fun a w log hw => ?_
  refine ⟨⟨henv, hw.isSome, hw.kind⟩, hw.holds.perm ?_⟩
  rw [← List.append_assoc, ← List.append_assoc]
  exact List.perm_append_comm.append_right l

theorem spec_probeStmt {sql : String} {ret : ℤ} (hx : x ∈ l) :
    Spec (Holds h k l) (probeStmt (some x) sql ret) fun p w log =>
      p.stmt = some x ∧ Holds h k l w log := by
  refine Triple.bind (spec_stmtCall (by simp) hx) fun _ => ?_
  refine Triple.bind (spec_stmtCall (by simp) hx) fun prepared => ?_
  refine Triple.ite (fun _ => Triple.pure fun _ _ hw => ⟨rfl, hw⟩) fun _ => ?_
  refine Triple.bind (spec_stmtCall (by simp) hx) fun executed => ?_
  refine Triple.ite (fun _ => Triple.pure fun _ _ hw => ⟨rfl, hw⟩) fun _ => ?_
  refine Triple.bind (spec_stmtCall (by simp) hx) fun _ => ?_
  refine Triple.bind (spec_stmtCall (by simp) hx) fun cols => ?_
  refine Triple.ite (fun _ => Triple.pure fun _ _ hw => ⟨rfl, hw⟩) fun _ => ?_
  exact Triple.pure fun _ _ hw => ⟨rfl, hw⟩

/-- A try of `db_is_up` has its statement on a live connection. -/
theorem spec_probe (hl : ∀ x ∈ l, x.1 = .stmt) (ret : ℤ) :
    Spec (Settled k l) (probe ret) fun p w log =>
      (∀ x ∈ p.stmt, x.1 = .stmt) ∧ Ready k (p.stmt.toList ++ l) w log := by
  refine spec_of_record fun h hwf => spec_field (spec_field ?_)
  refine Triple.bind (spec_allocStmt hwf hl) fun stmt => Triple.of_pre (fun _ _ hw => hw.1) ?_
  rintro ⟨henv, hsome, hkind⟩
  refine Triple.ite (fun _ => Triple.pure fun w log hw => ⟨hkind, h, ⟨hwf, henv⟩, hw.2⟩) ?_
  intro hret
  have hret : stmt.ret = .success := by simpa using hret
  obtain ⟨x, hx⟩ := Option.isSome_iff_exists.mp (hsome.trans (by rw [hret]; rfl))
  rw [hx] at hkind ⊢
  refine (spec_probeStmt (x := x) (by simp)).mono (fun _ _ hw => hw.2) fun p w log hw => ?_
  obtain ⟨hp, hw⟩ := hw
  rw [hp]
  exact ⟨hkind, h, ⟨hwf, henv⟩, hw⟩

/-- The tries: each leaves the handle settled. -/
theorem spec_dbIsUpLoop (hl : ∀ x ∈ l, x.1 = .stmt) (tries : ℕ) (ret : ℤ) :
    Spec (Settled k l) (dbIsUpLoop tries ret) fun _ => Settled k l := by
  induction tries generalizing ret with
  | zero => exact Triple.pure fun _ _ hw => hw
  | succ tries ih =>
    refine Triple.bind (spec_probe hl ret) fun p => ?_
    refine Triple.of_pre (fun _ _ hw => hw.1) fun hkind => ?_
    refine Triple.mono (P := Ready k (p.stmt.toList ++ l)) ?_ (fun _ _ hw => hw.2)
      fun _ _ _ hw => hw
    refine spec_of_record fun h ⟨hwf, henv⟩ => Triple.ite (fun _ => ?_) fun _ => ?_
    · refine Triple.bind (spec_freeStmt p.stmt) fun _ => Triple.pure fun w log hw => ⟨h, hwf, hw⟩
    · have hstmt : ∀ x ∈ p.stmt, x ∈ p.stmt.toList ++ l :=
        fun x hx => List.mem_append_left _ (Option.mem_toList.mpr hx)
      refine Triple.bind (spec_getError hwf henv hstmt) fun _ => ?_
      refine Triple.bind (spec_freeStmt p.stmt) fun _ => ?_
      have hconnect : Spec (Holds h k (h.handles ++ l)) callConnect fun _ => Settled k l :=
        (spec_callConnect hl).mono (fun _ _ hw => ⟨h, hwf, hw⟩) fun _ _ _ hw => hw
      exact Triple.bind hconnect fun _ => ih p.ret

theorem spec_dbIsUp (hl : ∀ x ∈ l, x.1 = .stmt) :
    Spec (Settled k l) dbIsUp fun _ => Settled k l :=
  spec_of_record fun h hwf => spec_field <|
    (spec_dbIsUpLoop hl h.maxTries 0).mono (fun _ _ hw => ⟨h, hwf, hw⟩) fun _ _ _ hw => hw

/-- Where a function that runs a statement comes to its end or to its errors. -/
def Begun (k l : List SqlHandle) (s : Started) (w : World) (log : List Entry) : Prop :=
  (∃ x, s.stmt = some x ∧ x.1 = .stmt ∧ Ready k (x :: l) w log) ∨
    (s.stmt = none ∧ s.ok = false) ∧ Settled k l w log

theorem spec_of_begun {α : Type} {s : Started} {m : OdbcM α} {Q : α → World → List Entry → Prop}
    (hsome : ∀ x, s.stmt = some x → x.1 = .stmt → ∀ h, h.Wf → h.env.isSome →
      Spec (Holds h k (h.handles ++ x :: l)) m Q)
    (hnone : s.stmt = none → s.ok = false → Spec (Settled k l) m Q) : Spec (Begun k l s) m Q := by
  rintro w log (⟨x, hx, hkind, h, ⟨hwf, henv⟩, hw⟩ | ⟨⟨hstmt, hok⟩, hw⟩)
  · exact hsome x hx hkind h hwf henv w log hw
  · exact hnone hstmt hok w log hw

theorem spec_prepareExecute {texts : ExecTexts} {sql : String} (hx : x ∈ l) :
    Spec (Holds h k l) (prepareExecute texts sql (some x)) fun s w log =>
      s.stmt = some x ∧ Holds h k l w log := by
  refine Triple.bind (spec_stmtCall (by simp) hx) fun prepared => ?_
  refine Triple.ite (fun _ => Triple.pure fun _ _ hw => ⟨rfl, hw⟩) fun _ => ?_
  refine Triple.bind (spec_stmtCall (by simp) hx) fun executed => ?_
  refine Triple.ite (fun _ => Triple.pure fun _ _ hw => ⟨rfl, hw⟩) fun _ => ?_
  exact Triple.pure fun _ _ hw => ⟨rfl, hw⟩

theorem spec_startStatement (texts : ExecTexts) (sql : String) (hl : ∀ x ∈ l, x.1 = .stmt) :
    Spec (Settled k l) (startStatement texts sql) (Begun k l) := by
  refine Triple.bind (spec_dbIsUp hl) fun up => Triple.ite (fun _ => ?_) fun _ => ?_
  · exact Triple.pure fun w log hw => Or.inr ⟨⟨rfl, rfl⟩, hw⟩
  refine spec_of_record fun h hwf => spec_field ?_
  refine Triple.bind (spec_allocStmt hwf hl) fun stmt => Triple.of_pre (fun _ _ hw => hw.1) ?_
  rintro ⟨henv, hsome, hkind⟩
  rcases hstmt : stmt.handle with _ | x
  · refine Triple.ite (fun _ => Triple.pure fun w log hw => Or.inr ⟨⟨rfl, rfl⟩, h, hwf, ?_⟩) ?_
    · simpa [hstmt] using hw.2
    · intro hret
      have hret : stmt.ret = .success := by simpa using hret
      rw [hstmt, hret] at hsome
      cases hsome
  · have hx : x.1 = .stmt := hkind x hstmt
    refine Triple.ite (fun _ => Triple.pure fun w log hw =>
      Or.inl ⟨x, rfl, hx, h, ⟨hwf, henv⟩, ?_⟩) ?_
    · simpa [hstmt] using hw.2
    · intro _
      refine (spec_prepareExecute (x := x) (by simp)).mono (fun _ _ hw => hw.2) ?_
      rintro s w log ⟨hs, hw⟩
      exact Or.inl ⟨x, hs, hx, h, ⟨hwf, henv⟩, hw⟩

theorem spec_stmtError {err : Option String} (hwf : h.Wf) (henv : h.env.isSome) (hx : x ∈ l) :
    Spec (Holds h k (h.handles ++ l)) (stmtError (some x) err) fun _ =>
      Holds h k (h.handles ++ l) := by
  refine Triple.bind (spec_getError hwf henv ?_) fun _ => Triple.pure fun _ _ hw => hw
  rintro y ⟨⟩
  exact hx

theorem spec_stmtError_none {err : Option String} {P : World → List Entry → Prop} :
    Spec P (stmtError none err) fun _ => P :=
  Triple.bind (Q := fun _ => P) (Triple.pure fun _ _ hw => hw) fun _ => Triple.pure fun _ _ hw => hw

/-- What `agc_odbc_handle_exec` hands out is a live statement, and it is all that it leaves. -/
structure Handed (rstmt : Bool) (k l : List SqlHandle) (r : ExecResult) (w : World)
    (log : List Entry) : Prop where
  kind : ∀ x ∈ r.stmt, x.1 = .stmt
  isSome : rstmt → r.status = .success → r.stmt.isSome
  settled : Settled k (r.stmt.toList ++ l) w log

theorem spec_exec (sql : String) (rstmt : Bool) (hl : ∀ x ∈ l, x.1 = .stmt) :
    Spec (Settled k l) (agcOdbcHandleExec sql rstmt) (Handed rstmt k l) := by
  refine Triple.bind (spec_startStatement execTexts sql hl) fun s => spec_of_begun ?_ ?_
  · intro x hx hkind h hwf henv
    have hmem : x ∈ h.handles ++ x :: l := by simp
    simp only [hx]
    refine Triple.ite (fun _ => ?_) fun _ => ?_
    · -- the statement was executed: it is handed out, or freed here
      refine Triple.bind (spec_stmtCall (by simp) hmem) fun rows => ?_
      refine Triple.bind (spec_update _) fun _ => Triple.ite (fun _ => ?_) fun hrstmt => ?_
      · refine Triple.pure fun w log hw => ⟨by simpa using hkind, fun _ _ => rfl, ?_⟩
        exact (Ready.of_same hw hwf henv ⟨rfl, rfl⟩).settled
      · refine Triple.bind (Q := fun _ => Settled k l) ?_ fun _ => ?_
        · refine spec_sqlFreeHandle.mono (fun _ _ hw => hw.perm List.perm_middle)
            fun _ w log hw => ?_
          exact (Ready.of_same hw hwf henv ⟨rfl, rfl⟩).settled
        · exact Triple.pure fun w log hw => ⟨by simp, fun h => absurd h hrstmt, hw⟩
    · refine Triple.bind (spec_stmtError hwf henv List.mem_cons_self) fun err => ?_
      refine Triple.ite (fun _ => ?_) fun _ => ?_
      · refine Triple.pure fun w log hw => ⟨by simpa using hkind, fun _ hs => ?_, h, hwf, hw⟩
        cases hs
      · refine Triple.bind (spec_freeStmt (some x)) fun _ => ?_
        refine Triple.pure fun w log hw => ⟨by simp, fun _ hs => ?_, h, hwf, hw⟩
        cases hs
  · -- no statement was begun
    intro hstmt hok
    simp only [hstmt, hok]
    have hfail : ∀ err : Option String, Spec (Settled k l)
        (pure ⟨.fail, none, err⟩ : OdbcM ExecResult) (Handed rstmt k l) := by
      intro err
      refine Triple.pure fun w log hw => ⟨by simp, fun _ hs => ?_, hw⟩
      cases hs
    refine Triple.ite (fun h => by cases h) fun _ => Triple.bind spec_stmtError_none fun err => ?_
    refine Triple.ite (fun _ => hfail _) fun _ => ?_
    exact Triple.bind (Q := fun _ => Settled k l) (Triple.pure fun _ _ hw => hw) fun _ => hfail _

theorem spec_affectedRows (n : ℤ) :
    Spec (Settled k l) (update ({ · with affectedRows := n })) fun _ => Settled k l := by
  refine spec_of_record fun h hwf => (spec_update _).mono (fun _ _ hw => hw) fun _ w log hw => ?_
  exact ⟨{ h with affectedRows := n }, ⟨hwf.con_of_env, hwf.env_of_connected, hwf.kind⟩, hw⟩

/-- A call on a statement of the caller. -/
theorem spec_stmtCall_settled {fn : SqlFn}
    (hfn : fn ≠ .connect ∧ fn ≠ .driverConnect ∧ fn ≠ .allocHandle) (hx : x ∈ l) :
    Spec (Settled k l) (sqlCall fn (some x)) fun _ => Settled k l :=
  spec_of_record fun h hwf => (spec_stmtCall hfn (List.mem_append_right _ hx)).mono
    (fun _ _ hw => hw) fun _ _ _ hw => ⟨h, hwf, hw⟩

theorem spec_freeStmt_settled (stmt : Option SqlHandle) :
    Spec (Settled k (stmt.toList ++ l)) (freeStmt stmt) fun _ => Settled k l :=
  spec_of_record fun h hwf =>
    (spec_freeStmt stmt).mono (fun _ _ hw => hw) fun _ _ _ hw => ⟨h, hwf, hw⟩

/-- A statement is given back, and none is left in the variable of the caller. -/
theorem spec_statementHandleFree (stmt : Option SqlHandle) :
    Spec (Settled k (stmt.toList ++ l)) (agcOdbcStatementHandleFree stmt) fun r w log =>
      r.2 = none ∧ Settled k l w log := by
  refine Triple.ite (fun hsome => ?_) fun hsome => ?_
  · obtain ⟨x, rfl⟩ := Option.isSome_iff_exists.mp hsome
    refine Triple.bind (Q := fun _ => Settled k l) (spec_of_record fun h hwf => ?_) fun _ => ?_
    · exact spec_sqlFreeHandle.mono (fun _ _ hw => hw.perm List.perm_middle)
        fun _ _ _ hw => ⟨h, hwf, hw⟩
    · exact Triple.pure fun _ _ hw => ⟨rfl, hw⟩
  · obtain rfl : stmt = none := by simpa using hsome
    exact Triple.pure fun _ _ hw => ⟨rfl, hw⟩

theorem spec_firstColumn (hx : x ∈ l) :
    Spec (Settled k l) (firstColumn (some x)) fun _ => Settled k l := by
  refine Triple.bind (spec_stmtCall_settled (by simp) hx) fun rows => ?_
  refine Triple.bind (spec_affectedRows _) fun _ => ?_
  refine Triple.ite (fun _ => Triple.pure fun _ _ hw => hw) fun _ => ?_
  refine Triple.bind (spec_stmtCall_settled (by simp) hx) fun row => ?_
  refine Triple.ite (fun _ => Triple.pure fun _ _ hw => hw) fun _ => ?_
  refine Triple.bind (spec_stmtCall_settled (by simp) hx) fun _ => ?_
  refine Triple.bind (spec_stmtCall_settled (by simp) hx) fun data => ?_
  exact Triple.pure fun _ _ hw => hw

theorem spec_execString (sql : String) (hl : ∀ x ∈ l, x.1 = .stmt) :
    Spec (Settled k l) (agcOdbcHandleExecString sql) fun _ => Settled k l := by
  refine Triple.bind (spec_affectedRows 0) fun _ => Triple.bind (spec_exec sql true hl) fun r => ?_
  refine Triple.of_pre (fun _ _ hw => hw.isSome rfl) fun hsome => ?_
  refine Triple.bind (Q := fun _ => Settled k (r.stmt.toList ++ l)) ?_ fun data => ?_
  · refine Triple.mono (P := Settled k (r.stmt.toList ++ l)) ?_ (fun _ _ hw => hw.settled)
      fun _ _ _ hw => hw
    refine Triple.ite (fun hs => ?_) fun _ => Triple.pure fun _ _ hw => hw
    obtain ⟨x, hx⟩ := Option.isSome_iff_exists.mp (hsome hs)
    rw [hx]
    exact spec_firstColumn (by simp)
  · have hfree : Spec (Settled k (r.stmt.toList ++ l)) (ignore (agcOdbcStatementHandleFree r.stmt))
        fun _ => Settled k l :=
      spec_ignore ((spec_statementHandleFree r.stmt).mono (fun _ _ hw => hw) fun _ _ _ hw => hw.2)
    exact Triple.bind hfree fun _ => Triple.pure fun _ _ hw => hw

theorem spec_columns (hx : x ∈ l) (c : ℕ) :
    Spec (Settled k l) (columns (some x) c) fun _ => Settled k l := by
  induction c with
  | zero => exact Triple.pure fun _ _ hw => hw
  | succ c ih =>
    refine Triple.bind (spec_stmtCall_settled (by simp) hx) fun column => ?_
    refine Triple.bind (spec_stmtCall_settled (by simp) hx) fun data => ?_
    exact Triple.bind ih fun rest => Triple.pure fun _ _ hw => hw

theorem spec_fetchLoop {callback : Callback} {c : ℕ} (hx : x ∈ l) (rounds i : ℕ) :
    Spec (Settled k l) (fetchLoop (some x) c callback rounds i) fun _ => Settled k l := by
  induction rounds generalizing i with
  | zero => exact Triple.pure fun _ _ hw => hw
  | succ rounds ih =>
    refine Triple.bind (spec_stmtCall_settled (by simp) hx) fun row => ?_
    refine Triple.ite (fun _ => Triple.pure fun _ _ hw => hw) fun _ => ?_
    refine Triple.bind (spec_columns hx c) fun cols => ?_
    exact Triple.ite (fun _ => Triple.pure fun _ _ hw => hw) fun _ => ih (i + 1)

theorem spec_callbackExec (sql : String) (callback : Callback) (hl : ∀ x ∈ l, x.1 = .stmt) :
    Spec (Settled k l) (agcOdbcHandleCallbackExec sql callback) fun _ => Settled k l := by
  refine Triple.bind (spec_affectedRows 0) fun _ => ?_
  refine Triple.bind (spec_startStatement callbackTexts sql hl) fun s => spec_of_begun ?_ ?_
  · intro x hx hkind h hwf henv
    simp only [hx]
    refine Triple.ite (fun _ => ?_) fun _ => ?_
    · refine Triple.mono (P := Settled k (x :: l)) ?_ (fun _ _ hw => ⟨h, hwf, hw⟩)
        fun _ _ _ hw => hw
      have hmem : x ∈ x :: l := List.mem_cons_self
      refine Triple.bind (spec_stmtCall_settled (by simp) hmem) fun cols => ?_
      refine Triple.bind (spec_stmtCall_settled (by simp) hmem) fun rows => ?_
      refine Triple.bind (spec_affectedRows _) fun _ => ?_
      have hrows : Spec (Settled k (x :: l)) (fetchRows (some x) cols.columns callback) fun _ =>
          Settled k (x :: l) :=
        Triple.bind (Triple.get fun _ _ hw => hw) fun w => spec_fetchLoop hmem _ 0
      refine Triple.bind hrows fun failed => ?_
      exact Triple.bind (spec_freeStmt_settled (some x)) fun _ => Triple.pure fun _ _ hw => hw
    · refine Triple.bind (spec_stmtError hwf henv List.mem_cons_self) fun err => ?_
      refine Triple.bind (spec_freeStmt (some x)) fun _ => ?_
      exact Triple.pure fun w log hw => ⟨h, hwf, hw⟩
  · intro hstmt hok
    simp only [hstmt, hok]
    refine Triple.ite (fun h => by cases h) fun _ => Triple.bind spec_stmtError_none fun err => ?_
    refine Triple.bind (Q := fun _ => Settled k l) (Triple.pure fun _ _ hw => hw) fun _ => ?_
    exact Triple.pure fun _ _ hw => hw

/-! ## The rows of a query -/

theorem columns_answers (stmt : Option SqlHandle) (c : ℕ) (w : World) :
    (columns stmt c w).2.1.answers.length ≤ w.answers.length := by
  induction c generalizing w with
  | zero => exact le_rfl
  | succ c ih =>
    refine (ih _).trans ?_
    change w.answers.tail.tail.length ≤ w.answers.length
    simp only [List.length_tail]
    omega

/-- The loop over the rows ends before its rounds do: one more round than there are answers is as
good as any greater number. -/
theorem fetchLoop_eq {stmt : Option SqlHandle} {c : ℕ} {callback : Callback} {rounds rounds' : ℕ}
    (i : ℕ) (hr : w.answers.length < rounds) (hr' : w.answers.length < rounds') :
    fetchLoop stmt c callback rounds i w = fetchLoop stmt c callback rounds' i w := by
  induction rounds generalizing rounds' i w with
  | zero => omega
  | succ rounds ih =>
    obtain ⟨rounds', rfl⟩ : ∃ n, rounds' = n + 1 := ⟨rounds' - 1, by omega⟩
    refine bind_congr_apply ?_
    rcases hanswers : w.answers with _ | ⟨a, rest⟩
    · -- without answers the fetch fails
      have hret : (sqlCall .fetch stmt w).1.ret ≠ .success := by
        change (w.answers.headD _).ret ≠ _
        rw [hanswers]
        decide
      simp only [if_pos hret]
    · split
      · rfl
      · have hlen := columns_answers stmt c (sqlCall .fetch stmt w).2.1
        have htail : (sqlCall .fetch stmt w).2.1.answers = rest := by
          change w.answers.tail = rest
          rw [hanswers]
          rfl
        rw [htail] at hlen
        rw [hanswers, List.length_cons] at hr hr'
        refine bind_congr_apply ?_
        split
        · rfl
        · exact ih (i + 1) (by omega) (by omega)

/-! ## A whole life -/

/-- Between two calls of the caller: the live handles are those of the record and the statements in
its hands. -/
def AtRest (w : World) (log : List Entry) : Prop :=
  ∃ k, (∀ x ∈ k, x.1 = .stmt) ∧ Settled k k w log

/-- A call of the caller, that may assume what its statements are. -/
theorem spec_of_atRest {α : Type} {m : OdbcM α} {Q : α → World → List Entry → Prop}
    (hm : ∀ k, (∀ x ∈ k, x.1 = .stmt) → Spec (Settled k k) m Q) : Spec AtRest m Q := by
  rintro w log ⟨k, hk, hw⟩
  exact hm k hk w log hw

theorem spec_hold {stmt : Option SqlHandle} (hk : ∀ x ∈ k, x.1 = .stmt)
    (hstmt : ∀ x ∈ stmt, x.1 = .stmt) :
    Spec (Settled k (stmt.toList ++ k)) (hold stmt) fun _ => AtRest := by
  refine Triple.modify ?_
  rintro w log ⟨h, hwf, hw⟩
  refine ⟨stmt.toList ++ k, ?_, h, hwf, hw.handle, ?_, hw.owns.of_next rfl⟩
  · intro x hx
    rcases List.mem_append.mp hx with hx | hx
    · exact hstmt x (Option.mem_toList.mp hx)
    · exact hk x hx
  · rw [hw.held]

theorem spec_callFree (stmt : SqlHandle) (hk : ∀ x ∈ k, x.1 = .stmt) :
    Spec (Settled k k) (callFree stmt) fun _ => AtRest := by
  refine Triple.bind (Q := fun w' w log => w' = w ∧ Settled k k w log) ?_ fun w' => ?_
  · exact Triple.get fun w log hw => ⟨rfl, hw⟩
  refine Triple.ite (fun hmem => ?_) fun _ => Triple.pure fun w log hw => ⟨k, hk, hw.2⟩
  have herase : ∀ x ∈ k.erase stmt, x.1 = .stmt := fun x hx => hk x (List.mem_of_mem_erase hx)
  have htake : Spec (fun w log => w' = w ∧ Settled k k w log) (take stmt) fun _ =>
      Settled (k.erase stmt) ((some stmt).toList ++ k.erase stmt) := by
    refine Triple.modify ?_
    rintro w log ⟨rfl, h, hwf, hw⟩
    have hmem : stmt ∈ k := hw.held ▸ hmem
    refine ⟨h, hwf, hw.handle, by rw [hw.held], Owns.of_next (hw.owns.perm ?_) rfl⟩
    exact (List.perm_cons_erase hmem).append_left _
  refine Triple.bind htake fun _ => Triple.bind (spec_statementHandleFree _) fun r => ?_
  refine Triple.of_pre (fun _ _ hw => hw.1) fun hr => ?_
  rw [hr]
  exact (spec_hold herase (by simp)).mono (fun _ _ hw => hw.2) fun _ _ _ hw => hw

/-- Each call leaves the handle at rest, or the life is lost. -/
theorem spec_command (op : Op) : Spec AtRest op.command fun _ => AtRest := by
  refine spec_of_atRest fun k hk => ?_
  have hrest : ∀ w log, Settled k k w log → AtRest w log := fun w log hw => ⟨k, hk, hw⟩
  cases op with
  | connect => exact (spec_callConnect hk).mono (fun _ _ hw => hw) fun _ => hrest
  | disconnect =>
    exact spec_callDisconnect.mono (fun _ _ hw => hw) fun _ w log hw => hrest w log hw.settled
  | exec sql rstmt =>
    refine Triple.bind (spec_exec sql rstmt hk) fun r => Triple.of_pre (fun _ _ hw => hw.kind) ?_
    exact fun hkind => (spec_hold hk hkind).mono (fun _ _ hw => hw.settled) fun _ _ _ hw => hw
  | execString sql =>
    exact (spec_ignore (spec_execString sql hk)).mono (fun _ _ hw => hw) fun _ => hrest
  | callbackExec sql callback =>
    exact (spec_ignore (spec_callbackExec sql callback hk)).mono (fun _ _ hw => hw) fun _ => hrest
  | statementHandleFree stmt => exact spec_callFree stmt hk

/-- What is asked of a life that is over: no call is given a handle that is not live, and every
handle that was allocated is given back once, unless it is a statement in the caller's hands. -/
structure Orderly (w : World) (log : List Entry) : Prop where
  valid : Sound (acts log)
  statements : ∀ x : SqlHandle, x.1 = .stmt → .alloc (some x) ∈ acts log → x ∉ w.held →
    (acts log).count (.free (some x)) = 1
  handles : ∀ x : SqlHandle, x.1 ≠ .stmt → .alloc (some x) ∈ acts log →
    (acts log).count (.free (some x)) = 1

theorem Owns.orderly (hw : Owns w.held w log) (hheld : ∀ x ∈ w.held, x.1 = .stmt) :
    Orderly w log := by
  have honce : ∀ x, .alloc (some x) ∈ acts log → x ∉ w.held →
      (acts log).count (.free (some x)) = 1 := by
    intro x hx hnot
    refine hw.sound.count_free_eq_one hx fun hlive => ?_
    obtain ⟨y, hy, hxy⟩ := hw.live.mp hlive
    exact hnot (Option.some.inj hxy ▸ hy)
  exact ⟨hw.sound, fun x _ => honce x, fun x hx hmem => honce x hmem fun h => hx (hheld x h)⟩

theorem atRest_new (dsn : String) (numRetries : ℤ) (answers : List Answer) :
    AtRest (.new dsn numRetries answers) [] := by
  refine ⟨[], by simp, _, ⟨?_, ?_, ?_⟩, rfl, rfl, ?_⟩
  · exact fun h => by cases h
  · exact fun h => by cases h
  · exact fun x hx => by cases hx
  · exact ⟨by simp [Initialised], fun x hx => (by cases hx), owns_nil⟩

/-- A life that is over is in order, or it is lost. -/
theorem life_orderly_or_lost (dsn : String) (numRetries : ℤ) (answers : List Answer)
    (ops : List Op) :
    (Orderly (life (.new dsn numRetries answers) ops).1 (life (.new dsn numRetries answers) ops).2 ∧
      Initialised (life (.new dsn numRetries answers) ops).2) ∨
    Lost (life (.new dsn numRetries answers) ops).2 := by
  have hdestroy : Spec AtRest agcOdbcHandleDestroy fun _ w log =>
      Orderly w log ∧ Initialised log := by
    refine spec_of_atRest fun k hk => spec_destroy.mono (fun _ _ hw => hw) ?_
    rintro _ w log ⟨rfl, hw⟩
    exact ⟨hw.orderly hk, hw.initialised⟩
  rcases Triple.foldl spec_command ops (World.new dsn numRetries answers, [])
    (Or.inl (atRest_new dsn numRetries answers)) with hw | hlost
  · exact hdestroy _ _ hw
  · exact Or.inr (Sticky.append _ hlost)

/-- **The life cycle of a handle.** Whatever the driver manager answers, the state in the record is
right behind every call. The handles are in order, too, exactly when each call that takes the
connection finds an environment in the record; the code makes these calls without a look at it. -/
theorem life_cycle_iff_initialised (dsn : String) (numRetries : ℤ) (answers : List Answer)
    (ops : List Op) :
    ((∀ ops', ops' <+: ops → Tracks (calls (.new dsn numRetries answers) ops').1) ∧
      Orderly (life (.new dsn numRetries answers) ops).1
        (life (.new dsn numRetries answers) ops).2) ↔
    Initialised (life (.new dsn numRetries answers) ops).2 := by
  have htracks : ∀ ops', Tracks (calls (.new dsn numRetries answers) ops').1 :=
    tracks_calls dsn numRetries answers
  rcases life_orderly_or_lost dsn numRetries answers ops with ⟨horderly, hinit⟩ | hlost
  · exact iff_of_true ⟨fun ops' _ => htracks ops', horderly⟩ hinit
  · exact iff_of_false (fun h => hlost.2 h.2.valid) hlost.1

/-- A handle whose environment cannot be allocated: `SQLConnect` is given a connection that never
was. A handle whose connection breaks, and whose environment cannot be allocated again after a
failed connect: the next try of `db_is_up` is given the connection that was given back. -/
theorem life_given_stale_connection :
    (let answers := [SqlReturn.error, .invalidHandle, .invalidHandle, .invalidHandle, .error].map
      fun ret => ({ ret := ret } : Answer)
    ¬ Orderly (life (.new "db" 2 answers) [.connect]).1 (life (.new "db" 2 answers) [.connect]).2) ∧
    let answers := [SqlReturn.success, .success, .success, .success, .success, .success, .error,
      .error, .success, .error, .error, .error, .success, .success, .error, .invalidHandle].map
      fun ret => ({ ret := ret } : Answer)
    ¬ Orderly (life (.new "db" 2 answers) [.connect, .exec "select 2" false]).1
      (life (.new "db" 2 answers) [.connect, .exec "select 2" false]).2 := by
  constructor
  · intro answers h
    have hsound : ¬ Sound (acts (life (.new "db" 2 answers) [.connect]).2) := by
      decide +kernel
    exact hsound h.valid
  · intro answers h
    have hsound : ¬ Sound (acts (life (.new "db" 2 answers)
        [.connect, .exec "select 2" false]).2) := by
      decide +kernel
    exact hsound h.valid

end Odbc
