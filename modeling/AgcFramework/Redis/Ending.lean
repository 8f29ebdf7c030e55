import AgcFramework.Redis.Server

/-!
# How the Redis operations end

An operation may refuse its arguments. Otherwise it asks for a connection; without one it fails,
and with one it works, until it returns or the process dies.

## Main definitions

* `Op.Run`: a run of an operation, with the connection it gets and the result it gives

## Main results

* `Op.ends_iff`: the runs are all the ways in which an operation can end
* `Op.Run.of_withConnection`: the runs of an operation that works with a connection
-/

namespace Redis

variable {σ ω : Type} {respond : σ → ω → (c : Call) → Option (c.Answer × σ)}

/-- The operation gets the connection `conn`, if it gets one, and has the result `out`. It has no
result if the process dies. -/
inductive Op.Run (respond : σ → ω → (c : Call) → Option (c.Answer × σ)) (op : Op) (s : σ) :
    Option Conn → Option Result → σ → Prop
  /-- It refuses its arguments. -/
  | refused (hbody : op.body = pure (.generr, .untouched)) :
      Run respond op s none (some (.generr, .untouched)) s
  /-- It asks for a connection, and goes on with what it gets. -/
  | asked {rest : Option Conn → Client Result} {conn : Option Conn} {s₁ s' : σ}
      {out : Option Result} (hbody : op.body = getConnection >>= rest)
      (hconn : getConnection.Yields respond s conn s₁)
      (hrest : (rest conn).Ends respond .fault s₁ out s') : Run respond op s conn out s'

/-- A program that refuses its arguments, or asks for a connection and fails without one. -/
def Asks (p : Client Result) : Prop :=
  p = pure (.generr, .untouched) ∨ ∃ work, p = withConnection work

theorem asks_pure : Asks (pure (.generr, .untouched)) := Or.inl rfl

theorem asks_withConnection (work : Conn → Client Result) : Asks (withConnection work) :=
  Or.inr ⟨work, rfl⟩

theorem asks_checked (valid : Bool) {p : Client Result} (h : Asks p) : Asks (checked valid p) := by
  cases valid with
  | false => exact asks_pure
  | true => exact h

theorem asks_counterOp (cmd : String) (key : Option CStr) (value : Bool) :
    Asks (counterOp cmd key value) := by
  cases key with
  | none => exact asks_pure
  | some key => exact asks_withConnection _

theorem Op.asks (op : Op) : Asks op.body := by
  cases op with
  | set | delete | setPipeline => exact asks_withConnection _
  | get | getPipeline | deletePipeline => exact asks_checked _ (asks_withConnection _)
  | expire key expires =>
    cases key with
    | none => exact asks_pure
    | some key => exact asks_checked _ (asks_withConnection _)
  | incr key value => exact asks_counterOp _ key value
  | decr key value => exact asks_counterOp _ key value
  | hashset tablename key value =>
    rcases tablename with _ | tablename
    · exact asks_pure
    rcases key with _ | key
    · exact asks_pure
    rcases value with _ | value
    · exact asks_pure
    exact asks_withConnection _
  | hashget tablename key value len =>
    rcases tablename with _ | tablename
    · exact asks_pure
    rcases key with _ | key
    · exact asks_pure
    exact asks_checked _ (asks_withConnection _)
  | hashmset tablename | hashmget tablename | hashdel tablename =>
    cases tablename with
    | none => exact asks_pure
    | some tablename => exact asks_checked _ (asks_withConnection _)

/-- Asking for a connection and giving it back does not end the process. -/
theorem not_apart_fault : ¬ Call.fault.Apart := id

variable {op : Op} {s s' : σ} {conn : Option Conn} {out : Option Result}

/-- The runs are all the ways in which an operation can end. -/
theorem Op.ends_iff :
    op.body.Ends respond .fault s out s' ↔ ∃ conn, op.Run respond s conn out s' := by
  constructor
  · intro h
    rcases op.asks with hbody | ⟨work, hbody⟩
    · rw [hbody] at h
      obtain ⟨rfl, rfl⟩ := Prog.ends_ret.mp h
      exact ⟨none, .refused hbody⟩
    · rw [hbody] at h
      obtain ⟨conn, s₁, hconn, hrest⟩ := apart_getConnection.ends_bind not_apart_fault h
      exact ⟨conn, .asked hbody hconn hrest⟩
  · rintro ⟨conn, hbody | ⟨hbody, hconn, hrest⟩⟩
    · rw [hbody]
      exact Prog.ends_ret.mpr ⟨rfl, rfl⟩
    · rw [hbody]
      exact Prog.Ends.bind hconn hrest

/-- What follows `get_connection` can be told from the whole. -/
theorem getConnection_bind_injective {α : Type} :
    Function.Injective fun rest : Option Conn → Client α => getConnection >>= rest := by
  intro f g h
  injection h with _ hrunning
  funext conn
  cases conn with
  | none =>
    -- the system does not run
    exact congrFun hrunning false
  | some c =>
    -- the connection is the first that is popped, and it is connected
    have hpopped := congrFun hrunning true
    injection hpopped with _ hpopped
    have hread := congrFun hpopped (some c)
    injection hread with _ hread
    exact congrFun hread { connected := true }

namespace Op.Run

theorem of_refused (hbody : op.body = pure (.generr, .untouched))
    (h : op.Run respond s conn out s') :
    conn = none ∧ out = some (.generr, .untouched) ∧ s' = s := by
  cases h with
  | refused => exact ⟨rfl, rfl, rfl⟩
  | asked hbody' =>
    -- a program that returns makes no call
    cases hbody.symm.trans hbody'

/-- The runs of an operation that works with a connection. -/
theorem of_withConnection {work : Conn → Client Result} (hbody : op.body = withConnection work)
    (h : op.Run respond s conn out s') :
    (conn = none ∧ out = some (.generr, .untouched) ∧ getConnection.Yields respond s none s') ∨
      ∃ c s₁, conn = some c ∧ getConnection.Yields respond s (some c) s₁ ∧
        (work c).Ends respond .fault s₁ out s' := by
  cases h with
  | refused hbody' => cases hbody'.symm.trans hbody
  | asked hbody' hconn hrest =>
    obtain rfl := getConnection_bind_injective (hbody.symm.trans hbody')
    cases conn with
    | none =>
      obtain ⟨rfl, rfl⟩ := Prog.ends_ret.mp hrest
      exact Or.inl ⟨rfl, rfl, hconn⟩
    | some c => exact Or.inr ⟨c, _, rfl, hconn, hrest⟩

end Op.Run

/-- A command that cannot be formatted ends the process. -/
theorem notMem_of_yields_appendAll {c : Conn} {cmds : List (Option (List (List Byte)))} {u : Unit}
    (h : (appendAll c cmds).Yields respond s u s') : none ∉ cmds := by
  induction cmds generalizing s with
  | nil => exact List.not_mem_nil
  | cons cmd cmds ih =>
    cases cmd with
    | none =>
      obtain ⟨_, r, _⟩ := Prog.yields_call.mp h
      exact r.elim
    | some cmd =>
      obtain ⟨_, _, _, -, h⟩ := Prog.yields_call.mp h
      obtain ⟨_, _, _, -, h⟩ := Prog.yields_call.mp h
      simpa using ih h

end Redis
