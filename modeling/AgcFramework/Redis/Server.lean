import AgcFramework.Redis.Operations

/-!
# The Redis server behind the pool

Behind the client library is a server that keeps strings by their keys and hashes by their tables.
It carries out the commands that reach it, or answers one with an error. The pool, the library and
the server together are an environment for the operations in which only failures are left open: an
operation that succeeds has had its commands carried out in order.

## Main definitions

* `Store`, `Data`, `Store.exec`: the server
* `Env`, `Env.respond`: the pool with the server behind it
* `Env.Yields`: an operation run alone in such an environment
* `Env.Reached`: the environments between the operations

## Main results

* `yields_pool`: a run over the server is a run of the pool
* `yields_commandOp`, `yields_hashOp`: an operation of one command
* `yields_agcRedisMultireplies`: the replies of a pipeline
* `Env.Reached.idle`: between the operations no command waits for its reply
-/

namespace Redis

/-! ## The server -/

/-- What the server keeps: strings by their keys, and the fields of hashes by their tables. A key
of the wrong kind is among the errors it may answer with. -/
structure Store where
  strings : List Byte → Option (List Byte) := fun _ => none
  hashes : List Byte → List Byte → Option (List Byte) := fun _ _ => none

/-- A reply. The elements of an array are strings or nil. -/
inductive Data
  | string (s : List Byte)
  | nil
  | status (s : List Byte)
  | integer (n : ℤ)
  | error (s : List Byte)
  | array (elements : List (Option (List Byte)))

namespace Data

/-- The string that is there, or nil. -/
def ofOption : Option (List Byte) → Data
  | some s => string s
  | none => nil

def type : Data → ReplyType
  | string _ => .string
  | nil => .nil
  | status _ => .status
  | integer _ => .integer
  | error _ => .error
  | array _ => .array

/-- The text of a reply, as long as its `len` says; NULL for one without a text. -/
def str : Data → Option (List Byte)
  | string s | status s | error s => some s
  | _ => none

def number : Data → ℤ
  | integer n => n
  | _ => 0

def element : Data → ℕ → Option (List Byte)
  | array elements, i => elements[i]?.join
  | _, _ => none

end Data

/-- The fields of a hash after those of an `HMSET` are set in order. -/
def setFields (fields : List Byte → Option (List Byte)) :
    List (List Byte) → List Byte → Option (List Byte)
  | field :: value :: rest => setFields (Function.update fields field (some value)) rest
  | _ => fields

/-- A command is carried out. These are the commands of the operations below, with the arguments
that those send; a key that is set to expire does not do so while they run. -/
def Store.exec (s : Store) : List (List Byte) → Data × Store
  | cmd :: key :: args =>
    if cmd = (CStr.ofString "GET").bytes then
      (.ofOption (s.strings key), s)
    else if cmd = (CStr.ofString "SET").bytes then
      (.status (CStr.ofString "OK").bytes,
        { s with strings := Function.update s.strings key args.head? })
    else if cmd = (CStr.ofString "DEL").bytes then
      (.integer (if (s.strings key).isSome then 1 else 0), { s with
        strings := Function.update s.strings key none
        hashes := Function.update s.hashes key fun _ => none })
    else if cmd = (CStr.ofString "EXPIRE").bytes then
      (.integer (if (s.strings key).isSome then 1 else 0), s)
    else if cmd = (CStr.ofString "HGET").bytes then
      (.ofOption (s.hashes key (args.headD [])), s)
    else if cmd = (CStr.ofString "HMGET").bytes then
      (.array (args.map (s.hashes key)), s)
    else if cmd = (CStr.ofString "HMSET").bytes then
      (.status (CStr.ofString "OK").bytes,
        { s with hashes := Function.update s.hashes key (setFields (s.hashes key) args) })
    else
      (.error (CStr.ofString "ERR unknown command").bytes, s)
  | _ => (.error (CStr.ofString "ERR unknown command").bytes, s)

section Exec

variable (s : Store)

theorem exec_get (key : List Byte) :
    s.exec (words "GET" [key]) = (.ofOption (s.strings key), s) := rfl

theorem exec_set (key value : List Byte) : (s.exec (words "SET" [key, value])).2 =
    { s with strings := Function.update s.strings key (some value) } := rfl

theorem exec_expire (key time : List Byte) : (s.exec (words "EXPIRE" [key, time])).2 = s := rfl

theorem exec_hget (table field : List Byte) :
    s.exec (words "HGET" [table, field]) = (.ofOption (s.hashes table field), s) := rfl

end Exec

/-! ## The pool with the server -/

/-- The pool, the server, the commands that are appended to a context and not yet answered, and
the replies. -/
structure Env where
  pool : State := {}
  store : Store := {}
  pending : Context → List (List (List Byte)) := fun _ => []
  reply : Reply → Data := fun _ => .nil

namespace Env

variable (e : Env) (o : Outcome)

/-- A command is sent. Without a reply it may have been carried out or not; a reply can be an error
of the server, which then has not carried it out. -/
def send (cmd : List (List Byte)) : Option Reply × Env :=
  match o.reply with
  -- a lost reply does not say whether the command got through
  | none => (none, if o.ok then { e with store := (e.store.exec cmd).2 } else e)
  | some r =>
    if o.type = .error then
      -- the server refuses the command and keeps what it has
      (some r, { e with reply := Function.update e.reply r (.error (o.str.getD [])) })
    else
      (some r, { e with
        store := (e.store.exec cmd).2
        reply := Function.update e.reply r (e.store.exec cmd).1 })

/-- `redisClusterGetReply`: the first command that is pending gets its reply. With none pending
there is no reply, and the context has no error. -/
def getReply (x : Context) : GetReply × Env :=
  match e.pending x with
  -- the library fails here only before any command has been appended
  | [] => (if o.ok then .ok none else .failed false, e)
  | cmd :: cmds =>
    let (reply, e') := e.send o cmd
    (reply.elim (.failed o.err) fun r => .ok (some r),
      { e' with pending := Function.update e.pending x cmds })

/-- A use of a context. The library does nothing without a context. -/
def use (cc : Option Context) : (u : Use) → u.Answer × Env
  | .err => (o.err, e)
  | .command cmd => e.send o cmd
  | .commandArgv cmd => e.send o cmd
  | .appendCommand cmd =>
    match cc with
    | none => (false, e)
    | some x =>
      if o.ok then
        (true, { e with pending := Function.update e.pending x (e.pending x ++ [cmd]) })
      else (false, e)
  | .getReply =>
    match cc with
    -- no operation comes here without a context
    | none => (.failed false, e)
    | some x => e.getReply o x
  | .reset =>
    match cc with
    | none => ((), e)
    | some x => ((), { e with pending := Function.update e.pending x [] })
  | .setOptionAddNodes | .setOptionRouteUseSlots | .connect2 | .errstr => ((), e)

end Env

/-- The answer of the pool. -/
def Env.respondPool (e : Env) (o : Outcome) (c : Call) : Option (c.Answer × Env) :=
  (Redis.respond e.pool 0 o c).map fun (r, s) => (r, { e with pool := s })

/-- The answer to a call of an operation. The pool answers those that have nothing to do with the
server. -/
def Env.respond (e : Env) (o : Outcome) : (c : Call) → Option (c.Answer × Env)
  | .use cc u => some (e.use o cc u)
  | .replyType r => some ((e.reply r).type, e)
  | .replyStr r => some ((e.reply r).str, e)
  | .replyInteger r => some ((e.reply r).number, e)
  | .replyElement r i => some ((e.reply r).element i, e)
  | c => e.respondPool o c

/-- The program can give the result and lead to the environment. -/
abbrev Env.Yields {α : Type} (e : Env) (p : Client α) (a : α) (e' : Env) : Prop :=
  p.Yields Env.respond e a e'

section Respond

variable {e e' : Env} {o : Outcome}

@[simp] theorem pool_send (cmd : List (List Byte)) : (e.send o cmd).2.pool = e.pool := by
  unfold Env.send
  split
  · split <;> rfl
  · split <;> rfl

@[simp] theorem pool_use (cc : Option Context) (u : Use) : (e.use o cc u).2.pool = e.pool := by
  cases u <;> simp only [Env.use, pool_send]
  case appendCommand cmd =>
    cases cc with
    | none => rfl
    | some x =>
      dsimp only
      split <;> rfl
  case getReply =>
    cases cc with
    | none => rfl
    | some x =>
      simp only [Env.getReply]
      split
      · rfl
      · exact pool_send _
  case reset => cases cc <;> rfl

theorem respondPool_eq_some {c : Call} {r : c.Answer} (h : e.respondPool o c = some (r, e')) :
    respond e.pool 0 o c = some (r, e'.pool) ∧ e' = { e with pool := e'.pool } := by
  obtain ⟨⟨r', s⟩, hs, h⟩ := Option.map_eq_some_iff.mp h
  obtain ⟨rfl, rfl⟩ := Prod.mk.inj h
  exact ⟨hs, rfl⟩

/-- The library may give any answer to a use of a context. -/
theorem exists_outcome (u : Use) (r : u.Answer) : ∃ o : Outcome, o.use u = r := by
  cases u with
  | err => exact ⟨{ err := r }, rfl⟩
  | appendCommand cmd => exact ⟨{ ok := r }, rfl⟩
  | command cmd => exact ⟨{ reply := r }, rfl⟩
  | commandArgv cmd => exact ⟨{ reply := r }, rfl⟩
  | getReply =>
    cases r with
    | ok reply => exact ⟨{ reply }, rfl⟩
    | failed err => exact ⟨{ ok := false, err }, rfl⟩
  | _ => exact ⟨{}, rfl⟩

/-- The server answers in a way that the pool allows for. -/
theorem respond_pool (e : Env) (o : Outcome) (c : Call) (r : c.Answer) (e' : Env)
    (h : e.respond o c = some (r, e')) : ∃ o', respond e.pool 0 o' c = some (r, e'.pool) := by
  cases c with
  | use cc u =>
    have h : e.use o cc u = (r, e') := Option.some.inj h
    have hpool : e'.pool = e.pool := by simpa only [h] using pool_use (e := e) (o := o) cc u
    -- any answer of the library is one that the pool alone may give
    obtain ⟨o', rfl⟩ := exists_outcome u r
    exact ⟨o', by rw [respond, hpool]⟩
  | replyType r =>
    obtain ⟨rfl, rfl⟩ := Prod.mk.inj (Option.some.inj h)
    exact ⟨{ type := (e.reply r).type }, rfl⟩
  | replyStr r =>
    obtain ⟨rfl, rfl⟩ := Prod.mk.inj (Option.some.inj h)
    exact ⟨{ str := (e.reply r).str }, rfl⟩
  | replyInteger r =>
    obtain ⟨rfl, rfl⟩ := Prod.mk.inj (Option.some.inj h)
    exact ⟨{ integer := (e.reply r).number }, rfl⟩
  | replyElement r i =>
    obtain ⟨rfl, rfl⟩ := Prod.mk.inj (Option.some.inj h)
    exact ⟨{ str := (e.reply r).element i }, rfl⟩
  | _ => exact ⟨o, (respondPool_eq_some h).1⟩

/-- A run over the server is a run of the pool. -/
theorem yields_pool {α : Type} {p : Client α} {a : α} (h : e.Yields p a e') :
    p.Yields (respond · 0) e.pool a e'.pool :=
  Prog.Yields.project (g := Env.pool) respond_pool h

end Respond

/-! ## Calls that leave the server alone -/

/-- A use of a context that has nothing to do with commands. -/
def Use.Quiet : Use → Prop
  | .appendCommand _ | .command _ | .commandArgv _ | .getReply | .reset => False
  | _ => True

/-- A call that has nothing to do with commands. -/
def Call.Quiet : Call → Prop
  | .use _ u => u.Quiet
  | _ => True

/-- A program of such calls. -/
abbrev Quiet {α : Type} (p : Client α) : Prop := p.Only Call.Quiet

/-- A call that has nothing to do with commands and replies, and does not end the process. -/
def Call.Apart : Call → Prop
  | .use _ u => u.Quiet
  | .replyType _ | .replyStr _ | .replyInteger _ | .replyElement _ _ | .freeReply _ => False
  | .fault => False
  | _ => True

theorem Call.Apart.quiet {c : Call} (h : c.Apart) : c.Quiet := by
  cases c with
  | use cc u => exact h
  | _ => exact trivial

/-- A program of such calls. -/
abbrev Apart {α : Type} (p : Client α) : Prop := p.Only Call.Apart

/-- All but the pool is as it was. -/
structure Env.Same (e e' : Env) : Prop where
  store : e'.store = e.store
  pending : e'.pending = e.pending
  reply : e'.reply = e.reply

theorem Env.Same.refl (e : Env) : e.Same e := ⟨rfl, rfl, rfl⟩

theorem Env.Same.trans {e₁ e₂ e₃ : Env} (h : e₁.Same e₂) (h' : e₂.Same e₃) : e₁.Same e₃ :=
  ⟨h'.store.trans h.store, h'.pending.trans h.pending, h'.reply.trans h.reply⟩

theorem same_of_respond {e e' : Env} {o : Outcome} {c : Call} {r : c.Answer} (hc : c.Quiet)
    (h : e.respond o c = some (r, e')) : e.Same e' := by
  cases c with
  | use cc u =>
    have h : e.use o cc u = (r, e') := Option.some.inj h
    -- the uses that have to do with commands are not quiet
    cases u <;> first | exact hc.elim | skip
    all_goals
      obtain ⟨-, rfl⟩ := Prod.mk.inj h
      exact .refl e
  | replyType r | replyStr r | replyInteger r | replyElement r i =>
    obtain ⟨-, rfl⟩ := Prod.mk.inj (Option.some.inj h)
    exact .refl e
  | _ =>
    rw [(respondPool_eq_some h).2]
    exact ⟨rfl, rfl, rfl⟩

/-- Quiet programs leave all but the pool as it was. -/
theorem Quiet.same {α : Type} {p : Client α} (hp : Quiet p) {e e' : Env} {a : α}
    (h : e.Yields p a e') : e.Same e' :=
  Prog.Only.keeps (I := e.Same)
    (fun _ _ _ _ _ hc hr hs => hs.trans (same_of_respond hc hr)) hp h (.refl e)

section Apart

variable (c : Conn)

theorem apart_dropContext : Apart (dropContext c) := by
  refine ⟨trivial, fun v => ?_⟩
  change Apart (if v.cc.isSome then _ else _)
  split
  · exact ⟨trivial, fun _ => ⟨trivial, fun _ => trivial⟩⟩
  · exact trivial

theorem apart_createContext : Apart (createContext c) := by
  refine (apart_dropContext c).bind fun _ => ⟨trivial, fun cc => ?_⟩
  cases cc with
  | none => exact trivial
  | some x =>
    refine ⟨trivial, fun _ => ⟨trivial, fun _ => ⟨trivial, fun _ => ⟨trivial, fun err => ?_⟩⟩⟩⟩
    cases err with
    | false => exact ⟨trivial, fun _ => trivial⟩
    | true =>
      refine ⟨trivial, fun _ => ⟨trivial, fun time => ?_⟩⟩
      exact ⟨trivial, fun _ => ⟨trivial, fun _ => trivial⟩⟩

theorem apart_releaseContext : Apart (releaseContext c) := by
  refine Prog.Only.bind (p := freeAnyContext c) ⟨trivial, fun v => ?_⟩ fun _ => ?_
  · change Apart (if v.cc.isSome then _ else _)
    split
    · exact ⟨trivial, fun _ => trivial⟩
    · exact trivial
  · exact ⟨trivial, fun time => ⟨trivial, fun _ => trivial⟩⟩

theorem apart_trypopRetries (n : ℕ) : Apart (trypopRetries n) := by
  induction n with
  | zero => exact ⟨trivial, fun _ => trivial⟩
  | succ n ih =>
    refine ⟨trivial, fun r => ?_⟩
    cases r with
    | none => exact ih
    | some c => exact trivial

theorem apart_checkConnection : Apart (checkConnection c) := by
  refine ⟨trivial, fun v => ?_⟩
  change Apart (if v.connected then _ else _)
  split
  · exact trivial
  · refine ⟨trivial, fun now => ?_⟩
    change Apart (if v.connectTime > now / 1000 then _ else _)
    split
    · exact (apart_createContext c).bind fun _ => trivial
    · exact trivial

theorem apart_getConnection : Apart getConnection := by
  refine ⟨trivial, fun running => ?_⟩
  cases running with
  | false => exact trivial
  | true =>
    refine (apart_trypopRetries _).bind fun r => ?_
    cases r with
    | none => exact trivial
    | some c =>
      refine (apart_checkConnection c).bind fun ok => ?_
      cases ok with
      | false => exact ⟨trivial, fun _ => trivial⟩
      | true => exact trivial

theorem apart_freeConnection : Apart (freeConnection c) := by
  refine ⟨trivial, fun running => ?_⟩
  cases running with
  | false => exact apart_releaseContext c
  | true =>
    refine Prog.Only.bind (p := releaseOnError c) ⟨trivial, fun v => ?_⟩ fun _ =>
      ⟨trivial, fun _ => trivial⟩
    obtain ⟨_, _ | cc, _⟩ := v
    · exact trivial
    · refine ⟨trivial, fun err => ?_⟩
      cases err with
      | false => exact trivial
      | true => exact apart_releaseContext c

theorem quiet_getConnection : Quiet getConnection :=
  apart_getConnection.mono fun _ => Call.Apart.quiet

theorem quiet_freeConnection : Quiet (freeConnection c) :=
  (apart_freeConnection c).mono fun _ => Call.Apart.quiet

end Apart

/-! ## The operations that send one command -/

/-- The command has been carried out and its reply is there. -/
structure Answered (e : Env) (cmd : List (List Byte)) (r : Reply) (e' : Env) : Prop where
  reply : e'.reply r = (e.store.exec cmd).1
  store : e'.store = (e.store.exec cmd).2
  pending : e'.pending = e.pending

section Single

variable {e e' : Env} {o : Outcome} {out : Output}

/-- A reply other than an error comes from a command that has been carried out. -/
theorem answered_send {cmd : List (List Byte)} {r : Reply} (h : e.send o cmd = (some r, e'))
    (ht : (e'.reply r).type ≠ .error) : Answered e cmd r e' := by
  unfold Env.send at h
  split at h
  · cases h
  · split at h
    · cases h
      simp [Data.type] at ht
    · cases h
      exact ⟨Function.update_self .., rfl, rfl⟩

theorem Answered.of_same {e₀ : Env} {cmd : List (List Byte)} {r : Reply}
    (h : Answered e₀ cmd r e') (hs : e.Same e₀) : Answered e cmd r e' :=
  ⟨by rw [← hs.store, h.reply], by rw [← hs.store, h.store], by rw [← hs.pending, h.pending]⟩

theorem Answered.same {e₀ : Env} {cmd : List (List Byte)} {r : Reply}
    (h : Answered e cmd r e₀) (hs : e₀.Same e') : Answered e cmd r e' :=
  ⟨by rw [hs.reply, h.reply], by rw [hs.store, h.store], by rw [hs.pending, h.pending]⟩

/-- A call that only looks at something. -/
theorem yields_look {α : Type} {c : Call} {r : c.Answer} {f : c.Answer → Client α} {a : α}
    (hc : ∀ o, e.respond o c = some (r, e)) (h : e.Yields (Prog.call c f) a e') :
    e.Yields (f r) a e' := by
  obtain ⟨o, r', e₁, hr, h⟩ := Prog.yields_call.mp h
  obtain ⟨rfl, rfl⟩ := Prod.mk.inj (Option.some.inj ((hc o).symm.trans hr))
  exact h

theorem yields_read {α : Type} {c : Conn} {f : Connection → Client α} {a : α}
    (h : e.Yields (read c >>= f) a e') : e.Yields (f (e.pool.conn c)) a e' :=
  yields_look (c := .read c) (fun _ => rfl) h

/-- A use of the context of a connection. -/
theorem yields_use {α : Type} {c : Conn} {u : Use} {f : u.Answer → Client α} {a : α}
    (h : e.Yields (read c >>= fun v => use v.cc u >>= f) a e') :
    ∃ o, (e.use o (e.pool.conn c).cc u).2.Yields (f (e.use o (e.pool.conn c).cc u).1) a e' := by
  have h := yields_read h
  obtain ⟨o, r, e₂, hr, h⟩ := Prog.yields_call.mp h
  have hr : e.use o (e.pool.conn c).cc u = (r, e₂) := Option.some.inj hr
  exact ⟨o, by rw [hr]; exact h⟩

/-- A program that faults gives no result. -/
theorem not_yields_fault {β : Type} {next : Empty → Client β} {b : β} :
    ¬ e.Yields (Prog.call .fault next) b e' := by
  intro h
  obtain ⟨_, r, _, _, _⟩ := Prog.yields_call.mp h
  exact r.elim

/-- An operation that succeeds has got a connection. -/
theorem yields_withConnection {body : Conn → Client Result}
    (h : e.Yields (withConnection body) (.success, out) e') :
    ∃ c e₁, e.Same e₁ ∧ e₁.Yields (body c) (.success, out) e' := by
  obtain ⟨r, e₁, hr, h⟩ := Prog.Yields.of_bind h
  cases r with
  | none =>
    obtain ⟨h, -⟩ := Prog.yields_ret.mp h
    -- without a connection the operation does not succeed
    cases h
  | some c => exact ⟨c, e₁, quiet_getConnection.same hr, h⟩

theorem yields_checked {valid : Bool} {op : Client Result}
    (h : e.Yields (checked valid op) (.success, out) e') :
    valid = true ∧ e.Yields op (.success, out) e' := by
  cases valid with
  | false =>
    obtain ⟨h, -⟩ := Prog.yields_ret.mp h
    cases h
  | true => exact ⟨rfl, h⟩

theorem yields_replyType {α : Type} {r : Reply} {f : ReplyType → Client α} {a : α}
    (h : e.Yields (replyType r >>= f) a e') : e.Yields (f (e.reply r).type) a e' :=
  yields_look (c := .replyType r) (fun _ => rfl) h

theorem yields_replyStr {α : Type} {r : Reply} {f : Option (List Byte) → Client α} {a : α}
    (h : e.Yields (replyStr r >>= f) a e') : e.Yields (f (e.reply r).str) a e' :=
  yields_look (c := .replyStr r) (fun _ => rfl) h

theorem yields_replyElement {α : Type} {r : Reply} {i : ℕ} {f : Option (List Byte) → Client α}
    {a : α} (h : e.Yields (replyElement r i >>= f) a e') :
    e.Yields (f ((e.reply r).element i)) a e' :=
  yields_look (c := .replyElement r i) (fun _ => rfl) h

theorem yields_freeReply {α : Type} {r : Option Reply} {f : Unit → Client α} {a : α}
    (h : e.Yields (freeReply r >>= f) a e') : e.Yields (f ()) a e' :=
  yields_look (c := .freeReply r) (fun _ => rfl) h

/-- A reply that is missing or an error fails the operation. -/
theorem eq_of_yields_failed {α : Type} {reply : Option Reply} {a b : α}
    (h : e.Yields (do logError reply; freeReply reply; return b) a e') : a = b := by
  obtain ⟨_, e₁, -, h⟩ := Prog.Yields.of_bind h
  have h := yields_freeReply h
  exact (Prog.yields_ret.mp h).1

theorem yields_handleReply {output : Reply → Client Output} {reply : Option Reply}
    (h : e.Yields (handleReply output reply) (.success, out) e') :
    ∃ r, reply = some r ∧ (e.reply r).type ≠ .error ∧ e.Yields (output r) out e' := by
  cases reply with
  | none => cases eq_of_yields_failed h
  | some r =>
    have h := yields_replyType h
    by_cases ht : (e.reply r).type = .error
    · rw [if_pos ht] at h
      cases eq_of_yields_failed h
    · rw [if_neg ht] at h
      obtain ⟨out', e₁, hout, h⟩ := Prog.Yields.of_bind h
      have h := yields_freeReply h
      obtain ⟨⟨⟩, rfl⟩ := Prog.yields_ret.mp h
      exact ⟨r, rfl, ht, hout⟩

/-- An operation that sends one command and puts the connection back before it looks at the
reply. -/
theorem yields_sent {cmd : List (List Byte)} {c : Conn} {handle : Option Reply → Client Result}
    (h : (e.send o cmd).2.Yields (freeConnection c >>= fun _ => handle (e.send o cmd).1)
      (.success, out) e')
    (hhandle : ∀ (e₁ : Env) reply, e₁.Yields (handle reply) (.success, out) e' →
      ∃ r, reply = some r ∧ (e₁.reply r).type ≠ .error) :
    ∃ r e₁, Answered e cmd r e₁ ∧ e₁.Yields (handle (some r)) (.success, out) e' := by
  obtain ⟨_, e₁, hfree, h⟩ := Prog.Yields.of_bind h
  -- the reply is looked at only after the connection is back, which changes no reply
  have hs := (quiet_freeConnection c).same hfree
  obtain ⟨r, hr, ht⟩ := hhandle _ _ h
  rw [hs.reply] at ht
  rw [hr] at h
  exact ⟨r, e₁, (answered_send (Prod.ext hr rfl) ht).same hs, h⟩

/-- A reply is handled as one that is there and no error, or the operation fails. -/
theorem handleReply_some {output : Reply → Client Output} {reply : Option Reply}
    (h : e.Yields (handleReply output reply) (.success, out) e') :
    ∃ r, reply = some r ∧ (e.reply r).type ≠ .error := by
  obtain ⟨r, hr, ht, -⟩ := yields_handleReply h
  exact ⟨r, hr, ht⟩

theorem yields_commandOp {cmd : List (List Byte)} {output : Reply → Client Output}
    (h : e.Yields (commandOp cmd output) (.success, out) e') :
    ∃ r e₁, Answered e cmd r e₁ ∧ e₁.Yields (output r) out e' := by
  obtain ⟨c, e₁, hs, h⟩ := yields_withConnection h
  obtain ⟨o, h⟩ := yields_use h
  obtain ⟨r, e₂, ha, h⟩ := yields_sent h fun _ _ => handleReply_some
  obtain ⟨_, hr, -, h⟩ := yields_handleReply h
  cases hr
  exact ⟨r, e₂, ha.of_same hs, h⟩

theorem yields_hashOp {cmd : String} {tablename : CStr} {keys : List CStr}
    {keyvalues : List KeyValue} {handle : Option Reply → Client Result}
    (hne : keys.isEmpty ≠ keyvalues.isEmpty)
    (h : e.Yields (hashOp cmd tablename keys keyvalues handle) (.success, out) e')
    (hhandle : ∀ (e₁ : Env) reply, e₁.Yields (handle reply) (.success, out) e' →
      ∃ r, reply = some r ∧ (e₁.reply r).type ≠ .error) :
    ∃ words r e₁, hashWords cmd tablename keys keyvalues = some words ∧ Answered e words r e₁ ∧
      e₁.Yields (handle (some r)) (.success, out) e' := by
  obtain ⟨c, e₁, hs, h⟩ := yields_withConnection h
  rw [agcRedisHashargv, if_neg hne] at h
  cases hwords : hashWords cmd tablename keys keyvalues with
  | none =>
    -- a value that is NULL ends the process
    rw [hwords] at h
    exact (not_yields_fault h).elim
  | some words =>
    rw [hwords] at h
    obtain ⟨o, h⟩ := yields_use h
    obtain ⟨r, e₂, ha, h⟩ := yields_sent h hhandle
    exact ⟨words, r, e₂, rfl, ha.of_same hs, h⟩

end Single

/-! ## Pipelines -/

/-- The commands that wait for their replies at the context of a connection. -/
def Env.queued (e : Env) (c : Conn) : List (List (List Byte)) :=
  (e.pool.conn c).cc.elim [] e.pending

/-- No commands wait anywhere. -/
def Env.Idle (e : Env) : Prop := ∀ x, e.pending x = []

/-- The first of the commands that wait has been carried out, and its reply is there. -/
structure Taken (e : Env) (c : Conn) (cmd : List (List Byte)) (r : Reply) (e' : Env) : Prop where
  queued : e.queued c = cmd :: e'.queued c
  reply : e'.reply r = (e.store.exec cmd).1
  store : e'.store = (e.store.exec cmd).2

section Pipeline

variable {e e' : Env} {o : Outcome} {c : Conn}

theorem Env.Idle.queued (h : e.Idle) (c : Conn) : e.queued c = [] := by
  unfold Env.queued
  cases (e.pool.conn c).cc with
  | none => rfl
  | some x => exact h x

theorem Env.Idle.same (h : e.Idle) (hs : e.Same e') : e'.Idle := fun x => by
  rw [hs.pending]
  exact h x

/-- A command is appended, or nothing happens. -/
theorem use_appendCommand (cmd : List (List Byte)) :
    ((e.use o (e.pool.conn c).cc (.appendCommand cmd)).1 = true ∧
      (e.use o (e.pool.conn c).cc (.appendCommand cmd)).2.queued c = e.queued c ++ [cmd] ∧
      (e.use o (e.pool.conn c).cc (.appendCommand cmd)).2.store = e.store) ∨
    e.use o (e.pool.conn c).cc (.appendCommand cmd) = (false, e) := by
  cases hcc : (e.pool.conn c).cc with
  | none => exact Or.inr rfl
  | some x =>
    cases ho : o.ok with
    | false => exact Or.inr (by simp [Env.use, ho])
    | true => exact Or.inl (by simp [Env.use, ho, Env.queued, hcc])

/-- A reply other than an error is that of the first command. -/
theorem use_getReply {r : Reply} {e₁ : Env}
    (h : e.use o (e.pool.conn c).cc .getReply = (.ok (some r), e₁))
    (ht : (e₁.reply r).type ≠ .error) : ∃ cmd, Taken e c cmd r e₁ := by
  cases hcc : (e.pool.conn c).cc with
  | none =>
    rw [hcc] at h
    cases h
  | some x =>
    rw [hcc] at h
    -- a reply that is there is that of a command that waited
    replace h : e.getReply o x = (.ok (some r), e₁) := h
    rw [Env.getReply] at h
    cases hx : e.pending x with
    | nil =>
      simp only [hx] at h
      split at h <;> cases h
    | cons cmd cmds =>
      obtain ⟨⟨reply, e₂⟩, hs⟩ : ∃ y, e.send o cmd = y := ⟨_, rfl⟩
      have hpool : e₂.pool = e.pool := by simpa only [hs] using pool_send (e := e) (o := o) cmd
      simp only [hx, hs, Prod.mk.injEq] at h
      obtain ⟨hreply, rfl⟩ := h
      cases reply with
      | none => cases hreply
      | some r' =>
        cases hreply
        have ha := answered_send hs ht
        exact ⟨cmd, by simp [Env.queued, hpool, hcc, hx], ha.reply, ha.store⟩

/-- The commands that get appended are among those given, in order. -/
theorem yields_appendAll {cmds : List (Option (List (List Byte)))} {u : Unit}
    (h : e.Yields (appendAll c cmds) u e') :
    ∃ given sent, cmds = given.map some ∧ sent.Sublist given ∧
      e'.queued c = e.queued c ++ sent ∧ e'.store = e.store := by
  induction cmds generalizing e with
  | nil =>
    obtain ⟨-, rfl⟩ := Prog.yields_ret.mp h
    exact ⟨[], [], rfl, .slnil, by simp, rfl⟩
  | cons cmd cmds ih =>
    cases cmd with
    | none => exact (not_yields_fault h).elim
    | some cmd =>
      obtain ⟨o, h⟩ := yields_use h
      obtain ⟨given, sent, rfl, hsub, hq, hstore⟩ := ih h
      rcases use_appendCommand (o := o) cmd with ⟨-, hq', hstore'⟩ | heq
      · -- the command is appended
        refine ⟨cmd :: given, cmd :: sent, rfl, hsub.cons_cons cmd, ?_, hstore.trans hstore'⟩
        rw [hq, hq', List.append_assoc]
        rfl
      · -- the command is lost, and the loop goes on as if it was appended
        rw [heq] at hq hstore
        exact ⟨cmd :: given, sent, rfl, hsub.cons cmd, hq, hstore⟩

/-- The commands carried out one after the other. -/
def Store.execAll (s : Store) (cmds : List (List (List Byte))) : Store :=
  cmds.foldl (fun s cmd => (s.exec cmd).2) s

/-- A round of `agc_redis_multireplies` after which the loop goes on. -/
theorem yields_nextReply (h : e.Yields (nextReply c) true e') :
    ∃ cmd, e.queued c = cmd :: e'.queued c ∧ e'.store = (e.store.exec cmd).2 := by
  obtain ⟨o, h⟩ := yields_use h
  obtain ⟨⟨got, e₁⟩, hu⟩ : ∃ x, e.use o (e.pool.conn c).cc .getReply = x := ⟨_, rfl⟩
  rw [hu] at h
  cases got with
  | failed err =>
    -- the library failed, and the loop ends with an error unless the log line faults
    obtain ⟨_, logs, e₂, -, h⟩ := Prog.yields_call.mp h
    replace h : e₂.Yields (if logs && err then fault else return false) true e' := h
    split at h
    · exact (not_yields_fault h).elim
    · cases (Prog.yields_ret.mp h).1
  | ok reply =>
    cases reply with
    | none => cases (Prog.yields_ret.mp h).1
    | some r =>
      have h := yields_replyType h
      by_cases ht : (e₁.reply r).type = .error
      · -- an error of the server ends the loop as well
        rw [if_pos ht] at h
        have h := yields_replyStr h
        have h := yields_freeReply h
        cases (Prog.yields_ret.mp h).1
      · rw [if_neg ht] at h
        have h := yields_freeReply h
        obtain ⟨-, rfl⟩ := Prog.yields_ret.mp h
        obtain ⟨cmd, htaken⟩ := use_getReply hu ht
        exact ⟨cmd, htaken.queued, htaken.store⟩

/-- The loop of `agc_redis_multireplies` succeeds when that many commands have been waiting; they
are carried out in order. -/
theorem yields_multirepliesLoop {n : ℕ} (h : e.Yields (multirepliesLoop c n) .success e') :
    n ≤ (e.queued c).length ∧ e'.store = e.store.execAll ((e.queued c).take n) := by
  induction n generalizing e with
  | zero =>
    obtain ⟨-, rfl⟩ := Prog.yields_ret.mp h
    exact ⟨Nat.zero_le _, rfl⟩
  | succ n ih =>
    obtain ⟨more, e₁, hnext, h⟩ := Prog.Yields.of_bind h
    cases more with
    | false => cases (Prog.yields_ret.mp h).1
    | true =>
      obtain ⟨cmd, hq, hstore⟩ := yields_nextReply hnext
      obtain ⟨hlen, hstore'⟩ := ih h
      rw [hq, List.take_succ_cons, List.length_cons, hstore', hstore]
      exact ⟨Nat.succ_le_succ hlen, rfl⟩

/-- A reset leaves the store alone, and no command waits at the context. -/
theorem yields_resetContext {u : Unit} (h : e.Yields (resetContext c) u e') :
    e'.store = e.store ∧
      ∀ x, e'.pending x = if (e.pool.conn c).cc = some x then [] else e.pending x := by
  have h := yields_read h
  cases hcc : (e.pool.conn c).cc with
  | none =>
    rw [hcc] at h
    obtain ⟨-, rfl⟩ := Prog.yields_ret.mp h
    exact ⟨rfl, by simp⟩
  | some y =>
    rw [hcc] at h
    obtain ⟨_, _, e₂, hu, h⟩ := Prog.yields_call.mp h
    obtain ⟨-, rfl⟩ := Prog.yields_ret.mp h
    obtain ⟨-, rfl⟩ := Prod.mk.inj (Option.some.inj hu)
    refine ⟨rfl, fun x => ?_⟩
    simp only [Function.update_apply, Option.some.injEq, eq_comm]

theorem yields_agcRedisMultireplies {n : ℕ}
    (h : e.Yields (agcRedisMultireplies c n) .success e') :
    n ≤ (e.queued c).length ∧ e'.store = e.store.execAll ((e.queued c).take n) := by
  obtain ⟨status, e₁, hloop, h⟩ := Prog.Yields.of_bind h
  obtain ⟨_, e₂, hreset, h⟩ := Prog.Yields.of_bind h
  obtain ⟨rfl, rfl⟩ := Prog.yields_ret.mp h
  rw [(yields_resetContext hreset).1]
  exact yields_multirepliesLoop hloop

end Pipeline

/-! ## Between the operations

An operation that appends commands resets the context before it puts the connection back, whether
or not all replies have come. So no command of one operation waits when the next one starts. -/

/-- Without a connection a program makes no use of a context. -/
theorem Within.quiet {α : Type} {p : Client α} (hp : Within .free p) : Quiet p := by
  induction p with
  | ret a => exact trivial
  | call c next ih =>
    obtain ⟨⟨hallowed, hinner⟩, hnext⟩ := hp
    cases c with
    -- these are calls of the pool, which an operation makes only through its functions
    | systemRunning | allocConnection | trypop | push c | curtime => exact hinner.elim
    | read c =>
      obtain ⟨_, _, h⟩ := hallowed
      cases h
    | write c value =>
      obtain ⟨⟨_, _, h⟩, -⟩ := hallowed
      cases h
    | contextInit =>
      obtain ⟨_, _, _, h⟩ := hallowed
      cases h
    | use cc u =>
      obtain ⟨_, _, _, _, h, -⟩ := hallowed
      cases h
    | freeContext cc =>
      obtain ⟨_, _, _, _, h, -⟩ := hallowed
      cases h
    | _ => exact ⟨trivial, fun r => ih r (hnext r .free rfl)⟩

/-- The program leaves no command waiting if none waited before. -/
def Resting {α : Type} (p : Client α) : Prop :=
  ∀ (e : Env) (a : α) (e' : Env), e.Idle → e.Yields p a e' → e'.Idle

/-- The commands that wait at other contexts than that of the connection are left alone. -/
structure Touches (c : Conn) (e e' : Env) : Prop where
  pool : e'.pool = e.pool
  pending : ∀ x, (e.pool.conn c).cc ≠ some x → e'.pending x = e.pending x

/-- The program uses no context but that of the connection. -/
def Touching {α : Type} (c : Conn) (p : Client α) : Prop :=
  ∀ (e : Env) (a : α) (e' : Env), e.Yields p a e' → Touches c e e'

section Resting

variable {α β : Type} {p : Client α} {f : α → Client β} {c : Conn} {e e₁ e₂ : Env}

theorem resting_ret (a : α) : Resting (pure a) := by
  intro e b e' he h
  obtain ⟨-, rfl⟩ := Prog.yields_ret.mp h
  exact he

theorem Resting.bind (hp : Resting p) (hf : ∀ a, Resting (f a)) : Resting (p >>= f) := by
  intro e b e' he h
  obtain ⟨a, e₁, h₁, h₂⟩ := Prog.Yields.of_bind h
  exact hf a e₁ b e' (hp e a e₁ he h₁) h₂

theorem Quiet.resting (hp : Quiet p) : Resting p :=
  fun _ _ _ he h => he.same (hp.same h)

theorem Touches.refl (c : Conn) (e : Env) : Touches c e e := ⟨rfl, fun _ _ => rfl⟩

theorem Touches.trans (h : Touches c e e₁) (h' : Touches c e₁ e₂) : Touches c e e₂ := by
  refine ⟨h'.pool.trans h.pool, fun x hx => ?_⟩
  rw [h'.pending x (by rwa [h.pool]), h.pending x hx]

theorem touching_ret (a : α) : Touching c (pure a) := by
  intro e b e' h
  obtain ⟨-, rfl⟩ := Prog.yields_ret.mp h
  exact .refl c e'

theorem Touching.bind (hp : Touching c p) (hf : ∀ a, Touching c (f a)) :
    Touching c (p >>= f) := by
  intro e b e' h
  obtain ⟨a, e₁, h₁, h₂⟩ := Prog.Yields.of_bind h
  exact (hp e a e₁ h₁).trans (hf a e₁ b e' h₂)

@[simp] theorem pending_send {o : Outcome} (cmd : List (List Byte)) :
    (e.send o cmd).2.pending = e.pending := by
  unfold Env.send
  split
  · split <;> rfl
  · split <;> rfl

theorem touches_use {o : Outcome} (u : Use) :
    Touches c e (e.use o (e.pool.conn c).cc u).2 := by
  refine ⟨pool_use .., fun y hy => ?_⟩
  cases hcc : (e.pool.conn c).cc with
  | none => cases u <;> simp [Env.use]
  | some x =>
    have hne : y ≠ x := fun h => hy (by rw [hcc, h])
    cases u <;> simp only [Env.use, pending_send]
    case appendCommand cmd =>
      split
      · exact Function.update_of_ne hne ..
      · rfl
    case getReply =>
      unfold Env.getReply
      split
      · rfl
      · exact Function.update_of_ne hne ..
    case reset => exact Function.update_of_ne hne ..

/-- A use of the context of the connection. -/
theorem Touching.use {u : Use} {f : u.Answer → Client β} (hf : ∀ r, Touching c (f r)) :
    Touching c (read c >>= fun v => Redis.use v.cc u >>= f) := by
  intro e b e' h
  obtain ⟨o, h⟩ := yields_use h
  exact (touches_use u).trans (hf _ _ b e' h)

/-- What looks at a reply touches nothing. -/
theorem touching_replyType (r : Reply) {f : ReplyType → Client β}
    (hf : ∀ t, Touching c (f t)) : Touching c (replyType r >>= f) :=
  fun e b e' h => hf _ e b e' (yields_replyType h)

theorem touching_replyStr (r : Reply) {f : Option (List Byte) → Client β}
    (hf : ∀ s, Touching c (f s)) : Touching c (replyStr r >>= f) :=
  fun e b e' h => hf _ e b e' (yields_replyStr h)

theorem touching_freeReply (r : Option Reply) {f : Unit → Client β}
    (hf : Touching c (f ())) : Touching c (freeReply r >>= f) :=
  fun e b e' h => hf e b e' (yields_freeReply h)

/-- After a reset nothing waits. -/
theorem Touching.reset (hp : Touching c p) (hf : ∀ a, Resting (f a)) :
    Resting (p >>= fun a => resetContext c >>= fun _ => f a) := by
  intro e b e' he h
  obtain ⟨a, e₁, h₁, h⟩ := Prog.Yields.of_bind h
  obtain ⟨_, e₂, h₂, h⟩ := Prog.Yields.of_bind h
  refine hf a e₂ b e' (fun x => ?_) h
  have htouches := hp e a e₁ h₁
  rw [(yields_resetContext h₂).2 x, htouches.pool]
  split
  · -- at the context of the connection the reset has left nothing
    rfl
  · rename_i hx
    -- at every other one nothing waited before and nothing was appended
    rw [htouches.pending x hx]
    exact he x

theorem touching_logError (reply : Option Reply) {f : Unit → Client β}
    (hf : Touching c (f ())) : Touching c (logError reply >>= f) := by
  refine Touching.bind ?_ fun _ => hf
  cases reply with
  | none => exact touching_ret ()
  | some r =>
    refine touching_replyType r fun t => ?_
    split
    · exact touching_replyStr r fun _ => touching_ret _
    · exact touching_ret _

theorem touching_logsErrors {f : Bool → Client β} (hf : ∀ logs, Touching c (f logs)) :
    Touching c (logsErrors >>= f) := by
  intro e b e' h
  obtain ⟨_, logs, e₁, hr, hrest⟩ := Prog.yields_call.mp h
  obtain ⟨hpool, heq⟩ := respondPool_eq_some hr
  obtain ⟨-, hsame⟩ := Prod.mk.inj (Option.some.inj hpool)
  obtain rfl : e₁ = e := by rw [heq, ← hsame]
  exact hf logs e₁ b e' hrest

theorem touching_fault {next : Empty → Client α} : Touching c (Prog.call .fault next) :=
  fun _ _ _ h => (not_yields_fault h).elim

theorem touching_appendAll (cmds : List (Option (List (List Byte)))) :
    Touching c (appendAll c cmds) := by
  induction cmds with
  | nil => exact touching_ret _
  | cons cmd cmds ih =>
    cases cmd with
    | none => exact touching_fault
    | some cmd => exact Touching.use fun _ => ih

theorem touching_appendSet (key : CStr) (value : List Byte) (expires : ℤ) :
    Touching c (appendSet c key value expires) := by
  refine Touching.use fun ok => ?_
  split
  · split
    · refine Touching.use fun ok' => ?_
      split
      · exact touching_ret _
      · exact Touching.use fun _ => touching_ret _
    · exact touching_ret _
  · exact Touching.use fun _ => touching_ret _

theorem touching_nextReply : Touching c (nextReply c) := by
  refine Touching.use fun got => ?_
  cases got with
  | failed err =>
    refine touching_logsErrors fun logs => ?_
    split
    · exact touching_fault
    · exact touching_ret _
  | ok reply =>
    cases reply with
    | none => exact touching_ret _
    | some r =>
      refine touching_replyType r fun t => ?_
      split
      · exact touching_replyStr r fun _ => touching_freeReply _ (touching_ret _)
      · exact touching_freeReply _ (touching_ret _)

theorem touching_multirepliesLoop (n : ℕ) : Touching c (multirepliesLoop c n) := by
  induction n with
  | zero => exact touching_ret _
  | succ n ih =>
    refine touching_nextReply.bind fun more => ?_
    split
    · exact ih
    · exact touching_ret _

theorem touching_collectReplies (keys : List CStr) : Touching c (collectReplies c keys) := by
  induction keys with
  | nil => exact touching_ret _
  | cons key keys ih =>
    have hfail : ∀ reply : Option Reply, Touching c
        (do logError reply; freeReply reply; return (.generr, []) :
          Client (AgcStatus × List KeyValue)) :=
      fun reply => touching_logError reply (touching_freeReply reply (touching_ret _))
    refine Touching.use fun got => ?_
    rcases got with (_ | r) | err
    · exact hfail none
    · refine touching_replyType r fun t => ?_
      split
      · exact hfail (some r)
      · refine Touching.bind ?_ fun _ => touching_freeReply _ (ih.bind fun _ => touching_ret _)
        refine touching_replyType r fun t => ?_
        split
        · exact touching_replyStr r fun _ => touching_ret _
        · exact touching_ret _
    · exact hfail none

end Resting

/-! ### The operations -/

section Operations

theorem resting_withConnection {body : Conn → Client Result} (hbody : ∀ c, Resting (body c)) :
    Resting (withConnection body) := by
  refine quiet_getConnection.resting.bind fun r => ?_
  cases r with
  | none => exact resting_ret _
  | some c => exact hbody c

/-- The connection is put back, and the operation goes on without it. -/
theorem resting_freeConnection (c : Conn) {p : Client Result} (hp : Within .free p) :
    Resting (freeConnection c >>= fun _ => p) :=
  (quiet_freeConnection c).resting.bind fun _ => hp.quiet.resting

/-- A use of a context other than in a pipeline. -/
theorem resting_use {β : Type} (c : Conn) {u : Use} {f : u.Answer → Client β}
    (hu : ∀ (e : Env) o cc, (e.use o cc u).2.pending = e.pending) (hf : ∀ r, Resting (f r)) :
    Resting (read c >>= fun v => use v.cc u >>= f) := by
  intro e b e' he h
  obtain ⟨o, h⟩ := yields_use h
  refine hf _ _ b e' (fun x => ?_) h
  rw [hu]
  exact he x

theorem resting_checked (valid : Bool) {op : Client Result} (h : Resting op) :
    Resting (checked valid op) := by
  cases valid with
  | false => exact resting_ret _
  | true => exact h

theorem resting_commandOp (cmd : List (List Byte)) {output : Reply → Client Output}
    (hout : ∀ r, Within .free (output r)) : Resting (commandOp cmd output) :=
  resting_withConnection fun c => resting_use c (fun _ _ _ => pending_send cmd) fun reply =>
    resting_freeConnection c (within_handleReply hout reply)

theorem resting_fault {α : Type} {next : Empty → Client α} : Resting (Prog.call .fault next) :=
  fun _ _ _ _ h => (not_yields_fault h).elim

theorem resting_hashOp (cmd : String) (tablename : CStr) (keys : List CStr)
    (keyvalues : List KeyValue) {handle : Option Reply → Client Result}
    (hhandle : ∀ reply, Within .free (handle reply)) :
    Resting (hashOp cmd tablename keys keyvalues handle) := by
  refine resting_withConnection fun c => ?_
  rw [agcRedisHashargv]
  split
  · exact resting_freeConnection c (hhandle none)
  · cases hashWords cmd tablename keys keyvalues with
    | none => exact resting_fault
    | some words =>
      exact resting_use c (fun _ _ _ => pending_send words) fun reply =>
        resting_freeConnection c (hhandle reply)

/-- The commands of a pipeline are appended, and their replies asked for. -/
theorem resting_multireplies (c : Conn) {p : Client ℕ} (hp : Touching c p) :
    Resting (do
      let status ← agcRedisMultireplies c (← p)
      freeConnection c
      return (status, .untouched) : Client Result) := by
  have h := (hp.bind fun n => touching_multirepliesLoop n).reset fun status =>
    resting_freeConnection c (within_ret (status, .untouched))
  simpa only [agcRedisMultireplies, bind_assoc, pure_bind] using h

theorem resting_pipelineOp (cmds : List (Option (List (List Byte)))) :
    Resting (pipelineOp cmds) := by
  refine resting_withConnection fun c => ?_
  have h := resting_multireplies c ((touching_appendAll cmds).bind fun _ =>
    touching_ret cmds.length)
  simpa only [bind_assoc, pure_bind] using h

theorem resting_counterOp (cmd : String) (key : Option CStr) (value : Bool) :
    Resting (counterOp cmd key value) := by
  cases key with
  | none => exact resting_ret _
  | some key => exact resting_commandOp _ fun r => within_getIntvalue r value

/-- The fourteen operations. -/
theorem Op.resting (op : Op) : Resting op.body := by
  cases op with
  | set key value size expires =>
    exact resting_withConnection fun c =>
      resting_multireplies c (touching_appendSet key value expires)
  | get key result len => exact resting_checked _ (resting_commandOp _ within_strOutput)
  | delete key => exact resting_commandOp _ within_noOutput
  | setPipeline keyvalues => exact resting_pipelineOp _
  | getPipeline keys keyvalues =>
    refine resting_checked _ (resting_withConnection fun c => ?_)
    have happend := touching_appendAll (c := c)
      (keys.map fun key => some (words "GET" [key.bytes]))
    have h := (happend.bind fun _ => touching_collectReplies keys).reset fun r =>
      resting_freeConnection c (within_ret (r.1, .list r.2))
    simpa only [bind_assoc] using h
  | deletePipeline keys => exact resting_checked _ (resting_pipelineOp _)
  | expire key expires =>
    cases key with
    | none => exact resting_ret _
    | some key => exact resting_checked _ (resting_commandOp _ within_noOutput)
  | incr key value => exact resting_counterOp _ key value
  | decr key value => exact resting_counterOp _ key value
  -- the error of the context is logged before the connection is put back
  | hashset tablename key value =>
    rcases tablename with _ | tablename
    · exact resting_ret _
    rcases key with _ | key
    · exact resting_ret _
    rcases value with _ | value
    · exact resting_ret _
    refine resting_withConnection fun c => resting_use c (fun _ _ _ => pending_send _) fun reply =>
      Resting.bind ?_ fun _ => resting_freeConnection c (within_handleReply within_noOutput reply)
    unfold logNullReply
    split
    · exact resting_use c (fun _ _ _ => rfl) fun _ => resting_ret _
    · exact resting_ret _
  | hashget tablename key value len =>
    rcases tablename with _ | tablename
    · exact resting_ret _
    rcases key with _ | key
    · exact resting_ret _
    exact resting_checked _ (resting_commandOp _ within_strOutput)
  | hashmset tablename keyvalues =>
    cases tablename with
    | none => exact resting_ret _
    | some tablename =>
      exact resting_checked _ (resting_hashOp _ _ _ _ (within_handleReply within_noOutput))
  | hashmget tablename keys =>
    cases tablename with
    | none => exact resting_ret _
    | some tablename => exact resting_checked _ (resting_hashOp _ _ _ _ (within_handleArray keys))
  | hashdel tablename keys =>
    cases tablename with
    | none => exact resting_ret _
    | some tablename =>
      exact resting_checked _ (resting_hashOp _ _ _ _ (within_handleReply within_noOutput))

end Operations

/-- The environments that operations lead to, whether they succeed or fail. To begin with, nothing
has been appended to a context. -/
inductive Env.Reached : Env → Prop
  | init (pool : State) (store : Store) (reply : Reply → Data) : Reached { pool, store, reply }
  | op {e e' : Env} {r : Result} (op : Op) (he : Reached e) (h : e.Yields op.body r e') : Reached e'

/-- Between the operations no command waits for its reply. -/
theorem Env.Reached.idle {e : Env} (h : e.Reached) : e.Idle := by
  induction h with
  | init pool store reply => exact fun _ => rfl
  | op op _ h ih => exact op.resting _ _ _ ih h

end Redis
