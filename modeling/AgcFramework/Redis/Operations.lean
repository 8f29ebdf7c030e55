import AgcFramework.Redis.Pool

/-!
# The Redis operations keep to what they own

Each program of the module, from the local state it starts in, makes only calls that are allowed
there. The operations start and end with nothing; in between they hold the connection that
`get_connection` gave them.

## Main definitions

* `Does`, `Stays`: what a program does with what its thread owns
* `Works`, `Within`: the same for the parts that leave the queue alone
* `OpOk`: the calls of an operation, with the test of the back-off and what follows it
* `retry`, `handBack`: the two ways out of that test

## Main results

* `Op.parts`: an operation fails at once, or works with a connection, frees it and goes on without
* `Op.shape`: an operation fails at once, or takes a connection and puts it back
* `Op.body_safe`: the fourteen operations make only calls that are allowed
-/

namespace Redis

/-! ## The programs are safe -/

/-- The calls that every part of the module may make: connections are only allocated when the module
is loaded, and the time is only asked for to test the back-off. -/
def Common : Call → Prop
  | .allocConnection => False
  | .curtime => False
  | _ => True

/-- The program makes common calls that are allowed. -/
def Does {α : Type} (l : Local) (p : Client α) (Q : Local → α → Prop) : Prop :=
  p.Safe (fun l c _ => Allowed l c ∧ Common c) After Q l

/-- The calls on what a thread owns, apart from those on the queue and on `SYSTEM_RUNNING`. -/
def Inner : Call → Prop
  | .systemRunning | .allocConnection | .trypop | .push _ | .curtime => False
  | _ => True

/-- The program makes inner calls that are allowed. -/
def Works {α : Type} (l : Local) (p : Client α) (Q : Local → α → Prop) : Prop :=
  p.Safe (fun l c _ => Allowed l c ∧ Inner c) After Q l

/-- The program changes nothing of what the thread owns. -/
def Stays {α : Type} (l : Local) (p : Client α) : Prop := Does l p fun l' _ => l' = l

/-- The program changes nothing of what the thread owns, with inner calls. -/
def Within {α : Type} (l : Local) (p : Client α) : Prop := Works l p fun l' _ => l' = l

section Does

variable {α β : Type} {l : Local} {c : Conn} {v : Connection} {own : List Context}
  {p : Client α} {f : α → Client β} {Q : Local → α → Prop} {Q' : Local → β → Prop}

theorem Does.bind (hp : Does l p Q) (hf : ∀ l' a, Q l' a → Does l' (f a) Q') :
    Does l (p >>= f) Q' :=
  Prog.Safe.bind hp (fun _ _ _ h => h) hf

theorem Stays.bind (hp : Stays l p) (hf : ∀ a, Does l (f a) Q') : Does l (p >>= f) Q' :=
  Does.bind hp fun _ a hl => hl ▸ hf a

theorem does_ret {a : α} (h : Q l a) : Does l (pure a) Q := h

theorem Works.bind (hp : Works l p Q) (hf : ∀ l' a, Q l' a → Works l' (f a) Q') :
    Works l (p >>= f) Q' :=
  Prog.Safe.bind hp (fun _ _ _ h => h) hf

theorem Works.imp {Q₁ : Local → α → Prop} (hp : Works l p Q) (hQ : ∀ l' a, Q l' a → Q₁ l' a) :
    Works l p Q₁ :=
  Prog.Safe.mono hp (fun _ _ _ h => h) hQ

theorem Within.bind (hp : Within l p) (hf : ∀ a, Works l (f a) Q') : Works l (p >>= f) Q' :=
  Works.bind hp fun _ a hl => hl ▸ hf a

theorem works_ret {a : α} (h : Q l a) : Works l (pure a) Q := h

theorem within_ret (a : α) : Within l (pure a) := rfl

theorem common_of_inner {c : Call} (h : Inner c) : Common c := by
  cases c <;> first | exact trivial | exact h

theorem Works.does (hp : Works l p Q) : Does l p Q :=
  Prog.Safe.mono hp (fun _ _ _ h => ⟨h.1, common_of_inner h.2⟩) fun _ _ h => h

theorem Within.stays (hp : Within l p) : Stays l p := Works.does hp

theorem does_systemRunning : Does l systemRunning fun l' r => r = true ∧ l' = l :=
  ⟨⟨trivial, trivial⟩, fun _ _ h => h⟩

theorem does_push (hl : l.Holds c v) : Does l (push c) fun l' _ => l' = .free :=
  ⟨⟨⟨v, hl⟩, trivial⟩, fun _ _ h => h⟩

theorem works_read (hl : l = .holding c v own) : Works l (read c) fun l' r => r = v ∧ l' = l :=
  ⟨⟨⟨v, own, hl⟩, trivial⟩, fun _ _ h => ⟨h.2 c v own hl, h.1⟩⟩

theorem works_write {value : Connection} (hl : l = .holding c v own) (hv : value.Wf) :
    Works l (write c value) fun l' _ => l' = .holding c value own :=
  ⟨⟨⟨⟨v, own, hl⟩, hv⟩, trivial⟩, fun _ _ h => h c v own hl⟩

theorem works_contextInit (hl : l = .holding c v own) :
    Works l contextInit fun l' r => l' = .holding c v (r.toList ++ own) :=
  ⟨⟨⟨c, v, own, hl⟩, trivial⟩, fun _ _ h => h c v own hl⟩

theorem within_use {x : Context} (u : Use) (hl : l = .holding c v own) (hx : x ∈ own) :
    Within l (use (some x) u) :=
  ⟨⟨⟨c, v, own, x, hl, rfl, hx⟩, trivial⟩, fun _ _ h => h⟩

theorem works_freeContext {x : Context} (hl : l = .holding c v own) (hx : x ∈ own) :
    Works l (freeContext (some x)) fun l' _ => l' = .holding c v (own.erase x) :=
  ⟨⟨⟨c, v, own, x, hl, rfl, hx⟩, trivial⟩, fun _ _ h => h c v own x hl rfl⟩

theorem within_nextConnectTime : Within l nextConnectTime :=
  ⟨⟨trivial, trivial⟩, fun _ _ h => h⟩

theorem within_replyType (r : Reply) : Within l (replyType r) :=
  ⟨⟨trivial, trivial⟩, fun _ _ h => h⟩

theorem within_replyStr (r : Reply) : Within l (replyStr r) :=
  ⟨⟨trivial, trivial⟩, fun _ _ h => h⟩

theorem within_replyInteger (r : Reply) : Within l (replyInteger r) :=
  ⟨⟨trivial, trivial⟩, fun _ _ h => h⟩

theorem within_replyElement (r : Reply) (i : ℕ) : Within l (replyElement r i) :=
  ⟨⟨trivial, trivial⟩, fun _ _ h => h⟩

theorem within_freeReply (r : Option Reply) : Within l (freeReply r) :=
  ⟨⟨trivial, trivial⟩, fun _ _ h => h⟩

theorem within_logsErrors : Within l logsErrors :=
  ⟨⟨trivial, trivial⟩, fun _ _ h => h⟩

/-- Behind a fault there is nothing. -/
theorem works_fault : Works l fault Q :=
  ⟨⟨trivial, trivial⟩, fun r => r.elim⟩

/-! ### Contexts -/

theorem wf_disconnected (time : ℕ) :
    Connection.Wf { connected := false, cc := none, connectTime := time } := by
  simp [Connection.Wf]

theorem Connection.Wf.cc_eq_none (hv : v.Wf) (hd : v.connected = false) : v.cc = none := by
  rw [Connection.Wf, hd] at hv
  simpa using hv

/-- Without a context there is nothing to drop. -/
theorem within_dropContext (hl : l.Holds c v) (hd : v.connected = false) :
    Within l (dropContext c) := by
  refine (works_read hl.1).bind ?_
  rintro _ r ⟨rfl, rfl⟩
  rw [hl.2.cc_eq_none hd]
  exact within_ret ()

/-- A connection that is not connected gets a context or stays without. -/
theorem works_createContext (hl : l.Holds c v) (hd : v.connected = false) :
    Works l (createContext c) fun l' status =>
      ∃ v', l'.Holds c v' ∧ (status = .success → v'.connected = true) := by
  have hcc := hl.2.cc_eq_none hd
  refine (within_dropContext hl hd).bind fun _ => ?_
  have hl' : l = .holding c v [] := by
    rw [hl.1, hcc]
    rfl
  refine (works_contextInit hl').bind ?_
  rintro l₁ (_ | x) rfl
  · exact works_ret ⟨v, ⟨by rw [hcc]; rfl, hl.2⟩, by simp⟩
  · -- the new context is the thread's own until it is assigned or freed
    have hx : x ∈ [x] := List.mem_singleton_self x
    refine (within_use _ rfl hx).bind fun _ => ?_
    refine (within_use _ rfl hx).bind fun _ => ?_
    refine (within_use _ rfl hx).bind fun _ => ?_
    refine (within_use _ rfl hx).bind fun err => ?_
    by_cases herr : err = true
    · rw [if_pos herr]
      refine (within_use _ rfl hx).bind fun _ => ?_
      -- the context is freed after the fields are reset
      refine within_nextConnectTime.bind fun time => ?_
      refine (works_write rfl (wf_disconnected time)).bind ?_
      rintro l₂ - rfl
      refine (works_freeContext rfl hx).bind ?_
      rintro l₃ - rfl
      exact works_ret ⟨_, ⟨by simp, wf_disconnected time⟩, by simp⟩
    · rw [if_neg herr]
      refine (works_write rfl (by simp [Connection.Wf])).bind ?_
      rintro l₂ - rfl
      exact works_ret ⟨_, ⟨rfl, by simp [Connection.Wf]⟩, by simp⟩

/-- A connection loses its context. -/
theorem works_releaseContext (hl : l.Holds c v) :
    Works l (releaseContext c) fun l' _ => ∃ v', l'.Holds c v' := by
  -- the field still has the context when it is freed; the thread owns nothing by then
  have hfree : Works l (freeAnyContext c) fun l' _ => l' = .holding c v [] := by
    refine (works_read hl.1).bind ?_
    rintro _ r ⟨rfl, rfl⟩
    rw [hl.1]
    cases hcc : r.cc with
    | none => exact works_ret rfl
    | some x =>
      rw [Option.isSome_some, if_pos rfl]
      refine (works_freeContext rfl (by simp)).imp ?_
      rintro l₁ - rfl
      simp
  refine hfree.bind ?_
  rintro l₁ - rfl
  refine within_nextConnectTime.bind fun time => ?_
  refine (works_write rfl (wf_disconnected time)).imp ?_
  rintro l₂ - rfl
  exact ⟨_, rfl, wf_disconnected time⟩

/-- A context with an error is dropped. -/
theorem works_releaseOnError (hl : l.Holds c v) :
    Works l (releaseOnError c) fun l' _ => ∃ v', l'.Holds c v' := by
  refine (works_read hl.1).bind ?_
  rintro _ r ⟨rfl, rfl⟩
  cases hcc : r.cc with
  | none => exact works_ret ⟨r, hl⟩
  | some x =>
    refine (within_use _ hl.1 (by simp [hcc])).bind fun err => ?_
    by_cases herr : err = true
    · rw [if_pos herr]
      exact works_releaseContext hl
    · rw [if_neg herr]
      exact works_ret ⟨r, hl⟩

/-- A connection is put back. -/
theorem does_freeConnection (hl : l.Holds c v) :
    Does l (freeConnection c) fun l' _ => l' = .free := by
  refine does_systemRunning.bind ?_
  rintro l₁ r ⟨rfl, rfl⟩
  rw [if_pos rfl]
  refine (works_releaseOnError hl).does.bind ?_
  rintro l₂ - ⟨v', hl₂⟩
  exact does_push hl₂

/-! ### Replies

What an operation does with a reply needs no connection. -/

theorem within_getStrvalue (r : Reply) : Within l (getStrvalue r) := by
  refine (within_replyType r).bind fun type => ?_
  split
  · exact (within_replyStr r).bind fun _ => within_ret _
  · exact within_ret _

theorem within_getIntvalue (r : Reply) (result : Bool) : Within l (getIntvalue r result) := by
  unfold getIntvalue
  split
  · refine (within_replyType r).bind fun type => ?_
    split
    · exact (within_replyInteger r).bind fun _ => within_ret _
    · exact within_ret _
  · exact within_ret _

theorem within_logError (reply : Option Reply) : Within l (logError reply) := by
  cases reply with
  | none => exact within_ret ()
  | some r =>
    refine (within_replyType r).bind fun type => ?_
    split
    · exact (within_replyStr r).bind fun _ => within_ret _
    · exact within_ret _

/-- A reply that is an error, or no reply at all. -/
theorem within_failed (reply : Option Reply) (a : α) :
    Within l (do logError reply; freeReply reply; return a) :=
  (within_logError reply).bind fun _ => (within_freeReply reply).bind fun _ => within_ret a

theorem within_noOutput (r : Reply) : Within l (noOutput r) := within_ret _

theorem within_strOutput (r : Reply) : Within l (strOutput r) :=
  (within_getStrvalue r).bind fun _ => within_ret _

theorem within_handleReply {output : Reply → Client Output} (hout : ∀ r, Within l (output r))
    (reply : Option Reply) : Within l (handleReply output reply) := by
  cases reply with
  | none => exact within_failed none _
  | some r =>
    refine (within_replyType r).bind fun type => ?_
    split
    · exact within_failed (some r) _
    · exact (hout r).bind fun _ => (within_freeReply _).bind fun _ => within_ret _

theorem within_hashEntries (r : Reply) (i : ℕ) (keys : List CStr) :
    Within l (hashEntries r i keys) := by
  induction keys generalizing i with
  | nil => exact within_ret _
  | cons key keys ih =>
    exact (within_replyElement r i).bind fun _ => (ih (i + 1)).bind fun _ => within_ret _

theorem within_handleArray (keys : List CStr) (reply : Option Reply) :
    Within l (handleArray keys reply) := by
  have hfail : Within l (do freeReply reply; logError reply; return (.generr, .untouched) :
      Client Result) :=
    (within_freeReply reply).bind fun _ => (within_logError reply).bind fun _ => within_ret _
  cases reply with
  | none => exact hfail
  | some r =>
    refine (within_replyType r).bind fun type => ?_
    split
    · exact (within_hashEntries r 0 keys).bind fun _ => (within_freeReply _).bind fun _ =>
        within_ret _
    · exact hfail

/-! ### The operations -/

/-- The thread holds the connection with a context. -/
def Ready (l : Local) (c : Conn) : Prop := ∃ v x, l.Holds c v ∧ v.cc = some x

/-- The context that is read from such a connection is the thread's own. -/
theorem Ready.read (h : Ready l c) {f : Connection → Client β}
    (hf : ∀ v x own, l = .holding c v own → v.cc = some x → x ∈ own → Works l (f v) Q') :
    Works l (Redis.read c >>= f) Q' := by
  obtain ⟨v, x, hl, hcc⟩ := h
  refine (works_read hl.1).bind ?_
  rintro _ r ⟨rfl, rfl⟩
  exact hf r x _ hl.1 hcc (by simp [hcc])

theorem Ready.use (h : Ready l c) (u : Use) {f : u.Answer → Client β}
    (hf : ∀ r, Works l (f r) Q') :
    Works l (Redis.read c >>= fun connection => Redis.use connection.cc u >>= f) Q' := by
  refine h.read fun v x own hl hcc hx => ?_
  rw [hcc]
  exact (within_use u hl hx).bind hf

theorem Ready.within_use (h : Ready l c) (u : Use) :
    Within l (do Redis.use (← Redis.read c).cc u) := by
  refine h.read fun v x own hl hcc hx => ?_
  rw [hcc]
  exact Redis.within_use u hl hx

theorem Ready.within_nextReply (h : Ready l c) : Within l (nextReply c) := by
  refine h.use _ fun got => ?_
  cases got with
  | failed err =>
    refine within_logsErrors.bind fun logs => ?_
    split
    · exact works_fault
    · exact within_ret _
  | ok reply =>
    cases reply with
    | none => exact within_ret _
    | some r =>
      refine (within_replyType r).bind fun type => ?_
      split
      · exact (within_replyStr r).bind fun _ => (within_freeReply _).bind fun _ => within_ret _
      · exact (within_freeReply _).bind fun _ => within_ret _

theorem Ready.within_multirepliesLoop (h : Ready l c) (n : ℕ) :
    Within l (multirepliesLoop c n) := by
  induction n with
  | zero => exact within_ret _
  | succ n ih =>
    refine h.within_nextReply.bind fun more => ?_
    split
    · exact ih
    · exact within_ret _

theorem Ready.within_resetContext (h : Ready l c) : Within l (resetContext c) := by
  refine h.read fun v x own hl hcc hx => ?_
  rw [hcc]
  exact Redis.within_use _ hl hx

theorem Ready.within_agcRedisMultireplies (h : Ready l c) (n : ℕ) :
    Within l (agcRedisMultireplies c n) :=
  (h.within_multirepliesLoop n).bind fun _ => h.within_resetContext.bind fun _ => within_ret _

theorem Ready.within_agcRedisHashargv (h : Ready l c) (cmd : String) (tablename : CStr)
    (keys : List CStr) (keyvalues : List KeyValue) :
    Within l (agcRedisHashargv c cmd tablename keys keyvalues) := by
  unfold agcRedisHashargv
  split
  · exact within_ret _
  · split
    · exact works_fault
    · exact h.within_use _

theorem Ready.within_appendSet (h : Ready l c) (key : CStr) (value : List Byte) (expires : ℤ) :
    Within l (appendSet c key value expires) := by
  refine h.use _ fun ok => ?_
  split
  · split
    · refine h.use _ fun ok => ?_
      split
      · exact within_ret _
      · exact h.use _ fun _ => within_ret _
    · exact within_ret _
  · exact h.use _ fun _ => within_ret _

theorem Ready.within_appendAll (h : Ready l c) (cmds : List (Option (List (List Byte)))) :
    Within l (appendAll c cmds) := by
  induction cmds with
  | nil => exact within_ret _
  | cons cmd cmds ih =>
    cases cmd with
    | none => exact works_fault
    | some cmd => exact h.use _ fun _ => ih

theorem Ready.within_collectReplies (h : Ready l c) (keys : List CStr) :
    Within l (collectReplies c keys) := by
  induction keys with
  | nil => exact within_ret _
  | cons key keys ih =>
    refine h.use _ fun got => ?_
    cases got.reply with
    | none => exact within_failed none _
    | some r =>
      refine (within_replyType r).bind fun type => ?_
      split
      · exact within_failed (some r) _
      · refine (within_getStrvalue r).bind fun _ => (within_freeReply _).bind fun _ => ?_
        exact ih.bind fun _ => within_ret _

theorem Ready.within_logNullReply (h : Ready l c) (reply : Option Reply) :
    Within l (logNullReply c reply) := by
  unfold logNullReply
  split
  · exact h.use _ fun _ => within_ret _
  · exact within_ret _

end Does

/-- What an operation does with the connection it got: it uses it, and puts it back. -/
def PutsBack (body : Conn → Client Result) : Prop :=
  ∀ l c, Ready l c → Does l (body c) fun l' _ => l' = .free

/-- An operation fails at once, or it starts with `get_connection` and puts the connection back. -/
inductive Shape (p : Client Result) : Prop
  | fails (h : p = pure (.generr, .untouched))
  | takes (body : Conn → Client Result) (hp : p = withConnection body) (hb : PutsBack body)

/-- An operation works with the connection it got, puts it back, and goes on without it. -/
structure Uses {α : Type} (inner : Conn → Client α) (rest : α → Client Result) : Prop where
  inner : ∀ l c, Ready l c → Within l (inner c)
  rest : ∀ a, Within .free (rest a)

/-- An operation fails at once, or it has a part with the connection and a part without it. -/
inductive Parts (p : Client Result) : Prop
  | fails (h : p = pure (.generr, .untouched))
  | takes {α : Type} (inner : Conn → Client α) (rest : α → Client Result) (h : Uses inner rest)
      (hp : p = withConnection fun c => do
        let a ← inner c
        freeConnection c
        rest a)

theorem parts_commandOp (cmd : List (List Byte)) {output : Reply → Client Output}
    (hout : ∀ r, Within .free (output r)) : Parts (commandOp cmd output) := by
  refine .takes (fun c => do use (← read c).cc (.command cmd)) (handleReply output) ⟨?_, ?_⟩ ?_
  · intro l c h
    exact h.within_use _
  · exact within_handleReply hout
  · simp only [commandOp, bind_assoc]

theorem parts_hashOp (cmd : String) (tablename : CStr) (keys : List CStr)
    (keyvalues : List KeyValue) {handle : Option Reply → Client Result}
    (hhandle : ∀ reply, Within .free (handle reply)) :
    Parts (hashOp cmd tablename keys keyvalues handle) := by
  refine .takes (fun c => agcRedisHashargv c cmd tablename keys keyvalues) handle ⟨?_, hhandle⟩ rfl
  intro l c h
  exact h.within_agcRedisHashargv cmd tablename keys keyvalues

theorem parts_pipelineOp (cmds : List (Option (List (List Byte)))) : Parts (pipelineOp cmds) := by
  refine .takes (fun c => do appendAll c cmds; agcRedisMultireplies c cmds.length)
    (fun status => pure (status, .untouched)) ⟨?_, fun _ => within_ret _⟩ ?_
  · intro l c h
    exact (h.within_appendAll cmds).bind fun _ => h.within_agcRedisMultireplies _
  · simp only [pipelineOp, bind_assoc]

theorem parts_checked (valid : Bool) {op : Client Result} (h : Parts op) :
    Parts (checked valid op) := by
  cases valid with
  | false => exact .fails rfl
  | true => exact h

theorem parts_counterOp (cmd : String) (key : Option CStr) (value : Bool) :
    Parts (counterOp cmd key value) := by
  cases key with
  | none => exact .fails rfl
  | some key => exact parts_commandOp _ fun r => within_getIntvalue r value

/-- The fourteen operations. -/
theorem Op.parts (op : Op) : Parts op.body := by
  cases op with
  | set key value size expires =>
    refine .takes (fun c => do agcRedisMultireplies c (← appendSet c key value expires))
      (fun status => pure (status, .untouched)) ⟨?_, fun _ => within_ret _⟩ ?_
    · intro l c h
      exact (h.within_appendSet key value expires).bind h.within_agcRedisMultireplies
    · simp only [body, agcCacheRedisSet, bind_assoc]
  | get key result len => exact parts_checked _ (parts_commandOp _ within_strOutput)
  | delete key => exact parts_commandOp _ within_noOutput
  | setPipeline keyvalues => exact parts_pipelineOp _
  | getPipeline keys keyvalues =>
    -- the pipeline asks for one reply after another before it puts the connection back
    refine parts_checked _ (.takes (fun c => do
      appendAll c (keys.map fun key => words "GET" [key.bytes])
      let r ← collectReplies c keys
      resetContext c
      return r) (fun r => pure (r.1, .list r.2)) ⟨?_, fun _ => within_ret _⟩ ?_)
    · intro l c h
      refine (h.within_appendAll _).bind fun _ => (h.within_collectReplies keys).bind fun r => ?_
      exact h.within_resetContext.bind fun _ => within_ret r
    · simp only [bind_assoc, pure_bind]
  | deletePipeline keys => exact parts_checked _ (parts_pipelineOp _)
  | expire key expires =>
    cases key with
    | none => exact .fails rfl
    | some key => exact parts_checked _ (parts_commandOp _ within_noOutput)
  | incr key value => exact parts_counterOp _ key value
  | decr key value => exact parts_counterOp _ key value
  | hashset tablename key value =>
    rcases tablename with _ | tablename
    · exact .fails rfl
    rcases key with _ | key
    · exact .fails rfl
    rcases value with _ | value
    · exact .fails rfl
    refine .takes (fun c => do
      let reply ← use (← read c).cc
        (.command (words "HSET" [tablename.bytes, key.bytes, strndup value]))
      logNullReply c reply
      return reply) (handleReply noOutput) ⟨?_, within_handleReply within_noOutput⟩ ?_
    · intro l c h
      exact h.use _ fun reply => (h.within_logNullReply reply).bind fun _ => within_ret reply
    · simp only [body, agcCacheRedisHashset, bind_assoc, pure_bind]
  | hashget tablename key value len =>
    rcases tablename with _ | tablename
    · exact .fails rfl
    rcases key with _ | key
    · exact .fails rfl
    exact parts_checked _ (parts_commandOp _ within_strOutput)
  | hashmset tablename keyvalues =>
    cases tablename with
    | none => exact .fails rfl
    | some tablename =>
      exact parts_checked _ (parts_hashOp _ _ _ _ (within_handleReply within_noOutput))
  | hashmget tablename keys =>
    cases tablename with
    | none => exact .fails rfl
    | some tablename => exact parts_checked _ (parts_hashOp _ _ _ _ (within_handleArray keys))
  | hashdel tablename keys =>
    cases tablename with
    | none => exact .fails rfl
    | some tablename =>
      exact parts_checked _ (parts_hashOp _ _ _ _ (within_handleReply within_noOutput))

/-- While the module runs, an operation that got a connection puts it back. -/
theorem Op.shape (op : Op) : Shape op.body := by
  cases op.parts with
  | fails h => exact .fails h
  | takes inner rest h hp =>
    refine .takes _ hp fun l c hready => ?_
    refine (h.inner l c hready).stays.bind fun a => ?_
    obtain ⟨v, x, hl, -⟩ := hready
    refine (does_freeConnection hl).bind ?_
    rintro _ ⟨⟩ rfl
    exact (h.rest a).stays

/-! ### The back-off -/

/-- The connection is tried again; the operation goes on with it if that succeeds. -/
def retry (c : Conn) (rest : Option Conn → Client Result) : Client Result := do
  if (← createContext c) = .success then
    rest (some c)
  else
    push c
    rest none

/-- The connection is put back unused. -/
def handBack (c : Conn) (rest : Option Conn → Client Result) : Client Result := do
  push c
  rest none

/-- What an operation may do: nothing is allocated, and the test of the back-off decides between a
new try and none. -/
def OpOk (op : Op) (l : Local) : (c : Call) → (c.Answer → Client Result) → Prop
  | .allocConnection, _ => False
  | .curtime, next => ∃ c v rest, l.Holds c v ∧ v.connected = false ∧
      op.body = getConnection >>= rest ∧
      ∀ now, next now = if v.connectTime > now / 1000 then retry c rest else handBack c rest
  | call, _ => Allowed l call

theorem opOk_of_common {op : Op} {l : Local} {call : Call} {next : call.Answer → Client Result}
    (h : Allowed l call ∧ Common call) : OpOk op l call next := by
  cases call <;> first | exact h.1 | exact h.2.elim

theorem allowed_of_opOk {op : Op} {l : Local} {call : Call} {next : call.Answer → Client Result}
    (h : OpOk op l call next) : Allowed l call := by
  cases call with
  | allocConnection => exact h.elim
  | curtime =>
    obtain ⟨c, v, rest, hl, hd, -⟩ := h
    exact ⟨c, v, hl, hd⟩
  | _ => exact h

section Operations

variable {op : Op} {l : Local} {Q : Local → Result → Prop} {rest : Option Conn → Client Result}

/-- A part that every operation may have, and what comes after it. -/
theorem Does.thenOp {α : Type} {p : Client α} {f : α → Client Result} {Q' : Local → α → Prop}
    (hp : Does l p Q') (hf : ∀ l' a, Q' l' a → (f a).Safe (OpOk op) After Q l') :
    (p >>= f).Safe (OpOk op) After Q l :=
  Prog.Safe.bind hp (fun _ _ _ h => opOk_of_common h) hf

theorem does_trypopRetries (n : ℕ) : Does .free (trypopRetries n) fun l' r =>
    (r = none ∧ l' = .free) ∨ ∃ c v, r = some c ∧ l'.Holds c v := by
  induction n with
  | zero => exact ⟨⟨rfl, trivial⟩, fun _ _ h => h⟩
  | succ n ih =>
    have hpop : Does .free trypop fun l' r =>
        (r = none ∧ l' = .free) ∨ ∃ c v, r = some c ∧ l'.Holds c v :=
      ⟨⟨rfl, trivial⟩, fun _ _ h => h⟩
    refine hpop.bind ?_
    rintro l' r (⟨rfl, rfl⟩ | ⟨c, v, rfl, hl⟩)
    · exact ih
    · exact does_ret (Or.inr ⟨c, v, rfl, hl⟩)

theorem handBack_safe {c : Conn} {v : Connection} (hl : l.Holds c v)
    (hnone : (rest none).Safe (OpOk op) After Q .free) :
    (handBack c rest).Safe (OpOk op) After Q l := by
  refine (does_push hl).thenOp ?_
  rintro _ ⟨⟩ rfl
  exact hnone

theorem ready_of_connected {c : Conn} {v : Connection} (hl : l.Holds c v)
    (hv : v.connected = true) : Ready l c := by
  obtain ⟨x, hx⟩ := Option.isSome_iff_exists.mp (hl.2.mp hv)
  exact ⟨v, x, hl, hx⟩

theorem retry_safe {c : Conn} {v : Connection} (hl : l.Holds c v) (hd : v.connected = false)
    (hnone : (rest none).Safe (OpOk op) After Q .free)
    (hsome : ∀ l', Ready l' c → (rest (some c)).Safe (OpOk op) After Q l') :
    (retry c rest).Safe (OpOk op) After Q l := by
  refine (works_createContext hl hd).does.thenOp ?_
  rintro l' status ⟨v', hl', hstatus⟩
  split
  · rename_i hs
    exact hsome l' (ready_of_connected hl' (hstatus hs))
  · exact handBack_safe hl' hnone

/-- What `get_connection` does with the connection it has popped. -/
theorem checked_safe {c : Conn} {v : Connection} (hop : op.body = getConnection >>= rest)
    (hl : l.Holds c v) (hnone : (rest none).Safe (OpOk op) After Q .free)
    (hsome : ∀ l' c, Ready l' c → (rest (some c)).Safe (OpOk op) After Q l') :
    (checkConnection c >>= fun ok =>
      (if ok = true then pure (some c) else push c >>= fun _ => pure none) >>= rest).Safe
        (OpOk op) After Q l := by
  unfold checkConnection
  rw [bind_assoc]
  refine (works_read hl.1).does.thenOp ?_
  rintro _ v ⟨rfl, rfl⟩
  by_cases hv : v.connected = true
  · rw [if_pos hv]
    exact hsome _ c (ready_of_connected hl hv)
  · have hd : v.connected = false := by simpa using hv
    rw [if_neg hv]
    -- what follows the test, as the two ways out of it
    have hnext : ∀ now : ℕ,
        ((if v.connectTime > now / 1000 then do return decide ((← createContext c) = .success)
          else pure false) >>= fun ok => (if ok = true then pure (some c)
            else push c >>= fun _ => pure none) >>= rest) =
        if v.connectTime > now / 1000 then retry c rest else handBack c rest := by
      intro now
      split
      · rw [bind_assoc]
        refine congrArg (createContext c >>= ·) (funext fun status => ?_)
        by_cases hs : status = .success
        · simp [hs]
        · simp [hs]
      · rfl
    refine ⟨⟨c, v, rest, hl, hd, hop, hnext⟩, fun now l' hl' => ?_⟩
    obtain rfl : l' = _ := hl'
    suffices h : (if v.connectTime > now / 1000 then retry c rest else handBack c rest).Safe
        (OpOk op) After Q _ by
      rw [← hnext now] at h
      exact h
    split
    · exact retry_safe hl hd hnone fun l' => hsome l' c
    · exact handBack_safe hl hnone

/-- An operation that starts with `get_connection`. -/
theorem getConnection_safe (hop : op.body = getConnection >>= rest)
    (hnone : (rest none).Safe (OpOk op) After Q .free)
    (hsome : ∀ l' c, Ready l' c → (rest (some c)).Safe (OpOk op) After Q l') :
    (getConnection >>= rest).Safe (OpOk op) After Q .free := by
  unfold getConnection
  rw [bind_assoc]
  refine does_systemRunning.thenOp ?_
  rintro _ r ⟨rfl, rfl⟩
  rw [if_pos rfl, bind_assoc]
  refine (does_trypopRetries _).thenOp ?_
  rintro l' r (⟨rfl, rfl⟩ | ⟨c, v, rfl, hl⟩)
  · exact hnone
  · dsimp only
    rw [bind_assoc]
    exact checked_safe hop hl hnone hsome

/-- The fourteen operations make only calls that are allowed, and end with nothing. -/
theorem Op.body_safe (op : Op) :
    op.body.Safe (OpOk op) After (fun l' _ => l' = .free) .free := by
  cases op.shape with
  | fails h =>
    rw [h]
    rfl
  | takes body hp hb =>
    have hop := hp
    rw [hp]
    -- without a connection the operation returns at once
    refine getConnection_safe hop rfl fun l' c hready => ?_
    exact Prog.Safe.mono (hb l' c hready) (fun _ _ _ h => opOk_of_common h) fun _ _ h => h

end Operations

end Redis
