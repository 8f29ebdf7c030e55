import AgcFramework.Lib.Ledger
import AgcFramework.Redis.Pipeline

/-!
# What the Redis operations do with their replies

The library hands out replies, of any type and with any elements, or none. An operation reads them
and has to free each of them. Some of the fourteen operations do not always handle them well:
`agc_cache_redis_hashmget` frees a reply that is not an array before it is logged, and reads an
element for each key however many there are; `agc_cache_redis_get_pipeline` stores the list that it
has so far when a reply fails it. The loop that counts replies reads the `err` of a context as a
text when it logs a failure, and a value that is NULL is read as a text where it is sent: there the
process dies.

## Main definitions

* `Replies`: an environment that keeps a ledger of the replies
* `Clean`: the ledger is sound, and the replies of a list are those that are live
* `Spec`, `Tidy`: what a program does with the replies that are live
* `Op.Handled`: what an operation is to do with its replies, `Op.Served`: where it does so

## Main results

* `tidy_commandOp`, `tidy_pipelineOp`: the operations that share their end
* `Replies.yields_collectReplies`: the list of `agc_cache_redis_get_pipeline`
* `Op.returns_iff`: when an operation returns
* `Op.handled_iff`: when an operation handles its replies well
-/

namespace Redis

/-- The number of elements of a reply. -/
def Data.size : Data → ℕ
  | array elements => elements.length
  | _ => 0

/-- What comes for a command that is sent at once. -/
def Receipt.ofOption : Option Data → Receipt
  | some d => reply d
  | none => missing

/-! ## The environment -/

/-- The pool, the replies by their numbers, what was done to them, the elements that were read, and
what the library has answered. -/
structure Replies where
  pool : State := {}
  /-- Whether errors are logged. -/
  logs : Bool := false
  data : Reply → Data := fun _ => .nil
  count : ℕ := 0
  ledger : List (Ledger.Act Reply) := []
  elements : List (Reply × ℕ) := []
  answers : List Receipt := []

/-- What can happen at a call. The library gives any reply or none. -/
structure Answer extends Outcome where
  answer : Option Data := none

namespace Replies

/-- The library answers with a new reply or without one. -/
def give (x : Replies) : Option Data → Option Reply × Replies
  | none => (none, { x with answers := x.answers ++ [.missing] })
  -- replies are numbered as they come, so that none comes back under an old number
  | some d => (some x.count,
      { x with
        data := Function.update x.data x.count d
        count := x.count + 1
        ledger := x.ledger ++ [.alloc x.count]
        answers := x.answers ++ [.reply d] })

/-- The library fails. -/
def fail (x : Replies) (err : Bool) : Replies := { x with answers := x.answers ++ [.failed err] }

/-- A use of a context. There is no reply without `REDIS_OK`. -/
def use (x : Replies) (o : Answer) : (u : Use) → u.Answer × Replies
  | .command _ => x.give o.answer
  | .commandArgv _ => x.give o.answer
  | .getReply =>
    if o.ok then (.ok (x.give o.answer).1, (x.give o.answer).2)
    else (.failed o.err, x.fail o.err)
  | u => (o.toOutcome.use u, x)

/-- A reply is read. -/
def read (x : Replies) (r : Reply) : Replies := { x with ledger := x.ledger ++ [.use r] }

/-- A reply is freed. -/
def free (x : Replies) (r : Reply) : Replies := { x with ledger := x.ledger ++ [.free r] }

/-- The answer of the pool. -/
def respondPool (x : Replies) (o : Answer) (c : Call) : Option (c.Answer × Replies) :=
  (Redis.respond x.pool 0 o.toOutcome c).map fun (a, s) => (a, { x with pool := s })

def respond (x : Replies) (o : Answer) : (c : Call) → Option (c.Answer × Replies)
  | .use _ u => some (x.use o u)
  | .replyType r => some ((x.data r).type, x.read r)
  | .replyStr r => some ((x.data r).str, x.read r)
  | .replyInteger r => some ((x.data r).number, x.read r)
  | .replyElement r i =>
    some ((x.data r).element i, { x.read r with elements := x.elements ++ [(r, i)] })
  -- `freeReplyObject(NULL)` does nothing
  | .freeReply none => some ((), x)
  | .freeReply (some r) => some ((), x.free r)
  | .logsErrors => some (x.logs, x)
  | c => x.respondPool o c

/-- The program can give the result and lead to the environment. -/
abbrev Yields {α : Type} (x : Replies) (p : Client α) (a : α) (x' : Replies) : Prop :=
  p.Yields respond x a x'

/-- The program can end so. It has no result if the process dies. -/
abbrev Ends {α : Type} (x : Replies) (p : Client α) (out : Option α) (x' : Replies) : Prop :=
  p.Ends respond .fault x out x'

theorem eq_of_respondPool {x x' : Replies} {o : Answer} {c : Call} {a : c.Answer}
    (h : x.respondPool o c = some (a, x')) : ∃ s, x' = { x with pool := s } := by
  obtain ⟨⟨a', s⟩, -, h⟩ := Option.map_eq_some_iff.mp h
  obtain ⟨-, rfl⟩ := Prod.mk.inj h
  exact ⟨s, rfl⟩

end Replies

/-! ## The law -/

/-- The keys that an operation makes a list for. -/
def Op.keys : Op → List CStr
  | .getPipeline keys _ | .hashmget _ keys => keys
  | _ => []

/-- An output is complete: a list has an entry for each of the keys. -/
def Op.Complete (op : Op) : Output → Prop
  | .list entries => entries.map KeyValue.key = op.keys
  | _ => True

/-- What an operation is to have done with its replies. -/
structure Op.Handled (op : Op) (out : Option Result) (x : Replies) : Prop where
  /-- The operation returns. -/
  returned : out.isSome
  /-- Each reply is freed exactly once. -/
  once : ∀ r, .alloc r ∈ x.ledger → x.ledger.count (.free r) = 1
  /-- None is read after it was freed. -/
  live : ∀ before r after, x.ledger = before ++ .use r :: after → .free r ∉ before
  /-- Elements are read below their number. -/
  bounds : ∀ p ∈ x.elements, p.2 < (x.data p.1).size
  /-- A failure leaves the output alone, or it is complete. -/
  output : ∀ result, out = some result → result.1 ≠ .success →
    result.2 = .untouched ∨ op.Complete result.2

/-- Where the operation returns: it sends no value that is NULL, and logs no failure with an
error. -/
def Op.Returns (op : Op) (logs : Bool) (conn : Option Conn) (answers : List Receipt) : Prop :=
  match op with
  | .set _ _ _ _ | .deletePipeline _ => ¬ (logs = true ∧ .failed true ∈ answers)
  | .setPipeline keyvalues => (conn.isSome → Formatted keyvalues) ∧
      ¬ (logs = true ∧ .failed true ∈ answers)
  | .hashmset _ keyvalues => conn.isSome → Formatted keyvalues
  | _ => True

/-- The connection and the answers with which the operation handles its replies. -/
def Op.Served (op : Op) (logs : Bool) (conn : Option Conn) (answers : List Receipt) : Prop :=
  op.Returns logs conn answers ∧
    match op with
    | .hashmget _ keys => ∀ a ∈ answers, a = .missing ∨
        ∃ elements, a = .reply (.array elements) ∧ keys.length ≤ elements.length
    | .getPipeline _ _ => ∀ a ∈ answers, a.Good
    | _ => True

/-! ## Programs and live replies -/

/-- The ledger is sound, the replies of the list are live and no others, and elements were only read
below their number. -/
structure Clean (x : Replies) (l : List Reply) : Prop where
  owns : Ledger.Owns (fun _ => True) x.ledger l
  fresh : ∀ r, .alloc r ∈ x.ledger → r < x.count
  read : ∀ p ∈ x.elements, p.1 < x.count
  bounds : ∀ p ∈ x.elements, p.2 < (x.data p.1).size

section Clean

variable {x : Replies} {l : List Reply} {r : Reply}

theorem clean_start (s : State) (data : Reply → Data) (logs : Bool) :
    Clean { pool := s, data, logs } [] :=
  ⟨Ledger.owns_nil, by simp, by simp, by simp⟩

theorem Clean.pool (h : Clean x l) (s : State) : Clean { x with pool := s } l :=
  ⟨h.owns, h.fresh, h.read, h.bounds⟩

theorem Clean.read_of_mem (h : Clean x l) (hr : r ∈ l) : Clean (x.read r) l :=
  ⟨h.owns.use hr, fun r' hr' => h.fresh r' (Ledger.alloc_mem_snoc_use.mp hr'), h.read, h.bounds⟩

theorem Clean.element (h : Clean x l) (hr : r ∈ l) {i : ℕ} (hi : i < (x.data r).size) :
    Clean { x.read r with elements := x.elements ++ [(r, i)] } l := by
  have hread := h.read_of_mem hr
  have hcount : r < x.count := h.fresh r (h.owns.live_of_mem hr).1
  refine ⟨hread.owns, hread.fresh, ?_, ?_⟩
  · rintro p hp
    rcases List.mem_append.mp hp with hp | hp
    · exact h.read p hp
    · obtain rfl := List.mem_singleton.mp hp
      exact hcount
  · rintro p hp
    rcases List.mem_append.mp hp with hp | hp
    · exact h.bounds p hp
    · obtain rfl := List.mem_singleton.mp hp
      exact hi

theorem Clean.fail (h : Clean x l) (err : Bool) : Clean (x.fail err) l :=
  ⟨h.owns, h.fresh, h.read, h.bounds⟩

theorem Clean.free (h : Clean x (r :: l)) : Clean (x.free r) l :=
  ⟨h.owns.free, fun r' hr' => h.fresh r' (Ledger.alloc_mem_snoc_free.mp hr'), h.read, h.bounds⟩

/-- A new reply is live. -/
theorem Clean.give (h : Clean x l) (answer : Option Data) :
    Clean (x.give answer).2 ((x.give answer).1.toList ++ l) := by
  cases answer with
  | none => exact ⟨h.owns, h.fresh, h.read, h.bounds⟩
  | some d =>
    -- a reply that comes was not on the ledger before
    have hnew : .alloc x.count ∉ x.ledger := fun hmem => Nat.lt_irrefl _ (h.fresh _ hmem)
    refine ⟨h.owns.alloc trivial hnew, fun r hr => ?_, fun p hp => ?_, fun p hp => ?_⟩
    · rcases List.mem_append.mp hr with hr | hr
      · exact Nat.lt_succ_of_lt (h.fresh r hr)
      · cases List.mem_singleton.mp hr
        exact Nat.lt_succ_self _
    · exact Nat.lt_succ_of_lt (h.read p hp)
    · -- the replies of which elements were read are older
      have hne : p.1 ≠ x.count := Nat.ne_of_lt (h.read p hp)
      change p.2 < (Function.update x.data x.count d p.1).size
      rw [Function.update_of_ne hne]
      exact h.bounds p hp

/-- With no reply left all of them were freed once, and none was read later. -/
theorem Clean.handled (h : Clean x []) {op : Op} {result : Result}
    (hout : result.1 ≠ .success → result.2 = .untouched ∨ op.Complete result.2) :
    op.Handled (some result) x := by
  refine ⟨rfl, fun r hr => ?_, fun before r after heq => ?_, h.bounds, fun r hr => ?_⟩
  · -- nothing is live at the end, so what was obtained was freed
    have hdead : ¬ Ledger.Live x.ledger r := fun hlive =>
      List.not_mem_nil ((h.owns.live r trivial).mp hlive)
    exact h.owns.sound.count_free_eq_one hr hdead
  · have hlive : Ledger.Live before r := h.owns.sound before (.use r) after heq
    exact hlive.2
  · obtain rfl := Option.some.inj hr
    exact hout

end Clean

/-- A call that has nothing to do with replies, and does not end the process. -/
def Call.Aside : Call → Prop
  | .use _ (.command _) | .use _ (.commandArgv _) | .use _ .getReply => False
  | .replyType _ | .replyStr _ | .replyInteger _ | .replyElement _ _ | .freeReply _ => False
  | .fault => False
  | _ => True

theorem Call.Apart.aside {c : Call} (h : c.Apart) : c.Aside := by
  cases c with
  | use cc u => cases u <;> first | exact h.elim | exact trivial
  | replyType r | replyStr r | replyInteger r | replyElement r i | freeReply r | fault =>
    exact h.elim
  | _ => exact trivial

/-- A call that reads the reply. -/
def Call.Reads (r : Reply) : Call → Prop
  | .replyType r' | .replyStr r' | .replyInteger r' => r' = r
  | _ => False

/-- With the replies of the list `l` live, the program obtains none and leaves those of `l'`
live. -/
def Spec {α : Type} (l : List Reply) (p : Client α) (Q : α → Prop) (l' : List Reply) : Prop :=
  ∀ (x : Replies) a x', Clean x l → x.Yields p a x' →
    Clean x' l' ∧ x'.data = x.data ∧ x'.answers = x.answers ∧ Q a

/-- The program frees the replies that it obtains. -/
def Tidy {α : Type} (p : Client α) (Q : α → Prop) : Prop :=
  ∀ (x : Replies) a x', Clean x [] → x.Yields p a x' → Clean x' [] ∧ Q a

section Spec

variable {α β : Type} {l l' l'' : List Reply} {p : Client α} {f : α → Client β} {Q : α → Prop}
  {Q' : β → Prop} {x x' : Replies} {r : Reply}

theorem spec_ret {a : α} (h : Q a) : Spec l (pure a) Q l := by
  intro x b x' hx hrun
  obtain ⟨rfl, rfl⟩ := Prog.yields_ret.mp hrun
  exact ⟨hx, rfl, rfl, h⟩

theorem Spec.bind (hp : Spec l p Q l') (hf : ∀ a, Q a → Spec l' (f a) Q' l'') :
    Spec l (p >>= f) Q' l'' := by
  intro x b x' hx hrun
  obtain ⟨a, x₁, h₁, h₂⟩ := Prog.Yields.of_bind hrun
  obtain ⟨hx₁, hdata, hanswers, ha⟩ := hp x a x₁ hx h₁
  obtain ⟨hx', hdata', hanswers', hb⟩ := hf a ha x₁ b x' hx₁ h₂
  exact ⟨hx', hdata'.trans hdata, hanswers'.trans hanswers, hb⟩

theorem tidy_ret {a : α} (h : Q a) : Tidy (pure a) Q := by
  intro x b x' hx hrun
  obtain ⟨rfl, rfl⟩ := Prog.yields_ret.mp hrun
  exact ⟨hx, h⟩

theorem Tidy.bind (hp : Tidy p Q) (hf : ∀ a, Q a → Tidy (f a) Q') : Tidy (p >>= f) Q' := by
  intro x b x' hx hrun
  obtain ⟨a, x₁, h₁, h₂⟩ := Prog.Yields.of_bind hrun
  obtain ⟨hx₁, ha⟩ := hp x a x₁ hx h₁
  exact hf a ha x₁ b x' hx₁ h₂

theorem spec_fault {next : Empty → Client α} : Spec l (Prog.call .fault next) Q l' := by
  intro x a x' hx hrun
  obtain ⟨_, r, _⟩ := Prog.yields_call.mp hrun
  exact r.elim

theorem tidy_fault {next : Empty → Client α} : Tidy (Prog.call .fault next) Q := by
  intro x a x' hx hrun
  obtain ⟨_, r, _⟩ := Prog.yields_call.mp hrun
  exact r.elim

theorem Spec.tidy (hp : Spec [] p Q []) : Tidy p Q := by
  intro x a x' hx hrun
  obtain ⟨hx', -, -, ha⟩ := hp x a x' hx hrun
  exact ⟨hx', ha⟩

/-- What has nothing to do with replies leaves all but the pool as it was. -/
theorem eq_of_aside (hp : p.Only Call.Aside) {a : α} (h : x.Yields p a x') :
    ∃ s, x' = { x with pool := s } := by
  refine Prog.Only.keeps (I := fun y => ∃ s, y = { x with pool := s }) ?_ hp h ⟨x.pool, rfl⟩
  rintro _ o c a y' hc hy ⟨s, rfl⟩
  cases c with
  | use cc u =>
    cases u <;> first | exact hc.elim | skip
    all_goals
      obtain ⟨-, rfl⟩ := Prod.mk.inj (Option.some.inj hy)
      exact ⟨s, rfl⟩
  | replyType r | replyStr r | replyInteger r | replyElement r i | freeReply r | fault =>
    exact hc.elim
  | logsErrors =>
    obtain ⟨-, rfl⟩ := Prod.mk.inj (Option.some.inj hy)
    exact ⟨s, rfl⟩
  | _ =>
    obtain ⟨s', rfl⟩ := Replies.eq_of_respondPool hy
    exact ⟨s', rfl⟩

theorem spec_aside (hp : p.Only Call.Aside) : Spec l p (fun _ => True) l := by
  intro x a x' hx h
  obtain ⟨s, rfl⟩ := eq_of_aside hp h
  exact ⟨hx.pool s, rfl, rfl, trivial⟩

theorem spec_apart (hp : Apart p) : Spec l p (fun _ => True) l :=
  spec_aside (hp.mono fun _ => Call.Apart.aside)

theorem Replies.eq_read {o : Answer} {c : Call} {a : c.Answer} (hc : c.Reads r)
    (h : x.respond o c = some (a, x')) : x' = x.read r := by
  cases c with
  | replyType r' | replyStr r' | replyInteger r' =>
    obtain rfl : r' = r := hc
    exact (Prod.mk.inj (Option.some.inj h)).2.symm
  | _ => exact hc.elim

/-- A live reply may be read. -/
theorem spec_reads (hp : p.Only (Call.Reads r)) (hr : r ∈ l) : Spec l p (fun _ => True) l := by
  intro x a x' hx h
  have hkeeps := Prog.Only.keeps
    (I := fun y => Clean y l ∧ y.data = x.data ∧ y.answers = x.answers) ?_ hp h ⟨hx, rfl, rfl⟩
  · exact ⟨hkeeps.1, hkeeps.2.1, hkeeps.2.2, trivial⟩
  rintro y o c a y' hc hy ⟨hclean, hdata, hanswers⟩
  rw [Replies.eq_read hc hy]
  exact ⟨hclean.read_of_mem hr, hdata, hanswers⟩

theorem spec_freeReply (r : Option Reply) :
    Spec (r.toList ++ l) (freeReply r) (fun _ => True) l := by
  intro x a x' hx h
  obtain ⟨o, _, x₁, hr, h⟩ := Prog.yields_call.mp h
  obtain ⟨-, rfl⟩ := Prog.yields_ret.mp h
  cases r with
  | none =>
    obtain ⟨-, rfl⟩ := Prod.mk.inj (Option.some.inj hr)
    exact ⟨hx, rfl, rfl, trivial⟩
  | some r =>
    obtain ⟨-, rfl⟩ := Prod.mk.inj (Option.some.inj hr)
    exact ⟨hx.free, rfl, rfl, trivial⟩

/-! ### The ends of the operations -/

theorem reads_logError (r : Reply) : (logError (some r)).Only (Call.Reads r) := by
  refine ⟨rfl, fun type => ?_⟩
  change Prog.Only (Call.Reads r) (if type = .error then _ else _)
  split
  · exact ⟨rfl, fun _ => trivial⟩
  · exact trivial

theorem spec_logError (reply : Option Reply) :
    Spec reply.toList (logError reply) (fun _ => True) reply.toList := by
  cases reply with
  | none => exact spec_ret trivial
  | some r => exact spec_reads (reads_logError r) List.mem_cons_self

/-- A reply that is missing or an error is logged and freed. -/
theorem spec_failed (reply : Option Reply) {a : α} (h : Q a) :
    Spec reply.toList (do logError reply; freeReply reply; return a) Q [] := by
  refine (spec_logError reply).bind fun _ _ => ?_
  have hfree := spec_freeReply (l := []) reply
  rw [List.append_nil] at hfree
  exact hfree.bind fun _ _ => spec_ret h

/-- A failure leaves the output alone. -/
def Spares (result : Result) : Prop := result.1 ≠ .success → result.2 = .untouched

theorem spec_handleReply {output : Reply → Client Output}
    (hout : ∀ r, (output r).Only (Call.Reads r)) (reply : Option Reply) :
    Spec reply.toList (handleReply output reply) Spares [] := by
  cases reply with
  | none => exact spec_failed none fun _ => rfl
  | some r =>
    refine (spec_reads (p := replyType r) ⟨rfl, fun _ => trivial⟩ List.mem_cons_self).bind
      fun type _ => ?_
    split
    · -- an error is handled like a reply that is missing
      exact spec_failed (some r) fun _ => rfl
    · refine (spec_reads (hout r) List.mem_cons_self).bind fun out _ => ?_
      refine (spec_freeReply (l := []) (some r)).bind fun _ _ => spec_ret fun h => ?_
      exact absurd rfl h

theorem reads_noOutput (r : Reply) : (noOutput r).Only (Call.Reads r) := trivial

theorem reads_getStrvalue (r : Reply) : (getStrvalue r).Only (Call.Reads r) := by
  refine ⟨rfl, fun type => ?_⟩
  change Prog.Only (Call.Reads r) (if type = .string then _ else _)
  split
  · exact ⟨rfl, fun _ => trivial⟩
  · exact trivial

theorem reads_strOutput (r : Reply) : (strOutput r).Only (Call.Reads r) :=
  (reads_getStrvalue r).bind fun _ => trivial

theorem reads_getIntvalue (r : Reply) (value : Bool) :
    (getIntvalue r value).Only (Call.Reads r) := by
  cases value with
  | false => exact trivial
  | true =>
    refine ⟨rfl, fun type => ?_⟩
    change Prog.Only (Call.Reads r) (if type = .integer then _ else _)
    split
    · exact ⟨rfl, fun _ => trivial⟩
    · exact trivial

end Spec

/-! ## The operations -/

section Operations

variable {α : Type} {Q : α → Prop} {x x' : Replies} {c : Conn}

/-- A use of the context of a connection. -/
theorem Replies.ends_use {u : Use} {f : u.Answer → Client α} {out : Option α}
    (h : x.Ends (Redis.read c >>= fun v => Redis.use v.cc u >>= f) out x') :
    ∃ o, (x.use o u).2.Ends (f (x.use o u).1) out x' := by
  obtain ⟨o, v, x₁, hr, h⟩ := (Prog.ends_call (by simp)).mp h
  obtain ⟨rfl, rfl⟩ := Prod.mk.inj (Option.some.inj hr)
  obtain ⟨o', r, x₂, hr, h⟩ := (Prog.ends_call (by simp)).mp h
  obtain ⟨rfl, rfl⟩ := Prod.mk.inj (Option.some.inj hr)
  exact ⟨o', h⟩

theorem Replies.yields_use {u : Use} {f : u.Answer → Client α} {a : α}
    (h : x.Yields (Redis.read c >>= fun v => Redis.use v.cc u >>= f) a x') :
    ∃ o, (x.use o u).2.Yields (f (x.use o u).1) a x' := by
  replace h : x.Ends (Redis.read c >>= fun v => Redis.use v.cc u >>= f) (some a) x' := h
  exact Replies.ends_use h

/-- The operation goes on with the reply that it got, or without one. -/
theorem tidy_use {u : Use} {f : u.Answer → Client α} (answer : Answer → Option Data)
    (reply : u.Answer → Option Reply)
    (hu : ∀ (x : Replies) o, reply (x.use o u).1 = (x.give (answer o)).1 ∧
      (x.use o u).2 = (x.give (answer o)).2)
    (hf : ∀ r, Spec (reply r).toList (f r) Q []) :
    Tidy (read c >>= fun v => use v.cc u >>= f) Q := by
  intro x a x' hx h
  obtain ⟨o, h⟩ := Replies.yields_use h
  have hgive := hx.give (answer o)
  rw [List.append_nil, ← (hu x o).1, ← (hu x o).2] at hgive
  obtain ⟨hx', -, -, ha⟩ := hf _ _ a x' hgive h
  exact ⟨hx', ha⟩

theorem tidy_withConnection {body : Conn → Client Result} (hbody : ∀ c, Tidy (body c) Spares) :
    Tidy (withConnection body) Spares := by
  refine (spec_apart apart_getConnection).tidy.bind fun r _ => ?_
  cases r with
  | none => exact tidy_ret fun _ => rfl
  | some c => exact hbody c

theorem tidy_checked (valid : Bool) {op : Client Result} (h : Tidy op Spares) :
    Tidy (checked valid op) Spares := by
  cases valid with
  | false => exact tidy_ret fun _ => rfl
  | true => exact h

theorem tidy_early : Tidy (pure (.generr, .untouched) : Client Result) Spares :=
  tidy_ret fun _ => rfl

theorem tidy_commandOp (cmd : List (List Byte)) {output : Reply → Client Output}
    (hout : ∀ r, (output r).Only (Call.Reads r)) : Tidy (commandOp cmd output) Spares := by
  refine tidy_withConnection fun c => ?_
  refine tidy_use Answer.answer id (fun _ _ => ⟨rfl, rfl⟩) fun reply => ?_
  exact (spec_apart (apart_freeConnection c)).bind fun _ _ => spec_handleReply hout reply

theorem tidy_hashOp (cmd : String) (tablename : CStr) (keys : List CStr)
    (keyvalues : List KeyValue) :
    Tidy (hashOp cmd tablename keys keyvalues (handleReply noOutput)) Spares := by
  refine tidy_withConnection fun c => ?_
  have hrest : ∀ reply : Option Reply, Spec reply.toList
      (freeConnection c >>= fun _ => handleReply noOutput reply) Spares [] := fun reply =>
    (spec_apart (apart_freeConnection c)).bind fun _ _ => spec_handleReply reads_noOutput reply
  rw [agcRedisHashargv]
  split
  · exact (hrest none).tidy
  · cases hashWords cmd tablename keys keyvalues with
    | none => exact tidy_fault
    | some words => exact tidy_use Answer.answer id (fun _ _ => ⟨rfl, rfl⟩) hrest

theorem aside_logNullReply (reply : Option Reply) : (logNullReply c reply).Only Call.Aside := by
  unfold logNullReply
  split
  · exact ⟨trivial, fun _ => ⟨trivial, fun _ => trivial⟩⟩
  · exact trivial

theorem tidy_counterOp (cmd : String) (key : Option CStr) (value : Bool) :
    Tidy (counterOp cmd key value) Spares := by
  cases key with
  | none => exact tidy_early
  | some key => exact tidy_commandOp _ fun r => reads_getIntvalue r value

/-! ### Pipelines -/

theorem aside_append (cmd : Command) :
    (do use (← read c).cc (.appendCommand cmd) : Client Bool).Only Call.Aside :=
  ⟨trivial, fun _ => ⟨trivial, fun _ => trivial⟩⟩

theorem aside_appendAll (cmds : List Command) :
    (appendAll c (cmds.map some)).Only Call.Aside := by
  induction cmds with
  | nil => exact trivial
  | cons cmd cmds ih => exact (aside_append cmd).bind fun _ => ih

theorem tidy_appendAll (cmds : List (Option Command)) :
    Tidy (appendAll c cmds) fun _ => True := by
  induction cmds with
  | nil => exact tidy_ret trivial
  | cons cmd cmds ih =>
    cases cmd with
    | none => exact tidy_fault
    | some cmd => exact (spec_aside (aside_append cmd)).tidy.bind fun _ _ => ih

theorem aside_errstr (n : ℕ) :
    (do let _ ← use (← read c).cc .errstr; return n : Client ℕ).Only Call.Aside :=
  ⟨trivial, fun _ => ⟨trivial, fun _ => trivial⟩⟩

theorem aside_appendSet (key : CStr) (value : List Byte) (expires : ℤ) :
    (appendSet c key value expires).Only Call.Aside := by
  refine ⟨trivial, fun _ => ⟨trivial, fun ok => ?_⟩⟩
  cases ok with
  | false => exact aside_errstr 1
  | true =>
    by_cases hexp : expires > 0
    · change Prog.Only Call.Aside (if expires > 0 then _ else _)
      rw [if_pos hexp]
      refine ⟨trivial, fun _ => ⟨trivial, fun ok => ?_⟩⟩
      cases ok with
      | false => exact aside_errstr 2
      | true => exact trivial
    · change Prog.Only Call.Aside (if expires > 0 then _ else _)
      rw [if_neg hexp]
      exact trivial

theorem aside_resetContext : (resetContext c).Only Call.Aside := by
  refine ⟨trivial, fun v => ?_⟩
  obtain ⟨_, _ | y, _⟩ := v
  · exact trivial
  · exact ⟨trivial, fun _ => trivial⟩

/-- What follows a call of `redisClusterGetReply`. -/
theorem Replies.ends_getReply {f : GetReply → Client α} {out : Option α}
    (h : x.Ends (Redis.read c >>= fun v => Redis.use v.cc .getReply >>= f) out x') :
    (∃ answer, (x.give answer).2.Ends (f (.ok (x.give answer).1)) out x') ∨
      ∃ err, (x.fail err).Ends (f (.failed err)) out x' := by
  obtain ⟨o, h⟩ := Replies.ends_use h
  rw [Replies.use] at h
  split_ifs at h
  · exact Or.inl ⟨o.answer, h⟩
  · exact Or.inr ⟨o.err, h⟩

theorem spec_replyType {l : List Reply} {r : Reply} {f : ReplyType → Client α} {l' : List Reply}
    (hr : r ∈ l) (hf : ∀ t, Spec l (f t) Q l') : Spec l (replyType r >>= f) Q l' :=
  (spec_reads (p := replyType r) ⟨rfl, fun _ => trivial⟩ hr).bind fun t _ => hf t

theorem spec_free {r : Reply} {f : Unit → Client α} (hf : Spec [] (f ()) Q []) :
    Spec [r] (freeReply (some r) >>= f) Q [] :=
  (spec_freeReply (l := []) (some r)).bind fun _ _ => hf

/-- What follows a call of `redisClusterGetReply` with the reply, if there is one, as the only live
one. -/
theorem tidy_getReply {f : GetReply → Client α} (hok : ∀ reply : Option Reply,
      Spec reply.toList (f (.ok reply)) Q [])
    (hfailed : ∀ err, Spec [] (f (.failed err)) Q []) :
    Tidy (read c >>= fun v => use v.cc .getReply >>= f) Q := by
  intro x a x' hx h
  replace h : x.Ends (Redis.read c >>= fun v => Redis.use v.cc .getReply >>= f) (some a) x' := h
  rcases Replies.ends_getReply h with ⟨answer, h⟩ | ⟨err, h⟩
  · have hgive := hx.give answer
    rw [List.append_nil] at hgive
    obtain ⟨hx', -, -, ha⟩ := hok _ _ a x' hgive h
    exact ⟨hx', ha⟩
  · obtain ⟨hx', -, -, ha⟩ := hfailed err _ a x' (hx.fail err) h
    exact ⟨hx', ha⟩

theorem tidy_nextReply : Tidy (nextReply c) fun _ => True := by
  refine tidy_getReply (fun reply => ?_) fun err => ?_
  · cases reply with
    | none => exact spec_ret trivial
    | some r =>
      refine spec_replyType List.mem_cons_self fun t => ?_
      split
      · refine (spec_reads (p := replyStr r) ⟨rfl, fun _ => trivial⟩ List.mem_cons_self).bind
          fun _ _ => ?_
        exact spec_free (spec_ret trivial)
      · exact spec_free (spec_ret trivial)
  · -- without `REDIS_OK` there is nothing to free
    refine (spec_aside (p := logsErrors) ⟨trivial, fun _ => trivial⟩).bind fun logs _ => ?_
    split
    · exact spec_fault
    · exact spec_ret trivial

theorem tidy_multirepliesLoop (n : ℕ) : Tidy (multirepliesLoop c n) fun _ => True := by
  induction n with
  | zero => exact tidy_ret trivial
  | succ n ih =>
    refine tidy_nextReply.bind fun more _ => ?_
    split
    · exact ih
    · exact tidy_ret trivial

/-- The replies of commands that were appended. -/
theorem tidy_multireplies {append : Client ℕ} (happend : Tidy append fun _ => True) :
    Tidy (do
      let n ← append
      let status ← agcRedisMultireplies c n
      freeConnection c
      return (status, .untouched) : Client Result) Spares := by
  refine happend.bind fun n _ => ?_
  refine Tidy.bind (Q := fun _ => True) ?_ fun status _ => ?_
  · refine (tidy_multirepliesLoop n).bind fun status _ => ?_
    exact (spec_aside aside_resetContext).tidy.bind fun _ _ => tidy_ret trivial
  · exact (spec_apart (apart_freeConnection c)).tidy.bind fun _ _ => tidy_ret fun _ => rfl

theorem tidy_pipelineOp (cmds : List (Option Command)) : Tidy (pipelineOp cmds) Spares := by
  refine tidy_withConnection fun c => ?_
  -- the commands are counted, not their results
  have happend : Tidy (do appendAll c cmds; return cmds.length : Client ℕ) fun _ => True :=
    (tidy_appendAll cmds).bind fun _ _ => tidy_ret trivial
  have h := tidy_multireplies (c := c) happend
  simpa only [bind_assoc, pure_bind] using h

/-- The operations but the two that make lists. -/
theorem Op.tidy {op : Op} (hkeys : op.keys = []) : Tidy op.body Spares := by
  cases op with
  -- the two operations that make lists return early without keys; in the others the replies are
  -- those of one command or of a pipeline
  | set key value size expires =>
    exact tidy_withConnection fun c =>
      tidy_multireplies (spec_aside (aside_appendSet key value expires)).tidy
  | get key result len => exact tidy_checked _ (tidy_commandOp _ reads_strOutput)
  | delete key => exact tidy_commandOp _ reads_noOutput
  | setPipeline keyvalues => exact tidy_pipelineOp _
  | getPipeline keys keyvalues =>
    obtain rfl : keys = [] := hkeys
    exact tidy_early
  | deletePipeline keys => exact tidy_checked _ (tidy_pipelineOp _)
  | expire key expires =>
    cases key with
    | none => exact tidy_early
    | some key => exact tidy_checked _ (tidy_commandOp _ reads_noOutput)
  | incr key value => exact tidy_counterOp _ key value
  | decr key value => exact tidy_counterOp _ key value
  | hashset tablename key value =>
    rcases tablename with _ | tablename
    · exact tidy_early
    rcases key with _ | key
    · exact tidy_early
    rcases value with _ | value
    · exact tidy_early
    refine tidy_withConnection fun c => ?_
    refine tidy_use Answer.answer id (fun _ _ => ⟨rfl, rfl⟩) fun reply => ?_
    refine (spec_aside (aside_logNullReply reply)).bind fun _ _ => ?_
    exact (spec_apart (apart_freeConnection c)).bind fun _ _ =>
      spec_handleReply reads_noOutput reply
  | hashget tablename key value len =>
    rcases tablename with _ | tablename
    · exact tidy_early
    rcases key with _ | key
    · exact tidy_early
    exact tidy_checked _ (tidy_commandOp _ reads_strOutput)
  | hashmset tablename keyvalues =>
    cases tablename with
    | none => exact tidy_early
    | some tablename => exact tidy_checked _ (tidy_hashOp _ _ _ _)
  | hashmget tablename keys =>
    obtain rfl : keys = [] := hkeys
    cases tablename with
    | none => exact tidy_early
    | some tablename => exact tidy_early
  | hashdel tablename keys =>
    cases tablename with
    | none => exact tidy_early
    | some tablename => exact tidy_checked _ (tidy_hashOp _ _ _ _)

/-! ### The two operations that make lists -/

/-- What `agc_cache_redis_get_pipeline` has collected with the answers: an entry for each key, or
fewer because a reply has failed it. -/
def Collected (keys : List CStr) (status : AgcStatus) (entries : List KeyValue)
    (ans : List Receipt) : Prop :=
  (status = .success ∧ entries.map KeyValue.key = keys ∧ ∀ a ∈ ans, a.Good) ∨
    (status = .generr ∧ entries.length < keys.length ∧ ∃ a ∈ ans, ¬ a.Good)

theorem Collected.cons {key : CStr} {keys : List CStr} {status : AgcStatus}
    {entries : List KeyValue} {ans : List Receipt} (h : Collected keys status entries ans)
    {a : Receipt} (ha : a.Good) (value : Option (List Byte)) (valueLen : ℕ) :
    Collected (key :: keys) status (⟨key, value, valueLen⟩ :: entries) (a :: ans) := by
  rcases h with ⟨hs, hkeys, hgood⟩ | ⟨hs, hlt, b, hb, hbad⟩
  · exact Or.inl ⟨hs, by rw [List.map_cons, hkeys], List.forall_mem_cons.mpr ⟨ha, hgood⟩⟩
  · exact Or.inr ⟨hs, Nat.succ_lt_succ hlt, b, List.mem_cons_of_mem _ hb, hbad⟩

theorem Collected.stop (key : CStr) (keys : List CStr) {a : Receipt} (ha : ¬ a.Good) :
    Collected (key :: keys) .generr [] [a] :=
  Or.inr ⟨rfl, Nat.succ_pos _, a, List.mem_cons_self, ha⟩

theorem Replies.yields_replyType {r : Reply} {f : ReplyType → Client α} {a : α}
    (h : x.Yields (replyType r >>= f) a x') : (x.read r).Yields (f (x.data r).type) a x' := by
  obtain ⟨o, t, x₁, hr, h⟩ := Prog.yields_call.mp h
  obtain ⟨rfl, rfl⟩ := Prod.mk.inj (Option.some.inj hr)
  exact h

theorem Replies.yields_collectReplies {keys : List CStr} {status : AgcStatus}
    {entries : List KeyValue} (hx : Clean x [])
    (h : x.Yields (collectReplies c keys) (status, entries) x') :
    Clean x' [] ∧ ∃ ans, x'.answers = x.answers ++ ans ∧ Collected keys status entries ans := by
  -- a reply lives for one round, so that every round starts and ends with none
  induction keys generalizing x x' status entries with
  | nil =>
    obtain ⟨heq, rfl⟩ := Prog.yields_ret.mp h
    obtain ⟨rfl, rfl⟩ := Prod.mk.inj heq
    exact ⟨hx, [], by simp, Or.inl ⟨rfl, rfl, by simp⟩⟩
  | cons key keys ih =>
    -- the loop ends without an entry for the key
    have hend : ∀ {x₁ : Replies} {reply : Option Reply} {a : Receipt},
        Clean x₁ reply.toList → x₁.answers = x.answers ++ [a] → ¬ a.Good →
        x₁.Yields (do logError reply; freeReply reply; return (.generr, []))
          (status, entries) x' →
        Clean x' [] ∧ ∃ ans, x'.answers = x.answers ++ ans ∧
          Collected (key :: keys) status entries ans := by
      intro x₁ reply a hx₁ hanswers hbad h
      obtain ⟨hx', -, hanswers', heq⟩ := spec_failed (Q := fun a => a = (.generr, [])) reply rfl
        x₁ _ x' hx₁ h
      obtain ⟨rfl, rfl⟩ := Prod.mk.inj heq
      exact ⟨hx', [a], hanswers'.trans hanswers, .stop key keys hbad⟩
    have h : x.Ends _ (some (status, entries)) x' := h
    rcases ends_getReply h with ⟨_ | d, h⟩ | ⟨err, h⟩
    · have hgive := hx.give none
      exact hend hgive rfl (by simp [Receipt.Good]) h
    · have hgive := hx.give (some d)
      rw [List.append_nil] at hgive
      have hdata : (x.give (some d)).2.data x.count = d := Function.update_self ..
      have h := yields_replyType h
      rw [hdata] at h
      have hread := hgive.read_of_mem (r := x.count) List.mem_cons_self
      by_cases ht : d.type = .error
      · rw [if_pos ht] at h
        exact hend hread rfl (by simp [Receipt.Good, ht]) h
      · rw [if_neg ht] at h
        -- the entry is made, and the loop goes on with the next reply
        obtain ⟨⟨value, len⟩, x₂, hvalue, h⟩ := Prog.Yields.of_bind h
        obtain ⟨_, x₃, hfree, h⟩ := Prog.Yields.of_bind h
        obtain ⟨⟨status', rest⟩, x₄, hkeys, h⟩ := Prog.Yields.of_bind h
        obtain ⟨heq, rfl⟩ := Prog.yields_ret.mp h
        obtain ⟨rfl, rfl⟩ := Prod.mk.inj heq
        obtain ⟨hx₂, -, hanswers₂, -⟩ := spec_reads (reads_getStrvalue x.count)
          List.mem_cons_self _ _ _ hread hvalue
        obtain ⟨hx₃, -, hanswers₃, -⟩ := spec_freeReply (l := []) (some x.count) _ _ _ hx₂ hfree
        obtain ⟨hx', ans, hanswers, hcollected⟩ := ih hx₃ hkeys
        refine ⟨hx', .reply d :: ans, ?_, hcollected.cons ⟨d, rfl, ht⟩ value len⟩
        rw [hanswers, hanswers₃, hanswers₂]
        exact List.append_assoc _ [_] ans
    · exact hend (hx.fail err) rfl (by simp [Receipt.Good]) h

/-- What `agc_cache_redis_get_pipeline` does. -/
theorem Replies.yields_getPipeline {keys : List CStr} {keyvalues : Bool} {result : Result}
    (hx : Clean x []) (h : x.Yields (agcCacheRedisGetPipeline keys keyvalues) result x') :
    Clean x' [] ∧ ((result = (.generr, .untouched) ∧ x'.answers = x.answers) ∨
      ∃ status entries ans, result = (status, .list entries) ∧ x'.answers = x.answers ++ ans ∧
        Collected keys status entries ans) := by
  rw [agcCacheRedisGetPipeline, checked] at h
  split at h
  · obtain ⟨conn, x₁, hconn, h⟩ := Prog.Yields.of_bind h
    obtain ⟨hx₁, -, hanswers₁, -⟩ := spec_apart apart_getConnection _ _ _ hx hconn
    cases conn with
    | none =>
      obtain ⟨rfl, rfl⟩ := Prog.yields_ret.mp h
      exact ⟨hx₁, Or.inl ⟨rfl, hanswers₁⟩⟩
    | some c =>
      obtain ⟨_, x₂, happend, h⟩ := Prog.Yields.of_bind h
      obtain ⟨⟨status, entries⟩, x₃, hcollect, h⟩ := Prog.Yields.of_bind h
      obtain ⟨_, x₄, hreset, h⟩ := Prog.Yields.of_bind h
      obtain ⟨_, x₅, hfree, h⟩ := Prog.Yields.of_bind h
      obtain ⟨rfl, rfl⟩ := Prog.yields_ret.mp h
      -- only the loop over the replies puts answers on record
      have haside : (appendAll c (keys.map fun key => some (getCommand key))).Only Call.Aside := by
        have h := aside_appendAll (c := c) (keys.map getCommand)
        rwa [List.map_map] at h
      obtain ⟨hx₂, -, hanswers₂, -⟩ := spec_aside haside _ _ _ hx₁ happend
      obtain ⟨hx₃, ans, hanswers₃, hcollected⟩ := yields_collectReplies hx₂ hcollect
      obtain ⟨hx₄, -, hanswers₄, -⟩ := spec_aside aside_resetContext _ _ _ hx₃ hreset
      obtain ⟨hx', -, hanswers', -⟩ := spec_apart (apart_freeConnection c) _ _ _ hx₄ hfree
      refine ⟨hx', Or.inr ⟨status, entries, ans, rfl, ?_, hcollected⟩⟩
      rw [hanswers', hanswers₄, hanswers₃, hanswers₂, hanswers₁]
  · obtain ⟨rfl, rfl⟩ := Prog.yields_ret.mp h
    exact ⟨hx, Or.inl ⟨rfl, rfl⟩⟩

theorem Replies.yields_replyElement {r : Reply} {i : ℕ} {f : Option (List Byte) → Client α} {a : α}
    (h : x.Yields (replyElement r i >>= f) a x') :
    Replies.Yields { x.read r with elements := x.elements ++ [(r, i)] }
      (f ((x.data r).element i)) a x' := by
  obtain ⟨o, str, x₁, hr, h⟩ := Prog.yields_call.mp h
  obtain ⟨rfl, rfl⟩ := Prod.mk.inj (Option.some.inj hr)
  exact h

theorem Replies.yields_freeReply {r : Reply} {f : Unit → Client α} {a : α}
    (h : x.Yields (freeReply (some r) >>= f) a x') : (x.free r).Yields (f ()) a x' := by
  obtain ⟨o, u, x₁, hr, h⟩ := Prog.yields_call.mp h
  obtain ⟨-, rfl⟩ := Prod.mk.inj (Option.some.inj hr)
  exact h

/-- The entries of `agc_cache_redis_hashmget` are read at an index for each key. -/
theorem Replies.yields_hashEntries {r : Reply} {i : ℕ} {keys : List CStr}
    {entries : List KeyValue} (h : x.Yields (hashEntries r i keys) entries x') :
    x'.data = x.data ∧ x'.answers = x.answers ∧
      (∀ p ∈ x.elements, p ∈ x'.elements) ∧ (∀ k < keys.length, (r, i + k) ∈ x'.elements) ∧
      ∀ l, Clean x l → r ∈ l → i + keys.length ≤ (x.data r).size → Clean x' l := by
  -- the index runs with the keys, whatever the number of the elements is
  induction keys generalizing x i entries with
  | nil =>
    obtain ⟨rfl, rfl⟩ := Prog.yields_ret.mp h
    exact ⟨rfl, rfl, fun p hp => hp, fun k hk => absurd hk (Nat.not_lt_zero k),
      fun l hx _ _ => hx⟩
  | cons key keys ih =>
    have h := yields_replyElement h
    obtain ⟨rest, x₂, hrest, h⟩ := Prog.Yields.of_bind h
    obtain ⟨rfl, rfl⟩ := Prog.yields_ret.mp h
    obtain ⟨hdata, hanswers, hold, hnew, hclean⟩ := ih hrest
    refine ⟨hdata, hanswers, fun p hp => hold p (List.mem_append_left _ hp), ?_, ?_⟩
    · rintro (_ | k) hk
      · exact hold (r, i) (List.mem_append_right _ List.mem_cons_self)
      · have hmem := hnew k (Nat.lt_of_succ_lt_succ hk)
        rwa [Nat.add_assoc, Nat.add_comm 1 k] at hmem
    · -- as long as there are elements for the keys, the reads are inside of the array
      intro l hx hr hlen
      rw [List.length_cons] at hlen
      have hi : i < (x.data r).size := by omega
      have hlen' : i + 1 + keys.length ≤ (x.data r).size := by omega
      exact hclean l (hx.element hr hi) hr hlen'

/-- What `agc_cache_redis_hashmget` does with its answer. -/
inductive Handles (keys : List CStr) (result : Result) (x' : Replies) : Option Data → Prop
  /-- Without a reply it fails. -/
  | none (h : Clean x' []) (hr : result = (.generr, .untouched)) : Handles keys result x' none
  /-- It reads the elements of an array, also those that are not there. -/
  | array (r : Reply) (elements : List (Option (List Byte))) (hr : result.1 = .success)
      (hdata : x'.data r = .array elements) (hread : ∀ k < keys.length, (r, k) ∈ x'.elements)
      (h : keys.length ≤ elements.length → Clean x' []) :
      Handles keys result x' (some (.array elements))
  /-- It reads another reply after it has freed it. -/
  | other (d : Data) (hd : d.type ≠ .array) (r : Reply) (before after : List (Ledger.Act Reply))
      (hledger : x'.ledger = before ++ .use r :: after) (hfree : .free r ∈ before) :
      Handles keys result x' (some d)

/-- Reading a reply adds to the ledger. -/
theorem Replies.reads_extend {p : Client α} {r : Reply} {a : α} (hp : p.Only (Call.Reads r))
    (h : x.Yields p a x') : x'.answers = x.answers ∧ x.ledger <+: x'.ledger := by
  refine Prog.Only.keeps (I := fun y => y.answers = x.answers ∧ x.ledger <+: y.ledger) ?_ hp h
    ⟨rfl, List.prefix_rfl⟩
  rintro y o c a y' hc hy ⟨hanswers, hpre⟩
  rw [eq_read hc hy]
  exact ⟨hanswers, hpre.trans (List.prefix_append _ _)⟩

theorem Replies.yields_handleArray {keys : List CStr} {result : Result} (hx : Clean x [])
    (answer : Option Data)
    (h : (x.give answer).2.Yields (handleArray keys (x.give answer).1) result x') :
    x'.answers = x.answers ++ [.ofOption answer] ∧ Handles keys result x' answer := by
  have hgive := hx.give answer
  rw [List.append_nil] at hgive
  cases answer with
  | none =>
    have hfail : Spec [] (do freeReply none; logError none; return (.generr, .untouched) :
        Client Result) (fun result => result = (.generr, .untouched)) [] :=
      (spec_freeReply none).bind fun _ _ => (spec_logError none).bind fun _ _ => spec_ret rfl
    obtain ⟨hx', -, hanswers, hr⟩ := hfail _ _ _ hgive h
    exact ⟨hanswers, .none hx' hr⟩
  | some d =>
    have hdata : (x.give (some d)).2.data x.count = d := Function.update_self ..
    have h := yields_replyType h
    rw [hdata] at h
    have hread := hgive.read_of_mem (r := x.count) List.mem_cons_self
    by_cases ht : d.type = .array
    · -- an array is read while it is live, and freed at the end
      rw [if_pos ht] at h
      obtain ⟨elements, rfl⟩ : ∃ elements, d = .array elements := by
        cases d <;> first | exact ⟨_, rfl⟩ | cases ht
      obtain ⟨entries, x₁, hentries, h⟩ := Prog.Yields.of_bind h
      have h := yields_freeReply h
      obtain ⟨rfl, rfl⟩ := Prog.yields_ret.mp h
      obtain ⟨hdata₁, hanswers₁, -, helements, hclean⟩ := yields_hashEntries hentries
      refine ⟨hanswers₁, .array x.count elements rfl ?_ (fun k hk => ?_) fun hlen => ?_⟩
      · exact (congrFun hdata₁ x.count).trans hdata
      · have hmem := helements k hk
        rwa [Nat.zero_add] at hmem
      · have hsize : 0 + keys.length ≤ (((x.give (some (.array elements))).2.read x.count).data
            x.count).size := by
          change _ ≤ ((x.give (some (.array elements))).2.data x.count).size
          rw [hdata, Nat.zero_add]
          exact hlen
        exact (hclean _ hread List.mem_cons_self hsize).free
    · rw [if_neg ht] at h
      have h := yields_freeReply h
      obtain ⟨_, x₁, hlog, h⟩ := Prog.Yields.of_bind h
      obtain ⟨rfl, rfl⟩ := Prog.yields_ret.mp h
      -- the first thing that is logged is the type of what was freed
      have hlog := yields_replyType hlog
      obtain ⟨hanswers, after, hledger⟩ := reads_extend ((reads_logError x.count).2 _) hlog
      have hsplit := hledger.symm.trans (List.append_assoc _ [_] after)
      exact ⟨hanswers, .other d ht x.count _ after hsplit
        (List.mem_append_right _ List.mem_cons_self)⟩

theorem Replies.give_pool (x : Replies) (s : State) (answer : Option Data) :
    (({ x with pool := s } : Replies).give answer) =
      ((x.give answer).1, { (x.give answer).2 with pool := s }) := by
  cases answer <;> rfl

/-- What `agc_cache_redis_hashmget` does. -/
theorem Replies.yields_hashmget {tablename : Option CStr} {keys : List CStr} {result : Result}
    (hx : Clean x []) (h : x.Yields (agcCacheRedisHashmget tablename keys) result x') :
    (x'.answers = x.answers ∧ Clean x' [] ∧ result = (.generr, .untouched)) ∨
      ∃ a, x'.answers = x.answers ++ [.ofOption a] ∧ Handles keys result x' a := by
  -- the returns before the command is sent
  have hearly : ∀ {x₁ : Replies}, Clean x₁ [] → x₁.answers = x.answers →
      x₁.Yields (pure (.generr, .untouched)) result x' →
      x'.answers = x.answers ∧ Clean x' [] ∧ result = (.generr, .untouched) := by
    intro x₁ hx₁ hanswers h
    obtain ⟨rfl, rfl⟩ := Prog.yields_ret.mp h
    exact ⟨hanswers, hx₁, rfl⟩
  cases tablename with
  | none => exact Or.inl (hearly hx rfl h)
  | some tablename =>
    cases keys with
    | nil => exact Or.inl (hearly hx rfl h)
    | cons key keys =>
      obtain ⟨conn, x₁, hconn, h⟩ := Prog.Yields.of_bind h
      obtain ⟨hx₁, -, hanswers₁, -⟩ := spec_apart apart_getConnection _ _ _ hx hconn
      cases conn with
      | none => exact Or.inl (hearly hx₁ hanswers₁ h)
      | some c =>
        right
        obtain ⟨o, h⟩ := yields_use h
        obtain ⟨_, x₂, hfree, h⟩ := Prog.Yields.of_bind h
        obtain ⟨s, rfl⟩ := eq_of_aside ((apart_freeConnection c).mono fun _ => Call.Apart.aside)
          hfree
        -- the connection is put back between the answer and what is done with it
        have hgive := give_pool x₁ s o.answer
        have h' : (({ x₁ with pool := s } : Replies).give o.answer).2.Yields
            (handleArray (key :: keys) (({ x₁ with pool := s } : Replies).give o.answer).1)
            result x' := by
          rw [hgive]
          exact h
        obtain ⟨hanswers, hhandles⟩ := yields_handleArray (hx₁.pool s) o.answer h'
        exact ⟨o.answer, hanswers.trans (congrArg (· ++ [.ofOption o.answer]) hanswers₁), hhandles⟩

end Operations

/-! ## When operations return -/

/-- A call that ends no process, and for which the library answers nothing that is put on record. -/
def Call.Mute : Call → Prop
  | .use _ (.command _) | .use _ (.commandArgv _) | .use _ .getReply | .fault => False
  | _ => True

/-- A call that does not end the process. -/
def Call.Calm : Call → Prop
  | .fault => False
  | _ => True

theorem Call.Aside.mute {c : Call} (h : c.Aside) : c.Mute := by
  cases c with
  | use cc u => cases u <;> first | exact h.elim | exact trivial
  | fault => exact h.elim
  | _ => exact trivial

theorem Call.Mute.calm {c : Call} (h : c.Mute) : c.Calm := by
  cases c with
  | fault => exact h.elim
  | _ => exact trivial

theorem Call.Reads.calm {r : Reply} {c : Call} (h : c.Reads r) : c.Calm := by
  cases c with
  | fault => exact h.elim
  | _ => exact trivial

theorem not_calm_fault : ¬ Call.fault.Calm := id

/-- The process dies in the program exactly by logging a failure with an error. -/
def Reported {α : Type} (p : Client α) : Prop :=
  ∀ (x : Replies) out x', x.Ends p out x' → x'.logs = x.logs ∧
    ∃ ans, x'.answers = x.answers ++ ans ∧ (out = none ↔ x.logs = true ∧ .failed true ∈ ans)

section Returns

variable {α β : Type} {p : Client α} {f : α → Client β} {c : Conn}

theorem Replies.record_of_mute {x x' : Replies} {o : Answer} {q : Call} {a : q.Answer}
    (hq : q.Mute) (h : x.respond o q = some (a, x')) :
    x'.logs = x.logs ∧ x'.answers = x.answers := by
  cases q with
  | use cc u =>
    cases u <;> first | exact hq.elim | skip
    all_goals
      obtain ⟨-, rfl⟩ := Prod.mk.inj (Option.some.inj h)
      exact ⟨rfl, rfl⟩
  | replyType r | replyStr r | replyInteger r | replyElement r i | logsErrors =>
    obtain ⟨-, rfl⟩ := Prod.mk.inj (Option.some.inj h)
    exact ⟨rfl, rfl⟩
  | freeReply r =>
    cases r <;> obtain ⟨-, rfl⟩ := Prod.mk.inj (Option.some.inj h) <;> exact ⟨rfl, rfl⟩
  | _ =>
    obtain ⟨s, rfl⟩ := Replies.eq_of_respondPool h
    exact ⟨rfl, rfl⟩

/-- What is mute returns and leaves the record alone. -/
theorem reported_of_mute (hp : p.Only Call.Mute) : Reported p := by
  intro x out x' h
  cases out with
  | none => exact absurd h ((hp.mono fun _ => Call.Mute.calm).not_comes not_calm_fault)
  | some a =>
    have hkeeps := Prog.Only.keeps (I := fun y : Replies => y.logs = x.logs ∧ y.answers = x.answers)
      ?_ hp h ⟨rfl, rfl⟩
    · exact ⟨hkeeps.1, [], by simpa using hkeeps.2, by simp⟩
    rintro y o q a y' hq hy ⟨hlogs, hanswers⟩
    obtain ⟨hlogs', hanswers'⟩ := Replies.record_of_mute hq hy
    exact ⟨hlogs'.trans hlogs, hanswers'.trans hanswers⟩

theorem reported_ret (a : α) : Reported (pure a) := reported_of_mute trivial

theorem Reported.bind (hp : Reported p) (hf : ∀ a, Reported (f a)) : Reported (p >>= f) := by
  intro x out x' h
  rcases Prog.Ends.of_bind h with ⟨rfl, hcomes⟩ | ⟨a, x₁, hyields, h⟩
  · replace hcomes : x.Ends p none x' := hcomes
    obtain ⟨hlogs, ans, hanswers, hdies⟩ := hp x none x' hcomes
    exact ⟨hlogs, ans, hanswers, iff_of_true rfl (hdies.mp rfl)⟩
  · replace hyields : x.Ends p (some a) x₁ := hyields
    obtain ⟨hlogs, ans, hanswers, hdies⟩ := hp x (some a) x₁ hyields
    obtain ⟨hlogs', ans', hanswers', hdies'⟩ := hf a x₁ out x' h
    have hfirst : ¬ (x.logs = true ∧ .failed true ∈ ans) := fun h => by simpa using hdies.mpr h
    refine ⟨hlogs'.trans hlogs, ans ++ ans', ?_, ?_⟩
    · rw [hanswers', hanswers, List.append_assoc]
    · rw [hdies', hlogs, List.mem_append]
      constructor
      · exact fun h => ⟨h.1, Or.inr h.2⟩
      · exact fun h => ⟨h.1, h.2.resolve_left fun hmem => hfirst ⟨h.1, hmem⟩⟩

theorem reported_of_aside (hp : p.Only Call.Aside) : Reported p :=
  reported_of_mute (hp.mono fun _ => Call.Aside.mute)

theorem reported_freeConnection (c : Conn) : Reported (freeConnection c) :=
  reported_of_aside ((apart_freeConnection c).mono fun _ => Call.Apart.aside)

/-- What follows a reply is mute, and what follows a failure dies exactly if there is an error that
is logged. -/
theorem reported_getReply {f : GetReply → Client α} (hok : ∀ reply, (f (.ok reply)).Only Call.Mute)
    (hfailed : ∀ err (x : Replies) out x', x.Ends (f (.failed err)) out x' →
      x'.logs = x.logs ∧ x'.answers = x.answers ∧ (out = none ↔ x.logs = true ∧ err = true)) :
    Reported (read c >>= fun v => use v.cc .getReply >>= f) := by
  intro x out x' h
  rcases Replies.ends_getReply h with ⟨answer, h⟩ | ⟨err, h⟩
  · obtain ⟨hlogs, ans, hanswers, hdies⟩ := reported_of_mute (hok _) _ _ _ h
    have hgive : (x.give answer).2.logs = x.logs ∧
        (x.give answer).2.answers = x.answers ++ [.ofOption answer] := by
      cases answer <;> exact ⟨rfl, rfl⟩
    have hne : .failed true ≠ Receipt.ofOption answer := by
      cases answer <;> simp [Receipt.ofOption]
    refine ⟨hlogs.trans hgive.1, .ofOption answer :: ans, ?_, ?_⟩
    · rw [hanswers, hgive.2, List.append_assoc]
      rfl
    · rw [hdies, hgive.1, List.mem_cons, or_iff_right hne]
  · obtain ⟨hlogs, hanswers, hdies⟩ := hfailed err _ _ _ h
    refine ⟨hlogs, [.failed err], hanswers, hdies.trans (and_congr_right fun _ => ?_)⟩
    rw [List.mem_singleton, Receipt.failed.injEq, eq_comm]

theorem reported_nextReply : Reported (nextReply c) := by
  refine reported_getReply (fun reply => ?_) fun err x out x' h => ?_
  · cases reply with
    | none => exact trivial
    | some r =>
      refine ⟨trivial, fun type => ?_⟩
      change Prog.Only Call.Mute (if type = .error then _ else _)
      split
      · exact ⟨trivial, fun _ => ⟨trivial, fun _ => trivial⟩⟩
      · exact ⟨trivial, fun _ => trivial⟩
  · -- the log line reads the error as a text
    obtain ⟨o, logs, x₁, hr, h⟩ := (Prog.ends_call (by simp)).mp h
    obtain ⟨rfl, rfl⟩ := Prod.mk.inj (Option.some.inj hr)
    replace h : x.Ends (if x.logs && err then fault else pure false) out x' := h
    split at h
    · rename_i hdies
      obtain ⟨rfl, rfl⟩ := Prog.ends_stop.mp h
      exact ⟨rfl, rfl, iff_of_true rfl (by simpa using hdies)⟩
    · rename_i hdies
      obtain ⟨rfl, rfl⟩ := Prog.ends_ret.mp h
      exact ⟨rfl, rfl, iff_of_false (by simp) (by simpa using hdies)⟩

theorem reported_multirepliesLoop (n : ℕ) : Reported (multirepliesLoop c n) := by
  induction n with
  | zero => exact reported_ret _
  | succ n ih =>
    refine reported_nextReply.bind fun more => ?_
    cases more with
    | true => exact ih
    | false => exact reported_ret _

/-- The replies of commands that were appended. -/
theorem reported_multireplies {append : Client ℕ} (happend : append.Only Call.Aside) :
    Reported (do
      let n ← append
      let status ← agcRedisMultireplies c n
      freeConnection c
      return (status, .untouched) : Client Result) := by
  refine (reported_of_aside happend).bind fun n => ?_
  refine Reported.bind ?_ fun status => ?_
  · refine (reported_multirepliesLoop n).bind fun status => ?_
    exact (reported_of_aside aside_resetContext).bind fun _ => reported_ret _
  · exact (reported_freeConnection c).bind fun _ => reported_ret _

theorem reported_pipelineOp (cmds : List Command) :
    Reported (do
      appendAll c (cmds.map some)
      let status ← agcRedisMultireplies c (cmds.map some).length
      freeConnection c
      return (status, .untouched) : Client Result) := by
  have happend : (do appendAll c (cmds.map some); return (cmds.map some).length :
      Client ℕ).Only Call.Aside := (aside_appendAll cmds).bind fun _ => trivial
  have h := reported_multireplies (c := c) happend
  simpa only [bind_assoc, pure_bind] using h

/-! ### Operations that cannot die -/

theorem calm_withConnection {body : Conn → Client Result} (hbody : ∀ c, (body c).Only Call.Calm) :
    (withConnection body).Only Call.Calm := by
  refine (apart_getConnection.mono fun _ h => h.aside.mute.calm).bind fun conn => ?_
  cases conn with
  | none => exact trivial
  | some c => exact hbody c

theorem calm_freeConnection : (freeConnection c).Only Call.Calm :=
  (apart_freeConnection c).mono fun _ h => h.aside.mute.calm

theorem calm_checked (valid : Bool) {op : Client Result} (h : op.Only Call.Calm) :
    (checked valid op).Only Call.Calm := by
  cases valid with
  | false => exact trivial
  | true => exact h

theorem calm_failed (reply : Option Reply) {a : α} :
    (do logError reply; freeReply reply; return a : Client α).Only Call.Calm := by
  refine Prog.Only.bind ?_ fun _ => ⟨trivial, fun _ => trivial⟩
  cases reply with
  | none => exact trivial
  | some r => exact (reads_logError r).mono fun _ => Call.Reads.calm

theorem calm_handleReply {output : Reply → Client Output}
    (hout : ∀ r, (output r).Only (Call.Reads r)) (reply : Option Reply) :
    (handleReply output reply).Only Call.Calm := by
  cases reply with
  | none => exact calm_failed none
  | some r =>
    refine ⟨trivial, fun type => ?_⟩
    change Prog.Only Call.Calm (if type = .error then _ else _)
    split
    · exact calm_failed (some r)
    · refine ((hout r).mono fun _ => Call.Reads.calm).bind fun _ => ?_
      exact ⟨trivial, fun _ => trivial⟩

theorem calm_commandOp (cmd : Command) {output : Reply → Client Output}
    (hout : ∀ r, (output r).Only (Call.Reads r)) : (commandOp cmd output).Only Call.Calm :=
  calm_withConnection fun _ => ⟨trivial, fun _ => ⟨trivial, fun reply =>
    calm_freeConnection.bind fun _ => calm_handleReply hout reply⟩⟩

theorem calm_counterOp (cmd : String) (key : Option CStr) (value : Bool) :
    (counterOp cmd key value).Only Call.Calm := by
  cases key with
  | none => exact trivial
  | some key => exact calm_commandOp _ fun r => reads_getIntvalue r value

theorem calm_handleArray (keys : List CStr) (reply : Option Reply) :
    (handleArray keys reply).Only Call.Calm := by
  have hentries : ∀ (r : Reply) (i : ℕ), (hashEntries r i keys).Only Call.Calm := by
    intro r i
    induction keys generalizing i with
    | nil => exact trivial
    | cons key keys ih => exact ⟨trivial, fun _ => (ih (i + 1)).bind fun _ => trivial⟩
  cases reply with
  | none => exact ⟨trivial, fun _ => trivial⟩
  | some r =>
    refine ⟨trivial, fun type => ?_⟩
    change Prog.Only Call.Calm (if type = .array then _ else _)
    split
    · exact (hentries r 0).bind fun _ => ⟨trivial, fun _ => trivial⟩
    · refine ⟨trivial, fun _ => ?_⟩
      exact ((reads_logError r).mono fun _ => Call.Reads.calm).bind fun _ => trivial

/-- With its words the command can be sent. -/
theorem calm_hashOp {cmd : String} {tablename : CStr} {keys : List CStr}
    {keyvalues : List KeyValue} {handle : Option Reply → Client Result}
    (hwords : (hashWords cmd tablename keys keyvalues).isSome)
    (hhandle : ∀ reply, (handle reply).Only Call.Calm) :
    (hashOp cmd tablename keys keyvalues handle).Only Call.Calm := by
  refine calm_withConnection fun c => ?_
  have hrest : ∀ reply, (freeConnection c >>= fun _ => handle reply).Only Call.Calm :=
    fun reply => calm_freeConnection.bind fun _ => hhandle reply
  obtain ⟨words, hwords⟩ := Option.isSome_iff_exists.mp hwords
  rw [agcRedisHashargv, hwords]
  split
  · exact hrest none
  · exact ⟨trivial, fun _ => ⟨trivial, fun reply => hrest reply⟩⟩

theorem calm_collectReplies (keys : List CStr) : (collectReplies c keys).Only Call.Calm := by
  induction keys with
  | nil => exact trivial
  | cons key keys ih =>
    refine ⟨trivial, fun _ => ⟨trivial, fun got => ?_⟩⟩
    rcases got with (_ | r) | err
    · exact calm_failed none
    · refine ⟨trivial, fun type => ?_⟩
      change Prog.Only Call.Calm (if type = .error then _ else _)
      split
      · exact calm_failed (some r)
      · refine ((reads_getStrvalue r).mono fun _ => Call.Reads.calm).bind fun _ => ?_
        exact ⟨trivial, fun _ => ih.bind fun _ => trivial⟩
    · exact calm_failed none

theorem calm_getPipeline (keys : List CStr) (keyvalues : Bool) :
    (agcCacheRedisGetPipeline keys keyvalues).Only Call.Calm := by
  refine calm_checked _ (calm_withConnection fun c => ?_)
  have happend := aside_appendAll (c := c) (keys.map getCommand)
  rw [List.map_map] at happend
  refine (happend.mono fun _ h => h.mute.calm).bind fun _ => ?_
  refine (calm_collectReplies keys).bind fun _ => ?_
  refine (aside_resetContext.mono fun _ h => h.mute.calm).bind fun _ => ?_
  exact calm_freeConnection.bind fun _ => trivial

theorem hashWords_keys (cmd : String) (tablename : CStr) {keys : List CStr} (hkeys : keys ≠ []) :
    (hashWords cmd tablename keys []).isSome := by
  have hempty : ¬ keys.isEmpty := by simpa using hkeys
  rw [hashWords, if_neg hempty]
  rfl

theorem mapM_entryWords_isSome (keyvalues : List KeyValue) :
    (keyvalues.mapM entryWords).isSome ↔ Formatted keyvalues := by
  induction keyvalues with
  | nil => simp [Formatted]
  | cons kv keyvalues ih =>
    rw [Formatted, List.forall_mem_cons, ← Formatted, ← ih, List.mapM_cons, entryWords]
    cases kv.value <;> cases keyvalues.mapM entryWords <;> simp

/-- A value that is NULL has no text. -/
theorem hashWords_keyvalues (cmd : String) (tablename : CStr) (keyvalues : List KeyValue) :
    (hashWords cmd tablename [] keyvalues).isSome ↔ Formatted keyvalues := by
  rw [← mapM_entryWords_isSome, hashWords, if_pos List.isEmpty_nil]
  cases keyvalues.mapM entryWords <;> simp

/-! ### The operations -/

variable {op : Op} {s : State} {data : Reply → Data} {logs : Bool} {conn : Option Conn}
  {out : Option Result} {x : Replies}

theorem returns_of_calm (hop : op.body.Only Call.Calm)
    (h : op.Run Replies.respond { pool := s, data, logs } conn out x) : out.isSome := by
  have hends := Op.ends_iff.mpr ⟨conn, h⟩
  cases out with
  | none => exact absurd hends (hop.not_comes not_calm_fault)
  | some result => rfl

/-- Without a connection the operation returns, and no answer has come. -/
theorem returns_of_none (h : op.Run Replies.respond { pool := s, data, logs } none out x) :
    out.isSome ∧ x.answers = [] := by
  rcases op.asks with hbody | ⟨work, hbody⟩
  · obtain ⟨-, rfl, rfl⟩ := h.of_refused hbody
    exact ⟨rfl, rfl⟩
  · rcases h.of_withConnection hbody with ⟨-, rfl, hconn⟩ | ⟨c, _, hnone, -⟩
    · obtain ⟨s', rfl⟩ := eq_of_aside (apart_getConnection.mono fun _ => Call.Apart.aside) hconn
      exact ⟨rfl, rfl⟩
    · cases hnone

/-- With a connection the operation works. -/
theorem ends_of_run {work : Conn → Client Result} (hbody : op.body = withConnection work)
    (h : op.Run Replies.respond { pool := s, data, logs } (some c) out x) :
    ∃ s', Replies.Ends { pool := s', data, logs } (work c) out x := by
  rcases h.of_withConnection hbody with ⟨hnone, -⟩ | ⟨c', x₁, hsome, hconn, hwork⟩
  · cases hnone
  · obtain rfl := Option.some.inj hsome
    obtain ⟨s', rfl⟩ := eq_of_aside (apart_getConnection.mono fun _ => Call.Apart.aside) hconn
    exact ⟨s', hwork⟩

theorem returns_of_reported {work : Conn → Client Result} (hbody : op.body = withConnection work)
    (hwork : Reported (work c))
    (h : op.Run Replies.respond { pool := s, data, logs } (some c) out x) :
    out.isSome ↔ ¬ (logs = true ∧ .failed true ∈ x.answers) := by
  obtain ⟨s', hends⟩ := ends_of_run hbody h
  obtain ⟨-, ans, hanswers, hdies⟩ := hwork _ _ _ hends
  obtain rfl : x.answers = ans := hanswers
  rw [Option.isSome_iff_ne_none, ne_eq, hdies]

/-- The values of the list can be sent, or the process dies. -/
theorem returns_setPipeline {keyvalues : List KeyValue}
    (h : (Op.setPipeline keyvalues).Run Replies.respond { pool := s, data, logs } (some c) out x) :
    out.isSome ↔ Formatted keyvalues ∧ ¬ (logs = true ∧ .failed true ∈ x.answers) := by
  by_cases hform : Formatted keyvalues
  · rw [and_iff_right hform]
    refine returns_of_reported rfl ?_ h
    change Reported (do
      appendAll c (keyvalues.map setCommand)
      let status ← agcRedisMultireplies c (keyvalues.map setCommand).length
      freeConnection c
      return (status, .untouched) : Client Result)
    rw [Pipeline.commands_of_formatted hform]
    exact reported_pipelineOp _
  · refine iff_of_false ?_ fun h => hform h.1
    obtain ⟨s', hends⟩ := ends_of_run rfl h
    rcases Prog.Ends.of_bind hends with ⟨rfl, -⟩ | ⟨_, x₁, happend, -⟩
    · simp
    · exact absurd (Pipeline.formatted_of_notMem (notMem_of_yields_appendAll happend)) hform

theorem returns_deletePipeline {keys : List CStr}
    (h : (Op.deletePipeline keys).Run Replies.respond { pool := s, data, logs } (some c) out x) :
    out.isSome ↔ ¬ (logs = true ∧ .failed true ∈ x.answers) := by
  cases keys with
  | nil =>
    obtain ⟨hnone, -⟩ := h.of_refused rfl
    cases hnone
  | cons key keys =>
    refine returns_of_reported rfl ?_ h
    have hwork := reported_pipelineOp (c := c)
      ((key :: keys).map fun key => words "DEL" [key.bytes])
    rw [List.map_map] at hwork
    exact hwork

theorem returns_hashmset {tablename : Option CStr} {keyvalues : List KeyValue}
    (h : (Op.hashmset tablename keyvalues).Run Replies.respond { pool := s, data, logs } (some c)
      out x) : out.isSome ↔ Formatted keyvalues := by
  cases tablename with
  | none =>
    obtain ⟨hnone, -⟩ := h.of_refused rfl
    cases hnone
  | some tablename =>
    rw [← hashWords_keyvalues "HMSET" tablename keyvalues]
    constructor
    · intro hout
      cases keyvalues with
      | nil => rfl
      | cons kv keyvalues =>
        obtain ⟨s', hends⟩ := ends_of_run rfl h
        by_contra hwords
        rw [Option.not_isSome_iff_eq_none] at hwords
        rw [agcRedisHashargv, hwords, if_neg (by simp)] at hends
        obtain ⟨rfl, -⟩ := Prog.ends_stop.mp hends
        cases hout
    · intro hwords
      have hcalm : (Op.hashmset (some tablename) keyvalues).body.Only Call.Calm :=
        calm_checked _ (calm_hashOp hwords (calm_handleReply reads_noOutput))
      exact returns_of_calm hcalm h

theorem calm_hashset (tablename key : Option CStr) (value : Option (List Byte)) :
    (agcCacheRedisHashset tablename key value).Only Call.Calm := by
  rcases tablename with _ | tablename
  · exact trivial
  rcases key with _ | key
  · exact trivial
  rcases value with _ | value
  · exact trivial
  refine calm_withConnection fun c => ⟨trivial, fun _ => ⟨trivial, fun reply => ?_⟩⟩
  refine ((aside_logNullReply reply).mono fun _ h => h.mute.calm).bind fun _ => ?_
  exact calm_freeConnection.bind fun _ => calm_handleReply reads_noOutput reply

theorem calm_hashkeys (cmd : String) (tablename : CStr) (keys : List CStr)
    {handle : Option Reply → Client Result} (hhandle : ∀ reply, (handle reply).Only Call.Calm) :
    (checked (!keys.isEmpty) (hashOp cmd tablename keys [] handle)).Only Call.Calm := by
  cases keys with
  | nil => exact trivial
  | cons key keys => exact calm_hashOp (hashWords_keys cmd tablename (by simp)) hhandle

/-- An operation returns, unless it sends a value that is NULL or logs a failure with an error. -/
theorem Op.returns_iff (h : op.Run Replies.respond { pool := s, data, logs } conn out x) :
    out.isSome ↔ op.Returns logs conn x.answers := by
  cases conn with
  | none =>
    obtain ⟨hout, hanswers⟩ := returns_of_none h
    refine iff_of_true hout ?_
    rw [hanswers]
    cases op <;> simp [Op.Returns]
  | some c =>
    have hcalm : op.body.Only Call.Calm → (out.isSome ↔ True) := fun hop =>
      iff_of_true (returns_of_calm hop h) trivial
    cases op with
    | set key value size expires =>
      exact returns_of_reported rfl (reported_multireplies (aside_appendSet key value expires)) h
    | setPipeline keyvalues => simpa [Op.Returns] using returns_setPipeline h
    | deletePipeline keys => exact returns_deletePipeline h
    | hashmset tablename keyvalues => simpa [Op.Returns] using returns_hashmset h
    -- the others never end the process
    | get key result len => exact hcalm (calm_checked _ (calm_commandOp _ reads_strOutput))
    | delete key => exact hcalm (calm_commandOp _ reads_noOutput)
    | getPipeline keys keyvalues => exact hcalm (calm_getPipeline keys keyvalues)
    | expire key expires =>
      refine hcalm ?_
      cases key with
      | none => exact trivial
      | some key => exact calm_checked _ (calm_commandOp _ reads_noOutput)
    | incr key value => exact hcalm (calm_counterOp _ key value)
    | decr key value => exact hcalm (calm_counterOp _ key value)
    | hashset tablename key value => exact hcalm (calm_hashset tablename key value)
    | hashget tablename key value len =>
      refine hcalm ?_
      rcases tablename with _ | tablename
      · exact trivial
      rcases key with _ | key
      · exact trivial
      exact calm_checked _ (calm_commandOp _ reads_strOutput)
    | hashmget tablename keys =>
      refine hcalm ?_
      cases tablename with
      | none => exact trivial
      | some tablename => exact calm_hashkeys _ tablename keys (calm_handleArray keys)
    | hashdel tablename keys =>
      refine hcalm ?_
      cases tablename with
      | none => exact trivial
      | some tablename => exact calm_hashkeys _ tablename keys (calm_handleReply reads_noOutput)

end Returns

/-! ## When replies are handled well -/

section Law

variable {op : Op} {result : Result} {x : Replies} {s : State} {data : Reply → Data} {logs : Bool}
  {conn : Option Conn} {out : Option Result}

theorem Clean.handled_of_spares (h : Clean x []) (hout : Spares result) :
    op.Handled (some result) x :=
  h.handled fun hfail => Or.inl (hout hfail)

/-- `agc_cache_redis_get_pipeline` stores what it has so far when a reply fails it. -/
theorem handled_getPipeline_iff {keys : List CStr} {keyvalues : Bool}
    (h : Replies.Yields { pool := s, data, logs } (Op.getPipeline keys keyvalues).body result x) :
    (Op.getPipeline keys keyvalues).Handled (some result) x ↔ ∀ a ∈ x.answers, a.Good := by
  obtain ⟨hx, hcases⟩ := Replies.yields_getPipeline (clean_start s data logs) h
  rcases hcases with ⟨rfl, hanswers⟩ | ⟨status, entries, ans, rfl, hanswers, hcollected⟩
  · rw [hanswers]
    exact iff_of_true (hx.handled_of_spares fun _ => rfl) (by simp)
  · have hanswers : x.answers = ans := hanswers
    rw [hanswers]
    rcases hcollected with ⟨rfl, -, hgood⟩ | ⟨rfl, hlt, a, ha, hbad⟩
    · exact iff_of_true (hx.handled fun hfail => absurd rfl hfail) hgood
    · refine iff_of_false (fun hhandled => ?_) fun hgood => hbad (hgood a ha)
      rcases hhandled.output _ rfl (by simp) with hout | hcomplete
      · cases hout
      · -- a list that is too short is not complete
        have hkeys : entries.map KeyValue.key = keys := hcomplete
        rw [← hkeys, List.length_map] at hlt
        exact Nat.lt_irrefl _ hlt

/-- `agc_cache_redis_hashmget` handles no reply, and an array that has an element for each key. -/
theorem handled_hashmget_iff {tablename : Option CStr} {keys : List CStr}
    (h : Replies.Yields { pool := s, data, logs } (Op.hashmget tablename keys).body result x) :
    (Op.hashmget tablename keys).Handled (some result) x ↔ ∀ a ∈ x.answers, a = .missing ∨
      ∃ elements, a = .reply (.array elements) ∧ keys.length ≤ elements.length := by
  rcases Replies.yields_hashmget (clean_start s data logs) h with ⟨hanswers, hx, rfl⟩ |
    ⟨a, hanswers, hhandles⟩
  · rw [hanswers]
    exact iff_of_true (hx.handled_of_spares fun _ => rfl) (by simp)
  have hanswers : x.answers = [.ofOption a] := hanswers
  rw [hanswers, List.forall_mem_singleton]
  cases hhandles with
  | none hx hr => exact iff_of_true (hx.handled_of_spares fun _ => by rw [hr]) (Or.inl rfl)
  | array r elements hr hdata hread hx =>
    by_cases hlen : keys.length ≤ elements.length
    · exact iff_of_true ((hx hlen).handled fun hfail => absurd hr hfail)
        (Or.inr ⟨elements, rfl, hlen⟩)
    · refine iff_of_false (fun hhandled => ?_) ?_
      · -- the first element that is not there is read
        have hbound := hhandled.bounds _ (hread elements.length (Nat.lt_of_not_le hlen))
        rw [hdata] at hbound
        exact Nat.lt_irrefl _ hbound
      · rintro (hnone | ⟨elements', heq, hlen'⟩)
        · cases hnone
        · cases heq
          exact hlen hlen'
  | other d hd r before after hledger hfree =>
    -- the read after the free is on the ledger
    refine iff_of_false (fun hhandled => hhandled.live before r after hledger hfree) ?_
    rintro (hnone | ⟨elements, heq, -⟩)
    · cases hnone
    · cases heq
      exact hd rfl

/-- **The handling of replies.** An operation returns, frees each reply that it got once, reads none
after that, reads elements below their number, and leaves its output alone or complete when it
fails, exactly in these runs: `agc_cache_redis_hashmget` gets no reply or an array with an element
for each key; `agc_cache_redis_get_pipeline` gets good replies; an operation that sends values and
has a connection sends none that is NULL; an operation that counts its replies logs no failure of
`redisClusterGetReply` with an error. -/
theorem Op.handled_iff (op : Op)
    (h : op.Run Replies.respond { pool := s, data, logs } conn out x) :
    op.Handled out x ↔ op.Served logs conn x.answers := by
  have hreturns := Op.returns_iff h
  cases out with
  | none =>
    refine iff_of_false (fun hhandled => ?_) fun hserved => ?_
    · cases hhandled.returned
    · cases hreturns.mpr hserved.1
  | some result =>
    have hyields : Replies.Yields { pool := s, data, logs } op.body result x :=
      Op.ends_iff.mpr ⟨conn, h⟩
    have hreturned := hreturns.mp rfl
    have htidy : op.keys = [] → op.Handled (some result) x := by
      intro hkeys
      obtain ⟨hx, hout⟩ := op.tidy hkeys _ _ _ (clean_start s data logs) hyields
      exact hx.handled_of_spares hout
    cases op with
    | getPipeline keys keyvalues =>
      exact (handled_getPipeline_iff hyields).trans (and_iff_right hreturned).symm
    | hashmget tablename keys =>
      exact (handled_hashmget_iff hyields).trans (and_iff_right hreturned).symm
    | _ => exact iff_of_true (htidy rfl) ⟨hreturned, trivial⟩

/-- A table and a key. -/
def someHashmget : Op := .hashmget (some (CStr.ofString "t")) [CStr.ofString "k"]

deriving instance DecidableEq for Data
deriving instance DecidableEq for Receipt

/-- A run over a pool of one connection in which the library gives this answer. -/
theorem exists_hashmget (d : Data) (n : ℕ)
    (h : (someHashmget.body.exec Replies.respond { pool := (Env.ready {}).pool }
      (List.replicate n { answer := some d })).map (fun p => p.2.answers) = some [.reply d]) :
    ∃ conn result x, someHashmget.Run Replies.respond { pool := (Env.ready {}).pool } conn
      (some result) x ∧ x.answers = [.reply d] := by
  obtain ⟨⟨result, x⟩, hrun, hanswers⟩ := Option.map_eq_some_iff.mp h
  have hends : Replies.Ends { pool := (Env.ready {}).pool } someHashmget.body (some result) x :=
    ⟨_, hrun⟩
  obtain ⟨conn, h⟩ := Op.ends_iff.mp hends
  exact ⟨conn, result, x, h, hanswers⟩

/-- An array with the element of the key. -/
theorem handled_hashmget_array :
    ∃ conn out x, someHashmget.Run Replies.respond { pool := (Env.ready {}).pool } conn out x ∧
      someHashmget.Handled out x := by
  obtain ⟨conn, result, x, hrun, hanswers⟩ := exists_hashmget (.array [none]) 12 (by decide +kernel)
  refine ⟨conn, some result, x, hrun, (Op.handled_iff someHashmget hrun).mpr ⟨trivial, ?_⟩⟩
  rw [hanswers]
  exact List.forall_mem_singleton.mpr (Or.inr ⟨_, rfl, Nat.le_refl 1⟩)

/-- An error of the server is freed, and then its type and text are read. -/
theorem not_handled_hashmget_error :
    ∃ conn out x, someHashmget.Run Replies.respond { pool := (Env.ready {}).pool } conn out x ∧
      ¬ someHashmget.Handled out x := by
  obtain ⟨conn, result, x, hrun, hanswers⟩ :=
    exists_hashmget (.error (CStr.ofString "WRONGTYPE").bytes) 13 (by decide +kernel)
  refine ⟨conn, some result, x, hrun, fun hhandled => ?_⟩
  have hserved := (handled_hashmget_iff (Op.ends_iff.mpr ⟨conn, hrun⟩)).mp hhandled
  rw [hanswers, List.forall_mem_singleton] at hserved
  rcases hserved with hnone | ⟨elements, heq, -⟩
  · cases hnone
  · cases heq

end Law

end Redis
