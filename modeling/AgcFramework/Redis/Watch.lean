import AgcFramework.Redis.Ending
import AgcFramework.Redis.Values

/-!
# The commands and the replies of a run

An operation over the server is watched: which commands it was to append and whether they were,
and what each call of `redisClusterGetReply` gave. A script says what the library does in a run:
which of the commands fail, and what comes for those that wait. The loops that take the replies do
as the script says.

## Main definitions

* `Watch`: an environment that keeps the record
* `Receipt`, `Got`: what a call of `redisClusterGetReply` gives
* `Script`, `Script.Followed`: what the library does in a run
* `kept`, `leading`: what is left of a list when some elements fail, the good replies that come
  first

## Main results

* `Watch.ends_multireplies`, `Watch.ends_collectReplies`: the loops that take the replies
* `Watch.canEnd_multirepliesLoop`, `Watch.canEnd_collectReplies`: they come to an end with any
  script
-/

namespace Redis

/-- A command, by its words. -/
abbrev Command := List (List Byte)

def getCommand (key : CStr) : Command := words "GET" [key.bytes]

theorem getCommand_injective : Function.Injective getCommand := by
  intro key key' h
  simp only [getCommand, words, List.cons.injEq, and_true, true_and] at h
  exact CStr.ext h

/-! ## Receipts -/

/-- What the library gives for a command: a reply, none with `REDIS_OK`, or another status and
whether it has left the `err` of the context other than 0. -/
inductive Receipt
  | reply (d : Data)
  | missing
  | failed (err : Bool)

/-- What a call of `redisClusterGetReply` can come to when a command waits. -/
inductive Got
  | good
  | error
  | failed (err : Bool)
  deriving DecidableEq

namespace Receipt

/-- The data of the replies are those of the moment. -/
def ofGetReply (data : Reply → Data) : GetReply → Receipt
  | .ok (some r) => reply (data r)
  | .ok none => missing
  | .failed err => failed err

/-- A reply that is there and no error. -/
def Good (a : Receipt) : Prop := ∃ d, a = reply d ∧ d.type ≠ .error

def got : Receipt → Option Got
  | reply d => some (if d.type = .error then .error else .good)
  | missing => none
  | failed err => some (.failed err)

theorem good_iff {a : Receipt} : a.Good ↔ a.got = some .good := by
  cases a with
  | reply d => simp [Good, got]
  | missing => simp [Good, got]
  | failed err => simp [Good, got]

end Receipt

/-! ## The record -/

/-- An environment, whether errors are logged, and the record: the commands that were to be
appended and whether they were, and what the calls of `redisClusterGetReply` gave. -/
structure Watch where
  env : Env
  logs : Bool
  appends : List (Command × Bool) := []
  answers : List Receipt := []

/-- The commands of a record that were appended. -/
def sent (appends : List (Command × Bool)) : List Command :=
  (appends.filter Prod.snd).map Prod.fst

namespace Watch

/-- A call is answered. -/
def note (w : Watch) (e : Env) : (c : Call) → c.Answer → Watch
  | .use _ (.appendCommand cmd), ok => { w with env := e, appends := w.appends ++ [(cmd, ok)] }
  -- the data are looked up now: a later reply may come under the same number
  | .use _ .getReply, answer =>
    { w with env := e, answers := w.answers ++ [.ofGetReply e.reply answer] }
  | _, _ => { w with env := e }

/-- The answer of the environment. -/
def respondEnv (w : Watch) (o : Outcome) (c : Call) : Option (c.Answer × Watch) :=
  (w.env.respond o c).map fun (r, e) => (r, w.note e c r)

def respond (w : Watch) (o : Outcome) : (c : Call) → Option (c.Answer × Watch)
  | .logsErrors => some (w.logs, w)
  | c => w.respondEnv o c

/-- The program can give the result and lead to the environment and the record. -/
abbrev Yields {α : Type} (w : Watch) (p : Client α) (a : α) (w' : Watch) : Prop :=
  p.Yields respond w a w'

/-- The program can end so. It has no result if the process dies. -/
abbrev Ends {α : Type} (w : Watch) (p : Client α) (out : Option α) (w' : Watch) : Prop :=
  p.Ends respond .fault w out w'

/-- The record is the same. -/
structure SameRecord (w w' : Watch) : Prop where
  logs : w'.logs = w.logs
  appends : w'.appends = w.appends
  answers : w'.answers = w.answers

theorem SameRecord.refl (w : Watch) : w.SameRecord w := ⟨rfl, rfl, rfl⟩

theorem SameRecord.trans {w₁ w₂ w₃ : Watch} (h : w₁.SameRecord w₂) (h' : w₂.SameRecord w₃) :
    w₁.SameRecord w₃ :=
  ⟨h'.logs.trans h.logs, h'.appends.trans h.appends, h'.answers.trans h.answers⟩

end Watch

/-- A call that is not put on record, and does not end the process. -/
def Call.Silent : Call → Prop
  | .use _ (.appendCommand _) | .use _ .getReply | .fault => False
  | _ => True

theorem Call.Apart.silent {c : Call} (h : c.Apart) : c.Silent := by
  cases c with
  | use cc u => cases u <;> first | exact h.elim | exact trivial
  | fault => exact h.elim
  | _ => exact trivial

theorem not_silent_fault : ¬ Call.fault.Silent := id

theorem silent_resetContext (c : Conn) : (resetContext c).Only Call.Silent := by
  refine ⟨trivial, fun v => ?_⟩
  obtain ⟨_, _ | x, _⟩ := v
  · exact trivial
  · exact ⟨trivial, fun _ => trivial⟩

theorem silent_logError (reply : Option Reply) : (logError reply).Only Call.Silent := by
  cases reply with
  | none => exact trivial
  | some r =>
    refine ⟨trivial, fun type => ?_⟩
    change Prog.Only Call.Silent (if type = .error then _ else _)
    split
    · exact ⟨trivial, fun _ => trivial⟩
    · exact trivial

namespace Watch

section Programs

variable {α : Type} {w w' : Watch} {p : Client α} {a : α}

theorem note_of_silent {c : Call} (hc : c.Silent) (w : Watch) (e : Env) (r : c.Answer) :
    w.note e c r = { w with env := e } := by
  cases c with
  | use cc u => cases u <;> first | exact hc.elim | rfl
  | _ => rfl

theorem respondEnv_eq_some {o : Outcome} {c : Call} {r : c.Answer}
    (h : w.respondEnv o c = some (r, w')) :
    ∃ e, w.env.respond o c = some (r, e) ∧ w' = w.note e c r := by
  obtain ⟨⟨r', e⟩, he, h⟩ := Option.map_eq_some_iff.mp h
  obtain ⟨rfl, rfl⟩ := Prod.mk.inj h
  exact ⟨e, he, rfl⟩

/-- The answer is one that the environment can give, and it is put on record. -/
theorem respond_eq_some {o : Outcome} {c : Call} {r : c.Answer}
    (h : w.respond o c = some (r, w')) :
    ∃ o' e, w.env.respond o' c = some (r, e) ∧ w' = w.note e c r := by
  cases c with
  | logsErrors =>
    obtain ⟨rfl, rfl⟩ := Prod.mk.inj (Option.some.inj h)
    exact ⟨{ logged := w.logs }, w.env, rfl, rfl⟩
  | _ => exact ⟨o, respondEnv_eq_some h⟩

@[simp] theorem env_note (w : Watch) (e : Env) (c : Call) (r : c.Answer) :
    (w.note e c r).env = e := by
  cases c with
  | use cc u => cases u <;> rfl
  | _ => rfl

/-- Without the record it is a run of the environment. -/
theorem Yields.env (h : w.Yields p a w') : w.env.Yields p a w'.env := by
  refine Prog.Yields.project (g := Watch.env) (fun w o c r w' h => ?_) h
  obtain ⟨o', e, he, rfl⟩ := respond_eq_some h
  exact ⟨o', by rw [env_note]; exact he⟩

/-- A program of silent calls leaves the record alone. -/
theorem sameRecord_of_silent (hp : p.Only Call.Silent) (h : w.Yields p a w') : w.SameRecord w' := by
  refine Prog.Only.keeps (I := w.SameRecord) (fun w₁ o c r w₂ hc hr hs => ?_) hp h (.refl w)
  obtain ⟨o', e, -, rfl⟩ := respond_eq_some hr
  rw [note_of_silent hc]
  exact hs.trans ⟨rfl, rfl, rfl⟩

/-- Taking a connection and giving it back changes only the pool. -/
theorem same_of_apart (hp : Apart p) (h : w.Yields p a w') :
    w.env.Same w'.env ∧ w.SameRecord w' :=
  ⟨Quiet.same (hp.mono fun _ => Call.Apart.quiet) h.env,
    sameRecord_of_silent (hp.mono fun _ => Call.Apart.silent) h⟩

end Programs

section Calls

variable {α : Type} {w w' : Watch} {c : Conn} {out : Option α}

/-- A call that only looks at something. -/
theorem ends_look {q : Call} {r : q.Answer} {f : q.Answer → Client α} (hne : q ≠ .fault)
    (hq : ∀ o, w.respond o q = some (r, w)) (h : w.Ends (Prog.call q f) out w') :
    w.Ends (f r) out w' := by
  obtain ⟨o, r', w₁, hr, h⟩ := (Prog.ends_call hne).mp h
  obtain ⟨rfl, rfl⟩ := Prod.mk.inj (Option.some.inj ((hq o).symm.trans hr))
  exact h

/-- A use of the context of a connection. -/
theorem ends_use {u : Use} {f : u.Answer → Client α}
    (h : w.Ends (read c >>= fun v => use v.cc u >>= f) out w') :
    ∃ o r e, w.env.use o (w.env.pool.conn c).cc u = (r, e) ∧
      (w.note e (.use (w.env.pool.conn c).cc u) r).Ends (f r) out w' := by
  have h := ends_look (q := .read c) (by simp) (fun _ => rfl) h
  obtain ⟨o, r, w₁, hr, h⟩ := (Prog.ends_call (by simp)).mp h
  obtain ⟨e, he, rfl⟩ := respondEnv_eq_some hr
  exact ⟨o, r, e, Option.some.inj he, h⟩

theorem ends_replyType {r : Reply} {f : ReplyType → Client α}
    (h : w.Ends (replyType r >>= f) out w') : w.Ends (f (w.env.reply r).type) out w' :=
  ends_look (q := .replyType r) (by simp) (fun _ => rfl) h

theorem ends_replyStr {r : Reply} {f : Option (List Byte) → Client α}
    (h : w.Ends (replyStr r >>= f) out w') : w.Ends (f (w.env.reply r).str) out w' :=
  ends_look (q := .replyStr r) (by simp) (fun _ => rfl) h

theorem ends_freeReply {r : Option Reply} {f : Unit → Client α}
    (h : w.Ends (freeReply r >>= f) out w') : w.Ends (f ()) out w' :=
  ends_look (q := .freeReply r) (by simp) (fun _ => rfl) h

theorem ends_logsErrors {f : Bool → Client α} (h : w.Ends (logsErrors >>= f) out w') :
    w.Ends (f w.logs) out w' :=
  ends_look (q := .logsErrors) (by simp) (fun _ => rfl) h

theorem ends_fault (h : w.Ends fault out w') : out = none ∧ w' = w :=
  Prog.ends_stop.mp h

theorem ends_getStrvalue {r : Reply} {v : Option (List Byte)} (key : CStr)
    {f : Option (List Byte) × ℕ → Client α} (hr : w.env.reply r = .ofOption v)
    (h : w.Ends (getStrvalue r >>= f) out w') :
    w.Ends (f ((found key v).value, (found key v).valueLen)) out w' := by
  rw [getStrvalue, bind_assoc] at h
  have h := ends_replyType h
  rw [hr] at h
  cases v with
  | none => exact h
  | some s =>
    rw [if_pos (by rfl), bind_assoc] at h
    have h := ends_replyStr h
    rw [hr] at h
    exact h

/-- A reply that is missing or an error ends a loop. -/
theorem ends_failed {reply : Option Reply} {b : α}
    (h : w.Ends (do logError reply; freeReply reply; return b) out w') :
    out = some b ∧ w.SameRecord w' := by
  obtain ⟨_, w₁, hlog, h⟩ := (silent_logError reply).ends_bind not_silent_fault h
  have h := ends_freeReply h
  obtain ⟨rfl, rfl⟩ := Prog.ends_ret.mp h
  exact ⟨rfl, sameRecord_of_silent (silent_logError reply) hlog⟩

/-- What a call of `redisClusterGetReply` gives: no reply when no command waits, and otherwise the
one to the first command or none. -/
theorem getReply_cases {o : Outcome} {got : GetReply} {e : Env}
    (hu : w.env.use o (w.env.pool.conn c).cc .getReply = (got, e)) :
    (w.env.queued c = [] ∧ (got = .ok none ∨ got = .failed false)) ∨
      (∃ cmd cmds err, w.env.queued c = cmd :: cmds ∧ got = .failed err) ∨
      ∃ cmd cmds r, w.env.queued c = cmd :: cmds ∧ got = .ok (some r) ∧
        ((e.reply r).type ≠ .error → Taken w.env c cmd r e) := by
  cases hcc : (w.env.pool.conn c).cc with
  | none =>
    rw [hcc] at hu
    obtain ⟨rfl, rfl⟩ := Prod.mk.inj hu
    exact Or.inl ⟨by rw [Env.queued, hcc]; rfl, Or.inr rfl⟩
  | some x =>
    have hqueued : w.env.queued c = w.env.pending x := by rw [Env.queued, hcc]; rfl
    cases hx : w.env.pending x with
    | nil =>
      rw [hcc, Env.use, Env.getReply, hx] at hu
      obtain ⟨rfl, rfl⟩ := Prod.mk.inj hu
      refine Or.inl ⟨hqueued.trans hx, ?_⟩
      split
      · exact Or.inl rfl
      · exact Or.inr rfl
    | cons cmd cmds =>
      -- the first command is sent, and the answer is that to it
      have hqueued := hqueued.trans hx
      obtain ⟨⟨reply, e₁⟩, hs⟩ : ∃ y, w.env.send o cmd = y := ⟨_, rfl⟩
      have hgot : got = reply.elim (.failed o.err) fun r => .ok (some r) := by
        simp only [hcc, Env.use, Env.getReply, hx, hs, Prod.mk.injEq] at hu
        exact hu.1.symm
      cases reply with
      | none => exact Or.inr (Or.inl ⟨cmd, cmds, o.err, hqueued, hgot⟩)
      | some r =>
        refine Or.inr (Or.inr ⟨cmd, cmds, r, hqueued, hgot, fun ht => ?_⟩)
        rw [hgot] at hu
        obtain ⟨cmd', htaken⟩ := use_getReply hu ht
        obtain ⟨rfl, -⟩ := List.cons.inj (hqueued.symm.trans htaken.queued)
        exact htaken

end Calls

end Watch

/-! ## Scripts -/

section Kept

variable {α β : Type}

/-- What is left of a list when the elements at some places fail. -/
def kept (fails : ℕ → Bool) : List α → List α
  | [] => []
  | a :: l =>
    if fails 0 then kept (fun i => fails (i + 1)) l else a :: kept (fun i => fails (i + 1)) l

theorem kept_sublist (fails : ℕ → Bool) (l : List α) : (kept fails l).Sublist l := by
  induction l generalizing fails with
  | nil => exact .slnil
  | cons a l ih =>
    rw [kept]
    split
    · exact (ih _).cons a
    · exact (ih _).cons_cons a

theorem kept_map (fails : ℕ → Bool) (f : α → β) (l : List α) :
    kept fails (l.map f) = (kept fails l).map f := by
  induction l generalizing fails with
  | nil => rfl
  | cons a l ih =>
    rw [List.map_cons, kept, kept]
    split
    · exact ih _
    · exact congrArg (f a :: ·) (ih _)

end Kept

/-- The results of a record are those that the failures give. -/
def Follows (fails : ℕ → Bool) (appends : List (Command × Bool)) : Prop :=
  ∀ i p, appends[i]? = some p → p.2 = !fails i

theorem follows_cons {fails : ℕ → Bool} {p : Command × Bool} {log : List (Command × Bool)} :
    Follows fails (p :: log) ↔ p.2 = !fails 0 ∧ Follows (fun i => fails (i + 1)) log := by
  constructor
  · exact fun h => ⟨h 0 p rfl, fun i q hq => h (i + 1) q hq⟩
  · rintro ⟨hp, h⟩ (_ | i) q hq
    · obtain rfl := Option.some.inj hq
      exact hp
    · exact h i q hq

theorem follows_snoc {fails : ℕ → Bool} {log : List (Command × Bool)} {p : Command × Bool}
    (h : Follows fails log) (hp : p.2 = !fails log.length) : Follows fails (log ++ [p]) := by
  intro i q hq
  rcases Nat.lt_trichotomy i log.length with hi | rfl | hi
  · rw [List.getElem?_append_left hi] at hq
    exact h i q hq
  · rw [List.getElem?_concat_length] at hq
    obtain rfl := Option.some.inj hq
    exact hp
  · rw [List.getElem?_eq_none (by simpa using hi)] at hq
    cases hq

theorem sent_cons (p : Command × Bool) (log : List (Command × Bool)) :
    sent (p :: log) = if p.2 then p.1 :: sent log else sent log := by
  unfold sent
  split_ifs with hp
  · rw [List.filter_cons_of_pos hp, List.map_cons]
  · rw [List.filter_cons_of_neg hp]

theorem sent_sublist (log : List (Command × Bool)) : (sent log).Sublist (log.map Prod.fst) :=
  List.filter_sublist.map _

/-- What is appended is what the failures leave. -/
theorem Follows.sent_eq {fails : ℕ → Bool} {log : List (Command × Bool)} (h : Follows fails log) :
    sent log = kept fails (log.map Prod.fst) := by
  -- the failures are shifted with the record
  induction log generalizing fails with
  | nil => rfl
  | cons p log ih =>
    obtain ⟨hp, hlog⟩ := follows_cons.mp h
    rw [List.map_cons, kept, sent_cons, hp, ih hlog]
    cases fails 0 <;> rfl

/-- The first receipts, as many as commands wait, are those that are got. -/
def Gives (got : ℕ → Got) (waiting : ℕ) (answers : List Receipt) : Prop :=
  ∀ i a, i < waiting → answers[i]? = some a → a.got = some (got i)

theorem gives_cons {got : ℕ → Got} {waiting : ℕ} {a : Receipt} {answers : List Receipt} :
    Gives got (waiting + 1) (a :: answers) ↔
      a.got = some (got 0) ∧ Gives (fun i => got (i + 1)) waiting answers := by
  constructor
  · intro h
    exact ⟨h 0 a (Nat.succ_pos _) rfl, fun i b hi hb => h (i + 1) b (Nat.succ_lt_succ hi) hb⟩
  · rintro ⟨ha, h⟩ (_ | i) b hi hb
    · obtain rfl := Option.some.inj hb
      exact ha
    · exact h i b (Nat.lt_of_succ_lt_succ hi) hb

/-- The number of good replies before another one, of those to the first `waiting` commands. -/
def leading (got : ℕ → Got) : ℕ → ℕ
  | 0 => 0
  | waiting + 1 => if got 0 = .good then leading (fun i => got (i + 1)) waiting + 1 else 0

theorem leading_le (got : ℕ → Got) (waiting : ℕ) : leading got waiting ≤ waiting := by
  induction waiting generalizing got with
  | zero => exact Nat.le_refl _
  | succ n ih =>
    rw [leading]
    split
    · exact Nat.succ_le_succ (ih _)
    · exact Nat.zero_le _

/-- What the library does in a run. -/
structure Script where
  /-- Whether the call of `redisClusterAppendCommand` with this number fails. -/
  fails : ℕ → Bool
  /-- What the call of `redisClusterGetReply` with this number comes to if a command waits. -/
  got : ℕ → Got
  /-- Whether errors are logged. -/
  logs : Bool

/-- The record is that of a run with the script. -/
structure Script.Followed (script : Script) (w : Watch) : Prop where
  logs : w.logs = script.logs
  appends : Follows script.fails w.appends
  answers : Gives script.got (sent w.appends).length w.answers

/-! ## The loops -/

/-- The receipts of a loop that asks for at most `n` replies while so many commands wait: it stops
at the first that is not good. -/
inductive Asked : ℕ → ℕ → List Receipt → Prop
  | done (waiting : ℕ) : Asked 0 waiting []
  /-- Without a command that waits there is no reply, and no error. -/
  | stop {n waiting : ℕ} {a : Receipt} (ha : ¬ a.Good) (hidle : waiting = 0 → a ≠ .failed true) :
      Asked (n + 1) waiting [a]
  | more {n waiting : ℕ} {a : Receipt} {answers : List Receipt} (ha : a.Good)
      (h : Asked n waiting answers) : Asked (n + 1) (waiting + 1) (a :: answers)

namespace Asked

variable {n waiting : ℕ} {answers : List Receipt} {got : ℕ → Got}

/-- Each good reply is that to a command. -/
theorem le_waiting (h : Asked n waiting answers) (hlen : answers.length = n)
    (hgood : ∀ a ∈ answers, a.Good) : n ≤ waiting := by
  induction h with
  | done => exact Nat.zero_le _
  | stop ha => exact absurd (hgood _ List.mem_cons_self) ha
  | more ha h ih =>
    exact Nat.succ_le_succ
      (ih (Nat.succ.inj hlen) fun a ha => hgood a (List.mem_cons_of_mem _ ha))

/-- The first reply that is not good is not one of the leading. -/
theorem leading_of_stop {a : Receipt} (ha : ¬ a.Good) (hgives : Gives got waiting [a]) :
    leading got waiting = 0 := by
  cases waiting with
  | zero => rfl
  | succ waiting =>
    rw [leading, if_neg]
    intro hgot
    rw [Receipt.good_iff, (gives_cons.mp hgives).1, hgot] at ha
    exact ha rfl

theorem leading_of_more {a : Receipt} (ha : a.Good)
    (hgives : Gives got (waiting + 1) (a :: answers)) :
    leading got (waiting + 1) = leading (fun i => got (i + 1)) waiting + 1 := by
  have hgot := (gives_cons.mp hgives).1
  rw [Receipt.good_iff.mp ha, Option.some.injEq] at hgot
  rw [leading, if_pos hgot.symm]

/-- One reply is asked for behind the leading good ones. -/
theorem length_eq (h : Asked n waiting answers) (hgives : Gives got waiting answers) :
    answers.length = min (leading got waiting + 1) n := by
  induction h generalizing got with
  | done => simp
  | stop ha =>
    rw [leading_of_stop ha hgives]
    simp
  | more ha h ih =>
    rw [leading_of_more ha hgives, List.length_cons, ih (gives_cons.mp hgives).2]
    omega

/-- All replies are good if there are so many leading ones. -/
theorem good_iff (h : Asked n waiting answers) (hgives : Gives got waiting answers) :
    answers.length = n ∧ (∀ a ∈ answers, a.Good) ↔ n ≤ leading got waiting := by
  induction h generalizing got with
  | done => simp
  | stop ha =>
    rw [leading_of_stop ha hgives]
    simp [ha]
  | more ha h ih =>
    rw [leading_of_more ha hgives, List.length_cons, List.forall_mem_cons, Nat.succ_inj,
      Nat.succ_le_succ_iff, ← ih (gives_cons.mp hgives).2]
    exact and_congr_right fun _ => and_iff_right ha

/-- A failure with an error comes behind the leading good replies. -/
theorem failed_mem_iff (h : Asked n waiting answers) (hgives : Gives got waiting answers) :
    .failed true ∈ answers ↔ leading got waiting < waiting ∧ leading got waiting < n ∧
      got (leading got waiting) = .failed true := by
  induction h generalizing got with
  | done => simp
  | @stop n waiting a ha hidle =>
    rw [leading_of_stop ha hgives, List.mem_singleton]
    cases waiting with
    | zero => exact iff_of_false (fun heq => hidle rfl heq.symm) (by simp)
    | succ waiting =>
      have hgot := (gives_cons.mp hgives).1
      constructor
      · rintro rfl
        exact ⟨Nat.succ_pos _, Nat.succ_pos _, (Option.some.inj hgot).symm⟩
      · rintro ⟨-, -, hfailed⟩
        rw [hfailed] at hgot
        cases a with
        | failed err =>
          obtain rfl : err = true := by simpa [Receipt.got] using hgot
          rfl
        | reply d =>
          simp only [Receipt.got, Option.some.injEq] at hgot
          split at hgot <;> cases hgot
        | missing => cases hgot
  | more ha h ih =>
    rw [leading_of_more ha hgives, List.mem_cons, ih (gives_cons.mp hgives).2,
      Nat.succ_lt_succ_iff, Nat.succ_lt_succ_iff]
    refine or_iff_right ?_
    rintro rfl
    obtain ⟨d, hd, -⟩ := ha
    cases hd

end Asked

namespace Watch

section Loops

variable {w w' : Watch} {c : Conn}

/-- The calls of `redisClusterGetReply` have put receipts on record, and nothing else. -/
structure Gets (w : Watch) (answers : List Receipt) (w' : Watch) : Prop where
  logs : w'.logs = w.logs
  appends : w'.appends = w.appends
  answers : w'.answers = w.answers ++ answers

theorem Gets.nil (w : Watch) : w.Gets [] w := ⟨rfl, rfl, by simp⟩

theorem Gets.cons {w₁ : Watch} {a : Receipt} {answers : List Receipt} (h : w.Gets [a] w₁)
    (h' : w₁.Gets answers w') : w.Gets (a :: answers) w' := by
  refine ⟨h'.logs.trans h.logs, h'.appends.trans h.appends, ?_⟩
  rw [h'.answers, h.answers, List.append_assoc]
  rfl

theorem Gets.sameRecord {w₁ : Watch} {answers : List Receipt} (h : w.Gets answers w₁)
    (h' : w₁.SameRecord w') : w.Gets answers w' :=
  ⟨h'.logs.trans h.logs, h'.appends.trans h.appends, h'.answers.trans h.answers⟩

/-- One reply that is not good, and the loop stops. -/
theorem asked_stop {a : Receipt} {n : ℕ} (ha : ¬ a.Good)
    (hidle : w.env.queued c = [] → a ≠ .failed true) : Asked (n + 1) (w.env.queued c).length [a] :=
  .stop ha fun hq => hidle (List.length_eq_zero_iff.mp hq)

/-- A round of `agc_redis_multireplies`: the loop goes on, or it stops, or the process dies with
the line that logs the failure. -/
theorem ends_nextReply {more : Option Bool} (h : w.Ends (nextReply c) more w') :
    ∃ a, w.Gets [a] w' ∧ (more = some true ↔ a.Good) ∧
      (more = none ↔ w.logs = true ∧ a = .failed true) ∧
      (a.Good → ∃ cmd, w.env.queued c = cmd :: w'.env.queued c) ∧
      (w.env.queued c = [] → a ≠ .failed true) := by
  obtain ⟨o, got, e, hu, h⟩ := ends_use h
  refine ⟨.ofGetReply e.reply got, ?_⟩
  rcases getReply_cases hu with ⟨hq, rfl | rfl⟩ | ⟨cmd, cmds, err, hq, rfl⟩ |
    ⟨cmd, cmds, r, hq, rfl, htaken⟩
  · -- no command waits, and there is no reply
    obtain ⟨rfl, rfl⟩ := Prog.ends_ret.mp h
    exact ⟨⟨rfl, rfl, rfl⟩, by simp [Receipt.Good, Receipt.ofGetReply],
      by simp [Receipt.ofGetReply], by simp [Receipt.Good, Receipt.ofGetReply],
      by simp [Receipt.ofGetReply]⟩
  · have h := ends_logsErrors h
    rw [if_neg (by simp)] at h
    obtain ⟨rfl, rfl⟩ := Prog.ends_ret.mp h
    exact ⟨⟨rfl, rfl, rfl⟩, by simp [Receipt.Good, Receipt.ofGetReply],
      by simp [Receipt.ofGetReply], by simp [Receipt.Good, Receipt.ofGetReply],
      by simp [Receipt.ofGetReply]⟩
  · -- the failure is logged, with the `err` of the context as a text
    have h := ends_logsErrors h
    replace h : Ends _ (if w.logs && err then fault else pure false) more w' := h
    have hlogs : (w.logs && err) = true ↔ w.logs = true ∧ Receipt.failed err = .failed true := by
      simp
    by_cases hdies : (w.logs && err) = true
    · rw [if_pos hdies] at h
      obtain ⟨rfl, rfl⟩ := ends_fault h
      exact ⟨⟨rfl, rfl, rfl⟩, by simp [Receipt.Good, Receipt.ofGetReply],
        iff_of_true rfl (hlogs.mp hdies), by simp [Receipt.Good, Receipt.ofGetReply],
        by simp [hq]⟩
    · rw [if_neg hdies] at h
      obtain ⟨rfl, rfl⟩ := Prog.ends_ret.mp h
      exact ⟨⟨rfl, rfl, rfl⟩, by simp [Receipt.Good, Receipt.ofGetReply],
        iff_of_false (by simp) (fun hfail => hdies (hlogs.mpr hfail)),
        by simp [Receipt.Good, Receipt.ofGetReply], by simp [hq]⟩
  · have h := ends_replyType h
    rw [env_note] at h
    have hreply : Receipt.ofGetReply e.reply (.ok (some r)) = .reply (e.reply r) := rfl
    by_cases ht : (e.reply r).type = .error
    · -- an error is freed and ends the loop
      rw [if_pos ht] at h
      have h := ends_freeReply (ends_replyStr h)
      obtain ⟨rfl, rfl⟩ := Prog.ends_ret.mp h
      exact ⟨⟨rfl, rfl, rfl⟩, by simp [Receipt.Good, hreply, ht], by simp [hreply],
        by simp [Receipt.Good, hreply, ht], by simp [hreply]⟩
    · -- a good reply is freed, and the loop goes on
      rw [if_neg ht] at h
      have h := ends_freeReply h
      obtain ⟨rfl, rfl⟩ := Prog.ends_ret.mp h
      refine ⟨⟨rfl, rfl, rfl⟩, by simp [Receipt.Good, hreply, ht], by simp [hreply], fun _ => ?_,
        by simp [hreply]⟩
      rw [env_note]
      exact ⟨cmd, (htaken ht).queued⟩

/-- The loop of `agc_redis_multireplies`. -/
theorem ends_multirepliesLoop {n : ℕ} {out : Option AgcStatus}
    (h : w.Ends (multirepliesLoop c n) out w') :
    ∃ answers, w.Gets answers w' ∧ Asked n (w.env.queued c).length answers ∧
      (out = some .success ↔ answers.length = n ∧ ∀ a ∈ answers, a.Good) ∧
      (out = none ↔ w.logs = true ∧ .failed true ∈ answers) := by
  -- each good reply takes one of the commands that wait
  induction n generalizing w with
  | zero =>
    obtain ⟨rfl, rfl⟩ := Prog.ends_ret.mp h
    exact ⟨[], .nil _, .done _, by simp, by simp⟩
  | succ n ih =>
    rcases Prog.Ends.of_bind h with ⟨rfl, hcomes⟩ | ⟨more, w₁, hnext, h⟩
    · replace hcomes : w.Ends (nextReply c) none w' := hcomes
      obtain ⟨a, hgets, hmore, hdies, -, hidle⟩ := ends_nextReply hcomes
      have hbad : ¬ a.Good := fun ha => by simpa using hmore.mpr ha
      obtain ⟨hlogs, rfl⟩ := hdies.mp rfl
      exact ⟨_, hgets, asked_stop hbad hidle, by simp [hbad], by simp [hlogs]⟩
    · replace hnext : w.Ends (nextReply c) (some more) w₁ := hnext
      obtain ⟨a, hgets, hmore, hdies, htaken, hidle⟩ := ends_nextReply hnext
      cases more with
      | false =>
        have hbad : ¬ a.Good := fun ha => by simpa using hmore.mpr ha
        have hdies : ¬ (w.logs = true ∧ a = .failed true) := fun h => by simpa using hdies.mpr h
        obtain ⟨rfl, rfl⟩ := Prog.ends_ret.mp h
        exact ⟨_, hgets, asked_stop hbad hidle, by simp [hbad],
          iff_of_false (by simp) fun h => hdies ⟨h.1, (List.mem_singleton.mp h.2).symm⟩⟩
      | true =>
        have hgood := hmore.mp rfl
        obtain ⟨answers, hgets', hasked, hsuccess, hnone⟩ := ih h
        obtain ⟨cmd, hcmd⟩ := htaken hgood
        have hne : Receipt.failed true ≠ a := by
          rintro rfl
          obtain ⟨d, hd, -⟩ := hgood
          cases hd
        refine ⟨_, hgets.cons hgets', ?_, ?_, ?_⟩
        · rw [hcmd, List.length_cons]
          exact .more hgood hasked
        · rw [hsuccess, List.length_cons, Nat.succ_inj, List.forall_mem_cons]
          exact and_congr_right fun _ => (and_iff_right hgood).symm
        · rw [hnone, hgets.logs, List.mem_cons, or_iff_right hne]

theorem ends_multireplies {n : ℕ} {out : Option AgcStatus}
    (h : w.Ends (agcRedisMultireplies c n) out w') :
    ∃ answers, w.Gets answers w' ∧ Asked n (w.env.queued c).length answers ∧
      (out = some .success ↔ answers.length = n ∧ ∀ a ∈ answers, a.Good) ∧
      (out = none ↔ w.logs = true ∧ .failed true ∈ answers) := by
  rcases Prog.Ends.of_bind h with ⟨rfl, hcomes⟩ | ⟨status, w₁, hloop, h⟩
  · replace hcomes : w.Ends (multirepliesLoop c n) none w' := hcomes
    exact ends_multirepliesLoop hcomes
  · obtain ⟨_, w₂, hreset, h⟩ := (silent_resetContext c).ends_bind not_silent_fault h
    obtain ⟨rfl, rfl⟩ := Prog.ends_ret.mp h
    replace hloop : w.Ends (multirepliesLoop c n) (some status) w₁ := hloop
    obtain ⟨answers, hgets, hrest⟩ := ends_multirepliesLoop hloop
    exact ⟨answers, hgets.sameRecord (sameRecord_of_silent (silent_resetContext c) hreset), hrest⟩

/-- The entries of `agc_cache_redis_get_pipeline`: the first keys with the values of the keys whose
commands wait, in the order of these, as far as the replies are good. -/
theorem ends_collectReplies {keys gets : List CStr} {out : Option (AgcStatus × List KeyValue)}
    (hq : w.env.queued c = gets.map getCommand) (h : w.Ends (collectReplies c keys) out w') :
    ∃ status entries answers, out = some (status, entries) ∧ w.Gets answers w' ∧
      Asked keys.length gets.length answers ∧
      (status = .success ↔ answers.length = keys.length ∧ ∀ a ∈ answers, a.Good) ∧
      ∀ got, Gives got gets.length answers → entries =
        List.zipWith (fun key get => found key (w.env.store.strings get.bytes)) keys
          (gets.take (leading got gets.length)) := by
  -- the keys and the commands that wait go down in step, so that a key is paired with the next
  -- command and not with its own
  induction keys generalizing w w' gets out with
  | nil =>
    obtain ⟨rfl, rfl⟩ := Prog.ends_ret.mp h
    exact ⟨_, _, [], rfl, .nil _, .done _, by simp, by simp⟩
  | cons key keys ih =>
    -- the loop ends without an entry for the key
    have hend : ∀ {reply : Option Reply} {w₁ : Watch} {a : Receipt}, w.Gets [a] w₁ → ¬ a.Good →
        (gets = [] → a ≠ .failed true) →
        w₁.Ends (do logError reply; freeReply reply; return (.generr, []) :
          Client (AgcStatus × List KeyValue)) out w' →
        ∃ status entries answers, out = some (status, entries) ∧ w.Gets answers w' ∧
          Asked (key :: keys).length gets.length answers ∧
          (status = .success ↔ answers.length = (key :: keys).length ∧ ∀ a ∈ answers, a.Good) ∧
          ∀ got, Gives got gets.length answers → entries =
            List.zipWith (fun key get => found key (w.env.store.strings get.bytes)) (key :: keys)
              (gets.take (leading got gets.length)) := by
      intro reply w₁ a hgets hbad hidle h
      obtain ⟨rfl, hsame⟩ := ends_failed h
      refine ⟨_, _, [a], rfl, hgets.sameRecord hsame, .stop hbad fun hlen => ?_, by simp [hbad],
        fun got hgives => ?_⟩
      · exact hidle (List.length_eq_zero_iff.mp hlen)
      · rw [Asked.leading_of_stop hbad hgives]
        simp
    obtain ⟨o, got, e, hu, h⟩ := ends_use h
    have hgets : w.Gets [.ofGetReply e.reply got]
        (w.note e (.use (w.env.pool.conn c).cc .getReply) got) := ⟨rfl, rfl, rfl⟩
    rcases getReply_cases hu with ⟨-, rfl | rfl⟩ | ⟨cmd, cmds, err, hq', rfl⟩ |
      ⟨cmd, cmds, r, hq', rfl, htaken⟩
    · exact hend hgets (by simp [Receipt.Good, Receipt.ofGetReply])
        (by simp [Receipt.ofGetReply]) h
    · exact hend hgets (by simp [Receipt.Good, Receipt.ofGetReply])
        (by simp [Receipt.ofGetReply]) h
    · refine hend hgets (by simp [Receipt.Good, Receipt.ofGetReply]) ?_ h
      rintro rfl
      cases hq.symm.trans hq'
    · have h := ends_replyType h
      rw [env_note] at h
      have hreply : Receipt.ofGetReply e.reply (.ok (some r)) = .reply (e.reply r) := rfl
      by_cases ht : (e.reply r).type = .error
      · rw [if_pos ht] at h
        exact hend hgets (by simp [Receipt.Good, hreply, ht]) (by simp [hreply]) h
      · rw [if_neg ht] at h
        have hgood : (Receipt.ofGetReply e.reply (.ok (some r))).Good := ⟨_, hreply, ht⟩
        -- the reply is that of the first key whose command waits
        cases gets with
        | nil => cases hq.symm.trans hq'
        | cons get gets =>
          obtain ⟨rfl, rfl⟩ := List.cons.inj (hq'.symm.trans hq)
          obtain ⟨hqueued, hdata, hstore⟩ := htaken ht
          replace hdata : e.reply r = .ofOption (w.env.store.strings get.bytes) := hdata
          replace hstore : e.store = w.env.store := hstore
          have hrest := (List.cons.inj (hqueued.symm.trans hq')).2
          have h := ends_freeReply (ends_getStrvalue key hdata h)
          rcases Prog.Ends.of_bind h with ⟨rfl, hcomes⟩ | ⟨⟨status, rest⟩, w₁, hkeys, h⟩
          · replace hcomes : Ends _ (collectReplies c keys) none w' := hcomes
            obtain ⟨_, _, _, hnone, -⟩ := ih hrest hcomes
            cases hnone
          · obtain ⟨rfl, rfl⟩ := Prog.ends_ret.mp h
            replace hkeys : Ends _ (collectReplies c keys) (some (status, rest)) _ := hkeys
            obtain ⟨_, _, answers, heq, hgets', hasked, hsuccess, hentries⟩ := ih hrest hkeys
            obtain ⟨rfl, rfl⟩ := Prod.mk.inj (Option.some.inj heq)
            refine ⟨_, _, _, rfl, hgets.cons hgets', .more hgood hasked, ?_, fun got hgives => ?_⟩
            · rw [hsuccess, List.length_cons, List.length_cons, Nat.succ_inj,
                List.forall_mem_cons]
              exact and_congr_right fun _ => (and_iff_right hgood).symm
            · rw [hentries _ (gives_cons.mp hgives).2, env_note, hstore, List.length_cons,
                Asked.leading_of_more hgood hgives, List.take_succ_cons, List.zipWith_cons_cons]
              rfl

end Loops

/-! ## The commands that are appended -/

section Append

variable {w w' w'' : Watch} {c : Conn} {log log' : List (Command × Bool)}

/-- The attempts to append commands have been put on record, and those that were appended wait. -/
structure Appended (w : Watch) (c : Conn) (w' : Watch) (log : List (Command × Bool)) : Prop where
  logs : w'.logs = w.logs
  appends : w'.appends = w.appends ++ log
  answers : w'.answers = w.answers
  queued : w'.env.queued c = w.env.queued c ++ sent log
  store : w'.env.store = w.env.store

theorem Appended.nil (w : Watch) (c : Conn) : w.Appended c w [] :=
  ⟨rfl, by simp, rfl, by simp [sent], rfl⟩

theorem Appended.trans (h : w.Appended c w' log) (h' : w'.Appended c w'' log') :
    w.Appended c w'' (log ++ log') := by
  refine ⟨h'.logs.trans h.logs, ?_, h'.answers.trans h.answers, ?_, h'.store.trans h.store⟩
  · rw [h'.appends, h.appends, List.append_assoc]
  · rw [h'.queued, h.queued, List.append_assoc]
    simp [sent]

/-- One command. -/
theorem ends_append {α : Type} {cmd : Command} {f : Bool → Client α} {out : Option α}
    (h : w.Ends (read c >>= fun v => use v.cc (.appendCommand cmd) >>= f) out w') :
    ∃ ok w₁, w.Appended c w₁ [(cmd, ok)] ∧ w₁.Ends (f ok) out w' := by
  obtain ⟨o, ok, e, hu, h⟩ := ends_use h
  refine ⟨ok, _, ?_, h⟩
  rcases use_appendCommand (e := w.env) (o := o) (c := c) cmd with ⟨hok, hq, hstore⟩ | heq
  · rw [hu] at hok hq hstore
    obtain rfl : ok = true := hok
    exact ⟨rfl, rfl, rfl, hq, hstore⟩
  · obtain ⟨rfl, rfl⟩ := Prod.mk.inj (hu.symm.trans heq)
    exact ⟨rfl, rfl, rfl, by simp [sent, note], rfl⟩

/-- All commands are tried, unless one of them cannot be formatted. -/
theorem ends_appendAll {cmds : List (Option Command)} {out : Option Unit}
    (h : w.Ends (appendAll c cmds) out w') :
    ∃ log, w.Appended c w' log ∧ ((out = none ∧ none ∈ cmds) ∨
      (out = some () ∧ cmds = (log.map Prod.fst).map some)) := by
  induction cmds generalizing w with
  | nil =>
    obtain ⟨rfl, rfl⟩ := Prog.ends_ret.mp h
    exact ⟨[], .nil _ c, Or.inr ⟨rfl, rfl⟩⟩
  | cons cmd cmds ih =>
    cases cmd with
    | none =>
      obtain ⟨rfl, rfl⟩ := ends_fault h
      exact ⟨[], .nil _ c, Or.inl ⟨rfl, List.mem_cons_self⟩⟩
    | some cmd =>
      obtain ⟨ok, w₁, happended, h⟩ := ends_append h
      obtain ⟨log, happended', hout⟩ := ih h
      refine ⟨_, happended.trans happended', ?_⟩
      rcases hout with ⟨rfl, hmem⟩ | ⟨rfl, rfl⟩
      · exact Or.inl ⟨rfl, List.mem_cons_of_mem _ hmem⟩
      · exact Or.inr ⟨rfl, rfl⟩

/-- The error of a context is looked at for the log. -/
theorem ends_errstr {n : ℕ} {out : Option ℕ}
    (h : w.Ends (do let _ ← use (← read c).cc .errstr; return n) out w') :
    out = some n ∧ w' = w := by
  obtain ⟨o, r, e, hu, h⟩ := ends_use h
  obtain ⟨-, rfl⟩ := Prod.mk.inj hu
  exact Prog.ends_ret.mp h

end Append

end Watch

/-! ## Runs with a script -/

/-- The pool of one connection, after the connection was taken. -/
def takenPool : State :=
  { (Env.ready {}).pool with queue := [], obtained := Function.update (fun _ => []) 0 [0] }

/-- A command that the server carries out, whatever it keeps. -/
def Fine (cmd : Command) : Prop := ∀ s : Store, (s.exec cmd).1.type ≠ .error

/-- A call that looks at a reply, or asks whether errors are logged, or ends the process. -/
def Call.Looks : Call → Prop
  | .replyType _ | .replyStr _ | .freeReply _ | .logsErrors | .fault => True
  | _ => False

theorem use_getReply_cons {e : Env} {o : Outcome} {x : Context} {cmd : Command}
    {cmds : List Command} (hx : e.pending x = cmd :: cmds) :
    e.use o (some x) .getReply = ((e.send o cmd).1.elim (.failed o.err) fun r => .ok (some r),
      { (e.send o cmd).2 with pending := Function.update e.pending x cmds }) := by
  simp only [Env.use, Env.getReply, hx]

/-- What is to come for the first of the commands that wait can come. -/
theorem exists_getReply {e : Env} {x : Context} (k : Got) (hfine : ∀ cmd ∈ e.pending x, Fine cmd) :
    ∃ o got e', e.use o (some x) .getReply = (got, e') ∧ e'.pending x = (e.pending x).tail ∧
      (e.pending x ≠ [] → (Receipt.ofGetReply e'.reply got).got = some k) := by
  cases hx : e.pending x with
  | nil =>
    refine ⟨{}, .ok none, e, ?_, hx, fun hne => absurd rfl hne⟩
    simp only [Env.use, Env.getReply, hx]
    rfl
  | cons cmd cmds =>
    -- a reply of the server, one that is an error, or none
    suffices hsend : ∃ o : Outcome, (Receipt.ofGetReply (e.send o cmd).2.reply
        ((e.send o cmd).1.elim (.failed o.err) fun r => .ok (some r))).got = some k by
      obtain ⟨o, hgot⟩ := hsend
      exact ⟨o, _, _, use_getReply_cons hx, Function.update_self x cmds e.pending, fun _ => hgot⟩
    have hcmd : (e.store.exec cmd).1.type ≠ .error :=
      hfine cmd (by rw [hx]; exact List.mem_cons_self) e.store
    cases k with
    | good => exact ⟨{ reply := some 0 }, by simp [Env.send, Receipt.ofGetReply, Receipt.got, hcmd]⟩
    | error =>
      exact ⟨{ reply := some 0, type := .error },
        by simp [Env.send, Receipt.ofGetReply, Receipt.got, Data.type]⟩
    | failed err => exact ⟨{ err }, rfl⟩

namespace Watch

/-- The commands that wait are those that were appended and not answered, in a run with the
script. -/
structure Ready (script : Script) (w : Watch) : Prop where
  pool : w.env.pool = takenPool
  followed : script.Followed w
  pending : w.env.pending 0 = (sent w.appends).drop w.answers.length
  fine : ∀ cmd ∈ w.env.pending 0, Fine cmd

/-- No reply has been asked for. -/
structure Filling (script : Script) (w : Watch) : Prop extends Ready script w where
  unanswered : w.answers = []

/-- The context has been reset. -/
structure Drained (script : Script) (w : Watch) : Prop where
  pool : w.env.pool = takenPool
  followed : script.Followed w

abbrev CanEnd {α : Type} (I J : Watch → Prop) (p : Client α) : Prop :=
  p.CanEnd respond .fault I J

section Scripted

variable {α : Type} {script : Script} {w w' : Watch} {I J : Watch → Prop}

theorem Ready.drained (h : w.Ready script) : w.Drained script := ⟨h.pool, h.followed⟩

/-- The library does something with the context of the connection that was taken. -/
theorem ends_use_of {u : Use} {f : u.Answer → Client α} {out : Option α}
    (hpool : w.env.pool = takenPool) (o : Outcome)
    (h : (w.note (w.env.use o (some 0) u).2 (.use (some 0) u)
      (w.env.use o (some 0) u).1).Ends (f (w.env.use o (some 0) u).1) out w') :
    w.Ends (read 0 >>= fun v => use v.cc u >>= f) out w' := by
  have hcc : (w.env.pool.conn 0).cc = some 0 := by rw [hpool]; rfl
  refine (Prog.ends_call (by simp)).mpr ⟨{}, _, w, rfl, ?_⟩
  refine (Prog.ends_call (by simp)).mpr ⟨o, _, _, rfl, ?_⟩
  rw [hcc]
  exact h

/-- What only looks can end, and changes nothing. -/
theorem canEnd_of_looks {p : Client α} (hp : p.Only Call.Looks) : CanEnd I I p := by
  refine hp.canEnd fun w c hc hne hw => ?_
  cases c <;> first | exact absurd rfl hne | exact hc.elim | exact ⟨{}, _, w, rfl, hw⟩

/-- A command is appended or not, as the script says. -/
theorem canEnd_append {cmd : Command} {f : Bool → Client α} (hcmd : Fine cmd)
    (hf : ∀ ok, CanEnd (Filling script) J (f ok)) :
    CanEnd (Filling script) J
      (read 0 >>= fun v => use v.cc (.appendCommand cmd) >>= f) := by
  intro w hw
  have hgives : ∀ waiting, Gives script.got waiting w.answers := by
    intro waiting i a _ ha
    rw [hw.unanswered] at ha
    cases ha
  have hpending : w.env.pending 0 = sent w.appends := by
    rw [hw.pending, hw.unanswered]
    rfl
  -- the answer of the library that the script asks for
  cases hfails : script.fails w.appends.length with
  | true =>
    have hu : w.env.use { ok := false } (some 0) (.appendCommand cmd) = (false, w.env) := rfl
    have hnote : Filling script { w with appends := w.appends ++ [(cmd, false)] } := by
      refine ⟨⟨hw.pool, ⟨hw.followed.logs, ?_, hgives _⟩, ?_, hw.fine⟩, hw.unanswered⟩
      · exact follows_snoc hw.followed.appends (by simp [hfails])
      · rw [hpending, hw.unanswered]
        simp [sent]
    obtain ⟨out, w', h, hw'⟩ := hf false _ hnote
    exact ⟨out, w', ends_use_of hw.pool { ok := false } h, hw'⟩
  | false =>
    obtain ⟨e, he, hpool, hwaits⟩ : ∃ e, w.env.use {} (some 0) (.appendCommand cmd) = (true, e) ∧
        e.pool = takenPool ∧ e.pending 0 = w.env.pending 0 ++ [cmd] :=
      ⟨_, rfl, hw.pool, Function.update_self 0 _ w.env.pending⟩
    have hnote : Filling script { w with env := e, appends := w.appends ++ [(cmd, true)] } := by
      refine ⟨⟨hpool, ⟨hw.followed.logs, ?_, hgives _⟩, ?_, fun cmd' hmem => ?_⟩, hw.unanswered⟩
      · exact follows_snoc hw.followed.appends (by simp [hfails])
      · rw [hwaits, hpending, hw.unanswered]
        simp [sent]
      · rw [hwaits] at hmem
        rcases List.mem_append.mp hmem with hmem | hmem
        · exact hw.fine cmd' hmem
        · obtain rfl := List.mem_singleton.mp hmem
          exact hcmd
    obtain ⟨out, w', h, hw'⟩ := hf true _ hnote
    exact ⟨out, w', ends_use_of hw.pool {} (by rw [he]; exact h), hw'⟩

theorem canEnd_appendAll {cmds : List (Option Command)}
    (hcmds : ∀ cmd, some cmd ∈ cmds → Fine cmd) :
    CanEnd (Filling script) (Filling script) (appendAll 0 cmds) := by
  induction cmds with
  | nil => exact Prog.canEnd_ret fun _ hw => hw
  | cons cmd cmds ih =>
    cases cmd with
    | none => exact Prog.canEnd_stop fun _ hw => hw
    | some cmd =>
      have hrest := ih fun cmd hmem => hcmds cmd (List.mem_cons_of_mem _ hmem)
      exact canEnd_append (hcmds cmd List.mem_cons_self) fun _ => hrest

theorem canEnd_errstr (n : ℕ) : CanEnd (Filling script) (Filling script)
    (do let _ ← use (← read 0).cc .errstr; return n) :=
  fun w hw => ⟨some n, w, ends_use_of hw.pool {} (Prog.ends_ret.mpr ⟨rfl, rfl⟩), hw⟩

/-- A call of `redisClusterGetReply` gives what the script says, or no reply if no command
waits. -/
theorem canEnd_getReply {f : GetReply → Client α} (hf : ∀ got, CanEnd (Ready script) J (f got)) :
    CanEnd (Ready script) J (read 0 >>= fun v => use v.cc .getReply >>= f) := by
  intro w hw
  obtain ⟨o, got, e, hu, hpending, hgot⟩ :=
    exists_getReply (script.got w.answers.length) hw.fine
  have hpool : e.pool = takenPool := by
    have h := pool_use (e := w.env) (o := o) (some 0) .getReply
    rw [hu] at h
    exact h.trans hw.pool
  have hnote : Ready script (w.note e (.use (some 0) .getReply) got) := by
    refine ⟨hpool, ⟨hw.followed.logs, hw.followed.appends, fun i a hi ha => ?_⟩, ?_,
      fun cmd hcmd => ?_⟩
    · -- an earlier receipt, or the one that has come
      rcases Nat.lt_or_ge i w.answers.length with hlt | hge
      · exact hw.followed.answers i a hi ((List.getElem?_append_left hlt).symm.trans ha)
      · have hlt := (List.getElem?_eq_some_iff.mp ha).1
        obtain rfl : i = w.answers.length := by
          simp only [note, List.length_append, List.length_singleton] at hlt
          omega
        obtain rfl := Option.some.inj (List.getElem?_concat_length.symm.trans ha)
        refine hgot fun hnil => ?_
        rw [hw.pending, List.drop_eq_nil_iff] at hnil
        exact absurd hi (Nat.not_lt.mpr hnil)
    · rw [env_note, hpending, hw.pending, List.tail_drop]
      simp [note]
    · rw [env_note, hpending] at hcmd
      exact hw.fine cmd (List.mem_of_mem_tail hcmd)
  obtain ⟨out, w', h, hw'⟩ := hf got _ hnote
  exact ⟨out, w', ends_use_of hw.pool o (by rw [hu]; exact h), hw'⟩

theorem canEnd_nextReply : CanEnd (Ready script) (Ready script) (nextReply 0) := by
  refine canEnd_getReply fun got => canEnd_of_looks ?_
  rcases got with (_ | r) | err
  · exact trivial
  · refine ⟨trivial, fun type => ?_⟩
    change Prog.Only Call.Looks (if type = .error then _ else _)
    split
    · exact ⟨trivial, fun _ => ⟨trivial, fun _ => trivial⟩⟩
    · exact ⟨trivial, fun _ => trivial⟩
  · refine ⟨trivial, fun logs => ?_⟩
    change Prog.Only Call.Looks (if logs && err then _ else _)
    split
    · exact ⟨trivial, nofun⟩
    · exact trivial

theorem canEnd_multirepliesLoop (n : ℕ) :
    CanEnd (Ready script) (Ready script) (multirepliesLoop 0 n) := by
  induction n with
  | zero => exact Prog.canEnd_ret fun _ hw => hw
  | succ n ih =>
    refine canEnd_nextReply.bind (fun more => ?_) fun _ hw => hw
    cases more with
    | true => exact ih
    | false => exact Prog.canEnd_ret fun _ hw => hw

theorem looks_getStrvalue (r : Reply) : (getStrvalue r).Only Call.Looks := by
  refine ⟨trivial, fun type => ?_⟩
  change Prog.Only Call.Looks (if type = .string then _ else _)
  split
  · exact ⟨trivial, fun _ => trivial⟩
  · exact trivial

theorem looks_logError (reply : Option Reply) : (logError reply).Only Call.Looks := by
  cases reply with
  | none => exact trivial
  | some r =>
    refine ⟨trivial, fun type => ?_⟩
    change Prog.Only Call.Looks (if type = .error then _ else _)
    split
    · exact ⟨trivial, fun _ => trivial⟩
    · exact trivial

theorem canEnd_collectReplies (keys : List CStr) :
    CanEnd (Ready script) (Ready script) (collectReplies 0 keys) := by
  induction keys with
  | nil => exact Prog.canEnd_ret fun _ hw => hw
  | cons key keys ih =>
    have hfail : ∀ reply : Option Reply, CanEnd (Ready script) (Ready script)
        (do logError reply; freeReply reply; return (.generr, []) :
          Client (AgcStatus × List KeyValue)) := fun reply =>
      canEnd_of_looks ((looks_logError reply).bind fun _ => ⟨trivial, fun _ => trivial⟩)
    refine canEnd_getReply fun got => ?_
    rcases got with (_ | r) | err
    · exact hfail none
    · refine Prog.CanEnd.bind (p := replyType r) (canEnd_of_looks ⟨trivial, fun _ => trivial⟩)
        (fun type => ?_) fun _ hw => hw
      split
      · exact hfail (some r)
      · refine Prog.CanEnd.bind (canEnd_of_looks (looks_getStrvalue r)) (fun _ => ?_)
          fun _ hw => hw
        refine Prog.CanEnd.bind (p := freeReply (some r))
          (canEnd_of_looks ⟨trivial, fun _ => trivial⟩) (fun _ => ?_) fun _ hw => hw
        exact ih.bind (fun _ => Prog.canEnd_ret fun _ hw => hw) fun _ hw => hw
    · exact hfail none

theorem canEnd_resetContext : CanEnd (Ready script) (Drained script) (resetContext 0) := by
  rintro ⟨⟨pool, store, pending, reply⟩, logs, appends, answers⟩ ⟨rfl, hfollowed, -, -⟩
  exact ⟨some (), _, ⟨[{}, {}], rfl⟩, rfl, hfollowed.logs, hfollowed.appends, hfollowed.answers⟩

theorem canEnd_freeConnection :
    CanEnd (Drained script) script.Followed (freeConnection 0) := by
  rintro ⟨⟨pool, store, pending, reply⟩, logs, appends, answers⟩ ⟨rfl, hfollowed⟩
  exact ⟨some (), _, ⟨[{}, {}, {}, {}], rfl⟩, hfollowed.logs, hfollowed.appends,
    hfollowed.answers⟩

end Scripted

end Watch

end Redis
