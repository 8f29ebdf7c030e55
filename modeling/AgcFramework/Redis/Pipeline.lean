import AgcFramework.Redis.Watch

/-!
# Pipelines of which commands are not appended

Four operations append commands in one loop and ask for the replies in another one. The library may
refuse to append a command. The second loop does not know of that: it counts on one reply for each
command, and `agc_cache_redis_get_pipeline` takes the replies for those of its keys in order. The
loop that counts the replies stops at the first that is not good.

## Main definitions

* `Pipeline`: the four operations, with the commands they are to append
* `Pipeline.Aligned`: what a pipeline is to do in every run with a script
* `Pipeline.Fits`: the scripts with which it does so

## Main results

* `Pipeline.counted_of_run`, `Pipeline.paired_of_run`: what a run has done
* `Pipeline.exists_run`: with every script there is a run
* `Pipeline.aligned_iff`: the scripts with which a pipeline stays aligned
-/

namespace Redis

/-- No value of the list is NULL. -/
def Formatted (keyvalues : List KeyValue) : Prop := ∀ kv ∈ keyvalues, kv.value.isSome

/-- The four operations that append commands. -/
inductive Pipeline
  | set (key : CStr) (value : List Byte) (size expires : ℤ)
  | setPipeline (keyvalues : List KeyValue)
  | getPipeline (keys : List CStr)
  | deletePipeline (keys : List CStr)

namespace Pipeline

def op : Pipeline → Op
  | set key value size expires => .set key value size expires
  | setPipeline keyvalues => .setPipeline keyvalues
  | getPipeline keys => .getPipeline keys true
  | deletePipeline keys => .deletePipeline keys

/-- The commands that the operation is to append. -/
def commands : Pipeline → List Command
  -- `EXPIRE` goes with the `SET` only if the key is to expire
  | set key value _ expires => words "SET" [key.bytes, strndup value] ::
      if expires > 0 then [words "EXPIRE" [key.bytes, Decimal.decimalInt expires]] else []
  | setPipeline keyvalues => keyvalues.filterMap setCommand
  | getPipeline keys => keys.map getCommand
  | deletePipeline keys => keys.map fun key => words "DEL" [key.bytes]

/-- Every command can be formatted. -/
def Formatted : Pipeline → Prop
  | setPipeline keyvalues => Redis.Formatted keyvalues
  | _ => True

/-- The operation counts the replies that it asks for. -/
def Counts : Pipeline → Prop
  | getPipeline _ => False
  | _ => True

/-- The commands that are appended. No `EXPIRE` is tried after a `SET` that has failed. -/
def appended (p : Pipeline) (fails : ℕ → Bool) : List Command :=
  match p with
  | set .. => if fails 0 then [] else kept fails p.commands
  | p => kept fails p.commands

/-! ## Alignment -/

/-- What the operation, started with the store `s`, is to have done with the connection it got. -/
structure AlignedRun (p : Pipeline) (s : Store) (conn : Option Conn) (out : Option Result)
    (w : Watch) : Prop where
  /-- The operation returns. -/
  returns : out.isSome
  /-- Each entry has the value of its own key. -/
  own : ∀ r entries, out = some r → r.2 = .list entries →
    ∀ kv ∈ entries, kv = found kv.key (s.strings kv.key.bytes)
  /-- One reply is asked for per command that was appended. -/
  asks : p.Counts → w.answers.length = (sent w.appends).length
  /-- With a connection, the operation succeeds exactly if every command was appended and answered
  without an error. -/
  success : conn.isSome → ∀ r, out = some r → (r.1 = .success ↔ sent w.appends = p.commands ∧
    w.answers.length = p.commands.length ∧ ∀ a ∈ w.answers, a.Good)
  /-- Without one it does nothing and fails. -/
  early : conn = none → out = some (.generr, .untouched) ∧ w.appends = [] ∧ w.answers = []

/-- In every run with the script the operation does what it is to do. -/
def Aligned (p : Pipeline) (script : Script) : Prop :=
  ∀ (e : Env) conn out w, e.Reached →
    p.op.Run Watch.respond { env := e, logs := script.logs } conn out w →
    script.Followed w → p.AlignedRun e.store conn out w

/-- The scripts with which the operation stays aligned. `agc_cache_redis_get_pipeline`: the keys
whose commands were appended are the first ones, as far as the replies are good. The others: every
command can be formatted, and either all of them are appended and answered well, or of the commands
that are appended only the last one is not answered well, with no failure whose log line ends the
process. -/
def Fits (p : Pipeline) (script : Script) : Prop :=
  match p with
  | getPipeline keys =>
    (kept script.fails keys).take (leading script.got (kept script.fails keys).length) <+: keys
  | p => p.Formatted ∧
      (leading script.got (p.appended script.fails).length = p.commands.length ∨
        (leading script.got (p.appended script.fails).length + 1 =
            (p.appended script.fails).length ∧
          ¬ (script.got (leading script.got (p.appended script.fails).length) = .failed true ∧
            script.logs = true)))

/-! ## What a run has done -/

/-- The attempts of an operation that asks for at most `n` replies then. -/
structure Attempts (p : Pipeline) (n : ℕ) (log : List (Command × Bool)) : Prop where
  sublist : (sent log).Sublist p.commands
  sent_le : (sent log).length ≤ n
  asks : n = (sent log).length ↔ sent log = p.commands
  appended : ∀ fails, Follows fails log → sent log = p.appended fails

section Runs

variable {p : Pipeline} {w w' : Watch} {c : Conn} {out : Option Result} {n : ℕ} {script : Script}

theorem attempts_all {log : List (Command × Bool)} (hlog : log.map Prod.fst = p.commands)
    (happended : ∀ fails, Follows fails log → p.appended fails = kept fails p.commands) :
    p.Attempts p.commands.length log := by
  have hsub : (sent log).Sublist p.commands := by
    rw [← hlog]
    exact sent_sublist log
  refine ⟨hsub, hsub.length_le, ?_, fun fails h => by rw [h.sent_eq, hlog, happended fails h]⟩
  constructor
  · exact fun h => hsub.eq_of_length h.symm
  · exact fun h => (congrArg List.length h).symm

/-- `agc_cache_redis_set` asks for a reply to the command that it could not append. -/
theorem ends_appendSet (size : ℤ) {key : CStr} {value : List Byte} {expires : ℤ} {out : Option ℕ}
    (h : w.Ends (appendSet c key value expires) out w') :
    ∃ n log, out = some n ∧ w.Appended c w' log ∧ (set key value size expires).Attempts n log := by
  obtain ⟨ok, w₁, happended, h⟩ := Watch.ends_append h
  cases ok with
  -- the `SET` could not be appended, and still one reply is asked for
  | false =>
    obtain ⟨rfl, rfl⟩ := Watch.ends_errstr h
    refine ⟨1, _, rfl, happended, by simp [sent], by simp [sent], by simp [sent, commands], ?_⟩
    intro fails hfollows
    have hfail : fails 0 = true := by simpa using (follows_cons.mp hfollows).1
    simp [sent, Pipeline.appended, hfail]
  | true =>
    have hkept : ∀ {log : List (Command × Bool)} {fails : ℕ → Bool},
        Follows fails ([(words "SET" [key.bytes, strndup value], true)] ++ log) →
        (set key value size expires).appended fails =
          kept fails (set key value size expires).commands := by
      intro log fails hfollows
      have hok : fails 0 = false := by simpa using (follows_cons.mp hfollows).1
      rw [Pipeline.appended, hok]
      rfl
    by_cases hexp : expires > 0
    · -- two replies are asked for, also if the `EXPIRE` could not be appended
      have hcommands : (set key value size expires).commands =
          [words "SET" [key.bytes, strndup value],
            words "EXPIRE" [key.bytes, Decimal.decimalInt expires]] := by
        rw [commands, if_pos hexp]
      rw [if_pos rfl, if_pos hexp] at h
      obtain ⟨ok, w₂, happended', h⟩ := Watch.ends_append h
      have hn : out = some 2 ∧ w' = w₂ := by
        cases ok with
        | false => exact Watch.ends_errstr h
        | true => exact Prog.ends_ret.mp h
      obtain ⟨rfl, rfl⟩ := hn
      have hattempts : (set key value size expires).Attempts _
          ([(words "SET" [key.bytes, strndup value], true)] ++
            [(words "EXPIRE" [key.bytes, Decimal.decimalInt expires], ok)]) :=
        attempts_all hcommands.symm fun fails hfollows => hkept hfollows
      rw [hcommands] at hattempts
      exact ⟨2, _, rfl, happended.trans happended', hattempts⟩
    · have hcommands : (set key value size expires).commands =
          [words "SET" [key.bytes, strndup value]] := by
        rw [commands, if_neg hexp]
      rw [if_pos rfl, if_neg hexp] at h
      obtain ⟨rfl, rfl⟩ := Prog.ends_ret.mp h
      have hattempts : (set key value size expires).Attempts _
          ([(words "SET" [key.bytes, strndup value], true)] ++ []) :=
        attempts_all hcommands.symm fun fails hfollows => hkept hfollows
      rw [hcommands] at hattempts
      exact ⟨1, _, rfl, happended, hattempts⟩

/-- What an operation that counts its replies has done with a connection: `n` is the number of
replies that it asks for at most. -/
structure Counted (p : Pipeline) (logs : Bool) (n : ℕ) (out : Option Result) (w : Watch) :
    Prop where
  attempts : p.Attempts n w.appends
  asked : Asked n (sent w.appends).length w.answers
  dies : out = none ↔ logs = true ∧ .failed true ∈ w.answers
  output : ∀ r, out = some r → r.2 = .untouched
  success : ∀ r, out = some r →
    (r.1 = .success ↔ w.answers.length = n ∧ ∀ a ∈ w.answers, a.Good)

/-- A record that starts empty, with no command left from an earlier operation. -/
structure Fresh (w : Watch) (c : Conn) : Prop where
  appends : w.appends = []
  answers : w.answers = []
  queued : w.env.queued c = []

theorem counted_of_appended {w₁ : Watch} {log : List (Command × Bool)} (hw : Fresh w c)
    (happended : w.Appended c w₁ log) (hattempts : p.Attempts n log)
    (h : w₁.Ends (do
      let status ← agcRedisMultireplies c n
      freeConnection c
      return (status, .untouched)) out w') : p.Counted w.logs n out w' := by
  have hqueued : w₁.env.queued c = sent log := by
    rw [happended.queued, hw.queued, List.nil_append]
  have hrecord : ∀ {w₂ : Watch} {answers : List Receipt}, w₁.Gets answers w₂ →
      w₂.appends = log ∧ w₂.answers = answers := by
    intro w₂ answers hgets
    constructor
    · rw [hgets.appends, happended.appends, hw.appends, List.nil_append]
    · rw [hgets.answers, happended.answers, hw.answers, List.nil_append]
  rcases Prog.Ends.of_bind h with ⟨rfl, hcomes⟩ | ⟨status, w₂, hmulti, h⟩
  · replace hcomes : w₁.Ends (agcRedisMultireplies c n) none w' := hcomes
    obtain ⟨answers, hgets, hasked, -, hdies⟩ := Watch.ends_multireplies hcomes
    obtain ⟨rfl, rfl⟩ := hrecord hgets
    rw [hqueued] at hasked
    rw [happended.logs] at hdies
    exact ⟨hattempts, hasked, iff_of_true rfl (hdies.mp rfl), nofun, nofun⟩
  · replace hmulti : w₁.Ends (agcRedisMultireplies c n) (some status) w₂ := hmulti
    obtain ⟨answers, hgets, hasked, hsuccess, hdies⟩ := Watch.ends_multireplies hmulti
    -- giving the connection back puts nothing on record
    obtain ⟨_, w₃, hfree, h⟩ := (apart_freeConnection c).ends_bind not_apart_fault h
    obtain ⟨rfl, rfl⟩ := Prog.ends_ret.mp h
    have hgets := hgets.sameRecord (Watch.same_of_apart (apart_freeConnection c) hfree).2
    obtain ⟨rfl, rfl⟩ := hrecord hgets
    rw [hqueued] at hasked
    rw [happended.logs] at hdies
    refine ⟨hattempts, hasked, ?_, fun r hr => ?_, fun r hr => ?_⟩
    · rw [← hdies]
      simp
    · rw [← Option.some.inj hr]
    · rw [← Option.some.inj hr, ← hsuccess, Option.some.injEq]

/-- The pipelines that only differ in their commands. -/
theorem counted_of_pipelineOp {cmds : List (Option Command)} (hw : Fresh w c)
    (hcmds : cmds = p.commands.map some)
    (happended : ∀ fails, p.appended fails = kept fails p.commands)
    (h : w.Ends (do
      appendAll c cmds
      let status ← agcRedisMultireplies c cmds.length
      freeConnection c
      return (status, .untouched)) out w') : p.Counted w.logs p.commands.length out w' := by
  rcases Prog.Ends.of_bind h with ⟨rfl, hcomes⟩ | ⟨_, w₁, happend, h⟩
  · replace hcomes : w.Ends (appendAll c cmds) none w' := hcomes
    obtain ⟨log, -, ⟨-, hmem⟩ | ⟨hout, -⟩⟩ := Watch.ends_appendAll hcomes
    · rw [hcmds] at hmem
      simp at hmem
    · cases hout
  · replace happend : w.Ends (appendAll c cmds) (some ()) w₁ := happend
    obtain ⟨log, hlog, ⟨hout, -⟩ | ⟨-, hall⟩⟩ := Watch.ends_appendAll happend
    · cases hout
    · have hfst : log.map Prod.fst = p.commands :=
        List.map_injective_iff.mpr (Option.some_injective _) (hall.symm.trans hcmds)
      rw [hcmds, List.length_map] at h
      exact counted_of_appended hw hlog (attempts_all hfst fun fails _ => happended fails) h

theorem formatted_of_notMem {keyvalues : List KeyValue} (h : none ∉ keyvalues.map setCommand) :
    Redis.Formatted keyvalues := by
  intro kv hkv
  rw [Option.isSome_iff_ne_none]
  intro hnone
  exact h (List.mem_map.mpr ⟨kv, hkv, Option.map_eq_none_iff.mpr hnone⟩)

theorem commands_of_formatted {keyvalues : List KeyValue} (h : (setPipeline keyvalues).Formatted) :
    keyvalues.map setCommand = (setPipeline keyvalues).commands.map some := by
  induction keyvalues with
  | nil => rfl
  | cons kv keyvalues ih =>
    obtain ⟨hkv, hrest⟩ := List.forall_mem_cons.mp h
    obtain ⟨value, hvalue⟩ := Option.isSome_iff_exists.mp hkv
    have hcommand : setCommand kv = some (words "SET" [kv.key.bytes, strndup value]) := by
      rw [setCommand, hvalue]
      rfl
    have hcommands : (setPipeline (kv :: keyvalues)).commands =
        words "SET" [kv.key.bytes, strndup value] :: (setPipeline keyvalues).commands :=
      List.filterMap_cons_some hcommand
    rw [List.map_cons, ih hrest, hcommand, hcommands]
    rfl

/-- Taking a connection leaves no trace. -/
theorem fresh_of_getConnection {e : Env} {logs : Bool} {conn : Option Conn} {w₁ : Watch}
    (he : e.Idle) (h : Watch.Yields { env := e, logs } getConnection conn w₁) (c : Conn) :
    Fresh w₁ c ∧ w₁.logs = logs ∧ w₁.env.store = e.store := by
  obtain ⟨henv, hrecord⟩ := Watch.same_of_apart apart_getConnection h
  exact ⟨⟨hrecord.appends, hrecord.answers, (he.same henv).queued c⟩, hrecord.logs, henv.store⟩

/-- An operation that refuses its arguments or gets no connection does nothing. -/
theorem early_of_run {op : Op} {e : Env} {logs : Bool} (he : e.Idle)
    (h : op.Run Watch.respond { env := e, logs } none out w) :
    out = some (.generr, .untouched) ∧ w.appends = [] ∧ w.answers = [] := by
  rcases op.asks with hbody | ⟨work, hbody⟩
  · obtain ⟨-, rfl, rfl⟩ := h.of_refused hbody
    exact ⟨rfl, rfl, rfl⟩
  · rcases h.of_withConnection hbody with ⟨-, rfl, hconn⟩ | ⟨c, _, hnone, -⟩
    · obtain ⟨hfresh, -⟩ := fresh_of_getConnection he hconn 0
      exact ⟨rfl, hfresh.appends, hfresh.answers⟩
    · cases hnone

/-- With a connection the operation works. -/
theorem work_of_run {op : Op} {e : Env} {logs : Bool} {work : Conn → Client Result} (he : e.Idle)
    (hbody : op.body = withConnection work)
    (h : op.Run Watch.respond { env := e, logs } (some c) out w') :
    ∃ w₁, Fresh w₁ c ∧ w₁.logs = logs ∧ w₁.env.store = e.store ∧ w₁.Ends (work c) out w' := by
  rcases h.of_withConnection hbody with ⟨hnone, -⟩ | ⟨c', w₁, hsome, hconn, hwork⟩
  · cases hnone
  · obtain rfl := Option.some.inj hsome
    obtain ⟨hfresh, hlogs, hstore⟩ := fresh_of_getConnection he hconn c
    exact ⟨w₁, hfresh, hlogs, hstore, hwork⟩

theorem counted_of_run {e : Env} {logs : Bool} (hp : p.Counts) (hform : p.Formatted) (he : e.Idle)
    (h : p.op.Run Watch.respond { env := e, logs } (some c) out w) :
    ∃ n, p.Counted logs n out w := by
  cases p with
  | set key value size expires =>
    obtain ⟨w₁, hfresh, rfl, -, hwork⟩ := work_of_run he rfl h
    rcases Prog.Ends.of_bind hwork with ⟨rfl, hcomes⟩ | ⟨n, w₂, happend, hwork⟩
    · replace hcomes : w₁.Ends (appendSet c key value expires) none w := hcomes
      obtain ⟨_, _, hnone, -⟩ := ends_appendSet size hcomes
      cases hnone
    · replace happend : w₁.Ends (appendSet c key value expires) (some n) w₂ := happend
      obtain ⟨_, log, hn, happended, hattempts⟩ := ends_appendSet size happend
      obtain rfl := Option.some.inj hn
      exact ⟨n, counted_of_appended hfresh happended hattempts hwork⟩
  | setPipeline keyvalues =>
    obtain ⟨w₁, hfresh, rfl, -, hwork⟩ := work_of_run he rfl h
    exact ⟨_, counted_of_pipelineOp hfresh (commands_of_formatted hform) (fun _ => rfl) hwork⟩
  | getPipeline keys => exact hp.elim
  | deletePipeline keys =>
    cases keys with
    | nil =>
      obtain ⟨hnone, -⟩ := h.of_refused rfl
      cases hnone
    | cons key keys =>
      obtain ⟨w₁, hfresh, rfl, -, hwork⟩ := work_of_run he rfl h
      have hcmds : (key :: keys).map (fun key => some (words "DEL" [key.bytes])) =
          (deletePipeline (key :: keys)).commands.map some := by
        rw [commands, List.map_map]
        rfl
      exact ⟨_, counted_of_pipelineOp hfresh hcmds (fun _ => rfl) hwork⟩

/-- A value that is NULL ends the process. -/
theorem dies_of_run {e : Env} {logs : Bool} (hform : ¬ p.Formatted) (he : e.Idle)
    (h : p.op.Run Watch.respond { env := e, logs } (some c) out w) : out = none := by
  cases p with
  | setPipeline keyvalues =>
    obtain ⟨w₁, -, -, -, hwork⟩ := work_of_run he rfl h
    rcases Prog.Ends.of_bind hwork with ⟨rfl, -⟩ | ⟨_, w₂, happend, -⟩
    · rfl
    · exact absurd (formatted_of_notMem (notMem_of_yields_appendAll happend)) hform
  | _ => exact absurd trivial hform

/-- What `agc_cache_redis_get_pipeline` has done with a connection. -/
structure Paired (keys : List CStr) (s : Store) (status : AgcStatus) (entries : List KeyValue)
    (w : Watch) : Prop where
  attempts : (sent w.appends).Sublist (keys.map getCommand)
  asked : Asked keys.length (sent w.appends).length w.answers
  success : status = .success ↔ w.answers.length = keys.length ∧ ∀ a ∈ w.answers, a.Good
  entries : ∀ script : Script, script.Followed w → entries =
    List.zipWith (fun key get => found key (s.strings get.bytes)) keys
      ((kept script.fails keys).take (leading script.got (kept script.fails keys).length))

/-- The replies are taken for the first keys, whatever was appended. -/
theorem paired_of_ends {keys : List CStr} {w : Watch} (hw : Fresh w c)
    (h : w.Ends (do
      appendAll c (keys.map fun key => some (getCommand key))
      let (status, entries) ← collectReplies c keys
      resetContext c
      freeConnection c
      return (status, .list entries)) out w') :
    ∃ status entries, out = some (status, .list entries) ∧
      Paired keys w.env.store status entries w' := by
  have hcmds : keys.map (fun key => some (getCommand key)) = (keys.map getCommand).map some := by
    rw [List.map_map]
    rfl
  rw [hcmds] at h
  rcases Prog.Ends.of_bind h with ⟨rfl, hcomes⟩ | ⟨_, w₁, happend, h⟩
  · replace hcomes : w.Ends (appendAll c ((keys.map getCommand).map some)) none w' := hcomes
    obtain ⟨log, -, ⟨-, hmem⟩ | ⟨hout, -⟩⟩ := Watch.ends_appendAll hcomes
    · simp at hmem
    · cases hout
  replace happend : w.Ends (appendAll c ((keys.map getCommand).map some)) (some ()) w₁ := happend
  obtain ⟨log, happended, ⟨hout, -⟩ | ⟨-, hall⟩⟩ := Watch.ends_appendAll happend
  · cases hout
  have hlog : log.map Prod.fst = keys.map getCommand :=
    (List.map_injective_iff.mpr (Option.some_injective _) hall).symm
  -- the commands that wait are those of some of the keys
  have hsub : (sent log).Sublist (keys.map getCommand) := by
    rw [← hlog]
    exact sent_sublist log
  obtain ⟨gets, hgets, hsent⟩ := List.sublist_map_iff.mp hsub
  have hqueued : w₁.env.queued c = gets.map getCommand := by
    rw [happended.queued, hw.queued, List.nil_append, hsent]
  rcases Prog.Ends.of_bind h with ⟨rfl, hcomes⟩ | ⟨⟨status, entries⟩, w₂, hcollect, h⟩
  · replace hcomes : w₁.Ends (collectReplies c keys) none w' := hcomes
    obtain ⟨_, _, _, hnone, -⟩ := Watch.ends_collectReplies hqueued hcomes
    cases hnone
  replace hcollect : w₁.Ends (collectReplies c keys) (some (status, entries)) w₂ := hcollect
  obtain ⟨_, _, answers, heq, hgot, hasked, hsuccess, hentries⟩ :=
    Watch.ends_collectReplies hqueued hcollect
  obtain ⟨rfl, rfl⟩ := Prod.mk.inj (Option.some.inj heq)
  obtain ⟨_, w₃, hreset, h⟩ := (silent_resetContext c).ends_bind not_silent_fault h
  obtain ⟨_, w₄, hfree, h⟩ := (apart_freeConnection c).ends_bind not_apart_fault h
  obtain ⟨rfl, rfl⟩ := Prog.ends_ret.mp h
  have hgot := hgot.sameRecord ((Watch.sameRecord_of_silent (silent_resetContext c) hreset).trans
    (Watch.same_of_apart (apart_freeConnection c) hfree).2)
  have happends : w'.appends = log := by
    rw [hgot.appends, happended.appends, hw.appends, List.nil_append]
  have hanswers : w'.answers = answers := by
    rw [hgot.answers, happended.answers, hw.answers, List.nil_append]
  have hlen : (sent log).length = gets.length := by rw [hsent, List.length_map]
  refine ⟨status, entries, rfl, ?_, ?_, ?_, fun script hfollowed => ?_⟩
  · rwa [happends]
  · rw [happends, hanswers, hlen]
    exact hasked
  · rw [hanswers]
    exact hsuccess
  · -- the keys whose commands wait are those that the failures leave
    have hkept := hfollowed.appends
    rw [happends] at hkept
    replace hkept := hkept.sent_eq
    rw [hlog, kept_map, hsent] at hkept
    obtain rfl := List.map_injective_iff.mpr getCommand_injective hkept
    have hgives := hfollowed.answers
    rw [happends, hanswers, hlen] at hgives
    rw [← happended.store]
    exact hentries script.got hgives

theorem paired_of_run {keys : List CStr} {e : Env} {logs : Bool} (he : e.Idle)
    (h : (getPipeline keys).op.Run Watch.respond { env := e, logs } (some c) out w) :
    ∃ status entries, out = some (status, .list entries) ∧
      Paired keys e.store status entries w := by
  cases keys with
  | nil =>
    obtain ⟨hnone, -⟩ := h.of_refused rfl
    cases hnone
  | cons key keys =>
    obtain ⟨w₁, hfresh, -, hstore, hwork⟩ := work_of_run he rfl h
    rw [← hstore]
    exact paired_of_ends hfresh hwork

end Runs

/-! ## The law for one run -/

section Law

variable {p : Pipeline} {w : Watch} {out : Option Result} {n : ℕ} {script : Script}

/-- The number of good replies before another one, of those to the commands that are appended. -/
def goods (p : Pipeline) (script : Script) : ℕ :=
  leading script.got (p.appended script.fails).length

namespace Counted

theorem goods_le (h : p.Counted script.logs n out w) (hfollowed : script.Followed w) :
    p.goods script ≤ (sent w.appends).length := by
  rw [goods, ← h.attempts.appended _ hfollowed.appends]
  exact leading_le _ _

theorem length_eq (h : p.Counted script.logs n out w) (hfollowed : script.Followed w) :
    w.answers.length = min (p.goods script + 1) n := by
  rw [h.asked.length_eq hfollowed.answers, goods, ← h.attempts.appended _ hfollowed.appends]

/-- One reply is asked for per command that was appended, if all of them are good or all but the
last. -/
theorem asks_iff (h : p.Counted script.logs n out w) (hfollowed : script.Followed w) :
    w.answers.length = (sent w.appends).length ↔
      p.goods script = p.commands.length ∨ p.goods script + 1 = (sent w.appends).length := by
  have hle := h.goods_le hfollowed
  have hsent := h.attempts.sent_le
  have hcommands := h.attempts.sublist.length_le
  rw [h.length_eq hfollowed]
  constructor
  · intro heq
    rcases Nat.lt_or_ge (p.goods script) n with hlt | hge
    · right
      omega
    · -- as many replies are good as are asked for, so that as many commands were appended
      left
      have hn : n = (sent w.appends).length := by omega
      rw [← h.attempts.asks.mp hn]
      omega
  · rintro (heq | heq)
    · have hall := h.attempts.sublist.eq_of_length (by omega)
      have hn := h.attempts.asks.mpr hall
      omega
    · omega

theorem success_iff (h : p.Counted script.logs n out w) {r : Result} (hr : out = some r) :
    r.1 = .success ↔ sent w.appends = p.commands ∧ w.answers.length = p.commands.length ∧
      ∀ a ∈ w.answers, a.Good := by
  rw [h.success r hr]
  constructor
  · rintro ⟨hlen, hgood⟩
    -- that many good replies come only if that many commands wait
    have hn := Nat.le_antisymm (h.asked.le_waiting hlen hgood) h.attempts.sent_le
    have hall := h.attempts.asks.mp hn
    exact ⟨hall, by rw [hlen, hn, hall], hgood⟩
  · rintro ⟨hall, hlen, hgood⟩
    have hn := h.attempts.asks.mpr hall
    exact ⟨by rw [hlen, hn, hall], hgood⟩

/-- The process dies at the first reply that is not good, if it is a failure with an error and is
logged. -/
theorem dies_iff (h : p.Counted script.logs n out w) (hfollowed : script.Followed w) :
    out = none ↔ script.logs = true ∧ p.goods script < (sent w.appends).length ∧
      p.goods script < n ∧ script.got (p.goods script) = .failed true := by
  rw [h.dies, h.asked.failed_mem_iff hfollowed.answers, goods,
    ← h.attempts.appended _ hfollowed.appends]

end Counted

theorem fits_iff_of_counts (hp : p.Counts) : p.Fits script ↔ p.Formatted ∧
    (p.goods script = p.commands.length ∨
      (p.goods script + 1 = (p.appended script.fails).length ∧
        ¬ (script.got (p.goods script) = .failed true ∧ script.logs = true))) := by
  cases p with
  | getPipeline keys => exact hp.elim
  | _ => exact Iff.rfl

/-- A run of an operation that counts its replies does what it is to do exactly with the scripts
that fit. -/
theorem Counted.fits_iff {s : Store} {c : Conn} (hp : p.Counts) (hform : p.Formatted)
    (h : p.Counted script.logs n out w) (hfollowed : script.Followed w) :
    p.AlignedRun s (some c) out w ↔ p.Fits script := by
  have hasks := h.asks_iff hfollowed
  have hdies := h.dies_iff hfollowed
  have hle := h.goods_le hfollowed
  have hsent := h.attempts.sent_le
  have hcommands := h.attempts.sublist.length_le
  rw [fits_iff_of_counts hp, and_iff_right hform, ← h.attempts.appended _ hfollowed.appends]
  constructor
  · intro haligned
    refine (hasks.mp (haligned.asks hp)).imp_right fun heq => ⟨heq, ?_⟩
    rintro ⟨hfailed, hlogs⟩
    have hnone := hdies.mpr ⟨hlogs, by omega, by omega, hfailed⟩
    have hreturns := haligned.returns
    rw [hnone] at hreturns
    cases hreturns
  · intro hfits
    refine ⟨?_, fun r entries hr hlist => ?_, fun _ => ?_, fun _ r hr => h.success_iff hr, nofun⟩
    · rw [Option.isSome_iff_ne_none]
      intro hnone
      obtain ⟨hlogs, hlt, hlt', hfailed⟩ := hdies.mp hnone
      rcases hfits with heq | ⟨heq, hno⟩
      · omega
      · exact hno ⟨hfailed, hlogs⟩
    · rw [h.output r hr] at hlist
      cases hlist
    · exact hasks.mpr (hfits.imp_right And.left)

/-- A prefix of a list paired with the list is the list paired with itself. -/
theorem zipWith_prefix_self {α β : Type} (f : α → α → β) {l l' : List α} (h : l' <+: l) :
    List.zipWith f l l' = l'.map fun a => f a a := by
  obtain ⟨rest, rfl⟩ := h
  induction l' with
  | nil => simp
  | cons a l' ih => exact congrArg (f a a :: ·) ih

theorem Paired.success_iff {keys : List CStr} {s : Store} {status : AgcStatus}
    {entries : List KeyValue} (h : Paired keys s status entries w) :
    status = .success ↔ sent w.appends = (getPipeline keys).commands ∧
      w.answers.length = (getPipeline keys).commands.length ∧ ∀ a ∈ w.answers, a.Good := by
  rw [h.success, commands, List.length_map]
  refine ⟨fun hgood => ⟨?_, hgood⟩, And.right⟩
  refine h.attempts.eq_of_length_le ?_
  rw [List.length_map]
  exact h.asked.le_waiting hgood.1 hgood.2

theorem Paired.aligned {keys : List CStr} {s : Store} {status : AgcStatus}
    {entries : List KeyValue} {c : Conn} (h : Paired keys s status entries w)
    (hfollowed : script.Followed w) (hfits : (getPipeline keys).Fits script) :
    (getPipeline keys).AlignedRun s (some c) (some (status, .list entries)) w := by
  refine ⟨rfl, fun r entries' hr hlist kv hkv => ?_, fun hcounts => hcounts.elim,
    fun _ r hr => ?_, nofun⟩
  · obtain rfl := Option.some.inj hr
    obtain rfl := Output.list.inj hlist
    -- the keys that are left are paired with themselves
    have hzip := h.entries script hfollowed
    rw [zipWith_prefix_self _ hfits] at hzip
    rw [hzip] at hkv
    obtain ⟨key, -, rfl⟩ := List.mem_map.mp hkv
    rfl
  · obtain rfl := Option.some.inj hr
    exact h.success_iff

theorem aligned_of_fits (hfits : p.Fits script) : p.Aligned script := by
  intro e conn out w he h hfollowed
  cases conn with
  | none =>
    obtain ⟨rfl, happends, hanswers⟩ := early_of_run he.idle h
    refine ⟨rfl, fun r entries hr hlist => ?_, fun _ => ?_, nofun,
      fun _ => ⟨rfl, happends, hanswers⟩⟩
    · obtain rfl := Option.some.inj hr
      cases hlist
    · rw [happends, hanswers]
      rfl
  | some c =>
    by_cases hp : p.Counts
    · have hform := ((fits_iff_of_counts hp).mp hfits).1
      obtain ⟨n, hcounted⟩ := counted_of_run hp hform he.idle h
      exact (hcounted.fits_iff hp hform hfollowed).mpr hfits
    · cases p with
      | getPipeline keys =>
        obtain ⟨status, entries, rfl, hpaired⟩ := paired_of_run he.idle h
        exact hpaired.aligned hfollowed hfits
      | _ => exact (hp trivial).elim

end Law

/-! ## Runs with every script -/

section Exists

variable {p : Pipeline} {script : Script}

/-- After `get_connection`, over a server with the given store. -/
def taken (store : Store) (logs : Bool) : Watch where
  env := { Env.ready store with pool := takenPool }
  logs

theorem filling_taken (store : Store) (script : Script) :
    (taken store script.logs).Filling script := by
  refine ⟨⟨rfl, ⟨rfl, fun i q hq => ?_, fun i a hi => ?_⟩, rfl, fun cmd hcmd => ?_⟩, rfl⟩
  · cases hq
  · cases hi
  · cases hcmd

theorem fine_set (key value : List Byte) : Fine (words "SET" [key, value]) := fun _ => nofun

theorem fine_expire (key time : List Byte) : Fine (words "EXPIRE" [key, time]) := fun _ => nofun

theorem fine_del (key : List Byte) : Fine (words "DEL" [key]) := fun _ => nofun

theorem fine_get (key : CStr) : Fine (getCommand key) := by
  intro s
  rw [getCommand, exec_get]
  cases s.strings key.bytes with
  | none =>
    intro h
    cases h
  | some value =>
    intro h
    cases h

theorem canEnd_appendSet (key : CStr) (value : List Byte) (expires : ℤ) :
    Watch.CanEnd (Watch.Filling script) (Watch.Filling script) (appendSet 0 key value expires) := by
  refine Watch.canEnd_append (fine_set _ _) fun ok => ?_
  cases ok with
  | false => exact Watch.canEnd_errstr 1
  | true =>
    rw [if_pos rfl]
    split
    · refine Watch.canEnd_append (fine_expire _ _) fun ok => ?_
      cases ok with
      | false => exact Watch.canEnd_errstr 2
      | true => exact Prog.canEnd_ret fun _ hw => hw
    · exact Prog.canEnd_ret fun _ hw => hw

/-- The replies are asked for, and the connection is given back. -/
theorem canEnd_counted (n : ℕ) : Watch.CanEnd (Watch.Filling script) script.Followed (do
    let status ← agcRedisMultireplies 0 n
    freeConnection 0
    return (status, .untouched) : Client Result) := by
  have hmulti : Watch.CanEnd (Watch.Filling script) (Watch.Drained script)
      (agcRedisMultireplies 0 n) := by
    refine Prog.CanEnd.bind (fun w hw => Watch.canEnd_multirepliesLoop n w hw.toReady)
      (fun status => ?_) fun _ hw => hw.drained
    exact Watch.canEnd_resetContext.bind (fun _ => Prog.canEnd_ret fun _ hw => hw) fun _ hw => hw
  refine hmulti.bind (fun status => ?_) fun _ hw => hw.followed
  exact Watch.canEnd_freeConnection.bind (fun _ => Prog.canEnd_ret fun _ hw => hw) fun _ hw => hw

theorem canEnd_pipelineOp {cmds : List (Option Command)}
    (hcmds : ∀ cmd, some cmd ∈ cmds → Fine cmd) :
    Watch.CanEnd (Watch.Filling script) script.Followed (do
      appendAll 0 cmds
      let status ← agcRedisMultireplies 0 cmds.length
      freeConnection 0
      return (status, .untouched) : Client Result) :=
  (Watch.canEnd_appendAll hcmds).bind (fun _ => canEnd_counted _) fun _ hw => hw.followed

theorem canEnd_getWork (keys : List CStr) :
    Watch.CanEnd (Watch.Filling script) script.Followed (do
      appendAll 0 (keys.map fun key => some (getCommand key))
      let (status, entries) ← collectReplies 0 keys
      resetContext 0
      freeConnection 0
      return (status, .list entries) : Client Result) := by
  refine (Watch.canEnd_appendAll fun cmd hcmd => ?_).bind (fun _ => ?_) fun _ hw => hw.followed
  · obtain ⟨key, -, hkey⟩ := List.mem_map.mp hcmd
    obtain rfl := Option.some.inj hkey
    exact fine_get key
  refine Prog.CanEnd.bind (fun w hw => Watch.canEnd_collectReplies keys w hw.toReady)
    (fun _ => ?_) fun _ hw => hw.followed
  refine Watch.canEnd_resetContext.bind (fun _ => ?_) fun _ hw => hw.followed
  exact Watch.canEnd_freeConnection.bind (fun _ => Prog.canEnd_ret fun _ hw => hw) fun _ hw => hw

theorem exists_run_of_work {op : Op} {work : Conn → Client Result}
    (hbody : op.body = withConnection work) (store : Store)
    (hwork : Watch.CanEnd (Watch.Filling script) script.Followed (work 0)) :
    ∃ out w, op.Run Watch.respond { env := Env.ready store, logs := script.logs } (some 0) out w ∧
      script.Followed w := by
  obtain ⟨out, w, hrun, hfollowed⟩ := hwork _ (filling_taken store script)
  have hconn : Watch.Yields { env := Env.ready store, logs := script.logs } getConnection (some 0)
      (taken store script.logs) := ⟨[{}, {}, {}], rfl⟩
  exact ⟨out, w, .asked hbody hconn hrun, hfollowed⟩

/-- The operation looks at its list. -/
def Valid : Pipeline → Prop
  | getPipeline keys | deletePipeline keys => keys ≠ []
  | _ => True

/-- With any script there is a run in which the operation gets a connection. -/
theorem exists_run (hvalid : p.Valid) (store : Store) :
    ∃ out w, p.op.Run Watch.respond { env := Env.ready store, logs := script.logs } (some 0) out w ∧
      script.Followed w := by
  cases p with
  | set key value size expires =>
    refine exists_run_of_work rfl store ?_
    exact (canEnd_appendSet key value expires).bind (fun n => canEnd_counted n)
      fun _ hw => hw.followed
  | setPipeline keyvalues =>
    refine exists_run_of_work rfl store (canEnd_pipelineOp fun cmd hcmd => ?_)
    obtain ⟨kv, -, hkv⟩ := List.mem_map.mp hcmd
    obtain ⟨value, -, rfl⟩ := Option.map_eq_some_iff.mp hkv
    exact fine_set _ _
  | getPipeline keys =>
    cases keys with
    | nil => exact (hvalid rfl).elim
    | cons key keys => exact exists_run_of_work rfl store (canEnd_getWork (key :: keys))
  | deletePipeline keys =>
    cases keys with
    | nil => exact (hvalid rfl).elim
    | cons key keys =>
      refine exists_run_of_work rfl store (canEnd_pipelineOp fun cmd hcmd => ?_)
      obtain ⟨key, -, hkey⟩ := List.mem_map.mp hcmd
      obtain rfl := Option.some.inj hkey
      exact fine_del _

/-- A store in which each key has itself as its value. -/
def mirror : Store := { strings := some }

/-- Entries that all have the value of their own key are those of the first keys. -/
theorem prefix_of_own {keys gets : List CStr} (hlen : gets.length ≤ keys.length)
    (h : ∀ kv ∈ List.zipWith (fun key get => found key (mirror.strings get.bytes)) keys gets,
      kv = found kv.key (mirror.strings kv.key.bytes)) : gets <+: keys := by
  induction keys generalizing gets with
  | nil =>
    obtain rfl := List.length_eq_zero_iff.mp (Nat.le_zero.mp hlen)
    exact List.prefix_rfl
  | cons key keys ih =>
    cases gets with
    | nil => exact List.nil_prefix
    | cons get gets =>
      rw [List.zipWith_cons_cons, List.forall_mem_cons] at h
      -- where keys are their own values, an entry with its own value has its own command
      have hvalue : some (strndup get.bytes) = some (strndup key.bytes) :=
        congrArg KeyValue.value h.1
      have hcopy : ∀ s : CStr, strndup s.bytes = s.bytes := fun s =>
        congrArg CStr.bytes (CStr.ofBuffer_self s)
      rw [Option.some.injEq, hcopy, hcopy] at hvalue
      rw [CStr.ext hvalue]
      exact (List.prefix_cons_inj _).mpr (ih (Nat.le_of_succ_le_succ hlen) h.2)

theorem fits_of_not_valid (hvalid : ¬ p.Valid) : p.Fits script := by
  cases p with
  | getPipeline keys =>
    obtain rfl : keys = [] := not_not.mp hvalid
    exact List.prefix_rfl
  | deletePipeline keys =>
    obtain rfl : keys = [] := not_not.mp hvalid
    exact ⟨trivial, Or.inl rfl⟩
  | _ => exact absurd trivial hvalid

theorem fits_of_aligned (h : p.Aligned script) : p.Fits script := by
  by_cases hvalid : p.Valid
  · by_cases hp : p.Counts
    · -- a run with the script
      obtain ⟨out, w, hrun, hfollowed⟩ := exists_run hvalid {}
      have hidle := (Env.reached_ready {}).idle
      have haligned := h _ _ _ _ (Env.reached_ready {}) hrun hfollowed
      by_cases hform : p.Formatted
      · obtain ⟨n, hcounted⟩ := counted_of_run hp hform hidle hrun
        exact (hcounted.fits_iff hp hform hfollowed).mp haligned
      · obtain rfl := dies_of_run hform hidle hrun
        cases haligned.returns
    · cases p with
      | getPipeline keys =>
        -- a run with the script, over a store that tells the keys apart
        obtain ⟨out, w, hrun, hfollowed⟩ := exists_run hvalid mirror
        have haligned := h _ _ _ _ (Env.reached_ready mirror) hrun hfollowed
        obtain ⟨status, entries, rfl, hpaired⟩ :=
          paired_of_run (Env.reached_ready mirror).idle hrun
        have hown := haligned.own _ entries rfl rfl
        rw [hpaired.entries script hfollowed] at hown
        refine prefix_of_own ?_ hown
        exact ((List.take_sublist _ _).trans (kept_sublist _ _)).length_le
      | _ => exact (hp trivial).elim
  · exact fits_of_not_valid hvalid

end Exists

/-- **Pipelines with failures.** For any list, any calls of `redisClusterAppendCommand` that fail
and any replies to the commands that are appended, an operation does what it is to do exactly if
the script fits. -/
theorem aligned_iff (p : Pipeline) (script : Script) : p.Aligned script ↔ p.Fits script :=
  ⟨fits_of_aligned, aligned_of_fits⟩

/-- The first of two commands fails, and the other one is answered: the first key gets the value of
the second one. -/
theorem not_aligned_of_first_fails :
    ¬ (getPipeline [CStr.ofString "a", CStr.ofString "b"]).Aligned
      { fails := fun i => i == 0, got := fun _ => .good, logs := false } := by
  intro h
  have hprefix : [CStr.ofString "b"] <+: [CStr.ofString "a", CStr.ofString "b"] :=
    fits_of_aligned h
  rw [List.cons_prefix_cons] at hprefix
  exact absurd hprefix.1 (by decide)

end Pipeline

end Redis
