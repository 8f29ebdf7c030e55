import Mathlib.Data.List.Forall2
import Mathlib.Data.List.Infix
import AgcFramework.Lib.Exec
import AgcFramework.Lib.Buffer
import AgcFramework.Lib.Trace
import AgcFramework.Odbc.Model

/-!
# Long SQL texts

A text of `AGC_MAX_SQL_LEN` bytes or more is executed in chunks. The end of a chunk is looked for
from the end of a window backwards: a semicolon and a line feed, which become NULs. What is left
behind the last such end is not executed.

## Main definitions

* `Outcome`: what `agc_odbc_handle_exec` returns
* `executeSqlReal`, `agcSqlExecuteSql`: the functions of `agc_sql.c`
* `Script`: statements with `;` and a line feed between them, and what is behind the last one
* `execAll`: the chunks of a list are executed up to the first that fails
* `Script.Executed`: the statements are executed

## Main results

* `agcSqlExecuteSql_eq`: a long text is executed in chunks of whole statements
* `sql_chunks_iff`: which scripts are executed
-/

open Exec

namespace SqlChunks

def AGC_MAX_SQL_LEN : ℕ := 32768

/-- `AGC_STATUS_SUCCESS` and `AGC_STATUS_FALSE`. -/
def AGC_STATUS_SUCCESS : ℤ := 0
def AGC_STATUS_FALSE : ℤ := 1

/-- The value of a status of `agc_odbc.c`. -/
def odbcCode : Odbc.AgcOdbcStatus → ℤ
  | .success => 0
  | .fail => -1

/-- The status and the text that `agc_odbc_handle_exec` hands to its caller; there is no text when
it succeeds. -/
structure Outcome where
  status : Odbc.AgcOdbcStatus
  errmsg : Option String
  errmsg_eq_none : status = .success → errmsg = none

/-- There is no text of an error when `agc_odbc_handle_exec` succeeds. -/
theorem agcOdbcHandleExec_err (sql : String) (rstmt : Bool) (w : Odbc.World)
    (h : (Odbc.agcOdbcHandleExec sql rstmt w).1.status = .success) :
    (Odbc.agcOdbcHandleExec sql rstmt w).1.err = none := by
  have htriple : Command.Triple (fun _ => False) (fun _ _ => True)
      (Odbc.agcOdbcHandleExec sql rstmt)
      fun r _ _ => r.status = .success → r.err = none := by
    have hany : ∀ {α : Type} (m : Odbc.OdbcM α) (P : Odbc.World → List Odbc.Entry → Prop),
        Command.Triple (fun _ => False) P m fun _ _ _ => True := fun _ _ _ _ _ => Or.inl trivial
    refine (hany _ _).bind fun s => Command.Triple.ite (fun _ => ?_) fun _ => ?_
    · refine (hany _ _).bind fun _ => (hany _ _).bind fun _ => ?_
      refine Command.Triple.ite (fun _ => Command.Triple.pure fun _ _ _ _ => rfl) fun _ => ?_
      exact (hany _ _).bind fun _ => Command.Triple.pure fun _ _ _ _ => rfl
    · refine (hany _ _).bind fun _ => ?_
      refine Command.Triple.ite (fun _ => Command.Triple.pure fun _ _ _ h => by cases h) fun _ => ?_
      exact (hany _ _).bind fun _ => Command.Triple.pure fun _ _ _ h => by cases h
  exact (htriple w [] trivial).elim (fun hok => hok h) False.elim

/-- The outcome of a call of `agc_odbc_handle_exec` by `execute_sql_real`. -/
def Outcome.ofExec (sql : String) (w : Odbc.World) : Outcome where
  status := (Odbc.agcOdbcHandleExec sql false w).1.status
  errmsg := (Odbc.agcOdbcHandleExec sql false w).1.err
  errmsg_eq_none := agcOdbcHandleExec_err sql false w

/-- What the database does with a text, behind those that it was given before. -/
abbrev Database := List CStr → CStr → Outcome

/-- `execute_sql_real`: its status, and what is behind the pointer `err` of the caller, if it is not
null. -/
def executeSqlReal (o : Outcome) (err : Option (Option String)) : ℤ × Option (Option String) :=
  (odbcCode o.status, err.map fun _ => o.errmsg)

/-- What a call of `agc_sql_execute_sql` did: its status, what is behind `err`, and the texts that
it handed to `execute_sql_real`. -/
structure Result where
  status : ℤ
  err : Option (Option String)
  chunks : List CStr

def LF : Byte := 10
def SEMICOLON : Byte := 59

/-- The scan from `p` back to `s`: the buffer, and where the next chunk begins, or `s`. -/
def cutBack (buf : List Byte) (s : ℕ) : ℕ → Exec (List Byte × ℕ)
  | 0 => pure (buf, 0)
  | p + 1 =>
    if s < p + 1 then do
      if (← Buffer.get buf (p + 1)) = LF ∧ (← Buffer.get buf p) = SEMICOLON then
        let buf ← Buffer.put buf (p + 1) 0
        let buf ← Buffer.put buf p 0
        pure (buf, p + 2)
      else cutBack buf s p
    else pure (buf, p + 1)

/-- The loop of `agc_sql_execute_sql`. -/
def chunkLoop (db : Database) (e : ℕ) : ℕ → List Byte → ℕ → Result → Exec Result
  | 0, _, _, _ => .error .fuel
  | fuel + 1, buf, s, r =>
    if s < e then do
      let (buf, p) ← cutBack buf s (min (s + AGC_MAX_SQL_LEN) e)
      if p ≤ s then pure r
      else
        let sql := Buffer.str buf s
        let (status, err) := executeSqlReal (db r.chunks sql) r.err
        let r := ⟨status, err, r.chunks ++ [sql]⟩
        if status ≠ AGC_STATUS_SUCCESS ∨ err.any Option.isSome then pure r
        else chunkLoop db e fuel buf p r
    else pure r

/-- `agc_sql_execute_sql`. -/
def agcSqlExecuteSql (db : Database) (fuel : ℕ) (sql : CStr) (err : Option (Option String)) :
    Exec Result := do
  let buf := sql.bytes ++ [0]
  let len ← Buffer.strlen buf
  if len < AGC_MAX_SQL_LEN then
    let (status, err) := executeSqlReal (db [] sql) err
    pure ⟨status, err, [sql]⟩
  else
    let e := if (← Buffer.get buf 0) = 0 then 0 else len - 1
    chunkLoop db e fuel buf 0 ⟨AGC_STATUS_FALSE, err, []⟩

/-! ## Scripts -/

/-- A statement: shorter than a window, without a NUL and without the end of a statement inside. -/
structure Statement where
  bytes : List Byte
  nul_notMem : 0 ∉ bytes
  length_lt : bytes.length < 32766
  whole : ¬ [SEMICOLON, LF] <:+: bytes

/-- What is behind the last statement of a text. -/
inductive Ending
  | nothing
  | semicolon
  | lineFeed
  | both
  deriving DecidableEq

def Ending.bytes : Ending → List Byte
  | nothing => []
  | semicolon => [SEMICOLON]
  | lineFeed => [LF]
  | both => [SEMICOLON, LF]

/-- Statements with a semicolon and a line feed between them. -/
def joined (ss : List Statement) : List Byte :=
  [SEMICOLON, LF].intercalate (ss.map Statement.bytes)

/-- Statements with a semicolon and a line feed behind each. -/
def ended (ss : List Statement) : List Byte := ss.flatMap fun st => st.bytes ++ [SEMICOLON, LF]

theorem ended_cons (st : Statement) (ss : List Statement) :
    ended (st :: ss) = st.bytes ++ SEMICOLON :: LF :: ended ss := by
  simp [ended]

theorem ended_append (ss ss' : List Statement) : ended (ss ++ ss') = ended ss ++ ended ss' := by
  simp [ended]

theorem ended_eq {ss : List Statement} (hss : ss ≠ []) :
    ended ss = joined ss ++ [SEMICOLON, LF] := by
  induction ss with
  | nil => exact absurd rfl hss
  | cons st ss ih =>
    cases ss with
    | nil => simp [ended, joined]
    | cons st' ss =>
      rw [ended_cons, ih (by simp)]
      simp [joined]

theorem nul_notMem_ended (ss : List Statement) : 0 ∉ ended ss := by
  intro h
  obtain ⟨st, -, h⟩ := List.mem_flatMap.mp h
  rcases List.mem_append.mp h with h | h
  · exact st.nul_notMem h
  · exact absurd h (by decide)

theorem nul_notMem_joined (ss : List Statement) : 0 ∉ joined ss := by
  by_cases hss : ss = []
  · simp [hss, joined]
  · intro h
    exact nul_notMem_ended ss (ended_eq hss ▸ List.mem_append_left _ h)

/-- The text of some statements. -/
def chunk (ss : List Statement) : CStr := ⟨joined ss, nul_notMem_joined ss⟩

/-- A text that is a sequence of statements. -/
structure Script where
  statements : List Statement
  ending : Ending

theorem Ending.nul_notMem (ending : Ending) : 0 ∉ ending.bytes := by
  cases ending <;> decide

def Script.text (sc : Script) : CStr where
  bytes := joined sc.statements ++ sc.ending.bytes
  nul_notMem h := (List.mem_append.mp h).elim (nul_notMem_joined _) sc.ending.nul_notMem

/-! ## What is executed -/

/-- A chunk has these statements whole, with or without an end behind the last one. -/
def Has (sql : CStr) (ss : List Statement) : Prop :=
  ss ≠ [] ∧ ∃ ending : Ending, sql.bytes = joined ss ++ ending.bytes

/-- The chunks have each statement whole, once and in order; there may be none for an empty
statement at the end. -/
def Script.Executed (sc : Script) (chunks : List CStr) : Prop :=
  ∃ groups, List.Forall₂ Has chunks groups ∧ (sc.statements = groups.flatten ∨
    ∃ st : Statement, st.bytes = [] ∧ sc.statements = groups.flatten ++ [st])

/-- The script is executed in chunks. If all of them succeed these are all of its statements, the
status is `AGC_STATUS_SUCCESS` only then, and a chunk that fails is the last one and its status is
returned. -/
def Script.Faithful (sc : Script) : Prop :=
  ∀ (db : Database) (err : Option (Option String)), ∃ r,
    Returns (fun fuel => agcSqlExecuteSql db fuel sc.text err) r ∧
    ((∀ done sql, (db done sql).status = .success) → sc.Executed r.chunks) ∧
    (r.status = AGC_STATUS_SUCCESS → sc.Executed r.chunks ∧
      Trace.Throughout (fun done sql => (db done sql).status = .success) r.chunks) ∧
    ∀ done sql rest, r.chunks = done ++ sql :: rest → (db done sql).status = .fail →
      rest = [] ∧ r.status = odbcCode .fail

/-- The chunks are executed up to the first that fails. -/
def execAll (db : Database) : List CStr → Result → Result
  | [], r => r
  | sql :: chunks, r =>
    let (status, err) := executeSqlReal (db r.chunks sql) r.err
    if (db r.chunks sql).status = .success then execAll db chunks ⟨status, err, r.chunks ++ [sql]⟩
    else ⟨status, err, r.chunks ++ [sql]⟩

/-- All of the chunks succeed, or one of them is the first that fails. -/
theorem execAll_cases (db : Database) (chunks : List CStr) (r : Result) :
    ((execAll db chunks r).chunks = r.chunks ++ chunks ∧
      (chunks ≠ [] → (execAll db chunks r).status = AGC_STATUS_SUCCESS) ∧
      Trace.Throughout (fun done sql => (db (r.chunks ++ done) sql).status = .success) chunks) ∨
    ∃ before sql after, chunks = before ++ sql :: after ∧
      (execAll db chunks r).chunks = r.chunks ++ before ++ [sql] ∧
      (execAll db chunks r).status = odbcCode .fail ∧
      (db (r.chunks ++ before) sql).status = .fail ∧
      Trace.Throughout (fun done sql => (db (r.chunks ++ done) sql).status = .success) before := by
  induction chunks generalizing r with
  | nil => exact Or.inl ⟨by simp [execAll], by simp, by simp⟩
  | cons sql chunks ih =>
    cases hstatus : (db r.chunks sql).status with
    | success =>
      have hexec : execAll db (sql :: chunks) r = execAll db chunks
          ⟨odbcCode .success, r.err.map fun _ => (db r.chunks sql).errmsg, r.chunks ++ [sql]⟩ := by
        simp only [execAll, executeSqlReal, hstatus, if_true]
      rw [hexec]
      rcases ih ⟨odbcCode .success, r.err.map fun _ => (db r.chunks sql).errmsg, r.chunks ++ [sql]⟩
        with ⟨hchunks, hlast, hall⟩ | ⟨before, sql', after, rfl, hchunks, hlast, hfail, hall⟩
      · refine Or.inl ⟨by simp [hchunks], fun _ => ?_, ?_⟩
        · by_cases hnil : chunks = []
          · subst hnil
            rfl
          · exact hlast hnil
        · refine Trace.throughout_cons.mpr ⟨by simpa using hstatus, ?_⟩
          simpa using hall
      · -- the first failure stands in the rest
        refine Or.inr ⟨sql :: before, sql', after, rfl, by simp [hchunks], hlast,
          by simpa using hfail, ?_⟩
        refine Trace.throughout_cons.mpr ⟨by simpa using hstatus, ?_⟩
        simpa using hall
    | fail =>
      refine Or.inr ⟨[], sql, chunks, rfl, ?_, ?_, by simpa using hstatus, by simp⟩
      · simp [execAll, executeSqlReal, hstatus]
      · simp [execAll, executeSqlReal, hstatus]

/-! ## The scan -/

/-- One byte of the scan. -/
theorem cutBack_step (pre x y : List Byte) (a b : Byte) :
    cutBack (pre ++ (x ++ a :: b :: y)) pre.length (pre.length + x.length + 1) =
      if b = LF ∧ a = SEMICOLON then
        .ok (pre ++ (x ++ 0 :: 0 :: y), pre.length + x.length + 2)
      else cutBack (pre ++ (x ++ a :: b :: y)) pre.length (pre.length + x.length) := by
  have hb : ∀ a, pre ++ (x ++ a :: b :: y) = (pre ++ x ++ [a]) ++ b :: y := by simp
  have ha : ∀ b, pre ++ (x ++ a :: b :: y) = (pre ++ x) ++ a :: (b :: y) := by simp
  have hgetb : Buffer.get (pre ++ (x ++ a :: b :: y)) (pre.length + x.length + 1) = .ok b := by
    rw [hb]
    exact Buffer.get_append (by simp [Nat.add_assoc])
  have hgeta : Buffer.get (pre ++ (x ++ a :: b :: y)) (pre.length + x.length) = .ok a := by
    rw [ha]
    exact Buffer.get_append (by simp)
  have hputb : Buffer.put (pre ++ (x ++ a :: b :: y)) (pre.length + x.length + 1) 0 =
      .ok (pre ++ (x ++ a :: 0 :: y)) := by
    rw [hb, Buffer.put_append (by simp [Nat.add_assoc])]
    simp
  have hputa : Buffer.put (pre ++ (x ++ a :: 0 :: y)) (pre.length + x.length) 0 =
      .ok (pre ++ (x ++ 0 :: 0 :: y)) := by
    rw [ha, Buffer.put_append (by simp)]
    simp
  rw [cutBack, if_pos (by omega)]
  simp only [hgetb, hgeta, ok_bind, hputb, hputa, pure_eq_ok]

/-- Where two bytes of a text are. -/
theorem exists_split {T : List Byte} {i : ℕ} (hi : i + 1 < T.length) :
    ∃ x a b y, T = x ++ a :: b :: y ∧ x.length = i := by
  refine ⟨T.take i, T[i], T[i + 1], T.drop (i + 2), ?_, by simp; omega⟩
  rw [List.getElem_cons_drop, List.getElem_cons_drop, List.take_append_drop]

/-- The ends of statements in a text are those of its statements. -/
theorem ended_split {ss : List Statement} {rest x y : List Byte}
    (hrest : ¬ [SEMICOLON, LF] <:+: rest) (h : ended ss ++ rest = x ++ SEMICOLON :: LF :: y) :
    ∃ g ss', ss = g ++ ss' ∧ x ++ [SEMICOLON, LF] = ended g ∧ y = ended ss' ++ rest := by
  induction ss generalizing x with
  | nil => exact absurd ⟨x, y, by simpa [ended] using h.symm⟩ hrest
  | cons st ss ih =>
    have hne : SEMICOLON ≠ LF := by decide
    rw [ended_cons, List.append_assoc] at h
    rcases List.append_eq_append_iff.mp h with ⟨a, rfl, hcons⟩ | ⟨a, hst, hcons⟩
    · -- the end is not before that of the first statement
      rcases a with _ | ⟨c, _ | ⟨d, a⟩⟩
      · have hy : y = ended ss ++ rest := by simpa using hcons.symm
        exact ⟨[st], ss, rfl, by simp [ended], hy⟩
      · simp [hne.symm] at hcons
      · simp only [List.cons_append, List.cons.injEq] at hcons
        obtain ⟨rfl, rfl, htail⟩ := hcons
        obtain ⟨g, ss', rfl, hg, hy⟩ := ih htail
        refine ⟨st :: g, ss', rfl, ?_, hy⟩
        rw [ended_cons, ← hg]
        simp
    · -- the end is inside the first statement, or is its own
      rcases a with _ | ⟨c, _ | ⟨d, a⟩⟩
      · have hy : y = ended ss ++ rest := by simpa using hcons
        have hx : x = st.bytes := by simpa using hst.symm
        exact ⟨[st], ss, rfl, by simp [ended, hx], hy⟩
      · simp [hne.symm] at hcons
      · simp only [List.cons_append, List.cons.injEq] at hcons
        obtain ⟨rfl, rfl, -⟩ := hcons
        exact absurd ⟨x, a, by simp [hst]⟩ st.whole

/-- A byte of the scan is the last one of an end of a statement, or the scan goes on. -/
theorem cutBack_at {st : Statement} {ss : List Statement} {rest : List Byte}
    (hrest : ¬ [SEMICOLON, LF] <:+: rest) (pre tail : List Byte) {k : ℕ}
    (hlen : k + 1 < (ended (st :: ss) ++ rest).length) :
    (∃ g ss', g ≠ [] ∧ st :: ss = g ++ ss' ∧
      cutBack (pre ++ (ended (st :: ss) ++ rest ++ tail)) pre.length (pre.length + k + 1) =
        .ok (pre ++ (joined g ++ 0 :: 0 :: (ended ss' ++ rest ++ tail)),
          pre.length + (ended g).length)) ∨
    (k ≠ st.bytes.length ∧
      cutBack (pre ++ (ended (st :: ss) ++ rest ++ tail)) pre.length (pre.length + k + 1) =
        cutBack (pre ++ (ended (st :: ss) ++ rest ++ tail)) pre.length (pre.length + k)) := by
  obtain ⟨x, a, b, y, hT, rfl⟩ := exists_split hlen
  have hstep := cutBack_step pre x (y ++ tail) a b
  have hassoc : ended (st :: ss) ++ rest ++ tail = x ++ a :: b :: (y ++ tail) := by
    rw [hT]
    simp
  rw [hassoc, hstep]
  by_cases hcut : b = LF ∧ a = SEMICOLON
  · obtain ⟨rfl, rfl⟩ := hcut
    obtain ⟨g, ss', hss, hg, rfl⟩ := ended_split hrest hT
    have hne : g ≠ [] := by
      rintro rfl
      simp [ended] at hg
    have hx : x = joined g := List.append_cancel_right (hg.trans (ended_eq hne))
    refine Or.inl ⟨g, ss', hne, hss, ?_⟩
    rw [if_pos ⟨rfl, rfl⟩, ← hg, ← hx]
    simp [Nat.add_assoc]
  · refine Or.inr ⟨fun hk => hcut ?_, if_neg hcut⟩
    -- behind the first statement there is an end
    rw [ended_cons, List.append_assoc] at hT
    obtain ⟨-, htail⟩ := List.append_inj hT hk.symm
    simp only [List.cons_append, List.cons.injEq] at htail
    exact ⟨htail.2.1.symm, htail.1.symm⟩

/-- The scan finds the end of a statement, if that of the first one is in the window. -/
theorem cutBack_ended {st : Statement} {ss : List Statement} {rest : List Byte}
    (hrest : ¬ [SEMICOLON, LF] <:+: rest) (pre tail : List Byte) {k : ℕ} (hk : st.bytes.length ≤ k)
    (hlen : k + 1 < (ended (st :: ss) ++ rest).length) :
    ∃ g ss', g ≠ [] ∧ st :: ss = g ++ ss' ∧
      cutBack (pre ++ (ended (st :: ss) ++ rest ++ tail)) pre.length (pre.length + k + 1) =
        .ok (pre ++ (joined g ++ 0 :: 0 :: (ended ss' ++ rest ++ tail)),
          pre.length + (ended g).length) := by
  induction k with
  | zero =>
    rcases cutBack_at hrest pre tail hlen with h | ⟨hne, -⟩
    · exact h
    · exact absurd (Nat.le_zero.mp hk).symm hne
  | succ k ih =>
    rcases cutBack_at hrest pre tail hlen with h | ⟨hne, hstep⟩
    · exact h
    · rw [hstep]
      exact ih (by omega) (by omega)

/-- Without an end the scan goes back to where it began. -/
theorem cutBack_rest {rest : List Byte} (hrest : ¬ [SEMICOLON, LF] <:+: rest) (pre tail : List Byte)
    {k : ℕ} (hk : k < rest.length) :
    cutBack (pre ++ (rest ++ tail)) pre.length (pre.length + k) =
      .ok (pre ++ (rest ++ tail), pre.length) := by
  induction k with
  | zero =>
    cases hpre : pre.length with
    | zero => rfl
    | succ n =>
      rw [Nat.add_zero, cutBack, if_neg (Nat.lt_irrefl _)]
      rfl
  | succ k ih =>
    obtain ⟨x, a, b, y, rfl, rfl⟩ := exists_split hk
    have hab : ¬ (b = LF ∧ a = SEMICOLON) := by
      rintro ⟨rfl, rfl⟩
      exact hrest ⟨x, y, by simp⟩
    have hstep := cutBack_step pre x (y ++ tail) a b
    rw [if_neg hab] at hstep
    have hassoc : x ++ a :: b :: y ++ tail = x ++ a :: b :: (y ++ tail) := by simp
    rw [hassoc, ← Nat.add_assoc, hstep, ← hassoc]
    exact ih (by omega)

/-! ## The loop -/

/-- The loop goes on exactly if the chunk succeeded. -/
theorem stops_iff (o : Outcome) (err : Option (Option String)) :
    ((executeSqlReal o err).1 ≠ AGC_STATUS_SUCCESS ∨ (executeSqlReal o err).2.any Option.isSome) ↔
      o.status ≠ .success := by
  cases hstatus : o.status with
  | success =>
    have hnone := o.errmsg_eq_none hstatus
    cases err <;> simp [executeSqlReal, odbcCode, hstatus, hnone, AGC_STATUS_SUCCESS]
  | fail => simp [executeSqlReal, odbcCode, hstatus, AGC_STATUS_SUCCESS]

/-- Behind the last end of a statement the loop executes nothing. -/
theorem chunkLoop_rest {rest : List Byte} (hrest : ¬ [SEMICOLON, LF] <:+: rest) (pre : List Byte)
    (db : Database) (r : Result) (fuel : ℕ) :
    chunkLoop db (pre.length + rest.length - 1) (fuel + 1) (pre ++ (rest ++ [0])) pre.length r =
      .ok r := by
  rw [chunkLoop]
  split_ifs with hlt
  · obtain ⟨k, hp, hk⟩ : ∃ k, min (pre.length + AGC_MAX_SQL_LEN) (pre.length + rest.length - 1) =
        pre.length + k ∧ k < rest.length := by
      refine ⟨min AGC_MAX_SQL_LEN (rest.length - 1), ?_, ?_⟩
      · omega
      · omega
    rw [hp, cutBack_rest hrest pre [0] hk]
    simp
  · rfl

/-- A round of the loop executes some statements that are ended. -/
theorem chunkLoop_ended {rest : List Byte} (hrest : ¬ [SEMICOLON, LF] <:+: rest)
    (st : Statement) (ss : List Statement) (pre : List Byte) :
    ∃ g ss', g ≠ [] ∧ st :: ss = g ++ ss' ∧ ∀ db r fuel,
      chunkLoop db (pre.length + (ended (st :: ss) ++ rest).length - 1) (fuel + 1)
          (pre ++ (ended (st :: ss) ++ rest ++ [0])) pre.length r =
        let (status, err) := executeSqlReal (db r.chunks (chunk g)) r.err
        let r' := ⟨status, err, r.chunks ++ [chunk g]⟩
        if (db r.chunks (chunk g)).status = .success then
          chunkLoop db ((pre ++ joined g ++ [0, 0]).length + (ended ss' ++ rest).length - 1) fuel
            (pre ++ joined g ++ [0, 0] ++ (ended ss' ++ rest ++ [0]))
            (pre ++ joined g ++ [0, 0]).length r'
        else .ok r' := by
  have hT : st.bytes.length + 2 ≤ (ended (st :: ss) ++ rest).length := by
    rw [ended_cons]
    simp
  have hst := st.length_lt
  obtain ⟨k, hp, hk, hlen⟩ : ∃ k, min (pre.length + AGC_MAX_SQL_LEN)
      (pre.length + (ended (st :: ss) ++ rest).length - 1) = pre.length + k + 1 ∧
      st.bytes.length ≤ k ∧ k + 1 < (ended (st :: ss) ++ rest).length := by
    refine ⟨min AGC_MAX_SQL_LEN ((ended (st :: ss) ++ rest).length - 1) - 1, ?_, ?_, ?_⟩
    · simp only [AGC_MAX_SQL_LEN]
      omega
    · simp only [AGC_MAX_SQL_LEN]
      omega
    · simp only [AGC_MAX_SQL_LEN]
      omega
  -- the scan goes back from there to the last end of a statement
  obtain ⟨g, ss', hg, hss, hcut⟩ := cutBack_ended hrest pre [0] hk hlen
  have hended := congrArg List.length (ended_eq hg)
  rw [List.length_append, List.length_cons, List.length_singleton] at hended
  have hlength := congrArg (fun ss => (ended ss).length) hss
  simp only [ended_append, List.length_append] at hlength
  -- two bytes are overwritten with nul, and the next round starts behind them
  have hpre : (pre ++ joined g ++ [0, 0]).length = pre.length + (ended g).length := by
    simp only [List.length_append, List.length_cons, List.length_nil, hended]
    omega
  have hend : (pre ++ joined g ++ [0, 0]).length + (ended ss' ++ rest).length - 1 =
      pre.length + (ended (st :: ss) ++ rest).length - 1 := by
    rw [hpre, List.length_append, List.length_append, hlength]
    omega
  have hstr : Buffer.str (pre ++ (joined g ++ 0 :: 0 :: (ended ss' ++ rest ++ [0]))) pre.length =
      chunk g := by
    rw [Buffer.str, List.drop_left]
    exact CStr.ofBuffer_bytes (chunk g) _
  refine ⟨g, ss', hg, hss, fun db r fuel => ?_⟩
  rw [chunkLoop, if_pos (by omega), hp, hcut, ok_bind]
  simp only [hstr, stops_iff]
  rw [if_neg (by omega), hend, hpre]
  simp only [ite_not]
  congr 1
  congr 1
  simp

/-- The loop executes the statements that are ended in chunks, and nothing of what is behind
them. -/
theorem chunkLoop_eq {rest : List Byte} (hrest : ¬ [SEMICOLON, LF] <:+: rest)
    (ss : List Statement) (pre : List Byte) :
    ∃ groups : List (List Statement), (∀ g ∈ groups, g ≠ []) ∧ groups.flatten = ss ∧
      ∀ db r, Returns (fun fuel => chunkLoop db (pre.length + (ended ss ++ rest).length - 1) fuel
        (pre ++ (ended ss ++ rest ++ [0])) pre.length r) (execAll db (groups.map chunk) r) := by
  induction hn : ss.length using Nat.strong_induction_on generalizing ss pre with
  | h n ih =>
    subst hn
    cases ss with
    | nil =>
      refine ⟨[], by simp, rfl, fun db r => ⟨1, fun k hk => ?_⟩⟩
      obtain ⟨k, rfl⟩ := Nat.exists_eq_add_of_le' hk
      exact chunkLoop_rest hrest pre db r k
    | cons st ss =>
      obtain ⟨g, ss', hg, hss, hround⟩ := chunkLoop_ended hrest st ss pre
      -- a round takes one statement at least
      have hlt : ss'.length < (st :: ss).length := by
        have := List.length_pos_of_ne_nil hg
        rw [hss, List.length_append]
        omega
      obtain ⟨groups, hne, hflat, hloop⟩ := ih ss'.length hlt ss' (pre ++ joined g ++ [0, 0]) rfl
      refine ⟨g :: groups, ?_, by rw [List.flatten_cons, hflat, hss], fun db r => ?_⟩
      · rintro g' (_ | ⟨_, hg'⟩)
        · exact hg
        · exact hne g' hg'
      · simp only [List.map_cons, execAll]
        split_ifs with hstatus
        · refine (hloop db _).succ fun k => ?_
          rw [hround]
          exact if_pos hstatus
        · refine (Returns.const _).succ fun k => ?_
          rw [hround]
          exact if_neg hstatus

/-- A long text is executed in chunks of whole statements, up to the last end of one. -/
theorem agcSqlExecuteSql_eq {text : CStr} {ss : List Statement} {rest : List Byte}
    (hlen : AGC_MAX_SQL_LEN ≤ text.bytes.length) (hrest : ¬ [SEMICOLON, LF] <:+: rest)
    (htext : text.bytes = ended ss ++ rest) :
    ∃ groups : List (List Statement), (∀ g ∈ groups, g ≠ []) ∧ groups.flatten = ss ∧
      ∀ db err, Returns (fun fuel => agcSqlExecuteSql db fuel text err)
        (execAll db (groups.map chunk) ⟨AGC_STATUS_FALSE, err, []⟩) := by
  obtain ⟨groups, hne, hflat, hloop⟩ := chunkLoop_eq hrest ss []
  refine ⟨groups, hne, hflat, fun db err => ?_⟩
  refine (hloop db ⟨AGC_STATUS_FALSE, err, []⟩).congr fun k => ?_
  have hstrlen : Buffer.strlen (text.bytes ++ [0]) = .ok text.bytes.length :=
    Buffer.strlen_append text.nul_notMem
  obtain ⟨b, bs, hb⟩ : ∃ b bs, text.bytes = b :: bs := by
    refine List.exists_cons_of_ne_nil fun hnil => ?_
    simp [hnil, AGC_MAX_SQL_LEN] at hlen
  have hget : Buffer.get (text.bytes ++ [0]) 0 = .ok b := by
    rw [hb]
    rfl
  have hb0 : b ≠ 0 := by
    rintro rfl
    exact text.nul_notMem (hb ▸ List.mem_cons_self)
  simp only [agcSqlExecuteSql, hstrlen, hget, ok_bind, if_neg (Nat.not_lt.mpr hlen), if_neg hb0]
  rw [htext]
  simp

/-! ## Scripts -/

variable {sc : Script}

theorem Script.length_text (sc : Script) :
    sc.text.bytes.length = (joined sc.statements).length + sc.ending.bytes.length :=
  List.length_append

theorem joined_snoc (ss : List Statement) (st : Statement) :
    joined (ss ++ [st]) = ended ss ++ st.bytes := by
  have h : ended (ss ++ [st]) = joined (ss ++ [st]) ++ [SEMICOLON, LF] := ended_eq (by simp)
  rw [ended_append, ended_cons] at h
  refine List.append_cancel_right (h.symm.trans ?_)
  simp [ended]

/-- A byte behind a text that has no end of a statement. -/
theorem not_infix_snoc {l : List Byte} {b : Byte} (h : ¬ [SEMICOLON, LF] <:+: l)
    (hb : b = LF → ¬ [SEMICOLON] <:+ l) : ¬ [SEMICOLON, LF] <:+: l ++ [b] := by
  rw [List.infix_concat_iff, List.suffix_concat_iff]
  rintro ((hnil | ⟨t, ht, hsuffix⟩) | hinfix)
  · cases hnil
  · have ht : [SEMICOLON] ++ [LF] = t ++ [b] := ht
    obtain ⟨hts, hlf⟩ := List.append_inj' ht rfl
    exact hb (List.singleton_inj.mp hlf).symm (hts ▸ hsuffix)
  · exact h hinfix

/-- The statements of a script that are ended: all of them, or all but the last one. A last
statement with a semicolon of its own is ended by a line feed. -/
theorem Script.exists_ended (sc : Script) (hne : sc.statements ≠ []) : ∃ ss rest,
    ¬ [SEMICOLON, LF] <:+: rest ∧ sc.text.bytes = ended ss ++ rest ∧
    (sc.ending = .both → sc.statements = ss) ∧
    (∀ init st, sc.statements = init ++ [st] → sc.ending ≠ .both → st.bytes = [] → ss = init) := by
  obtain ⟨ss, ending⟩ := sc
  obtain ⟨init, last, rfl⟩ := (List.eq_nil_or_concat' ss).resolve_left hne
  have hinit : ∀ init' st, init ++ [last] = init' ++ [st] → init = init' ∧ last = st := by
    intro init' st h
    obtain ⟨hinit, hlast⟩ := List.append_inj' h rfl
    exact ⟨hinit, List.singleton_inj.mp hlast⟩
  cases ending with
  | nothing =>
    refine ⟨init, last.bytes, last.whole, ?_, by simp, fun init' st h _ _ => (hinit init' st h).1⟩
    simp [Script.text, joined_snoc, Ending.bytes]
  | semicolon =>
    refine ⟨init, last.bytes ++ [SEMICOLON],
      not_infix_snoc last.whole fun h => absurd h (by decide), ?_, by simp,
      fun init' st h _ _ => (hinit init' st h).1⟩
    simp [Script.text, joined_snoc, Ending.bytes]
  | lineFeed =>
    by_cases hsuffix : [SEMICOLON] <:+ last.bytes
    · -- the semicolon at the end of the statement and the line feed make an end
      obtain ⟨l, hl⟩ := hsuffix
      have hmem : ∀ b ∈ l, b ∈ last.bytes := fun b hb => hl ▸ List.mem_append_left _ hb
      have hlength := congrArg List.length hl
      rw [List.length_append] at hlength
      have hlt := last.length_lt
      let st : Statement := ⟨l, fun h => last.nul_notMem (hmem 0 h), by omega,
        fun h => last.whole (h.trans ⟨[], [SEMICOLON], hl⟩)⟩
      refine ⟨init ++ [st], [], by simp, ?_, by simp, fun init' st' h _ hnil => ?_⟩
      · simp [Script.text, joined_snoc, Ending.bytes, ended, st, ← hl]
      · rw [(hinit init' st' h).2, hnil] at hl
        simp at hl
    · refine ⟨init, last.bytes ++ [LF], not_infix_snoc last.whole fun _ => hsuffix, ?_, by simp,
        fun init' st h _ _ => (hinit init' st h).1⟩
      simp [Script.text, joined_snoc, Ending.bytes]
  | both =>
    refine ⟨init ++ [last], [], by simp, ?_, by simp, by simp⟩
    simp [Script.text, joined_snoc, Ending.bytes, ended]

/-- The length of chunks with their ends. -/
def size (chunks : List CStr) : ℕ := (chunks.map fun sql => sql.bytes.length + 2).sum

theorem length_ended {g : List Statement} (hg : g ≠ []) :
    (ended g).length = (joined g).length + 2 := by
  rw [ended_eq hg, List.length_append]
  rfl

theorem size_map_chunk {groups : List (List Statement)} (hne : ∀ g ∈ groups, g ≠ []) :
    size (groups.map chunk) = (ended groups.flatten).length := by
  induction groups with
  | nil => rfl
  | cons g groups ih =>
    have hg := length_ended (hne g List.mem_cons_self)
    have ih := ih fun g hg => hne g (List.mem_cons_of_mem _ hg)
    simp only [size, List.map_cons, List.sum_cons, chunk] at ih ⊢
    rw [List.flatten_cons, ended_append, List.length_append, hg, ih]

/-- Chunks are not shorter than the statements that they have. -/
theorem length_le_size {chunks : List CStr} {groups : List (List Statement)}
    (h : List.Forall₂ Has chunks groups) : (ended groups.flatten).length ≤ size chunks := by
  induction h with
  | nil => exact Nat.le_refl 0
  | @cons sql g chunks groups hhas _ ih =>
    obtain ⟨hg, ending, hsql⟩ := hhas
    rw [List.flatten_cons, ended_append, List.length_append, length_ended hg]
    simp only [size, List.map_cons, List.sum_cons, hsql, List.length_append] at ih ⊢
    omega

theorem has_map_chunk {groups : List (List Statement)} (hne : ∀ g ∈ groups, g ≠ []) :
    List.Forall₂ Has (groups.map chunk) groups := by
  refine List.forall₂_map_left_iff.mpr (List.forall₂_same.mpr fun g hg => ?_)
  exact ⟨hne g hg, .nothing, by simp [chunk, Ending.bytes]⟩

/-- A script whose ended statements are all of it, but for an empty one, is executed. -/
theorem Script.faithful_of_ended {ss : List Statement} {rest : List Byte}
    (hlen : AGC_MAX_SQL_LEN ≤ sc.text.bytes.length) (hrest : ¬ [SEMICOLON, LF] <:+: rest)
    (htext : sc.text.bytes = ended ss ++ rest) (hss : ss ≠ [])
    (hall : sc.statements = ss ∨ ∃ st : Statement, st.bytes = [] ∧ sc.statements = ss ++ [st]) :
    sc.Faithful := by
  obtain ⟨groups, hne, rfl, hret⟩ := agcSqlExecuteSql_eq hlen hrest htext
  have hexecuted : sc.Executed (groups.map chunk) := ⟨groups, has_map_chunk hne, hall⟩
  have hgroups : groups.map chunk ≠ [] := by
    rintro hnil
    rw [List.map_eq_nil_iff.mp hnil] at hss
    exact hss rfl
  intro db err
  refine ⟨_, hret db err, ?_⟩
  -- either all chunks are executed, or the loop stops at the first that fails
  rcases execAll_cases db (groups.map chunk) ⟨AGC_STATUS_FALSE, err, []⟩ with
    ⟨hchunks, hstatus, hsucceed⟩ | ⟨before, sql, after, hsplit, hchunks, hstatus, hfail, hbefore⟩
  · rw [List.nil_append] at hchunks
    rw [hchunks]
    refine ⟨fun _ => hexecuted, fun _ => ⟨hexecuted, hsucceed⟩, ?_⟩
    intro done sql rest heq hfail
    have := hsucceed done sql rest heq
    simp [hfail] at this
  · rw [List.nil_append] at hchunks
    rw [hchunks, hstatus]
    refine ⟨fun hok => ?_, fun h => absurd h (by decide), ?_⟩
    · rw [hok] at hfail
      cases hfail
    · intro done sql' rest heq hfail'
      rcases Trace.snoc_eq_append_cons heq with ⟨-, -, rfl⟩ | ⟨q, -, rfl⟩
      · exact ⟨rfl, rfl⟩
      · have := hbefore done sql' q rfl
        simp [hfail'] at this

/-- A database that executes everything. -/
def Database.good : Database := fun _ _ => ⟨.success, none, fun _ => rfl⟩

theorem execAll_good (chunks : List CStr) (r : Result) :
    (execAll .good chunks r).chunks = r.chunks ++ chunks := by
  rcases execAll_cases .good chunks r with ⟨hchunks, -⟩ | ⟨_, _, _, -, -, -, hfail, -⟩
  · exact hchunks
  · cases hfail

theorem Ending.length_le (ending : Ending) : ending.bytes.length ≤ 2 := by
  cases ending <;> decide

/-- A long script has statements other than one that is empty. -/
theorem Script.ne_nil_of_length (hlen : AGC_MAX_SQL_LEN ≤ sc.text.bytes.length)
    {init : List Statement} {st : Statement} (hst : st.bytes = [])
    (h : sc.statements = init ++ [st]) : init ≠ [] := by
  rintro rfl
  have hending := sc.ending.length_le
  rw [sc.length_text, h, joined_snoc, hst] at hlen
  simp [ended, AGC_MAX_SQL_LEN] at hlen
  omega

theorem Script.statements_ne_nil (hlen : AGC_MAX_SQL_LEN ≤ sc.text.bytes.length) :
    sc.statements ≠ [] := by
  intro hnil
  have hending := sc.ending.length_le
  rw [sc.length_text, hnil] at hlen
  simp [joined, AGC_MAX_SQL_LEN] at hlen
  omega

/-- The last statement of a long script that is executed is ended or empty. -/
theorem Script.of_faithful (hlen : AGC_MAX_SQL_LEN ≤ sc.text.bytes.length) (h : sc.Faithful) :
    sc.ending = .both ∨ ∃ st ∈ sc.statements.getLast?, st.bytes = [] := by
  have hne := statements_ne_nil hlen
  obtain ⟨ss, rest, hrest, htext, -, -⟩ := sc.exists_ended hne
  obtain ⟨groups, hgroups, rfl, hret⟩ := agcSqlExecuteSql_eq hlen hrest htext
  obtain ⟨r, hr, hexecuted, -⟩ := h .good none
  obtain rfl := hr.unique (hret .good none)
  obtain ⟨groups', hhas, hall | ⟨st, hst, hall⟩⟩ := hexecuted fun _ _ => rfl
  · -- the chunks with their ends are no longer than the text, but the statements with theirs are
    have hsize := length_le_size hhas
    rw [execAll_good, List.nil_append, size_map_chunk hgroups, ← hall, length_ended hne] at hsize
    have hlength := congrArg List.length htext
    rw [sc.length_text, List.length_append] at hlength
    have hending : 2 ≤ sc.ending.bytes.length := by omega
    refine Or.inl ?_
    cases hcase : sc.ending with
    | both => rfl
    | nothing | semicolon | lineFeed => simp [hcase, Ending.bytes] at hending
  · exact Or.inr ⟨st, by simp [hall], hst⟩

/-- A long script is executed in chunks exactly if its last statement has a semicolon and a line
feed behind it, or is empty. -/
theorem sql_chunks_iff (sc : Script) (hlen : AGC_MAX_SQL_LEN ≤ sc.text.bytes.length) :
    sc.Faithful ↔ sc.ending = .both ∨ ∃ st ∈ sc.statements.getLast?, st.bytes = [] := by
  refine ⟨Script.of_faithful hlen, fun h => ?_⟩
  have hne := Script.statements_ne_nil hlen
  obtain ⟨ss, rest, hrest, htext, hboth, hempty⟩ := sc.exists_ended hne
  by_cases hending : sc.ending = .both
  · have hss := hboth hending
    exact sc.faithful_of_ended hlen hrest htext (hss ▸ hne) (Or.inl hss)
  · obtain ⟨st, hlast, hst⟩ := h.resolve_left hending
    obtain ⟨init, hinit⟩ := List.getLast?_eq_some_iff.mp hlast
    obtain rfl := hempty init st hinit hending hst
    exact sc.faithful_of_ended hlen hrest htext (sc.ne_nil_of_length hlen hst hinit)
      (Or.inr ⟨st, hst, hinit⟩)

/-- A statement of one letter, as often as is asked for. -/
def sampleStatement (n : ℕ) (hn : n < 32766) : Statement where
  bytes := List.replicate n 97
  nul_notMem h := absurd (List.eq_of_mem_replicate h) (by decide)
  length_lt := by simpa using hn
  whole h := absurd (List.eq_of_mem_replicate (h.mem (a := LF) (by decide))) (by decide)

theorem length_sampleStatement (n : ℕ) (hn : n < 32766) :
    (sampleStatement n hn).bytes.length = n := List.length_replicate

theorem le_length_joined (st : Statement) (hst : st.bytes.length = 20000) (ending : Ending) :
    AGC_MAX_SQL_LEN ≤ (joined ([st] ++ [st])).length + ending.bytes.length := by
  rw [joined_snoc, ended_cons]
  simp only [List.length_append, List.length_cons, hst, AGC_MAX_SQL_LEN]
  omega

/-- Two statements of 20000 bytes. -/
def sampleScript (ending : Ending) : Script where
  statements := [sampleStatement 20000 (by decide)] ++ [sampleStatement 20000 (by decide)]
  ending := ending

theorem length_sampleScript (ending : Ending) :
    AGC_MAX_SQL_LEN ≤ (sampleScript ending).text.bytes.length := by
  rw [Script.length_text]
  exact le_length_joined _ (length_sampleStatement 20000 (by decide)) ending

theorem sql_chunks_both : (sampleScript .both).Faithful :=
  (sql_chunks_iff (sampleScript .both) (length_sampleScript .both)).mpr (Or.inl rfl)

/-- Without anything behind it the last statement is lost. -/
theorem sql_chunks_nothing : ¬ (sampleScript .nothing).Faithful := by
  intro h
  rcases Script.of_faithful (length_sampleScript .nothing) h with hending | ⟨st, hst, hnil⟩
  · cases hending
  · obtain rfl : sampleStatement 20000 (by decide) = st := Option.some.inj hst
    have hlength := length_sampleStatement 20000 (by decide)
    rw [hnil] at hlength
    exact absurd hlength (by decide)

end SqlChunks
