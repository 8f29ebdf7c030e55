import AgcFramework.Utils.Words
import AgcFramework.Types

/-!
# Commands from a text

A text of commands is cut at its semicolons, and each part into the id of a stream, a command and
its argument. What the API function of a command does is not looked at here.

## Main definitions

* `parseAndExec`: `parse_and_exec` of `agc_api.c`
* `agcParseExecute`: `agc_parse_execute`
* `Command`: a part of a text that has a command

## Main results

* `parseAndExec_text`: the part of a text with a command is one call
* `parse_execute_commands`: a text of commands is their calls, in order
-/

open Exec

namespace Api

open Separate

/-- A call of `agc_api_execute`. -/
structure ApiCall where
  cmd : CStr
  arg : Option CStr
  /-- The id of the stream. -/
  uuid : CStr
  deriving DecidableEq

/-- A string is cut at the first place of a byte, which becomes a NUL: what is before it and what is
behind it. -/
def cut (c : Byte) (s : CStr) : CStr × Option CStr :=
  match s.bytes.dropWhile (· ≠ c) with
  | [] => (s, none)
  | _ :: rest => (CStr.ofBuffer (s.bytes.takeWhile (· ≠ c)), some (CStr.ofBuffer rest))

/-- The cut of the string behind a pointer; `strchr` reads a null pointer. -/
def cutPtr (c : Byte) : Option CStr → Exec (Option CStr × Option CStr)
  | none => .error .fault
  | some s => pure (some (cut c s).1, (cut c s).2)

def CR : Byte := 13
def LF : Byte := 10

/-- The text up to its first carriage return, or else up to its first line feed. -/
def firstLine (s : CStr) : CStr :=
  match cut CR s with
  | (line, some _) => line
  | (_, none) => (cut LF s).1

/-- `parse_and_exec`: the status, and the call of `agc_api_execute` if there is one. -/
def parseAndExec (xcmd : CStr) : Exec (AgcStatus × Option ApiCall) := do
  let (uuid, cmd) := cut SPACE (firstLine xcmd)
  -- the command is looked at before it is tested
  let (cmd, arg) ← cutPtr SPACE cmd
  match cmd with
  | none => pure (.false, none)
  | some cmd => pure (.success, some ⟨cmd, arg, uuid⟩)

/-- `;`. -/
def SEMICOLON : Byte := 59

/-- `agc_parse_execute`: for each part of the text the status that is logged and the call. -/
def agcParseExecute (fuel : ℕ) (xcmd : CStr) : Exec (List (AgcStatus × Option ApiCall)) := do
  let (buf, argv) ← agcSeparateString fuel (xcmd.bytes ++ [0]) SEMICOLON 100
  argv.mapM fun q => parseAndExec (Buffer.str buf q)

/-! ## Parts of a text -/

/-- A byte that has a meaning of its own. -/
def special : List Byte := [0, ESCAPE_META, QUOTE, DQUOTE, CR, LF, SEMICOLON]

/-- A text without bytes of a meaning of their own. -/
structure Plain where
  bytes : List Byte
  plain : ∀ b ∈ bytes, b ∉ special

/-- A word of such a text. -/
structure Word extends Plain where
  ne_nil : bytes ≠ []
  space_notMem : SPACE ∉ bytes

/-- A part of a text that has a command: the id of a stream, the command, and perhaps its
arguments. -/
structure Command where
  uuid : Word
  cmd : Word
  args : Option Plain

def Plain.toCStr (p : Plain) : CStr where
  bytes := p.bytes
  nul_notMem h := p.plain 0 h (by decide)

def Command.text (c : Command) : List Byte :=
  c.uuid.bytes ++ SPACE :: (c.cmd.bytes ++ (c.args.elim [] fun args => SPACE :: args.bytes))

/-- The arguments without the spaces at their end, if there is anything else. -/
def Plain.trimmed (p : Plain) : Option Plain :=
  if p.bytes.rdropWhile (· = SPACE) = [] then none
  else some ⟨p.bytes.rdropWhile (· = SPACE),
    fun b hb => p.plain b ((List.rdropWhile_prefix _ _).mem hb)⟩

/-- The command without the spaces at its end. -/
def Command.trimmed (c : Command) : Command := { c with args := c.args.bind Plain.trimmed }

/-- The call for a command. -/
def Command.call (c : Command) : ApiCall where
  cmd := c.cmd.toCStr
  arg := c.args.map Plain.toCStr
  uuid := c.uuid.toCStr

/-- The commands with semicolons between them. -/
def textOf (cs : List Command) : List Byte := [SEMICOLON].intercalate (cs.map Command.text)

variable {b : Byte} {c : Command} {s rest : List Byte}

/-! ## Cutting strings -/

theorem cut_append {w : List Byte} (h0 : 0 ∉ w ++ b :: rest) (hb : b ∉ w) :
    cut b ⟨w ++ b :: rest, h0⟩ =
      (⟨w, fun h => h0 (List.mem_append_left _ h)⟩,
        some ⟨rest, fun h => h0 (List.mem_append_right _ (List.mem_cons_of_mem _ h))⟩) := by
  have hall : ∀ a ∈ w, decide (a ≠ b) = true := by
    intro a ha
    simp only [decide_eq_true_eq]
    rintro rfl
    exact hb ha
  have hdrop : (w ++ b :: rest).dropWhile (· ≠ b) = b :: rest := by
    rw [List.dropWhile_append_of_pos hall]
    simp
  have htake : (w ++ b :: rest).takeWhile (· ≠ b) = w := by
    rw [List.takeWhile_append_of_pos hall]
    simp
  have hw : 0 ∉ w := fun h => h0 (List.mem_append_left _ h)
  have hr : 0 ∉ rest := fun h => h0 (List.mem_append_right _ (List.mem_cons_of_mem _ h))
  simp only [cut, hdrop, htake]
  rw [CStr.ofBuffer_self ⟨w, hw⟩, CStr.ofBuffer_self ⟨rest, hr⟩]

theorem cut_of_notMem {t : CStr} (hb : b ∉ t.bytes) : cut b t = (t, none) := by
  have hdrop : t.bytes.dropWhile (· ≠ b) = [] := by
    refine List.dropWhile_eq_nil_iff.mpr fun a ha => ?_
    simp only [decide_eq_true_eq]
    rintro rfl
    exact hb ha
  simp only [cut, hdrop]

theorem firstLine_eq {t : CStr} (hcr : CR ∉ t.bytes) (hlf : LF ∉ t.bytes) : firstLine t = t := by
  simp only [firstLine, cut_of_notMem hcr, cut_of_notMem hlf]

/-! ## One part -/

theorem Command.notMem_text (c : Command) (hb : b ∈ special) : b ∉ c.text := by
  have hspace : b ≠ SPACE := by
    rintro rfl
    exact absurd hb (by decide)
  have hplain : ∀ p : Plain, b ∉ p.bytes := fun p h => p.plain b h hb
  cases hargs : c.args with
  | none => simp [Command.text, hargs, hspace, hplain]
  | some args => simp [Command.text, hargs, hspace, hplain]

/-- The text as a string. -/
def Command.toCStr (c : Command) : CStr := ⟨c.text, c.notMem_text (by decide)⟩

/-- What is behind the id of the stream. -/
def Command.tail (c : Command) : List Byte :=
  c.cmd.bytes ++ c.args.elim [] fun args => SPACE :: args.bytes

theorem Command.nul_notMem_tail (c : Command) : 0 ∉ c.tail := fun h =>
  c.notMem_text (b := 0) (by decide) (List.mem_append_right _ (List.mem_cons_of_mem _ h))

theorem cut_tail (c : Command) : cut SPACE ⟨c.tail, c.nul_notMem_tail⟩ =
    (c.cmd.toCStr, c.args.map Plain.toCStr) := by
  have h0 := c.nul_notMem_tail
  obtain ⟨uuid, cmd, args⟩ := c
  cases args with
  | none =>
    have htail : Command.tail ⟨uuid, cmd, none⟩ = cmd.bytes := by simp [Command.tail]
    simp only [htail]
    exact cut_of_notMem cmd.space_notMem
  | some args => exact cut_append h0 cmd.space_notMem

/-- A command is one call. -/
theorem parseAndExec_text (c : Command) : parseAndExec c.toCStr = .ok (.success, some c.call) := by
  have hline : firstLine c.toCStr = c.toCStr :=
    firstLine_eq (c.notMem_text (by decide)) (c.notMem_text (by decide))
  have huuid : cut SPACE c.toCStr = (c.uuid.toCStr, some ⟨c.tail, c.nul_notMem_tail⟩) :=
    cut_append (c.notMem_text (by decide)) c.uuid.space_notMem
  simp only [parseAndExec, hline, huuid, cutPtr, cut_tail, pure_eq_ok, ok_bind]
  rfl

theorem rdropWhile_word (w : Word) : w.bytes.rdropWhile (· = SPACE) = w.bytes := by
  rw [List.rdropWhile_eq_self_iff]
  intro hne hlast
  simp only [decide_eq_true_eq] at hlast
  exact w.space_notMem (hlast ▸ List.getLast_mem hne)

/-- The second pass takes the spaces at the end of a command. -/
theorem trim_text (c : Command) : trim c.text = c.trimmed.text := by
  have hdrop : c.text.dropWhile (· = SPACE) = c.text := by
    obtain ⟨b, w, hw⟩ := List.exists_cons_of_ne_nil c.uuid.ne_nil
    have hb : b ≠ SPACE := by
      rintro rfl
      exact c.uuid.space_notMem (hw ▸ List.mem_cons_self)
    rw [Command.text, hw, List.cons_append]
    exact List.dropWhile_cons_of_neg (by simpa using hb)
  have hcmd : (c.uuid.bytes ++ SPACE :: c.cmd.bytes).rdropWhile (· = SPACE) =
      c.uuid.bytes ++ SPACE :: c.cmd.bytes := by
    have happend : c.uuid.bytes ++ SPACE :: c.cmd.bytes =
        (c.uuid.bytes ++ [SPACE]) ++ c.cmd.bytes := by simp
    rw [happend, rdropWhile_append, rdropWhile_word, if_neg c.cmd.ne_nil]
  rw [trim, hdrop]
  obtain ⟨uuid, cmd, args⟩ := c
  cases args with
  | none => simpa [Command.text, Command.trimmed] using hcmd
  | some args =>
    have htext : Command.text ⟨uuid, cmd, some args⟩ =
        (uuid.bytes ++ SPACE :: cmd.bytes) ++ (SPACE :: args.bytes) := by simp [Command.text]
    rw [htext, rdropWhile_append, rdropWhile_cons, hcmd]
    by_cases hnil : args.bytes.rdropWhile (· = SPACE) = []
    · simp [hnil, Command.trimmed, Plain.trimmed, Command.text]
    · simp [hnil, Command.trimmed, Plain.trimmed, Command.text]

/-! ## A text of commands -/

theorem textOf_cons (c c' : Command) (cs : List Command) :
    textOf (c :: c' :: cs) = c.text ++ SEMICOLON :: textOf (c' :: cs) := by
  simp [textOf]

theorem notMem_textOf (hb : b ∈ special) (hsemi : b ≠ SEMICOLON) (cs : List Command) :
    b ∉ textOf cs := by
  induction cs with
  | nil => simp [textOf]
  | cons c cs ih =>
    have hc := c.notMem_text hb
    cases cs with
    | nil => simpa [textOf] using hc
    | cons c' cs => simp [textOf_cons, hc, hsemi, ih]

/-- A text of commands as a string. -/
def textCStr (cs : List Command) : CStr :=
  ⟨textOf cs, notMem_textOf (by decide) (by decide) cs⟩

theorem Command.text_ne_nil (c : Command) : c.text ≠ [] := by simp [Command.text]

/-- The semicolons cut a text into its commands. -/
theorem tokens_textOf {cs : List Command} (hlen : cs.length ≤ 100) :
    tokens SEMICOLON 100 (textOf cs) = cs.map Command.text := by
  by_cases hne : cs = []
  · subst hne
    rfl
  · refine tokens_intercalate (by decide) (by simpa using hne) ?_ (by simpa using hlen) ?_
    · intro p hp
      obtain ⟨c, -, rfl⟩ := List.mem_map.mp hp
      exact scan_plain (c.notMem_text (by decide)) (c.notMem_text (by decide))
        (c.notMem_text (by decide))
    · intro p hp
      rw [List.getLast?_map] at hp
      obtain ⟨c, -, rfl⟩ := Option.mem_map.mp hp
      exact c.text_ne_nil

/-- The second pass over the text of a command. -/
theorem clean_text (c : Command) : clean SEMICOLON c.text = c.trimmed.text := by
  rw [clean_plain _ (c.notMem_text (by decide)) (c.notMem_text (by decide)), trim_text]

/-- The parts that a text is cut into. -/
def parts (text : CStr) : List CStr :=
  let (d, s) := delimAndText SEMICOLON text.bytes
  (tokens d 100 s).map fun t => CStr.ofBuffer (clean (cleanupDelim d) t)

/-- The parts of a text without backslashes are executed one after the other. -/
theorem agcParseExecute_leads (text : CStr) (hesc : ESCAPE_META ∉ text.bytes) :
    Leads (fun fuel => agcParseExecute fuel text) fun _ => (parts text).mapM parseAndExec := by
  rcases hds : delimAndText SEMICOLON text.bytes with ⟨d, s⟩
  obtain ⟨pre, -, hpre⟩ := textAndDelim_eq text.nul_notMem SEMICOLON
  rw [hds] at hpre
  have hpend : pending false s = false :=
    pending_plain fun h => hesc (hpre ▸ List.mem_append_right _ h)
  obtain ⟨buf, argv, ⟨n, hret⟩, -, hmap, -⟩ :=
    (agcSeparateString_spec text SEMICOLON (by decide : 100 ≠ 0) hds).1 (Or.inl hpend)
  have hstr : argv.map (Buffer.str buf) = parts text := by
    have hbytes := congrArg (List.map CStr.ofBuffer) hmap
    simpa [parts, hds, Function.comp_def] using hbytes
  refine ⟨n, fun k => ?_⟩
  simp only [agcParseExecute, hret (k + n) (Nat.le_add_left n k), ok_bind]
  rw [← hstr, List.mapM_map]
  rfl

/-- The parts of a text of commands are the commands without the spaces at their ends. -/
theorem parts_textCStr {cs : List Command} (hlen : cs.length ≤ 100)
    (hcaret : ¬ [CARET, CARET] <+: textOf cs) :
    parts (textCStr cs) = cs.map fun c => c.trimmed.toCStr := by
  have hclean : ∀ c : Command, CStr.ofBuffer (clean SEMICOLON c.text) = c.trimmed.toCStr := by
    intro c
    rw [clean_text]
    exact CStr.ofBuffer_self c.trimmed.toCStr
  simp only [parts, textCStr, delimAndText_eq hcaret, tokens_textOf hlen, List.map_map]
  exact List.map_congr_left fun c _ => hclean c

/-- A text of at most 100 commands, which does not name another delimiter, is their calls in order.
The spaces at the end of an argument are not a part of it. -/
theorem parse_execute_commands (cs : List Command) (hlen : cs.length ≤ 100)
    (hcaret : ¬ [CARET, CARET] <+: textOf cs) :
    Returns (fun fuel => agcParseExecute fuel (textCStr cs))
      (cs.map fun c => (.success, some c.trimmed.call)) := by
  have hesc : ESCAPE_META ∉ textOf cs := notMem_textOf (by decide) (by decide) cs
  refine (agcParseExecute_leads (textCStr cs) hesc).returns ((Returns.const _).congr fun _ => ?_)
  rw [parts_textCStr hlen hcaret, List.mapM_map]
  exact mapM_eq_ok cs fun c _ => parseAndExec_text c.trimmed

/-- The command `u c`, with an argument or without one. -/
def sampleCommand (args : Option Plain) : Command where
  uuid := ⟨⟨[117], List.forall_mem_singleton.mpr (by decide)⟩, by decide, by decide⟩
  cmd := ⟨⟨[99], List.forall_mem_singleton.mpr (by decide)⟩, by decide, by decide⟩
  args := args

/-- The text `u c;u c a`. -/
theorem parse_execute_commands_two :
    Returns (fun fuel => agcParseExecute fuel (textCStr
        [sampleCommand none,
          sampleCommand (some ⟨[97], List.forall_mem_singleton.mpr (by decide)⟩)]))
      [(.success, some ⟨⟨[99], by decide⟩, none, ⟨[117], by decide⟩⟩),
        (.success, some ⟨⟨[99], by decide⟩, some ⟨[97], by decide⟩, ⟨[117], by decide⟩⟩)] :=
  parse_execute_commands [sampleCommand none,
    sampleCommand (some ⟨[97], List.forall_mem_singleton.mpr (by decide)⟩)] (by decide) (by decide)

/-- What a text without backslashes returns is what its parts return. -/
theorem parts_of_returns {text : CStr} (hesc : ESCAPE_META ∉ text.bytes)
    {calls : List (AgcStatus × Option ApiCall)}
    (h : Returns (fun fuel => agcParseExecute fuel text) calls) :
    (parts text).mapM parseAndExec = .ok calls := by
  obtain ⟨n, hn⟩ := agcParseExecute_leads text hesc
  obtain ⟨m, hm⟩ := h
  exact (hn m).symm.trans (hm (m + n) (Nat.le_add_right m n))

/-- There are never more calls than the array has places. -/
theorem length_le_of_returns {text : CStr} (hesc : ESCAPE_META ∉ text.bytes)
    {calls : List (AgcStatus × Option ApiCall)}
    (h : Returns (fun fuel => agcParseExecute fuel text) calls) : calls.length ≤ 100 := by
  rw [length_of_mapM (parts_of_returns hesc h), parts, List.length_map]
  exact length_tokens_le _ _ _

/-- Texts whose calls are not those of their commands: `u`, which has none; `u c a ` with a space at
its end; `^^,u c`, which names a delimiter; and a text of 101 commands. -/
theorem parse_execute_other :
    Faults (fun fuel => agcParseExecute fuel ⟨[117], by decide⟩) ∧
    ¬ Returns (fun fuel => agcParseExecute fuel ⟨[117, SPACE, 99, SPACE, 97, SPACE], by decide⟩)
      [(.success, some ⟨⟨[99], by decide⟩, some ⟨[97, SPACE], by decide⟩, ⟨[117], by decide⟩⟩)] ∧
    ¬ Returns (fun fuel => agcParseExecute fuel ⟨[CARET, CARET, 44, 117, SPACE, 99], by decide⟩)
      [(.success, some ⟨⟨[99], by decide⟩, none, ⟨[CARET, CARET, 44, 117], by decide⟩⟩)] ∧
    ¬ Returns (fun fuel =>
      agcParseExecute fuel (textCStr (List.replicate 101 (sampleCommand none))))
      (List.replicate 101 (.success, some (sampleCommand none).call)) := by
  refine ⟨?_, fun h => ?_, fun h => ?_, fun h => ?_⟩
  · exact (agcParseExecute_leads _ (by decide)).faults ⟨0, fun _ _ => rfl⟩
  · exact absurd (parts_of_returns (by decide) h) (by decide)
  · exact absurd (parts_of_returns (by decide) h) (by decide)
  · have hlen := length_le_of_returns (notMem_textOf (by decide) (by decide) _) h
    simp at hlen

end Api
