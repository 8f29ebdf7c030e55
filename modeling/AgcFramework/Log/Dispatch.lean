import Mathlib.Data.List.ReduceOption
import AgcFramework.Lib.Trace

/-!
# The dispatch of log messages

A message goes through three filters on its way to a logger: `runtime.hard_log_level` at the start
of `agc_log_vprintf`, `MAX_LOG_LEVEL` before the queue, and the level of the logger in the log
thread. Binding a logger raises the first two, and nothing lowers them again. `MAX_LOG_LEVEL` is a
byte, so that it follows the level of a logger only as far as a byte goes.

## Main definitions

* `LogState.step`: binding, unbinding, logging, an iteration of the log thread, and the shutdown
* `LogState.bound`: the loggers that a history of calls leaves bound
* `LogState.entries`, `LogState.handings`: the messages that entered the queue along a run, and
  those that the log thread took out of it, with the loggers bound at that moment

## Main results

* `LogState.Inv.run`: the thresholds and the counters in every state reached
* `LogState.dispatch_of_run`: thresholds, counters, and who is handed which message
-/

open Trace

/-- `AGC_LOG_CRIT`. -/
def AGC_LOG_CRIT : ℕ := 2

/-- `AGC_LOG_DEBUG`. -/
def AGC_LOG_DEBUG : ℕ := 7

/-- `AGC_LOG_INVALID`. -/
def AGC_LOG_INVALID : ℕ := 64

/-- `AGC_LOG_UNINIT`. -/
def AGC_LOG_UNINIT : ℕ := 1000

/-- `AGC_LOG_QUEUE_LEN`. -/
def AGC_LOG_QUEUE_LEN : ℕ := 100000

/-- `agc_log_type_t`. -/
inductive LogType
  | log
  | session
  deriving DecidableEq, Repr

/-- The texts of `LEVELS`. -/
def LEVELS : List String :=
  ["CONSOLE", "ALERT", "CRIT", "ERR", "WARNING", "NOTICE", "INFO", "DEBUG"]

/-- `agc_log_level2str`. -/
def agcLogLevel2str (level : ℕ) : String :=
  LEVELS.getD (if AGC_LOG_DEBUG < level then AGC_LOG_DEBUG else level) ""

/-- `agc_cut_path`: what follows the last slash, or the last backslash if there is one. -/
def agcCutPath (s : String) : String :=
  ['/', Char.ofNat 92].foldl
    (fun ret d =>
      if d ∈ s.toList then String.ofList (s.toList.reverse.takeWhile (· ≠ d)).reverse else ret) s

/-- `agc_set_string`, into a buffer of the given size. -/
def agcSetString (size : ℕ) (src : String) : String := String.ofList (src.toList.take (size - 1))

/-- An `agc_log_node_t`. -/
structure LogNode where
  data : String
  file : String
  func : String
  line : ℕ
  level : ℕ
  timestamp : ℕ
  type : LogType

/-- The arguments of a call of `agc_log_vprintf`, the time it reads, and how formatting and the
console answer. The level is one that the function's assertion lets pass. -/
structure LogCall where
  type : LogType
  file : Option String
  func : Option String
  line : ℕ
  level : ℕ
  level_lt : level < AGC_LOG_INVALID
  fmt : String
  now : ℕ
  /-- The local time, as text. -/
  date : String
  /-- `agc_vasprintf` with the arguments of the call; `none` when it fails. -/
  vasprintf : String → Option String
  /-- Whether `runtime.console` is there and can be written to. -/
  writable : Bool

namespace LogCall

def filep (c : LogCall) : String := (c.file.map agcCutPath).getD ""

def funcp (c : LogCall) : String := c.func.getD ""

/-- The format with the date, the level and the place in front. -/
def fullFmt (c : LogCall) : String :=
  let len := 16 + c.date.length + c.filep.length + 32 + c.fmt.length
  agcSetString len
    (c.date ++ " [" ++ agcLogLevel2str c.level ++ "] " ++ c.filep ++ ":" ++ toString c.line ++
      " " ++ c.fmt)

/-- The node that is put into the queue. -/
def node (c : LogCall) (data : String) : LogNode where
  data := data
  file := agcSetString 80 c.filep
  func := agcSetString 80 c.funcp
  line := c.line
  level := c.level
  timestamp := c.now
  type := c.type

end LogCall

/-- An `agc_log_binding_t`; the type `F` is that of the loggers' functions. -/
structure LogBinding (F : Type) where
  function : F
  level : ℕ
  isConsole : Bool
  deriving DecidableEq

/-- The variables of `agc_log.c`, `runtime.hard_log_level`, and what the loggers and the console
were given. -/
structure LogState (F : Type) where
  /-- `LOGGER_BINDINGS`. -/
  bindings : List (LogBinding F)
  /-- `MAX_LOG_LEVEL`, a byte. -/
  maxLogLevel : ℕ
  hardLogLevel : ℕ
  modsLoaded : ℤ
  consoleModsLoaded : ℤ
  /-- `LOG_MESSAGE_QUEUE`; the null pointer tells the log thread to end. -/
  queue : List (Option LogNode)
  /-- `LOG_THREAD_RUNNING`. -/
  threadRunning : Bool
  console : List String
  calls : List (F × LogNode)

/-- A call of a function of `agc_log.c`, or an iteration of the log thread. -/
inductive LogEvent (F : Type)
  /-- `agc_log_bind_logger`, and whether the memory for the binding is there. -/
  | bind (function : F) (level : ℕ) (isConsole : Bool) (alloc : Bool)
  | unbind (function : F)
  | vprintf (c : LogCall)
  | iterate
  | shutdown

namespace LogState

variable {F : Type}

/-- The state after `agc_log_init`. -/
def init : LogState F := ⟨[], 0, AGC_LOG_CRIT, 0, 0, [], true, [], []⟩

/-- `agc_queue_trypush` on `LOG_MESSAGE_QUEUE`. -/
def trypush (s : LogState F) (node : Option LogNode) : LogState F :=
  if s.queue.length < AGC_LOG_QUEUE_LEN then { s with queue := s.queue ++ [node] } else s

/-- The change of `MAX_LOG_LEVEL` when a logger is bound: the comparison and the assignment are of
the level as a byte. -/
def raiseMax (s : LogState F) (level : ℕ) : LogState F :=
  if s.maxLogLevel < level % 256 then { s with maxLogLevel := level % 256 } else s

/-- The change of `runtime.hard_log_level` when a logger is bound. -/
def raiseHard (s : LogState F) (level : ℕ) : LogState F :=
  if s.hardLogLevel < level then { s with hardLogLevel := level } else s

/-- `agc_log_bind_logger`. -/
def agcLogBindLogger (s : LogState F) (function : F) (level : ℕ) (isConsole alloc : Bool) :
    LogState F :=
  if !alloc then s
  else
    let s := (s.raiseMax level).raiseHard level
    { s with
      bindings := s.bindings ++ [⟨function, level, isConsole⟩]
      consoleModsLoaded := if isConsole then s.consoleModsLoaded + 1 else s.consoleModsLoaded
      modsLoaded := s.modsLoaded + 1 }

/-- The loop of `agc_log_unbind_logger`: the first binding of the function, and the list without
it. -/
def unlink [DecidableEq F] (function : F) :
    List (LogBinding F) → Option (LogBinding F × List (LogBinding F))
  | [] => none
  | b :: bs =>
    if b.function = function then some (b, bs)
    else (unlink function bs).map fun r => (r.1, b :: r.2)

/-- `agc_log_unbind_logger`. -/
def agcLogUnbindLogger [DecidableEq F] (s : LogState F) (function : F) : LogState F :=
  match unlink function s.bindings with
  | none => s
  | some (b, bs) =>
    { s with
      bindings := bs
      modsLoaded := s.modsLoaded - 1
      consoleModsLoaded := if b.isConsole then s.consoleModsLoaded - 1 else s.consoleModsLoaded }

/-- `agc_log_vprintf`. -/
def agcLogVprintf (s : LogState F) (c : LogCall) : LogState F :=
  if s.hardLogLevel < c.level then s
  else
    match c.vasprintf c.fullFmt with
    | none => s
    | some data =>
      let s :=
        if (s.consoleModsLoaded = 0 ∨ s.threadRunning = false) ∧ c.writable = true then
          { s with console := s.console ++ [data] }
        else s
      if s.threadRunning = true ∧ c.level ≤ s.maxLogLevel then s.trypush (some (c.node data)) else s

/-- The loop of `log_thread_func` over the bindings. -/
def dispatch : List (LogBinding F) → LogNode → List (F × LogNode)
  | [], _ => []
  | b :: bs, node =>
    if node.level ≤ b.level then (b.function, node) :: dispatch bs node else dispatch bs node

/-- An iteration of `log_thread_func`; with an empty queue the thread waits. -/
def logThreadFunc (s : LogState F) : LogState F :=
  if s.threadRunning then
    match s.queue with
    | [] => s
    | none :: q => { s with queue := q, threadRunning := false }
    | some node :: q => { s with queue := q, calls := s.calls ++ dispatch s.bindings node }
  else s

/-- What an event does; the push of `agc_log_shutdown` waits while the queue is full. -/
def step [DecidableEq F] (s : LogState F) : LogEvent F → LogState F
  | .bind function level isConsole alloc => s.agcLogBindLogger function level isConsole alloc
  | .unbind function => s.agcLogUnbindLogger function
  | .vprintf c => s.agcLogVprintf c
  | .iterate => s.logThreadFunc
  | .shutdown => s.trypush none

/-- A run from the state after `agc_log_init`. -/
def run [DecidableEq F] (evs : List (LogEvent F)) : LogState F := evs.foldl step init

/-! ## What a history leaves bound, queued and handed over -/

/-- What an event does to the loggers that are bound. -/
def rebind [DecidableEq F] (bound : List (LogBinding F)) : LogEvent F → List (LogBinding F)
  | .bind function level isConsole true => bound ++ [⟨function, level, isConsole⟩]
  | .unbind function => bound.eraseP (·.function = function)
  | _ => bound

/-- The loggers that a history leaves bound: a logger is added at the end, and the first with the
function is taken away. -/
def bound [DecidableEq F] (evs : List (LogEvent F)) : List (LogBinding F) := evs.foldl rebind []

/-- The message that a call puts into the queue. -/
def entering (s : LogState F) : LogEvent F → List LogNode
  | .vprintf c => ((s.agcLogVprintf c).queue.drop s.queue.length).reduceOption
  | _ => []

/-- The messages that enter the queue along a run, in order. -/
def entries [DecidableEq F] (evs : List (LogEvent F)) : List LogNode :=
  observed step entering init evs

/-- The message that an iteration of the log thread takes, with the loggers bound at that moment. -/
def handing (s : LogState F) : LogEvent F → List (LogNode × List (LogBinding F))
  | .iterate =>
    match s.threadRunning, s.queue with
    | true, some node :: _ => [(node, s.bindings)]
    | _, _ => []
  | _ => []

/-- The messages that the log thread takes along a run, in order. -/
def handings [DecidableEq F] (evs : List (LogEvent F)) : List (LogNode × List (LogBinding F)) :=
  observed step handing init evs

/-- The calls that are due for a message: one for each logger whose level is high enough. -/
def due (h : LogNode × List (LogBinding F)) : List (F × LogNode) :=
  (h.2.filter (h.1.level ≤ ·.level)).map fun b => (b.function, h.1)

theorem dispatch_eq (bs : List (LogBinding F)) (node : LogNode) :
    dispatch bs node = due (node, bs) := by
  induction bs with
  | nil => rfl
  | cons b bs ih =>
    simp only [dispatch, due] at ih ⊢
    by_cases h : node.level ≤ b.level <;> simp [h, ih]

/-! ## The effects of the calls -/

theorem raiseMax_eq (s : LogState F) (level : ℕ) :
    s.raiseMax level = { s with maxLogLevel := max s.maxLogLevel (level % 256) } := by
  unfold raiseMax
  split <;> rename_i h
  · rw [max_eq_right h.le]
  · rw [max_eq_left (not_lt.mp h)]

theorem raiseHard_eq (s : LogState F) (level : ℕ) :
    s.raiseHard level = { s with hardLogLevel := max s.hardLogLevel level } := by
  unfold raiseHard
  split <;> rename_i h
  · rw [max_eq_right h.le]
  · rw [max_eq_left (not_lt.mp h)]

/-- What the loop of `agc_log_unbind_logger` finds. -/
theorem unlink_eq [DecidableEq F] (function : F) (bs : List (LogBinding F)) :
    (unlink function bs = none ∧ bs.eraseP (·.function = function) = bs) ∨
      ∃ pre b post, bs = pre ++ b :: post ∧ unlink function bs = some (b, pre ++ post) ∧
        bs.eraseP (·.function = function) = pre ++ post := by
  induction bs with
  | nil => exact Or.inl ⟨rfl, rfl⟩
  | cons b bs ih =>
    by_cases hb : b.function = function
    · exact Or.inr ⟨[], b, bs, rfl, by simp [unlink, hb], by simp [hb]⟩
    rcases ih with ⟨hnone, her⟩ | ⟨pre, b', post, hbs, hsome, her⟩
    · exact Or.inl ⟨by simp [unlink, hb, hnone], by simp [hb, her]⟩
    · refine Or.inr ⟨b :: pre, b', post, by simp [hbs], ?_, ?_⟩
      · simp [unlink, hb, hsome]
      · simp [hb, her]

/-- A push adds at most the node at the end of the queue. -/
theorem trypush_eq (s : LogState F) (node : Option LogNode) :
    s.trypush node = s ∨ s.trypush node = { s with queue := s.queue ++ [node] } := by
  unfold trypush
  split
  · exact Or.inr rfl
  · exact Or.inl rfl

/-- A call writes to the console and adds at most its own message to the queue. -/
theorem agcLogVprintf_eq (s : LogState F) (c : LogCall) :
    ∃ out, s.agcLogVprintf c = { s with console := out } ∨
      ∃ data, s.agcLogVprintf c =
        { s with console := out, queue := s.queue ++ [some (c.node data)] } := by
  unfold agcLogVprintf
  split
  · exact ⟨s.console, Or.inl rfl⟩
  cases c.vasprintf c.fullFmt with
  | none => exact ⟨s.console, Or.inl rfl⟩
  | some data =>
    obtain ⟨out, hout⟩ : ∃ out,
        (if (s.consoleModsLoaded = 0 ∨ s.threadRunning = false) ∧ c.writable = true then
          { s with console := s.console ++ [data] } else s) = { s with console := out } := by
      split
      · exact ⟨_, rfl⟩
      · exact ⟨s.console, rfl⟩
    simp only [hout]
    refine ⟨out, ?_⟩
    split
    · rcases trypush_eq { s with console := out } (some (c.node data)) with h | h
      · exact Or.inl h
      · exact Or.inr ⟨data, h⟩
    · exact Or.inl rfl

/-! ## The thresholds and the counters -/

/-- The thresholds are not below a bound logger, the byte as far as a byte goes, and the counters
count the bound loggers. -/
structure Inv (s : LogState F) : Prop where
  hardLevel : ∀ b ∈ s.bindings, b.level ≤ s.hardLogLevel
  maxLevel : ∀ b ∈ s.bindings, b.level % 256 ≤ s.maxLogLevel
  mods : s.modsLoaded = s.bindings.length
  consoles : s.consoleModsLoaded = s.bindings.countP (·.isConsole)

theorem Inv.init : (init : LogState F).Inv := by
  constructor <;> simp [LogState.init]

theorem Inv.bind {s : LogState F} (h : s.Inv) (function : F) (level : ℕ) (isConsole alloc : Bool) :
    (s.agcLogBindLogger function level isConsole alloc).Inv := by
  cases alloc with
  | false => exact h
  | true =>
    simp only [agcLogBindLogger, raiseMax_eq, raiseHard_eq]
    constructor
    · intro b hb
      rcases List.mem_append.mp hb with hb | hb
      · exact (h.hardLevel b hb).trans (le_max_left _ _)
      · rw [List.mem_singleton.mp hb]
        exact le_max_right _ _
    · intro b hb
      rcases List.mem_append.mp hb with hb | hb
      · exact (h.maxLevel b hb).trans (le_max_left _ _)
      · rw [List.mem_singleton.mp hb]
        exact le_max_right _ _
    · simp [h.mods]
    · cases isConsole <;> simp [h.consoles]

theorem Inv.unbind [DecidableEq F] {s : LogState F} (h : s.Inv) (function : F) :
    (s.agcLogUnbindLogger function).Inv := by
  rcases unlink_eq function s.bindings with ⟨hnone, -⟩ | ⟨pre, b, post, hbs, hsome, -⟩
  · simpa only [agcLogUnbindLogger, hnone] using h
  simp only [agcLogUnbindLogger, hsome]
  have hmem : ∀ c ∈ pre ++ post, c ∈ s.bindings := by
    intro c hc
    rw [hbs]
    rcases List.mem_append.mp hc with hc | hc <;> simp [hc]
  have hmods := h.mods
  have hconsoles := h.consoles
  rw [hbs] at hmods hconsoles
  constructor
  · exact fun c hc => h.hardLevel c (hmem c hc)
  · exact fun c hc => h.maxLevel c (hmem c hc)
  · simp only [hmods, List.length_append, List.length_cons]
    push_cast
    omega
  · cases hb : b.isConsole <;> simp [hconsoles, hb]
    omega

/-- A change of nothing but the queue, the console, the thread and the calls. -/
theorem Inv.of_eq {s s' : LogState F} (h : s.Inv) (hb : s'.bindings = s.bindings)
    (hm : s'.maxLogLevel = s.maxLogLevel) (hh : s'.hardLogLevel = s.hardLogLevel)
    (hmods : s'.modsLoaded = s.modsLoaded)
    (hconsoles : s'.consoleModsLoaded = s.consoleModsLoaded) : s'.Inv := by
  constructor
  · rw [hb, hh]
    exact h.hardLevel
  · rw [hb, hm]
    exact h.maxLevel
  · rw [hb, hmods]
    exact h.mods
  · rw [hb, hconsoles]
    exact h.consoles

theorem Inv.step [DecidableEq F] {s : LogState F} (h : s.Inv) (e : LogEvent F) :
    (s.step e).Inv := by
  cases e with
  | bind function level isConsole alloc => exact h.bind function level isConsole alloc
  | unbind function => exact h.unbind function
  | vprintf c =>
    obtain ⟨out, heq | ⟨data, heq⟩⟩ := agcLogVprintf_eq s c
    all_goals
      rw [LogState.step, heq]
      exact h.of_eq rfl rfl rfl rfl rfl
  | iterate =>
    simp only [LogState.step, logThreadFunc]
    split
    · split <;> exact h.of_eq rfl rfl rfl rfl rfl
    · exact h
  | shutdown =>
    rcases trypush_eq s none with heq | heq
    all_goals
      rw [LogState.step, heq]
      exact h.of_eq rfl rfl rfl rfl rfl

theorem run_snoc [DecidableEq F] (evs : List (LogEvent F)) (e : LogEvent F) :
    run (evs ++ [e]) = (run evs).step e :=
  List.foldl_concat step init e evs

theorem Inv.run [DecidableEq F] (evs : List (LogEvent F)) : (run evs).Inv := by
  induction evs using List.reverseRecOn with
  | nil => exact Inv.init
  | append_singleton evs e ih =>
    rw [run_snoc]
    exact ih.step e

/-! ## Who is handed which message -/

theorem step_bindings [DecidableEq F] (s : LogState F) (e : LogEvent F) :
    (s.step e).bindings = rebind s.bindings e := by
  cases e with
  | bind function level isConsole alloc =>
    cases alloc with
    | false => rfl
    | true => simp only [step, agcLogBindLogger, raiseMax_eq, raiseHard_eq]; rfl
  | unbind function =>
    rcases unlink_eq function s.bindings with ⟨hnone, her⟩ | ⟨pre, b, post, -, hsome, her⟩
    · simp [step, agcLogUnbindLogger, hnone, rebind, her]
    · simp [step, agcLogUnbindLogger, hsome, rebind, her]
  | vprintf c =>
    obtain ⟨out, heq | ⟨data, heq⟩⟩ := agcLogVprintf_eq s c <;> rw [step, heq] <;> rfl
  | iterate =>
    simp only [step, logThreadFunc]
    split
    · split <;> rfl
    · rfl
  | shutdown => rcases trypush_eq s none with heq | heq <;> rw [step, heq] <;> rfl

/-- The bindings are those that the history leaves. -/
theorem bindings_run [DecidableEq F] (evs : List (LogEvent F)) :
    (run evs).bindings = bound evs := by
  induction evs using List.reverseRecOn with
  | nil => rfl
  | append_singleton evs e ih =>
    rw [run_snoc, step_bindings, ih, bound, bound, List.foldl_concat]

/-- Every message of the queue was there before or enters now, and stays or is taken. -/
theorem queue_step [DecidableEq F] (s : LogState F) (e : LogEvent F) :
    s.queue.reduceOption ++ entering s e =
      (handing s e).map Prod.fst ++ (s.step e).queue.reduceOption := by
  cases e with
  | bind function level isConsole alloc =>
    cases alloc with
    | false => simp [entering, handing, step, agcLogBindLogger]
    | true =>
      simp [entering, handing, step, agcLogBindLogger, raiseMax_eq, raiseHard_eq]
  | unbind function =>
    simp only [entering, handing, step, agcLogUnbindLogger]
    split <;> simp
  | vprintf c =>
    obtain ⟨out, heq | ⟨data, heq⟩⟩ := agcLogVprintf_eq s c
    all_goals simp [entering, handing, step, heq, List.reduceOption_append]
  | iterate =>
    simp only [entering, handing, step, logThreadFunc]
    -- the thread takes a message, takes the null pointer, or waits
    cases hr : s.threadRunning with
    | false => simp
    | true =>
      rcases hq : s.queue with _ | ⟨_ | node, q⟩ <;>
        simp [hq, List.reduceOption_cons_of_none, List.reduceOption_cons_of_some]
  | shutdown =>
    rcases trypush_eq s none with heq | heq
    all_goals simp [entering, handing, step, heq, List.reduceOption_append]

/-- The log thread makes the calls that are due for the message that it takes. -/
theorem calls_step [DecidableEq F] (s : LogState F) (e : LogEvent F) :
    (s.step e).calls = s.calls ++ (handing s e).flatMap due := by
  cases e with
  | bind function level isConsole alloc =>
    cases alloc with
    | false => simp [handing, step, agcLogBindLogger]
    | true => simp [handing, step, agcLogBindLogger, raiseMax_eq, raiseHard_eq]
  | unbind function =>
    simp only [handing, step, agcLogUnbindLogger]
    split <;> simp
  | vprintf c =>
    obtain ⟨out, heq | ⟨data, heq⟩⟩ := agcLogVprintf_eq s c <;> simp [handing, step, heq]
  | iterate =>
    simp only [handing, step, logThreadFunc]
    cases hr : s.threadRunning with
    | false => simp
    | true => rcases hq : s.queue with _ | ⟨_ | node, q⟩ <;> simp [dispatch_eq]
  | shutdown => rcases trypush_eq s none with heq | heq <;> simp [handing, step, heq]

theorem handings_snoc [DecidableEq F] (evs : List (LogEvent F)) (e : LogEvent F) :
    handings (evs ++ [e]) = handings evs ++ handing (run evs) e :=
  observed_snoc step handing init evs e

/-- The messages that entered are those taken, in order, and then those still in the queue. -/
theorem entries_eq [DecidableEq F] (evs : List (LogEvent F)) :
    entries evs = (handings evs).map Prod.fst ++ (run evs).queue.reduceOption := by
  induction evs using List.reverseRecOn with
  | nil => rfl
  | append_singleton evs e ih =>
    have hstep := queue_step (run evs) e
    calc entries (evs ++ [e]) = entries evs ++ entering (run evs) e := observed_snoc _ _ _ _ _
      _ = (handings evs).map Prod.fst ++
          ((run evs).queue.reduceOption ++ entering (run evs) e) := by
        rw [ih, List.append_assoc]
      _ = (handings (evs ++ [e])).map Prod.fst ++ (run (evs ++ [e])).queue.reduceOption := by
        rw [hstep, run_snoc, handings_snoc, List.map_append, List.append_assoc]

/-- The calls are those due for the messages taken, in order. -/
theorem calls_eq [DecidableEq F] (evs : List (LogEvent F)) :
    (run evs).calls = (handings evs).flatMap due := by
  induction evs using List.reverseRecOn with
  | nil => rfl
  | append_singleton evs e ih =>
    rw [run_snoc, calls_step, ih, handings_snoc, List.flatMap_append]

/-- A message that a bound logger accepts, of a level in the range of a byte, passes the filters. -/
theorem Inv.not_filtered {s : LogState F} (h : s.Inv) {c : LogCall} {data : String}
    (hdata : c.vasprintf c.fullFmt = some data) (hrun : s.threadRunning = true)
    (hfull : s.queue.length < AGC_LOG_QUEUE_LEN) {b : LogBinding F} (hb : b ∈ s.bindings)
    (hbyte : b.level < 256) (hc : c.level ≤ b.level) :
    (s.agcLogVprintf c).queue = s.queue ++ [some (c.node data)] := by
  have hhard : ¬ s.hardLogLevel < c.level := not_lt.mpr (hc.trans (h.hardLevel b hb))
  have hmax : c.level ≤ s.maxLogLevel := by
    have := h.maxLevel b hb
    rw [Nat.mod_eq_of_lt hbyte] at this
    exact hc.trans this
  simp only [agcLogVprintf, if_neg hhard, hdata]
  split <;> simp [hrun, hmax, trypush, hfull]

/-- **Log dispatch.** In every state reached, the loggers bound are those that the history leaves,
the thresholds are not below them, a message that one of them accepts is not filtered before the
queue, the messages that entered the queue are taken out of it in order and once, each handed to
exactly the loggers bound at that moment whose level is high enough, and the counters count the
loggers. `MAX_LOG_LEVEL` follows the levels that fit into a byte. -/
theorem dispatch_of_run [DecidableEq F] (evs : List (LogEvent F)) :
    (run evs).bindings = bound evs ∧
    (∀ b ∈ (run evs).bindings,
      b.level ≤ (run evs).hardLogLevel ∧ (b.level < 256 → b.level ≤ (run evs).maxLogLevel)) ∧
    (∀ (c : LogCall) (data : String), c.vasprintf c.fullFmt = some data →
      (run evs).threadRunning = true → (run evs).queue.length < AGC_LOG_QUEUE_LEN →
      (∃ b ∈ (run evs).bindings, b.level < 256 ∧ c.level ≤ b.level) →
      ((run evs).agcLogVprintf c).queue = (run evs).queue ++ [some (c.node data)]) ∧
    entries evs = (handings evs).map Prod.fst ++ (run evs).queue.reduceOption ∧
    (run evs).calls = (handings evs).flatMap (fun h =>
      (h.2.filter (h.1.level ≤ ·.level)).map fun b => (b.function, h.1)) ∧
    (run evs).modsLoaded = (run evs).bindings.length ∧
    (run evs).consoleModsLoaded = (run evs).bindings.countP (·.isConsole) := by
  have h := Inv.run evs
  refine ⟨bindings_run evs, fun b hb => ⟨h.hardLevel b hb, fun hbyte => ?_⟩, ?_, entries_eq evs,
    calls_eq evs, h.mods, h.consoles⟩
  · have := h.maxLevel b hb
    rwa [Nat.mod_eq_of_lt hbyte] at this
  · rintro c data hdata hrun hfull ⟨b, hb, hbyte, hc⟩
    exact h.not_filtered hdata hrun hfull hb hbyte hc

/-- A logger bound at `AGC_LOG_UNINIT` raises `MAX_LOG_LEVEL` to the last byte of that level
only. -/
theorem max_log_level_below_bound_logger :
    ¬ ∀ evs : List (LogEvent ℕ), ∀ b ∈ (run evs).bindings,
      b.level ≤ (run evs).maxLogLevel ∧ b.level ≤ (run evs).hardLogLevel := by
  intro h
  have := (h [.bind 0 AGC_LOG_UNINIT false true] ⟨0, AGC_LOG_UNINIT, false⟩ (by decide)).1
  exact absurd this (by decide)

end LogState
