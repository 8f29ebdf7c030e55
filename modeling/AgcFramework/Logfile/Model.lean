import AgcFramework.Lib.Command
import AgcFramework.Lib.Decimal
import AgcFramework.Lib.Ledger
import AgcFramework.Types

/-!
# The log file

`mod_logfile.c` writes to one file and moves it away when it has grown: the numbered files are
renamed from the last one down, and a new file is opened. Every operation on files may fail. What
the operating system does with its files is modelled by inodes: a file is found under at most one
name, and keeps its data when it is renamed.

## Main definitions

* `Files`: the inodes by name
* `Profile`, `World`: the configuration and the open file, and what the operations work on
* `modLogfileRawWrite`, `modLogfileOpenlogfile`, `modLogfileRotate`: the functions of
  `mod_logfile.c`
-/

namespace Logfile

open Ledger Command

/-! ## Files -/

/-- The files by name. A file has one name. -/
structure Files where
  inode : CStr → Option ℕ
  /-- The number of the next file. -/
  next : ℕ
  lt_next : ∀ {name i}, inode name = some i → i < next
  inj : ∀ {name name' i}, inode name = some i → inode name' = some i → name = name'

/-- The file is no longer found. -/
def Files.remove (f : Files) (name : CStr) : Files where
  inode n := if n = name then none else f.inode n
  next := f.next
  lt_next {n i} h := by
    split_ifs at h
    exact f.lt_next h
  inj {n n' i} h h' := by
    split_ifs at h h'
    exact f.inj h h'

/-- The file is found under another name, and what was there is no longer found. -/
def Files.rename (f : Files) (src dst : CStr) : Files where
  inode n := if n = dst then f.inode src else if n = src then none else f.inode n
  next := f.next
  lt_next {n i} h := by
    split_ifs at h
    · exact f.lt_next h
    · exact f.lt_next h
  inj {n n' i} h h' := by
    split_ifs at h h' with hn hn' hsrc' hn hsrc
    · rw [hn, hn']
    · exact absurd (f.inj h' h) hsrc'
    · exact absurd (f.inj h h') (by assumption)
    · exact f.inj h h'

/-- A new file, if there is none of the name. -/
def Files.create (f : Files) (name : CStr) : Files where
  inode n := if n = name ∧ f.inode name = none then some f.next else f.inode n
  next := f.next + 1
  lt_next {n i} h := by
    split_ifs at h
    · have := Option.some.inj h
      omega
    · have := f.lt_next h
      omega
  inj {n n' i} h h' := by
    split_ifs at h h' with hn hn' hn'
    · rw [hn.1, hn'.1]
    · exact absurd (f.lt_next (h'.trans h.symm)) (Nat.lt_irrefl _)
    · exact absurd (f.lt_next (h.trans h'.symm)) (Nat.lt_irrefl _)
    · exact f.inj h h'

/-! ## The state -/

/-- An operation on files that may fail. -/
inductive Op
  | openFile (name : CStr)
  | write
  | stat (name : CStr)
  | size
  | remove (name : CStr)
  | rename (src dst : CStr)
  deriving DecidableEq

/-- `struct logfile_profile`. The number of files is read as an `unsigned int`, and 0 stands for a
default. -/
structure Profile where
  logfile : CStr
  maxFiles : ℕ
  maxFiles_pos : 1 ≤ maxFiles
  maxFiles_lt : maxFiles < 2 ^ 32
  rollSize : ℕ
  logSize : ℕ
  logAfd : Option ℕ

/-- The files, the handles and the profile, and what the operations to come do. -/
structure World where
  files : Files
  /-- The data of each file. -/
  data : ℕ → List Byte
  /-- The file of each handle. -/
  target : ℕ → ℕ
  /-- The number of the next handle. -/
  handles : ℕ
  profile : Profile
  /-- Whether an operation at a time succeeds. -/
  succeeds : Op → ℕ → Bool
  /-- How many bytes a write at a time takes at most. -/
  takes : ℕ → ℕ
  clock : ℕ

/-- What is logged: the acts on handles, a call to open or rename a file that fails, and a write
behind the end of an array, which may do anything. -/
inductive Entry
  | act (a : Act (Option ℕ))
  | failed (op : Op)
  | overflow
  deriving DecidableEq

abbrev LogM := Command World Entry

/-! ## Operations on files -/

/-- Whether the operation succeeds now. -/
def attempt (op : Op) : LogM Bool := do
  let w ← get
  modify fun w => { w with clock := w.clock + 1 }
  return w.succeeds op w.clock

/-- `agc_file_exists`: a file that cannot be looked at does not exist. -/
def agcFileExists (filename : CStr) : LogM Bool := do
  if filename.bytes = [] then return false else
    let ok ← attempt (.stat filename)
    let w ← get
    return ok && (w.files.inode filename).isSome

/-- `agc_file_remove`. -/
def agcFileRemove (path : CStr) : LogM Bool := do
  let ok ← attempt (.remove path)
  let w ← get
  if ok && (w.files.inode path).isSome then
    modify fun w => { w with files := w.files.remove path }
    return true
  else return false

/-- `agc_file_rename`. -/
def agcFileRename (fromPath toPath : CStr) : LogM Bool := do
  let ok ← attempt (.rename fromPath toPath)
  let w ← get
  if ok && (w.files.inode fromPath).isSome then
    modify fun w => { w with files := w.files.rename fromPath toPath }
    return true
  else
    tell fun _ => .failed (.rename fromPath toPath)
    return false

/-- A handle of the file of this name, which may be new. -/
def World.opened (w : World) (name : CStr) : World :=
  { w with
    files := w.files.create name
    data := if w.files.inode name = none then Function.update w.data w.files.next [] else w.data
    target := Function.update w.target w.handles ((w.files.inode name).getD w.files.next)
    handles := w.handles + 1 }

/-- `agc_file_open` with the flags to create the file and to append to it. -/
def agcFileOpen (fname : CStr) : LogM (Option ℕ) := do
  let ok ← attempt (.openFile fname)
  if ok then
    let w ← get
    modify fun w => w.opened fname
    tell fun _ => .act (.alloc (some w.handles))
    return some w.handles
  else
    tell fun _ => .failed (.openFile fname)
    return none

/-- `agc_file_close`, whose status nobody looks at. -/
def agcFileClose (thefile : Option ℕ) : LogM Unit := tell fun _ => .act (.free thefile)

/-- `agc_file_write`: whether it succeeds, and the number of bytes, which is 0 if it does not. -/
def agcFileWrite (thefile : Option ℕ) (buf : List Byte) : LogM (Bool × ℕ) := do
  tell fun _ => .act (.use thefile)
  let ok ← attempt .write
  let w ← get
  let bytes := if ok then buf.take (w.takes w.clock) else []
  modify fun w => { w with
    data := thefile.elim w.data fun h =>
      Function.update w.data (w.target h) (w.data (w.target h) ++ bytes) }
  return (ok, bytes.length)

/-- `agc_file_get_size`: 0 if there is no information. -/
def agcFileGetSize (thefile : Option ℕ) : LogM ℕ := do
  tell fun _ => .act (.use thefile)
  let ok ← attempt .size
  let w ← get
  return if ok then thefile.elim 0 fun h => (w.data (w.target h)).length else 0

/-! ## The functions -/

/-- The value of an `unsigned int` that is read as an `int`. -/
def toInt (i : ℕ) : ℤ := (i : ℤ).bmod (2 ^ 32)

/-- The text that `sprintf` makes with the format `%s.%i`. -/
def numbered (logfile : CStr) (z : ℤ) : CStr where
  bytes := logfile.bytes ++ 46 :: Decimal.decimalInt z
  nul_notMem h := by
    rcases List.mem_append.mp h with h | h
    · exact logfile.nul_notMem h
    · exact Decimal.nul_notMem_decimalInt z ((List.mem_cons.mp h).resolve_left (by decide))

/-- `sprintf` of a name into an array of 256 bytes. -/
def sprintfName (i : ℕ) : LogM CStr := do
  let w ← get
  let name := numbered w.profile.logfile (toInt i)
  if name.bytes.length + 1 ≤ 256 then return name else
    tell fun _ => .overflow
    return name

/-- A change of the profile. -/
def update (f : Profile → Profile) : LogM Unit :=
  modify fun w => { w with profile := f w.profile }

/-- The part of `mod_logfile_openlogfile` that opens the file. -/
def openLog : LogM AgcStatus := do
  let w ← get
  match ← agcFileOpen w.profile.logfile with
  | none => return .false
  | some afd =>
    update ({ · with logAfd := some afd })
    let size ← agcFileGetSize (some afd)
    update ({ · with logSize := size })
    return .success

/-- `mod_logfile_openlogfile`, by what rotates the files. -/
def openlogfileWith (rotate : LogM Bool) (check : Bool) : LogM AgcStatus := do
  let status ← openLog
  let w ← get
  if status = .success ∧ check ∧ w.profile.rollSize ≠ 0 ∧
      w.profile.rollSize ≤ w.profile.logSize then
    let _ ← rotate
    return status
  else return status

/-- A file is removed if it exists. -/
def removeExisting (path : CStr) : LogM Bool := do
  if ← agcFileExists path then agcFileRemove path else return true

/-- A file is renamed if it exists. -/
def renameExisting (fromPath toPath : CStr) : LogM Bool := do
  if ← agcFileExists fromPath then agcFileRename fromPath toPath else return true

/-- The loop over the numbered files: whether all went well, and the number where it ended. -/
def rotateLoop : ℕ → LogM (Bool × ℕ)
  | i + 2 => do
    let dst ← sprintfName (i + 2)
    let src ← sprintfName (i + 1)
    let removed ← removeExisting dst
    if ¬ removed then return (false, i + 2) else
      let renamed ← renameExisting src dst
      if ¬ renamed then return (false, i + 2) else rotateLoop (i + 1)
  | i => return (true, i)

/-- The part of `mod_logfile_rotate` that moves the log file away and opens a new one. -/
def startNew (i : ℕ) : LogM Bool := do
  let dst ← sprintfName i
  let removed ← removeExisting dst
  if ¬ removed then return false else
    let w ← get
    agcFileClose w.profile.logAfd
    let renamed ← agcFileRename w.profile.logfile dst
    if ¬ renamed then return false else
      let status ← openlogfileWith (return true) false
      return status = .success

/-- `mod_logfile_rotate`: whether its status is `AGC_STATUS_SUCCESS`. -/
def modLogfileRotate : LogM Bool := do
  let w ← get
  let (ok, i) ← rotateLoop (w.profile.maxFiles % 2 ^ 32)
  if ok then startNew i else return false

/-- `mod_logfile_openlogfile`. -/
def modLogfileOpenlogfile (check : Bool) : LogM AgcStatus := openlogfileWith modLogfileRotate check

/-- What `mod_logfile_raw_write` writes to the file: the status, and the number of bytes. -/
def writeLog (logData : CStr) : LogM (AgcStatus × ℕ) := do
  let w ← get
  let (ok, len) ← agcFileWrite w.profile.logAfd logData.bytes
  if ok then return (.success, len) else
    agcFileClose w.profile.logAfd
    let status ← modLogfileOpenlogfile true
    if status = .success then
      let w ← get
      let (_, len) ← agcFileWrite w.profile.logAfd logData.bytes
      return (.success, len)
    else return (status, len)

/-- `mod_logfile_raw_write`. -/
def modLogfileRawWrite (logData : CStr) : LogM AgcStatus := do
  let w ← get
  if logData.bytes.length = 0 ∨ w.profile.logAfd = none then return .false else
    let (status, len) ← writeLog logData
    if status = .success then
      update fun p => { p with logSize := p.logSize + len }
      let w ← get
      if w.profile.rollSize ≠ 0 ∧ w.profile.rollSize ≤ w.profile.logSize then
        let _ ← modLogfileRotate
        return status
      else return status
    else return status

/-! ## What the operations do -/

/-- The world a moment later. -/
def World.tick (w : World) : World := { w with clock := w.clock + 1 }

@[simp] theorem World.tick_files (w : World) : w.tick.files = w.files := rfl

@[simp] theorem World.tick_succeeds (w : World) : w.tick.succeeds = w.succeeds := rfl

@[simp] theorem World.tick_handles (w : World) : w.tick.handles = w.handles := rfl

@[simp] theorem World.tick_profile (w : World) : w.tick.profile = w.profile := rfl

theorem bind_apply {α β : Type} (m : LogM α) (k : α → LogM β) (w : World) :
    (m >>= k) w = ((k (m w).1 (m w).2.1).1, (k (m w).1 (m w).2.1).2.1,
      (m w).2.2 ++ (k (m w).1 (m w).2.1).2.2) := rfl

theorem get_apply (w : World) : (get : LogM World) w = (w, w, []) := rfl

variable {name src dst : CStr} {op : Op}

theorem agcFileExists_apply (hname : name.bytes ≠ []) (w : World) : agcFileExists name w =
    (w.succeeds (.stat name) w.clock && (w.files.inode name).isSome, w.tick, []) := by
  unfold agcFileExists
  rw [if_neg hname]
  rfl

theorem agcFileRemove_apply (name : CStr) (w : World) : agcFileRemove name w =
    if w.succeeds (.remove name) w.clock && (w.files.inode name).isSome then
      (true, { w.tick with files := w.files.remove name }, [])
    else (false, w.tick, []) := by
  change (if w.succeeds (.remove name) w.clock && (w.files.inode name).isSome then _ else _ :
    LogM Bool) w.tick = _
  split <;> rfl

theorem agcFileRename_apply (src dst : CStr) (w : World) : agcFileRename src dst w =
    if w.succeeds (.rename src dst) w.clock && (w.files.inode src).isSome then
      (true, { w.tick with files := w.files.rename src dst }, [])
    else (false, w.tick, [.failed (.rename src dst)]) := by
  change (if w.succeeds (.rename src dst) w.clock && (w.files.inode src).isSome then _ else _ :
    LogM Bool) w.tick = _
  split <;> rfl

/-- A write changes data, and nothing else. -/
theorem agcFileWrite_apply (thefile : Option ℕ) (buf : List Byte) (w : World) :
    ∃ r data, agcFileWrite thefile buf w =
      (r, { w.tick with data := data }, [.act (.use thefile)]) :=
  ⟨_, _, rfl⟩

theorem removeExisting_apply (hname : name.bytes ≠ []) (w : World) : removeExisting name w =
    if w.succeeds (.stat name) w.clock && (w.files.inode name).isSome then
      if w.succeeds (.remove name) w.tick.clock then
        (true, { w.tick.tick with files := w.files.remove name }, [])
      else (false, w.tick.tick, [])
    else (true, w.tick, []) := by
  rw [removeExisting, bind_apply, agcFileExists_apply hname]
  split_ifs with h hremove
  · have hsome : (w.files.inode name).isSome = true := (Bool.and_eq_true _ _ ▸ h).2
    simp [agcFileRemove_apply, hsome, hremove]
  · simp [agcFileRemove_apply, hremove]
  · rfl

theorem renameExisting_apply (hsrc : src.bytes ≠ []) (w : World) : renameExisting src dst w =
    if w.succeeds (.stat src) w.clock && (w.files.inode src).isSome then
      if w.succeeds (.rename src dst) w.tick.clock then
        (true, { w.tick.tick with files := w.files.rename src dst }, [])
      else (false, w.tick.tick, [.failed (.rename src dst)])
    else (true, w.tick, []) := by
  rw [renameExisting, bind_apply, agcFileExists_apply hsrc]
  split_ifs with h hrename
  · have hsome : (w.files.inode src).isSome = true := (Bool.and_eq_true _ _ ▸ h).2
    simp [agcFileRename_apply, hsome, hrename]
  · simp [agcFileRename_apply, hrename]
  · rfl

theorem agcFileOpen_apply (name : CStr) (w : World) : agcFileOpen name w =
    if w.succeeds (.openFile name) w.clock then
      (some w.handles, w.tick.opened name, [.act (.alloc (some w.handles))])
    else (none, w.tick, [.failed (.openFile name)]) := by
  change (if w.succeeds (.openFile name) w.clock then _ else _ : LogM (Option ℕ)) w.tick = _
  split <;> rfl

/-- The log file is open, and its size is noted. -/
def World.reopened (w : World) : World :=
  let w' := w.tick.opened w.profile.logfile
  { w'.tick with
    profile := { w.profile with
      logAfd := some w.handles
      logSize :=
        if w'.succeeds .size w'.clock then (w'.data (w'.target w.handles)).length else 0 } }

theorem openLog_apply (w : World) :
    openLog w = if w.succeeds (.openFile w.profile.logfile) w.clock then
      (.success, w.reopened, [.act (.alloc (some w.handles)), .act (.use (some w.handles))])
    else (.false, w.tick, [.failed (.openFile w.profile.logfile)]) := by
  rw [openLog, bind_apply, get_apply]
  simp only [bind_apply, agcFileOpen_apply]
  split_ifs with h
  · rfl
  · rfl

section Rules

variable {lost : List Entry → Prop} {P : World → List Entry → Prop}
  {Q : Bool → World → List Entry → Prop}

theorem triple_removeExisting (hname : name.bytes ≠ [])
    (hok : ∀ w log, P w log → Q true { w.tick.tick with files := w.files.remove name } log)
    (hnone : ∀ w log, P w log →
      w.succeeds (.stat name) w.clock = false ∨ w.files.inode name = none → Q true w.tick log)
    (hfail : ∀ w log, P w log → w.succeeds (.remove name) w.tick.clock = false →
      Q false w.tick.tick log) :
    Triple lost P (removeExisting name) Q := by
  intro w log hw
  refine Or.inl ?_
  rw [removeExisting_apply hname]
  split_ifs with h hremove
  · rw [List.append_nil]
    exact hok w log hw
  · rw [List.append_nil]
    exact hfail w log hw (by simpa using hremove)
  · rw [List.append_nil]
    refine hnone w log hw ?_
    simpa [imp_iff_not_or] using h

theorem triple_rename
    (hok : ∀ w log, P w log → w.files.inode src ≠ none →
      Q true { w.tick with files := w.files.rename src dst } log)
    (hfail : ∀ w log, P w log →
      w.succeeds (.rename src dst) w.clock = false ∨ w.files.inode src = none →
      Q false w.tick (log ++ [.failed (.rename src dst)]) ∨
        lost (log ++ [.failed (.rename src dst)])) :
    Triple lost P (agcFileRename src dst) Q := by
  intro w log hw
  rw [agcFileRename_apply]
  split_ifs with h
  · rw [List.append_nil]
    rw [Bool.and_eq_true, Option.isSome_iff_ne_none] at h
    exact Or.inl (hok w log hw h.2)
  · refine hfail w log hw ?_
    simpa [imp_iff_not_or] using h

theorem triple_renameExisting (hsrc : src.bytes ≠ [])
    (hok : ∀ w log, P w log → w.files.inode src ≠ none →
      Q true { w.tick.tick with files := w.files.rename src dst } log)
    (hnone : ∀ w log, P w log →
      w.succeeds (.stat src) w.clock = false ∨ w.files.inode src = none → Q true w.tick log)
    (hfail : ∀ w log, P w log → w.succeeds (.rename src dst) w.tick.clock = false →
      Q false w.tick.tick (log ++ [.failed (.rename src dst)])) :
    Triple lost P (renameExisting src dst) Q := by
  intro w log hw
  refine Or.inl ?_
  rw [renameExisting_apply hsrc]
  split_ifs with h hrename
  · rw [List.append_nil]
    rw [Bool.and_eq_true, Option.isSome_iff_ne_none] at h
    exact hok w log hw h.2
  · exact hfail w log hw (by simpa using hrename)
  · rw [List.append_nil]
    refine hnone w log hw ?_
    simpa [imp_iff_not_or] using h

/-- The log file is opened, and perhaps rotated. -/
theorem triple_openlogfileWith [Sticky lost] {Q : AgcStatus → World → List Entry → Prop}
    {R : World → List Entry → Prop} {rotate : LogM Bool} {check : Bool}
    (hok : ∀ w log, P w log → R w.reopened
      (log ++ [.act (.alloc (some w.handles)), .act (.use (some w.handles))]))
    (hfail : ∀ w log, P w log → w.succeeds (.openFile w.profile.logfile) w.clock = false →
      Q .false w.tick (log ++ [.failed (.openFile w.profile.logfile)]) ∨
        lost (log ++ [.failed (.openFile w.profile.logfile)]))
    (hrotate : check = true → Triple lost R rotate fun _ => R)
    (hopen : ∀ w log, R w log → Q .success w log) :
    Triple lost P (openlogfileWith rotate check) Q := by
  have hopenLog : Triple lost P openLog fun status w log =>
      status = .success ∧ R w log ∨ status = .false ∧ Q .false w log := by
    intro w log hw
    rw [openLog_apply]
    split_ifs with h
    · exact Or.inl (Or.inl ⟨rfl, hok w log hw⟩)
    · exact (hfail w log hw (by simpa using h)).imp_left fun h => Or.inr ⟨rfl, h⟩
  -- the file is checked for a rotation only if it was opened
  refine hopenLog.bind fun status => Triple.get_bind fun w₁ => ?_
  refine Triple.ite (fun hcheck => ?_) fun _ => ?_
  · obtain ⟨rfl, hcheck, -⟩ := hcheck
    refine ((hrotate hcheck).mono ?_ fun _ _ _ => id).bind fun _ => Triple.pure hopen
    rintro w log ⟨-, ⟨-, h⟩ | ⟨h, -⟩⟩
    · exact h
    · cases h
  · refine Triple.pure ?_
    rintro w log ⟨-, ⟨rfl, h⟩ | ⟨rfl, h⟩⟩
    · exact hopen w log h
    · exact h

end Rules

end Logfile
