import AgcFramework.Logfile.Rotate

/-!
# The handle of the log file

The handle in the profile is closed before a new one is there: by a write that failed, and by a
rotation, which closes the log file before it renames it. If the file is then not opened again the
handle of a closed file stays in the profile, and the next write finds it there.

## Main definitions

* `acts`: what is done to handles
* `writes`: a run of writes
* `Steady`: no call to open the log file, or to move it away, failed
* `Ready`, `Shut`: the handle in the profile is the open one, and no handle is open

## Main results

* `triple_rotate`, `triple_rawWrite`: a rotation and a write leave the log file open
* `writes_sound`: handles are written and closed only while they are open
-/

namespace Logfile

open Ledger Command

/-- What is done to handles. -/
def acts (log : List Entry) : List (Act (Option ℕ)) :=
  log.filterMap fun
    | .act a => some a
    | .failed _ | .overflow => none

@[simp] theorem acts_append (log log' : List Entry) : acts (log ++ log') = acts log ++ acts log' :=
  List.filterMap_append

@[simp] theorem acts_failed (op : Op) : acts [.failed op] = [] := rfl

@[simp] theorem acts_act (a : Act (Option ℕ)) : acts [.act a] = [a] := rfl

/-- A call of `mod_logfile_raw_write`. -/
def rawWrite (logData : CStr) : LogM Unit := do
  let _ ← modLogfileRawWrite logData
  return ()

/-- A run of writes, behind what was done before. -/
def writes (texts : List CStr) (s : World × List Entry) : World × List Entry :=
  texts.foldl (fun s text => (rawWrite text).run s) s

/-- A call to open the log file, or to move it away, that failed. -/
def Entry.Strands (logfile : CStr) : Entry → Prop
  | .failed (.openFile name) => name = logfile
  | .failed (.rename src _) => src = logfile
  | _ => False

instance (logfile : CStr) : DecidablePred (Entry.Strands logfile)
  | .failed (.openFile name) => decEq name logfile
  | .failed (.rename src _) => decEq src logfile
  | .failed .write | .failed (.stat _) | .failed .size | .failed (.remove _) | .act _
  | .overflow => .isFalse id

/-- No call to open the log file, or to move it away, failed. -/
def Steady (logfile : CStr) (log : List Entry) : Prop := ∀ e ∈ log, ¬ e.Strands logfile

instance (logfile : CStr) (log : List Entry) : Decidable (Steady logfile log) :=
  inferInstanceAs (Decidable (∀ e ∈ log, ¬ e.Strands logfile))

/-- What is lost: the runs in which one of these calls failed. -/
def Unsteady (w₀ : World) (log : List Entry) : Prop := ¬ Steady w₀.profile.logfile log

instance (w₀ : World) : Sticky (Unsteady w₀) :=
  ⟨fun _ hlost hsteady => hlost fun e he => hsteady e (List.mem_append_left _ he)⟩

theorem unsteady_append {w₀ : World} {e : Entry} (he : e.Strands w₀.profile.logfile)
    (log : List Entry) : Unsteady w₀ (log ++ [e]) :=
  fun hsteady => hsteady e (List.mem_append_right _ (List.mem_singleton_self _)) he

/-! ## The state of the handle -/

/-- The handles that are open, in a run from `w₀`. -/
structure Opened (w₀ w : World) (log : List Entry) (l : List (Option ℕ)) : Prop where
  logfile : w.profile.logfile = w₀.profile.logfile
  maxFiles : w.profile.maxFiles = w₀.profile.maxFiles
  inside : .overflow ∉ log
  fresh : ∀ h, .alloc (some h) ∈ acts log → h < w.handles
  owns : Owns (fun _ => True) (acts log) l

/-- The handle in the profile is the open one. -/
def Ready (w₀ w : World) (log : List Entry) : Prop := Opened w₀ w log [w.profile.logAfd]

/-- No handle is open. -/
def Shut (w₀ w : World) (log : List Entry) : Prop := Opened w₀ w log []

variable {w₀ w w' : World} {log : List Entry} {l : List (Option ℕ)}

/-- What the handles do not depend on. -/
theorem Opened.congr (h : Opened w₀ w log l) (hlogfile : w'.profile.logfile = w.profile.logfile)
    (hmaxFiles : w'.profile.maxFiles = w.profile.maxFiles) (hhandles : w'.handles = w.handles) :
    Opened w₀ w' log l where
  logfile := hlogfile.trans h.logfile
  maxFiles := hmaxFiles.trans h.maxFiles
  inside := h.inside
  fresh x hx := hhandles ▸ h.fresh x hx
  owns := h.owns

/-- A call that failed did nothing to the handles. -/
theorem Opened.failed (h : Opened w₀ w log l) (op : Op) : Opened w₀ w (log ++ [.failed op]) l :=
  { h with
    inside := by simpa using h.inside
    fresh := fun y hy => h.fresh y (by simpa using hy)
    owns := by simpa using h.owns }

theorem Opened.use (h : Opened w₀ w log l) {x : Option ℕ} (hx : x ∈ l) :
    Opened w₀ w (log ++ [.act (.use x)]) l :=
  { h with
    inside := by simpa using h.inside
    fresh := fun y hy => h.fresh y (by simpa using hy)
    owns := by simpa using h.owns.use hx }

theorem Opened.close {x : Option ℕ} (h : Opened w₀ w log (x :: l)) :
    Opened w₀ w (log ++ [.act (.free x)]) l :=
  { h with
    inside := by simpa using h.inside
    fresh := fun y hy => h.fresh y (by simpa using hy)
    owns := by simpa using h.owns.free }

/-- The log file is opened again. -/
theorem Opened.reopened (h : Opened w₀ w log []) :
    Ready w₀ w.reopened
      (log ++ [.act (.alloc (some w.handles)), .act (.use (some w.handles))]) := by
  have hnew : .alloc (some w.handles) ∉ acts log :=
    fun hmem => Nat.lt_irrefl _ (h.fresh w.handles hmem)
  have halloc : Opened w₀ w.reopened (log ++ [.act (.alloc (some w.handles))])
      [some w.handles] := by
    refine ⟨h.logfile, h.maxFiles, by simpa using h.inside, ?_, ?_⟩
    · intro x hx
      change x < w.handles + 1
      rw [acts_append, acts_act, List.mem_append, List.mem_singleton] at hx
      rcases hx with hx | hx
      · exact Nat.lt_succ_of_lt (h.fresh x hx)
      · cases hx
        exact Nat.lt_succ_self _
    · simpa using h.owns.alloc trivial hnew
  have huse := halloc.use (List.mem_singleton_self _)
  rw [List.append_assoc] at huse
  exact huse

/-! ## The functions -/

section Functions

variable (hfits : w₀.profile.Fits)

theorem Profile.Fits.congr {p p' : Profile} (h : p.Fits) (hlogfile : p'.logfile = p.logfile)
    (hmaxFiles : p'.maxFiles = p.maxFiles) : p'.Fits := by
  unfold Profile.Fits
  rw [hlogfile, hmaxFiles]
  exact h

include hfits in
theorem triple_sprintfName {i : ℕ} (hi : i ≤ w₀.profile.maxFiles) {lost : List Entry → Prop} :
    Triple lost (Ready w₀) (sprintfName i) fun name w log =>
      name = numbered w₀.profile.logfile (toInt i) ∧ Ready w₀ w log := by
  intro w log hready
  have hname : w.profile.file i = numbered w₀.profile.logfile (toInt i) := by
    rw [Profile.file, hready.logfile, toInt_of_lt (by have := hfits.1; omega)]
  rw [sprintfName_apply (hfits.congr hready.logfile hready.maxFiles) (hready.maxFiles ▸ hi) rfl,
    List.append_nil]
  exact Or.inl ⟨hname, hready⟩

/-- The handles do not depend on the files, nor on the time. -/
theorem Opened.files (h : Opened w₀ w log l) (files : Files) :
    Opened w₀ { w with files := files } log l :=
  h.congr rfl rfl rfl

theorem Opened.tick (h : Opened w₀ w log l) : Opened w₀ w.tick log l := h.congr rfl rfl rfl

include hfits in
/-- The log file is moved away and opened again. -/
theorem triple_startNew_ready {i : ℕ} (hi : i ≤ w₀.profile.maxFiles) :
    Triple (Unsteady w₀) (Ready w₀) (startNew i) fun _ => Ready w₀ := by
  refine (triple_sprintfName hfits hi).bind fun dst => Triple.of_pre (fun _ _ h => h.1) ?_
  rintro rfl
  have hremove : Triple (Unsteady w₀) (Ready w₀)
      (removeExisting (numbered w₀.profile.logfile (toInt i))) fun _ => Ready w₀ := by
    refine triple_removeExisting (numbered_ne_nil _ _) ?_ ?_ ?_
    · exact fun w log h => h.tick.tick.files _
    · exact fun w log h _ => h.tick
    · exact fun w log h _ => h.tick.tick
  refine (hremove.mono (fun _ _ h => h.2) fun _ _ _ => id).bind fun _ =>
    Triple.ite (fun _ => Triple.pure fun _ _ => id) fun _ => Triple.get_bind fun w₁ => ?_
  refine Triple.of_pre (p := w₁.profile.logfile = w₀.profile.logfile)
    (fun w log h => h.1 ▸ h.2.logfile) fun hlogfile => ?_
  rw [hlogfile]
  have hclose : Triple (Unsteady w₀) (fun w log => w = w₁ ∧ Ready w₀ w log)
      (agcFileClose w₁.profile.logAfd) fun _ => Shut w₀ := by
    refine Triple.tell ?_
    rintro w log ⟨rfl, hready⟩
    exact Or.inl hready.close
  have hrename : Triple (Unsteady w₀) (Shut w₀)
      (agcFileRename w₀.profile.logfile (numbered w₀.profile.logfile (toInt i)))
      fun renamed w log => renamed = true ∧ Shut w₀ w log := by
    refine triple_rename ?_ ?_
    · exact fun w log h _ => ⟨rfl, h.tick.files _⟩
    · exact fun w log _ _ => Or.inr (unsteady_append (by exact rfl) _)
  have hopen : Triple (Unsteady w₀) (Shut w₀) (openlogfileWith (return true) false)
      fun _ => Ready w₀ := by
    refine triple_openlogfileWith (R := Ready w₀) (fun w log h => h.reopened) ?_ (by simp)
      fun _ _ => id
    exact fun w log h _ => Or.inr (unsteady_append (by exact h.logfile) _)
  refine hclose.bind fun _ => hrename.bind fun renamed => Triple.of_pre (fun _ _ h => h.1) ?_
  rintro rfl
  refine Triple.ite (fun h => absurd rfl h) fun _ => ?_
  exact (hopen.mono (fun _ _ h => h.2) fun _ _ _ => id).bind fun _ => Triple.pure fun _ _ => id

include hfits in
/-- A rotation leaves the log file open. -/
theorem triple_rotate : Triple (Unsteady w₀) (Ready w₀) modLogfileRotate fun _ => Ready w₀ := by
  refine Triple.get_bind fun w₁ => Triple.of_pre (p := w₁.profile.maxFiles = w₀.profile.maxFiles)
    (fun w log h => h.1 ▸ h.2.maxFiles) fun hmaxFiles => ?_
  rw [hmaxFiles, Nat.mod_eq_of_lt w₀.profile.maxFiles_lt]
  refine Triple.mono (P := Ready w₀) ?_ (fun _ _ h => h.2) fun _ _ _ => id
  refine (triple_rotateLoop_keeps (fun i hi => triple_sprintfName hfits hi)
    (fun w log h => h.tick) (fun w log i h => h.files _) (fun w log i j h => h.files _)
    (fun w log i dst h => h.failed _) _ (Nat.le_refl _)).bind ?_
  rintro ⟨ok, i⟩
  refine Triple.of_pre (fun _ _ h => h.2) fun hi => ?_
  refine Triple.mono (P := Ready w₀) ?_ (fun _ _ h => h.1) fun _ _ _ => id
  exact Triple.ite (fun _ => triple_startNew_ready hfits hi)
    fun _ => Triple.pure fun _ _ => id

include hfits in
/-- Opening the log file. -/
theorem triple_openlogfile (check : Bool) :
    Triple (Unsteady w₀) (Shut w₀) (modLogfileOpenlogfile check)
      fun status w log => status = .success ∧ Ready w₀ w log := by
  refine triple_openlogfileWith (R := Ready w₀) (fun w log h => h.reopened) ?_
    (fun _ => triple_rotate hfits) fun _ _ h => ⟨rfl, h⟩
  exact fun w log h _ => Or.inr (unsteady_append (by exact h.logfile) _)

/-- A write to the open file. -/
theorem triple_write (thefile : Option ℕ) (buf : List Byte) :
    Triple (Unsteady w₀) (fun w log => Ready w₀ w log ∧ w.profile.logAfd = thefile)
      (agcFileWrite thefile buf) fun _ w log => Ready w₀ w log ∧ w.profile.logAfd = thefile := by
  rintro w log ⟨hready, rfl⟩
  obtain ⟨r, data, happly⟩ := agcFileWrite_apply w.profile.logAfd buf w
  rw [happly]
  have huse := hready.use (List.mem_singleton_self _)
  exact Or.inl ⟨huse.congr rfl rfl rfl, rfl⟩

include hfits in
theorem triple_writeLog (logData : CStr) :
    Triple (Unsteady w₀) (Ready w₀) (writeLog logData) fun _ => Ready w₀ := by
  refine Triple.get_bind fun w₁ => ?_
  have hwrite : Triple (Unsteady w₀) (fun w log => w = w₁ ∧ Ready w₀ w log)
      (agcFileWrite w₁.profile.logAfd logData.bytes)
      fun _ w log => Ready w₀ w log ∧ w.profile.logAfd = w₁.profile.logAfd :=
    (triple_write _ _).mono (fun w log h => ⟨h.2, by rw [h.1]⟩) fun _ _ _ => id
  refine hwrite.bind ?_
  rintro ⟨ok, len⟩
  refine Triple.ite (fun _ => Triple.pure fun _ _ h => h.1) fun _ => ?_
  have hclose : Triple (Unsteady w₀)
      (fun w log => Ready w₀ w log ∧ w.profile.logAfd = w₁.profile.logAfd)
      (agcFileClose w₁.profile.logAfd) fun _ => Shut w₀ := by
    refine Triple.tell ?_
    rintro w log ⟨hready, hafd⟩
    rw [Ready, hafd] at hready
    exact Or.inl hready.close
  refine hclose.bind fun _ => (triple_openlogfile hfits true).bind fun status =>
    Triple.of_pre (fun _ _ h => h.1) ?_
  rintro rfl
  refine Triple.ite (fun _ => ?_) fun h => absurd rfl h
  refine Triple.get_bind fun w₂ => ?_
  refine ((triple_write w₂.profile.logAfd logData.bytes).mono
    (fun w log h => ⟨h.2.2, by rw [h.1]⟩) fun _ _ _ => id).bind ?_
  rintro ⟨ok, len⟩
  exact Triple.pure fun _ _ h => h.1

include hfits in
/-- A write leaves the log file open. -/
theorem triple_rawWrite (logData : CStr) :
    Triple (Unsteady w₀) (Ready w₀) (rawWrite logData) fun _ => Ready w₀ := by
  have hwrite : Triple (Unsteady w₀) (Ready w₀) (modLogfileRawWrite logData)
      fun _ => Ready w₀ := by
    refine Triple.get_bind fun w₁ => Triple.ite (fun _ => Triple.pure fun _ _ h => h.2) fun _ => ?_
    refine ((triple_writeLog hfits logData).mono (fun _ _ h => h.2)
      fun _ _ _ => id).bind ?_
    rintro ⟨status, len⟩
    refine Triple.ite (fun _ => ?_) fun _ => Triple.pure fun _ _ => id
    refine Triple.bind (Q := fun _ => Ready w₀) (Triple.modify fun w log h => ?_) fun _ => ?_
    · exact h.congr rfl rfl rfl
    refine Triple.get_bind fun w₂ => Triple.ite (fun _ => ?_) fun _ => Triple.pure fun _ _ h => h.2
    exact ((triple_rotate hfits).mono (fun _ _ h => h.2) fun _ _ _ => id).bind fun _ =>
      Triple.pure fun _ _ => id
  exact hwrite.bind fun _ => Triple.pure fun _ _ => id

end Functions

/-- In a run of writes behind the opening of the log file, in which no call to open the log file or
to move it away fails, handles are written and closed only while they are open, and closed at most
once, if the names of its files fit. -/
theorem writes_sound (w₀ : World) (hfits : w₀.profile.Fits) (check : Bool) (texts : List CStr)
    (hsteady : Steady w₀.profile.logfile
      (writes texts ((modLogfileOpenlogfile check).run (w₀, []))).2) :
    (modLogfileOpenlogfile check w₀).1 = .success ∧
    Sound (acts (writes texts ((modLogfileOpenlogfile check).run (w₀, []))).2) ∧
    (∀ h, (acts (writes texts ((modLogfileOpenlogfile check).run (w₀, []))).2).count (.free h) ≤
      1) ∧
    .overflow ∉ (writes texts ((modLogfileOpenlogfile check).run (w₀, []))).2 := by
  have hshut : Shut w₀ w₀ [] := ⟨rfl, rfl, by simp, by simp [acts], owns_nil⟩
  have hopen := triple_openlogfile hfits check w₀ [] hshut
  -- what is lost at the beginning is lost at the end
  have hsuccess : (modLogfileOpenlogfile check w₀).1 = .success := by
    by_contra hne
    have hlost : Unsteady w₀ ((modLogfileOpenlogfile check).run (w₀, [])).2 :=
      hopen.resolve_left fun h => hne h.1
    exact (Triple.foldl (P := fun _ _ => False) (f := rawWrite) (fun _ _ _ => False.elim) texts
      ((modLogfileOpenlogfile check).run (w₀, [])) (Or.inr hlost)).elim id fun h => h hsteady
  have hready : Ready w₀ _ _ := ((Triple.foldl (triple_rawWrite hfits) texts
    ((modLogfileOpenlogfile check).run (w₀, [])) (hopen.imp_left And.right)).resolve_right
      fun h => h hsteady)
  have hsound : Sound (acts (writes texts ((modLogfileOpenlogfile check).run (w₀, []))).2) :=
    hready.owns.sound
  exact ⟨hsuccess, hsound, hsound.count_free_le_one, hready.inside⟩

/-- The log file `l` and a numbered file, where the operations of some times succeed. -/
def sampleWorld (succeeds : ℕ → Bool) : World :=
  { twoFiles shortProfile (shortProfile.file 1) shortProfile_file_ne with
    succeeds := fun _ => succeeds }

/-- Two writes, where all operations succeed. -/
theorem writes_sound_two :
    (modLogfileOpenlogfile true (sampleWorld fun _ => true)).1 = .success ∧
    Sound (acts (writes [⟨[97], by decide⟩, ⟨[98], by decide⟩]
      ((modLogfileOpenlogfile true).run (sampleWorld fun _ => true, []))).2) := by
  have h := writes_sound (sampleWorld fun _ => true) ⟨by decide, by decide⟩ true
    [⟨[97], by decide⟩, ⟨[98], by decide⟩] (by decide)
  exact ⟨h.1, h.2.1⟩

/-- A write fails and the log file cannot be opened again: the next write is to a closed file. -/
theorem write_after_close :
    (modLogfileOpenlogfile true (sampleWorld fun t => t < 2)).1 = .success ∧
    ¬ Sound (acts (writes [⟨[97], by decide⟩, ⟨[98], by decide⟩]
      ((modLogfileOpenlogfile true).run (sampleWorld fun t => t < 2, []))).2) := by
  refine ⟨rfl, ?_⟩
  decide

end Logfile
