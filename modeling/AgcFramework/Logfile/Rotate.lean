import AgcFramework.Logfile.Model

/-!
# Rotation of the log files

The numbered files are renamed from the last one down, so that no file is overwritten but the last
one. At each point of the loop the files above it have moved, and there is no file at it. Where an
operation fails the loop stops, and the files that have moved stay where they are.

## Main definitions

* `Shift w w'`: the files have moved by one, and there is a new log file
* `Rotates w`: what a rotation does, if all operations succeed and if they do not
* `Moved w f i`: the files from the number `i` on have moved

## Main results

* `triple_rotateLoop`, `triple_startNew`: the loop, and what is behind it
* `triple_rotateLoop_keeps`, `rotate_frame`: what a rotation leaves alone
* `rotate_iff`: the profiles for which a rotation works
-/

namespace Logfile

open Ledger Command

/-! ## What a rotation is for -/

/-- The name of a numbered file. -/
def Profile.file (p : Profile) (k : ℕ) : CStr := numbered p.logfile k

/-- The files have moved by one, and there is a new log file. -/
structure Shift (w w' : World) : Prop where
  first : w'.files.inode (w.profile.file 1) = w.files.inode w.profile.logfile
  next : ∀ k, 1 ≤ k → k < w.profile.maxFiles →
    w'.files.inode (w.profile.file (k + 1)) = w.files.inode (w.profile.file k)
  gone : ∀ i, w.files.inode (w.profile.file w.profile.maxFiles) = some i →
    ∀ name, w'.files.inode name ≠ some i
  rest : ∀ j, w.profile.maxFiles < j →
    w'.files.inode (w.profile.file j) = w.files.inode (w.profile.file j)
  fresh : ∃ i, w'.files.inode w.profile.logfile = some i ∧ w.files.next ≤ i ∧ w'.data i = []
  size : w'.profile.logSize = 0
  data : ∀ i < w.files.next, w'.data i = w.data i

/-- The rotation stays inside of its arrays. It moves the files if all operations succeed, and in
any case all files but the last one are found under one name. -/
structure Rotates (w : World) : Prop where
  inside : .overflow ∉ (modLogfileRotate w).2.2
  shift : (∀ op t, w.succeeds op t = true) → w.files.inode w.profile.logfile ≠ none →
    Shift w (modLogfileRotate w).2.1
  kept : ∀ name i, w.files.inode name = some i → name ≠ w.profile.file w.profile.maxFiles →
    (∃! name', (modLogfileRotate w).2.1.files.inode name' = some i) ∧
      (modLogfileRotate w).2.1.data i = w.data i

/-! ## Names -/

theorem numbered_injective (logfile : CStr) :
    Function.Injective fun k : ℕ => numbered logfile k := by
  intro k l h
  have hbytes := congrArg CStr.bytes h
  simp only [numbered, List.append_cancel_left_eq, List.cons.injEq, true_and,
    Decimal.decimalInt_natCast] at hbytes
  exact Decimal.decimal_injective hbytes

theorem numbered_ne (logfile : CStr) (z : ℤ) : numbered logfile z ≠ logfile := by
  intro h
  have hlength := congrArg (fun s : CStr => s.bytes.length) h
  simp [numbered] at hlength

theorem numbered_ne_nil (logfile : CStr) (z : ℤ) : (numbered logfile z).bytes ≠ [] := by
  simp [numbered]

theorem toInt_of_lt {i : ℕ} (hi : i < 2 ^ 31) : toInt i = i :=
  Int.bmod_eq_of_le (by omega) (by omega)

variable {w₀ : World} {f : Files} {i : ℕ}

theorem Profile.file_ne {p : Profile} {k l : ℕ} (h : k ≠ l) : p.file k ≠ p.file l :=
  fun heq => h (numbered_injective p.logfile heq)

/-! ## Files that have moved -/

/-- The files from the number `i` on have moved by one, and none is left there. -/
structure Moved (w : World) (f : Files) (i : ℕ) : Prop where
  above : ∀ k, i ≤ k → k < w.profile.maxFiles →
    f.inode (w.profile.file (k + 1)) = w.files.inode (w.profile.file k)
  here : f.inode (w.profile.file i) = none ∨
    i = w.profile.maxFiles ∧ f.inode (w.profile.file i) = w.files.inode (w.profile.file i)
  other : ∀ name, (∀ k, i ≤ k → k ≤ w.profile.maxFiles → name ≠ w.profile.file k) →
    f.inode name = w.files.inode name

theorem moved_refl (w : World) : Moved w w.files w.profile.maxFiles where
  above _ hk hlt := absurd hlt (Nat.not_lt.mpr hk)
  here := Or.inr ⟨rfl, rfl⟩
  other _ _ := rfl

/-- The file at the place is removed. -/
theorem Moved.remove (h : Moved w₀ f i) (hi : i ≤ w₀.profile.maxFiles) :
    Moved w₀ (f.remove (w₀.profile.file i)) i where
  above k hk hlt := by
    rw [← h.above k hk hlt]
    exact if_neg (Profile.file_ne (by omega))
  here := Or.inl (if_pos rfl)
  other name hname := (if_neg (hname i (Nat.le_refl i) hi)).trans (h.other name hname)

/-- The file below the place is as it was. -/
theorem Moved.below (h : Moved w₀ f (i + 1)) :
    f.inode (w₀.profile.file i) = w₀.files.inode (w₀.profile.file i) := by
  exact h.other _ fun k hk _ => Profile.file_ne (by omega)

/-- The file below the place is renamed. -/
theorem Moved.rename (h : Moved w₀ f (i + 1)) (hi : i < w₀.profile.maxFiles) :
    Moved w₀ (f.rename (w₀.profile.file i) (w₀.profile.file (i + 1))) i where
  above k hk hlt := by
    rcases Nat.eq_or_lt_of_le hk with rfl | hk
    · exact (if_pos rfl).trans h.below
    · rw [← h.above k hk hlt]
      exact (if_neg (Profile.file_ne (by omega))).trans (if_neg (Profile.file_ne (by omega)))
  here := Or.inl ((if_neg (Profile.file_ne (by omega))).trans (if_pos rfl))
  other name hname := by
    have hother := h.other name fun k hk => hname k (by omega)
    have hne := hname (i + 1) (by omega) hi
    have hne' := hname i (Nat.le_refl i) (Nat.le_of_lt hi)
    exact (if_neg hne).trans ((if_neg hne').trans hother)

/-- There is no file below the place, and none at it. -/
theorem Moved.skip (h : Moved w₀ f (i + 1))
    (hhere : f.inode (w₀.profile.file (i + 1)) = none)
    (hbelow : f.inode (w₀.profile.file i) = none) : Moved w₀ f i where
  above k hk hlt := by
    rcases Nat.eq_or_lt_of_le hk with rfl | hk
    · rw [hhere, ← h.below, hbelow]
    · exact h.above k hk hlt
  here := Or.inl hbelow
  other name hname := h.other name fun k hk => hname k (by omega)

/-- All files but the last one are found. -/
theorem Moved.exists_inode (h : Moved w₀ f i) {name : CStr} {n : ℕ}
    (hname : w₀.files.inode name = some n)
    (hlast : name ≠ w₀.profile.file w₀.profile.maxFiles) : ∃ name', f.inode name' = some n := by
  by_cases hmoved : ∃ k, i ≤ k ∧ k < w₀.profile.maxFiles ∧ name = w₀.profile.file k
  · obtain ⟨k, hk, hlt, rfl⟩ := hmoved
    exact ⟨_, (h.above k hk hlt).trans hname⟩
  · refine ⟨name, (h.other name fun k hk hle heq => ?_).trans hname⟩
    rcases Nat.lt_or_eq_of_le hle with hlt | rfl
    · exact hmoved ⟨k, hk, hlt, heq⟩
    · exact hlast heq

/-! ## The loop -/

/-- The names of the files are printed as they are, and fit into the arrays. -/
def Profile.Fits (p : Profile) : Prop :=
  p.maxFiles < 2 ^ 31 ∧ p.logfile.bytes.length + (Decimal.decimal p.maxFiles).length + 2 ≤ 256

theorem sprintfName_apply {p : Profile} (hfits : p.Fits) (hi : i ≤ p.maxFiles) {w : World}
    (hw : w.profile = p) : sprintfName i w = (p.file i, w, []) := by
  subst hw
  obtain ⟨hlt, hlength⟩ := hfits
  have hname : numbered w.profile.logfile (toInt i) = w.profile.file i := by
    rw [toInt_of_lt (by omega), Profile.file]
  have hdigits := Decimal.length_decimal_le hi
  have hroom : (w.profile.file i).bytes.length + 1 ≤ 256 := by
    simp only [Profile.file, numbered, List.length_append, List.length_cons,
      Decimal.decimalInt_natCast]
    omega
  rw [sprintfName, bind_apply, get_apply]
  simp only [hname, if_pos hroom]
  rfl

section Loop

variable {lost : List Entry → Prop} {P : World → List Entry → Prop}

theorem triple_bind_sprintfName {β : Type} {k : CStr → LogM β} {R : β → World → List Entry → Prop}
    {p : Profile} (hfits : p.Fits) (hi : i ≤ p.maxFiles) (hP : ∀ w log, P w log → w.profile = p)
    (h : Triple lost P (k (p.file i)) R) : Triple lost P (sprintfName i >>= k) R := by
  intro w log hw
  rw [bind_apply, sprintfName_apply hfits hi (hP w log hw)]
  exact h w log hw

/-- The loop of a rotation from `w₀` is at the number `i`. -/
def At (w₀ : World) (i : ℕ) (w : World) (log : List Entry) : Prop :=
  w.profile = w₀.profile ∧ w.succeeds = w₀.succeeds ∧ w.data = w₀.data ∧
    w.files.next = w₀.files.next ∧ .overflow ∉ log ∧ Moved w₀ w.files i

/-- An operation failed. -/
def Failed (w₀ : World) : Prop := ∃ op t, w₀.succeeds op t = false

variable (hfits : w₀.profile.Fits) (htruth : ∀ name t, w₀.succeeds (.stat name) t = true)

include htruth in
/-- The file at the place is removed, if there is one. -/
theorem triple_removeAt (hi : i ≤ w₀.profile.maxFiles) :
    Triple lost (At w₀ i) (removeExisting (w₀.profile.file i)) fun removed w log =>
      At w₀ i w log ∧ (removed = true → w.files.inode (w₀.profile.file i) = none) ∧
        (removed = false → Failed w₀) := by
  refine triple_removeExisting (numbered_ne_nil _ _) ?_ ?_ ?_
  · rintro w log ⟨hprofile, hsucceeds, hdata, hnext, hlog, hmoved⟩
    exact ⟨⟨hprofile, hsucceeds, hdata, hnext, hlog, hmoved.remove hi⟩, fun _ => if_pos rfl,
      by simp⟩
  · rintro w log hat (hstat | hnone)
    · rw [hat.2.1, htruth] at hstat
      cases hstat
    · exact ⟨hat, fun _ => hnone, by simp⟩
  · intro w log hat hfail
    exact ⟨hat, by simp, fun _ => ⟨_, _, hat.2.1 ▸ hfail⟩⟩

include htruth in
/-- The file below the place is renamed, if there is one. -/
theorem triple_renameBelow (hi : i < w₀.profile.maxFiles) :
    Triple lost (fun w log => At w₀ (i + 1) w log ∧
        w.files.inode (w₀.profile.file (i + 1)) = none)
      (renameExisting (w₀.profile.file i) (w₀.profile.file (i + 1))) fun renamed w log =>
        (renamed = true → At w₀ i w log) ∧ (renamed = false → At w₀ (i + 1) w log ∧ Failed w₀) := by
  refine triple_renameExisting (numbered_ne_nil _ _) ?_ ?_ ?_
  · rintro w log ⟨⟨hprofile, hsucceeds, hdata, hnext, hlog, hmoved⟩, -⟩ -
    exact ⟨fun _ => ⟨hprofile, hsucceeds, hdata, hnext, hlog, hmoved.rename hi⟩, by simp⟩
  · rintro w log ⟨⟨hprofile, hsucceeds, hdata, hnext, hlog, hmoved⟩, hhere⟩ (hstat | hnone)
    · rw [hsucceeds, htruth] at hstat
      cases hstat
    · exact ⟨fun _ => ⟨hprofile, hsucceeds, hdata, hnext, hlog, hmoved.skip hhere hnone⟩, by simp⟩
  · rintro w log ⟨⟨hprofile, hsucceeds, hdata, hnext, hlog, hmoved⟩, -⟩ hfail
    exact ⟨by simp, fun _ => ⟨⟨hprofile, hsucceeds, hdata, hnext, by simpa using hlog, hmoved⟩, _,
      _, hsucceeds ▸ hfail⟩⟩

include hfits htruth in
/-- The loop moves all files, or an operation failed. -/
theorem triple_rotateLoop (i : ℕ) (hi : 1 ≤ i) (him : i ≤ w₀.profile.maxFiles) :
    Triple (fun _ => False) (At w₀ i) (rotateLoop i) fun r w log =>
      r = (true, 1) ∧ At w₀ 1 w log ∨ r.1 = false ∧ (∃ j, At w₀ j w log) ∧ Failed w₀ := by
  induction i with
  | zero => exact absurd hi (by decide)
  | succ i ih =>
    cases i with
    | zero => exact Triple.pure fun w log hat => Or.inl ⟨rfl, hat⟩
    | succ i =>
      refine triple_bind_sprintfName hfits him (fun w log hat => hat.1) ?_
      refine triple_bind_sprintfName hfits (by omega) (fun w log hat => hat.1) ?_
      refine (triple_removeAt htruth him).bind fun removed => Triple.ite (fun h => ?_) fun h => ?_
      · refine Triple.pure fun w log hat => Or.inr ⟨rfl, ⟨_, hat.1⟩, hat.2.2 (by simpa using h)⟩
      · have hremoved : removed = true := by simpa using h
        refine Triple.mono ((triple_renameBelow htruth (by omega)).bind fun renamed =>
          Triple.ite (fun h => ?_) fun h => ?_) (fun w log hat => ⟨hat.1, hat.2.1 hremoved⟩)
          (fun _ _ _ => id)
        · refine Triple.pure fun w log hat => ?_
          obtain ⟨hat, hfail⟩ := hat.2 (by simpa using h)
          exact Or.inr ⟨rfl, ⟨_, hat⟩, hfail⟩
        · have hrenamed : renamed = true := by simpa using h
          exact Triple.mono (ih (by omega) (by omega)) (fun w log hat => hat.1 hrenamed)
            (fun _ _ _ => id)

end Loop

/-- The last file is no longer found. -/
theorem Moved.gone (h : Moved w₀ f 1) (hfirst : f.inode (w₀.profile.file 1) = none) {name : CStr}
    {n : ℕ} (hlast : w₀.files.inode (w₀.profile.file w₀.profile.maxFiles) = some n) :
    f.inode name ≠ some n := by
  intro hname
  by_cases hmoved : ∃ k, 1 ≤ k ∧ k < w₀.profile.maxFiles ∧ name = w₀.profile.file (k + 1)
  · obtain ⟨k, hk, hlt, rfl⟩ := hmoved
    rw [h.above k hk hlt] at hname
    exact Profile.file_ne (Nat.ne_of_lt hlt) (w₀.files.inj hname hlast)
  · have hne : ∀ k, 1 ≤ k → k ≤ w₀.profile.maxFiles → name ≠ w₀.profile.file k := by
      rintro k hk hle rfl
      rcases Nat.eq_or_lt_of_le hk with rfl | hlt
      · rw [hfirst] at hname
        cases hname
      · exact hmoved ⟨k - 1, by omega, by omega, by rw [Nat.sub_add_cancel hk]⟩
    rw [h.other name hne] at hname
    exact hne _ w₀.profile.maxFiles_pos (Nat.le_refl _) (w₀.files.inj hname hlast)

/-! ## The new log file -/

/-- The log file is renamed to the first number, where there is no file. -/
structure Away (w : World) (f : Files) : Prop where
  first : f.inode (w.profile.file 1) = w.files.inode w.profile.logfile
  log : f.inode w.profile.logfile = none
  other : ∃ f', Moved w f' 1 ∧ f'.inode (w.profile.file 1) = none ∧ ∀ name,
    name ≠ w.profile.file 1 → name ≠ w.profile.logfile → f.inode name = f'.inode name

theorem Moved.inode_logfile (h : Moved w₀ f i) :
    f.inode w₀.profile.logfile = w₀.files.inode w₀.profile.logfile :=
  h.other _ fun _ _ _ => (numbered_ne _ _).symm

theorem Moved.away (h : Moved w₀ f 1) (hfirst : f.inode (w₀.profile.file 1) = none) :
    Away w₀ (f.rename w₀.profile.logfile (w₀.profile.file 1)) where
  first := (if_pos rfl).trans h.inode_logfile
  log := (if_neg (numbered_ne _ _).symm).trans (if_pos rfl)
  other := ⟨f, h, hfirst, fun _ hne hne' => (if_neg hne).trans (if_neg hne')⟩

theorem Away.exists_inode (h : Away w₀ f) {name : CStr} {n : ℕ}
    (hname : w₀.files.inode name = some n)
    (hlast : name ≠ w₀.profile.file w₀.profile.maxFiles) : ∃ name', f.inode name' = some n := by
  by_cases hlog : name = w₀.profile.logfile
  · exact ⟨_, h.first.trans (hlog ▸ hname)⟩
  · obtain ⟨f', hmoved, hfirst, hother⟩ := h.other
    obtain ⟨name', hname'⟩ := hmoved.exists_inode hname hlast
    refine ⟨name', (hother name' ?_ ?_).trans hname'⟩
    · rintro rfl
      rw [hfirst] at hname'
      cases hname'
    · rintro rfl
      rw [hmoved.inode_logfile] at hname'
      exact hlog (w₀.files.inj hname hname')

theorem create_inode_of_ne {name name' : CStr} (h : name ≠ name') :
    (f.create name').inode name = f.inode name := if_neg fun h' => h h'.1

theorem create_inode_of_some {name name' : CStr} {n : ℕ} (h : f.inode name = some n) :
    (f.create name').inode name = some n := by
  refine (if_neg ?_).trans h
  rintro ⟨rfl, hnone⟩
  rw [h] at hnone
  cases hnone

/-- The files behind a rotation, by name. -/
theorem Away.shift (h : Away w₀ f) (hnext : f.next = w₀.files.next) {w : World}
    (hw : w.files = f.create w₀.profile.logfile)
    (hfresh : w.data w₀.files.next = []) (hsize : w.profile.logSize = 0)
    (hdata : ∀ n < w₀.files.next, w.data n = w₀.data n) : Shift w₀ w := by
  obtain ⟨f', hmoved, hfirst, hother⟩ := h.other
  have hne : ∀ k, w₀.profile.file k ≠ w₀.profile.logfile := fun k => numbered_ne _ _
  have hfile : ∀ k, w.files.inode (w₀.profile.file k) = f.inode (w₀.profile.file k) := by
    intro k
    rw [hw]
    exact create_inode_of_ne (hne k)
  -- the log file is made again, as a new file
  have hnew : w.files.inode w₀.profile.logfile = some w₀.files.next := by
    rw [hw, ← hnext]
    exact if_pos ⟨rfl, h.log⟩
  refine ⟨?_, ?_, ?_, ?_, ⟨_, hnew, Nat.le_refl _, hfresh⟩, hsize, hdata⟩
  · rw [hfile, h.first]
  · intro k hk hlt
    rw [hfile, hother _ (Profile.file_ne (by omega)) (hne _), hmoved.above k hk hlt]
  · intro n hlast name hname
    -- the file that fell out at the end has no name any more
    by_cases hlogfile : name = w₀.profile.logfile
    · rw [hlogfile, hnew] at hname
      have := w₀.files.lt_next hlast
      have := Option.some.inj hname
      omega
    rw [hw, create_inode_of_ne hlogfile] at hname
    by_cases hone : name = w₀.profile.file 1
    · rw [hone, h.first] at hname
      exact hne _ (w₀.files.inj hlast hname)
    rw [hother name hone hlogfile] at hname
    exact hmoved.gone hfirst hlast hname
  · intro j hj
    rw [hfile, hother _ (Profile.file_ne ?_) (hne _),
      hmoved.other _ fun k _ hle => Profile.file_ne (by omega)]
    have := w₀.profile.maxFiles_pos
    omega

section Run

variable (hfits : w₀.profile.Fits) (htruth : ∀ name t, w₀.succeeds (.stat name) t = true)

/-- All files but the last one are found with their data. -/
def Kept (w₀ w : World) : Prop := ∀ name n, w₀.files.inode name = some n →
  name ≠ w₀.profile.file w₀.profile.maxFiles →
  (∃ name', w.files.inode name' = some n) ∧ w.data n = w₀.data n

/-- A rotation that ended: the files are moved, or an operation failed. -/
def Ended (w₀ : World) (w : World) (log : List Entry) : Prop :=
  .overflow ∉ log ∧ Kept w₀ w ∧
    (Failed w₀ ∨ w₀.files.inode w₀.profile.logfile = none ∨ Shift w₀ w)

theorem Ended.of_at {w : World} {log : List Entry} (h : At w₀ i w log)
    (hfail : Failed w₀ ∨ w₀.files.inode w₀.profile.logfile = none) : Ended w₀ w log := by
  obtain ⟨-, -, hdata, -, hlog, hmoved⟩ := h
  refine ⟨hlog, fun name n hname hlast => ⟨hmoved.exists_inode hname hlast, by rw [hdata]⟩, ?_⟩
  exact hfail.imp_right Or.inl

/-- The log file is renamed and closed. -/
def Closed (w₀ : World) (w : World) (log : List Entry) : Prop :=
  w.profile = w₀.profile ∧ w.succeeds = w₀.succeeds ∧ w.data = w₀.data ∧
    w.files.next = w₀.files.next ∧ .overflow ∉ log ∧ Away w₀ w.files

theorem Closed.kept {w : World} {log : List Entry} (h : Closed w₀ w log) : Kept w₀ w := by
  obtain ⟨-, -, hdata, -, -, haway⟩ := h
  exact fun name n hname hlast => ⟨haway.exists_inode hname hlast, by rw [hdata]⟩

/-- A new log file is opened. -/
theorem triple_reopen {rotate : LogM Bool} : Triple (fun _ => False) (Closed w₀)
    (openlogfileWith rotate false) fun _ => Ended w₀ := by
  refine triple_openlogfileWith (R := Ended w₀) ?_ ?_ (by simp) fun _ _ => id
  · intro w log hclosed
    have hkept := hclosed.kept
    obtain ⟨hprofile, -, hdata, hnext, hlog, haway⟩ := hclosed
    have hfiles : w.reopened.files = w.files.create w₀.profile.logfile := by
      rw [← hprofile]
      rfl
    have hnone : w.files.inode w.profile.logfile = none := hprofile ▸ haway.log
    have hupdate : w.reopened.data = Function.update w₀.data w₀.files.next [] := by
      rw [← hdata, ← hnext]
      exact if_pos hnone
    have hsize : w.reopened.profile.logSize = 0 := by
      simp [World.reopened, World.opened, hnone]
    have hold : ∀ n < w₀.files.next, w.reopened.data n = w₀.data n := by
      intro n hn
      rw [hupdate, Function.update_of_ne (Nat.ne_of_lt hn)]
    refine ⟨by simpa using hlog, ?_, Or.inr (Or.inr ?_)⟩
    · intro name n hname hlast
      obtain ⟨⟨name', hname'⟩, -⟩ := hkept name n hname hlast
      exact ⟨⟨name', hfiles ▸ create_inode_of_some hname'⟩, hold n (w₀.files.lt_next hname)⟩
    · exact haway.shift hnext hfiles (by rw [hupdate, Function.update_self]) hsize hold
  · intro w log hclosed hfail
    exact Or.inl ⟨by simpa using hclosed.2.2.2.2.1, hclosed.kept,
      Or.inl ⟨_, _, hclosed.2.1 ▸ hfail⟩⟩

include hfits htruth in
theorem triple_startNew : Triple (fun _ => False) (At w₀ 1) (startNew 1) fun _ => Ended w₀ := by
  refine triple_bind_sprintfName hfits w₀.profile.maxFiles_pos (fun w log hat => hat.1) ?_
  refine (triple_removeAt htruth w₀.profile.maxFiles_pos).bind fun removed =>
    Triple.ite (fun h => ?_) fun h => ?_
  · exact Triple.pure fun w log hat => Ended.of_at hat.1 (Or.inl (hat.2.2 (by simpa using h)))
  · have hremoved : removed = true := by simpa using h
    refine Triple.get_bind fun w₁ => Triple.of_pre (p := w₁.profile = w₀.profile)
      (fun w log h => h.1 ▸ h.2.1.1) fun hprofile => ?_
    rw [hprofile]
    -- the log is closed, renamed to the first number, and opened again
    have hclose : Triple (fun _ => False) (fun w log => w = w₁ ∧ At w₀ 1 w log ∧
          (removed = true → w.files.inode (w₀.profile.file 1) = none) ∧
          (removed = false → Failed w₀)) (agcFileClose w₀.profile.logAfd) fun _ w log =>
          At w₀ 1 w log ∧ w.files.inode (w₀.profile.file 1) = none := by
      refine Triple.tell fun w log ⟨_, hat, hnone, _⟩ => Or.inl ⟨?_, hnone hremoved⟩
      obtain ⟨hprofile, hsucceeds, hdata, hnext, hlog, hmoved⟩ := hat
      exact ⟨hprofile, hsucceeds, hdata, hnext, by simpa using hlog, hmoved⟩
    have hrename : Triple (fun _ => False) (fun w log => At w₀ 1 w log ∧
          w.files.inode (w₀.profile.file 1) = none)
        (agcFileRename w₀.profile.logfile (w₀.profile.file 1)) fun renamed w log =>
          (renamed = true → Closed w₀ w log) ∧ (renamed = false → Ended w₀ w log) := by
      refine triple_rename ?_ ?_
      · rintro w log ⟨⟨hprofile, hsucceeds, hdata, hnext, hlog, hmoved⟩, hnone⟩ -
        exact ⟨fun _ => ⟨hprofile, hsucceeds, hdata, hnext, hlog, hmoved.away hnone⟩, by simp⟩
      · rintro w log ⟨⟨hprofile, hsucceeds, hdata, hnext, hlog, hmoved⟩, -⟩ hfail
        refine Or.inl ⟨by simp, fun _ => Ended.of_at
          ⟨hprofile, hsucceeds, hdata, hnext, by simpa using hlog, hmoved⟩ ?_⟩
        exact hfail.imp (fun hfail => ⟨_, _, hsucceeds ▸ hfail⟩)
          fun hnone => hmoved.inode_logfile ▸ hnone
    refine hclose.bind fun _ => hrename.bind fun renamed => Triple.ite (fun h => ?_) fun h => ?_
    · exact Triple.pure fun w log hended => hended.2 (by simpa using h)
    · have hrenamed : renamed = true := by simpa using h
      refine Triple.bind (Q := fun _ => Ended w₀) ?_ fun _ => Triple.pure fun _ _ => id
      exact triple_reopen.mono (fun w log h => h.1 hrenamed) fun _ _ _ => id

include hfits htruth in
theorem ended_rotate : Ended w₀ (modLogfileRotate w₀).2.1 (modLogfileRotate w₀).2.2 := by
  have hmax : w₀.profile.maxFiles % 2 ^ 32 = w₀.profile.maxFiles :=
    Nat.mod_eq_of_lt w₀.profile.maxFiles_lt
  have htriple : Triple (fun _ => False) (fun w log => w = w₀ ∧ log = []) modLogfileRotate
      fun _ => Ended w₀ := by
    refine Triple.get_bind fun w₁ => Triple.of_pre (p := w₁ = w₀) (fun w log h => h.1 ▸ h.2.1) ?_
    rintro rfl
    rw [hmax]
    refine Triple.bind ((triple_rotateLoop hfits htruth _ w₁.profile.maxFiles_pos
      (Nat.le_refl _)).mono ?_ fun _ _ _ => id) ?_
    · rintro w log ⟨rfl, -, rfl⟩
      exact ⟨rfl, rfl, rfl, rfl, by simp, moved_refl w⟩
    · rintro ⟨ok, i⟩
      -- the loop ended at the first number, or a file could not be moved
      cases ok with
      | true =>
        refine Triple.of_pre (p := i = 1) ?_ ?_
        · rintro w log (⟨h, -⟩ | ⟨h, -⟩)
          · exact (Prod.mk.inj h).2
          · cases h
        · rintro rfl
          refine (triple_startNew hfits htruth).mono ?_ fun _ _ _ => id
          rintro w log (⟨-, hat⟩ | ⟨h, -⟩)
          · exact hat
          · cases h
      | false =>
        refine Triple.pure ?_
        rintro w log (⟨h, -⟩ | ⟨-, ⟨j, hat⟩, hfail⟩)
        · cases h
        · exact Ended.of_at hat (Or.inl hfail)
  have hended := htriple w₀ [] ⟨rfl, rfl⟩
  simpa using hended

include hfits htruth in
/-- A rotation works if the names fit and files that are there are seen. -/
theorem rotates_of_fits : Rotates w₀ := by
  obtain ⟨hlog, hkept, hcase⟩ := ended_rotate hfits htruth
  refine ⟨hlog, fun hsucceeds hexists => ?_, fun name n hname hlast => ?_⟩
  · rcases hcase with ⟨op, t, hfail⟩ | hnone | hshift
    · rw [hsucceeds] at hfail
      cases hfail
    · exact absurd hnone hexists
    · exact hshift
  · obtain ⟨⟨name', hname'⟩, hdata⟩ := hkept name n hname hlast
    exact ⟨⟨name', hname', fun _ h => Files.inj _ h hname'⟩, hdata⟩

end Run

/-! ## What the loop leaves alone -/

/-- The loop keeps what making its names and moving its files keeps. -/
theorem triple_rotateLoop_keeps {lost : List Entry → Prop} [Sticky lost]
    {P : World → List Entry → Prop} {logfile : CStr} {m : ℕ}
    (hsprintf : ∀ i ≤ m, Triple lost P (sprintfName i) fun name w log =>
      name = numbered logfile (toInt i) ∧ P w log)
    (htick : ∀ w log, P w log → P w.tick log)
    (hremove : ∀ w log i, P w log →
      P { w with files := w.files.remove (numbered logfile (toInt i)) } log)
    (hrename : ∀ w log i j, P w log → P { w with
      files := w.files.rename (numbered logfile (toInt i)) (numbered logfile (toInt j)) } log)
    (hfail : ∀ w log i dst, P w log →
      P w (log ++ [.failed (.rename (numbered logfile (toInt i)) dst)]))
    (i : ℕ) (hi : i ≤ m) : Triple lost P (rotateLoop i) fun r w log => P w log ∧ r.2 ≤ m := by
  induction i with
  | zero => exact Triple.pure fun _ _ h => ⟨h, hi⟩
  | succ i ih =>
    cases i with
    | zero => exact Triple.pure fun _ _ h => ⟨h, hi⟩
    | succ i =>
      refine (hsprintf _ hi).bind fun dst => Triple.of_pre (fun _ _ h => h.1) ?_
      rintro rfl
      refine Triple.mono (P := P) ?_ (fun _ _ h => h.2) fun _ _ _ => id
      refine (hsprintf _ (by omega)).bind fun src => Triple.of_pre (fun _ _ h => h.1) ?_
      rintro rfl
      refine Triple.mono (P := P) ?_ (fun _ _ h => h.2) fun _ _ _ => id
      refine (triple_removeExisting (Q := fun _ => P) (numbered_ne_nil _ _) ?_ ?_ ?_).bind fun _ =>
        Triple.ite (fun _ => Triple.pure fun _ _ h => ⟨h, hi⟩) fun _ => ?_
      · exact fun w log h => hremove w.tick.tick log _ (htick _ _ (htick _ _ h))
      · exact fun w log h _ => htick w log h
      · exact fun w log h _ => htick _ _ (htick _ _ h)
      refine (triple_renameExisting (Q := fun _ => P) (numbered_ne_nil _ _) ?_ ?_ ?_).bind fun _ =>
        Triple.ite (fun _ => Triple.pure fun _ _ h => ⟨h, hi⟩) fun _ => ih (by omega)
      · exact fun w log h _ => hrename w.tick.tick log _ _ (htick _ _ (htick _ _ h))
      · exact fun w log h _ => htick w log h
      · exact fun w log h _ => hfail _ _ _ _ (htick _ _ (htick _ _ h))

section Frame

variable {lost : List Entry → Prop} {logfile name : CStr} {c : Option ℕ}

/-- The file of a name that the rotation does not make is as it was. -/
def Frame (logfile name : CStr) (c : Option ℕ) (w : World) (_ : List Entry) : Prop :=
  w.profile.logfile = logfile ∧ w.files.inode name = c

theorem triple_sprintf_frame [Sticky lost] (i : ℕ) :
    Triple lost (Frame logfile name c) (sprintfName i)
      fun dst w log => dst = numbered logfile (toInt i) ∧ Frame logfile name c w log := by
  refine Triple.get_bind fun w₁ => Triple.of_pre (p := w₁.profile.logfile = logfile)
    (fun w log h => h.1 ▸ h.2.1) fun hw₁ => ?_
  rw [hw₁]
  refine Triple.ite (fun _ => Triple.pure fun w log h => ⟨rfl, h.2⟩) fun _ => ?_
  refine Triple.bind (Q := fun _ => Frame logfile name c) ?_ fun _ =>
    Triple.pure fun w log h => ⟨rfl, h⟩
  exact Triple.tell fun w log h => Or.inl h.2

variable (hname : ∀ i, name ≠ numbered logfile (toInt i))

include hname in
theorem triple_rotateLoop_frame (i : ℕ) : Triple (fun _ => False) (Frame logfile name c)
    (rotateLoop i) fun _ => Frame logfile name c := by
  refine (triple_rotateLoop_keeps (m := i) (fun i _ => triple_sprintf_frame i) ?_ ?_ ?_ ?_ i
    (Nat.le_refl i)).mono (fun _ _ => id) fun _ _ _ h => h.1
  · exact fun _ _ h => h
  · exact fun w log i h => ⟨h.1, (if_neg (hname i)).trans h.2⟩
  · exact fun w log i j h => ⟨h.1, (if_neg (hname j)).trans ((if_neg (hname i)).trans h.2)⟩
  · exact fun _ _ _ _ h => h

include hname in
theorem triple_startNew_frame (hlogfile : name ≠ logfile) (i : ℕ) : Triple (fun _ => False)
    (Frame logfile name c) (startNew i) fun _ => Frame logfile name c := by
  have hremove : Triple (fun _ => False) (Frame logfile name c)
      (removeExisting (numbered logfile (toInt i))) fun _ => Frame logfile name c := by
    refine triple_removeExisting (numbered_ne_nil _ _) ?_ ?_ ?_
    · exact fun w log h => ⟨h.1, (if_neg (hname _)).trans h.2⟩
    · exact fun w log h _ => h
    · exact fun w log h _ => h
  refine (triple_sprintf_frame i).bind fun dst => Triple.of_pre (fun _ _ h => h.1) ?_
  rintro rfl
  refine (hremove.mono (fun _ _ h => h.2) fun _ _ _ => id).bind fun _ =>
    Triple.ite (fun _ => Triple.pure fun _ _ => id) fun _ => ?_
  refine Triple.get_bind fun w₁ => Triple.of_pre (p := w₁.profile.logfile = logfile)
    (fun w log h => h.1 ▸ h.2.1) fun hw₁ => ?_
  rw [hw₁]
  -- none of the names that are removed, renamed or made is `name`
  have hclose : Triple (fun _ => False) (fun w log => w = w₁ ∧ Frame logfile name c w log)
      (agcFileClose w₁.profile.logAfd) fun _ => Frame logfile name c :=
    Triple.tell fun w log h => Or.inl h.2
  have hrename : Triple (fun _ => False) (Frame logfile name c)
      (agcFileRename logfile (numbered logfile (toInt i))) fun _ => Frame logfile name c := by
    refine triple_rename ?_ ?_
    · exact fun w log h _ => ⟨h.1, (if_neg (hname _)).trans ((if_neg hlogfile).trans h.2)⟩
    · exact fun w log h _ => Or.inl h
  have hopen : Triple (fun _ => False) (Frame logfile name c) (openlogfileWith (return true) false)
      fun _ => Frame logfile name c := by
    refine triple_openlogfileWith (R := Frame logfile name c) ?_ ?_ (by simp) fun _ _ => id
    · exact fun w log h => ⟨h.1, (create_inode_of_ne (h.1 ▸ hlogfile)).trans h.2⟩
    · exact fun w log h _ => Or.inl h
  refine hclose.bind fun _ => hrename.bind fun _ =>
    Triple.ite (fun _ => Triple.pure fun _ _ => id) fun _ => ?_
  exact hopen.bind fun _ => Triple.pure fun _ _ => id

include hname in
/-- A rotation leaves files of other names alone. -/
theorem rotate_frame (hlogfile : name ≠ logfile) {w : World} (hw : w.profile.logfile = logfile) :
    (modLogfileRotate w).2.1.files.inode name = w.files.inode name := by
  have htriple : Triple (fun _ => False) (Frame logfile name (w.files.inode name)) modLogfileRotate
      fun _ => Frame logfile name (w.files.inode name) := by
    refine Triple.get_bind fun w₁ => Triple.bind (Q := fun _ => Frame logfile name _)
      ((triple_rotateLoop_frame hname _).mono (fun _ _ h => h.2) fun _ _ _ => id) ?_
    rintro ⟨ok, i⟩
    exact Triple.ite (fun _ => triple_startNew_frame hname hlogfile i)
      fun _ => Triple.pure fun _ _ => id
  exact ((htriple w [] ⟨hw, rfl⟩).resolve_right id).2

end Frame

/-! ## Names that do not fit -/

/-- What a command logs, and what the command behind it logs. -/
theorem mem_log_bind {α β : Type} {m : LogM α} {k : α → LogM β} {w : World} {e : Entry} :
    e ∈ ((m >>= k) w).2.2 ↔ e ∈ (m w).2.2 ∨ e ∈ (k (m w).1 (m w).2.1).2.2 := List.mem_append

/-- The first name that is made has the largest number. -/
theorem overflow_mem {w : World}
    (h : 256 < (numbered w.profile.logfile (toInt w.profile.maxFiles)).bytes.length + 1) :
    .overflow ∈ (modLogfileRotate w).2.2 := by
  have hsprintf : .overflow ∈ (sprintfName w.profile.maxFiles w).2.2 := by
    rw [sprintfName, bind_apply, get_apply]
    simp only [if_neg (Nat.not_le.mpr h)]
    exact List.mem_singleton.mpr rfl
  rw [modLogfileRotate, mem_log_bind, get_apply]
  refine Or.inr (mem_log_bind.mpr ?_)
  rw [Nat.mod_eq_of_lt w.profile.maxFiles_lt]
  have hpos := w.profile.maxFiles_pos
  generalize w.profile.maxFiles = m at hsprintf hpos
  rcases m with _ | _ | i
  · exact absurd hpos (by decide)
  · exact Or.inr (mem_log_bind.mpr (Or.inl hsprintf))
  · exact Or.inl (mem_log_bind.mpr (Or.inl hsprintf))

/-- A number from 2 ^ 31 on is not printed as it is. -/
theorem numbered_toInt_ne (logfile : CStr) {k : ℕ} (hk : 2 ^ 31 ≤ k) (i : ℕ) :
    numbered logfile k ≠ numbered logfile (toInt i) := by
  intro h
  have hbytes := congrArg CStr.bytes h
  simp only [numbered, List.append_cancel_left_eq, List.cons.injEq, true_and,
    Decimal.decimalInt_natCast] at hbytes
  have hlt : toInt i < ((2 ^ 32 : ℕ) + 1) / 2 := Int.bmod_lt (by norm_num)
  unfold Decimal.decimalInt at hbytes
  split at hbytes
  · have hminus : (45 : Byte) ∈ Decimal.decimal k := hbytes ▸ List.mem_cons_self
    exact absurd (Decimal.isDigit_of_mem_decimal hminus) (by decide)
  · have := Decimal.decimal_injective hbytes
    omega

/-- A world of two files, where all operations succeed. -/
def twoFiles (p : Profile) (name : CStr) (hname : name ≠ p.logfile) : World where
  files :=
    { inode n := if n = p.logfile then some 0 else if n = name then some 1 else none
      next := 2
      lt_next {n i} h := by
        split_ifs at h
        · cases h
          decide
        · cases h
          decide
      inj {n n' i} h h' := by
        split_ifs at h h' <;> simp_all <;> omega }
  data _ := []
  target _ := 0
  handles := 1
  profile := p
  succeeds _ _ := true
  takes _ := 0
  clock := 0

/-- A profile for which rotations work has names that fit. -/
theorem fits_of_rotates {p : Profile} (h : ∀ w, w.profile = p →
    (∀ name t, w.succeeds (.stat name) t = true) → Rotates w) : p.Fits := by
  have hlt : p.maxFiles < 2 ^ 31 := by
    by_contra hge
    -- the file of the largest number below 2 ^ 31 does not get the next number
    obtain ⟨k, hk⟩ : ∃ k, k + 1 = 2 ^ 31 := ⟨2 ^ 31 - 1, by norm_num⟩
    let w := twoFiles p (p.file k) (numbered_ne _ _)
    have hlog : w.files.inode w.profile.logfile = some 0 := if_pos rfl
    have hfile : w.files.inode (p.file k) = some 1 :=
      (if_neg (numbered_ne _ _)).trans (if_pos rfl)
    have hnone : w.files.inode (p.file (k + 1)) = none :=
      (if_neg (numbered_ne _ _)).trans (if_neg (Profile.file_ne (by omega)))
    have hw := h w rfl fun _ _ => rfl
    have hshift := (hw.shift (fun _ _ => rfl) (by simp [hlog])).next k (by omega)
      (show k < p.maxFiles by omega)
    have hframe : (modLogfileRotate w).2.1.files.inode (p.file (k + 1)) =
        w.files.inode (p.file (k + 1)) :=
      rotate_frame (numbered_toInt_ne p.logfile (Nat.le_of_eq hk.symm)) (numbered_ne _ _) rfl
    rw [hnone] at hframe
    have hsome := hframe.symm.trans (hshift.trans hfile)
    cases hsome
  refine ⟨hlt, ?_⟩
  by_contra hroom
  let w := twoFiles p (p.file 1) (numbered_ne _ _)
  refine (h w rfl fun _ _ => rfl).inside (overflow_mem ?_)
  change 256 < (numbered p.logfile (toInt p.maxFiles)).bytes.length + 1
  rw [toInt_of_lt hlt]
  simp only [numbered, List.length_append, List.length_cons, Decimal.decimalInt_natCast]
  omega

/-- For a profile the rotation works in all worlds, where files that are there are seen, exactly if
the names of its files are printed as they are and fit into the arrays. -/
theorem rotate_iff (p : Profile) : (∀ w, w.profile = p →
      (∀ name t, w.succeeds (.stat name) t = true) → Rotates w) ↔
    p.maxFiles < 2 ^ 31 ∧
      p.logfile.bytes.length + (Decimal.decimal p.maxFiles).length + 2 ≤ 256 :=
  ⟨fits_of_rotates, fun hfits _ hw htruth => rotates_of_fits (hw ▸ hfits) htruth⟩

/-- The log file `l`, with two numbered files. -/
def shortProfile : Profile where
  logfile := ⟨[108], by decide⟩
  maxFiles := 2
  maxFiles_pos := by decide
  maxFiles_lt := by norm_num
  rollSize := 1
  logSize := 1
  logAfd := some 0

/-- A log file with a name of 254 bytes. -/
def longProfile : Profile where
  logfile := CStr.replicate 254 108 (by decide)
  maxFiles := 1
  maxFiles_pos := by decide
  maxFiles_lt := by norm_num
  rollSize := 1
  logSize := 1
  logAfd := some 0

theorem shortProfile_file_ne : shortProfile.file 1 ≠ shortProfile.logfile := numbered_ne _ _

/-- The files `l` and `l.1`; the second file is not seen at the time 1. -/
def blindWorld : World :=
  { twoFiles shortProfile (shortProfile.file 1) shortProfile_file_ne with
    succeeds op t := decide (op ≠ .stat (shortProfile.file 1) ∨ t ≠ 1) }

/-- A name that is too long, and a file that is not seen and is then removed. -/
theorem rotate_fails :
    ¬ Rotates (twoFiles longProfile (longProfile.file 1) (numbered_ne _ _)) ∧
    ¬ Rotates blindWorld := by
  constructor
  · intro h
    refine h.inside (overflow_mem ?_)
    -- the name and its number do not fit the buffer
    have hlength : longProfile.logfile.bytes.length = 254 := List.length_replicate
    have hdigits : (Decimal.decimalInt (toInt longProfile.maxFiles)).length = 1 := rfl
    change 256 < (longProfile.logfile.bytes ++
      46 :: Decimal.decimalInt (toInt longProfile.maxFiles)).length + 1
    rw [List.length_append, List.length_cons, hlength, hdigits]
    decide
  · intro h
    obtain ⟨⟨name, hname, -⟩, -⟩ := h.kept (shortProfile.file 1) 1 rfl (by decide)
    -- the file is removed as the destination, though `stat` did not see it
    have hfiles : (modLogfileRotate blindWorld).2.1.files =
        ((blindWorld.files.remove (shortProfile.file 1)).rename shortProfile.logfile
          (shortProfile.file 1)).create shortProfile.logfile := rfl
    rw [hfiles] at hname
    by_cases hlog : name = shortProfile.logfile
    · subst hlog
      exact absurd hname (by decide)
    by_cases hone : name = shortProfile.file 1
    · subst hone
      exact absurd hname (by decide)
    rw [create_inode_of_ne hlog] at hname
    have hname' : blindWorld.files.inode name = some 1 :=
      ((if_neg hone).trans ((if_neg hlog).trans (if_neg hone))).symm.trans hname
    exact hone (blindWorld.files.inj hname' rfl)

end Logfile
