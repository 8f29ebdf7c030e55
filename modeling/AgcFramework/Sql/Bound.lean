import Mathlib.Data.Fintype.Basic
import Mathlib.Data.Finset.Card
import AgcFramework.Lib.Trace
import AgcFramework.Sql.Pool

/-!
# The bound on the number of database handles

`_agc_sql_get_handle` waits while the pool is at its bound and all its handles are in use, looks for
a handle, and opens a new one if it finds none. The test reads the counters without the lock, and a
handle that is being opened is counted when it is added to the pool. A run is an interleaving of
these steps of any number of threads.

## Main definitions

* `SqlSystem.step`: a step of a thread in `_agc_sql_get_handle`, or a release
* `SqlSystem.Admitted`: a thread that finds no handle does so while the handles of the pool and
  those being opened are below the bound

## Main results

* `SqlSystem.pool_run`: the pool of a run is that of a sequence of critical sections
* `SqlSystem.bound_of_admitted`: the bound holds along the runs whose steps meet the condition, and
  a run that does not meet it can go on to a pool above the bound
-/

open Trace

/-- The fields of `runtime` that `_agc_sql_get_handle` reads; `max_db_handles` is a positive `int`
or 0, which is for no bound. -/
structure SqlConfig where
  maxDbHandles : ℕ
  max_lt : maxDbHandles < 2 ^ 31
  dbHandleTimeout : ℕ

/-- Where a thread stands in `_agc_sql_get_handle`. -/
inductive SqlPc
  | idle
  /-- In the wait loop. -/
  | testing (waiting : Bool) (totalYield : ℕ)
  /-- Before `get_freehandle`. -/
  | searching
  /-- Before the connection attempt. -/
  | opening
  /-- Before `add_handle`. -/
  | adding
  deriving DecidableEq

namespace SqlPc

/-- Whether the thread is opening a handle that is not counted yet. -/
def isOpening : SqlPc → Bool
  | opening => true
  | adding => true
  | _ => false

end SqlPc

/-- The pool, and where each thread stands. -/
structure SqlSystem (T : Type) where
  pool : HeldPool T
  pc : T → SqlPc

/-- A step of a thread. -/
inductive SqlStep (T : Type)
  | call (t : T)
  | test (t : T)
  | search (t : T)
  /-- The connection attempt and `create_handle`, and whether each succeeds. -/
  | connect (t : T) (connected created : Bool)
  | add (t : T)
  | release (t : T) (h : ℕ)

namespace SqlSystem

variable {T : Type} [DecidableEq T]

def init : SqlSystem T := ⟨.init, fun _ => .idle⟩

/-- A thread moves on. -/
def goto (s : SqlSystem T) (t : T) (pc : SqlPc) : SqlSystem T :=
  { s with pc := Function.update s.pc t pc }

@[simp] theorem pc_goto_self (s : SqlSystem T) (t : T) (pc : SqlPc) :
    (s.goto t pc).pc t = pc := by
  simp [goto]

@[simp] theorem pc_goto_of_ne (s : SqlSystem T) {t u : T} (hut : u ≠ t) (pc : SqlPc) :
    (s.goto t pc).pc u = s.pc u := by
  simp [goto, hut]

variable (cfg : SqlConfig) (hash : T → ℕ) (limit : ℕ)

/-- The test of the wait loop. -/
def blocked (p : SqlPool T) : Bool :=
  cfg.maxDbHandles ≠ 0 && cfg.maxDbHandles ≤ p.totalHandles.toNat &&
    p.totalHandles ≤ p.totalUsedHandles

/-- An iteration of the wait loop; the thread yields in the first one only. -/
def wait (s : SqlSystem T) (t : T) (waiting : Bool) (totalYield : ℕ) : SqlSystem T :=
  if blocked cfg s.pool.toSqlPool then
    if waiting then s
    else if cfg.dbHandleTimeout ≠ 0 ∧ cfg.dbHandleTimeout < totalYield + 100000 then s.goto t .idle
    else s.goto t (.testing true (totalYield + 100000))
  else s.goto t .searching

/-- The search for a handle of the pool. -/
def search (s : SqlSystem T) (t : T) : SqlSystem T :=
  match s.pool.get hash limit t with
  | (p, some _) => { s with pool := p }.goto t .idle
  | (p, none) => { s with pool := p }.goto t .opening

/-- What a step does; one that the place of the thread does not allow does nothing. -/
def step (s : SqlSystem T) : SqlStep T → SqlSystem T
  | .call t => if s.pc t = .idle then s.goto t (.testing false 0) else s
  | .test t =>
    match s.pc t with
    | .testing waiting totalYield => s.wait cfg t waiting totalYield
    | _ => s
  | .search t => if s.pc t = .searching then s.search hash limit t else s
  | .connect t connected created =>
    if s.pc t = .opening then
      s.goto t (if connected && created then .adding else .idle)
    else s
  | .add t =>
    if s.pc t = .adding then { s with pool := s.pool.add hash t }.goto t .idle else s
  | .release t h =>
    if s.pc t = .idle ∧ (t, h) ∈ s.pool.obtained then
      { s with pool := s.pool.release t h }
    else s

/-- A run of the system. -/
def run (evs : List (SqlStep T)) : SqlSystem T := evs.foldl (step cfg hash limit) init

/-- A search that finds nothing starts an opening. -/
theorem step_search_of_exhausted {s : SqlSystem T} {t : T} (hpc : s.pc t = .searching)
    (hnone : ∀ h ∈ s.pool.handlePool, (s.pool.handles h).mutex.trylock limit t = none) :
    s.step cfg hash limit (.search t) = s.goto t .opening := by
  rcases HeldPool.get_cases hash limit s.pool t with ⟨h, hh, mutex, htry, -⟩ | ⟨-, heq⟩
  · rw [hnone h hh] at htry
    cases htry
  · simp [step, hpc, search, heq]

/-! ## The critical sections of a run -/

/-- A step of the system is a critical section of the pool, or leaves the pool alone. -/
theorem pool_step (s : SqlSystem T) (e : SqlStep T) :
    (s.step cfg hash limit e).pool = s.pool ∨
      ∃ section', (s.step cfg hash limit e).pool = s.pool.step hash limit section' := by
  cases e with
  | call t =>
    left
    simp only [step]
    split <;> rfl
  | test t =>
    left
    simp only [step]
    split
    · unfold wait
      split_ifs <;> rfl
    · rfl
  | search t =>
    simp only [step]
    split
    · refine Or.inr ⟨.getFreehandle t, ?_⟩
      unfold search
      split <;> simp_all [goto, HeldPool.step]
    · exact Or.inl rfl
  | connect t connected created =>
    left
    simp only [step]
    split <;> rfl
  | add t =>
    simp only [step]
    split
    · exact Or.inr ⟨.addHandle t, rfl⟩
    · exact Or.inl rfl
  | release t h =>
    simp only [step]
    split
    · rename_i hrel
      exact Or.inr ⟨.release t h, by simp [HeldPool.step, hrel.2]⟩
    · exact Or.inl rfl

/-- The pool of a run is that of a sequence of critical sections. -/
theorem pool_run (evs : List (SqlStep T)) :
    ∃ sections, (run cfg hash limit evs).pool = HeldPool.run hash limit sections := by
  induction evs using List.reverseRecOn with
  | nil => exact ⟨[], rfl⟩
  | append_singleton evs e ih =>
    obtain ⟨sections, ih⟩ := ih
    rw [run, List.foldl_concat]
    rcases pool_step cfg hash limit (run cfg hash limit evs) e with h | ⟨section', h⟩
    · exact ⟨sections, h.trans ih⟩
    · refine ⟨sections ++ [section'], h.trans ?_⟩
      rw [ih, HeldPool.run, HeldPool.run, List.foldl_concat]

/-! ## The handles that are being opened -/

section Bound

variable [Fintype T]

/-- The threads that are opening a handle. -/
def opening (s : SqlSystem T) : Finset T := Finset.univ.filter fun t => (s.pc t).isOpening = true

/-- The number of threads that are opening a handle. -/
def openings (s : SqlSystem T) : ℕ := s.opening.card

variable {cfg hash limit} {s : SqlSystem T} {t : T}

omit [DecidableEq T] in
@[simp] theorem mem_opening : t ∈ s.opening ↔ (s.pc t).isOpening = true := by simp [opening]

theorem openings_goto_of_eq {pc : SqlPc} (h : pc.isOpening = (s.pc t).isOpening) :
    (s.goto t pc).openings = s.openings := by
  unfold openings
  congr 1
  ext u
  by_cases hut : u = t
  · subst hut
    simp [h]
  · simp [hut]

theorem openings_goto_of_opening {pc : SqlPc} (hpc : pc.isOpening = true)
    (h : (s.pc t).isOpening = false) : (s.goto t pc).openings = s.openings + 1 := by
  have hmem : t ∉ s.opening := by simp [h]
  unfold openings
  rw [← Finset.card_insert_of_notMem hmem]
  congr 1
  ext u
  by_cases hut : u = t
  · subst hut
    simp [hpc]
  · simp [hut]

theorem openings_goto_of_done {pc : SqlPc} (hpc : pc.isOpening = false)
    (h : (s.pc t).isOpening = true) : (s.goto t pc).openings + 1 = s.openings := by
  have hback : (s.goto t pc).goto t (s.pc t) = s := by simp [goto]
  have hagain := openings_goto_of_opening (s := s.goto t pc) (t := t) h (by simp [hpc])
  rw [← hagain, hback]

/-- A step other than a search that finds nothing keeps the sum of the handles of the pool and those
being opened, or lowers it. -/
theorem total_add_openings_step (e : SqlStep T)
    (h : ∀ t, e = .search t → s.pc t = .searching →
      ∃ h ∈ s.pool.handlePool, (s.pool.handles h).mutex.trylock limit t ≠ none) :
    (s.step cfg hash limit e).pool.totalHandles.toNat + (s.step cfg hash limit e).openings ≤
      s.pool.totalHandles.toNat + s.openings := by
  cases e with
  | call t =>
    simp only [step]
    split
    · rename_i hpc
      rw [openings_goto_of_eq (by rw [hpc]; rfl)]
      rfl
    · exact le_rfl
  | test t =>
    simp only [step]
    split
    · rename_i hpc
      unfold wait
      split_ifs
      · exact le_rfl
      all_goals
        rw [openings_goto_of_eq (by rw [hpc]; rfl)]
        rfl
    · exact le_rfl
  | search t =>
    simp only [step]
    split
    · rename_i hpc
      obtain ⟨h', hh', hfree⟩ := h t rfl hpc
      rcases HeldPool.get_cases hash limit s.pool t with
        ⟨h, -, mutex, -, heq⟩ | ⟨hnone, -⟩
      · have hopen : ({ s with pool := ⟨s.pool.use hash t h mutex,
              (t, h) :: s.pool.obtained⟩ }.goto t .idle).openings = s.openings :=
          openings_goto_of_eq (s := { s with pool := _ }) (by rw [hpc]; rfl)
        simp only [search, heq, hopen]
        rfl
      · exact absurd (hnone h' hh') hfree
    · exact le_rfl
  | connect t connected created =>
    simp only [step]
    split
    · rename_i hpc
      -- a failed attempt gives the place back
      cases hok : (connected && created)
      · have hopen : (s.goto t .idle).openings + 1 = s.openings :=
          openings_goto_of_done rfl (by rw [hpc]; rfl)
        have hpool : (s.goto t .idle).pool = s.pool := rfl
        simp only [Bool.false_eq_true, if_false, hpool]
        omega
      · rw [if_pos rfl, openings_goto_of_eq (by rw [hpc]; rfl)]
        rfl
    · exact le_rfl
  | add t =>
    simp only [step]
    split
    · rename_i hpc
      have hopen : ({ s with pool := s.pool.add hash t }.goto t .idle).openings + 1 =
          s.openings := openings_goto_of_done (s := { s with pool := _ }) rfl (by rw [hpc]; rfl)
      have hadd : (s.pool.totalHandles + 1).toNat ≤ s.pool.totalHandles.toNat + 1 := by
        rw [UInt32.toNat_add]
        exact Nat.mod_le _ _
      have htotal : ({ s with pool := s.pool.add hash t }.goto t .idle).pool.totalHandles =
          s.pool.totalHandles + 1 := rfl
      rw [htotal]
      omega
    · exact le_rfl
  | release t h =>
    simp only [step]
    split <;> exact le_rfl

/-! ## The bound -/

variable (cfg hash limit) in
/-- A thread that finds no handle, because others hold all that there are, does so while the handles
of the pool together with those being opened are below the bound. -/
def Admitted (p : List (SqlStep T)) : SqlStep T → Prop
  | .search t =>
    (run cfg hash limit p).pc t = .searching →
    (∀ h ∈ (run cfg hash limit p).pool.handlePool,
      ((run cfg hash limit p).pool.handles h).mutex.trylock limit t = none) →
    (run cfg hash limit p).pool.totalHandles.toNat + (run cfg hash limit p).openings <
      cfg.maxDbHandles
  | _ => True

/-- Under the condition the handles of the pool and those being opened stay within the bound. -/
theorem total_add_openings_le {evs : List (SqlStep T)}
    (h : Throughout (Admitted cfg hash limit) evs) :
    (run cfg hash limit evs).pool.totalHandles.toNat + (run cfg hash limit evs).openings ≤
      cfg.maxDbHandles := by
  induction evs using List.reverseRecOn with
  | nil => simp [run, init, HeldPool.init, SqlPool.init, openings, opening, SqlPc.isOpening]
  | append_singleton evs e ih =>
    rw [throughout_snoc] at h
    have ih := ih h.1
    rw [run, List.foldl_concat]
    by_cases hfind : ∀ t, e = .search t → (run cfg hash limit evs).pc t = .searching →
        ∃ h ∈ (run cfg hash limit evs).pool.handlePool,
          ((run cfg hash limit evs).pool.handles h).mutex.trylock limit t ≠ none
    · exact (total_add_openings_step e hfind).trans ih
    · -- the search of a thread that finds nothing
      push Not at hfind
      obtain ⟨t, rfl, hpc, hnone⟩ := hfind
      have hlt := h.2 hpc hnone
      have hstep := step_search_of_exhausted cfg hash limit hpc hnone
      have hopen : ((run cfg hash limit evs).goto t .opening).openings =
          (run cfg hash limit evs).openings + 1 :=
        openings_goto_of_opening rfl (by rw [hpc]; rfl)
      have htotal : ((run cfg hash limit evs).goto t .opening).pool =
          (run cfg hash limit evs).pool := rfl
      rw [run] at hstep hopen htotal hlt
      rw [hstep, hopen, htotal]
      exact hlt

/-- The steps with which an opening succeeds. -/
def Completes : SqlStep T → Prop
  | .connect _ connected created => connected = true ∧ created = true
  | .add _ => True
  | _ => False

variable (cfg hash limit)

/-- A thread that is adding a handle adds it. -/
theorem step_add (hpc : s.pc t = .adding) :
    (s.step cfg hash limit (.add t)).pool.totalHandles = s.pool.totalHandles + 1 ∧
      (s.step cfg hash limit (.add t)).openings + 1 = s.openings := by
  simp only [step, hpc, if_true]
  exact ⟨rfl, openings_goto_of_done (s := { s with pool := _ }) rfl (by rw [hpc]; rfl)⟩

/-- A thread that is opening a handle can go on to add it. -/
theorem exists_complete_one (h : (s.pc t).isOpening = true) :
    ∃ ext : List (SqlStep T), (∀ e ∈ ext, Completes e) ∧
      (ext.foldl (step cfg hash limit) s).pool.totalHandles = s.pool.totalHandles + 1 ∧
      (ext.foldl (step cfg hash limit) s).openings + 1 = s.openings := by
  cases hpc : s.pc t with
  | opening =>
    have hstep : s.step cfg hash limit (.connect t true true) = s.goto t .adding := by
      simp [step, hpc]
    have hopen : (s.goto t .adding).openings = s.openings :=
      openings_goto_of_eq (by rw [hpc]; rfl)
    obtain ⟨htotal, hdone⟩ :=
      step_add cfg hash limit (pc_goto_self s t .adding)
    refine ⟨[.connect t true true, .add t], by simp [Completes], ?_, ?_⟩
    · rw [List.foldl_cons, hstep]
      exact htotal
    · rw [List.foldl_cons, hstep, ← hopen]
      exact hdone
  | adding =>
    obtain ⟨htotal, hdone⟩ := step_add cfg hash limit hpc
    exact ⟨[.add t], by simp [Completes], htotal, hdone⟩
  | idle => simp [hpc, SqlPc.isOpening] at h
  | testing waiting totalYield => simp [hpc, SqlPc.isOpening] at h
  | searching => simp [hpc, SqlPc.isOpening] at h

/-- All the openings can succeed. -/
theorem exists_complete_all (s : SqlSystem T) :
    ∃ ext : List (SqlStep T), (∀ e ∈ ext, Completes e) ∧
      (ext.foldl (step cfg hash limit) s).pool.totalHandles =
        s.pool.totalHandles + UInt32.ofNat s.openings := by
  induction hn : s.openings generalizing s with
  | zero => exact ⟨[], by simp, by simp⟩
  | succ n ih =>
    obtain ⟨t, ht⟩ : s.opening.Nonempty := by
      have hpos : 0 < s.openings := by omega
      exact Finset.card_pos.mp hpos
    obtain ⟨ext, hext, htotal, hopen⟩ :=
      exists_complete_one cfg hash limit (mem_opening.mp ht)
    obtain ⟨ext', hext', htotal'⟩ := ih (ext.foldl (step cfg hash limit) s) (by omega)
    refine ⟨ext ++ ext', ?_, ?_⟩
    · intro e he
      rcases List.mem_append.mp he with he | he
      · exact hext e he
      · exact hext' e he
    · rw [List.foldl_append, htotal', htotal, ← HeldPool.ofNat_succ, UInt32.add_assoc,
        UInt32.add_comm 1]

/-- Where the condition first fails, the openings can bring the pool above the bound. -/
theorem exists_exceeds {p : List (SqlStep T)} {e : SqlStep T}
    (hp : Throughout (Admitted cfg hash limit) p) (he : ¬ Admitted cfg hash limit p e) :
    ∃ ext : List (SqlStep T), (∀ e ∈ ext, Completes e) ∧
      cfg.maxDbHandles < (run cfg hash limit (p ++ e :: ext)).pool.totalHandles.toNat := by
  have hle := total_add_openings_le hp
  cases e with
  | search t =>
    simp only [Admitted] at he
    push Not at he
    obtain ⟨hpc, hnone, hge⟩ := he
    have hstep := step_search_of_exhausted cfg hash limit hpc hnone
    -- the search makes one more opening, and then all of them are completed
    have hopen : ((run cfg hash limit p).goto t .opening).openings =
        (run cfg hash limit p).openings + 1 := openings_goto_of_opening rfl (by rw [hpc]; rfl)
    obtain ⟨ext, hext, htotal⟩ :=
      exists_complete_all cfg hash limit ((run cfg hash limit p).goto t .opening)
    refine ⟨ext, hext, ?_⟩
    have hrun : run cfg hash limit (p ++ .search t :: ext) =
        ext.foldl (step cfg hash limit) ((run cfg hash limit p).goto t .opening) := by
      rw [run, List.foldl_append, List.foldl_cons, ← hstep]
      rfl
    have hpool : ((run cfg hash limit p).goto t .opening).pool = (run cfg hash limit p).pool := rfl
    -- the count does not wrap, as the bound is below the range of the counter
    have hlt := cfg.max_lt
    rw [hrun, htotal, hopen, hpool, UInt32.toNat_add, UInt32.toNat_ofNat']
    omega
  | call t => exact absurd trivial he
  | test t => exact absurd trivial he
  | connect t connected created => exact absurd trivial he
  | add t => exact absurd trivial he
  | release t h => exact absurd trivial he

/-- **The bound on the handles.** Along a run in which every thread that finds no handle does so
while the handles of the pool and those being opened are below the bound, the pool never exceeds the
bound. A run in which some thread does not can go on, from the first such step, by nothing but
openings that succeed, to a pool that does. -/
theorem bound_of_admitted (evs : List (SqlStep T)) :
    (Throughout (Admitted cfg hash limit) evs →
      ∀ p, p <+: evs → (run cfg hash limit p).pool.totalHandles.toNat ≤ cfg.maxDbHandles) ∧
    (¬ Throughout (Admitted cfg hash limit) evs →
      ∃ p ext, p <+: evs ∧ (∀ e ∈ ext, Completes e) ∧
        cfg.maxDbHandles < (run cfg hash limit (p ++ ext)).pool.totalHandles.toNat) := by
  constructor
  · rintro h p ⟨q, rfl⟩
    have := total_add_openings_le h.of_append
    omega
  · intro h
    induction evs using List.reverseRecOn with
    | nil => exact absurd throughout_nil h
    | append_singleton evs e ih =>
      by_cases hevs : Throughout (Admitted cfg hash limit) evs
      · have he : ¬ Admitted cfg hash limit evs e := fun he => h (throughout_snoc.mpr ⟨hevs, he⟩)
        obtain ⟨ext, hext, hlt⟩ := exists_exceeds cfg hash limit hevs he
        refine ⟨evs ++ [e], ext, List.prefix_refl _, hext, ?_⟩
        simpa using hlt
      · obtain ⟨p, ext, hp, hext, hlt⟩ := ih hevs
        exact ⟨p, ext, hp.trans (List.prefix_append _ _), hext, hlt⟩

end Bound

/-- Two threads pass the test before either of them is counted. -/
theorem two_threads_exceed_bound :
    ¬ ∀ evs : List (SqlStep Bool),
      (run ⟨1, by decide, 5000000⟩ (fun t => t.toNat) (2 ^ 32 - 1) evs).pool.totalHandles.toNat ≤
        1 := by
  intro h
  have := h [.call false, .call true, .test false, .test true, .search false, .search true,
    .connect false true true, .connect true true true, .add false, .add true]
  exact absurd this (by decide)

end SqlSystem
