import AgcFramework.Lib.CString
import AgcFramework.Lib.Exec
import AgcFramework.Lib.Ledger

/-!
# Loading a module

`agc_loadable_module_loadfile` opens a library, looks up its table of functions, calls its load
function and enters the module into `module_hash`. A loop is meant to try twice to open the library
and to find the table, but nothing counts its tries: it ends with the first success and not before.

Libraries are counted by the calls of `dlopen` that gave one. Allocations from a pool do not fail,
and neither does `strdup` of an error text, so that `derr` is set exactly if no library was opened.

## Main definitions

* `Outcomes`: what the tries to open and to resolve give, and the load function
* `agcLoadableModuleLoadmodule`, `agcLoadableModuleProcessmodule`, `agcLoadableModuleLoadfile`: the
  functions of `agc_module.c`
* `Clean`: what a call is to leave behind

## Main results

* `Since.openLoop`: the loop up to the first success
* `exists_clean_iff`: a call ends as it should exactly if one of the first two tries succeeds, or
  the module is there
-/

open Exec Ledger

namespace ModuleLoad

/-- `AGC_STATUS_SUCCESS`. -/
def AGC_STATUS_SUCCESS : ℤ := 0

/-- `AGC_STATUS_GENERR`. -/
def AGC_STATUS_GENERR : ℤ := 9

/-- `AGC_STATUS_NOUNLOAD`. -/
def AGC_STATUS_NOUNLOAD : ℤ := 16

/-- `AGC_API_VERSION`. -/
def AGC_API_VERSION : ℤ := 1

/-- A library that was opened, or a pool. -/
inductive Resource
  | lib (n : ℕ)
  | pool (n : ℕ)
  deriving DecidableEq

/-- `agc_loadable_module_function_table_t`, with functions by their addresses. -/
structure FunctionTable where
  agcApiVersion : ℤ
  load : ℕ
  shutdown : Option ℕ
  runtime : Option ℕ

/-- What is used of `agc_loadable_module_interface_t`. -/
structure Interface where
  moduleName : CStr

/-- What is set of `agc_loadable_module_t`. -/
structure Module where
  key : Option CStr
  filename : List Byte
  perm : ℕ
  moduleInterface : Interface
  lib : Option ℕ
  loadFunc : ℕ
  runtimeFunc : Option ℕ
  shutdownFunc : Option ℕ
  pool : ℕ

/-- What the calls outside give: whether the `i`-th try opens the library, the table that is found
in it, and the status and the interface of a load function. -/
structure Outcomes where
  opened : ℕ → Bool
  table : ℕ → Option FunctionTable
  load : ℕ → ℤ × Option Interface

/-- The loaded modules, with the calls of `agc_dso_open` and the ledger of the resources. -/
structure State where
  moduleHash : CStr → Option Module
  opens : List (List Byte × Bool)
  nextLib : ℕ
  nextPool : ℕ
  log : List (Act Resource)

/-! ## The functions -/

/-- `agc_dso_open`. -/
def agcDsoOpen (opened : Bool) (path : List Byte) (global : Bool) (s : State) : State × Option ℕ :=
  let s := { s with opens := s.opens ++ [(path, global)] }
  if opened then
    ({ s with nextLib := s.nextLib + 1, log := s.log ++ [Act.alloc (.lib s.nextLib)] },
      some s.nextLib)
  else (s, none)

/-- `if (dso) agc_dso_destroy(&dso)`. -/
def agcDsoDestroy (s : State) : Option ℕ → State
  | none => s
  | some dso => { s with log := s.log ++ [Act.free (.lib dso)] }

/-- The loop over the tries, of which this is the `i`-th, with `dso` and `module_func_table`. -/
def openLoop (o : Outcomes) (path : List Byte) (global : Bool) : ℕ → ℕ → ℕ → State → Option ℕ →
    Option FunctionTable → Exec (State × Option ℕ × Option FunctionTable)
  | 0, _, _, _, _, _ => .error .fuel
  | fuel + 1, i, loadingTimes, s, dso, table =>
    if loadingTimes < 2 then
      let r := agcDsoOpen (o.opened i) path global s
      match r.2 with
      -- `continue`, without a step of `loading_times`
      | none => openLoop o path global fuel (i + 1) loadingTimes r.1 none table
      | some lib =>
        match o.table i with
        | none =>
          openLoop o path global fuel (i + 1) loadingTimes (agcDsoDestroy r.1 (some lib)) none none
        | some t => pure (r.1, some lib, some t)
    else pure (s, dso, table)

/-- The loop that is left by its `break`s: the text of an error, or the table, the interface and
`perm`. -/
def initModule (o : Outcomes) : Option FunctionTable → Except String (FunctionTable × Interface × ℕ)
  | none => .error "no functable found"
  | some t =>
    if t.agcApiVersion ≠ AGC_API_VERSION then .error "load an old module"
    else
      let r := o.load t.load
      if r.1 ≠ AGC_STATUS_SUCCESS ∧ r.1 ≠ AGC_STATUS_NOUNLOAD then
        .error "load function returned an error"
      else match r.2 with
        | none => .error "failed to initialize"
        | some interface => .ok (t, interface, if r.1 = AGC_STATUS_NOUNLOAD then 1 else 0)

/-- `agc_memory_create_pool`, where the pool has the number that was the next one. -/
def createPool (s : State) : State :=
  { s with nextPool := s.nextPool + 1, log := s.log ++ [Act.alloc (.pool s.nextPool)] }

/-- `agc_memory_destroy_pool`. -/
def destroyPool (s : State) (pool : ℕ) : State :=
  { s with log := s.log ++ [Act.free (.pool pool)] }

/-- The end of `agc_loadable_module_loadmodule`, behind both loops. -/
def finishModule (path : List Byte) (pool : ℕ) (s : State) (dso : Option ℕ) :
    Except String (FunctionTable × Interface × ℕ) → State × ℤ × Option Module
  | .error _ => (destroyPool (agcDsoDestroy s dso) pool, AGC_STATUS_GENERR, none)
  | .ok (t, interface, perm) =>
    (s, AGC_STATUS_SUCCESS, some {
      key := none
      filename := path
      perm := perm
      moduleInterface := interface
      lib := dso
      loadFunc := t.load
      runtimeFunc := t.runtime
      shutdownFunc := t.shutdown
      pool := pool })

/-- `agc_loadable_module_loadmodule`. -/
def agcLoadableModuleLoadmodule (o : Outcomes) (path : List Byte) (global : Bool) (fuel : ℕ)
    (s : State) : Exec (State × ℤ × Option Module) := do
  let pool := s.nextPool
  let (s, dso, table) ← openLoop o path global fuel 0 0 (createPool s) none none
  pure (finishModule path pool s dso (initModule o table))

/-- `agc_loadable_module_processmodule`. -/
def agcLoadableModuleProcessmodule (key : CStr) (m : Module) (s : State) : State × ℤ :=
  ({ s with moduleHash := Function.update s.moduleHash key (some { m with key := some key }) },
    AGC_STATUS_SUCCESS)

/-- What `agc_loadable_module_loadfile` returns, with `*err`. -/
structure Loaded where
  status : ℤ
  err : String

/-- The path of a library; `modDir` is `AGC_GLOBAL_dirs.mod_dir`. -/
def libraryPath (modDir dir fname : CStr) : List Byte :=
  let locate := if dir.bytes = [] then modDir else dir
  locate.bytes ++ (CStr.ofString "/").bytes ++ fname.bytes ++ (CStr.ofString ".so").bytes

/-- The end of `agc_loadable_module_loadfile`, behind `agc_loadable_module_loadmodule`. -/
def enterModule (fname : CStr) (r : State × ℤ × Option Module) : State × Loaded :=
  match r.2.2 with
  | some m =>
    let r' := agcLoadableModuleProcessmodule fname m r.1
    (r'.1, ⟨r'.2, ""⟩)
  | none => (r.1, ⟨r.2.1, "module load failed"⟩)

/-- `agc_loadable_module_loadfile`. -/
def agcLoadableModuleLoadfile (o : Outcomes) (modDir dir fname : CStr) (global : Bool) (fuel : ℕ)
    (s : State) : Exec (State × Loaded) :=
  match s.moduleHash fname with
  | some _ => pure (s, ⟨AGC_STATUS_SUCCESS, "Module already loaded"⟩)
  | none => do
    let r ← agcLoadableModuleLoadmodule o (libraryPath modDir dir fname) global fuel s
    pure (enterModule fname r)

/-! ## What a call is to leave behind -/

/-- At most two tries; a module that is there stays alone; a failure changes nothing in the hash and
releases what was opened and created; a success enters the module, which has a library and a pool.
-/
structure Clean (fname : CStr) (s s' : State) (status : ℤ) : Prop where
  tries : s'.opens.length ≤ s.opens.length + 2
  present : (s.moduleHash fname).isSome → s' = s
  failed : status ≠ AGC_STATUS_SUCCESS → s'.moduleHash = s.moduleHash ∧
    ∃ acts, s'.log = s.log ++ acts ∧ Sound acts ∧ .alloc (.pool s.nextPool) ∈ acts ∧
      ∀ x, .alloc x ∈ acts → acts.count (.free x) = 1
  loaded : status = AGC_STATUS_SUCCESS → s.moduleHash fname = none →
    ∃ m lib, s'.moduleHash = Function.update s.moduleHash fname (some m) ∧ m.key = some fname ∧
      m.lib = some lib ∧ m.pool = s.nextPool ∧
      ∃ acts, s'.log = s.log ++ acts ∧ Sound acts ∧
        ∀ x, Live acts x ↔ x = .lib lib ∨ x = .pool m.pool

/-- The `i`-th try opens the library and finds its table. -/
def Outcomes.Resolves (o : Outcomes) (i : ℕ) : Prop := o.opened i = true ∧ (o.table i).isSome

/-! ## The resources of a call -/

section Run

variable {o : Outcomes} {path : List Byte} {global : Bool} {s₀ s : State} {l : List Resource}
  {i n : ℕ} {fname : CStr}

/-- Since `s₀`, when the call started, the hash did not change, and of what was opened and created
the resources of the list are live. -/
structure Since (s₀ s : State) (l : List Resource) : Prop where
  hash : s.moduleHash = s₀.moduleHash
  acts : ∃ acts, s.log = s₀.log ++ acts ∧ Owns (fun _ => True) acts l ∧
    .alloc (.pool s₀.nextPool) ∈ acts ∧ ∀ n, .alloc (.lib n) ∈ acts → n < s.nextLib

theorem since_createPool (s : State) : Since s (createPool s) [.pool s.nextPool] := by
  refine ⟨rfl, [Act.alloc (.pool s.nextPool)], rfl, ?_, List.mem_singleton.mpr rfl, ?_⟩
  · exact owns_nil.alloc trivial (List.not_mem_nil)
  · intro n hn
    cases List.mem_singleton.mp hn

theorem Since.open (h : Since s₀ s l) :
    Since s₀ (agcDsoOpen true path global s).1 (.lib s.nextLib :: l) := by
  obtain ⟨acts, hlog, howns, hpool, hfresh⟩ := h.acts
  refine ⟨h.hash, acts ++ [Act.alloc (.lib s.nextLib)], ?_, ?_, ?_, fun n hn => ?_⟩
  · change s.log ++ [Act.alloc (.lib s.nextLib)] = _
    rw [hlog, List.append_assoc]
  · exact howns.alloc trivial fun hmem => Nat.lt_irrefl _ (hfresh _ hmem)
  · exact List.mem_append_left _ hpool
  · change n < s.nextLib + 1
    rcases List.mem_append.mp hn with hn | hn
    · exact Nat.lt_succ_of_lt (hfresh n hn)
    · cases List.mem_singleton.mp hn
      exact Nat.lt_succ_self _

theorem Since.free {x : Resource} {s' : State} (h : Since s₀ s (x :: l))
    (hs' : s' = { s with log := s.log ++ [Act.free x] }) : Since s₀ s' l := by
  subst hs'
  obtain ⟨acts, hlog, howns, hpool, hfresh⟩ := h.acts
  refine ⟨h.hash, acts ++ [Act.free x], ?_, howns.free, ?_, fun n hn => ?_⟩
  · rw [hlog, List.append_assoc]
  · exact alloc_mem_snoc_free.mpr hpool
  · exact hfresh n (alloc_mem_snoc_free.mp hn)

/-! ## The tries -/

/-- A try that fails leaves nothing behind, and it does not count. -/
theorem openLoop_of_not_resolves (path : List Byte) (global : Bool) (h : ¬ o.Resolves i)
    (s : State) (dso : Option ℕ) (table : Option FunctionTable) :
    ∃ s' table', (∀ k, openLoop o path global (k + 1) i 0 s dso table =
        openLoop o path global k (i + 1) 0 s' none table') ∧
      s'.opens = s.opens ++ [(path, global)] ∧
      ∀ s₀ l, Since s₀ s l → Since s₀ s' l := by
  cases hopen : o.opened i with
  | false =>
    refine ⟨(agcDsoOpen false path global s).1, table, fun k => ?_, rfl, fun s₀ l hs => ?_⟩
    · simp only [openLoop, hopen, agcDsoOpen, Nat.zero_lt_two, if_true, Bool.false_eq_true,
        if_false]
    · exact ⟨hs.hash, hs.acts⟩
  | true =>
    have htable : o.table i = none := by
      rw [← Option.not_isSome_iff_eq_none]
      exact fun hsome => h ⟨hopen, hsome⟩
    refine ⟨agcDsoDestroy (agcDsoOpen true path global s).1 (some s.nextLib), none, fun k => ?_,
      rfl, fun s₀ l hs => hs.open.free rfl⟩
    simp only [openLoop, hopen, agcDsoOpen, htable, Nat.zero_lt_two, if_true]

theorem openLoop_of_resolves (path : List Byte) (global : Bool) (h : o.Resolves i) (s : State)
    (dso : Option ℕ) (table : Option FunctionTable) :
    ∃ t, ∀ k, openLoop o path global (k + 1) i 0 s dso table =
      .ok ((agcDsoOpen true path global s).1, some s.nextLib, some t) := by
  obtain ⟨t, ht⟩ := Option.isSome_iff_exists.mp h.2
  refine ⟨t, fun k => ?_⟩
  simp only [openLoop, h.1, agcDsoOpen, ht, Nat.zero_lt_two, if_true, pure_eq_ok]

/-- The loop makes a try before it ends. -/
theorem openLoop_opens {k : ℕ} {dso : Option ℕ} {table : Option FunctionTable}
    {r : State × Option ℕ × Option FunctionTable}
    (h : openLoop o path global k i 0 s dso table = .ok r) :
    s.opens.length + 1 ≤ r.1.opens.length := by
  induction k generalizing i s dso table with
  | zero => cases h
  | succ k ih =>
    by_cases hres : o.Resolves i
    · obtain ⟨t, ht⟩ := openLoop_of_resolves path global hres s dso table
      rw [ht] at h
      cases h
      simp [agcDsoOpen]
    · obtain ⟨s', table', hstep, hopens, -⟩ :=
        openLoop_of_not_resolves path global hres s dso table
      rw [hstep] at h
      have hle := ih h
      rw [hopens, List.length_append] at hle
      exact Nat.le_of_succ_le hle

/-- One of the first two tries succeeds: the loop ends with it, and the failed one is undone. -/
theorem Since.openLoop (h : Since s₀ s l) (path : List Byte) (global : Bool)
    (hres : ∃ i < 2, o.Resolves i) :
    ∃ s' t lib, Returns (fun k => openLoop o path global k 0 0 s none none) (s', some lib, some t) ∧
      Since s₀ s' (.lib lib :: l) ∧ s'.opens.length ≤ s.opens.length + 2 := by
  by_cases h0 : o.Resolves 0
  · obtain ⟨t, ht⟩ := openLoop_of_resolves path global h0 s none none
    refine ⟨_, t, _, (Returns.const _).succ ht, h.open, ?_⟩
    simp [agcDsoOpen]
  · have h1 : o.Resolves 1 := by
      obtain ⟨i, hi, hres⟩ := hres
      obtain rfl | rfl : i = 0 ∨ i = 1 := by omega
      · exact absurd hres h0
      · exact hres
    obtain ⟨s', table', hstep, hopens, hsince⟩ :=
      openLoop_of_not_resolves path global h0 s none none
    obtain ⟨t, ht⟩ := openLoop_of_resolves path global h1 s' none table'
    refine ⟨_, t, _, ((Returns.const _).succ ht).succ hstep, (hsince _ _ h).open, ?_⟩
    simp [agcDsoOpen, hopens]

/-- The first two tries fail: a third one is made before the loop ends. -/
theorem openLoop_opens_of_not_resolves (h0 : ¬ o.Resolves 0) (h1 : ¬ o.Resolves 1) {k : ℕ}
    {r : State × Option ℕ × Option FunctionTable}
    (h : ModuleLoad.openLoop o path global k 0 0 s none none = .ok r) :
    s.opens.length + 3 ≤ r.1.opens.length := by
  obtain ⟨s₁, table₁, hstep₁, hopens₁, -⟩ :=
    openLoop_of_not_resolves path global h0 s none none
  obtain ⟨s₂, table₂, hstep₂, hopens₂, -⟩ :=
    openLoop_of_not_resolves path global h1 s₁ none table₁
  have hlen : s₂.opens.length = s.opens.length + 2 := by
    rw [hopens₂, hopens₁]
    simp
  match k, h with
  | k + 2, h =>
    rw [hstep₁, hstep₂] at h
    have hle := openLoop_opens h
    omega
  | 1, h =>
    rw [hstep₁] at h
    cases h

/-! ## The whole call -/

theorem Since.failed (h : Since s₀ s []) : s.moduleHash = s₀.moduleHash ∧
    ∃ acts, s.log = s₀.log ++ acts ∧ Sound acts ∧ .alloc (.pool s₀.nextPool) ∈ acts ∧
      ∀ x, .alloc x ∈ acts → acts.count (.free x) = 1 := by
  obtain ⟨acts, hlog, howns, hpool, -⟩ := h.acts
  refine ⟨h.hash, acts, hlog, howns.sound, hpool, fun x hx => ?_⟩
  refine howns.sound.count_free_eq_one hx fun hlive => ?_
  exact List.not_mem_nil ((howns.live x trivial).mp hlive)

/-- Behind the loop: an error releases the library and the pool, and otherwise the module gets
them. -/
theorem Since.finishModule {lib : ℕ} (h : Since s₀ s [.lib lib, .pool s₀.nextPool])
    (path : List Byte) (r : Except String (FunctionTable × Interface × ℕ)) :
    (∃ s', finishModule path s₀.nextPool s (some lib) r = (s', AGC_STATUS_GENERR, none) ∧
        Since s₀ s' [] ∧ s'.opens = s.opens) ∨
      ∃ m, finishModule path s₀.nextPool s (some lib) r = (s, AGC_STATUS_SUCCESS, some m) ∧
        m.lib = some lib ∧ m.pool = s₀.nextPool := by
  cases r with
  | error e => exact .inl ⟨_, rfl, (h.free rfl).free rfl, rfl⟩
  | ok r =>
    obtain ⟨t, interface, perm⟩ := r
    exact .inr ⟨_, rfl, rfl, rfl⟩

/-- The call returns and leaves behind what it is to leave. -/
def EndsClean (o : Outcomes) (modDir dir fname : CStr) (global : Bool) (s : State) : Prop :=
  ∃ s' r, Returns (fun k => agcLoadableModuleLoadfile o modDir dir fname global k s) (s', r) ∧
    Clean fname s s' r.status

theorem clean_of_present {m : Module} (h : s.moduleHash fname = some m) (status : ℤ)
    (hstatus : status = AGC_STATUS_SUCCESS) : Clean fname s s status where
  tries := Nat.le_add_right _ _
  present _ := rfl
  failed hne := absurd hstatus hne
  loaded _ hnone := absurd (h.symm.trans hnone) (Option.some_ne_none m)

theorem returns_loadfile {modDir dir : CStr} {r : State × ℤ × Option Module}
    (habsent : s.moduleHash fname = none) (hmodule : Returns (fun k =>
      agcLoadableModuleLoadmodule o (libraryPath modDir dir fname) global k s) r) :
    Returns (fun k => agcLoadableModuleLoadfile o modDir dir fname global k s)
      (enterModule fname r) := by
  have hend := hmodule.bind (g := fun _ r => .ok (enterModule fname r)) (Returns.const _)
  refine hend.congr fun k => ?_
  simp only [agcLoadableModuleLoadfile, habsent, pure_eq_ok]

theorem endsClean_of_resolves (o : Outcomes) (modDir dir : CStr) (global : Bool)
    (habsent : s.moduleHash fname = none) (hres : ∃ i < 2, o.Resolves i) :
    EndsClean o modDir dir fname global s := by
  have hpresent : ¬ (s.moduleHash fname).isSome = true := by simp [habsent]
  obtain ⟨s₁, t, lib, hloop, hsince, htries⟩ :=
    (since_createPool s).openLoop (libraryPath modDir dir fname) global hres
  have hmodule : Returns (fun k => agcLoadableModuleLoadmodule o (libraryPath modDir dir fname)
      global k s) (finishModule (libraryPath modDir dir fname) s.nextPool s₁ (some lib)
        (initModule o (some t))) := hloop.bind (Returns.const _)
  rcases hsince.finishModule (libraryPath modDir dir fname) (initModule o (some t)) with
    ⟨s', hfin, hs', hopens⟩ | ⟨m, hfin, hlib, hpool⟩
  · refine ⟨s', ⟨AGC_STATUS_GENERR, "module load failed"⟩, ?_, ?_⟩
    · rw [hfin] at hmodule
      exact returns_loadfile habsent hmodule
    · exact ⟨hopens ▸ htries, fun h => absurd h hpresent, fun _ => hs'.failed,
        fun h => absurd h (by decide)⟩
  · refine ⟨(agcLoadableModuleProcessmodule fname m s₁).1, ⟨AGC_STATUS_SUCCESS, ""⟩, ?_, ?_⟩
    · rw [hfin] at hmodule
      exact returns_loadfile habsent hmodule
    · refine ⟨htries, fun h => absurd h hpresent, fun h => absurd rfl h, fun _ _ => ?_⟩
      obtain ⟨acts, hlog, howns, -, -⟩ := hsince.acts
      refine ⟨{ m with key := some fname }, lib, ?_, rfl, hlib, hpool, acts, hlog, howns.sound, ?_⟩
      · exact congrArg (fun hash => Function.update hash fname _) hsince.hash
      · intro x
        rw [howns.live x trivial, List.mem_cons, List.mem_singleton, hpool]

end Run

/-- A module that is absent is loaded, or the load fails, cleanly exactly if one of the first two
tries opens the library and finds its table. -/
theorem exists_clean_iff (o : Outcomes) (modDir dir fname : CStr) (global : Bool) (s : State) :
    EndsClean o modDir dir fname global s ↔
      (s.moduleHash fname).isSome = true ∨ ∃ i < 2, o.Resolves i := by
  cases hhash : s.moduleHash fname with
  | some m =>
    refine iff_of_true ⟨s, ⟨AGC_STATUS_SUCCESS, "Module already loaded"⟩, ?_, ?_⟩ (Or.inl rfl)
    · refine (Returns.const _).congr fun k => ?_
      simp only [agcLoadableModuleLoadfile, hhash, pure_eq_ok]
    · exact clean_of_present hhash _ rfl
  | none =>
    constructor
    · rintro ⟨s', r, ⟨n, hn⟩, hclean⟩
      right
      by_contra hnot
      have h0 : ¬ o.Resolves 0 := fun h => hnot ⟨0, by decide, h⟩
      have h1 : ¬ o.Resolves 1 := fun h => hnot ⟨1, by decide, h⟩
      have hrun := hn n (Nat.le_refl n)
      simp only [agcLoadableModuleLoadfile, hhash] at hrun
      obtain ⟨r₁, hmodule, hrest⟩ := bind_eq_ok.mp hrun
      obtain ⟨r₂, hloop, hr₂⟩ := bind_eq_ok.mp hmodule
      -- what comes behind the loop makes no try
      have htries : r₁.1.opens = r₂.1.opens := by
        cases hr₂
        cases initModule o r₂.2.2 with
        | error e =>
          cases hdso : r₂.2.1 with
          | none => rfl
          | some dso => rfl
        | ok x => rfl
      have hend : s'.opens = r₁.1.opens := by
        obtain ⟨s₁, status, m⟩ := r₁
        cases m with
        | none =>
          cases hrest
          rfl
        | some m =>
          cases hrest
          rfl
      have hthree := openLoop_opens_of_not_resolves h0 h1 hloop
      have hle := hclean.tries
      rw [hend, htries] at hle
      change s.opens.length + 3 ≤ _ at hthree
      omega
    · rintro (h | h)
      · cases h
      · exact endsClean_of_resolves o modDir dir global hhash h

/-! ## A library that is not there -/

/-- No try opens the library. -/
def missingLibrary : Outcomes where
  opened _ := false
  table _ := none
  load _ := (AGC_STATUS_SUCCESS, none)

/-- Before the first module is loaded. -/
def noModules : State where
  moduleHash _ := none
  opens := []
  nextLib := 0
  nextPool := 0
  log := []

/-- The call for a library that is not there never returns. -/
theorem not_clean_of_missingLibrary :
    (∀ k, agcLoadableModuleLoadfile missingLibrary (CStr.ofString "/mod") (CStr.ofString "")
      (CStr.ofString "mod_x") false k noModules = .error .fuel) ∧
    ¬ EndsClean missingLibrary (CStr.ofString "/mod") (CStr.ofString "") (CStr.ofString "mod_x")
      false noModules := by
  have hloop : ∀ k i path s table,
      openLoop missingLibrary path false k i 0 s none table = .error .fuel := by
    intro k
    induction k with
    | zero => exact fun _ _ _ _ => rfl
    | succ k ih =>
      intro i path s table
      have hmissing : ¬ missingLibrary.Resolves i := fun h => Bool.noConfusion h.1
      obtain ⟨s', table', hstep, -, -⟩ := openLoop_of_not_resolves path false hmissing s none table
      rw [hstep]
      exact ih _ _ _ _
  have hrun : ∀ k, agcLoadableModuleLoadfile missingLibrary (CStr.ofString "/mod")
      (CStr.ofString "") (CStr.ofString "mod_x") false k noModules = .error .fuel := by
    intro k
    change (agcLoadableModuleLoadmodule _ _ _ _ _ >>= _) = _
    rw [agcLoadableModuleLoadmodule, hloop]
    rfl
  refine ⟨hrun, ?_⟩
  rintro ⟨s', r, ⟨n, hn⟩, -⟩
  have hreturn := (hrun n).symm.trans (hn n (Nat.le_refl n))
  cases hreturn

end ModuleLoad
