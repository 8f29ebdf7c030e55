import Mathlib.Algebra.BigOperators.Group.Finset.Basic
import Mathlib.Data.UInt
import AgcFramework.Lib.Mutex

/-!
# The pool of database handles

A thread that wants a handle looks through the pool under `dbh_mutex`: first for a handle that it
used before and that nobody uses, then for any whose own mutex it can take. The mutexes are nested,
so that the second search may give a thread a handle that it already holds. A handle that was opened
anew is put at the front of the pool. The three critical sections are `get_freehandle`, `add_handle`
and `agc_sql_release_handle`.

## Main definitions

* `SqlPool.getFreehandle`, `SqlPool.addHandle`, `SqlPool.agcSqlReleaseHandle`
* `HeldPool.step`: a critical section, which notes what the thread obtained or gave back
* `HeldPool.Accounted`: the counters and the mutexes agree with the handles obtained

## Main results

* `HeldPool.Accounted.step`: every critical section keeps the accounts
* `HeldPool.accounting`: the accounts after every sequence of critical sections
-/

/-- The fields of `struct agc_sql_handle` that the pool reads. -/
structure SqlHandle (T : Type) where
  mutex : NestedMutex T
  threadHash : ℕ
  useCount : UInt32
  totalUsedCount : UInt64

/-- `sql_pool`, and the handles by address. -/
structure SqlPool (T : Type) where
  handlePool : List ℕ
  handles : ℕ → SqlHandle T
  totalHandles : UInt32
  totalUsedHandles : UInt32
  /-- The address of the next handle that `create_handle` makes. -/
  next : ℕ

/-- The pool, and what the threads have: the handles obtained and not yet released, each with the
thread that obtained it. -/
structure HeldPool (T : Type) extends SqlPool T where
  obtained : List (T × ℕ)

/-- A critical section of the pool. -/
inductive SqlEvent (T : Type)
  | getFreehandle (t : T)
  | addHandle (t : T)
  | release (t : T) (h : ℕ)

namespace SqlPool

variable {T : Type}

/-- The state after `agc_sql_start`. -/
def init : SqlPool T := ⟨[], fun _ => ⟨.free, 0, 0, 0⟩, 0, 0, 0⟩

/-- What `create_handle` returns. -/
def createHandle : SqlHandle T := ⟨.free, 0, 0, 0⟩

/-- A change of one handle. -/
def setHandle (s : SqlPool T) (h : ℕ) (c : SqlHandle T) : SqlPool T :=
  { s with handles := Function.update s.handles h c }

variable [DecidableEq T] (hash : T → ℕ) (limit : ℕ)

/-- The test of the first loop of `get_freehandle`, with the mutex after it. -/
def tryOwn (s : SqlPool T) (t : T) (h : ℕ) : Option (ℕ × NestedMutex T) :=
  if (s.handles h).threadHash = hash t ∧ (s.handles h).useCount = 0 then
    ((s.handles h).mutex.trylock limit t).map (h, ·)
  else none

/-- The test of the second loop of `get_freehandle`, with the mutex after it. -/
def tryAny (s : SqlPool T) (t : T) (h : ℕ) : Option (ℕ × NestedMutex T) :=
  ((s.handles h).mutex.trylock limit t).map (h, ·)

/-- The end of `get_freehandle`, for the handle found. -/
def use (s : SqlPool T) (t : T) (h : ℕ) (mutex : NestedMutex T) : SqlPool T :=
  { s.setHandle h
      { mutex := mutex
        threadHash := hash t
        useCount := (s.handles h).useCount + 1
        totalUsedCount := (s.handles h).totalUsedCount + 1 } with
    totalUsedHandles := s.totalUsedHandles + 1 }

/-- `get_freehandle`. -/
def getFreehandle (s : SqlPool T) (t : T) : SqlPool T × Option ℕ :=
  match s.handlePool.findSome? (s.tryOwn hash limit t) with
  | some (h, mutex) => (s.use hash t h mutex, some h)
  | none =>
    match s.handlePool.findSome? (s.tryAny limit t) with
    | some (h, mutex) => (s.use hash t h mutex, some h)
    | none => (s, none)

/-- `add_handle`, of the handle that `create_handle` made at the address `next`; nobody else has its
mutex. -/
def addHandle (s : SqlPool T) (t : T) : SqlPool T :=
  { s.setHandle s.next
      { mutex := .held t 0
        threadHash := hash t
        useCount := (createHandle : SqlHandle T).useCount + 1
        totalUsedCount := (createHandle : SqlHandle T).totalUsedCount + 1 } with
    totalUsedHandles := s.totalUsedHandles + 1
    handlePool := s.next :: s.handlePool
    totalHandles := s.totalHandles + 1
    next := s.next + 1 }

/-- The count and the hash of a handle that is released. -/
def countDown (c : SqlHandle T) : SqlHandle T :=
  if c.useCount ≠ 0 then
    { c with
      useCount := c.useCount - 1
      threadHash := if c.useCount - 1 = 0 then 1 else c.threadHash }
  else c

/-- `agc_sql_release_handle`. -/
def agcSqlReleaseHandle (s : SqlPool T) (t : T) (h : ℕ) : SqlPool T :=
  let c := countDown (s.handles h)
  { s.setHandle h { c with mutex := c.mutex.unlock t } with
    totalUsedHandles := s.totalUsedHandles - 1 }

/-! ## What the search finds -/

variable {hash limit} {s : SqlPool T} {t : T} {h : ℕ}

/-- The search gives a handle of the pool whose mutex it took, or nothing when no mutex of the pool
can be taken. -/
theorem getFreehandle_cases (hash : T → ℕ) (limit : ℕ) (s : SqlPool T) (t : T) :
    (∃ h ∈ s.handlePool, ∃ mutex, (s.handles h).mutex.trylock limit t = some mutex ∧
      s.getFreehandle hash limit t = (s.use hash t h mutex, some h)) ∨
    ((∀ h ∈ s.handlePool, (s.handles h).mutex.trylock limit t = none) ∧
      s.getFreehandle hash limit t = (s, none)) := by
  unfold getFreehandle
  split
  · rename_i h mutex hfound
    obtain ⟨h', hmem, htry⟩ := List.exists_of_findSome?_eq_some hfound
    simp only [tryOwn] at htry
    split at htry
    · obtain ⟨m, hm, heq⟩ := Option.map_eq_some_iff.mp htry
      obtain ⟨rfl, rfl⟩ := Prod.mk.inj heq
      exact Or.inl ⟨h', hmem, m, hm, rfl⟩
    · cases htry
  · split
    · rename_i h mutex hfound
      obtain ⟨h', hmem, htry⟩ := List.exists_of_findSome?_eq_some hfound
      obtain ⟨m, hm, heq⟩ := Option.map_eq_some_iff.mp htry
      obtain ⟨rfl, rfl⟩ := Prod.mk.inj heq
      exact Or.inl ⟨h', hmem, m, hm, rfl⟩
    · rename_i hnone
      refine Or.inr ⟨fun h hmem => ?_, rfl⟩
      simpa [tryAny] using List.findSome?_eq_none_iff.mp hnone h hmem

end SqlPool

namespace HeldPool

open SqlPool (setHandle createHandle countDown addHandle agcSqlReleaseHandle)

variable {T : Type} [DecidableEq T]

/-! ## The threads and their handles -/

section Steps

variable (hash : T → ℕ) (limit : ℕ)

/-- The state after `agc_sql_start`. -/
def init : HeldPool T := ⟨.init, []⟩

/-- A thread calls `get_freehandle`, and has the handle that is returned. -/
def get (s : HeldPool T) (t : T) : HeldPool T × Option ℕ :=
  let ret := s.getFreehandle hash limit t
  (⟨ret.1, (ret.2.map (t, ·)).toList ++ s.obtained⟩, ret.2)

/-- A thread adds the handle that it created, and has it. -/
def add (s : HeldPool T) (t : T) : HeldPool T :=
  ⟨s.addHandle hash t, (t, s.next) :: s.obtained⟩

/-- A thread gives back a handle that it has. -/
def release (s : HeldPool T) (t : T) (h : ℕ) : HeldPool T :=
  ⟨s.agcSqlReleaseHandle t h, s.obtained.erase (t, h)⟩

instance (s : HeldPool T) (p : T × ℕ) : Decidable (p ∈ s.obtained) :=
  inferInstanceAs (Decidable (p ∈ s.obtained))

/-- What a critical section does; a thread releases what it obtained. -/
def step (s : HeldPool T) : SqlEvent T → HeldPool T
  | .getFreehandle t => (s.get hash limit t).1
  | .addHandle t => s.add hash t
  | .release t h => if (t, h) ∈ s.obtained then s.release t h else s

/-- A sequence of critical sections. -/
def run (evs : List (SqlEvent T)) : HeldPool T := evs.foldl (step hash limit) init

end Steps

variable {hash : T → ℕ} {limit : ℕ} {s : HeldPool T} {t : T} {h : ℕ}

/-- A thread gets a handle of the pool whose mutex it took, or nothing when no mutex of the pool can
be taken. -/
theorem get_cases (hash : T → ℕ) (limit : ℕ) (s : HeldPool T) (t : T) :
    (∃ h ∈ s.handlePool, ∃ mutex, (s.handles h).mutex.trylock limit t = some mutex ∧
      s.get hash limit t = (⟨s.use hash t h mutex, (t, h) :: s.obtained⟩, some h)) ∨
    ((∀ h ∈ s.handlePool, (s.handles h).mutex.trylock limit t = none) ∧
      s.get hash limit t = (s, none)) := by
  rcases SqlPool.getFreehandle_cases hash limit s.toSqlPool t with
    ⟨h, hh, mutex, htry, heq⟩ | ⟨hnone, heq⟩
  · exact Or.inl ⟨h, hh, mutex, htry, by simp [get, heq]⟩
  · exact Or.inr ⟨hnone, by simp [get, heq]⟩

/-! ## The accounts -/

/-- The accounts of the pool: the counters, and for each handle its count, the depth of its mutex
and the holder of it, agree with the handles obtained. -/
structure Accounted (s : HeldPool T) : Prop where
  nodup : s.handlePool.Nodup
  lt_next : ∀ h ∈ s.handlePool, h < s.next
  pooled : ∀ p ∈ s.obtained, p.2 ∈ s.handlePool
  total : s.totalHandles = UInt32.ofNat s.handlePool.length
  used : s.totalUsedHandles = UInt32.ofNat s.obtained.length
  useCount : ∀ h ∈ s.handlePool, (s.handles h).useCount.toNat = (s.handles h).mutex.depth
  depth : ∀ h ∈ s.handlePool, (s.handles h).mutex.depth = (s.obtained.map Prod.snd).count h
  heldBy : ∀ h ∈ s.handlePool, ∀ t, (s.handles h).mutex.heldBy t = s.obtained.count (t, h)

theorem Accounted.init : (init : HeldPool T).Accounted := by
  constructor <;> simp [HeldPool.init, SqlPool.init]

theorem ofNat_succ (n : ℕ) : UInt32.ofNat n + 1 = UInt32.ofNat (n + 1) := by
  simp [UInt32.ofNat_add]

theorem ofNat_pred {n : ℕ} (hn : 0 < n) : UInt32.ofNat n - 1 = UInt32.ofNat (n - 1) := by
  obtain ⟨k, rfl⟩ := Nat.exists_eq_add_of_lt hn
  simp [UInt32.ofNat_add]

theorem toNat_succ {c : UInt32} (hc : c.toNat + 1 < 2 ^ 32) : (c + 1).toNat = c.toNat + 1 := by
  rw [UInt32.toNat_add]
  exact Nat.mod_eq_of_lt hc

/-- Obtaining a handle of the pool keeps the accounts. -/
theorem Accounted.use (hs : s.Accounted) (hlimit : limit < 2 ^ 32) (hh : h ∈ s.handlePool)
    {mutex : NestedMutex T} (htry : (s.handles h).mutex.trylock limit t = some mutex) :
    HeldPool.Accounted ⟨s.use hash t h mutex, (t, h) :: s.obtained⟩ := by
  obtain ⟨hdepth, hle, hheld⟩ := NestedMutex.trylock_spec htry
  constructor
  · exact hs.nodup
  · exact hs.lt_next
  · rintro p hp
    rcases List.mem_cons.mp hp with rfl | hp
    · exact hh
    · exact hs.pooled p hp
  · exact hs.total
  · simp only [SqlPool.use, List.length_cons, hs.used]
    exact ofNat_succ _
  · -- the counter of the handle, the depth of its mutex and the owners go up together
    intro h' hh'
    by_cases heq : h' = h
    · subst heq
      have hcount := hs.useCount h' hh'
      simp only [SqlPool.use, setHandle, Function.update_self]
      rw [toNat_succ (by omega)]
      omega
    · simpa [SqlPool.use, setHandle, heq] using hs.useCount h' hh'
  · intro h' hh'
    by_cases heq : h' = h
    · subst heq
      simp [SqlPool.use, setHandle, hdepth, hs.depth h' hh']
    · have hne : h ≠ h' := Ne.symm heq
      simpa [SqlPool.use, setHandle, heq, hne] using hs.depth h' hh'
  · intro h' hh' u
    by_cases heq : h' = h
    · subst heq
      simp only [SqlPool.use, setHandle, Function.update_self, hheld, hs.heldBy h' hh',
        List.count_cons]
      by_cases htu : t = u <;> simp [htu]
    · have hne : h ≠ h' := Ne.symm heq
      simpa [SqlPool.use, setHandle, heq, hne, List.count_cons] using hs.heldBy h' hh' u

/-- Adding a handle keeps the accounts. -/
theorem Accounted.add (hs : s.Accounted) (t : T) : (s.add hash t).Accounted := by
  have hfresh : ∀ h ∈ s.handlePool, h ≠ s.next := fun h hh => (hs.lt_next h hh).ne
  -- nobody obtained the new handle before
  have hnew : ∀ p ∈ s.obtained, p.2 ≠ s.next := fun p hp => hfresh p.2 (hs.pooled p hp)
  have hcount : (s.obtained.map Prod.snd).count s.next = 0 := by
    rw [List.count_eq_zero]
    intro hmem
    obtain ⟨p, hp, heq⟩ := List.mem_map.mp hmem
    exact hnew p hp heq
  have hcount' : ∀ u, s.obtained.count (u, s.next) = 0 := by
    intro u
    rw [List.count_eq_zero]
    exact fun hmem => hnew _ hmem rfl
  constructor
  · exact List.nodup_cons.mpr ⟨fun hmem => hfresh _ hmem rfl, hs.nodup⟩
  · intro h hh
    rcases List.mem_cons.mp hh with rfl | hh
    · exact Nat.lt_succ_self _
    · exact (hs.lt_next h hh).trans (Nat.lt_succ_self _)
  · intro p hp
    rcases List.mem_cons.mp hp with rfl | hp
    · exact List.mem_cons_self
    · exact List.mem_cons_of_mem _ (hs.pooled p hp)
  · simp only [HeldPool.add, addHandle, List.length_cons, hs.total]
    exact ofNat_succ _
  · simp only [HeldPool.add, addHandle, List.length_cons, hs.used]
    exact ofNat_succ _
  · intro h hh
    rcases List.mem_cons.mp hh with rfl | hh
    · simp [HeldPool.add, addHandle, setHandle, createHandle, NestedMutex.depth]
    · simpa [HeldPool.add, addHandle, setHandle, hfresh h hh] using hs.useCount h hh
  · intro h hh
    rcases List.mem_cons.mp hh with rfl | hh
    · simp [HeldPool.add, addHandle, setHandle, NestedMutex.depth, hcount]
    · simpa [HeldPool.add, addHandle, setHandle, hfresh h hh, (hfresh h hh).symm]
        using hs.depth h hh
  · intro h hh u
    rcases List.mem_cons.mp hh with rfl | hh
    · simp only [HeldPool.add, addHandle, setHandle, Function.update_self, NestedMutex.heldBy,
        List.count_cons, hcount']
      by_cases htu : t = u <;> simp [htu]
    · simpa [HeldPool.add, addHandle, setHandle, hfresh h hh, (hfresh h hh).symm, List.count_cons]
        using hs.heldBy h hh u

/-- A handle that was obtained is held by the thread that obtained it. -/
theorem Accounted.heldBy_pos (hs : s.Accounted) (hth : (t, h) ∈ s.obtained) :
    0 < (s.handles h).mutex.heldBy t := by
  rw [hs.heldBy h (hs.pooled _ hth)]
  exact List.count_pos_iff.mpr hth

/-- The handles obtained, but for one. -/
theorem count_snd_erase (hth : (t, h) ∈ s.obtained) (h' : ℕ) :
    ((s.obtained.erase (t, h)).map Prod.snd).count h' =
      (s.obtained.map Prod.snd).count h' - if h = h' then 1 else 0 := by
  have hperm := (List.perm_cons_erase hth).map Prod.snd
  rw [hperm.count_eq, List.map_cons, List.count_cons]
  by_cases heq : h = h' <;> simp [heq]

/-- Releasing a handle keeps the accounts. -/
theorem Accounted.release (hs : s.Accounted) (hth : (t, h) ∈ s.obtained) :
    (s.release t h).Accounted := by
  have hh := hs.pooled _ hth
  obtain ⟨hdepth, hheld⟩ := NestedMutex.unlock_spec (hs.heldBy_pos hth)
  have hmutex : (countDown (s.handles h)).mutex = (s.handles h).mutex := by
    unfold countDown
    split <;> rfl
  have hpos : 0 < (s.handles h).mutex.depth := by
    rw [hs.depth h hh]
    exact List.count_pos_iff.mpr (List.mem_map.mpr ⟨_, hth, rfl⟩)
  constructor
  · exact hs.nodup
  · exact hs.lt_next
  · exact fun p hp => hs.pooled p (List.mem_of_mem_erase hp)
  · exact hs.total
  · simp only [HeldPool.release, agcSqlReleaseHandle, hs.used, List.length_erase_of_mem hth]
    exact ofNat_pred (List.length_pos_of_mem hth)
  · intro h' hh'
    by_cases heq : h' = h
    · subst heq
      have hcount := hs.useCount h' hh'
      -- the handle is checked out, so its counter does not fall below zero
      have hne : (s.handles h').useCount ≠ 0 := by
        rintro h0
        simp [h0] at hcount
        omega
      simp only [HeldPool.release, agcSqlReleaseHandle, setHandle, Function.update_self, hmutex,
        hdepth]
      simp only [countDown, hne, ne_eq, not_false_eq_true, if_true]
      rw [UInt32.toNat_sub_of_le _ _ (UInt32.le_iff_toNat_le.mpr (by simp; omega)), hcount]
      rfl
    · simpa [HeldPool.release, agcSqlReleaseHandle, setHandle, heq] using hs.useCount h' hh'
  · intro h' hh'
    simp only [HeldPool.release, agcSqlReleaseHandle, count_snd_erase hth]
    by_cases heq : h' = h
    · subst heq
      simp [setHandle, hmutex, hdepth, hs.depth h' hh']
    · simpa [setHandle, heq, Ne.symm heq] using hs.depth h' hh'
  · intro h' hh' u
    simp only [HeldPool.release, agcSqlReleaseHandle, List.count_erase]
    by_cases heq : h' = h
    · subst heq
      simp only [setHandle, Function.update_self, hmutex, hheld, hs.heldBy h' hh']
      by_cases htu : t = u <;> simp [htu]
    · simpa [setHandle, heq, Ne.symm heq] using hs.heldBy h' hh' u

/-- Every critical section keeps the accounts. -/
theorem Accounted.step (hs : s.Accounted) (hlimit : limit < 2 ^ 32) (e : SqlEvent T) :
    (s.step hash limit e).Accounted := by
  cases e with
  | getFreehandle t =>
    rcases get_cases hash limit s t with ⟨h, hh, mutex, htry, heq⟩ | ⟨-, heq⟩
    · simpa only [HeldPool.step, heq] using hs.use hlimit hh htry
    · simpa only [HeldPool.step, heq] using hs
  | addHandle t => exact hs.add t
  | release t h =>
    simp only [HeldPool.step]
    split
    · rename_i hth
      exact hs.release hth
    · exact hs

theorem Accounted.run (hash : T → ℕ) (hlimit : limit < 2 ^ 32) (evs : List (SqlEvent T)) :
    (run hash limit evs).Accounted := by
  induction evs using List.reverseRecOn with
  | nil => exact Accounted.init
  | append_singleton evs e ih =>
    rw [HeldPool.run, List.foldl_concat]
    exact ih.step hlimit e

/-- The counts of the handles add up to the handles obtained. -/
theorem Accounted.sum_useCount (hs : s.Accounted) :
    (s.handlePool.map fun h => (s.handles h).useCount.toNat).sum = s.obtained.length := by
  have hcount : ∀ h ∈ s.handlePool,
      (s.handles h).useCount.toNat = (s.obtained.map Prod.snd).count h :=
    fun h hh => (hs.useCount h hh).trans (hs.depth h hh)
  rw [List.map_congr_left hcount, ← List.sum_toFinset _ hs.nodup]
  have hsum := Multiset.sum_count_eq_card (s := s.handlePool.toFinset)
    (m := (s.obtained.map Prod.snd : Multiset ℕ)) (by
      intro h hmem
      obtain ⟨p, hp, rfl⟩ := List.mem_map.mp (Multiset.mem_coe.mp hmem)
      exact List.mem_toFinset.mpr (hs.pooled p hp))
  simpa using hsum

/-- Two threads never hold the same handle. -/
theorem Accounted.eq_of_mem (hs : s.Accounted) {u : T} (ht : (t, h) ∈ s.obtained)
    (hu : (u, h) ∈ s.obtained) : t = u :=
  NestedMutex.eq_of_heldBy (hs.heldBy_pos ht) (hs.heldBy_pos hu)

/-- **The accounts of the pool.** After every sequence of critical sections of any number of
threads, where a thread releases what it obtained, the counters (as `uint32_t`) are the length of
the pool and the sum of the handles' counts, which is the number of handles obtained and not yet
released; the mutex of each handle is held as often as its count says, by the thread that obtained
the handle as often as it obtained it; and no two threads hold one handle. The mutexes can be held
as often as their recursion limit, a `uint32_t`, allows. -/
theorem accounting (hash : T → ℕ) (hlimit : limit < 2 ^ 32) (evs : List (SqlEvent T)) :
    let s := run hash limit evs
    s.totalHandles = UInt32.ofNat s.handlePool.length ∧
    s.totalUsedHandles =
      UInt32.ofNat (s.handlePool.map fun h => (s.handles h).useCount.toNat).sum ∧
    (s.handlePool.map fun h => (s.handles h).useCount.toNat).sum = s.obtained.length ∧
    (∀ h ∈ s.handlePool, (s.handles h).mutex.depth = (s.handles h).useCount.toNat ∧
      ∀ t, (s.handles h).mutex.heldBy t = s.obtained.count (t, h)) ∧
    (∀ p ∈ s.obtained, p.2 ∈ s.handlePool) ∧
    ∀ t u h, (t, h) ∈ s.obtained → (u, h) ∈ s.obtained → t = u := by
  have hs := Accounted.run hash hlimit evs
  refine ⟨hs.total, ?_, hs.sum_useCount, fun h hh => ⟨(hs.useCount h hh).symm, hs.heldBy h hh⟩,
    hs.pooled, fun t u h => hs.eq_of_mem⟩
  rw [hs.sum_useCount]
  exact hs.used

/-- A thread obtains a handle twice, while another thread looks for one, and gives it back once;
then it gives it back for good, and the other thread gets it. -/
theorem accounting_same_handle_twice :
    let s := run (fun t : ℕ => t) (2 ^ 32 - 1)
      [.addHandle 5, .getFreehandle 5, .getFreehandle 7, .release 5 0]
    let s' := run (fun t : ℕ => t) (2 ^ 32 - 1)
      [.addHandle 5, .getFreehandle 5, .getFreehandle 7, .release 5 0, .release 5 0,
        .getFreehandle 7]
    s.obtained = [(5, 0)] ∧ s.totalUsedHandles = 1 ∧ s'.obtained = [(7, 0)] ∧
    (∀ h ∈ s.handlePool, (s.handles h).mutex.depth = (s.handles h).useCount.toNat ∧
      ∀ t, (s.handles h).mutex.heldBy t = s.obtained.count (t, h)) ∧
    ∀ h ∈ s'.handlePool, (s'.handles h).mutex.depth = (s'.handles h).useCount.toNat ∧
      ∀ t, (s'.handles h).mutex.heldBy t = s'.obtained.count (t, h) := by
  intro s s'
  refine ⟨by decide, by decide, by decide, ?_, ?_⟩
  · exact (accounting (fun t : ℕ => t) (by decide) _).2.2.2.1
  · exact (accounting (fun t : ℕ => t) (by decide) _).2.2.2.1

end HeldPool
