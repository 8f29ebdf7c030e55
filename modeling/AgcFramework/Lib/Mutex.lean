import Mathlib.Order.MinMax

/-!
# Re-entrant locks

A lock that its owner may take again, up to a limit, and that is free once it has been given back
as many times.

## Main definitions

* `NestedMutex`: a lock that is free, or held by one thread a number of times
* `NestedMutex.trylock`, `NestedMutex.unlock`

## Main results

* `NestedMutex.eq_of_heldBy`: one thread at most holds a lock
* `NestedMutex.trylock_spec`, `NestedMutex.unlock_spec`: how often it is held, and by whom
-/

/-- A lock that is free, or held by its owner once and `more` times. -/
inductive NestedMutex (T : Type)
  | free
  | held (owner : T) (more : ℕ)

namespace NestedMutex

variable {T : Type}

/-- How many times the lock is held. -/
def depth : NestedMutex T → ℕ
  | free => 0
  | held _ more => more + 1

variable [DecidableEq T] {m m' : NestedMutex T} {t u : T} {limit : ℕ}

/-- How many times a thread holds the lock. -/
def heldBy : NestedMutex T → T → ℕ
  | free, _ => 0
  | held owner more, t => if owner = t then more + 1 else 0

/-- The attempt to take the lock; the owner holds it at most `limit` times. -/
def trylock (limit : ℕ) : NestedMutex T → T → Option (NestedMutex T)
  | free, t => some (held t 0)
  | held owner more, t =>
    if owner = t ∧ more + 1 < limit then some (held t (more + 1)) else none

/-- Giving the lock back, which only its owner can. -/
def unlock : NestedMutex T → T → NestedMutex T
  | free, _ => free
  | held owner 0, t => if owner = t then free else held owner 0
  | held owner (more + 1), t => if owner = t then held owner more else held owner (more + 1)

/-- One thread at most holds a lock. -/
theorem eq_of_heldBy (ht : 0 < m.heldBy t) (hu : 0 < m.heldBy u) : t = u := by
  cases m with
  | free => simp [heldBy] at ht
  | held owner more =>
    simp only [heldBy] at ht hu
    split at ht <;> split at hu <;> simp_all

/-- A lock that is taken is held once more, by the thread that took it. -/
theorem trylock_spec (h : m.trylock limit t = some m') :
    m'.depth = m.depth + 1 ∧ m'.depth ≤ max limit 1 ∧
      ∀ u, m'.heldBy u = m.heldBy u + if t = u then 1 else 0 := by
  cases m with
  | free =>
    obtain rfl : held t 0 = m' := by simpa [trylock] using h
    refine ⟨rfl, le_max_right _ _, fun u => ?_⟩
    by_cases htu : t = u <;> simp [heldBy, htu]
  | held owner more =>
    simp only [trylock] at h
    split at h
    · rename_i hlimit
      obtain ⟨rfl, hlimit⟩ := hlimit
      obtain rfl := Option.some.inj h
      refine ⟨rfl, le_max_of_le_left hlimit, fun u => ?_⟩
      by_cases hou : owner = u <;> simp [heldBy, hou]
    · cases h

/-- A free lock can be taken. -/
theorem trylock_of_depth_eq_zero (h : m.depth = 0) : m.trylock limit t = some (held t 0) := by
  cases m with
  | free => rfl
  | held owner more => simp [depth] at h

/-- A lock that its owner gives back is held once less. -/
theorem unlock_spec (h : 0 < m.heldBy t) :
    (m.unlock t).depth = m.depth - 1 ∧
      ∀ u, (m.unlock t).heldBy u = m.heldBy u - if t = u then 1 else 0 := by
  cases m with
  | free => simp [heldBy] at h
  | held owner more =>
    obtain rfl : owner = t := by
      by_contra hne
      simp [heldBy, hne] at h
    cases more with
    | zero =>
      refine ⟨by simp [unlock, depth], fun u => ?_⟩
      by_cases hou : owner = u <;> simp [unlock, heldBy, hou]
    | succ more =>
      refine ⟨by simp [unlock, depth], fun u => ?_⟩
      by_cases hou : owner = u <;> simp [unlock, heldBy, hou]

end NestedMutex
