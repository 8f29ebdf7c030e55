import Mathlib.Order.Nat
import Mathlib.Tactic.Common

/-!
# Regions that tile an interval

A region is a start and a length. Regions tile an interval when each one starts where the one before
it ends, the first at the start of the interval and the last up to its end.

## Main definitions

* `Tiles lo rs hi`: the regions tile the interval from `lo` up to `hi`

## Main results

* `tiles_append`: tilings one behind the other
* `Tiles.pairwise`, `Tiles.within`: the regions do not overlap, and none leaves the interval
-/

namespace Tiling

/-- A start and a length. -/
abbrev Region := ℕ × ℕ

/-- The regions stand one behind the other from `lo` up to `hi`. -/
def Tiles : ℕ → List Region → ℕ → Prop
  | lo, [], hi => lo = hi
  | lo, (a, n) :: rs, hi => a = lo ∧ Tiles (lo + n) rs hi

variable {lo mid hi a n : ℕ} {rs ss : List Region}

@[simp] theorem tiles_nil : Tiles lo [] hi ↔ lo = hi := Iff.rfl

@[simp] theorem tiles_cons : Tiles lo ((a, n) :: rs) hi ↔ a = lo ∧ Tiles (lo + n) rs hi := Iff.rfl

theorem tiles_append : Tiles lo (rs ++ ss) hi ↔ ∃ mid, Tiles lo rs mid ∧ Tiles mid ss hi := by
  induction rs generalizing lo with
  | nil => simp
  | cons r rs ih =>
    obtain ⟨a, n⟩ := r
    rw [List.cons_append, tiles_cons, ih]
    constructor
    · rintro ⟨ha, mid, hrs, hss⟩
      exact ⟨mid, ⟨ha, hrs⟩, hss⟩
    · rintro ⟨mid, ⟨ha, hrs⟩, hss⟩
      exact ⟨ha, mid, hrs, hss⟩

theorem Tiles.append (h : Tiles lo rs mid) (h' : Tiles mid ss hi) : Tiles lo (rs ++ ss) hi :=
  tiles_append.mpr ⟨mid, h, h'⟩

theorem Tiles.le (h : Tiles lo rs hi) : lo ≤ hi := by
  induction rs generalizing lo with
  | nil => exact h.le
  | cons r rs ih => exact (Nat.le_add_right _ _).trans (ih h.2)

/-- No region leaves the interval. -/
theorem Tiles.within (h : Tiles lo rs hi) : ∀ r ∈ rs, lo ≤ r.1 ∧ r.1 + r.2 ≤ hi := by
  induction rs generalizing lo with
  | nil => simp
  | cons x rs ih =>
    obtain ⟨a, n⟩ := x
    obtain ⟨rfl, hrs⟩ := h
    intro r hr
    rcases List.mem_cons.mp hr with rfl | hr
    · exact ⟨le_rfl, hrs.le⟩
    · obtain ⟨hlo, hhi⟩ := ih hrs r hr
      exact ⟨(Nat.le_add_right _ _).trans hlo, hhi⟩

/-- A region ends before the ones behind it start. -/
theorem Tiles.pairwise (h : Tiles lo rs hi) : rs.Pairwise fun r s => r.1 + r.2 ≤ s.1 := by
  induction rs generalizing lo with
  | nil => exact List.Pairwise.nil
  | cons x rs ih =>
    obtain ⟨a, n⟩ := x
    obtain ⟨rfl, hrs⟩ := h
    exact List.Pairwise.cons (fun s hs => (hrs.within s hs).1) (ih hrs)

/-- Regions that are found one by one. -/
theorem tiles_range {f : ℕ → List Region} (bound : ℕ → ℕ)
    (h : ∀ i < n, Tiles (bound i) (f i) (bound (i + 1))) :
    Tiles (bound 0) ((List.range n).flatMap f) (bound n) := by
  induction n with
  | zero => rfl
  | succ n ih =>
    rw [List.range_succ, List.flatMap_append, List.flatMap_singleton]
    exact (ih fun i hi => h i (Nat.lt_succ_of_lt hi)).append (h n (Nat.lt_succ_self n))

end Tiling
