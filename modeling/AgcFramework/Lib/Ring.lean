import Mathlib.Data.Nat.ModEq
import Mathlib.Data.List.Basic
import Mathlib.Tactic.Common

/-!
# Bounded queues and ring buffers

A bounded queue is a list that elements join at its end and leave at its front. A ring buffer keeps
such a list in a fixed number of cells, from one of them on and round the end of the buffer.

## Main definitions

* `FifoOp`: an element joins, an element leaves, or the queue is seen full or empty
* `FifoRun capacity l h l'`: the history `h` takes a queue from the contents `l` to `l'`
* `Ring.Holds cells out l`: the cells hold `l`, from the cell `out` on

## Main results

* `FifoRun.eq_append`: what has joined is what has left, followed by what is there
* `Ring.Holds.put`, `Ring.Holds.take`: one element more, and one less
-/

variable {α : Type}

/-! ## Histories -/

/-- What happens to a bounded queue, or is found out about it. -/
inductive FifoOp (α : Type)
  | put (d : α)
  | take (d : α)
  | full
  | empty
  deriving DecidableEq, Repr

/-- The history takes a queue of the given capacity from some contents to others. -/
inductive FifoRun (capacity : ℕ) : List α → List (FifoOp α) → List α → Prop
  | nil (l : List α) : FifoRun capacity l [] l
  | put {l l' : List α} {h : List (FifoOp α)} (hrun : FifoRun capacity l h l') (d : α)
      (hroom : l'.length < capacity) : FifoRun capacity l (h ++ [.put d]) (l' ++ [d])
  | take {l l' : List α} {h : List (FifoOp α)} {d : α} (hrun : FifoRun capacity l h (d :: l')) :
      FifoRun capacity l (h ++ [.take d]) l'
  | full {l l' : List α} {h : List (FifoOp α)} (hrun : FifoRun capacity l h l')
      (hfull : l'.length = capacity) : FifoRun capacity l (h ++ [.full]) l'
  | empty {l : List α} {h : List (FifoOp α)} (hrun : FifoRun capacity l h []) :
      FifoRun capacity l (h ++ [.empty]) []

/-- The element that joins, if any. -/
def FifoOp.joins : FifoOp α → Option α
  | put d => some d
  | _ => none

/-- The element that leaves, if any. -/
def FifoOp.leaves : FifoOp α → Option α
  | take d => some d
  | _ => none

namespace FifoRun

variable {capacity : ℕ} {l l' : List α} {h : List (FifoOp α)}

/-- First in, first out: what was there and what has joined is what has left, followed by what is
there now. -/
theorem eq_append (hrun : FifoRun capacity l h l') :
    l ++ h.filterMap FifoOp.joins = h.filterMap FifoOp.leaves ++ l' := by
  have hjoins : ∀ op : FifoOp α, [op].filterMap FifoOp.joins = op.joins.toList := by
    intro op
    cases op <;> rfl
  have hleaves : ∀ op : FifoOp α, [op].filterMap FifoOp.leaves = op.leaves.toList := by
    intro op
    cases op <;> rfl
  induction hrun with
  | nil => simp
  | put _ d _ ih =>
    rw [List.filterMap_append, List.filterMap_append, ← List.append_assoc, ih, hjoins, hleaves]
    simp [FifoOp.joins, FifoOp.leaves]
  | take _ ih =>
    rw [List.filterMap_append, List.filterMap_append, ← List.append_assoc, ih, hjoins, hleaves]
    simp [FifoOp.joins, FifoOp.leaves]
  | full _ _ ih | empty _ ih =>
    rw [List.filterMap_append, List.filterMap_append, ← List.append_assoc, ih, hjoins, hleaves]
    simp [FifoOp.joins, FifoOp.leaves]

/-- One history after another. -/
theorem trans {l'' : List α} {h' : List (FifoOp α)} (hrun : FifoRun capacity l h l')
    (hrun' : FifoRun capacity l' h' l'') : FifoRun capacity l (h ++ h') l'' := by
  induction hrun' with
  | nil =>
    rw [List.append_nil]
    exact hrun
  | put _ d hroom ih =>
    rw [← List.append_assoc]
    exact ih.put d hroom
  | take _ ih =>
    rw [← List.append_assoc]
    exact ih.take
  | full _ hfull ih =>
    rw [← List.append_assoc]
    exact ih.full hfull
  | empty _ ih =>
    rw [← List.append_assoc]
    exact ih.empty

/-- A queue never outgrows its capacity. -/
theorem length_le (hrun : FifoRun capacity l h l') (hl : l.length ≤ capacity) :
    l'.length ≤ capacity := by
  induction hrun with
  | nil => exact hl
  | put _ d hroom _ =>
    rw [List.length_append]
    exact hroom
  | take _ ih =>
    rw [List.length_cons] at ih
    omega
  | full _ _ ih => exact ih
  | empty _ ih => exact ih

end FifoRun

/-! ## Ring buffers -/

namespace Ring

variable {cells : List α} {out : ℕ} {l : List α} {d : α}

/-- The cells hold the elements of `l`, from the cell `out` on and round the end. -/
structure Holds (cells : List α) (out : ℕ) (l : List α) : Prop where
  length_le : l.length ≤ cells.length
  cell : ∀ k d, l[k]? = some d → cells[(out + k) % cells.length]? = some d

theorem Holds.nil (cells : List α) (out : ℕ) : Holds cells out [] where
  length_le := Nat.zero_le _
  cell := by simp

/-- Two places less than the size apart are different cells. -/
theorem mod_ne {n i j k : ℕ} (hj : j < k) (hk : k < n) : (i + j) % n ≠ (i + k) % n := by
  intro heq
  have hmod : j % n = k % n := Nat.ModEq.add_left_cancel' i heq
  rw [Nat.mod_eq_of_lt (hj.trans hk), Nat.mod_eq_of_lt hk] at hmod
  omega

/-- An element is written behind the last one. -/
theorem Holds.put (hl : Holds cells out l) (hroom : l.length < cells.length) (d : α) :
    Holds (cells.set ((out + l.length) % cells.length) d) out (l ++ [d]) where
  length_le := by
    rw [List.length_append, List.length_set]
    exact hroom
  cell := by
    intro k x hx
    rw [List.length_set]
    rcases Nat.lt_or_ge k l.length with hk | hk
    · -- a cell that was in use stays as it is
      rw [List.getElem?_append_left hk] at hx
      rw [List.getElem?_set_ne (mod_ne hk hroom).symm]
      exact hl.cell k x hx
    · rw [List.getElem?_append_right hk] at hx
      obtain ⟨hzero, rfl⟩ : k - l.length = 0 ∧ d = x := by
        rcases hk' : k - l.length with _ | j
        · simpa [hk'] using hx
        · simp [hk'] at hx
      obtain rfl : k = l.length := by omega
      exact List.getElem?_set_self (Nat.mod_lt _ (Nat.lt_of_le_of_lt (Nat.zero_le _) hroom))

/-- The first element is in the cell `out`, and the others are behind it. -/
theorem Holds.take (hl : Holds cells out (d :: l)) :
    cells[out % cells.length]? = some d ∧ Holds cells ((out + 1) % cells.length) l := by
  refine ⟨hl.cell 0 d rfl, (Nat.le_succ _).trans hl.length_le, fun k x hx => ?_⟩
  rw [Nat.mod_add_mod, Nat.add_assoc, Nat.add_comm 1 k]
  exact hl.cell (k + 1) x hx

/-- A place that goes one cell on starts again behind the last one. -/
theorem succ_mod {n i : ℕ} (hi : i < n) :
    (if n ≤ i + 1 then i + 1 - n else i + 1) = (i + 1) % n := by
  split_ifs with h
  · obtain rfl : i + 1 = n := by omega
    simp
  · exact (Nat.mod_eq_of_lt (by omega)).symm

end Ring
