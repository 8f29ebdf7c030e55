import Mathlib.Data.List.Nodup
import Mathlib.Data.List.Perm.Basic
import Mathlib.Data.List.Perm.Subperm
import Mathlib.Tactic.Common

/-!
# Items in places

Items are handed from place to place: from a queue to a holder, from a holder to a thread, and
back. Each place has a list of the items that are there. An item is in exactly one place when one
place has it once and no other place has it; a move of an item keeps this for every item.

## Main definitions

* `At c x p`: the item `x` is in the place `p` once and nowhere else
* `ExactlyOnce c x`: the item is in one place once
* `Moved c c' x p q`: the item `x` went from `p` to `q`
* `Removed c c' x p`: the item `x` left `p`

## Main results

* `Moved.exactlyOnce`: a move keeps every item in exactly one place
* `ExactlyOnce.nodup`, `length_le`: a place of such items is no longer than the list of them
-/

namespace Places

variable {π ι : Type} {c c' : π → List ι} {x y : ι} {p q : π}

/-- The item `x` went from the place `p` to the place `q`. -/
structure Moved (c c' : π → List ι) (x : ι) (p q : π) : Prop where
  ne : p ≠ q
  source : (c p).Perm (x :: c' p)
  target : (c' q).Perm (x :: c q)
  others : ∀ r, r ≠ p → r ≠ q → c' r = c r

theorem Moved.mem_source (h : Moved c c' x p q) : x ∈ c p :=
  h.source.mem_iff.mpr List.mem_cons_self

/-- The item `x` was taken out of the place `p`. -/
structure Removed (c c' : π → List ι) (x : ι) (p : π) : Prop where
  source : (c p).Perm (x :: c' p)
  others : ∀ r, r ≠ p → c' r = c r

theorem Removed.mem_of_mem (h : Removed c c' x p) {r : π} (hy : y ∈ c' r) : y ∈ c r := by
  by_cases hrp : r = p
  · rw [hrp] at hy ⊢
    exact h.source.mem_iff.mpr (List.mem_cons_of_mem x hy)
  · exact h.others r hrp ▸ hy

/-- A move brings no item from outside. -/
theorem Moved.mem_of_mem (h : Moved c c' x p q) {r : π} (hy : y ∈ c' r) : ∃ r', y ∈ c r' := by
  by_cases hrp : r = p
  · exact ⟨p, h.source.mem_iff.mpr (List.mem_cons_of_mem x (hrp ▸ hy))⟩
  · by_cases hrq : r = q
    · rw [hrq] at hy
      rcases List.mem_cons.mp (h.target.mem_iff.mp hy) with rfl | hy
      · exact ⟨p, h.mem_source⟩
      · exact ⟨q, hy⟩
    · exact ⟨r, h.others r hrp hrq ▸ hy⟩

variable [DecidableEq ι]

/-- The item is in the place once and nowhere else. -/
structure At (c : π → List ι) (x : ι) (p : π) : Prop where
  once : (c p).count x = 1
  nowhere : ∀ q, q ≠ p → x ∉ c q

/-- The item is in one place once and nowhere else. -/
def ExactlyOnce (c : π → List ι) (x : ι) : Prop := ∃ p, At c x p

theorem At.mem (h : At c x p) : x ∈ c p := by
  rw [← List.count_pos_iff, h.once]
  exact Nat.one_pos

theorem At.eq_of_mem (h : At c x p) (hx : x ∈ c q) : q = p := by
  by_contra hne
  exact h.nowhere q hne hx

/-- The items other than the one that is moved stay where they are. -/
theorem Moved.count_of_ne (h : Moved c c' x p q) (hne : y ≠ x) (r : π) :
    (c' r).count y = (c r).count y := by
  by_cases hrp : r = p
  · rw [hrp, h.source.count_eq, List.count_cons_of_ne (Ne.symm hne)]
  · by_cases hrq : r = q
    · rw [hrq, h.target.count_eq, List.count_cons_of_ne (Ne.symm hne)]
    · rw [h.others r hrp hrq]

/-- A move keeps every item in exactly one place. -/
theorem Moved.exactlyOnce (h : Moved c c' x p q) (hy : ExactlyOnce c y) : ExactlyOnce c' y := by
  obtain ⟨r, hr⟩ := hy
  by_cases hyx : y = x
  · -- the moved item was in the place it comes from, once
    subst hyx
    obtain rfl : p = r := hr.eq_of_mem h.mem_source
    refine ⟨q, ?_, fun s hs hmem => ?_⟩
    · rw [h.target.count_eq, List.count_cons_self, List.count_eq_zero.mpr (hr.nowhere q h.ne.symm)]
    · by_cases hsp : s = p
      · rw [hsp, ← List.count_pos_iff] at hmem
        have hcount := hr.once
        rw [h.source.count_eq, List.count_cons_self] at hcount
        omega
      · rw [h.others s hsp hs] at hmem
        exact hr.nowhere s hsp hmem
  · refine ⟨r, ?_, fun s hs hmem => hr.nowhere s hs ?_⟩
    · rw [h.count_of_ne hyx]
      exact hr.once
    · rw [← List.count_pos_iff, ← h.count_of_ne hyx, List.count_pos_iff]
      exact hmem

/-- The items other than the one that is removed stay where they are. -/
theorem Removed.count_of_ne (h : Removed c c' x p) (hne : y ≠ x) (r : π) :
    (c' r).count y = (c r).count y := by
  by_cases hrp : r = p
  · rw [hrp, h.source.count_eq, List.count_cons_of_ne (Ne.symm hne)]
  · rw [h.others r hrp]

/-- Places that agree for an item. -/
theorem ExactlyOnce.congr (h : ExactlyOnce c x) (hc : ∀ r, (c' r).count x = (c r).count x) :
    ExactlyOnce c' x := by
  obtain ⟨p, hp⟩ := h
  refine ⟨p, (hc p).trans hp.once, fun q hq hmem => hp.nowhere q hq ?_⟩
  rw [← List.count_pos_iff, ← hc, List.count_pos_iff]
  exact hmem

/-- A place whose items are each in exactly one place holds none of them twice. -/
theorem nodup_of_exactlyOnce (h : ∀ x ∈ c p, ExactlyOnce c x) : (c p).Nodup := by
  rw [List.nodup_iff_count_le_one]
  intro x
  by_cases hx : x ∈ c p
  · obtain ⟨q, hq⟩ := h x hx
    rw [hq.eq_of_mem hx]
    exact Nat.le_of_eq hq.once
  · rw [List.count_eq_zero.mpr hx]
    exact Nat.zero_le 1

/-- A place is no longer than a list that has all its items. -/
theorem length_le {l : List ι} (h : ∀ x ∈ c p, ExactlyOnce c x) (hl : ∀ x ∈ c p, x ∈ l) :
    (c p).length ≤ l.length :=
  ((nodup_of_exactlyOnce h).subperm hl).length_le

end Places
