import Mathlib.Tactic.Common
import Mathlib.Data.BitVec

/-!
# Order on a circle of machine words

Words of a fixed width are compared through the sign of their difference. On the whole circle
this is not an order: it is one on every window shorter than half the circle, where it agrees with
the distance from the window's start.

## Main definitions

* `Circular.offset b k`: how far `k` lies after `b`
* `Circular.Window S`: the words of `S` lie in fewer than half the circle's consecutive values

## Main results

* `Circular.toInt_sub_eq`: in a window the signed difference is the difference of the offsets
* `Circular.Window.toInt_sub_pos`: in a window the comparison is transitive
-/

namespace Circular

variable {w : ℕ} {b k k' : BitVec w} {S S' : Set (BitVec w)}

/-- The distance from `b` forward to `k`. -/
def offset (b k : BitVec w) : ℕ := (k - b).toNat

/-- All of `S` lies among fewer than `2 ^ (w - 1)` consecutive values. -/
def Window (S : Set (BitVec w)) : Prop :=
  ∃ b n, n < 2 ^ (w - 1) ∧ ∀ k ∈ S, offset b k < n

theorem Window.mono (h : Window S) (hs : S' ⊆ S) : Window S' := by
  obtain ⟨b, n, hn, hk⟩ := h
  exact ⟨b, n, hn, fun k hk' => hk k (hs hk')⟩

/-- Words in the lower half of the circle subtract as numbers. -/
theorem toInt_sub_of_lt {x y : BitVec w} (hx : x.toNat < 2 ^ (w - 1))
    (hy : y.toNat < 2 ^ (w - 1)) : (x - y).toInt = (x.toNat : ℤ) - y.toNat := by
  cases w with
  | zero =>
    have hx0 : x.toNat < 2 ^ 0 := x.isLt
    have hy0 : y.toNat < 2 ^ 0 := y.isLt
    have hxy : x - y = 0#0 := BitVec.eq_nil _
    rw [hxy, BitVec.toInt_zero]
    omega
  | succ w =>
    have hpow : 2 ^ (w + 1) = 2 * 2 ^ w := Nat.pow_succ'
    rw [Nat.add_sub_cancel] at hx hy
    rw [BitVec.toInt_eq_toNat_cond, BitVec.toNat_sub]
    -- the difference wraps exactly when `x` is the smaller one
    rcases Nat.lt_or_ge x.toNat y.toNat with hlt | hge
    · have hmod : (2 ^ (w + 1) - y.toNat + x.toNat) % 2 ^ (w + 1) =
          2 ^ (w + 1) - y.toNat + x.toNat := Nat.mod_eq_of_lt (by omega)
      rw [hmod, if_neg (by omega)]
      omega
    · have hmod : (2 ^ (w + 1) - y.toNat + x.toNat) % 2 ^ (w + 1) = x.toNat - y.toNat := by
        have : 2 ^ (w + 1) - y.toNat + x.toNat = (x.toNat - y.toNat) + 2 ^ (w + 1) := by omega
        rw [this, Nat.add_mod_right, Nat.mod_eq_of_lt (by omega)]
      rw [hmod, if_pos (by omega)]
      omega

/-- In a window the signed difference of two words is the difference of their offsets. -/
theorem toInt_sub_eq (h : offset b k < 2 ^ (w - 1)) (h' : offset b k' < 2 ^ (w - 1)) :
    (k - k').toInt = (offset b k : ℤ) - offset b k' := by
  have hd : k - k' = (k - b) - (k' - b) := (sub_sub_sub_cancel_right k k' b).symm
  rw [hd]
  exact toInt_sub_of_lt h h'

theorem toInt_sub_neg_iff (h : offset b k < 2 ^ (w - 1)) (h' : offset b k' < 2 ^ (w - 1)) :
    (k - k').toInt < 0 ↔ offset b k < offset b k' := by
  rw [toInt_sub_eq h h']
  omega

theorem toInt_sub_nonneg_iff (h : offset b k < 2 ^ (w - 1)) (h' : offset b k' < 2 ^ (w - 1)) :
    0 ≤ (k - k').toInt ↔ offset b k' ≤ offset b k := by
  rw [toInt_sub_eq h h']
  omega

/-- On a window the comparison is transitive. -/
theorem Window.toInt_sub_pos {k₁ k₂ k₃ : BitVec w} (hw : Window S) (h₁ : k₁ ∈ S) (h₂ : k₂ ∈ S)
    (h₃ : k₃ ∈ S) (h₁₂ : 0 < (k₂ - k₁).toInt) (h₂₃ : 0 ≤ (k₃ - k₂).toInt) :
    0 < (k₃ - k₁).toInt := by
  obtain ⟨b, n, hn, hk⟩ := hw
  have hlt : ∀ k ∈ S, offset b k < 2 ^ (w - 1) := fun k hkS => Nat.lt_trans (hk k hkS) hn
  rw [toInt_sub_eq (hlt _ h₂) (hlt _ h₁)] at h₁₂
  rw [toInt_sub_eq (hlt _ h₃) (hlt _ h₂)] at h₂₃
  rw [toInt_sub_eq (hlt _ h₃) (hlt _ h₁)]
  omega

end Circular
