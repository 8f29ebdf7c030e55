import Mathlib.Algebra.Group.Nat.Defs
import Mathlib.Tactic.Common

/-!
# Words as rows of lanes

A word of `w * n` bits is a row of `n` lanes of `w` bits, the lowest one first. A computation on the
word works on each lane by itself where no addition carries out of a lane, no subtraction borrows,
and what is shifted across a boundary is masked away.

## Main definitions

* `lane x i`, `lanes x`: a lane, and all of them
* `pack l`: the word with given lanes
* `Lanewise F f`: each lane of `F x` is `f` of the same lane of `x`

## Main results

* `lanes_pack`: the lanes of a packed word
* `Lanewise.add`, `Lanewise.sub`, `Lanewise.shiftAnd`: arithmetic in all lanes at once
-/

namespace Lanes

variable {w n i : ℕ} {x y : BitVec (w * n)}

/-- A lane. -/
def lane (x : BitVec (w * n)) (i : ℕ) : BitVec w := x.extractLsb' (w * i) w

/-- The lanes of a word, the lowest one first. -/
def lanes (x : BitVec (w * n)) : List (BitVec w) := (List.range n).map (lane x)

/-- The number with given lanes. -/
def value (l : List (BitVec w)) : ℕ := l.foldr (fun a v => a.toNat + 2 ^ w * v) 0

/-- The word with given lanes. -/
def pack (l : List (BitVec w)) : BitVec (w * n) := BitVec.ofNat (w * n) (value l)

/-- A word with the same lane everywhere. -/
def Splat (x : BitVec (w * n)) (a : BitVec w) : Prop := ∀ i < n, lane x i = a

instance (x : BitVec (w * n)) (a : BitVec w) : Decidable (Splat x a) :=
  inferInstanceAs (Decidable (∀ i < n, lane x i = a))

/-- The computation `F` on words is `f` in each lane. -/
def Lanewise (F : BitVec (w * n) → BitVec (w * n)) (f : BitVec w → BitVec w) : Prop :=
  ∀ x, ∀ i < n, lane (F x) i = f (lane x i)

/-! ## One lane -/

theorem toNat_lane (x : BitVec (w * n)) (i : ℕ) :
    (lane x i).toNat = x.toNat / 2 ^ (w * i) % 2 ^ w := by
  rw [lane, BitVec.extractLsb'_toNat, Nat.shiftRight_eq_div_pow]

theorem mul_add_le (hi : i < n) : w * i + w ≤ w * n := by
  rw [← Nat.mul_succ]
  exact Nat.mul_le_mul_left w hi

/-- A lane is not touched by a reduction to the width of the word. -/
theorem toNat_lane_ofNat (hi : i < n) (v : ℕ) :
    (lane (BitVec.ofNat (w * n) v) i).toNat = v / 2 ^ (w * i) % 2 ^ w := by
  have hle := mul_add_le (w := w) hi
  have hsplit : 2 ^ (w * n) = 2 ^ (w * i) * 2 ^ (w * n - w * i) := by
    rw [← pow_add, Nat.add_sub_cancel' (by omega)]
  have hdvd : 2 ^ w ∣ 2 ^ (w * n - w * i) := Nat.pow_dvd_pow 2 (by omega)
  rw [toNat_lane, BitVec.toNat_ofNat, hsplit, Nat.mod_mul_right_div_self, Nat.mod_mod_of_dvd _ hdvd]

/-- The lanes below a boundary, with one more. -/
theorem low_succ (x : BitVec (w * n)) (i : ℕ) : x.toNat % 2 ^ (w * (i + 1)) =
    x.toNat % 2 ^ (w * i) + 2 ^ (w * i) * (lane x i).toNat := by
  rw [Nat.mul_succ, pow_add, Nat.mod_mul, toNat_lane]

/-- No carry leaves the lanes below a boundary. -/
theorem low_add_lt (h : ∀ j < i, (lane x j).toNat + (lane y j).toNat < 2 ^ w) :
    x.toNat % 2 ^ (w * i) + y.toNat % 2 ^ (w * i) < 2 ^ (w * i) := by
  induction i with
  | zero => simp [Nat.mod_one]
  | succ i ih =>
    have hlow := ih fun j hj => h j (Nat.lt_succ_of_lt hj)
    have hlane := h i (Nat.lt_succ_self i)
    have hpow : 2 ^ (w * (i + 1)) = 2 ^ (w * i) * 2 ^ w := by rw [Nat.mul_succ, pow_add]
    have hmul : 2 ^ (w * i) * ((lane x i).toNat + (lane y i).toNat + 1) ≤ 2 ^ (w * i) * 2 ^ w :=
      Nat.mul_le_mul_left _ hlane
    rw [Nat.mul_add, Nat.mul_add] at hmul
    rw [low_succ x i, low_succ y i, hpow]
    omega

theorem lane_add (hi : i < n) (h : ∀ j < n, (lane x j).toNat + (lane y j).toNat < 2 ^ w) :
    lane (x + y) i = lane x i + lane y i := by
  have hlow := low_add_lt (x := x) (y := y) fun j hj => h j (Nat.lt_trans hj hi)
  apply BitVec.eq_of_toNat_eq
  have hadd : x + y = BitVec.ofNat (w * n) (x.toNat + y.toNat) := by
    apply BitVec.eq_of_toNat_eq
    simp
  rw [hadd, toNat_lane_ofNat hi, BitVec.toNat_add, toNat_lane, toNat_lane, ← Nat.add_mod,
    Nat.add_div (Nat.two_pow_pos _), if_neg (Nat.not_le.mpr hlow), Nat.add_zero]

theorem lane_not (hi : i < n) : lane (~~~x) i = ~~~lane x i := by
  have hle := mul_add_le (w := w) hi
  apply BitVec.eq_of_getLsbD_eq
  intro j hj
  simp [lane, hj, show w * i + j < w * n by omega]

theorem lane_and : lane (x &&& y) i = lane x i &&& lane y i := BitVec.extractLsb'_and

/-- Subtraction is addition to the complement. -/
theorem sub_eq_not (x y : BitVec w) : x - y = ~~~(~~~x + y) := by
  rw [BitVec.not_add_eq_not_neg, BitVec.not_not]

theorem lane_sub (hi : i < n) (h : ∀ j < n, (lane y j).toNat ≤ (lane x j).toNat) :
    lane (x - y) i = lane x i - lane y i := by
  have hfit : ∀ j < n, (lane (~~~x) j).toNat + (lane y j).toNat < 2 ^ w := by
    intro j hj
    have hlt := (lane x j).isLt
    have hle := h j hj
    rw [lane_not hj, BitVec.toNat_not]
    omega
  rw [sub_eq_not, lane_not hi, lane_add hi hfit, lane_not hi, ← sub_eq_not]

/-- A shift moves the low bits of a lane into the high bits of the one below, where `y` has none. -/
theorem lane_shiftAnd {s : ℕ} (hi : i < n) (h : (lane y i).toNat < 2 ^ (w - s)) :
    lane ((x >>> s) &&& y) i = (lane x i >>> s) &&& lane y i := by
  have hle := mul_add_le (w := w) hi
  apply BitVec.eq_of_getLsbD_eq
  intro j hj
  by_cases hjs : s + j < w
  · simp [lane, hj, hjs, Nat.add_left_comm]
  · have hy : (lane y i).getLsbD j = false :=
      Nat.testBit_lt_two_pow (Nat.lt_of_lt_of_le h (Nat.pow_le_pow_right (by decide) (by omega)))
    rw [lane_and, BitVec.getLsbD_and, BitVec.getLsbD_and, hy, Bool.and_false, Bool.and_false]

/-! ## All lanes -/

@[simp] theorem length_lanes (x : BitVec (w * n)) : (lanes x).length = n := by
  simp [lanes]

theorem value_div (l : List (BitVec w)) (i : ℕ) : value l / 2 ^ (w * i) = value (l.drop i) := by
  induction i generalizing l with
  | zero => simp
  | succ i ih =>
    cases l with
    | nil => simp [value]
    | cons a l =>
      have htail : value (a :: l) / 2 ^ w = value l := by
        change (a.toNat + 2 ^ w * value l) / 2 ^ w = value l
        rw [Nat.add_mul_div_left _ _ (Nat.two_pow_pos w), Nat.div_eq_of_lt a.isLt, Nat.zero_add]
      rw [Nat.mul_succ, Nat.add_comm, pow_add, ← Nat.div_div_eq_div_mul, htail, ih,
        List.drop_succ_cons]

theorem lanes_pack {l : List (BitVec w)} (h : l.length = n) :
    lanes (pack l : BitVec (w * n)) = l := by
  apply List.ext_getElem (by simp [h])
  intro i hi hil
  have hin : i < n := h ▸ hil
  apply BitVec.eq_of_toNat_eq
  simp only [lanes, List.getElem_map, List.getElem_range]
  rw [pack, toNat_lane_ofNat hin, value_div, List.drop_eq_getElem_cons hil]
  change (l[i].toNat + 2 ^ w * value (l.drop (i + 1))) % 2 ^ w = l[i].toNat
  rw [Nat.add_mul_mod_self_left, Nat.mod_eq_of_lt l[i].isLt]

/-! ## Computations in all lanes -/

namespace Lanewise

variable {F G : BitVec (w * n) → BitVec (w * n)} {f g : BitVec w → BitVec w}

theorem id : Lanewise (w := w) (n := n) (fun x => x) fun a => a := fun _ _ _ => rfl

theorem splat {c : BitVec (w * n)} {a : BitVec w} (hc : Splat c a) :
    Lanewise (fun _ => c) fun _ => a := fun _ i hi => hc i hi

theorem and (hF : Lanewise F f) (hG : Lanewise G g) :
    Lanewise (fun x => F x &&& G x) fun a => f a &&& g a := by
  intro x i hi
  rw [lane_and, hF x i hi, hG x i hi]

theorem not (hF : Lanewise F f) : Lanewise (fun x => ~~~F x) fun a => ~~~f a := by
  intro x i hi
  rw [lane_not hi, hF x i hi]

theorem add (hF : Lanewise F f) (hG : Lanewise G g)
    (h : ∀ a, (f a).toNat + (g a).toNat < 2 ^ w) :
    Lanewise (fun x => F x + G x) fun a => f a + g a := by
  intro x i hi
  have hfit : ∀ j < n, (lane (F x) j).toNat + (lane (G x) j).toNat < 2 ^ w := by
    intro j hj
    rw [hF x j hj, hG x j hj]
    exact h (lane x j)
  rw [lane_add hi hfit, hF x i hi, hG x i hi]

theorem sub (hF : Lanewise F f) (hG : Lanewise G g) (h : ∀ a, (g a).toNat ≤ (f a).toNat) :
    Lanewise (fun x => F x - G x) fun a => f a - g a := by
  intro x i hi
  have hle : ∀ j < n, (lane (G x) j).toNat ≤ (lane (F x) j).toNat := by
    intro j hj
    rw [hF x j hj, hG x j hj]
    exact h (lane x j)
  rw [lane_sub hi hle, hF x i hi, hG x i hi]

theorem shiftAnd {s : ℕ} (hF : Lanewise F f) (hG : Lanewise G g)
    (h : ∀ a, (g a).toNat < 2 ^ (w - s)) :
    Lanewise (fun x => (F x >>> s) &&& G x) fun a => (f a >>> s) &&& g a := by
  intro x i hi
  rw [lane_shiftAnd hi (hG x i hi ▸ h (lane x i)), hF x i hi, hG x i hi]

end Lanewise

end Lanes
