import Mathlib.Data.List.Nodup
import Mathlib.Logic.Function.Basic
import Mathlib.Tactic.Common

/-!
# Linked cells

A store maps addresses to cells, and a cell has a link to the next address or to none. A segment
is the list of cells met on the way from one pointer to another.

## Main definitions

* `Segment link mem p cs q`: from `p` the links lead through the cells `cs` to `q`

## Main results

* `segment_append`: a segment splits at every cell
* `Segment.update_of_not_mem`: a write elsewhere keeps a segment
* `Segment.relink`: a write to the last cell turns the segment to a new end
* `Segment.splice`: a write to a cell takes the one behind it out of the segment
* `Segment.unique`: at most one segment leads to the end
* `Segment.exists_append`: a segment to the end goes on behind every other one
* `getLast?_remove`: a pointer to the last address, behind a removal
* `segment_range`: cells that link in the order of their numbers
* `not_segment_of_closed`: no segment leads out of cells that are closed under the links
-/

namespace Chain

variable {ι κ : Type} (link : κ → Option ι) (mem mem' : ι → Option κ)

/-- From the pointer `p` the links of the store lead through the cells `cs` to `q`. -/
def Segment : Option ι → List (ι × κ) → Option ι → Prop
  | p, [], q => p = q
  | p, (a, c) :: cs, q => p = some a ∧ mem a = some c ∧ Segment (link c) cs q

variable {link mem mem'} {p q r : Option ι} {cs ds : List (ι × κ)} {a : ι} {c : κ}

@[simp] theorem segment_nil : Segment link mem p [] q ↔ p = q := Iff.rfl

@[simp] theorem segment_cons :
    Segment link mem p ((a, c) :: cs) q ↔
      p = some a ∧ mem a = some c ∧ Segment link mem (link c) cs q := Iff.rfl

theorem segment_append :
    Segment link mem p (cs ++ ds) q ↔
      ∃ r, Segment link mem p cs r ∧ Segment link mem r ds q := by
  induction cs generalizing p with
  | nil => simp
  | cons x cs ih =>
    obtain ⟨a, c⟩ := x
    rw [List.cons_append, segment_cons, ih]
    constructor
    · rintro ⟨hp, hm, r, hcs, hds⟩
      exact ⟨r, ⟨hp, hm, hcs⟩, hds⟩
    · rintro ⟨r, ⟨hp, hm, hcs⟩, hds⟩
      exact ⟨hp, hm, r, hcs, hds⟩

/-- A segment depends only on its own cells. -/
theorem Segment.congr (h : Segment link mem p cs q) (he : ∀ x ∈ cs, mem' x.1 = mem x.1) :
    Segment link mem' p cs q := by
  induction cs generalizing p with
  | nil => exact h
  | cons x cs ih =>
    obtain ⟨a, c⟩ := x
    obtain ⟨hp, hm, hcs⟩ := h
    refine ⟨hp, ?_, ih hcs fun y hy => he y (List.mem_cons_of_mem _ hy)⟩
    rw [he (a, c) (by simp)]
    exact hm

theorem Segment.update_of_not_mem [DecidableEq ι] (h : Segment link mem p cs q)
    (ha : a ∉ cs.map Prod.fst) (x : Option κ) :
    Segment link (Function.update mem a x) p cs q := by
  refine h.congr fun y hy => ?_
  rw [Function.update_of_ne]
  rintro rfl
  exact ha (List.mem_map_of_mem hy)

/-- Segments through the same cells to the same end start at the same pointer. -/
theorem Segment.start_eq {p' : Option ι} (h : Segment link mem p cs q)
    (h' : Segment link mem' p' cs q) : p = p' := by
  cases cs with
  | nil => exact h.trans h'.symm
  | cons x cs => exact h.1.trans h'.1.symm

/-- A segment to the end starts at its first cell. -/
theorem Segment.start_head (h : Segment link mem p cs none) : p = (cs.map Prod.fst).head? := by
  cases cs with
  | nil => exact h
  | cons x cs => exact h.1

/-- A pointer to the last address, behind the removal of one: it moves back exactly when the removed
one was the last. -/
theorem getLast?_remove [DecidableEq ι] {l r : List ι} (ha : a ∉ r) :
    (if some a = (l ++ a :: r).getLast? ∨ r.head? = none then l.getLast?
      else (l ++ a :: r).getLast?) = (l ++ r).getLast? := by
  cases r with
  | nil => simp
  | cons b r =>
    have hlast : (l ++ a :: b :: r).getLast? = (b :: r).getLast? := by
      rw [List.getLast?_append_of_ne_nil _ (by simp), List.getLast?_cons_cons]
    have hne : some a ≠ (b :: r).getLast? := fun h => ha (List.mem_of_getLast? h.symm)
    rw [hlast, if_neg (by simp [hne]), List.getLast?_append_of_ne_nil _ (by simp)]

/-- The last cell of a segment is rewritten, and the segment leads where the new link points. -/
theorem Segment.relink [DecidableEq ι] (h : Segment link mem p (cs ++ [(a, c)]) q)
    (ha : a ∉ cs.map Prod.fst) (d : κ) :
    Segment link (Function.update mem a (some d)) p (cs ++ [(a, d)]) (link d) := by
  obtain ⟨r, hcs, hr, -, -⟩ := segment_append.mp h
  refine segment_append.mpr ⟨r, hcs.update_of_not_mem ha _, hr, ?_, rfl⟩
  rw [Function.update_self]

/-- A cell is rewritten so that it leads past the cell behind it. -/
theorem Segment.splice [DecidableEq ι] {b : ι} {d d' : κ}
    (h : Segment link mem p (cs ++ (b, d) :: (a, c) :: ds) q) (hcs : b ∉ cs.map Prod.fst)
    (hds : b ∉ ds.map Prod.fst) (hd : link d' = link c) :
    Segment link (Function.update mem b (some d')) p (cs ++ (b, d') :: ds) q := by
  obtain ⟨r, hleft, hr, -, -, -, hright⟩ := segment_append.mp h
  refine segment_append.mpr ⟨r, hleft.update_of_not_mem hcs _, hr, ?_, ?_⟩
  · rw [Function.update_self]
  · rw [hd]
    exact hright.update_of_not_mem hds _

/-- The cells of a segment stand in the store. -/
theorem Segment.get (h : Segment link mem p cs q) {x : ι × κ} (hx : x ∈ cs) :
    mem x.1 = some x.2 := by
  induction cs generalizing p with
  | nil => cases hx
  | cons y cs ih =>
    obtain ⟨a, c⟩ := y
    obtain ⟨-, hm, hcs⟩ := h
    rcases List.mem_cons.mp hx with rfl | hx
    · exact hm
    · exact ih hcs hx

/-- Every cell of a segment links to another of its cells, or to where the segment leads. -/
theorem Segment.link_mem (h : Segment link mem p cs q) {x : ι × κ} (hx : x ∈ cs) :
    link x.2 = q ∨ ∃ b ∈ cs.map Prod.fst, link x.2 = some b := by
  induction cs generalizing p with
  | nil => cases hx
  | cons y cs ih =>
    obtain ⟨a, c⟩ := y
    obtain ⟨-, -, hcs⟩ := h
    rcases List.mem_cons.mp hx with rfl | hx
    · cases cs with
      | nil => exact Or.inl hcs
      | cons z cs =>
        obtain ⟨b, d⟩ := z
        exact Or.inr ⟨b, by simp, hcs.1⟩
    · rcases ih hcs hx with hq | ⟨b, hb, hl⟩
      · exact Or.inl hq
      · exact Or.inr ⟨b, by simp [hb], hl⟩

/-- At most one segment leads to the end. -/
theorem Segment.unique (h : Segment link mem p cs none) (h' : Segment link mem p ds none) :
    cs = ds := by
  induction cs generalizing p ds with
  | nil =>
    cases ds with
    | nil => rfl
    | cons y ds =>
      obtain ⟨b, d⟩ := y
      obtain rfl : p = none := h
      cases h'.1
  | cons x cs ih =>
    obtain ⟨a, c⟩ := x
    obtain ⟨rfl, hm, hcs⟩ := h
    cases ds with
    | nil => cases h'
    | cons y ds =>
      obtain ⟨b, d⟩ := y
      obtain ⟨hb, hm', hds⟩ := h'
      obtain rfl : a = b := Option.some.inj hb
      obtain rfl : c = d := Option.some.inj (hm.symm.trans hm')
      rw [ih hcs hds]

/-- A segment to the end goes on behind every other one from the same pointer. -/
theorem Segment.exists_append (h : Segment link mem p cs q) (h' : Segment link mem p ds none) :
    ∃ es, ds = cs ++ es ∧ Segment link mem q es none := by
  induction cs generalizing p ds with
  | nil =>
    obtain rfl : p = q := h
    exact ⟨ds, rfl, h'⟩
  | cons x cs ih =>
    obtain ⟨a, c⟩ := x
    obtain ⟨rfl, hm, hcs⟩ := h
    cases ds with
    | nil => cases h'
    | cons y ds =>
      obtain ⟨b, d⟩ := y
      obtain ⟨hb, hm', hds⟩ := h'
      obtain rfl : a = b := Option.some.inj hb
      obtain rfl : c = d := Option.some.inj (hm.symm.trans hm')
      obtain ⟨es, rfl, hes⟩ := ih hcs hds
      exact ⟨es, rfl, hes⟩

/-- The cells from the number `k` on, each of which links to the next one. -/
theorem segment_range' {f : ℕ → ι} {cells : ι → κ} {n : ℕ}
    (h : ∀ i < n, link (cells (f i)) = if i + 1 < n then some (f (i + 1)) else none) (k m : ℕ)
    (hkm : k + m = n) :
    Segment link (fun a => some (cells a)) (if k < n then some (f k) else none)
      ((List.range' k m).map fun i => (f i, cells (f i))) none := by
  induction m generalizing k with
  | zero =>
    rw [if_neg (by omega)]
    rfl
  | succ m ih =>
    rw [if_pos (by omega), List.range'_succ, List.map_cons]
    refine ⟨rfl, rfl, ?_⟩
    rw [h k (by omega)]
    exact ih (k + 1) (by omega)

theorem segment_range {f : ℕ → ι} {cells : ι → κ} {n : ℕ}
    (h : ∀ i < n, link (cells (f i)) = if i + 1 < n then some (f (i + 1)) else none) :
    Segment link (fun a => some (cells a)) (if 0 < n then some (f 0) else none)
      ((List.range n).map fun i => (f i, cells (f i))) none := by
  rw [List.range_eq_range']
  exact segment_range' h 0 n (Nat.zero_add n)

/-- From a set of cells that link only to each other no segment leads to the end. -/
theorem not_segment_of_closed {S : List ι}
    (hS : ∀ a ∈ S, ∀ c, mem a = some c → ∃ b ∈ S, link c = some b) (ha : a ∈ S) :
    ¬ Segment link mem (some a) cs none := by
  induction cs generalizing a with
  | nil => rintro ⟨⟩
  | cons x cs ih =>
    obtain ⟨a', c⟩ := x
    rintro ⟨haa, hm, hcs⟩
    obtain rfl : a = a' := Option.some.inj haa
    obtain ⟨b, hb, hl⟩ := hS a ha c hm
    rw [hl] at hcs
    exact ih hb hcs

end Chain
