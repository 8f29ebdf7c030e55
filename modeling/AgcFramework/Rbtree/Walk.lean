import Mathlib.Data.Nat.Log
import AgcFramework.Rbtree.Store

/-!
# Walking in order

`agc_rbtree_next` gives the node behind another one: the leftmost node of its right subtree, or,
without one, the first node above whose left subtree it is in. From the node of `agc_rbtree_min` on
it walks over the whole tree, and each step is as long as the tree is high at most.

## Main definitions

* `agcRbtreeNext`: the node behind another one
* `Rbtree.Walks t fuel L`: the walk over the tree gives the nodes of `L`

## Main results

* `RedBlack.ColorTree.Balanced.height_le_log`: a red-black tree of `n` nodes has a height of
  `2 * log₂ (n + 1)` at most
* `Rbtree.agcRbtreeNext_eq`: the node behind another one in the tree's sequence
* `Rbtree.walk_after_run`: the walk after any run of the timer store
-/

open RedBlack Exec

/-- The climb of `agc_rbtree_next`. -/
def nextLoop (t : Rbtree) : ℕ → Ptr → Exec Ptr
  | 0, _ => .error .fuel
  | n + 1, node => do
    let parent ← t.getParent node
    if node = t.root then pure 0 else do
      let l ← t.getChild .left parent
      if node = l then pure parent else nextLoop t n parent

/-- `agc_rbtree_next`. -/
def agcRbtreeNext (t : Rbtree) (fuel : ℕ) (node : Ptr) : Exec Ptr := do
  let r ← t.getChild .right node
  if r ≠ t.sentinel then agcRbtreeMin t fuel r else nextLoop t fuel node

open RedBlack.ColorTree

/-! ## Height -/

namespace RedBlack.ColorTree

variable {α : Type} {t : ColorTree α} {c : Color} {n : ℕ}

/-- At most every other node of a path is red. -/
theorem Balanced.height_le (h : Balanced t c n) :
    t.height ≤ 2 * n + if c = .red then 1 else 0 := by
  induction h with
  | leaf => exact Nat.le_refl 0
  | red _ _ ihl ihr =>
    simp only [reduceCtorEq, if_false, if_true, height] at ihl ihr ⊢
    omega
  | black _ _ ihl ihr =>
    simp only [reduceCtorEq, if_false, height]
    split_ifs at ihl ihr
    all_goals omega

/-- A tree has the nodes of a full tree of its black height at least. -/
theorem Balanced.pow_le (h : Balanced t c n) : 2 ^ n ≤ t.inorder.length + 1 := by
  induction h with
  | leaf => exact Nat.le_refl 1
  | red _ _ ihl ihr =>
    rw [inorder, List.length_append, List.length_cons]
    omega
  | black _ _ ihl ihr =>
    rw [inorder, List.length_append, List.length_cons, pow_succ]
    omega

theorem Balanced.height_le_log (h : Balanced t .black n) :
    t.height ≤ 2 * Nat.log 2 (t.inorder.length + 1) := by
  have hheight := h.height_le
  have hlog : n ≤ Nat.log 2 (t.inorder.length + 1) := Nat.le_log_of_pow_le (by decide) h.pow_le
  simp only [reduceCtorEq, if_false] at hheight
  omega

end RedBlack.ColorTree

namespace Rbtree

theorem length_add_height_le (π : Path Ptr) (t : ColorTree Ptr) :
    π.length + t.height ≤ (fill π t).height := by
  induction π generalizing t with
  | nil => simp
  | cons f π ih =>
    have hlt := height_lt_bin f.dir f.color t f.item f.sibling
    have hle := ih (bin f.dir f.color t f.item f.sibling)
    rw [fill_cons, List.length_cons]
    omega

/-! ## The next node -/

variable {t : Rbtree} {π : Path Ptr} {u : ColorTree Ptr}

/-- The climb ends at the first node to the right of the subtree. -/
theorem nextLoop_eq (hs : t.Shape (fill π u)) (hu : u ≠ leaf) {fuel : ℕ} (hf : π.length < fuel) :
    nextLoop t fuel (u.ptr t.sentinel) = .ok ((after π).head?.getD 0) := by
  induction π generalizing u fuel with
  | nil =>
    obtain ⟨k, rfl⟩ : ∃ k, fuel = k + 1 := ⟨fuel - 1, by omega⟩
    have hroot : u.ptr t.sentinel = t.root := hs.root_eq.symm
    rw [nextLoop, getParent_eq t (Shape.ptr_ne (π := []) hs), ok_bind, if_pos hroot]
    rfl
  | cons f π ih =>
    obtain ⟨k, rfl⟩ : ∃ k, fuel = k + 1 := ⟨fuel - 1, by omega⟩
    have hsib := hs.ptr_ne_sibling (Or.inl hu)
    obtain ⟨rp, ⟨f0, -, -, -, f4, f5, -, -⟩, hhangs⟩ := hs.split
    have hparent : t.parent (u.ptr t.sentinel) = f.item := by
      cases u with
      | leaf => exact absurd rfl hu
      | node c l a r => exact hhangs.2.2.2.1
    rw [nextLoop, getParent_eq t hs.ptr_ne, ok_bind, if_neg hs.root_ne, hparent,
      getChild_eq t _ f0, ok_bind]
    obtain ⟨d, c, a, v⟩ := f
    cases d with
    | left =>
      rw [if_pos f4.symm]
      rfl
    | right =>
      have hright : t.child .left a = v.ptr t.sentinel := f5
      rw [if_neg (by rw [hright]; exact hsib)]
      rw [List.length_cons] at hf
      exact ih (u := bin .right c u a v) hs (bin_ne_leaf _ _ _ _ _) (by omega)

/-- **The next node** is the one behind in the tree's sequence, and null behind the last one. -/
theorem agcRbtreeNext_eq {c : Color} {l r : ColorTree Ptr} {a : Ptr}
    (hs : t.Shape (fill π (.node c l a r))) {fuel : ℕ}
    (hf : (fill π (.node c l a r)).height ≤ fuel) :
    agcRbtreeNext t fuel a = .ok ((r.inorder ++ after π).head?.getD 0) := by
  have hheight := length_add_height_le π (.node c l a r)
  rw [height] at hheight
  obtain ⟨rp, -, a0, -, -, -, -, a5, -, a7⟩ := hs.split
  rw [agcRbtreeNext, getChild_eq t _ a0, ok_bind, a5]
  by_cases hr : r = leaf
  · subst hr
    rw [ptr_leaf, if_neg (not_not.mpr rfl)]
    exact nextLoop_eq hs (by rintro ⟨⟩) (by omega)
  · rw [if_pos (a7.ne _ (ptr_mem hr)).2]
    -- the right subtree, with the node as its frame
    have hs' : t.Shape (fill (⟨.right, c, a, l⟩ :: π) r) := hs
    obtain ⟨ρ, c', y, v, hfill, hleft, hrun⟩ := agcRbtreeMin_spec hs' hr
    rw [hrun fuel (by omega), hfill, inorder_fill, before_eq_nil hleft]
    rfl

/-! ## The walk -/

/-- With `fuel` for each step, the walk over the tree gives the nodes of `L` in turn, and then the
null pointer. -/
structure Walks (t : Rbtree) (fuel : ℕ) (L : List Ptr) : Prop where
  first : ∀ a post, L = a :: post → agcRbtreeMin t fuel t.root = .ok a
  next : ∀ pre a post, L = pre ++ a :: post → agcRbtreeNext t fuel a = .ok (post.head?.getD 0)

theorem Shape.walks {T : ColorTree Ptr} (hs : t.Shape T) {fuel : ℕ} (hf : T.height ≤ fuel) :
    t.Walks fuel T.inorder := by
  constructor
  · intro a post hL
    have hT : T ≠ leaf := by
      rintro rfl
      cases hL
    obtain ⟨ρ, c, y, v, rfl, hleft, hrun⟩ := agcRbtreeMin_spec (π := []) hs hT
    rw [inorder_fill, before_eq_nil hleft] at hL
    obtain ⟨rfl, -⟩ := List.cons.inj hL
    rw [hs.root_eq]
    exact hrun fuel hf
  · intro pre a post hL
    have hnodup := hs.nodup
    obtain ⟨π, c, l, r, rfl⟩ : ∃ π c l r, T = fill π (.node c l a r) := by
      apply exists_path
      rw [hL]
      exact List.mem_append_right _ List.mem_cons_self
    have hinorder : (fill π (.node c l a r)).inorder =
        (before π ++ l.inorder) ++ a :: (r.inorder ++ after π) := by
      simp [inorder_fill, inorder]
    rw [hL] at hnodup
    have ha := (List.nodup_middle.mp hnodup).notMem
    rw [List.mem_append, not_or] at ha
    rw [hL, List.append_cons_inj_of_notMem ha.1 ha.2] at hinorder
    rw [agcRbtreeNext_eq hs hf, hinorder.2.2]

/-- **The walk after a run.** After every legal run of the timer store the walk gives each node that
was inserted and not removed once, in the order of the keys; and each step makes
`2 * log₂ (n + 1) + 1` rounds at most, for `n` nodes. -/
theorem walk_after_run (t₀ : Rbtree) {s : Ptr} (hs : s ≠ 0) {ops : List StoreOp}
    (hl : LegalRun s (fun _ => none) ops) :
    ∃ t L, Returns (fun fuel => Rbtree.storeRun fuel (agcRbtreeInit t₀ s) ops) t ∧
      L.Nodup ∧ (∀ a, a ∈ L ↔ ops.foldl StoreOp.apply (fun _ => none) a ≠ none) ∧
      (∀ a k, ops.foldl StoreOp.apply (fun _ => none) a = some k → t.key a = k) ∧
      (L.Pairwise fun a b => 0 ≤ (t.key b - t.key a).toInt) ∧
      ∀ fuel, 2 * Nat.log 2 (L.length + 1) < fuel → t.Walks fuel L := by
  obtain ⟨t, T, hrun, h, ho⟩ := (holds_init t₀ hs).storeRun List.Pairwise.nil hl
  obtain ⟨n, hbalanced⟩ := h.balanced
  refine ⟨t, T.inorder, hrun, h.shape.nodup, h.nodes, h.keys, ho, fun fuel hf => ?_⟩
  have hheight := hbalanced.height_le_log
  exact h.shape.walks (by omega)

/-- Two nodes, of which the second one is walked over first. -/
theorem walk_after_run_two :
    ∃ t L, Returns (fun fuel => Rbtree.storeRun fuel (agcRbtreeInit blank 1)
        [.insert 2 5, .insert 3 (-7)]) t ∧
      L.Nodup ∧ (∀ a, a ∈ L ↔ [StoreOp.insert 2 5, .insert 3 (-7)].foldl StoreOp.apply
        (fun _ => none) a ≠ none) ∧
      (∀ a k, [StoreOp.insert 2 5, .insert 3 (-7)].foldl StoreOp.apply (fun _ => none) a =
        some k → t.key a = k) ∧
      (L.Pairwise fun a b => 0 ≤ (t.key b - t.key a).toInt) ∧
      ∀ fuel, 2 * Nat.log 2 (L.length + 1) < fuel → t.Walks fuel L := by
  have h₀ : ∀ k ∈ Pending.keys (fun _ => none), Circular.offset (-7) k < 20 := by
    rintro k ⟨a, ha⟩
    cases ha
  have h₁ := StoreOp.keys_apply (.insert 2 5) h₀ (by rintro a k ⟨⟩; decide)
  have h₂ := StoreOp.keys_apply (.insert 3 (-7)) h₁ (by rintro a k ⟨⟩; decide)
  refine walk_after_run blank (by decide) ?_
  refine .cons ⟨by decide, by decide, rfl⟩ ⟨-7, 20, by decide, h₁⟩ ?_
  exact .cons ⟨by decide, by decide, rfl⟩ ⟨-7, 20, by decide, h₂⟩ .nil

end Rbtree
