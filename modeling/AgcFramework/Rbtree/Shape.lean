import AgcFramework.Rbtree.Model

/-!
# The tree a memory holds

`Shape h T` says that the links of the memory `h` are those of the tree `T` of node addresses:
the root pointer, both child pointers, the colour, and the parent pointer of every node below the
root. The parent pointer of the root is not constrained, as `agc_rbtree_delete` leaves a stale one
there. At a path the shape splits into the links of the frames and those of the focus.

## Main definitions

* `Rbtree.Hangs h t p`: the links of the subtree `t`, under the parent `p`
* `Rbtree.Spans h rp π q`: the links of the frames of `π`, around the pointer `q`
* `Rbtree.Shape h T`: the links of the whole tree

## Main results

* `Rbtree.hangs_fill`: the links of a filled path are those of the path and of the subtree
* `Rbtree.Shape.setColor`: painting a node paints the tree
* `Rbtree.redirect_eq`, `Rbtree.rotate_spec`: redirection and rotation on the shape
-/

open RedBlack RedBlack.ColorTree Exec

/-- The pointer to a subtree: a leaf is the sentinel `s`. -/
def RedBlack.ColorTree.ptr (s : Ptr) : ColorTree Ptr → Ptr
  | leaf => s
  | node _ _ a _ => a

@[simp] theorem RedBlack.ColorTree.ptr_leaf (s : Ptr) : (leaf : ColorTree Ptr).ptr s = s := rfl

@[simp] theorem RedBlack.ColorTree.ptr_bin (s : Ptr) (d : Dir) (c : Color) (t : ColorTree Ptr)
    (a : Ptr) (u : ColorTree Ptr) : (bin d c t a u).ptr s = a := by cases d <;> rfl

@[simp] theorem RedBlack.ColorTree.ptr_paint (s : Ptr) (c : Color) (t : ColorTree Ptr) :
    (paint c t).ptr s = t.ptr s := by cases t <;> rfl

theorem RedBlack.ColorTree.ptr_mem {s : Ptr} {t : ColorTree Ptr} (h : t ≠ leaf) :
    t.ptr s ∈ t.inorder := by
  cases t with
  | leaf => exact absurd rfl h
  | node c l a r => simp [RedBlack.ColorTree.ptr, inorder]

namespace Rbtree

/-! ## Field updates -/

section Fields

variable (h : Rbtree) (d e : Dir) (p q a : Ptr) (c : Color) (k : Key)

/-- The memory after `p->left = q` or `p->right = q`. -/
def putChild : Rbtree :=
  { h with child := Function.update h.child d (Function.update (h.child d) p q) }

/-- The memory after `p->parent = q`. -/
def putParent : Rbtree := { h with parent := Function.update h.parent p q }

/-- The memory after `p->color = c`. -/
def putColor : Rbtree := { h with color := Function.update h.color p c }

/-- The memory after `p->key = k`. -/
def putKey : Rbtree := { h with key := Function.update h.key p k }

/-- The memory after `*root = q`. -/
def putRoot : Rbtree := { h with root := q }

variable {p}

theorem getChild_eq (hp : p ≠ 0) : h.getChild d p = .ok (h.child d p) := if_neg hp

theorem getParent_eq (hp : p ≠ 0) : h.getParent p = .ok (h.parent p) := if_neg hp

theorem getKey_eq (hp : p ≠ 0) : h.getKey p = .ok (h.key p) := if_neg hp

theorem getColor_eq (hp : p ≠ 0) : h.getColor p = .ok (h.color p) := if_neg hp

theorem setChild_eq (hp : p ≠ 0) : h.setChild d p q = .ok (h.putChild d p q) := if_neg hp

theorem setParent_eq (hp : p ≠ 0) : h.setParent p q = .ok (h.putParent p q) := if_neg hp

theorem setColor_eq (hp : p ≠ 0) : h.setColor p c = .ok (h.putColor p c) := if_neg hp

theorem setKey_eq (hp : p ≠ 0) : h.setKey p k = .ok (h.putKey p k) := if_neg hp

variable (p)

@[simp] theorem putChild_root : (h.putChild d p q).root = h.root := rfl
@[simp] theorem putChild_sentinel : (h.putChild d p q).sentinel = h.sentinel := rfl
@[simp] theorem putChild_key : (h.putChild d p q).key = h.key := rfl
@[simp] theorem putChild_parent : (h.putChild d p q).parent = h.parent := rfl
@[simp] theorem putChild_color : (h.putChild d p q).color = h.color := rfl
@[simp] theorem putChild_child :
    (h.putChild d p q).child e a = if e = d ∧ a = p then q else h.child e a := by
  by_cases he : e = d
  · subst he
    by_cases ha : a = p <;> simp [putChild, ha]
  · simp [putChild, he]

@[simp] theorem putParent_root : (h.putParent p q).root = h.root := rfl
@[simp] theorem putParent_sentinel : (h.putParent p q).sentinel = h.sentinel := rfl
@[simp] theorem putParent_key : (h.putParent p q).key = h.key := rfl
@[simp] theorem putParent_child : (h.putParent p q).child = h.child := rfl
@[simp] theorem putParent_color : (h.putParent p q).color = h.color := rfl
@[simp] theorem putParent_parent :
    (h.putParent p q).parent a = if a = p then q else h.parent a := by
  simp [putParent, Function.update_apply]

@[simp] theorem putColor_root : (h.putColor p c).root = h.root := rfl
@[simp] theorem putColor_sentinel : (h.putColor p c).sentinel = h.sentinel := rfl
@[simp] theorem putColor_key : (h.putColor p c).key = h.key := rfl
@[simp] theorem putColor_child : (h.putColor p c).child = h.child := rfl
@[simp] theorem putColor_parent : (h.putColor p c).parent = h.parent := rfl
@[simp] theorem putColor_color :
    (h.putColor p c).color a = if a = p then c else h.color a := by
  simp [putColor, Function.update_apply]

@[simp] theorem putKey_root : (h.putKey p k).root = h.root := rfl
@[simp] theorem putKey_sentinel : (h.putKey p k).sentinel = h.sentinel := rfl
@[simp] theorem putKey_child : (h.putKey p k).child = h.child := rfl
@[simp] theorem putKey_parent : (h.putKey p k).parent = h.parent := rfl
@[simp] theorem putKey_color : (h.putKey p k).color = h.color := rfl
@[simp] theorem putKey_key : (h.putKey p k).key a = if a = p then k else h.key a := by
  simp [putKey, Function.update_apply]

@[simp] theorem putRoot_root : (h.putRoot q).root = q := rfl
@[simp] theorem putRoot_sentinel : (h.putRoot q).sentinel = h.sentinel := rfl
@[simp] theorem putRoot_key : (h.putRoot q).key = h.key := rfl
@[simp] theorem putRoot_child : (h.putRoot q).child = h.child := rfl
@[simp] theorem putRoot_parent : (h.putRoot q).parent = h.parent := rfl
@[simp] theorem putRoot_color : (h.putRoot q).color = h.color := rfl

end Fields

/-! ## The links of a subtree -/

/-- The links of the subtree `t` in the memory `h`, under the parent `p`. -/
def Hangs (h : Rbtree) : ColorTree Ptr → Ptr → Prop
  | .leaf, _ => True
  | .node c l a r, p =>
    a ≠ 0 ∧ a ≠ h.sentinel ∧ h.color a = c ∧ h.parent a = p ∧
      h.child .left a = l.ptr h.sentinel ∧ h.child .right a = r.ptr h.sentinel ∧
      h.Hangs l a ∧ h.Hangs r a

@[simp] theorem hangs_leaf (h : Rbtree) (p : Ptr) : h.Hangs .leaf p := trivial

theorem hangs_bin {h : Rbtree} {d : Dir} {c : Color} {t u : ColorTree Ptr} {a p : Ptr} :
    h.Hangs (bin d c t a u) p ↔
      a ≠ 0 ∧ a ≠ h.sentinel ∧ h.color a = c ∧ h.parent a = p ∧
        h.child d a = t.ptr h.sentinel ∧ h.child d.flip a = u.ptr h.sentinel ∧
        h.Hangs t a ∧ h.Hangs u a := by
  cases d with
  | left => rfl
  | right =>
    simp only [bin, Hangs, Dir.flip]
    tauto

/-- The links of a subtree depend only on its own nodes, and its root's parent only on itself. -/
theorem Hangs.transfer {h h' : Rbtree} {t : ColorTree Ptr} {p p' : Ptr} (ht : h.Hangs t p)
    (hn : t.inorder.Nodup) (hs : h'.sentinel = h.sentinel)
    (hc : ∀ a ∈ t.inorder, h'.color a = h.color a)
    (hd : ∀ a ∈ t.inorder, ∀ d, h'.child d a = h.child d a)
    (hp : ∀ a ∈ t.inorder, a ≠ t.ptr h.sentinel → h'.parent a = h.parent a)
    (hr : t ≠ leaf → h'.parent (t.ptr h.sentinel) = p') : h'.Hangs t p' := by
  induction t generalizing p p' with
  | leaf => trivial
  | node c l a r ihl ihr =>
    obtain ⟨h0, h1, h2, h3, h4, h5, h6, h7⟩ := ht
    have hn' := (nodup_inorder_bin (d := .left) (c := c)).mp hn
    obtain ⟨hnl, hnr, hal, har, hlr⟩ := hn'
    have hal' : ∀ b ∈ l.inorder, b ≠ a := by rintro b hb rfl; exact hal hb
    have har' : ∀ b ∈ r.inorder, b ≠ a := by rintro b hb rfl; exact har hb
    simp only [inorder, List.mem_append, List.mem_cons] at hc hd hp
    -- below the root of a subtree the parent pointers are all unchanged
    have hpl : h'.Hangs l a := by
      refine ihl h6 hnl (fun b hb => hc b (Or.inl hb)) (fun b hb => hd b (Or.inl hb))
        (fun b hb _ => hp b (Or.inl hb) (hal' b hb)) (fun hne => ?_)
      have hm := ptr_mem (s := h.sentinel) hne
      rw [hp _ (Or.inl hm) (hal' _ hm)]
      cases l with
      | leaf => exact absurd rfl hne
      | node c' l' a' r' => exact h6.2.2.2.1
    have hpr : h'.Hangs r a := by
      refine ihr h7 hnr (fun b hb => hc b (Or.inr (Or.inr hb)))
        (fun b hb => hd b (Or.inr (Or.inr hb)))
        (fun b hb _ => hp b (Or.inr (Or.inr hb)) (har' b hb)) (fun hne => ?_)
      have hm := ptr_mem (s := h.sentinel) hne
      rw [hp _ (Or.inr (Or.inr hm)) (har' _ hm)]
      cases r with
      | leaf => exact absurd rfl hne
      | node c' l' a' r' => exact h7.2.2.2.1
    refine ⟨h0, by rw [hs]; exact h1, ?_, ?_, ?_, ?_, hpl, hpr⟩
    · rw [hc a (Or.inr (Or.inl rfl))]; exact h2
    · exact hr (by simp)
    · rw [hd a (Or.inr (Or.inl rfl)), hs]; exact h4
    · rw [hd a (Or.inr (Or.inl rfl)), hs]; exact h5

/-- A subtree none of whose nodes is touched keeps its links. -/
theorem Hangs.congr {h h' : Rbtree} {t : ColorTree Ptr} {p : Ptr} (ht : h.Hangs t p)
    (hs : h'.sentinel = h.sentinel) (hc : ∀ a ∈ t.inorder, h'.color a = h.color a)
    (hd : ∀ a ∈ t.inorder, ∀ d, h'.child d a = h.child d a)
    (hp : ∀ a ∈ t.inorder, h'.parent a = h.parent a) : h'.Hangs t p := by
  induction t generalizing p with
  | leaf => trivial
  | node c l a r ihl ihr =>
    obtain ⟨h0, h1, h2, h3, h4, h5, h6, h7⟩ := ht
    simp only [inorder, List.mem_append, List.mem_cons] at hc hd hp
    have ha : a ∈ l.inorder ∨ a = a ∨ a ∈ r.inorder := Or.inr (Or.inl rfl)
    refine ⟨h0, by rw [hs]; exact h1, ?_, ?_, ?_, ?_, ?_, ?_⟩
    · rw [hc a ha]; exact h2
    · rw [hp a ha]; exact h3
    · rw [hd a ha, hs]; exact h4
    · rw [hd a ha, hs]; exact h5
    · exact ihl h6 (fun b hb => hc b (Or.inl hb)) (fun b hb => hd b (Or.inl hb))
        (fun b hb => hp b (Or.inl hb))
    · exact ihr h7 (fun b hb => hc b (Or.inr (Or.inr hb))) (fun b hb => hd b (Or.inr (Or.inr hb)))
        (fun b hb => hp b (Or.inr (Or.inr hb)))

/-- The nodes of a subtree are neither null nor the sentinel. -/
theorem Hangs.ne {h : Rbtree} {t : ColorTree Ptr} {p : Ptr} (ht : h.Hangs t p) :
    ∀ a ∈ t.inorder, a ≠ 0 ∧ a ≠ h.sentinel := by
  induction t generalizing p with
  | leaf => simp
  | node c l a r ihl ihr =>
    obtain ⟨h0, h1, -, -, -, -, h6, h7⟩ := ht
    intro b hb
    simp only [inorder, List.mem_append, List.mem_cons] at hb
    rcases hb with hb | rfl | hb
    · exact ihl h6 b hb
    · exact ⟨h0, h1⟩
    · exact ihr h7 b hb

/-! ## The links of a path -/

/-- The node above the hole; `rp` above the whole tree. -/
def above (rp : Ptr) : Path Ptr → Ptr
  | [] => rp
  | f :: _ => f.item

@[simp] theorem above_nil (rp : Ptr) : above rp [] = rp := rfl

@[simp] theorem above_cons (rp : Ptr) (f : Frame Ptr) (π : Path Ptr) :
    above rp (f :: π) = f.item := rfl

/-- The links of the frames of `π` in the memory `h`, around the pointer `q`. -/
def Spans (h : Rbtree) (rp : Ptr) : Path Ptr → Ptr → Prop
  | [], _ => True
  | f :: π, q =>
    f.item ≠ 0 ∧ f.item ≠ h.sentinel ∧ h.color f.item = f.color ∧
      h.parent f.item = above rp π ∧ h.child f.dir f.item = q ∧
      h.child f.dir.flip f.item = f.sibling.ptr h.sentinel ∧ h.Hangs f.sibling f.item ∧
      h.Spans rp π f.item

theorem hangs_fill {h : Rbtree} {rp : Ptr} {π : Path Ptr} {t : ColorTree Ptr} :
    h.Hangs (fill π t) rp ↔ h.Spans rp π (t.ptr h.sentinel) ∧ h.Hangs t (above rp π) := by
  induction π generalizing t with
  | nil => simp [Spans]
  | cons f π ih =>
    rw [fill_cons, ih, hangs_bin]
    simp only [Spans, ptr_bin, above_cons]
    tauto

/-- A path keeps its links around a new pointer `q'` when only the innermost link changed. -/
theorem Spans.transfer {h h' : Rbtree} {rp q q' : Ptr} {π : Path Ptr} (hπ : h.Spans rp π q)
    (hn : (items π).Nodup) (hs : h'.sentinel = h.sentinel)
    (hc : ∀ a ∈ items π, h'.color a = h.color a)
    (hp : ∀ a ∈ items π, h'.parent a = h.parent a)
    (hd : ∀ a ∈ items π, ∀ d, (∀ f ρ, π = f :: ρ → ¬ (d = f.dir ∧ a = f.item)) →
      h'.child d a = h.child d a)
    (hq : ∀ f ρ, π = f :: ρ → h'.child f.dir f.item = q') : h'.Spans rp π q' := by
  induction π generalizing q q' with
  | nil => trivial
  | cons f π ih =>
    obtain ⟨h0, h1, h2, h3, h4, h5, h6, h7⟩ := hπ
    have hfi : f.item ∈ items (f :: π) := mem_items_cons.mpr (Or.inl rfl)
    have hsub : ∀ a ∈ items π, a ∈ items (f :: π) := fun a ha =>
      mem_items_cons.mpr (Or.inr (Or.inr ha))
    have hsib : ∀ a ∈ f.sibling.inorder, a ∈ items (f :: π) := fun a ha =>
      mem_items_cons.mpr (Or.inr (Or.inl ha))
    have hfill : (fill π (bin f.dir f.color leaf f.item f.sibling)).inorder.Nodup := by
      have := inorder_fill (f :: π) (leaf : ColorTree Ptr)
      rw [fill_cons] at this
      simpa [this, items] using hn
    obtain ⟨hnπ, hnb, hdis⟩ := nodup_inorder_fill.mp hfill
    obtain ⟨-, hnu, -, hfu, -⟩ := nodup_inorder_bin.mp hnb
    have hne : ∀ a ∈ items π, a ≠ f.item := by
      intro a ha he
      exact hdis a (mem_inorder_bin.mpr (Or.inr (Or.inl he))) ha
    have hnu' : ∀ a ∈ f.sibling.inorder, a ≠ f.item := by
      intro a ha he
      exact hfu (he ▸ ha)
    -- away from the innermost frame every child link is unchanged
    have hd' : ∀ a ∈ items (f :: π), a ≠ f.item → ∀ d, h'.child d a = h.child d a := by
      intro a ha hna d
      refine hd a ha d ?_
      rintro g ρ he ⟨-, rfl⟩
      obtain ⟨rfl, -⟩ := List.cons.inj he
      exact hna rfl
    refine ⟨h0, by rw [hs]; exact h1, ?_, ?_, hq f π rfl, ?_, ?_, ?_⟩
    · rw [hc _ hfi]; exact h2
    · rw [hp _ hfi]; exact h3
    · rw [hd _ hfi, hs]
      · exact h5
      · rintro g ρ he ⟨hg, -⟩
        obtain ⟨rfl, -⟩ := List.cons.inj he
        exact Dir.flip_ne _ hg
    · exact h6.congr hs (fun a ha => hc a (hsib a ha))
        (fun a ha d => hd' a (hsib a ha) (hnu' a ha) d) (fun a ha => hp a (hsib a ha))
    · refine ih h7 hnπ (fun a ha => hc a (hsub a ha)) (fun a ha => hp a (hsub a ha))
        (fun a ha d _ => hd' a (hsub a ha) (hne a ha) d) (fun g ρ he => ?_)
      subst he
      have hg : g.item ∈ items (g :: ρ) := mem_items_cons.mpr (Or.inl rfl)
      rw [hd' _ (hsub _ hg) (hne _ hg)]
      exact h7.2.2.2.2.1

/-- The root of a filled path does not depend on the filling below a frame. -/
theorem ptr_fill_cons (s : Ptr) (f : Frame Ptr) (π : Path Ptr) (t : ColorTree Ptr) :
    (fill (f :: π) t).ptr s ∈ items (f :: π) ∧
      ∀ t' : ColorTree Ptr, (fill (f :: π) t').ptr s = (fill (f :: π) t).ptr s := by
  induction π generalizing f t with
  | nil =>
    refine ⟨?_, fun t' => ?_⟩
    · rw [fill_cons, fill_nil, ptr_bin]
      exact mem_items_cons.mpr (Or.inl rfl)
    · simp [fill_cons]
  | cons g π ih =>
    rw [fill_cons]
    refine ⟨mem_items_cons.mpr (Or.inr (Or.inr (ih g _).1)), fun t' => ?_⟩
    rw [fill_cons]
    exact (ih g _).2 _

/-! ## The shape of a memory -/

/-- The links of the memory `h` are those of the tree `T`. -/
structure Shape (h : Rbtree) (T : ColorTree Ptr) : Prop where
  sentinel_ne : h.sentinel ≠ 0
  sentinel_black : h.color h.sentinel = .black
  root_eq : h.root = T.ptr h.sentinel
  nodup : T.inorder.Nodup
  hangs : ∃ rp, h.Hangs T rp

/-- A shape at a path. -/
theorem Shape.split {h : Rbtree} {π : Path Ptr} {t : ColorTree Ptr} (hs : h.Shape (fill π t)) :
    ∃ rp, h.Spans rp π (t.ptr h.sentinel) ∧ h.Hangs t (above rp π) := by
  obtain ⟨rp, hh⟩ := hs.hangs
  exact ⟨rp, hangs_fill.mp hh⟩

/-- The colour of a subtree is read through its pointer. -/
theorem Shape.color_ptr {h : Rbtree} {π : Path Ptr} {t : ColorTree Ptr} (hs : h.Shape (fill π t)) :
    h.color (t.ptr h.sentinel) = t.color := by
  obtain ⟨rp, -, ht⟩ := hs.split
  cases t with
  | leaf => exact hs.sentinel_black
  | node c l a r => exact ht.2.2.1

theorem Shape.ptr_ne {h : Rbtree} {π : Path Ptr} {t : ColorTree Ptr} (hs : h.Shape (fill π t)) :
    t.ptr h.sentinel ≠ 0 := by
  obtain ⟨rp, -, ht⟩ := hs.split
  cases t with
  | leaf => exact hs.sentinel_ne
  | node c l a r => exact ht.1

/-- Below a frame the root is not the focus. -/
theorem Shape.root_ne {h : Rbtree} {f : Frame Ptr} {π : Path Ptr} {t : ColorTree Ptr}
    (hs : h.Shape (fill (f :: π) t)) : t.ptr h.sentinel ≠ h.root := by
  have hm := (ptr_fill_cons h.sentinel f π t).1
  rw [← hs.root_eq] at hm
  obtain ⟨rp, hh⟩ := hs.hangs
  have hne := hh.ne h.root (mem_inorder_fill.mpr (Or.inl hm))
  intro he
  by_cases ht : t = leaf
  · subst ht
    exact hne.2 he.symm
  · exact (nodup_inorder_fill.mp hs.nodup).2.2 _ (ptr_mem ht) (he ▸ hm)

theorem Hangs.unique {h : Rbtree} {t t' : ColorTree Ptr} {p p' : Ptr} (ht : h.Hangs t p)
    (ht' : h.Hangs t' p') (he : t.ptr h.sentinel = t'.ptr h.sentinel) : t = t' := by
  induction t generalizing t' p p' with
  | leaf =>
    cases t' with
    | leaf => rfl
    | node c l a r => exact absurd he.symm ht'.2.1
  | node c l a r ihl ihr =>
    cases t' with
    | leaf => exact absurd he ht.2.1
    | node c' l' a' r' =>
      obtain rfl : a = a' := he
      obtain ⟨-, -, h2, -, h4, h5, h6, h7⟩ := ht
      obtain ⟨-, -, h2', -, h4', h5', h6', h7'⟩ := ht'
      rw [h2.symm.trans h2', ihl h6 h6' (h4.symm.trans h4'), ihr h7 h7' (h5.symm.trans h5')]

/-- A memory holds at most one tree. -/
theorem Shape.unique {h : Rbtree} {T T' : ColorTree Ptr} (hs : h.Shape T) (hs' : h.Shape T') :
    T = T' := by
  obtain ⟨p, hT⟩ := hs.hangs
  obtain ⟨p', hT'⟩ := hs'.hangs
  exact hT.unique hT' (hs.root_eq.symm.trans hs'.root_eq)

/-- Painting a node of the memory paints the node of the tree. -/
theorem Shape.putColor {h : Rbtree} {π : Path Ptr} {d : Dir} {c e : Color} {t u : ColorTree Ptr}
    {a : Ptr} (hs : h.Shape (fill π (bin d c t a u))) :
    (h.putColor a e).Shape (fill π (bin d e t a u)) := by
  obtain ⟨rp, hπ, hb⟩ := hs.split
  obtain ⟨hnπ, hnb, hdis⟩ := nodup_inorder_fill.mp hs.nodup
  obtain ⟨hnt, hnu, hat, hau, -⟩ := nodup_inorder_bin.mp hnb
  obtain ⟨h0, h1, h2, h3, h4, h5, h6, h7⟩ := hangs_bin.mp hb
  have haπ : a ∉ items π := hdis a (mem_inorder_bin.mpr (Or.inr (Or.inl rfl)))
  have hne : ∀ {l : List Ptr}, a ∉ l → ∀ b ∈ l, (h.putColor a e).color b = h.color b := by
    intro l hl b hb
    have : b ≠ a := fun he => hl (he ▸ hb)
    simp [this]
  refine ⟨hs.sentinel_ne, ?_, ?_, ?_, rp, hangs_fill.mpr ⟨?_, hangs_bin.mpr ?_⟩⟩
  · simpa [h1.symm] using hs.sentinel_black
  · rw [putColor_root, hs.root_eq]
    cases π with
    | nil => simp
    | cons f π => exact ((ptr_fill_cons _ f π _).2 _).symm
  · rw [inorder_fill_congr (u := bin d c t a u) (by cases d <;> rfl)]
    exact hs.nodup
  · refine hπ.transfer hnπ rfl (hne haπ) (fun _ _ => rfl) (fun _ _ _ _ => rfl) ?_
    rintro f ρ rfl
    simpa using hπ.2.2.2.2.1
  · exact ⟨h0, h1, by simp, h3, h4, h5,
      h6.congr rfl (hne hat) (fun _ _ _ => rfl) (fun _ _ => rfl),
      h7.congr rfl (hne hau) (fun _ _ _ => rfl) (fun _ _ => rfl)⟩

/-- Painting the sentinel black changes nothing. -/
theorem Shape.putColor_sentinel {h : Rbtree} {T : ColorTree Ptr} (hs : h.Shape T) :
    h.putColor h.sentinel .black = h := by
  have : Function.update h.color h.sentinel .black = h.color := by
    rw [← hs.sentinel_black]
    exact Function.update_eq_self _ _
  simp only [Rbtree.putColor, this]

/-! ## Redirection and rotation -/

/-- The memory whose link into the hole of `π` is `q`. -/
def hook (h : Rbtree) : Path Ptr → Ptr → Rbtree
  | [], q => h.putRoot q
  | f :: _, q => h.putChild f.dir f.item q

@[simp] theorem hook_sentinel (h : Rbtree) (π : Path Ptr) (q : Ptr) :
    (h.hook π q).sentinel = h.sentinel := by cases π <;> rfl

@[simp] theorem hook_key (h : Rbtree) (π : Path Ptr) (q : Ptr) :
    (h.hook π q).key = h.key := by cases π <;> rfl

@[simp] theorem hook_color (h : Rbtree) (π : Path Ptr) (q : Ptr) :
    (h.hook π q).color = h.color := by cases π <;> rfl

@[simp] theorem hook_parent (h : Rbtree) (π : Path Ptr) (q : Ptr) :
    (h.hook π q).parent = h.parent := by cases π <;> rfl

theorem hook_child_of_not_mem {h : Rbtree} {π : Path Ptr} {q a : Ptr} (ha : a ∉ items π)
    (d : Dir) : (h.hook π q).child d a = h.child d a := by
  cases π with
  | nil => rfl
  | cons f π =>
    have : a ≠ f.item := fun he => ha (mem_items_cons.mpr (Or.inl he))
    simp [hook, this]

/-- `redirect` hooks the new pointer into the hole. -/
theorem redirect_eq {h : Rbtree} {rp x q : Ptr} {π : Path Ptr} {d : Dir}
    (hπ : h.Spans rp π x) (hp : h.parent x = above rp π) (hx : x ≠ 0) (hxs : x ≠ h.sentinel)
    (hr : ∀ f ρ, π = f :: ρ → x ≠ h.root) (hn : π = [] → x = h.root)
    (hi : x ∉ items π) : redirect d h x q = .ok (h.hook π q) := by
  cases π with
  | nil =>
    rw [redirect, if_pos (hn rfl)]
    rfl
  | cons f π =>
    obtain ⟨f0, f1, -, -, f4, f5, f6, -⟩ := hπ
    rw [above_cons] at hp
    have hsib : f.sibling.ptr h.sentinel ≠ x := by
      by_cases hl : f.sibling = leaf
      · rw [hl]
        exact hxs.symm
      · intro he
        exact hi (mem_items_cons.mpr (Or.inr (Or.inl (he ▸ ptr_mem hl))))
    rw [redirect, if_neg (hr f π rfl)]
    simp only [getParent_eq h hx, hp, ok_bind, getChild_eq h d f0]
    rcases Dir.eq_or_flip d f.dir with hd | hd
    · rw [if_pos (by rw [← hd, f4]), setChild_eq h d q f0]
      simp [hook, hd]
    · have hd' : d = f.dir.flip := by rw [hd, Dir.flip_flip]
      rw [if_neg (by rw [hd', f5]; exact hsib.symm), setChild_eq h _ q f0]
      simp [hook, hd]

/-- What every step of a rebalancing loop leaves alone. -/
structure Keeps (h h' : Rbtree) : Prop where
  key_eq : h'.key = h.key
  sentinel_eq : h'.sentinel = h.sentinel
  parent_sentinel : h'.parent h.sentinel = h.parent h.sentinel

theorem Keeps.refl (h : Rbtree) : Keeps h h := ⟨rfl, rfl, rfl⟩

theorem Keeps.trans {h h' h'' : Rbtree} (h₁ : Keeps h h') (h₂ : Keeps h' h'') : Keeps h h'' :=
  ⟨h₂.key_eq.trans h₁.key_eq, h₂.sentinel_eq.trans h₁.sentinel_eq, by
    rw [← h₁.parent_sentinel, ← h₁.sentinel_eq]
    exact h₂.parent_sentinel⟩

theorem Keeps.putColor (h : Rbtree) (p : Ptr) (c : Color) : Keeps h (h.putColor p c) :=
  ⟨rfl, rfl, rfl⟩

/-- The memory after `if (b != sentinel) b->parent = p`, for the subtree `b`. -/
def adopted (h : Rbtree) (b : ColorTree Ptr) (p : Ptr) : Rbtree :=
  match b with
  | .leaf => h
  | .node _ _ a _ => h.putParent a p

theorem adopt_eq {h : Rbtree} {b : ColorTree Ptr} {p : Ptr}
    (hb : ∀ a ∈ b.inorder, a ≠ 0 ∧ a ≠ h.sentinel) :
    adopt h (b.ptr h.sentinel) p = .ok (h.adopted b p) := by
  cases b with
  | leaf => simp [adopt, adopted]
  | node c l a r =>
    obtain ⟨h0, h1⟩ := hb a (by simp [inorder])
    rw [adopt, RedBlack.ColorTree.ptr, if_pos h1, setParent_eq _ _ h0]
    rfl

section Adopted

variable (h : Rbtree) (b : ColorTree Ptr) (p : Ptr)

@[simp] theorem adopted_root : (h.adopted b p).root = h.root := by cases b <;> rfl
@[simp] theorem adopted_sentinel : (h.adopted b p).sentinel = h.sentinel := by cases b <;> rfl
@[simp] theorem adopted_key : (h.adopted b p).key = h.key := by cases b <;> rfl
@[simp] theorem adopted_child : (h.adopted b p).child = h.child := by cases b <;> rfl
@[simp] theorem adopted_color : (h.adopted b p).color = h.color := by cases b <;> rfl

variable {b}

theorem adopted_parent_of_ne {a : Ptr} (ha : a ∉ b.inorder) :
    (h.adopted b p).parent a = h.parent a := by
  cases b with
  | leaf => rfl
  | node c l x r =>
    have : a ≠ x := by rintro rfl; exact ha (by simp [inorder])
    simp [adopted, this]

theorem adopted_parent_ptr (hb : b ≠ leaf) (s : Ptr) : (h.adopted b p).parent (b.ptr s) = p := by
  cases b with
  | leaf => exact absurd rfl hb
  | node c l x r => simp [adopted, RedBlack.ColorTree.ptr]

theorem adopted_parent_of_ne_ptr {a s : Ptr} (ha : a ≠ b.ptr s) :
    (h.adopted b p).parent a = h.parent a := by
  cases b with
  | leaf => rfl
  | node c l x r =>
    have : a ≠ x := ha
    simp [adopted, this]

end Adopted

/-- The memory a rotation leaves, for `x` over `y` with the subtree `b` between them. -/
def rotated (d : Dir) (h : Rbtree) (π : Path Ptr) (x y : Ptr) (b : ColorTree Ptr) : Rbtree :=
  let h := (h.putChild d.flip x (b.ptr h.sentinel)).adopted b x
  let h := (h.putParent y (h.parent x)).hook π y
  (h.putChild d y x).putParent x y

section Rotate

variable {h : Rbtree} {d : Dir} {c e : Color} {A B C : ColorTree Ptr} {x y : Ptr} {π : Path Ptr}

/-- The addresses a rotation touches are pairwise distinct. -/
theorem rotate_distinct (hs : h.Shape (fill π (bin d c A x (bin d e B y C)))) :
    x ≠ y ∧ x ∉ items π ∧ y ∉ items π ∧ (∀ a ∈ A.inorder, a ≠ x ∧ a ≠ y ∧ a ∉ items π) ∧
      (∀ a ∈ B.inorder, a ≠ x ∧ a ≠ y ∧ a ∉ items π ∧ a ∉ A.inorder ∧ a ∉ C.inorder) ∧
      (∀ a ∈ C.inorder, a ≠ x ∧ a ≠ y ∧ a ∉ items π) := by
  obtain ⟨-, hnb, hdis⟩ := nodup_inorder_fill.mp hs.nodup
  obtain ⟨-, hny, hxA, hxy, hAy⟩ := nodup_inorder_bin.mp hnb
  obtain ⟨-, -, hyB, hyC, hBC⟩ := nodup_inorder_bin.mp hny
  simp only [mem_inorder_bin] at hdis hxy hAy
  refine ⟨by tauto, hdis x (by tauto), hdis y (by tauto), fun a ha => ⟨?_, ?_, hdis a (by tauto)⟩,
    fun a ha => ⟨?_, ?_, hdis a (by tauto), fun hA => hAy a hA (by tauto), hBC a ha⟩,
    fun a ha => ⟨?_, ?_, hdis a (by tauto)⟩⟩
  · rintro rfl; exact hxA ha
  · rintro rfl; exact hAy a ha (by tauto)
  · rintro rfl; exact hxy (by tauto)
  · rintro rfl; exact hyB ha
  · rintro rfl; exact hxy (by tauto)
  · rintro rfl; exact hyC ha

theorem rotate_eq (hs : h.Shape (fill π (bin d c A x (bin d e B y C)))) :
    rotate d h x = .ok (rotated d h π x y B) := by
  obtain ⟨hxy, hxπ, hyπ, hA, hB, hC⟩ := rotate_distinct hs
  obtain ⟨rp, hπ, hb⟩ := hs.split
  obtain ⟨x0, x1, x2, x3, x4, x5, x6, x7⟩ := hangs_bin.mp hb
  obtain ⟨y0, y1, y2, y3, y4, y5, y6, y7⟩ := hangs_bin.mp x7
  simp only [ptr_bin] at hπ x5
  have hxB : x ∉ B.inorder := fun hx => (hB x hx).1 rfl
  set h₁ := h.putChild d.flip x (B.ptr h.sentinel) with hh₁
  set h₂ := h₁.adopted B x with hh₂
  have hstep : adopt h₁ (B.ptr h.sentinel) x = .ok h₂ := adopt_eq y6.ne
  set h₃ := h₂.putParent y (h₂.parent x) with hh₃
  have e2p : h₂.parent x = h.parent x := adopted_parent_of_ne _ _ hxB
  -- the frames of the path are untouched before the redirection
  have hspan : h₃.Spans rp π x := by
    have hxne : ∀ a ∈ items π, a ≠ x := by rintro a ha rfl; exact hxπ ha
    have hyne : ∀ a ∈ items π, a ≠ y := by rintro a ha rfl; exact hyπ ha
    refine hπ.transfer (nodup_inorder_fill.mp hs.nodup).1 (by simp [hh₃, hh₂, hh₁])
      (fun a _ => by simp [hh₃, hh₂, hh₁]) (fun a ha => ?_) (fun a ha e _ => ?_) ?_
    · have haB : a ∉ B.inorder := fun hm => (hB a hm).2.2.1 ha
      simp [hh₃, hyne a ha, hh₂, adopted_parent_of_ne _ _ haB, hh₁]
    · simp [hh₃, hh₂, hh₁, hxne a ha]
    · rintro f ρ rfl
      have hf : f.item ∈ items (f :: ρ) := mem_items_cons.mpr (Or.inl rfl)
      have hc : h₃.child f.dir f.item = h.child f.dir f.item := by
        simp [hh₃, hh₂, hh₁, hxne _ hf]
      exact hc.trans hπ.2.2.2.2.1
  have hred : redirect d h₃ x y = .ok (h₃.hook π y) := by
    refine redirect_eq hspan ?_ x0 (by simpa [hh₃, hh₂, hh₁] using x1) ?_ ?_ hxπ
    · simp [hh₃, hxy, e2p, x3]
    · rintro f ρ rfl
      simpa [hh₃, hh₂, hh₁] using hs.root_ne
    · rintro rfl
      simpa [hh₃, hh₂, hh₁] using hs.root_eq.symm
  have hin : h₁.child d y = B.ptr h.sentinel := by simp [hh₁, hxy.symm, y4]
  simp only [rotate, getChild_eq h _ x0, ok_bind, x5, getChild_eq h _ y0, y4,
    setChild_eq h _ _ x0, ← hh₁, getChild_eq h₁ _ y0, hin, hstep, getParent_eq h₂ x0,
    setParent_eq h₂ _ y0, ← hh₃, hred, setChild_eq _ _ _ y0, setParent_eq _ _ x0]
  rfl

theorem rotated_shape (hs : h.Shape (fill π (bin d c A x (bin d e B y C)))) :
    (rotated d h π x y B).Shape (fill π (bin d e (bin d c A x B) y C)) := by
  obtain ⟨hxy, hxπ, hyπ, hA, hB, hC⟩ := rotate_distinct hs
  obtain ⟨rp, hπ, hb⟩ := hs.split
  obtain ⟨hnπ, hnb, hdis⟩ := nodup_inorder_fill.mp hs.nodup
  obtain ⟨hnA, hny, -⟩ := nodup_inorder_bin.mp hnb
  obtain ⟨hnB, hnC, -⟩ := nodup_inorder_bin.mp hny
  obtain ⟨x0, x1, x2, x3, x4, x5, x6, x7⟩ := hangs_bin.mp hb
  obtain ⟨y0, y1, y2, y3, y4, y5, y6, y7⟩ := hangs_bin.mp x7
  simp only [ptr_bin] at hπ x5
  have hxB : x ∉ B.inorder := fun hx => (hB x hx).1 rfl
  set h' := rotated d h π x y B with hh'
  have es : h'.sentinel = h.sentinel := by simp [hh', rotated]
  have ec : h'.color = h.color := by simp [hh', rotated]
  -- the child links that change: one of `x`, one of `y`, and the link into the hole
  have ed : ∀ e a, a ≠ x → a ≠ y → a ∉ items π → h'.child e a = h.child e a := by
    intro e a hax hay haπ
    simp [hh', rotated, hook_child_of_not_mem haπ, hax, hay]
  have edx : h'.child d x = A.ptr h.sentinel ∧ h'.child d.flip x = B.ptr h.sentinel := by
    simp [hh', rotated, hook_child_of_not_mem hxπ, hxy, x4]
  have edy : h'.child d y = x ∧ h'.child d.flip y = C.ptr h.sentinel := by
    simp [hh', rotated, hook_child_of_not_mem hyπ, hxy.symm, y5]
  -- the parent links that change: those of `x`, `y` and the root of `B`
  have ep : ∀ a, a ≠ x → a ≠ y → a ≠ B.ptr h.sentinel → h'.parent a = h.parent a := by
    intro a hax hay haB
    simp [hh', rotated, hax, hay, adopted_parent_of_ne_ptr _ _ haB]
  have epx : h'.parent x = y := by simp [hh', rotated]
  have epy : h'.parent y = above rp π := by
    simp [hh', rotated, hxy.symm, adopted_parent_of_ne _ _ hxB, x3]
  have hBne : ∀ a, a ∉ B.inorder → a ≠ h.sentinel → a ≠ B.ptr h.sentinel := by
    rintro a ha has rfl
    by_cases hl : B = leaf
    · exact has (by rw [hl]; rfl)
    · exact ha (ptr_mem hl)
  have hA' : h'.Hangs A x := by
    refine x6.congr es (fun a _ => by rw [ec])
      (fun a ha e => ed e a (hA a ha).1 (hA a ha).2.1 (hA a ha).2.2) (fun a ha => ?_)
    refine ep a (hA a ha).1 (hA a ha).2.1 (hBne a ?_ (x6.ne a ha).2)
    exact fun hm => (hB a hm).2.2.2.1 ha
  have hC' : h'.Hangs C y := by
    refine y7.congr es (fun a _ => by rw [ec])
      (fun a ha e => ed e a (hC a ha).1 (hC a ha).2.1 (hC a ha).2.2) (fun a ha => ?_)
    refine ep a (hC a ha).1 (hC a ha).2.1 (hBne a ?_ (y7.ne a ha).2)
    exact fun hm => (hB a hm).2.2.2.2 ha
  have hB' : h'.Hangs B x := by
    refine y6.transfer hnB es (fun a _ => by rw [ec])
      (fun a ha e => ed e a (hB a ha).1 (hB a ha).2.1 (hB a ha).2.2.1)
      (fun a ha hne => ep a (hB a ha).1 (hB a ha).2.1 hne) (fun hl => ?_)
    have hm := hB _ (ptr_mem (s := h.sentinel) hl)
    simp [hh', rotated, hm.1, hm.2.1, adopted_parent_ptr _ _ hl]
  have hπ' : h'.Spans rp π y := by
    have hxne : ∀ a ∈ items π, a ≠ x := by rintro a ha rfl; exact hxπ ha
    have hyne : ∀ a ∈ items π, a ≠ y := by rintro a ha rfl; exact hyπ ha
    refine hπ.transfer hnπ es (fun a _ => by rw [ec]) (fun a ha => ?_) (fun a ha e hf => ?_) ?_
    · have haB : a ∉ B.inorder := fun hm => (hB a hm).2.2.1 ha
      simp [hh', rotated, hxne a ha, hyne a ha, adopted_parent_of_ne _ _ haB]
    · cases π with
      | nil => simp at ha
      | cons f ρ =>
        have := hf f ρ rfl
        simp [hh', rotated, hxne a ha, hyne a ha, hook, this]
    · rintro f ρ rfl
      have hfi : f.item ∈ items (f :: ρ) := mem_items_cons.mpr (Or.inl rfl)
      simp [hh', rotated, hyne _ hfi, hook]
  refine ⟨by rw [es]; exact hs.sentinel_ne, by rw [ec, es]; exact hs.sentinel_black, ?_, ?_, rp,
    hangs_fill.mpr ⟨?_, hangs_bin.mpr ?_⟩⟩
  · cases π with
    | nil => simp [hh', rotated, hook]
    | cons f π =>
      have hroot : h'.root = h.root := by simp [hh', rotated, hook]
      rw [hroot, hs.root_eq, es]
      exact ((ptr_fill_cons _ f π _).2 _).symm
  · rw [inorder_fill_congr (u := bin d c A x (bin d e B y C))]
    · exact hs.nodup
    · cases d <;> simp [bin, inorder]
  · simpa using hπ'
  · refine ⟨y0, by rw [es]; exact y1, by rw [ec]; exact y2, epy, ?_, ?_, hangs_bin.mpr ?_, hC'⟩
    · simpa using edy.1
    · rw [es]; exact edy.2
    · exact ⟨x0, by rw [es]; exact x1, by rw [ec]; exact x2, epx, by rw [es]; exact edx.1,
        by rw [es]; exact edx.2, hA', hB'⟩

/-- **Rotation**: the node `x` sinks to the side `d` under its other child `y`. -/
theorem rotate_spec (hs : h.Shape (fill π (bin d c A x (bin d e B y C)))) :
    ∃ h', rotate d h x = .ok h' ∧ h'.Shape (fill π (bin d e (bin d c A x B) y C)) ∧
      Keeps h h' := by
  refine ⟨_, rotate_eq hs, rotated_shape hs, by simp [rotated], by simp [rotated], ?_⟩
  obtain ⟨rp, -, hb⟩ := hs.split
  obtain ⟨-, x1, -, -, -, -, -, x7⟩ := hangs_bin.mp hb
  obtain ⟨-, y1, -, -, -, -, y6, -⟩ := hangs_bin.mp x7
  have hsB : h.sentinel ∉ B.inorder := fun hm => (y6.ne _ hm).2 rfl
  simp [rotated, x1.symm, y1.symm, adopted_parent_of_ne _ _ hsB]

end Rotate

end Rbtree
