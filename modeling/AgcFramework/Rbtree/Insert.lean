import AgcFramework.Rbtree.Shape

/-!
# Insertion

The descent of an insertion hangs a red node at the end of a search path; the loop then climbs
that path. Every round recolours and continues two frames higher, or rotates and stops, and leaves
the sequence of the nodes as it was.

## Main results

* `Rbtree.insertValueBy_spec`: the descent hangs the node where the search ends
* `Rbtree.insertSide_recolor`, `Rbtree.insertSide_outer`, `Rbtree.insertSide_inner`: one round
* `Rbtree.insertLoop_spec`: the loop ends with a balanced tree of the same sequence
* `Rbtree.agcRbtreeInsert_spec`: insertion adds the node to a red-black tree
-/

open RedBlack RedBlack.ColorTree Exec

namespace Rbtree

/-- Painting the root of a subtree, where a leaf may only be painted black. -/
theorem Shape.paint {h : Rbtree} {π : Path Ptr} {t : ColorTree Ptr} {c : Color}
    (hs : h.Shape (fill π t)) (hc : t = leaf → c = .black) :
    (h.putColor (t.ptr h.sentinel) c).Shape (fill π (paint c t)) := by
  cases t with
  | leaf =>
    rw [hc rfl, ptr_leaf, hs.putColor_sentinel]
    exact hs
  | node c₀ l a r => exact hs.putColor (d := .left)

/-- A subtree and its sibling have different pointers, unless both are leaves. -/
theorem Shape.ptr_ne_sibling {h : Rbtree} {f : Frame Ptr} {π : Path Ptr} {t : ColorTree Ptr}
    (hs : h.Shape (fill (f :: π) t)) (ht : t ≠ leaf ∨ f.sibling ≠ leaf) :
    t.ptr h.sentinel ≠ f.sibling.ptr h.sentinel := by
  obtain ⟨rp, ⟨-, -, -, -, -, -, f6, -⟩, hb⟩ := hs.split
  rw [fill_cons] at hs
  obtain ⟨-, hnb, -⟩ := nodup_inorder_fill.mp hs.nodup
  obtain ⟨-, -, -, -, hdis⟩ := nodup_inorder_bin.mp hnb
  intro he
  by_cases htl : t = leaf
  · have hsl : f.sibling ≠ leaf := by tauto
    have hne := (f6.ne _ (ptr_mem (s := h.sentinel) hsl)).2
    rw [← he, htl] at hne
    exact hne rfl
  · by_cases hsl : f.sibling = leaf
    · have hne := (hb.ne _ (ptr_mem (s := h.sentinel) htl)).2
      rw [he, hsl] at hne
      exact hne rfl
    · exact hdis _ (ptr_mem htl) (he ▸ ptr_mem hsl)

/-- The side of the parent on which a subtree hangs. -/
theorem Shape.side_eq {h : Rbtree} {f : Frame Ptr} {π : Path Ptr} {t : ColorTree Ptr}
    (hs : h.Shape (fill (f :: π) t)) (ht : t ≠ leaf ∨ f.sibling ≠ leaf) :
    (if t.ptr h.sentinel = h.child .left f.item then Dir.left else Dir.right) = f.dir := by
  have hne := hs.ptr_ne_sibling ht
  obtain ⟨rp, ⟨-, -, -, -, f4, f5, -, -⟩, -⟩ := hs.split
  cases hd : f.dir with
  | left =>
    rw [hd] at f4
    rw [if_pos f4.symm]
  | right =>
    rw [hd] at f5
    rw [if_neg]
    exact fun he => hne (he.trans f5)

/-! ## The rounds of the loop -/

section Round

variable {h : Rbtree} {d e : Dir} {c : Color} {x y z : Ptr} {t s w p q : ColorTree Ptr}
  {π : Path Ptr}

/-- The pointers a round reads: the parent, the grandparent and the uncle of the focus. -/
theorem Shape.family (hs : h.Shape (fill (⟨d, .red, x, s⟩ :: ⟨e, c, y, w⟩ :: π) t))
    (ht : t ≠ leaf) :
    h.parent (t.ptr h.sentinel) = x ∧ x ≠ 0 ∧ h.parent x = y ∧ y ≠ 0 ∧
      h.child e.flip y = w.ptr h.sentinel ∧ w.ptr h.sentinel ≠ 0 ∧
      h.color (w.ptr h.sentinel) = w.color ∧ h.child d x = t.ptr h.sentinel ∧
      h.child d.flip x = s.ptr h.sentinel := by
  obtain ⟨rp, ⟨x0, -, -, x3, x4, x5, -, ⟨y0, -, -, -, -, y5, -, -⟩⟩, hb⟩ := hs.split
  have hw : h.Shape (fill (⟨e.flip, c, y, bin d .red t x s⟩ :: π) w) := by
    simpa [fill_cons, bin_flip] using hs
  refine ⟨?_, x0, x3, y0, y5, hw.ptr_ne, hw.color_ptr, x4, x5⟩
  cases t with
  | leaf => exact absurd rfl ht
  | node c l a r => exact hb.2.2.2.1

theorem insertSide_recolor
    (hs : h.Shape (fill (⟨d, .red, x, s⟩ :: ⟨e, .black, y, w⟩ :: π) t)) (ht : t ≠ leaf)
    (hw : w.color = .red) :
    ∃ h', insertSide e h (t.ptr h.sentinel) = .ok (h', y) ∧ Keeps h h' ∧
      h'.Shape (fill π (bin e .red (bin d .black t x s) y (paint .black w))) := by
  obtain ⟨hp, x0, hpp, y0, hu, w0, hwc, -, -⟩ := hs.family ht
  have hwl : w ≠ leaf := by rintro rfl; cases hw
  -- the parent, the uncle and the grandparent are painted one after the other
  have h₁ : (h.putColor x .black).Shape
      (fill (⟨e, .black, y, w⟩ :: π) (bin d .black t x s)) := Shape.putColor (c := .red) hs
  have h₂ := Shape.paint (c := .black) (t := w)
    (π := ⟨e.flip, .black, y, bin d .black t x s⟩ :: π)
    (by simpa [fill_cons, bin_flip] using h₁) (fun _ => rfl)
  have h₃ := Shape.putColor (π := π) (d := e) (c := .black) (e := .red) (a := y)
    (t := bin d .black t x s) (u := paint .black w)
    (by simpa [fill_cons, bin_flip] using h₂)
  refine ⟨_, ?_, ?_, h₃⟩
  swap
  · exact ((Keeps.putColor h x .black).trans (Keeps.putColor _ _ .black)).trans
      (Keeps.putColor _ y .red)
  simp only [insertSide, getParent_eq h hs.ptr_ne, hp, getParent_eq h x0, hpp, ok_bind,
    getChild_eq h _ y0, hu, getColor_eq h w0, hwc, hw, if_true, insertRecolor,
    setColor_eq _ _ x0, setColor_eq _ _ w0, setColor_eq _ _ y0]
  rfl

/-- The end of a round: the grandparent `y` sinks under the outer child `x`. -/
theorem insertSide_lift (hs : h.Shape (fill (⟨d, .red, x, s⟩ :: ⟨d, .black, y, w⟩ :: π) t)) :
    ∃ h', rotate d.flip ((h.putColor x .black).putColor y .red) y = .ok h' ∧ Keeps h h' ∧
      h'.Shape (fill π (bin d .black t x (bin d .red s y w))) := by
  have h₁ : (h.putColor x .black).Shape
      (fill (⟨d, .black, y, w⟩ :: π) (bin d .black t x s)) := Shape.putColor (c := .red) hs
  have h₂ : ((h.putColor x .black).putColor y .red).Shape
      (fill π (bin d .red (bin d .black t x s) y w)) := Shape.putColor (c := .black) h₁
  obtain ⟨h', he, hsh, hk⟩ := rotate_spec (d := d.flip) (A := w) (B := s) (C := t) (x := y)
    (y := x) (c := .red) (e := .black) (π := π) (by simpa [bin_flip] using h₂)
  exact ⟨h', he, ((Keeps.putColor h x .black).trans (Keeps.putColor _ y .red)).trans hk,
    by simpa [bin_flip] using hsh⟩

theorem insertSide_outer (hs : h.Shape (fill (⟨d, .red, x, s⟩ :: ⟨d, .black, y, w⟩ :: π) t))
    (ht : t ≠ leaf) (hw : w.color = .black) :
    ∃ h', insertSide d h (t.ptr h.sentinel) = .ok (h', t.ptr h.sentinel) ∧ Keeps h h' ∧
      h'.Shape (fill π (bin d .black t x (bin d .red s y w))) := by
  obtain ⟨hp, x0, hpp, y0, hu, w0, hwc, -, hi⟩ := hs.family ht
  obtain ⟨h', he, hk, hsh⟩ := insertSide_lift hs
  have hne : t.ptr h.sentinel ≠ s.ptr h.sentinel := hs.ptr_ne_sibling (Or.inl ht)
  refine ⟨h', ?_, hk, hsh⟩
  simp only [insertSide, getParent_eq h hs.ptr_ne, hp, getParent_eq h x0, hpp, ok_bind,
    getChild_eq h _ y0, hu, getColor_eq h w0, hwc, hw, reduceCtorEq, if_false, insertOutwards,
    getChild_eq h _ x0, hi, hne, setColor_eq _ _ x0, getParent_eq _ x0, putColor_parent,
    setColor_eq _ _ y0, he, pure_eq_ok]

theorem insertSide_inner
    (hs : h.Shape (fill (⟨d.flip, .red, x, s⟩ :: ⟨d, .black, y, w⟩ :: π) (bin d .red p z q)))
    (hw : w.color = .black) :
    ∃ h', insertSide d h z = .ok (h', x) ∧ Keeps h h' ∧
      h'.Shape (fill π (bin d .black (bin d .red s x p) z (bin d .red q y w))) := by
  obtain ⟨hp, x0, hpp, y0, hu, w0, hwc, hi, -⟩ := hs.family (bin_ne_leaf _ _ _ _ _)
  have z0 := hs.ptr_ne
  rw [ptr_bin] at hp hi z0
  -- first rotation: `x` sinks under its inner child `z`
  obtain ⟨h₁, he₁, hs₁, hk₁⟩ := rotate_spec (d := d) (c := .red) (e := .red) (A := s) (B := p)
    (C := q) (x := x) (y := z) (π := ⟨d, .black, y, w⟩ :: π)
    (by simpa [fill_cons, bin_flip] using hs)
  have hs₁' : h₁.Shape (fill (⟨d, .red, z, q⟩ :: ⟨d, .black, y, w⟩ :: π) (bin d .red s x p)) := hs₁
  obtain ⟨hp₁, -, hpp₁, -, -, -, -, -, -⟩ := hs₁'.family (bin_ne_leaf _ _ _ _ _)
  obtain ⟨h', he, hk, hsh⟩ := insertSide_lift hs₁'
  rw [ptr_bin] at hp₁
  refine ⟨h', ?_, hk₁.trans hk, hsh⟩
  simp only [insertSide, getParent_eq h z0, hp, getParent_eq h x0, hpp, ok_bind,
    getChild_eq h _ y0, hu, getColor_eq h w0, hwc, hw, reduceCtorEq, if_false, insertOutwards,
    getChild_eq h _ x0, hi, if_true, he₁, pure_eq_ok, getParent_eq h₁ x0, hp₁,
    setColor_eq _ _ z0, getParent_eq _ z0, putColor_parent, hpp₁, setColor_eq _ _ y0, he]

end Round

/-- **The insertion's loop** ends with a balanced tree of the same nodes in the same order. -/
theorem insertLoop_spec {h : Rbtree} {π : Path Ptr} {t : ColorTree Ptr} {c : Color} {n : ℕ}
    (hs : h.Shape (fill π t)) (ht : Balanced t .red n) (hπ : Accepts π c n) :
    ∃ h' T, (∀ fuel, π.length < fuel → insertLoop fuel h (t.ptr h.sentinel) = .ok h') ∧
      h'.Shape T ∧ T.inorder = (fill π t).inorder ∧ (∃ c' m, Balanced T c' m) ∧ Keeps h h' := by
  -- the path gets two frames shorter in every round that goes on
  induction hlen : π.length using Nat.strongRecOn generalizing h π t c n with
  | _ len ih =>
    have htl : t ≠ leaf := by rintro rfl; cases ht
    cases π with
    | nil =>
      refine ⟨h, t, fun fuel hf => ?_, hs, rfl, ⟨_, _, ht⟩, Keeps.refl h⟩
      obtain ⟨k, rfl⟩ : ∃ k, fuel = k + 1 := ⟨fuel - 1, by omega⟩
      have hr : t.ptr h.sentinel = h.root := hs.root_eq.symm
      rw [insertLoop, if_pos hr]
      rfl
    | cons f ρ =>
      obtain ⟨d, cf, x, s⟩ := f
      have hroot := hs.root_ne
      have t0 := hs.ptr_ne
      obtain ⟨rp, ⟨x0, -, x2, -⟩, hb⟩ := hs.split
      have hp : h.parent (t.ptr h.sentinel) = x := by
        cases t with
        | leaf => exact absurd rfl htl
        | node _ _ _ _ => exact hb.2.2.2.1
      cases cf with
      | black =>
        -- a black parent ends the loop
        obtain ⟨⟨c', hs'⟩, hρ⟩ := hπ.of_black
        have hbal : ∃ m, Balanced (fill (⟨d, .black, x, s⟩ :: ρ) t) .black m :=
          (Accepts.black (c := .red) hs' hρ).fill ht
        obtain ⟨m, hm⟩ := hbal
        refine ⟨h, _, fun fuel hf => ?_, hs, rfl, ⟨_, _, hm⟩, Keeps.refl h⟩
        obtain ⟨k, rfl⟩ : ∃ k, fuel = k + 1 := ⟨fuel - 1, by omega⟩
        rw [insertLoop, if_neg hroot]
        simp only [getParent_eq h t0, hp, ok_bind, getColor_eq h x0, x2, if_true, pure_eq_ok]
      | red =>
        obtain ⟨-, hρ⟩ := hπ.of_red
        obtain ⟨e, y, w, σ, rfl⟩ := hρ.exists_black
        obtain ⟨-, -, hpp, y0, -⟩ := hs.family htl
        have hside := Shape.side_eq (f := ⟨e, .black, y, w⟩) (π := σ) (t := bin d .red t x s) hs
          (Or.inl (bin_ne_leaf _ _ _ _ _))
        rw [ptr_bin] at hside
        have hround : ∀ k, insertLoop (k + 1) h (t.ptr h.sentinel) =
            (insertSide e h (t.ptr h.sentinel) >>= fun r => insertLoop k r.1 r.2) := by
          intro k
          rw [insertLoop, if_neg hroot]
          simp only [getParent_eq h t0, hp, ok_bind, getColor_eq h x0, x2, reduceCtorEq, if_false,
            getParent_eq h x0, hpp, getChild_eq h _ y0, hside]
        by_cases hw : w.color = .red
        · obtain ⟨h₁, he, hk, hs₁⟩ := insertSide_recolor hs htl hw
          obtain ⟨hb₁, hσ⟩ := insert_recolor ht hπ hw
          obtain ⟨h', T, hrun, hsh, hin, hbal, hk'⟩ :=
            ih σ.length (by simp at hlen; omega) hs₁ hb₁ hσ rfl
          refine ⟨h', T, fun fuel hf => ?_, hsh, ?_, hbal, hk.trans hk'⟩
          · obtain ⟨k, rfl⟩ : ∃ k, fuel = k + 1 := ⟨fuel - 1, by omega⟩
            rw [hround, he]
            simp only [ok_bind]
            simpa using hrun k (by simp at hlen; omega)
          · rw [hin, fill_cons, fill_cons]
            apply inorder_fill_congr
            cases d <;> cases e <;> simp [bin, inorder]
        · have hw' : w.color = .black := by
            cases hc : w.color with
            | red => exact absurd hc hw
            | black => rfl
          rcases Dir.eq_or_flip e d with rfl | rfl
          · -- an outer grandchild
            obtain ⟨h₁, he, hk, hs₁⟩ := insertSide_outer hs htl hw'
            obtain ⟨hb₁, hσ⟩ := insert_rotate_outer ht hπ hw'
            obtain ⟨m, hm⟩ := hσ.fill hb₁
            have hs₁' : h₁.Shape (fill (⟨d, .black, x, bin d .red s y w⟩ :: σ) t) := hs₁
            obtain ⟨rp₁, ⟨-, -, x2₁, -⟩, hb₁⟩ := hs₁'.split
            have hp₁ : h₁.parent (t.ptr h.sentinel) = x := by
              rw [← hk.sentinel_eq]
              cases t with
              | leaf => exact absurd rfl htl
              | node _ _ _ _ => exact hb₁.2.2.2.1
            have hroot₁ := hs₁'.root_ne
            rw [hk.sentinel_eq] at hroot₁
            refine ⟨h₁, _, fun fuel hf => ?_, hs₁, ?_, ⟨_, _, hm⟩, hk⟩
            · obtain ⟨k, rfl⟩ : ∃ k, fuel = k + 2 := ⟨fuel - 2, by simp at hlen; omega⟩
              rw [hround, he]
              simp only [ok_bind]
              rw [insertLoop, if_neg hroot₁]
              simp only [getParent_eq h₁ t0, hp₁, ok_bind, getColor_eq h₁ x0, x2₁, if_true,
                pure_eq_ok]
            · rw [fill_cons, fill_cons]
              apply inorder_fill_congr
              cases d <;> simp [bin, inorder]
          · -- an inner grandchild
            obtain rfl | ⟨ct, p, z, q, rfl⟩ := leaf_or_bin e t
            · exact absurd rfl htl
            obtain rfl : ct = .red := by simpa using ht.color_eq
            obtain ⟨h₁, he, hk, hs₁⟩ := insertSide_inner hs hw'
            obtain ⟨ht₂, hπ₂⟩ := insert_rotate_inner ht hπ
            obtain ⟨hb₁, hσ⟩ := insert_rotate_outer ht₂ hπ₂ hw'
            obtain ⟨m, hm⟩ := hσ.fill hb₁
            have hs₁' : h₁.Shape
                (fill (⟨e, .black, z, bin e .red q y w⟩ :: σ) (bin e .red s x p)) := hs₁
            obtain ⟨rp₁, ⟨z0, -, z2, -⟩, hb₁⟩ := hs₁'.split
            have hp₁ : h₁.parent x = z := (hangs_bin.mp hb₁).2.2.2.1
            have hroot₁ := hs₁'.root_ne
            rw [ptr_bin] at hroot₁
            refine ⟨h₁, _, fun fuel hf => ?_, hs₁, ?_, ⟨_, _, hm⟩, hk⟩
            · obtain ⟨k, rfl⟩ : ∃ k, fuel = k + 2 := ⟨fuel - 2, by simp at hlen; omega⟩
              rw [hround, ptr_bin, he]
              simp only [ok_bind]
              rw [insertLoop, if_neg hroot₁]
              simp only [getParent_eq h₁ x0, hp₁, ok_bind, getColor_eq h₁ z0, z2, if_true,
                pure_eq_ok]
            · rw [fill_cons, fill_cons]
              apply inorder_fill_congr
              cases e <;> simp [bin, inorder, Dir.flip]

/-! ## The descent -/

/-- The memory after the node `a` was hung in red into the hole below `f`. -/
def attached (h : Rbtree) (f : Frame Ptr) (a : Ptr) : Rbtree :=
  let h := (h.putChild f.dir f.item a).putParent a f.item
  ((h.putChild .left a h.sentinel).putChild .right a h.sentinel).putColor a .red

theorem Shape.attached {h : Rbtree} {f : Frame Ptr} {π : Path Ptr} {a : Ptr}
    (hs : h.Shape (fill (f :: π) leaf)) (ha : a ≠ 0) (has : a ≠ h.sentinel)
    (hai : a ∉ items (f :: π)) :
    (h.attached f a).Shape (fill (f :: π) (.node .red leaf a leaf)) := by
  obtain ⟨rp, hπ, -⟩ := hs.split
  obtain ⟨hn, -, -⟩ := nodup_inorder_fill.mp hs.nodup
  -- the writes reach the new node and its parent, and no other node of the path
  have hne : ∀ b ∈ items (f :: π), b ≠ a := by rintro b hb rfl; exact hai hb
  have hfi : f.item ∈ items (f :: π) := mem_items_cons.mpr (Or.inl rfl)
  refine ⟨hs.sentinel_ne, ?_, ?_, ?_, rp, hangs_fill.mpr ⟨?_, ?_⟩⟩
  · simpa [Rbtree.attached, has.symm] using hs.sentinel_black
  · have : (h.attached f a).root = h.root := rfl
    rw [this, hs.root_eq]
    exact ((ptr_fill_cons _ f π _).2 _).symm
  · rw [nodup_inorder_fill]
    exact ⟨hn, by simp [inorder], by simpa [inorder] using hai⟩
  · refine hπ.transfer hn rfl (fun b hb => ?_) (fun b hb => ?_) (fun b hb e hf => ?_) ?_
    · simp [Rbtree.attached, hne b hb]
    · simp [Rbtree.attached, hne b hb]
    · have := hf f π rfl
      simp [Rbtree.attached, hne b hb, this]
    · rintro g ρ he
      obtain ⟨rfl, -⟩ := List.cons.inj he
      simp [Rbtree.attached, hne _ hfi, RedBlack.ColorTree.ptr]
  · refine ⟨ha, has, ?_, ?_, ?_, ?_, trivial, trivial⟩
    · simp [Rbtree.attached]
    · simp [Rbtree.attached]
    · simp [Rbtree.attached]
    · simp [Rbtree.attached]

/-- **The descent** hangs the node in red at the end of the path its key selects. -/
theorem insertValueBy_spec (less : Key → Key → Bool) {h : Rbtree} {π : Path Ptr} {t : ColorTree Ptr}
    {a : Ptr} (hs : h.Shape (fill π t)) (ht : t ≠ leaf) (ha : a ≠ 0) :
    ∃ f ρ, fill (f :: ρ) leaf = fill π t ∧
      (∀ fuel, t.height ≤ fuel → insertValueBy less h fuel (t.ptr h.sentinel) a =
        .ok (h.attached f a)) ∧
      ∀ g ∈ f :: ρ, g ∈ π ∨ g.dir = if less (h.key a) (h.key g.item) then .left else .right := by
  induction hn : t.height using Nat.strongRecOn generalizing π t with
  | _ n ih =>
    obtain ⟨d, hd⟩ : ∃ d, d = if less (h.key a) (h.key (t.ptr h.sentinel)) then Dir.left
        else Dir.right := ⟨_, rfl⟩
    obtain rfl | ⟨c, u, x, v, rfl⟩ := leaf_or_bin d t
    · exact absurd rfl ht
    obtain ⟨rp, -, hb⟩ := hs.split
    obtain ⟨x0, -, -, -, x4, -, x6, -⟩ := hangs_bin.mp hb
    rw [ptr_bin] at hd
    have hdir : ∀ g ∈ (⟨d, c, x, v⟩ : Frame Ptr) :: π,
        g ∈ π ∨ g.dir = if less (h.key a) (h.key g.item) then .left else .right := by
      intro g hg
      rcases List.mem_cons.mp hg with rfl | hg
      · exact Or.inr hd
      · exact Or.inl hg
    -- one round: the node is hung below a leaf, or the descent goes on
    have hstep : ∀ k, insertValueBy less h (k + 1) x a =
        if u.ptr h.sentinel = h.sentinel then .ok (h.attached ⟨d, c, x, v⟩ a)
        else insertValueBy less h k (u.ptr h.sentinel) a := by
      intro k
      rw [insertValueBy]
      simp only [getKey_eq h ha, getKey_eq h x0, ok_bind, ← hd, getChild_eq h _ x0, x4,
        setChild_eq _ _ _ x0, setParent_eq _ _ ha, setChild_eq _ _ _ ha, setColor_eq _ _ ha]
      rfl
    have hlt := height_lt_bin d c u x v
    by_cases hu : u = leaf
    · subst hu
      refine ⟨⟨d, c, x, v⟩, π, rfl, fun fuel hf => ?_, hdir⟩
      obtain ⟨k, rfl⟩ : ∃ k, fuel = k + 1 := ⟨fuel - 1, by omega⟩
      rw [ptr_bin, hstep, ptr_leaf, if_pos rfl]
    · obtain ⟨f, ρ, hfill, hrun, hsearch⟩ := ih u.height (by omega)
        (π := ⟨d, c, x, v⟩ :: π) hs hu rfl
      refine ⟨f, ρ, hfill, fun fuel hf => ?_, fun g hg => ?_⟩
      · obtain ⟨k, rfl⟩ : ∃ k, fuel = k + 1 := ⟨fuel - 1, by omega⟩
        have hne : u.ptr h.sentinel ≠ h.sentinel := (x6.ne _ (ptr_mem hu)).2
        rw [ptr_bin, hstep, if_neg hne]
        exact hrun k (by omega)
      · rcases hsearch g hg with hg | hg
        · exact hdir g hg
        · exact Or.inr hg

/-! ## Insertion -/

/-- The memory after a node became the root of an empty tree. -/
def planted (h : Rbtree) (a : Ptr) : Rbtree :=
  let h := (h.putParent a 0).putChild .left a h.sentinel
  ((h.putChild .right a h.sentinel).putColor a .black).putRoot a

theorem Shape.planted {h : Rbtree} {a : Ptr} (hs : h.Shape leaf) (ha : a ≠ 0)
    (has : a ≠ h.sentinel) : (h.planted a).Shape (.node .black leaf a leaf) := by
  refine ⟨hs.sentinel_ne, ?_, rfl, by simp [inorder], 0, ha, has, ?_, ?_, ?_, ?_, trivial, trivial⟩
  · simpa [Rbtree.planted, has.symm] using hs.sentinel_black
  · simp [Rbtree.planted]
  · simp [Rbtree.planted]
  · simp [Rbtree.planted]
  · simp [Rbtree.planted]

/-- **Insertion** adds the node to a red-black tree, at the end of the path its key selects. -/
theorem agcRbtreeInsert_spec (less : Key → Key → Bool) {h : Rbtree} {T : ColorTree Ptr} {m : ℕ}
    {a : Ptr} (hs : h.Shape T) (hb : Balanced T .black m) (ha : a ≠ 0) (has : a ≠ h.sentinel)
    (hai : a ∉ T.inorder) :
    ∃ h' T' ρ, Returns (fun fuel => agcRbtreeInsert (insertValueBy less) fuel h a) h' ∧
      h'.Shape T' ∧ (∃ m', Balanced T' .black m') ∧ h'.key = h.key ∧
      h'.sentinel = h.sentinel ∧ T.inorder = before ρ ++ after ρ ∧
      T'.inorder = before ρ ++ a :: after ρ ∧
      ∀ g ∈ ρ, g.dir = if less (h.key a) (h.key g.item) then .left else .right := by
  by_cases hT : T = leaf
  · subst hT
    refine ⟨h.planted a, _, [], ⟨0, fun fuel _ => ?_⟩, hs.planted ha has, ⟨1, .black .leaf .leaf⟩,
      rfl, rfl, rfl, rfl, by simp⟩
    show agcRbtreeInsert _ fuel h a = _
    have hroot : h.root = h.sentinel := hs.root_eq
    rw [agcRbtreeInsert, if_pos hroot]
    simp only [setParent_eq _ _ ha, setChild_eq _ _ _ ha, setColor_eq _ _ ha, ok_bind]
    rfl
  · obtain ⟨f, ρ, hfill, hrun, hsearch⟩ := insertValueBy_spec less (π := []) hs hT ha
    have hs₀ : h.Shape (fill (f :: ρ) leaf) := by rw [hfill]; exact hs
    have hi : a ∉ items (f :: ρ) := by
      intro hm
      apply hai
      have : a ∈ (fill (f :: ρ) leaf).inorder := mem_inorder_fill.mpr (Or.inl hm)
      rwa [hfill] at this
    have hs₁ := hs₀.attached ha has hi
    -- a red node below the path keeps the black heights; only a red parent may be wrong
    obtain ⟨c, n, hl, hacc⟩ := accepts_of_balanced_fill (π := f :: ρ) (t := leaf)
      (m := m) (by rw [hfill]; exact hb)
    obtain rfl : n = 0 := by cases hl; rfl
    obtain ⟨h₂, T₂, hloop, hs₂, hin, ⟨c', m', hb₂⟩, hk⟩ :=
      insertLoop_spec hs₁ (.red .leaf .leaf) hacc
    have hroot : T₂.ptr h₂.sentinel = h₂.root := hs₂.root_eq.symm
    have r0 : h₂.root ≠ 0 := hroot ▸ Shape.ptr_ne (π := []) hs₂
    -- the root is painted black at the end
    have hs₃ := Shape.paint (π := []) (c := .black) hs₂ (fun _ => rfl)
    rw [hroot] at hs₃
    refine ⟨h₂.putColor h₂.root .black, _, f :: ρ, ⟨max T.height ((f :: ρ).length + 1),
      fun fuel hf => ?_⟩, hs₃, hb₂.exists_paint_black, hk.key_eq, hk.sentinel_eq, ?_, ?_, ?_⟩
    · have hT0 : h.root ≠ h.sentinel := by
        rw [hs.root_eq]
        obtain ⟨rp, hh⟩ := hs.hangs
        exact (hh.ne _ (ptr_mem hT)).2
      have hrun' := hrun fuel (Nat.le_trans (Nat.le_max_left _ _) hf)
      have hloop' := hloop fuel (Nat.lt_of_succ_le (Nat.le_trans (Nat.le_max_right _ _) hf))
      have hr : T.ptr h.sentinel = h.root := hs.root_eq.symm
      rw [hr] at hrun'
      show agcRbtreeInsert _ fuel h a = _
      rw [agcRbtreeInsert, if_neg hT0, hrun']
      simp only [ok_bind]
      have hptr : (ColorTree.node Color.red leaf a leaf).ptr (h.attached f a).sentinel = a := rfl
      rw [hptr] at hloop'
      rw [hloop']
      simp only [ok_bind, setColor_eq _ _ r0]
    · have := inorder_fill (f :: ρ) (leaf : ColorTree Ptr)
      rw [hfill] at this
      simpa using this
    · rw [fill_nil, inorder_paint, hin, inorder_fill]
      simp [inorder]
    · intro g hg
      rcases hsearch g hg with hg | hg
      · simp at hg
      · exact hg

end Rbtree
