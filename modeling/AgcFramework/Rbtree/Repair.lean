import AgcFramework.Rbtree.Insert

/-!
# The loop of a removal

After the unlinking `agc_rbtree_delete` repairs the black heights from the hole upwards. The focus
of the loop may be the sentinel; its parent field then holds the position of the hole, and no step
of the loop touches it.

## Main definitions

* `Rbtree.Points h π t`: the focus points to the innermost frame, the sentinel included

## Main results

* `Rbtree.deleteRedSibling_spec`, `Rbtree.deleteNearNephew_spec`, `Rbtree.deleteFarNephew_spec`:
  the parts of a round
* `Rbtree.deleteLoop_spec`: the loop ends with a balanced tree of the same sequence
-/

open RedBlack RedBlack.ColorTree Exec

namespace Rbtree

/-- The parent field of the focus is the innermost frame's node. -/
def Points (h : Rbtree) (π : Path Ptr) (t : ColorTree Ptr) : Prop :=
  ∀ f ρ, π = f :: ρ → h.parent (t.ptr h.sentinel) = f.item

theorem Shape.points {h : Rbtree} {π : Path Ptr} {t : ColorTree Ptr} (hs : h.Shape (fill π t))
    (ht : t ≠ leaf) : h.Points π t := by
  rintro f ρ rfl
  obtain ⟨rp, -, hb⟩ := hs.split
  cases t with
  | leaf => exact absurd rfl ht
  | node c l a r => exact hb.2.2.2.1

/-- The focus still points to the frame above it after steps that keep the sentinel. -/
theorem Points.keeps {h h' : Rbtree} {f : Frame Ptr} {π : Path Ptr} {t : ColorTree Ptr}
    (hp : h.Points (f :: π) t) (hk : Keeps h h') {g : Frame Ptr} {ρ : Path Ptr}
    (hg : g.item = f.item) (hs : h'.Shape (fill (g :: ρ) t)) : h'.Points (g :: ρ) t := by
  by_cases ht : t = leaf
  · subst ht
    rintro g' ρ' he
    obtain ⟨rfl, -⟩ := List.cons.inj he
    rw [ptr_leaf, hk.sentinel_eq, hk.parent_sentinel, hg]
    exact hp f π rfl
  · exact hs.points ht

/-! ## The parts of a round -/

section Round

variable {h : Rbtree} {d : Dir} {c : Color} {x y z : Ptr} {t p q r w : ColorTree Ptr} {π : Path Ptr}

theorem deleteRedSibling_spec (hs : h.Shape (fill (⟨d, .black, x, bin d .red p z q⟩ :: π) t))
    (hp : h.Points (⟨d, .black, x, bin d .red p z q⟩ :: π) t) :
    ∃ h', deleteRedSibling d h (t.ptr h.sentinel) z = .ok (h', p.ptr h.sentinel) ∧
      Keeps h h' ∧ h'.Shape (fill (⟨d, .red, x, p⟩ :: ⟨d, .black, z, q⟩ :: π) t) := by
  have hx := hp _ _ rfl
  have t0 := hs.ptr_ne
  obtain ⟨rp, ⟨x0, -, -, -, -, x5, x6, -⟩, -⟩ := hs.split
  obtain ⟨z0, -, z2, -⟩ := hangs_bin.mp x6
  have h₁ : (h.putColor z .black).Shape
      (fill (⟨d.flip, .black, x, t⟩ :: π) (bin d .black p z q)) :=
    Shape.putColor (c := .red) (by simpa [fill_cons, bin_flip] using hs)
  have h₂ : ((h.putColor z .black).putColor x .red).Shape
      (fill π (bin d .red t x (bin d .black p z q))) :=
    Shape.putColor (c := .black) (by simpa [fill_cons, bin_flip] using h₁)
  obtain ⟨h', he, hsh, hk⟩ := rotate_spec h₂
  have hk' : Keeps h h' := ((Keeps.putColor h z .black).trans (Keeps.putColor _ x .red)).trans hk
  have hsh' : h'.Shape (fill (⟨d, .red, x, p⟩ :: ⟨d, .black, z, q⟩ :: π) t) := hsh
  have hx' := hp.keeps (g := ⟨d, .red, x, p⟩) hk' rfl hsh' _ _ rfl
  obtain ⟨rp', ⟨-, -, -, -, -, x5', -, -⟩, -⟩ := hsh'.split
  rw [hk'.sentinel_eq] at hx' x5'
  refine ⟨h', ?_, hk', hsh'⟩
  simp only [deleteRedSibling, getColor_eq h z0, z2, ok_bind, if_true, setColor_eq _ _ z0,
    getParent_eq _ t0, putColor_parent, hx, setColor_eq _ _ x0, he, hx', getChild_eq h' _ x0, x5',
    pure_eq_ok]

theorem deleteNearNephew_spec
    (hs : h.Shape (fill (⟨d, c, x, bin d .black (bin d .red p y q) z r⟩ :: π) t))
    (hp : h.Points (⟨d, c, x, bin d .black (bin d .red p y q) z r⟩ :: π) t)
    (hr : r.color = .black) :
    ∃ h', deleteNearNephew d h (t.ptr h.sentinel) z = .ok (h', y) ∧ Keeps h h' ∧
      h'.Shape (fill (⟨d, c, x, bin d .black p y (bin d .red q z r)⟩ :: π) t) := by
  have t0 := hs.ptr_ne
  obtain ⟨rp, ⟨x0, -, -, -, -, -, x6, -⟩, -⟩ := hs.split
  obtain ⟨z0, -, -, -, z4, z5, z6, -⟩ := hangs_bin.mp x6
  obtain ⟨y0, -⟩ := hangs_bin.mp z6
  have hsr : h.Shape
      (fill (⟨d.flip, .black, z, bin d .red p y q⟩ :: ⟨d.flip, c, x, t⟩ :: π) r) := by
    simpa [fill_cons, bin_flip] using hs
  have hrc : h.color (r.ptr h.sentinel) = .black := hsr.color_ptr.trans hr
  -- the two writes of colours, and then the rotation at the sibling
  have h₁ : (h.putColor y .black).Shape
      (fill (⟨d, .black, z, r⟩ :: ⟨d.flip, c, x, t⟩ :: π) (bin d .black p y q)) :=
    Shape.putColor (c := .red) (by simpa [fill_cons, bin_flip] using hs)
  have h₂ : ((h.putColor y .black).putColor z .red).Shape
      (fill (⟨d.flip, c, x, t⟩ :: π) (bin d .red (bin d .black p y q) z r)) :=
    Shape.putColor (c := .black) h₁
  obtain ⟨h', he, hsh, hk⟩ := rotate_spec (d := d.flip) (A := r) (B := q) (C := p) (x := z)
    (y := y) (c := .red) (e := .black) (π := ⟨d.flip, c, x, t⟩ :: π)
    (by simpa [bin_flip] using h₂)
  have hk' : Keeps h h' := ((Keeps.putColor h y .black).trans (Keeps.putColor _ z .red)).trans hk
  have hsh' : h'.Shape (fill (⟨d, c, x, bin d .black p y (bin d .red q z r)⟩ :: π) t) := by
    simpa [fill_cons, bin_flip] using hsh
  have hx' := hp.keeps (g := ⟨d, c, x, bin d .black p y (bin d .red q z r)⟩) hk' rfl hsh' _ _ rfl
  obtain ⟨rp', ⟨-, -, -, -, -, x5', -, -⟩, -⟩ := hsh'.split
  rw [hk'.sentinel_eq] at hx' x5'
  refine ⟨h', ?_, hk', hsh'⟩
  simp only [deleteNearNephew, getChild_eq h _ z0, z4, z5, ok_bind, getColor_eq h hsr.ptr_ne, hrc,
    if_true, ptr_bin, setColor_eq _ _ y0, setColor_eq _ _ z0, he, getParent_eq h' t0, hx',
    getChild_eq h' _ x0, x5', pure_eq_ok]

theorem deleteFarNephew_spec (hs : h.Shape (fill (⟨d, c, x, bin d .black p z r⟩ :: π) t))
    (hp : h.Points (⟨d, c, x, bin d .black p z r⟩ :: π) t) :
    ∃ h', deleteFarNephew d h (t.ptr h.sentinel) z = .ok h' ∧ Keeps h h' ∧
      h'.Shape (fill π (bin d c (bin d .black t x p) z (paint .black r))) := by
  have hx := hp _ _ rfl
  have t0 := hs.ptr_ne
  obtain ⟨rp, ⟨x0, -, x2, -, -, -, x6, -⟩, -⟩ := hs.split
  obtain ⟨z0, -, -, -, -, z5, -, -⟩ := hangs_bin.mp x6
  have hsr : h.Shape (fill (⟨d.flip, .black, z, p⟩ :: ⟨d.flip, c, x, t⟩ :: π) r) := by
    simpa [fill_cons, bin_flip] using hs
  have r0 := hsr.ptr_ne
  -- the sibling takes the colour of the parent, the parent and the nephew become black
  have h₁ : (h.putColor z c).Shape (fill (⟨d.flip, c, x, t⟩ :: π) (bin d c p z r)) :=
    Shape.putColor (c := .black) (by simpa [fill_cons, bin_flip] using hs)
  have h₂ : ((h.putColor z c).putColor x .black).Shape
      (fill π (bin d .black t x (bin d c p z r))) :=
    Shape.putColor (c := c) (by simpa [fill_cons, bin_flip] using h₁)
  have h₃ := Shape.paint (c := .black) (t := r)
    (π := ⟨d.flip, c, z, p⟩ :: ⟨d.flip, .black, x, t⟩ :: π)
    (by simpa [fill_cons, bin_flip] using h₂) (fun _ => rfl)
  obtain ⟨h', he, hsh, hk⟩ := rotate_spec (d := d) (A := t) (B := p) (C := paint .black r)
    (x := x) (y := z) (c := .black) (e := c) (π := π)
    (by simpa [fill_cons, bin_flip] using h₃)
  have hk' : Keeps h h' := (((Keeps.putColor h z c).trans (Keeps.putColor _ x .black)).trans
    (Keeps.putColor _ _ .black)).trans hk
  refine ⟨h', ?_, hk', hsh⟩
  simp only [deleteFarNephew, getParent_eq h t0, hx, ok_bind, getColor_eq h x0, x2,
    setColor_eq _ _ z0, setColor_eq _ _ x0, getChild_eq _ _ z0, putColor_child, z5,
    setColor_eq _ _ r0, he]

/-- A round with a black sibling moves the deficiency up, or repairs the tree and ends at the
root. -/
theorem deleteBlackSibling_spec {c' : Color} {n : ℕ}
    (hs : h.Shape (fill (⟨d, c, x, bin d .black p z q⟩ :: π) t))
    (hp : h.Points (⟨d, c, x, bin d .black p z q⟩ :: π) t) (ht : Balanced t .black n)
    (hπ : Accepts (⟨d, c, x, bin d .black p z q⟩ :: π) c' (n + 1)) :
    ∃ h' temp, deleteBlackSibling d h (t.ptr h.sentinel) z = .ok (h', temp) ∧ Keeps h h' ∧
      ((temp = x ∧ h'.Shape (fill π (bin d c t x (bin d .red p z q))) ∧
          Balanced (bin d .black t x (bin d .red p z q)) .black (n + 1) ∧
          Accepts π .black (if c = .black then n + 2 else n + 1)) ∨
        (temp = h'.root ∧ ∃ T m, h'.Shape T ∧ Balanced T .black m ∧
          T.inorder = (fill (⟨d, c, x, bin d .black p z q⟩ :: π) t).inorder)) := by
  have hx := hp _ _ rfl
  have t0 := hs.ptr_ne
  obtain ⟨rp, ⟨x0, -, -, -, -, -, x6, -⟩, -⟩ := hs.split
  obtain ⟨z0, -, -, -, z4, z5, -, -⟩ := hangs_bin.mp x6
  have hsp : h.Shape (fill (⟨d, .black, z, q⟩ :: ⟨d.flip, c, x, t⟩ :: π) p) := by
    simpa [fill_cons, bin_flip] using hs
  have hsq : h.Shape (fill (⟨d.flip, .black, z, p⟩ :: ⟨d.flip, c, x, t⟩ :: π) q) := by
    simpa [fill_cons, bin_flip] using hs
  have hpc := hsp.color_ptr
  have hqc := hsq.color_ptr
  by_cases hb : p.color = .black ∧ q.color = .black
  · -- both nephews are black
    have h₁ : (h.putColor z .red).Shape (fill (⟨d.flip, c, x, t⟩ :: π) (bin d .red p z q)) :=
      Shape.putColor (c := .black) (by simpa [fill_cons, bin_flip] using hs)
    refine ⟨h.putColor z .red, x, ?_, Keeps.putColor h z .red, Or.inl ⟨rfl, ?_, ?_, ?_⟩⟩
    · simp only [deleteBlackSibling, getChild_eq h _ z0, z4, z5, ok_bind, getColor_eq h hsp.ptr_ne,
        hpc, getColor_eq h hsq.ptr_ne, hqc, hb.1, hb.2, and_self, if_true, setColor_eq _ _ z0,
        getParent_eq _ t0, putColor_parent, hx, pure_eq_ok]
    · simpa [fill_cons, bin_flip] using h₁
    · -- a black parent passes the deficiency on, a red one takes it in
      cases c with
      | red => exact (delete_black_nephews_red ht hπ hb.1 hb.2).1
      | black => exact (delete_black_nephews ht hπ hb.1 hb.2).1
    · cases c with
      | red => simpa using (delete_black_nephews_red ht hπ hb.1 hb.2).2
      | black => simpa using (delete_black_nephews ht hπ hb.1 hb.2).2
  · -- a red nephew: it is brought to the far side, and then lifted
    have hfar : ∃ h₁ y u v, deleteNearNephew d h (t.ptr h.sentinel) z = .ok (h₁, y) ∧
        Keeps h h₁ ∧ v.color = .red ∧ h₁.Shape (fill (⟨d, c, x, bin d .black u y v⟩ :: π) t) ∧
        h₁.Points (⟨d, c, x, bin d .black u y v⟩ :: π) t ∧
        Accepts (⟨d, c, x, bin d .black u y v⟩ :: π) .black (n + 1) ∧
        (bin d .black u y v).inorder = (bin d .black p z q).inorder := by
      by_cases hq : q.color = .black
      · have hpr : p.color = .red := by
          cases hc : p.color with
          | red => rfl
          | black => exact absurd ⟨hc, hq⟩ hb
        obtain rfl | ⟨cp, u, y, v, rfl⟩ := leaf_or_bin d p
        · cases hpr
        obtain rfl : cp = .red := by simpa using hpr
        obtain ⟨h₁, he, hk, hs₁⟩ := deleteNearNephew_spec hs hp hq
        refine ⟨h₁, y, u, bin d .red v z q, he, hk, by simp, hs₁, hp.keeps hk rfl hs₁,
          delete_near_nephew hπ hq, ?_⟩
        cases d <;> simp [bin, inorder]
      · have hq' : q.color = .red := by
          cases hc : q.color with
          | red => rfl
          | black => exact absurd hc hq
        refine ⟨h, z, p, q, ?_, Keeps.refl h, hq', hs, hp, hπ.weaken, rfl⟩
        simp only [deleteNearNephew, getChild_eq h _ z0, z5, ok_bind, getColor_eq h hsq.ptr_ne, hqc,
          hq', reduceCtorEq, if_false, pure_eq_ok]
    -- the rotation at `x` makes up for the missing black node: the loop ends at the root
    obtain ⟨h₁, y, u, v, he₁, hk₁, hv, hs₁, hp₁, hπ₁, hin⟩ := hfar
    obtain ⟨h', he, hk, hs'⟩ := deleteFarNephew_spec hs₁ hp₁
    obtain ⟨m, hbal, hacc⟩ := delete_far_nephew ht hπ₁ hv
    obtain ⟨m', hm'⟩ := hacc.fill hbal
    rw [hk₁.sentinel_eq] at he
    refine ⟨h', h'.root, ?_, hk₁.trans hk, Or.inr ⟨rfl, _, m', hs', hm', ?_⟩⟩
    · simp only [deleteBlackSibling, getChild_eq h _ z0, z4, z5, ok_bind, getColor_eq h hsp.ptr_ne,
        hpc, getColor_eq h hsq.ptr_ne, hqc, hb, if_false, he₁, he, pure_eq_ok]
    · rw [fill_cons]
      apply inorder_fill_congr
      cases d
      · simp only [bin, inorder, inorder_paint] at hin ⊢
        rw [← hin]
        simp
      · simp only [bin, inorder, inorder_paint] at hin ⊢
        rw [← hin]
        simp

end Round

/-! ## The loop -/

/-- At the root and at a red focus the loop stops and paints the focus black. -/
theorem deleteLoop_stop {h : Rbtree} {π : Path Ptr} {t : ColorTree Ptr} (hs : h.Shape (fill π t))
    (hstop : π = [] ∨ t.color = .red) (k : ℕ) :
    deleteLoop (k + 1) h (t.ptr h.sentinel) = .ok (h.putColor (t.ptr h.sentinel) .black) := by
  have t0 := hs.ptr_ne
  rw [deleteLoop]
  by_cases hr : t.ptr h.sentinel = h.root
  · rw [if_pos hr, setColor_eq _ _ t0]
  · have hc : t.color = .red := by
      rcases hstop with rfl | hc
      · exact absurd hs.root_eq.symm hr
      · exact hc
    rw [if_neg hr]
    simp only [getColor_eq h t0, hs.color_ptr, hc, ok_bind, if_true, setColor_eq _ _ t0]

/-- **The removal's loop** ends with a balanced tree of the same nodes in the same order. -/
theorem deleteLoop_spec {h : Rbtree} {π : Path Ptr} {t : ColorTree Ptr} {c : Color} {n : ℕ}
    (hs : h.Shape (fill π t)) (hp : h.Points π t) (ht : Balanced t .black n)
    (hπ : Accepts π c (n + 1)) :
    ∃ h' T, (∀ fuel, π.length + 1 < fuel → deleteLoop fuel h (t.ptr h.sentinel) = .ok h') ∧
      h'.Shape T ∧ T.inorder = (fill π t).inorder ∧ (∃ m, Balanced T .black m) ∧ Keeps h h' := by
  induction hlen : π.length using Nat.strongRecOn generalizing h π t c n with
  | _ len ih =>
    cases π with
    | nil =>
      have hs' := hs.paint (c := .black) (fun _ => rfl)
      refine ⟨_, _, fun fuel hf => ?_, hs', by simp, ?_, Keeps.putColor h _ .black⟩
      · obtain ⟨k, rfl⟩ : ∃ k, fuel = k + 1 := ⟨fuel - 1, by omega⟩
        exact deleteLoop_stop hs (Or.inl rfl) k
      · exact ht.exists_paint_black
    | cons f ρ =>
      obtain ⟨d, cf, x, w⟩ := f
      have hroot := hs.root_ne
      have t0 := hs.ptr_ne
      have htc : h.color (t.ptr h.sentinel) = .black := hs.color_ptr.trans ht.color_eq
      have hx := hp _ _ rfl
      obtain ⟨rp, ⟨x0, -, -, -, -, x5, -, -⟩, -⟩ := hs.split
      have hwl : w ≠ leaf := sibling_ne_leaf hπ
      have hside := hs.side_eq (Or.inr hwl)
      simp only at hside
      have hround : ∀ k, deleteLoop (k + 1) h (t.ptr h.sentinel) =
          (deleteSide d h (t.ptr h.sentinel) >>= fun r => deleteLoop k r.1 r.2) := by
        intro k
        rw [deleteLoop, if_neg hroot]
        simp only [getColor_eq h t0, htc, ok_bind, reduceCtorEq, if_false, getParent_eq h t0, hx,
          getChild_eq h _ x0, hside]
      -- after the red-sibling step the sibling is black and non-empty
      obtain ⟨h₁, c₁, z, p, q, σ, he₁, hk₁, hs₁, hp₁, hπ₁, hσ, hin₁⟩ :
          ∃ h₁ c₁ z p q σ, deleteSide d h (t.ptr h.sentinel) =
              deleteBlackSibling d h₁ (t.ptr h.sentinel) z ∧ Keeps h h₁ ∧
            h₁.Shape (fill (⟨d, c₁, x, bin d .black p z q⟩ :: σ) t) ∧
            h₁.Points (⟨d, c₁, x, bin d .black p z q⟩ :: σ) t ∧
            Accepts (⟨d, c₁, x, bin d .black p z q⟩ :: σ) .black (n + 1) ∧
            (c₁ = .black → σ = ρ) ∧
            (fill (⟨d, c₁, x, bin d .black p z q⟩ :: σ) t).inorder =
              (fill (⟨d, cf, x, w⟩ :: ρ) t).inorder := by
        obtain rfl | ⟨cw, p, z, q, rfl⟩ := leaf_or_bin d w
        · exact absurd rfl hwl
        obtain ⟨rp, ⟨-, -, -, -, -, -, x6, -⟩, -⟩ := hs.split
        obtain ⟨z0, -, z2, -⟩ := hangs_bin.mp x6
        rw [ptr_bin] at x5
        cases cw with
        | red =>
          obtain ⟨hcf, hπ'⟩ := delete_red_sibling hπ
          subst hcf
          obtain ⟨h₁, he, hk, hs₁⟩ := deleteRedSibling_spec hs hp
          have hpl : p ≠ leaf := sibling_ne_leaf hπ'
          obtain rfl | ⟨cp, u, y, v, rfl⟩ := leaf_or_bin d p
          · exact absurd rfl hpl
          obtain rfl : cp = .black := by simpa using (hπ'.of_red).1.color_eq
          refine ⟨h₁, .red, y, u, v, ⟨d, .black, z, q⟩ :: ρ, ?_, hk, hs₁, hp.keeps hk rfl hs₁, hπ',
            fun hc => Color.noConfusion hc, ?_⟩
          · simp only [deleteSide, getParent_eq h t0, hx, ok_bind, getChild_eq h _ x0, x5, he,
              ptr_bin]
          · rw [fill_cons, fill_cons, fill_cons]
            apply inorder_fill_congr
            cases d <;> simp [bin, inorder]
        | black =>
          refine ⟨h, cf, z, p, q, ρ, ?_, Keeps.refl h, hs, hp, hπ.weaken, fun _ => rfl, rfl⟩
          simp only [deleteSide, getParent_eq h t0, hx, ok_bind, getChild_eq h _ x0, x5,
            deleteRedSibling, getColor_eq h z0, z2, reduceCtorEq, if_false, pure_eq_ok]
      obtain ⟨h₂, temp, he₂, hk₂, hres⟩ := deleteBlackSibling_spec hs₁ hp₁ ht hπ₁
      rw [hk₁.sentinel_eq] at he₂
      have hround' : ∀ k, deleteLoop (k + 1) h (t.ptr h.sentinel) = deleteLoop k h₂ temp := by
        intro k
        rw [hround, he₁, he₂]
        rfl
      rcases hres with ⟨rfl, hs₂, hb₂, hσ₂⟩ | ⟨rfl, T, m, hs₂, hb₂, hin₂⟩
      · cases c₁ with
        | red =>
          -- the new focus is red: it is painted black and the loop stops
          have hs₃ := hs₂.paint (c := .black) (fun _ => rfl)
          rw [ptr_bin, paint_bin] at hs₃
          obtain ⟨m, hm⟩ := hσ₂.fill (by simpa using hb₂)
          refine ⟨_, _, fun fuel hf => ?_, hs₃, ?_, ⟨m, hm⟩,
            (hk₁.trans hk₂).trans (Keeps.putColor _ _ .black)⟩
          · obtain ⟨k, rfl⟩ : ∃ k, fuel = k + 2 := ⟨fuel - 2, by simp at hlen; omega⟩
            rw [hround']
            simpa using deleteLoop_stop hs₂ (Or.inr (by simp)) k
          · rw [← hin₁, fill_cons]
            apply inorder_fill_congr
            cases d <;> simp [bin, inorder]
        | black =>
          -- the deficiency moved up one frame
          obtain rfl := hσ rfl
          obtain ⟨h', T, hrun, hsh, hin, hbal, hk'⟩ := ih σ.length (by simp at hlen; omega) hs₂
            (hs₂.points (bin_ne_leaf _ _ _ _ _)) hb₂ hσ₂ rfl
          refine ⟨h', T, fun fuel hf => ?_, hsh, ?_, hbal, (hk₁.trans hk₂).trans hk'⟩
          · obtain ⟨k, rfl⟩ : ∃ k, fuel = k + 1 := ⟨fuel - 1, by omega⟩
            rw [hround']
            simpa using hrun k (by simp at hlen; omega)
          · rw [hin, ← hin₁, fill_cons]
            apply inorder_fill_congr
            cases d <;> simp [bin, inorder]
      · -- the tree is repaired, and the loop stops at the root
        have hs₃ := Shape.paint (π := []) (c := .black) hs₂ (fun _ => rfl)
        have hr : T.ptr h₂.sentinel = h₂.root := hs₂.root_eq.symm
        rw [hr] at hs₃
        refine ⟨_, _, fun fuel hf => ?_, hs₃, ?_, hb₂.exists_paint_black,
          (hk₁.trans hk₂).trans (Keeps.putColor _ _ .black)⟩
        · obtain ⟨k, rfl⟩ : ∃ k, fuel = k + 2 := ⟨fuel - 2, by simp at hlen; omega⟩
          rw [hround', ← hr]
          exact deleteLoop_stop (π := []) hs₂ (Or.inl rfl) k
        · rw [fill_nil, inorder_paint, hin₂, hin₁]

end Rbtree
