import AgcFramework.Rbtree.Repair

/-!
# Removal

`agc_rbtree_delete` unlinks the node itself when it has a leaf on one side; otherwise it takes the
successor out of the right subtree and puts it in the place of the node. The removed node is
wiped, and a black hole is repaired.

## Main definitions

* `Rbtree.spliced`, `Rbtree.taken`, `Rbtree.wiped`: the memories the parts of a removal leave

## Main results

* `Rbtree.takePlace_spec`: one node takes the place of another
* `Rbtree.unlink_self_spec`, `Rbtree.unlink_successor_spec`: the two unlinkings
* `Rbtree.agcRbtreeDelete_spec`: removal takes the node out of a red-black tree
-/

open RedBlack RedBlack.ColorTree Exec

namespace Rbtree

/-! ## Unlinking -/

/-- The leftmost node of a subtree. -/
theorem agcRbtreeMin_spec {h : Rbtree} {π : Path Ptr} {t : ColorTree Ptr} (hs : h.Shape (fill π t))
    (ht : t ≠ leaf) :
    ∃ ρ c y u, t = fill ρ (.node c leaf y u) ∧ (∀ f ∈ ρ, f.dir = .left) ∧
      ∀ fuel, t.height ≤ fuel → agcRbtreeMin h fuel (t.ptr h.sentinel) = .ok y := by
  induction t generalizing π with
  | leaf => exact absurd rfl ht
  | node c l a r ihl _ =>
    obtain ⟨rp, -, hb⟩ := hs.split
    obtain ⟨a0, -, -, -, a4, -, a6, -⟩ := hb
    have hstep : ∀ k, agcRbtreeMin h (k + 1) a =
        if l.ptr h.sentinel = h.sentinel then .ok a else agcRbtreeMin h k (l.ptr h.sentinel) := by
      intro k
      rw [agcRbtreeMin]
      simp only [getChild_eq h _ a0, a4, ok_bind, pure_eq_ok]
    -- the walk to the left ends where the left child is the sentinel
    by_cases hl : l = leaf
    · subst hl
      refine ⟨[], c, a, r, rfl, by simp, fun fuel hf => ?_⟩
      obtain ⟨k, rfl⟩ : ∃ k, fuel = k + 1 := ⟨fuel - 1, by simp [height] at hf; omega⟩
      exact (hstep k).trans (if_pos rfl)
    · obtain ⟨ρ, c', y, u, hfill, hleft, hrun⟩ := ihl (π := ⟨.left, c, a, r⟩ :: π) hs hl
      refine ⟨ρ ++ [⟨.left, c, a, r⟩], c', y, u, ?_, ?_, fun fuel hf => ?_⟩
      · rw [fill_append, ← hfill]
        rfl
      · intro f hf
        rcases List.mem_append.mp hf with hf | hf
        · exact hleft f hf
        · rw [List.mem_singleton.mp hf]
      · have hne : l.ptr h.sentinel ≠ h.sentinel := (a6.ne _ (ptr_mem hl)).2
        obtain ⟨k, rfl⟩ : ∃ k, fuel = k + 1 := ⟨fuel - 1, by simp [height] at hf; omega⟩
        refine (hstep k).trans ((if_neg hne).trans (hrun k ?_))
        simp only [height] at hf
        omega

/-- The memory after the subtree `u` replaced the focus below `f`. -/
def spliced (h : Rbtree) (f : Frame Ptr) (u : ColorTree Ptr) : Rbtree :=
  (h.putChild f.dir f.item (u.ptr h.sentinel)).putParent (u.ptr h.sentinel) f.item

/-- A node with a leaf on one side is replaced by its other subtree. -/
theorem Shape.spliced {h : Rbtree} {f : Frame Ptr} {π : Path Ptr} {d : Dir} {c : Color} {y : Ptr}
    {u : ColorTree Ptr} (hs : h.Shape (fill (f :: π) (bin d c leaf y u))) :
    (h.spliced f u).Shape (fill (f :: π) u) ∧ (h.spliced f u).Points (f :: π) u := by
  obtain ⟨rp, hπ, hb⟩ := hs.split
  obtain ⟨-, y1, -, -, -, -, -, hu⟩ := hangs_bin.mp hb
  obtain ⟨hn, hnb, hdis⟩ := nodup_inorder_fill.mp hs.nodup
  obtain ⟨-, hnu, -, -, -⟩ := nodup_inorder_bin.mp hnb
  have hdisu : ∀ a ∈ u.inorder, a ∉ items (f :: π) := fun a ha =>
    hdis a (mem_inorder_bin.mpr (Or.inr (Or.inr ha)))
  have hfi : f.item ∈ items (f :: π) := mem_items_cons.mpr (Or.inl rfl)
  -- the parent link of the sentinel may be written, but of no node above the focus
  have hπne : ∀ a ∈ items (f :: π), a ≠ u.ptr h.sentinel := by
    rintro a ha rfl
    by_cases hl : u = leaf
    · obtain ⟨rp', hT⟩ := hs.hangs
      refine (hT.ne _ (mem_inorder_fill.mpr (Or.inl ha))).2 ?_
      rw [hl]
      rfl
    · exact hdisu _ (ptr_mem hl) ha
  have hpar : (h.spliced f u).parent (u.ptr h.sentinel) = f.item := by simp [Rbtree.spliced]
  refine ⟨⟨hs.sentinel_ne, hs.sentinel_black, ?_, ?_, rp, hangs_fill.mpr ⟨?_, ?_⟩⟩, ?_⟩
  · have : (h.spliced f u).root = h.root := rfl
    rw [this, hs.root_eq]
    exact ((ptr_fill_cons _ f π _).2 _).symm
  · exact nodup_inorder_fill.mpr ⟨hn, hnu, hdisu⟩
  · refine hπ.transfer hn rfl (fun _ _ => rfl) (fun a ha => ?_) (fun a ha e hf => ?_) ?_
    · simp [Rbtree.spliced, hπne a ha]
    · have := hf f π rfl
      simp [Rbtree.spliced, this]
    · rintro g ρ he
      obtain ⟨rfl, -⟩ := List.cons.inj he
      simp [Rbtree.spliced]
  · refine hu.transfer hnu rfl (fun _ _ => rfl) (fun a ha e => ?_) (fun a ha hne => ?_)
      (fun _ => hpar)
    · have : a ≠ f.item := by rintro rfl; exact hdisu _ ha hfi
      simp [Rbtree.spliced, this]
    · simp [Rbtree.spliced, hne]
  · rintro g ρ he
    obtain ⟨rfl, -⟩ := List.cons.inj he
    exact hpar

/-- A pointer outside a subtree is not the pointer to it. -/
theorem ne_ptr_of_not_mem {s b : Ptr} {t : ColorTree Ptr} (hb : b ∉ t.inorder) (hs : b ≠ s) :
    b ≠ t.ptr s := by
  rintro rfl
  by_cases ht : t = leaf
  · exact hs (by rw [ht]; rfl)
  · exact hb (ptr_mem ht)

section TakePlace

variable {h : Rbtree} {π : Path Ptr} {c : Color} {l r : ColorTree Ptr} {a y q : Ptr}

/-- The memory after `y` took the links and the colour of the node `a` below `π`. -/
def taken (h : Rbtree) (π : Path Ptr) (c : Color) (l r : ColorTree Ptr) (a y : Ptr) : Rbtree :=
  let h := (h.putChild .left y (l.ptr h.sentinel)).putChild .right y (r.ptr h.sentinel)
  let h := (h.putParent y (h.parent a)).putColor y c
  ((h.hook π y).adopted l y).adopted r y

/-- The addresses that a replacement touches are pairwise distinct. -/
theorem taken_distinct (hs : h.Shape (fill π (.node c l a r)))
    (hy : y ∉ (fill π (.node c l a r)).inorder) :
    a ≠ y ∧ a ∉ items π ∧ y ∉ items π ∧
      (∀ b ∈ l.inorder, b ≠ a ∧ b ≠ y ∧ b ∉ items π ∧ b ∉ r.inorder) ∧
      (∀ b ∈ r.inorder, b ≠ a ∧ b ≠ y ∧ b ∉ items π ∧ b ∉ l.inorder) := by
  obtain ⟨-, hnb, hdis⟩ := nodup_inorder_fill.mp hs.nodup
  obtain ⟨-, -, hal, har, hlr⟩ := (nodup_inorder_bin (d := .left) (c := c)).mp hnb
  simp only [mem_inorder_fill, inorder, List.mem_append, List.mem_cons, not_or] at hy hdis
  obtain ⟨hyπ, hyl, hya, hyr⟩ := hy
  refine ⟨fun he => hya he.symm, hdis a (by tauto), hyπ, fun b hb => ?_, fun b hb => ?_⟩
  · refine ⟨?_, ?_, hdis b (by tauto), hlr b hb⟩
    · rintro rfl; exact hal hb
    · rintro rfl; exact hyl hb
  · refine ⟨?_, ?_, hdis b (by tauto), fun hl => hlr b hl hb⟩
    · rintro rfl; exact har hb
    · rintro rfl; exact hyr hb

/-- The replacement of `a` by `y`, where the root of the right subtree may point anywhere. -/
theorem takePlace_eq (hs : h.Shape (fill π (.node c l a r)))
    (hy : y ∉ (fill π (.node c l a r)).inorder) (y0 : y ≠ 0) :
    takePlace (h.putParent (r.ptr h.sentinel) q) a y =
      .ok (taken (h.putParent (r.ptr h.sentinel) q) π c l r a y) := by
  obtain ⟨hay, haπ, hyπ, hl, hr⟩ := taken_distinct hs hy
  obtain ⟨rp, hπ, a0, a1, a2, a3, a4, a5, a6, a7⟩ := hs.split
  have har : a ≠ r.ptr h.sentinel := ne_ptr_of_not_mem (fun hm => (hr a hm).1 rfl) a1
  obtain ⟨rp', hT⟩ := hs.hangs
  have hπne : ∀ b ∈ items π, b ≠ y ∧ b ≠ r.ptr h.sentinel := by
    intro b hb
    refine ⟨?_, ne_ptr_of_not_mem (fun hm => (hr b hm).2.2.1 hb)
      (hT.ne b (mem_inorder_fill.mpr (Or.inl hb))).2⟩
    rintro rfl; exact hyπ hb
  set g := h.putParent (r.ptr h.sentinel) q with hg
  set g₁ := g.putChild .left y (l.ptr h.sentinel) with hg₁
  set g₂ := g₁.putChild .right y (r.ptr h.sentinel) with hg₂
  set g₃ := g₂.putParent y (g₂.parent a) with hg₃
  set g₄ := g₃.putColor y c with hg₄
  -- the frames are untouched before the redirection
  have hspan : g₄.Spans rp π a := by
    refine hπ.transfer (nodup_inorder_fill.mp hs.nodup).1 rfl (fun b hb => ?_) (fun b hb => ?_)
      (fun b hb d _ => ?_) ?_
    · simp [hg₄, hg₃, hg₂, hg₁, hg, (hπne b hb).1]
    · simp [hg₄, hg₃, hg₂, hg₁, hg, (hπne b hb).1, (hπne b hb).2]
    · simp [hg₄, hg₃, hg₂, hg₁, hg, (hπne b hb).1]
    · rintro f ρ rfl
      have hf := (hπne f.item (mem_items_cons.mpr (Or.inl rfl))).1
      have hc : g₄.child f.dir f.item = h.child f.dir f.item := by
        simp [hg₄, hg₃, hg₂, hg₁, hg, hf]
      exact hc.trans hπ.2.2.2.2.1
  have hred : redirect .left g₄ a y = .ok (g₄.hook π y) := by
    refine redirect_eq hspan ?_ a0 a1 ?_ ?_ haπ
    · simp [hg₄, hg₃, hg₂, hg₁, hg, hay, har, a3]
    · rintro f ρ rfl
      exact hs.root_ne
    · rintro rfl
      exact hs.root_eq.symm
  have hL : (g₄.hook π y).child .left y = l.ptr h.sentinel := by
    simp [hook_child_of_not_mem hyπ, hg₄, hg₃, hg₂, hg₁]
  have hR : (g₄.hook π y).child .right y = r.ptr h.sentinel := by
    simp [hook_child_of_not_mem hyπ, hg₄, hg₃, hg₂]
  have hadl : adopt (g₄.hook π y) (l.ptr h.sentinel) y = .ok ((g₄.hook π y).adopted l y) := by
    simpa [hg₄, hg₃, hg₂, hg₁, hg] using adopt_eq (h := g₄.hook π y) (b := l) (p := y)
      (by simpa [hg₄, hg₃, hg₂, hg₁, hg] using a6.ne)
  have hadr : adopt ((g₄.hook π y).adopted l y) (r.ptr h.sentinel) y =
      .ok (((g₄.hook π y).adopted l y).adopted r y) := by
    simpa [hg₄, hg₃, hg₂, hg₁, hg] using
      adopt_eq (h := (g₄.hook π y).adopted l y) (b := r) (p := y)
        (by simpa [hg₄, hg₃, hg₂, hg₁, hg] using a7.ne)
  have eL : g.child .left a = l.ptr h.sentinel := a4
  have eR : g₁.child .right a = r.ptr h.sentinel := by simp [hg₁, hg, a5]
  have eC : g₃.color a = c := a2
  simp only [takePlace, getChild_eq _ _ a0, eL, ok_bind, setChild_eq _ _ _ y0, ← hg₁, eR, ← hg₂,
    getParent_eq _ a0, setParent_eq _ _ y0, ← hg₃, getColor_eq _ a0, eC, setColor_eq _ _ y0, ← hg₄,
    hred, getChild_eq _ _ y0, hL, hadl, adopted_child, hR, hadr]
  rfl


theorem taken_shape (hs : h.Shape (fill π (.node c l a r)))
    (hy : y ∉ (fill π (.node c l a r)).inorder) (y0 : y ≠ 0) (y1 : y ≠ h.sentinel) :
    (taken (h.putParent (r.ptr h.sentinel) q) π c l r a y).Shape (fill π (.node c l y r)) := by
  obtain ⟨hay, haπ, hyπ, hl, hr⟩ := taken_distinct hs hy
  obtain ⟨rp, hπ, a0, a1, a2, a3, a4, a5, a6, a7⟩ := hs.split
  obtain ⟨hnπ, hnb, hdis⟩ := nodup_inorder_fill.mp hs.nodup
  obtain ⟨hnl, hnr, -⟩ := (nodup_inorder_bin (d := .left) (c := c)).mp hnb
  obtain ⟨rp', hT⟩ := hs.hangs
  have har : a ≠ r.ptr h.sentinel := ne_ptr_of_not_mem (fun hm => (hr a hm).1 rfl) a1
  have hyl : y ≠ l.ptr h.sentinel := ne_ptr_of_not_mem (fun hm => (hl y hm).2.1 rfl) y1
  have hyr : y ≠ r.ptr h.sentinel := ne_ptr_of_not_mem (fun hm => (hr y hm).2.1 rfl) y1
  have hπy : ∀ b ∈ items π, b ≠ y := by rintro b hb rfl; exact hyπ hb
  set h' := taken (h.putParent (r.ptr h.sentinel) q) π c l r a y with hh'
  have es : h'.sentinel = h.sentinel := by simp [hh', taken]
  have ec : ∀ b, b ≠ y → h'.color b = h.color b := by
    intro b hb
    simp [hh', taken, hb]
  have ed : ∀ d b, b ≠ y → b ∉ items π → h'.child d b = h.child d b := by
    intro d b hb hbπ
    simp [hh', taken, hook_child_of_not_mem hbπ, hb]
  -- the parent links that change are those of `y` and of the roots of its subtrees
  have ep : ∀ b, b ≠ y → b ≠ l.ptr h.sentinel → b ≠ r.ptr h.sentinel →
      h'.parent b = h.parent b := by
    intro b hb hbl hbr
    simp [hh', taken, adopted_parent_of_ne_ptr _ _ hbl, adopted_parent_of_ne_ptr _ _ hbr, hb, hbr]
  have hl' : h'.Hangs l y := by
    refine a6.transfer hnl es (fun b hb => ec b (hl b hb).2.1)
      (fun b hb d => ed d b (hl b hb).2.1 (hl b hb).2.2.1) (fun b hb hne => ?_) (fun hll => ?_)
    · exact ep b (hl b hb).2.1 hne (ne_ptr_of_not_mem (hl b hb).2.2.2 (a6.ne b hb).2)
    · have hm := ptr_mem (s := h.sentinel) hll
      simp [hh', taken, adopted_parent_of_ne _ _ (hl _ hm).2.2.2, adopted_parent_ptr _ _ hll]
  have hr' : h'.Hangs r y := by
    refine a7.transfer hnr es (fun b hb => ec b (hr b hb).2.1)
      (fun b hb d => ed d b (hr b hb).2.1 (hr b hb).2.2.1) (fun b hb hne => ?_) (fun hrl => ?_)
    · exact ep b (hr b hb).2.1 (ne_ptr_of_not_mem (hr b hb).2.2.2 (a7.ne b hb).2) hne
    · simp [hh', taken, adopted_parent_ptr _ _ hrl]
  have hπ' : h'.Spans rp π y := by
    refine hπ.transfer hnπ es (fun b hb => ec b (hπy b hb)) (fun b hb => ?_) (fun b hb d hf => ?_)
      ?_
    · have hbs := (hT.ne b (mem_inorder_fill.mpr (Or.inl hb))).2
      exact ep b (hπy b hb) (ne_ptr_of_not_mem (fun hm => (hl b hm).2.2.1 hb) hbs)
        (ne_ptr_of_not_mem (fun hm => (hr b hm).2.2.1 hb) hbs)
    · cases π with
      | nil => simp at hb
      | cons f ρ =>
        have := hf f ρ rfl
        simp [hh', taken, hook, hπy b hb, this]
    · rintro f ρ rfl
      simp [hh', taken, hook]
  have hay' : h'.parent y = above rp π := by
    simp [hh', taken, adopted_parent_of_ne_ptr _ _ hyl, adopted_parent_of_ne_ptr _ _ hyr, har, a3]
  refine ⟨by rw [es]; exact hs.sentinel_ne, ?_, ?_, ?_, rp, hangs_fill.mpr ⟨hπ', ?_⟩⟩
  · rw [es, ec _ y1.symm]
    exact hs.sentinel_black
  · rw [es]
    cases π with
    | nil => simp [hh', taken, hook, RedBlack.ColorTree.ptr]
    | cons f π =>
      have hroot : h'.root = h.root := by simp [hh', taken, hook]
      rw [hroot, hs.root_eq]
      exact ((ptr_fill_cons _ f π _).2 _).symm
  · refine nodup_inorder_fill.mpr ⟨hnπ, ?_, ?_⟩
    · refine (nodup_inorder_bin (d := .left) (c := c)).mpr ⟨hnl, hnr, ?_, ?_, ?_⟩
      · exact fun hm => (hl y hm).2.1 rfl
      · exact fun hm => (hr y hm).2.1 rfl
      · exact fun b hb => (hl b hb).2.2.2
    · intro b hb
      simp only [inorder, List.mem_append, List.mem_cons] at hb
      rcases hb with hb | rfl | hb
      · exact (hl b hb).2.2.1
      · exact hyπ
      · exact (hr b hb).2.2.1
  · refine ⟨y0, by rw [es]; exact y1, ?_, hay', ?_, ?_, hl', hr'⟩
    · simp [hh', taken]
    · rw [es]
      simp [hh', taken, hook_child_of_not_mem hyπ]
    · rw [es]
      simp [hh', taken, hook_child_of_not_mem hyπ]

/-- **Replacement**: `y` takes the place of the node `a`, wherever the root of the right subtree
pointed before. -/
theorem takePlace_spec (hs : h.Shape (fill π (.node c l a r)))
    (hy : y ∉ (fill π (.node c l a r)).inorder) (y0 : y ≠ 0) (y1 : y ≠ h.sentinel) (q : Ptr) :
    ∃ h', takePlace (h.putParent (r.ptr h.sentinel) q) a y = .ok h' ∧
      h'.Shape (fill π (.node c l y r)) ∧ Keeps (h.putParent (r.ptr h.sentinel) q) h' := by
  refine ⟨_, takePlace_eq hs hy y0, taken_shape hs hy y0 y1, by simp [taken], by simp [taken], ?_⟩
  obtain ⟨rp, -, -, -, -, -, -, -, a6, a7⟩ := hs.split
  have hsl : h.sentinel ∉ l.inorder := fun hm => (a6.ne _ hm).2 rfl
  have hsr : h.sentinel ∉ r.inorder := fun hm => (a7.ne _ hm).2 rfl
  simp [taken, adopted_parent_of_ne _ _ hsl, adopted_parent_of_ne _ _ hsr, y1.symm]

end TakePlace

theorem putParent_self (h : Rbtree) (p : Ptr) : h.putParent p (h.parent p) = h := by
  simp [putParent]

/-- A node with a leaf on one side is its own substitute, and its other subtree takes its place. -/
theorem unlink_self_spec {h : Rbtree} {f : Frame Ptr} {π : Path Ptr} {d : Dir} {c : Color} {a : Ptr}
    {u : ColorTree Ptr} (hs : h.Shape (fill (f :: π) (bin d c leaf a u))) :
    unlink h a a (u.ptr h.sentinel) = .ok (h.spliced f u) := by
  have hside := hs.side_eq (Or.inl (bin_ne_leaf _ _ _ _ _))
  obtain ⟨rp, ⟨f0, -⟩, hb⟩ := hs.split
  obtain ⟨a0, -, -, a3, -, -, -, hu⟩ := hangs_bin.mp hb
  have hu0 : u.ptr h.sentinel ≠ 0 := (hs.spliced).1.ptr_ne
  rw [ptr_bin] at hside
  rw [above_cons] at a3
  simp only [unlink, getParent_eq h a0, a3, ok_bind, getChild_eq h _ f0, hside,
    setChild_eq _ _ _ f0, getParent_eq _ a0, putChild_parent, if_true, setParent_eq _ _ hu0]
  rfl

/-- The successor `y` is taken out of the right subtree and put in the place of `a`. -/
theorem unlink_successor_spec {h : Rbtree} {π ρ : Path Ptr} {c c' : Color} {a y : Ptr}
    {l u : ColorTree Ptr} (hs : h.Shape (fill π (.node c l a (fill ρ (.node c' leaf y u))))) :
    ∃ h', unlink h a y (u.ptr h.sentinel) = .ok h' ∧
      h'.Shape (fill (ρ ++ ⟨.right, c, y, l⟩ :: π) u) ∧
      h'.Points (ρ ++ ⟨.right, c, y, l⟩ :: π) u ∧ h'.key = h.key ∧ h'.sentinel = h.sentinel := by
  obtain ⟨f, σ, hσ⟩ : ∃ f σ, ρ ++ ⟨.right, c, a, l⟩ :: π = f :: σ := by
    cases ρ with
    | nil => exact ⟨_, _, rfl⟩
    | cons g ρ => exact ⟨_, _, rfl⟩
  have hs₁ : h.Shape (fill (f :: σ) (bin .left c' leaf y u)) := by
    rw [← hσ, fill_append]
    exact hs
  obtain ⟨hsp, hpt⟩ := hs₁.spliced
  have hside := hs₁.side_eq (Or.inl (bin_ne_leaf _ _ _ _ _))
  obtain ⟨rp, ⟨f0, -⟩, hb⟩ := hs₁.split
  obtain ⟨y0, y1, -, y3, -, -, -, -⟩ := hangs_bin.mp hb
  have hu0 : u.ptr h.sentinel ≠ 0 := hsp.ptr_ne
  rw [ptr_bin] at hside
  rw [above_cons] at y3
  obtain ⟨-, hnb, hdis⟩ := nodup_inorder_fill.mp hs₁.nodup
  obtain ⟨-, -, -, hyu, -⟩ := nodup_inorder_bin.mp hnb
  have hyσ : y ∉ items (f :: σ) := hdis y (mem_inorder_bin.mpr (Or.inr (Or.inl rfl)))
  -- what is left of the tree when `y` is out
  have hfill : fill π (.node c l a (fill ρ u)) = fill (f :: σ) u := by
    rw [← hσ, fill_append]
    rfl
  have hsp' : (h.spliced f u).Shape (fill π (.node c l a (fill ρ u))) := by
    rw [hfill]
    exact hsp
  have hy : y ∉ (fill π (.node c l a (fill ρ u))).inorder := by
    rw [hfill, mem_inorder_fill]
    tauto
  have hya : y ≠ a := fun he => hy (he ▸ mem_inorder_fill.mpr (Or.inr (by simp [inorder])))
  -- the parent field that `y` leaves behind, in its own place or in another's
  obtain ⟨q, hq, hqs⟩ : ∃ q, (h.putChild f.dir f.item (u.ptr h.sentinel)).putParent
        (u.ptr h.sentinel) (if f.item = a then y else f.item) =
          (h.spliced f u).putParent ((fill ρ u).ptr h.sentinel) q ∧
      (u = leaf → ((h.spliced f u).putParent ((fill ρ u).ptr h.sentinel) q).parent h.sentinel =
        above 0 (ρ ++ ⟨.right, c, y, l⟩ :: π)) := by
    cases ρ with
    | nil =>
      obtain ⟨rfl, rfl⟩ := List.cons.inj hσ
      refine ⟨y, ?_, ?_⟩
      · simp [Rbtree.spliced, putParent]
      · rintro rfl
        simp
    | cons g ρ =>
      obtain ⟨rfl, rfl⟩ := List.cons.inj hσ
      obtain ⟨-, hnπ, -⟩ := nodup_inorder_fill.mp hsp'.nodup
      obtain ⟨-, -, -, har, -⟩ := (nodup_inorder_bin (d := .left) (c := c)).mp hnπ
      have hga : g.item ≠ a := by
        rintro rfl
        exact har (mem_inorder_fill.mpr (Or.inl (mem_items_cons.mpr (Or.inl rfl))))
      refine ⟨(h.spliced g u).parent ((fill (g :: ρ) u).ptr h.sentinel), ?_, ?_⟩
      · rw [if_neg hga, putParent_self]
        rfl
      · rintro rfl
        rw [putParent_self]
        exact hpt g _ rfl
  obtain ⟨h', he, hs', hk⟩ := takePlace_spec hsp' hy y0 y1 q
  refine ⟨h', ?_, ?_, ?_, ?_, ?_⟩
  · simp only [unlink, getParent_eq h y0, y3, ok_bind, getChild_eq h _ f0, hside,
      setChild_eq _ _ _ f0, getParent_eq _ y0, putChild_parent, hya, if_false,
      setParent_eq _ _ hu0, hq]
    exact he
  · rw [fill_append]
    exact hs'
  · by_cases hu : u = leaf
    · subst hu
      intro f' σ' hf'
      have hsen : h'.sentinel = h.sentinel := hk.sentinel_eq
      rw [ptr_leaf, hsen]
      refine (hk.parent_sentinel.trans (hqs rfl)).trans ?_
      rw [hf']
      rfl
    · refine Shape.points ?_ hu
      rw [fill_append]
      exact hs'
  · rw [hk.key_eq]
    rfl
  · rw [hk.sentinel_eq]
    rfl

/-- The memory after the removed node `a` was wiped. -/
def wiped (h : Rbtree) (a : Ptr) : Rbtree :=
  (((h.putChild .left a 0).putChild .right a 0).putParent a 0).putKey a 0

theorem wipe_eq (h : Rbtree) {a : Ptr} (a0 : a ≠ 0) : wipe h a = .ok (h.wiped a) := by
  simp only [wipe, setChild_eq _ _ _ a0, ok_bind, setParent_eq _ _ a0, setKey_eq _ _ a0]
  rfl

@[simp] theorem wiped_key (h : Rbtree) (a : Ptr) :
    (h.wiped a).key = Function.update h.key a 0 := rfl

@[simp] theorem wiped_sentinel (h : Rbtree) (a : Ptr) : (h.wiped a).sentinel = h.sentinel := rfl

/-- Wiping a node outside the tree leaves the tree alone. -/
theorem Shape.wiped {h : Rbtree} {T : ColorTree Ptr} {a : Ptr} (hs : h.Shape T)
    (ha : a ∉ T.inorder) : (h.wiped a).Shape T := by
  obtain ⟨rp, hT⟩ := hs.hangs
  have hne : ∀ b ∈ T.inorder, b ≠ a := by rintro b hb rfl; exact ha hb
  refine ⟨hs.sentinel_ne, hs.sentinel_black, hs.root_eq, hs.nodup, rp, ?_⟩
  refine hT.congr rfl (fun _ _ => rfl) (fun b hb d => ?_) (fun b hb => ?_)
  · simp [Rbtree.wiped, hne b hb]
  · simp [Rbtree.wiped, hne b hb]

theorem Points.wiped {h : Rbtree} {π : Path Ptr} {t : ColorTree Ptr} {a : Ptr} (hp : h.Points π t)
    (ha : a ≠ t.ptr h.sentinel) : (h.wiped a).Points π t := by
  intro f ρ hf
  rw [← hp f ρ hf]
  simp [Rbtree.wiped, ha.symm]

/-- The rest of a removal, once a node of colour `c` was taken out above `u`. -/
theorem repair_spec {h : Rbtree} {π : Path Ptr} {u : ColorTree Ptr} {d : Dir} {c : Color} {z : Ptr}
    {m : ℕ} (hs : h.Shape (fill π u)) (hp : h.Points π u)
    (hb : Balanced (fill π (bin d c leaf z u)) .black m) :
    ∃ h' T, (∀ fuel, π.length + 1 < fuel →
        (if c = .red then pure h else deleteLoop fuel h (u.ptr h.sentinel)) = .ok h') ∧
      h'.Shape T ∧ T.inorder = (fill π u).inorder ∧ (∃ m, Balanced T .black m) ∧ Keeps h h' := by
  obtain ⟨c₀, n, hbin, hπ⟩ := accepts_of_balanced_fill hb
  cases c with
  | red =>
    obtain ⟨-, -, hu⟩ := balanced_bin_red.mp hbin
    exact ⟨h, fill π u, fun _ _ => rfl, hs, rfl, hπ.weaken.fill hu, Keeps.refl h⟩
  | black =>
    obtain ⟨-, k, c₁, c₂, rfl, -, hu⟩ := balanced_bin_black.mp hbin
    cases c₂ with
    | red =>
      -- the red subtree is painted black and takes the place of the black node
      refine ⟨_, _, fun fuel hf => ?_, hs.paint (c := .black) (fun _ => rfl), ?_,
        hπ.weaken.fill hu.paint_black, Keeps.putColor h _ .black⟩
      · obtain ⟨j, rfl⟩ : ∃ j, fuel = j + 1 := ⟨fuel - 1, by omega⟩
        exact deleteLoop_stop hs (Or.inr hu.color_eq) j
      · exact inorder_fill_congr (inorder_paint _ _)
    | black => exact deleteLoop_spec hs hp hu hπ

/-- A node with a leaf on one side is its own substitute. -/
theorem chooseSubst_self {h : Rbtree} {π : Path Ptr} {d : Dir} {c : Color} {a : Ptr}
    {u : ColorTree Ptr} (hs : h.Shape (fill π (bin d c leaf a u))) (fuel : ℕ) :
    chooseSubst fuel h a = .ok (a, u.ptr h.sentinel) := by
  obtain ⟨rp, -, hb⟩ := hs.split
  obtain ⟨a0, -, -, -, a4, a5, -, hu⟩ := hangs_bin.mp hb
  simp only [chooseSubst, getChild_eq h _ a0, ok_bind]
  cases d with
  | left =>
    rw [Dir.flip] at a5
    rw [a4, a5, ptr_leaf, if_pos rfl]
    rfl
  | right =>
    rw [Dir.flip] at a5
    rw [a4, a5, ptr_leaf, if_pos rfl]
    by_cases hl : u.ptr h.sentinel = h.sentinel
    · rw [if_pos hl, hl]
      rfl
    · rw [if_neg hl]
      rfl

/-- A node with two children is substituted by the leftmost node of its right subtree. -/
theorem chooseSubst_successor {h : Rbtree} {π : Path Ptr} {c : Color} {a : Ptr}
    {l r : ColorTree Ptr} (hs : h.Shape (fill π (.node c l a r))) (hl : l ≠ leaf) (hr : r ≠ leaf) :
    ∃ ρ c' y u, r = fill ρ (.node c' leaf y u) ∧ (∀ f ∈ ρ, f.dir = .left) ∧
      ∀ fuel, r.height ≤ fuel → chooseSubst fuel h a = .ok (y, u.ptr h.sentinel) := by
  obtain ⟨rp, -, a0, -, -, -, a4, a5, a6, a7⟩ := hs.split
  have hsr : h.Shape (fill (⟨.right, c, a, l⟩ :: π) r) := hs
  obtain ⟨ρ, c', y, u, rfl, hleft, hmin⟩ := agcRbtreeMin_spec hsr hr
  refine ⟨ρ, c', y, u, rfl, hleft, fun fuel hf => ?_⟩
  obtain ⟨-, hy⟩ := hangs_fill.mp a7
  obtain ⟨y0, -, -, -, y4, y5, -, -⟩ := hy
  have hl' : l.ptr h.sentinel ≠ h.sentinel := (a6.ne _ (ptr_mem hl)).2
  have hr' := (a7.ne _ (ptr_mem (s := h.sentinel) hr)).2
  simp only [chooseSubst, getChild_eq h _ a0, ok_bind, a4, a5, hl', hr', if_false, hmin fuel hf,
    getChild_eq h _ y0, y4, y5, ptr_leaf, ne_eq, not_true_eq_false, pure_eq_ok]

/-- A tree is balanced whatever the items at its nodes are. -/
theorem balanced_fill_item {π : Path Ptr} {c : Color} {a b : Ptr} {l r : ColorTree Ptr} {m : ℕ}
    (hb : Balanced (fill π (.node c l a r)) .black m) :
    ∃ m, Balanced (fill π (.node c l b r)) .black m := by
  obtain ⟨c₀, n, hn, hπ⟩ := accepts_of_balanced_fill hb
  refine hπ.fill ?_
  cases hn with
  | red hl hr => exact .red hl hr
  | black hl hr => exact .black hl hr

/-- A node without two children has a leaf on some side. -/
theorem one_child {c : Color} {a : Ptr} {l r : ColorTree Ptr} (h : ¬ (l ≠ leaf ∧ r ≠ leaf)) :
    ∃ d u, ColorTree.node c l a r = bin d c leaf a u ∧ u.inorder = l.inorder ++ r.inorder := by
  by_cases hl : l = leaf
  · exact ⟨.left, r, by rw [hl]; rfl, by simp [hl]⟩
  · have hr : r = leaf := by tauto
    exact ⟨.right, l, by rw [hr]; rfl, by simp [hr]⟩

/-- At the root the other subtree takes the place of the whole tree. -/
theorem Shape.putRoot {h : Rbtree} {d : Dir} {c : Color} {a : Ptr} {u : ColorTree Ptr}
    (hs : h.Shape (bin d c leaf a u)) : (h.putRoot (u.ptr h.sentinel)).Shape u := by
  obtain ⟨rp, hb⟩ := hs.hangs
  obtain ⟨-, -, -, -, -, -, -, hu⟩ := hangs_bin.mp hb
  obtain ⟨-, hnu, -⟩ := nodup_inorder_bin.mp hs.nodup
  exact ⟨hs.sentinel_ne, hs.sentinel_black, rfl, hnu, a,
    hu.congr rfl (fun _ _ => rfl) (fun _ _ _ => rfl) (fun _ _ => rfl)⟩

section Delete

variable {h : Rbtree} {T : ColorTree Ptr} {a : Ptr} {m : ℕ}

/-- A removal below the root, up to the wiping: `subst` was taken out above the subtree `u`. -/
theorem unlink_spec {π : Path Ptr} {c : Color} {l r : ColorTree Ptr}
    (hs : h.Shape (fill π (.node c l a r))) (hb : Balanced (fill π (.node c l a r)) .black m)
    (hroot : π = [] → l ≠ leaf ∧ r ≠ leaf) :
    ∃ n subst cs h₁ σ d z u, (∀ fuel, n ≤ fuel →
        chooseSubst fuel h a = .ok (subst, u.ptr h.sentinel)) ∧
      subst ≠ 0 ∧ subst ≠ h.root ∧ h.color subst = cs ∧
      unlink h a subst (u.ptr h.sentinel) = .ok h₁ ∧ h₁.Shape (fill σ u) ∧ h₁.Points σ u ∧
      h₁.key = h.key ∧ h₁.sentinel = h.sentinel ∧
      (∃ k, Balanced (fill σ (bin d cs leaf z u)) .black k) ∧
      (fill σ u).inorder = before π ++ l.inorder ++ (r.inorder ++ after π) := by
  by_cases hlr : l ≠ leaf ∧ r ≠ leaf
  · -- two children: the successor takes the place of the node
    obtain ⟨hl, hr⟩ := hlr
    obtain ⟨ρ, c', y, u, rfl, hleft, hch⟩ := chooseSubst_successor hs hl hr
    obtain ⟨h₁, he, hs₁, hp₁, hk₁, hn₁⟩ := unlink_successor_spec hs
    have hs' : h.Shape (fill (ρ ++ ⟨.right, c, a, l⟩ :: π) (.node c' leaf y u)) := by
      rw [fill_append]
      exact hs
    obtain ⟨k, hk⟩ := balanced_fill_item (b := y) hb
    refine ⟨_, y, c', h₁, ρ ++ ⟨.right, c, y, l⟩ :: π, .left, y, u, hch, hs'.ptr_ne, ?_,
      hs'.color_ptr, he, hs₁, hp₁, hk₁, hn₁, ⟨k, ?_⟩, ?_⟩
    · -- the successor stands below at least one frame
      cases ρ with
      | nil => exact hs'.root_ne
      | cons g ρ => exact hs'.root_ne
    · rw [fill_append]
      exact hk
    · have hρ := before_eq_nil hleft
      rw [fill_append]
      simp only [fill_cons, bin, inorder_fill, inorder, hρ, List.nil_append, List.append_assoc,
        List.cons_append]
  · -- one child at most: the node is spliced out where it stands
    obtain ⟨d, u, hdu, hin⟩ := one_child (c := c) (a := a) hlr
    cases π with
    | nil => exact absurd (hroot rfl) hlr
    | cons f π =>
      rw [hdu] at hs hb
      obtain ⟨hs₁, hp₁⟩ := hs.spliced
      refine ⟨0, a, c, h.spliced f u, f :: π, d, a, u, fun fuel _ => chooseSubst_self hs fuel, ?_,
        ?_, ?_, unlink_self_spec hs, hs₁, hp₁, rfl, rfl, ⟨m, hb⟩, ?_⟩
      · simpa using hs.ptr_ne
      · simpa using hs.root_ne
      · simpa using hs.color_ptr
      · rw [inorder_fill, hin]
        simp

/-- **Removal** takes the node out of a red-black tree and wipes it. -/
theorem agcRbtreeDelete_spec (hs : h.Shape T) (hb : Balanced T .black m) (ha : a ∈ T.inorder) :
    ∃ h' T', Returns (fun fuel => agcRbtreeDelete fuel h a) h' ∧ h'.Shape T' ∧
      (∃ k, Balanced T' .black k) ∧ h'.key = Function.update h.key a 0 ∧
      h'.sentinel = h.sentinel ∧
      ∃ pre post, T.inorder = pre ++ a :: post ∧ T'.inorder = pre ++ post := by
  obtain ⟨π, c, l, r, rfl⟩ := exists_path ha
  obtain ⟨rp, -, a0, a1, -⟩ := hs.split
  have hT : (fill π (.node c l a r)).inorder =
      (before π ++ l.inorder) ++ a :: (r.inorder ++ after π) := by
    simp [inorder_fill, inorder]
  have hout : a ∉ (before π ++ l.inorder) ++ (r.inorder ++ after π) := by
    have hn := hs.nodup
    rw [hT] at hn
    exact (List.nodup_middle.mp hn).notMem
  by_cases hroot : π = [] → l ≠ leaf ∧ r ≠ leaf
  · obtain ⟨n, subst, cs, h₁, σ, d, z, u, hch, hs0, hsr, hcs, hun, hs₁, hp₁, hk₁, hn₁, ⟨k, hk⟩,
      hin⟩ := unlink_spec hs hb hroot
    rw [← hin] at hout
    -- the node that is wiped is not where the repair starts
    have hau : a ≠ u.ptr h₁.sentinel :=
      ne_ptr_of_not_mem (fun hm => hout (mem_inorder_fill.mpr (Or.inr hm))) (by rw [hn₁]; exact a1)
    obtain ⟨h', T', hrun, hs', hin', hbal, hkeep⟩ :=
      repair_spec (hs₁.wiped hout) (hp₁.wiped hau) hk
    refine ⟨h', T', ⟨max n (σ.length + 2), fun fuel hf => ?_⟩, hs', hbal, ?_, ?_, _, _, hT, ?_⟩
    · have hf₁ : n ≤ fuel := Nat.le_trans (Nat.le_max_left _ _) hf
      have hf₂ : σ.length + 2 ≤ fuel := Nat.le_trans (Nat.le_max_right _ _) hf
      have hend := hrun fuel hf₂
      rw [wiped_sentinel, hn₁] at hend
      simp only [agcRbtreeDelete, hch fuel hf₁, ok_bind, hsr, if_false, getColor_eq h hs0, hcs, hun,
        wipe_eq _ a0, hend]
    · rw [hkeep.key_eq, wiped_key, hk₁]
    · rw [hkeep.sentinel_eq, wiped_sentinel, hn₁]
    · rw [hin', hin]
  · -- the root with one child at most: its child becomes the root and is painted black
    obtain ⟨rfl, hlr⟩ : π = [] ∧ ¬ (l ≠ leaf ∧ r ≠ leaf) := by tauto
    obtain ⟨d, u, hdu, hin⟩ := one_child (c := c) (a := a) hlr
    rw [fill_nil, hdu] at hs hb
    have hs₁ := Shape.paint (π := []) (c := .black) hs.putRoot (fun _ => rfl)
    have hau : a ∉ (paint .black u).inorder := by
      rw [inorder_paint, hin]
      simpa [before, after] using hout
    obtain ⟨c₀, n, hu, -⟩ := accepts_of_balanced_fill (π := [⟨d.flip, c, a, leaf⟩]) (t := u)
      (by simpa [fill_cons, bin_flip] using hb)
    have hroot : a = h.root := by
      rw [hs.root_eq, ptr_bin]
    have hu0 : u.ptr h.sentinel ≠ 0 :=
      Shape.ptr_ne (h := h.putRoot (u.ptr h.sentinel)) (π := []) hs.putRoot
    refine ⟨_, _, ⟨0, fun fuel _ => ?_⟩, hs₁.wiped hau, hu.exists_paint_black, rfl, rfl, _, _, hT,
      ?_⟩
    · simp only [agcRbtreeDelete, chooseSubst_self (π := []) hs fuel, ok_bind, ← hroot, if_true,
        setColor_eq _ _ hu0, wipe_eq _ a0]
      rfl
    · simp [before, after, hin]

end Delete

end Rbtree
