import Mathlib.Tactic.Common
import Mathlib.Data.List.Nodup
import Mathlib.Data.List.Pairwise

/-!
# Red-black trees under a moving focus

A rebalancing loop climbs from a leaf towards the root. Its position is a path, the list of the
frames above the focus, and every step of the loop rewrites the focus and the nearest frames. Each
step has a mirror image: `bin d` builds a node by the side `d` its first subtree stands on, so
that both images are one statement.

## Main definitions

* `ColorTree α`, `Frame α`, `Path α`: coloured trees, and the context of a subtree
* `ColorTree.bin d c t a u`: the node with `t` on the side `d`
* `fill π t`: the tree with the subtree `t` at the path `π`
* `ColorTree.Balanced t c n`: no red node has a red child, and every path has `n` black nodes
* `Accepts π c n`: filling `π` with a tree of root colour `c` and black height `n` is balanced

## Main results

* `Accepts.fill`: a balanced tree fills a path that accepts it
* `insert_recolor`, `insert_rotate_outer`, `insert_rotate_inner`: the steps of an insertion
* `delete_red_sibling`, `delete_black_nephews`, `delete_near_nephew`, `delete_far_nephew`: the
  steps of a removal
* `before_le_of_search`, `lt_after_of_search`: a path found by search separates the sequence
-/

namespace RedBlack

inductive Color
  | red
  | black
  deriving DecidableEq, Repr

inductive Dir
  | left
  | right
  deriving DecidableEq, Repr

/-- The opposite side. -/
def Dir.flip : Dir → Dir
  | .left => .right
  | .right => .left

@[simp] theorem Dir.flip_flip (d : Dir) : d.flip.flip = d := by cases d <;> rfl

@[simp] theorem Dir.flip_ne (d : Dir) : d.flip ≠ d := by cases d <;> decide

@[simp] theorem Dir.ne_flip (d : Dir) : d ≠ d.flip := by cases d <;> decide

theorem Dir.eq_or_flip (d e : Dir) : e = d ∨ e = d.flip := by
  cases d <;> cases e <;> decide

variable {α : Type}

inductive ColorTree (α : Type)
  | leaf
  | node (c : Color) (l : ColorTree α) (a : α) (r : ColorTree α)
  deriving DecidableEq, Repr

namespace ColorTree

/-- The node whose subtree on the side `d` is `t`, and on the other side `u`. -/
def bin (d : Dir) (c : Color) (t : ColorTree α) (a : α) (u : ColorTree α) : ColorTree α :=
  match d with
  | .left => .node c t a u
  | .right => .node c u a t

theorem bin_flip (d : Dir) (c : Color) (t : ColorTree α) (a : α) (u : ColorTree α) :
    bin d.flip c t a u = bin d c u a t := by cases d <;> rfl

/-- Every tree is a leaf or a node read from the side `d`. -/
theorem leaf_or_bin (d : Dir) (t : ColorTree α) :
    t = leaf ∨ ∃ c p a q, t = bin d c p a q := by
  cases t with
  | leaf => exact Or.inl rfl
  | node c l a r =>
    cases d with
    | left => exact Or.inr ⟨c, l, a, r, rfl⟩
    | right => exact Or.inr ⟨c, r, a, l, rfl⟩

@[simp] theorem bin_ne_leaf (d : Dir) (c : Color) (t : ColorTree α) (a : α) (u : ColorTree α) :
    bin d c t a u ≠ leaf := by cases d <;> simp [bin]

/-- The colour of the root; a leaf counts as black. -/
def color : ColorTree α → Color
  | leaf => .black
  | node c _ _ _ => c

@[simp] theorem color_bin (d : Dir) (c : Color) (t : ColorTree α) (a : α) (u : ColorTree α) :
    (bin d c t a u).color = c := by cases d <;> rfl

/-- The tree with its root painted in the colour `c`. -/
def paint (c : Color) : ColorTree α → ColorTree α
  | leaf => leaf
  | node _ l a r => node c l a r

@[simp] theorem paint_leaf (c : Color) : paint c (leaf : ColorTree α) = leaf := rfl

@[simp] theorem paint_bin (c' : Color) (d : Dir) (c : Color) (t : ColorTree α) (a : α)
    (u : ColorTree α) : paint c' (bin d c t a u) = bin d c' t a u := by cases d <;> rfl

/-- The items from left to right. -/
def inorder : ColorTree α → List α
  | leaf => []
  | node _ l a r => l.inorder ++ a :: r.inorder

@[simp] theorem inorder_leaf : (leaf : ColorTree α).inorder = [] := rfl

@[simp] theorem inorder_paint (c : Color) (t : ColorTree α) : (paint c t).inorder = t.inorder := by
  cases t <;> rfl

theorem mem_inorder_bin {d : Dir} {c : Color} {t u : ColorTree α} {a x : α} :
    x ∈ (bin d c t a u).inorder ↔ x ∈ t.inorder ∨ x = a ∨ x ∈ u.inorder := by
  cases d with
  | left => simp [bin, inorder]
  | right =>
    simp only [bin, inorder, List.mem_append, List.mem_cons]
    tauto

/-- The number of nodes on the longest path. -/
def height : ColorTree α → ℕ
  | leaf => 0
  | node _ l _ r => max l.height r.height + 1

theorem height_lt_bin (d : Dir) (c : Color) (t : ColorTree α) (a : α) (u : ColorTree α) :
    t.height < (bin d c t a u).height := by
  cases d
  · simp only [bin, height]
    omega
  · simp only [bin, height]
    omega

/-- The invariant of a red-black tree with root colour `c` and `n` black nodes on every path. -/
inductive Balanced : ColorTree α → Color → ℕ → Prop
  | leaf : Balanced leaf .black 0
  | red {l a r n} : Balanced l .black n → Balanced r .black n → Balanced (node .red l a r) .red n
  | black {l a r c₁ c₂ n} : Balanced l c₁ n → Balanced r c₂ n →
      Balanced (node .black l a r) .black (n + 1)

theorem Balanced.color_eq {t : ColorTree α} {c : Color} {n : ℕ} (h : Balanced t c n) :
    t.color = c := by cases h <;> rfl

theorem balanced_bin_red {d : Dir} {t u : ColorTree α} {a : α} {c : Color} {n : ℕ} :
    Balanced (bin d .red t a u) c n ↔ c = .red ∧ Balanced t .black n ∧ Balanced u .black n := by
  constructor
  · intro h
    cases d <;> cases h <;> simp_all
  · rintro ⟨rfl, ht, hu⟩
    cases d
    · exact .red ht hu
    · exact .red hu ht

theorem balanced_bin_black {d : Dir} {t u : ColorTree α} {a : α} {c : Color} {n : ℕ} :
    Balanced (bin d .black t a u) c n ↔
      c = .black ∧ ∃ m c₁ c₂, n = m + 1 ∧ Balanced t c₁ m ∧ Balanced u c₂ m := by
  constructor
  · intro h
    cases d <;> cases h with
    | black h₁ h₂ => exact ⟨rfl, _, _, _, rfl, by assumption, by assumption⟩
  · rintro ⟨rfl, m, c₁, c₂, rfl, ht, hu⟩
    cases d
    · exact .black ht hu
    · exact .black hu ht

/-- A red root painted black adds one black node to every path. -/
theorem Balanced.paint_black {t : ColorTree α} {n : ℕ} (h : Balanced t .red n) :
    Balanced (paint .black t) .black (n + 1) := by
  cases h with
  | red hl hr => exact .black hl hr

/-- Painting the root black keeps a balanced tree balanced. -/
theorem Balanced.exists_paint_black {t : ColorTree α} {c : Color} {n : ℕ} (h : Balanced t c n) :
    ∃ m, Balanced (paint .black t) .black m := by
  cases h with
  | leaf => exact ⟨0, .leaf⟩
  | red hl hr => exact ⟨_, .black hl hr⟩
  | black hl hr => exact ⟨_, .black hl hr⟩

/-- No red node has a red child. -/
def NoRedRed : ColorTree α → Prop
  | leaf => True
  | node c l _ r => (c = .red → l.color = .black ∧ r.color = .black) ∧ l.NoRedRed ∧ r.NoRedRed

/-- The number of black nodes on each path from the root to a leaf. -/
def blackCounts : ColorTree α → List ℕ
  | leaf => [0]
  | node c l _ r => (l.blackCounts ++ r.blackCounts).map (· + if c = .black then 1 else 0)

theorem Balanced.noRedRed {t : ColorTree α} {c : Color} {n : ℕ} (h : Balanced t c n) :
    t.NoRedRed := by
  induction h with
  | leaf => trivial
  | red hl hr ihl ihr => exact ⟨fun _ => ⟨hl.color_eq, hr.color_eq⟩, ihl, ihr⟩
  | black hl hr ihl ihr => exact ⟨fun h => (Color.noConfusion h), ihl, ihr⟩

theorem Balanced.blackCounts_eq {t : ColorTree α} {c : Color} {n : ℕ} (h : Balanced t c n) :
    ∀ m ∈ t.blackCounts, m = n := by
  induction h with
  | leaf => simp [blackCounts]
  | red hl hr ihl ihr =>
    intro m hm
    simp only [blackCounts, List.mem_map, List.mem_append] at hm
    obtain ⟨k, hk | hk, rfl⟩ := hm
    · simpa using ihl k hk
    · simpa using ihr k hk
  | black hl hr ihl ihr =>
    intro m hm
    simp only [blackCounts, List.mem_map, List.mem_append] at hm
    obtain ⟨k, hk | hk, rfl⟩ := hm
    · simpa using ihl k hk
    · simpa using ihr k hk

end ColorTree

open ColorTree

/-- One step of a path: the hole is the subtree on the side `dir`. -/
structure Frame (α : Type) where
  dir : Dir
  color : Color
  item : α
  sibling : ColorTree α

/-- The frames above the hole, innermost first. -/
abbrev Path (α : Type) := List (Frame α)

/-- The tree with the subtree `t` at the path `π`. -/
def fill : Path α → ColorTree α → ColorTree α
  | [], t => t
  | f :: π, t => fill π (bin f.dir f.color t f.item f.sibling)

@[simp] theorem fill_nil (t : ColorTree α) : fill [] t = t := rfl

theorem fill_cons (f : Frame α) (π : Path α) (t : ColorTree α) :
    fill (f :: π) t = fill π (bin f.dir f.color t f.item f.sibling) := rfl

theorem fill_append (π ρ : Path α) (t : ColorTree α) : fill (π ++ ρ) t = fill ρ (fill π t) := by
  induction π generalizing t with
  | nil => rfl
  | cons f π ih => simp only [List.cons_append, fill_cons, ih]

/-- The items to the left of the hole. -/
def before : Path α → List α
  | [] => []
  | ⟨.left, _, _, _⟩ :: π => before π
  | ⟨.right, _, a, u⟩ :: π => before π ++ (u.inorder ++ [a])

/-- The items to the right of the hole. -/
def after : Path α → List α
  | [] => []
  | ⟨.left, _, a, u⟩ :: π => a :: u.inorder ++ after π
  | ⟨.right, _, _, _⟩ :: π => after π

theorem inorder_fill (π : Path α) (t : ColorTree α) :
    (fill π t).inorder = before π ++ t.inorder ++ after π := by
  induction π generalizing t with
  | nil => simp [before, after]
  | cons f π ih =>
    obtain ⟨d, c, a, u⟩ := f
    cases d <;> simp [fill_cons, ih, before, after, bin, inorder]

theorem inorder_fill_congr {π : Path α} {t u : ColorTree α} (h : t.inorder = u.inorder) :
    (fill π t).inorder = (fill π u).inorder := by
  rw [inorder_fill, inorder_fill, h]

/-- The items of a path. -/
def items (π : Path α) : List α := before π ++ after π

theorem mem_items_cons {f : Frame α} {π : Path α} {x : α} :
    x ∈ items (f :: π) ↔ x = f.item ∨ x ∈ f.sibling.inorder ∨ x ∈ items π := by
  obtain ⟨d, c, a, u⟩ := f
  cases d <;> simp [items, before, after] <;> tauto

theorem item_mem_items {f : Frame α} {π : Path α} (h : f ∈ π) : f.item ∈ items π := by
  induction π with
  | nil => cases h
  | cons g π ih =>
    rcases List.mem_cons.mp h with rfl | h
    · exact mem_items_cons.mpr (Or.inl rfl)
    · exact mem_items_cons.mpr (Or.inr (Or.inr (ih h)))

@[simp] theorem items_nil : items ([] : Path α) = [] := rfl

theorem mem_inorder_fill {π : Path α} {t : ColorTree α} {x : α} :
    x ∈ (fill π t).inorder ↔ x ∈ items π ∨ x ∈ t.inorder := by
  simp only [inorder_fill, items, List.mem_append]
  tauto

theorem nodup_inorder_fill {π : Path α} {t : ColorTree α} :
    (fill π t).inorder.Nodup ↔
      (items π).Nodup ∧ t.inorder.Nodup ∧ ∀ x ∈ t.inorder, x ∉ items π := by
  rw [inorder_fill]
  have hp : (before π ++ t.inorder ++ after π).Perm (items π ++ t.inorder) := by
    rw [List.append_assoc, items, List.append_assoc]
    exact List.Perm.append_left _ List.perm_append_comm
  rw [hp.nodup_iff, List.nodup_append']
  constructor
  · rintro ⟨h₁, h₂, h₃⟩
    exact ⟨h₁, h₂, fun x hx hi => h₃ hi hx⟩
  · rintro ⟨h₁, h₂, h₃⟩
    exact ⟨h₁, h₂, fun x hi hx => h₃ x hx hi⟩

theorem nodup_inorder_bin {d : Dir} {c : Color} {t u : ColorTree α} {a : α} :
    (bin d c t a u).inorder.Nodup ↔
      t.inorder.Nodup ∧ u.inorder.Nodup ∧ a ∉ t.inorder ∧ a ∉ u.inorder ∧
        ∀ x ∈ t.inorder, x ∉ u.inorder := by
  cases d with
  | left =>
    simp only [bin, inorder, List.nodup_append', List.nodup_cons, List.disjoint_cons_right]
    simp only [List.Disjoint]
    tauto
  | right =>
    simp only [bin, inorder, List.nodup_append', List.nodup_cons, List.disjoint_cons_right]
    simp only [List.Disjoint]
    tauto

/-- Every item of a tree is the root of the subtree at some path. -/
theorem exists_path {t : ColorTree α} {a : α} (h : a ∈ t.inorder) :
    ∃ π c l r, t = fill π (.node c l a r) := by
  induction t with
  | leaf => simp at h
  | node c l b r ihl ihr =>
    simp only [inorder, List.mem_append, List.mem_cons] at h
    rcases h with h | rfl | h
    · obtain ⟨π, c', l', r', rfl⟩ := ihl h
      exact ⟨π ++ [⟨.left, c, b, r⟩], c', l', r', by rw [fill_append]; rfl⟩
    · exact ⟨[], c, l, r, rfl⟩
    · obtain ⟨π, c', l', r', rfl⟩ := ihr h
      exact ⟨π ++ [⟨.right, c, b, l⟩], c', l', r', by rw [fill_append]; rfl⟩

/-- Left of a hole reached by left turns only there is nothing. -/
theorem before_eq_nil {π : Path α} (h : ∀ f ∈ π, f.dir = .left) : before π = [] := by
  induction π with
  | nil => rfl
  | cons f π ih =>
    obtain ⟨d, c, a, u⟩ := f
    obtain rfl : d = .left := h _ (List.mem_cons_self ..)
    exact ih fun g hg => h g (List.mem_cons_of_mem _ hg)

/-- Filling `π` with a tree of root colour `c` and black height `n` gives a red-black tree. -/
inductive Accepts : Path α → Color → ℕ → Prop
  | root {n} : Accepts [] .black n
  | red {d a u π n} : Balanced u .black n → Accepts π .red n →
      Accepts (⟨d, .red, a, u⟩ :: π) .black n
  | black {d a u π c c' n} : Balanced u c' n → Accepts π .black (n + 1) →
      Accepts (⟨d, .black, a, u⟩ :: π) c n

/-- A path that accepts a tree accepts a black one of the same black height. -/
theorem Accepts.weaken {π : Path α} {c : Color} {n : ℕ} (h : Accepts π c n) :
    Accepts π .black n := by
  cases h with
  | root => exact .root
  | red hu hπ => exact .red hu hπ
  | black hu hπ => exact .black hu hπ

theorem Accepts.fill {π : Path α} {c : Color} {n : ℕ} (h : Accepts π c n) {t : ColorTree α}
    (ht : Balanced t c n) : ∃ m, Balanced (fill π t) .black m := by
  induction h generalizing t with
  | root => exact ⟨_, ht⟩
  | red hu _ ih => exact ih (balanced_bin_red.mpr ⟨rfl, ht, hu⟩)
  | black hu _ ih => exact ih (balanced_bin_black.mpr ⟨rfl, _, _, _, rfl, ht, hu⟩)

/-- A red frame stands under a path that accepts a red root. -/
theorem Accepts.of_red {d : Dir} {a : α} {u : ColorTree α} {π : Path α} {c : Color} {n : ℕ}
    (h : Accepts (⟨d, .red, a, u⟩ :: π) c n) : Balanced u .black n ∧ Accepts π .red n := by
  cases h with
  | red hu hπ => exact ⟨hu, hπ⟩

theorem Accepts.of_black {d : Dir} {a : α} {u : ColorTree α} {π : Path α} {c : Color} {n : ℕ}
    (h : Accepts (⟨d, .black, a, u⟩ :: π) c n) :
    (∃ c', Balanced u c' n) ∧ Accepts π .black (n + 1) := by
  cases h with
  | black hu hπ => exact ⟨⟨_, hu⟩, hπ⟩

/-- The path above a red root begins with a black frame. -/
theorem Accepts.exists_black {π : Path α} {n : ℕ} (h : Accepts π .red n) :
    ∃ d a u ρ, π = ⟨d, .black, a, u⟩ :: ρ := by
  cases h with
  | black hu hπ => exact ⟨_, _, _, _, rfl⟩

/-- A subtree of a balanced tree is balanced, and its path accepts it. -/
theorem accepts_of_balanced_fill {π : Path α} {t : ColorTree α} {m : ℕ}
    (h : Balanced (fill π t) .black m) : ∃ c n, Balanced t c n ∧ Accepts π c n := by
  induction π generalizing t with
  | nil => exact ⟨_, _, h, .root⟩
  | cons f π ih =>
    obtain ⟨d, c, a, u⟩ := f
    obtain ⟨c', n, hb, hπ⟩ := ih h
    cases c with
    | red =>
      obtain ⟨rfl, ht, hu⟩ := balanced_bin_red.mp hb
      exact ⟨_, _, ht, .red hu hπ⟩
    | black =>
      obtain ⟨rfl, k, c₁, c₂, rfl, ht, hu⟩ := balanced_bin_black.mp hb
      exact ⟨_, _, ht, .black hu hπ⟩

/-! ## The steps of an insertion -/

section Insert

variable {d e : Dir} {x y : α} {t s w p q : ColorTree α} {π : Path α} {c : Color} {n : ℕ}

/-- A red uncle is recoloured with the parent, and the grandparent becomes the red focus. -/
theorem insert_recolor (ht : Balanced t .red n)
    (h : Accepts (⟨d, .red, x, s⟩ :: ⟨e, .black, y, w⟩ :: π) c n) (hw : w.color = .red) :
    Balanced (bin e .red (bin d .black t x s) y (paint .black w)) .red (n + 1) ∧
      Accepts π .black (n + 1) := by
  obtain ⟨hs, h⟩ := h.of_red
  obtain ⟨⟨c', hw'⟩, hπ⟩ := h.of_black
  obtain rfl : c' = .red := hw'.color_eq.symm.trans hw
  refine ⟨balanced_bin_red.mpr ⟨rfl, ?_, hw'.paint_black⟩, hπ⟩
  exact balanced_bin_black.mpr ⟨rfl, n, _, _, rfl, ht, hs⟩

/-- An outer grandchild is lifted by one rotation of the grandparent. -/
theorem insert_rotate_outer (ht : Balanced t .red n)
    (h : Accepts (⟨d, .red, x, s⟩ :: ⟨d, .black, y, w⟩ :: π) c n) (hw : w.color = .black) :
    Balanced (bin d .black t x (bin d .red s y w)) .black (n + 1) ∧ Accepts π .black (n + 1) := by
  obtain ⟨hs, h⟩ := h.of_red
  obtain ⟨⟨c', hw'⟩, hπ⟩ := h.of_black
  obtain rfl : c' = .black := hw'.color_eq.symm.trans hw
  refine ⟨balanced_bin_black.mpr ⟨rfl, n, .red, .red, rfl, ht, ?_⟩, hπ⟩
  exact balanced_bin_red.mpr ⟨rfl, hs, hw'⟩

/-- An inner grandchild is lifted over the parent first, which leaves an outer one. -/
theorem insert_rotate_inner {z : α} (ht : Balanced (bin d .red p z q) .red n)
    (h : Accepts (⟨d.flip, .red, x, s⟩ :: ⟨d, .black, y, w⟩ :: π) c n) :
    Balanced (bin d .red s x p) .red n ∧
      Accepts (⟨d, .red, z, q⟩ :: ⟨d, .black, y, w⟩ :: π) .black n := by
  obtain ⟨-, hp, hq⟩ := balanced_bin_red.mp ht
  obtain ⟨hs, h⟩ := h.of_red
  exact ⟨balanced_bin_red.mpr ⟨rfl, hs, hp⟩, .red hq h⟩

end Insert

/-! ## The steps of a removal

The focus `t` has one black node too few: its path accepts the black height `n + 1`, and `t` has
`n`. -/

section Delete

variable {d : Dir} {x y z : α} {t u w p q r : ColorTree α} {π : Path α} {c c' : Color} {n : ℕ}

/-- The sibling of a deficient focus is a node. -/
theorem sibling_ne_leaf (h : Accepts (⟨d, c, x, w⟩ :: π) c' (n + 1)) : w ≠ leaf := by
  rintro rfl
  cases h with
  | red hu _ => cases hu
  | black hu _ => cases hu

/-- A red sibling is rotated over its parent, which leaves a red parent and a black sibling. -/
theorem delete_red_sibling (h : Accepts (⟨d, c, x, bin d .red p z q⟩ :: π) c' (n + 1)) :
    c = .black ∧ Accepts (⟨d, .red, x, p⟩ :: ⟨d, .black, z, q⟩ :: π) .black (n + 1) := by
  cases c with
  | red =>
    obtain ⟨hw, -⟩ := h.of_red
    exact absurd (balanced_bin_red.mp hw).1 (by decide)
  | black =>
    obtain ⟨⟨c₀, hw⟩, hπ⟩ := h.of_black
    obtain ⟨-, hp, hq⟩ := balanced_bin_red.mp hw
    exact ⟨rfl, .red hp (.black hq hπ)⟩

/-- The black sibling of a deficient focus splits into subtrees of the focus's black height. -/
theorem black_sibling (h : Accepts (⟨d, c, x, bin d .black p z q⟩ :: π) c' (n + 1)) :
    (∃ c₁, Balanced p c₁ n) ∧ (∃ c₂, Balanced q c₂ n) ∧
      Accepts π c (if c = .black then n + 2 else n + 1) := by
  cases c with
  | red =>
    obtain ⟨hw, hπ⟩ := h.of_red
    obtain ⟨-, m, c₁, c₂, hm, hp, hq⟩ := balanced_bin_black.mp hw
    obtain rfl : n = m := by omega
    exact ⟨⟨_, hp⟩, ⟨_, hq⟩, hπ⟩
  | black =>
    obtain ⟨⟨c₀, hw⟩, hπ⟩ := h.of_black
    obtain ⟨-, m, c₁, c₂, hm, hp, hq⟩ := balanced_bin_black.mp hw
    obtain rfl : n = m := by omega
    exact ⟨⟨_, hp⟩, ⟨_, hq⟩, hπ⟩

/-- Under a black parent a sibling with black children is painted red: the deficiency moves up. -/
theorem delete_black_nephews (ht : Balanced t .black n)
    (h : Accepts (⟨d, .black, x, bin d .black p z q⟩ :: π) c' (n + 1))
    (hp : p.color = .black) (hq : q.color = .black) :
    Balanced (bin d .black t x (bin d .red p z q)) .black (n + 1) ∧ Accepts π .black (n + 2) := by
  obtain ⟨⟨c₁, hp'⟩, ⟨c₂, hq'⟩, hπ⟩ := black_sibling h
  obtain rfl : c₁ = .black := hp'.color_eq.symm.trans hp
  obtain rfl : c₂ = .black := hq'.color_eq.symm.trans hq
  refine ⟨balanced_bin_black.mpr ⟨rfl, n, .black, .red, rfl, ht, ?_⟩, by simpa using hπ⟩
  exact balanced_bin_red.mpr ⟨rfl, hp', hq'⟩

/-- Under a red parent the sibling is painted red and the parent black, which repairs the tree. -/
theorem delete_black_nephews_red (ht : Balanced t .black n)
    (h : Accepts (⟨d, .red, x, bin d .black p z q⟩ :: π) c' (n + 1))
    (hp : p.color = .black) (hq : q.color = .black) :
    Balanced (bin d .black t x (bin d .red p z q)) .black (n + 1) ∧ Accepts π .black (n + 1) := by
  obtain ⟨⟨c₁, hp'⟩, ⟨c₂, hq'⟩, hπ⟩ := black_sibling h
  obtain rfl : c₁ = .black := hp'.color_eq.symm.trans hp
  obtain rfl : c₂ = .black := hq'.color_eq.symm.trans hq
  refine ⟨balanced_bin_black.mpr ⟨rfl, n, .black, .red, rfl, ht, ?_⟩, hπ.weaken⟩
  exact balanced_bin_red.mpr ⟨rfl, hp', hq'⟩

/-- A red near nephew is rotated over the sibling, which leaves a red far nephew. -/
theorem delete_near_nephew
    (h : Accepts (⟨d, c, x, bin d .black (bin d .red p y q) z r⟩ :: π) c' (n + 1))
    (hr : r.color = .black) :
    Accepts (⟨d, c, x, bin d .black p y (bin d .red q z r)⟩ :: π) .black (n + 1) := by
  obtain ⟨⟨c₁, hpq⟩, ⟨c₂, hr'⟩, hπ⟩ := black_sibling h
  obtain ⟨-, hp, hq⟩ := balanced_bin_red.mp hpq
  obtain rfl : c₂ = .black := hr'.color_eq.symm.trans hr
  have hw : Balanced (bin d .black p y (bin d .red q z r)) .black (n + 1) :=
    balanced_bin_black.mpr ⟨rfl, n, .black, .red, rfl, hp, balanced_bin_red.mpr ⟨rfl, hq, hr'⟩⟩
  cases c with
  | red => exact .red hw (by simpa using hπ)
  | black => exact .black hw (by simpa using hπ)

/-- A red far nephew is painted black under a rotation of the parent, which repairs the tree. -/
theorem delete_far_nephew (ht : Balanced t .black n)
    (h : Accepts (⟨d, c, x, bin d .black p z r⟩ :: π) c' (n + 1)) (hr : r.color = .red) :
    ∃ m, Balanced (bin d c (bin d .black t x p) z (paint .black r)) c m ∧ Accepts π c m := by
  obtain ⟨⟨c₁, hp⟩, ⟨c₂, hr'⟩, hπ⟩ := black_sibling h
  obtain rfl : c₂ = .red := hr'.color_eq.symm.trans hr
  have hl : Balanced (bin d .black t x p) .black (n + 1) :=
    balanced_bin_black.mpr ⟨rfl, n, _, _, rfl, ht, hp⟩
  cases c with
  | red => exact ⟨n + 1, balanced_bin_red.mpr ⟨rfl, hl, hr'.paint_black⟩, by simpa using hπ⟩
  | black =>
    exact ⟨n + 2, balanced_bin_black.mpr ⟨rfl, n + 1, _, _, rfl, hl, hr'.paint_black⟩,
      by simpa using hπ⟩

end Delete

/-! ## Search -/

section Search

variable (rank : α → ℕ) (k : ℕ)

/-- The path a search for the rank `k` takes: left of every item with a larger rank, right of
every other. -/
def Searched (π : Path α) : Prop :=
  ∀ f ∈ π, (f.dir = .left → k < rank f.item) ∧ (f.dir = .right → rank f.item ≤ k)

variable {rank k}

theorem before_le_of_search {π : Path α} (hs : Searched rank k π)
    (ho : (before π ++ after π).Pairwise fun a b => rank a ≤ rank b) :
    ∀ a ∈ before π, rank a ≤ k := by
  induction π with
  | nil => simp [before]
  | cons f π ih =>
    obtain ⟨d, c, x, u⟩ := f
    have hs' : Searched rank k π := fun g hg => hs g (List.mem_cons_of_mem _ hg)
    have hf := hs ⟨d, c, x, u⟩ (List.mem_cons_self ..)
    cases d with
    | left =>
      refine ih hs' (ho.sublist ?_)
      simp only [before, after]
      exact List.Sublist.append_left (List.sublist_append_right _ _) _
    | right =>
      -- the search went to the right: the item and all to its left are not above the key
      have hx : rank x ≤ k := hf.2 rfl
      have ho' : (before π ++ after π).Pairwise fun a b => rank a ≤ rank b := by
        refine ho.sublist ?_
        simp only [before, after]
        exact List.Sublist.append_right (List.sublist_append_left _ _) _
      intro a ha
      simp only [before, List.mem_append, List.mem_singleton] at ha
      rcases ha with ha | ha | rfl
      · exact ih hs' ho' a ha
      · simp only [before, after, List.append_assoc] at ho
        have hu := (List.pairwise_append.mp (List.pairwise_append.mp ho).2.1).2.2 a ha x (by simp)
        exact Nat.le_trans hu hx
      · exact hx

theorem lt_after_of_search {π : Path α} (hs : Searched rank k π)
    (ho : (before π ++ after π).Pairwise fun a b => rank a ≤ rank b) :
    ∀ a ∈ after π, k < rank a := by
  induction π with
  | nil => simp [after]
  | cons f π ih =>
    obtain ⟨d, c, x, u⟩ := f
    have hs' : Searched rank k π := fun g hg => hs g (List.mem_cons_of_mem _ hg)
    have hf := hs ⟨d, c, x, u⟩ (List.mem_cons_self ..)
    cases d with
    | left =>
      -- the search went to the left: the item and all to its right are above the key
      have hx : k < rank x := hf.1 rfl
      have ho' : (before π ++ after π).Pairwise fun a b => rank a ≤ rank b := by
        refine ho.sublist ?_
        simp only [before, after]
        exact List.Sublist.append_left (List.sublist_append_right _ _) _
      intro a ha
      simp only [after, List.cons_append, List.mem_cons, List.mem_append] at ha
      rcases ha with rfl | ha | ha
      · exact hx
      · simp only [before, after, List.cons_append] at ho
        have hu := (List.pairwise_cons.mp (List.pairwise_append.mp ho).2.1).1 a (by simp [ha])
        exact Nat.lt_of_lt_of_le hx hu
      · exact ih hs' ho' a ha
    | right =>
      refine ih hs' (ho.sublist ?_)
      simp only [before, after]
      exact List.Sublist.append_right (List.sublist_append_left _ _) _

end Search

end RedBlack
