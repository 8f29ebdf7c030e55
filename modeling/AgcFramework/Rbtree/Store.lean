import AgcFramework.Lib.Circular
import AgcFramework.Rbtree.Delete

/-!
# The timer store

The timers are kept in one tree whose insertions compare keys on the 64-bit circle. Abstractly the
store is a finite map from the nodes to their keys; a run of insertions and removals is legal when
it inserts nodes that are not in the map, removes nodes that are, and keeps the keys in a window
shorter than half the circle.

## Main definitions

* `Rbtree.StoreOp`: an insertion or a removal
* `Rbtree.Holds t T m`: the memory `t` holds the red-black tree `T` of the nodes of the map `m`
* `Rbtree.Ordered t T`: the keys of `T` ascend on the circle
* `Rbtree.LegalRun`: the runs of the store

## Main results

* `Rbtree.Holds.insert`, `Rbtree.Holds.delete`: the operations keep the tree in step with the map
* `Rbtree.timer_store_invariant`: every legal run returns a red-black tree of the map's nodes
-/

open RedBlack RedBlack.ColorTree Exec Circular

namespace Rbtree

/-- The nodes in the store, with their keys. -/
abbrev Pending := Ptr → Option Key

/-- An operation on the store: an insertion as `agc_timer_add_timer` makes it, which sets the key
first, or a removal. -/
inductive StoreOp
  | insert (node : Ptr) (key : Key)
  | delete (node : Ptr)

/-- The code of an operation. -/
def StoreOp.exec (fuel : ℕ) (t : Rbtree) : StoreOp → Exec Rbtree
  | insert a k => do
    let t ← t.setKey a k
    agcRbtreeInsert agcRbtreeInsertTimerValue fuel t a
  | delete a => agcRbtreeDelete fuel t a

/-- The code of a run. -/
def storeRun (fuel : ℕ) (t : Rbtree) (ops : List StoreOp) : Exec Rbtree :=
  ops.foldlM (StoreOp.exec fuel) t

/-- What an operation is to do to the map. -/
def StoreOp.apply (m : Pending) : StoreOp → Pending
  | insert a k => Function.update m a (some k)
  | delete a => Function.update m a none

/-- An operation with the sentinel `s` may be made: a node is inserted when it is not in the store
and removed when it is. -/
def StoreOp.Legal (s : Ptr) (m : Pending) : StoreOp → Prop
  | insert a _ => a ≠ 0 ∧ a ≠ s ∧ m a = none
  | delete a => m a ≠ none

instance (s : Ptr) (m : Pending) : (op : StoreOp) → Decidable (op.Legal s m)
  | .insert a _ => inferInstanceAs (Decidable (a ≠ 0 ∧ a ≠ s ∧ m a = none))
  | .delete a => inferInstanceAs (Decidable (m a ≠ none))

/-- The keys present in the store. -/
def Pending.keys (m : Pending) : Set Key := {k | ∃ a, m a = some k}

/-- A run of legal operations that keeps the keys present at any one time in a window. -/
inductive LegalRun (s : Ptr) : Pending → List StoreOp → Prop
  | nil {m : Pending} : LegalRun s m []
  | cons {m : Pending} {op : StoreOp} {ops : List StoreOp} : op.Legal s m →
      Window (op.apply m).keys → LegalRun s (op.apply m) ops → LegalRun s m (op :: ops)

/-- The memory `t` holds the red-black tree `T`, whose nodes are those of `m` with their keys. -/
structure Holds (t : Rbtree) (T : ColorTree Ptr) (m : Pending) : Prop where
  shape : t.Shape T
  balanced : ∃ n, Balanced T .black n
  nodes : ∀ a, a ∈ T.inorder ↔ m a ≠ none
  keys : ∀ a k, m a = some k → t.key a = k

/-- The keys of the tree ascend on the circle. -/
def Ordered (t : Rbtree) (T : ColorTree Ptr) : Prop :=
  T.inorder.Pairwise fun a b => 0 ≤ (t.key b - t.key a).toInt

section Operations

variable {t : Rbtree} {T : ColorTree Ptr} {m : Pending} {a : Ptr} {k : Key}

/-- The empty store after `agc_rbtree_init`. -/
theorem holds_init (t : Rbtree) {s : Ptr} (hs : s ≠ 0) :
    (agcRbtreeInit t s).Holds leaf fun _ => none := by
  refine ⟨⟨hs, ?_, rfl, List.nodup_nil, 0, trivial⟩, ⟨0, .leaf⟩, by simp, by simp⟩
  simp [agcRbtreeInit]

theorem Holds.key_eq (h : t.Holds T m) (ha : a ∈ T.inorder) : m a = some (t.key a) := by
  obtain ⟨k, hk⟩ := Option.ne_none_iff_exists'.mp ((h.nodes a).mp ha)
  rw [hk, h.keys a k hk]

/-- Setting the key of a node outside the tree leaves the tree alone. -/
theorem Holds.putKey (h : t.Holds T m) (ha : m a = none) (k : Key) : (t.putKey a k).Holds T m := by
  obtain ⟨⟨h1, h2, h3, h4, rp, h5⟩, hb, hn, hk⟩ := h
  refine ⟨⟨h1, h2, h3, h4, rp, h5.congr rfl (fun _ _ => rfl) (fun _ _ _ => rfl) fun _ _ => rfl⟩,
    hb, hn, fun b k' hb' => ?_⟩
  have hne : b ≠ a := by
    rintro rfl
    rw [ha] at hb'
    cases hb'
  simpa [hne] using hk b k' hb'

theorem Holds.insert (h : t.Holds T m) (ha0 : a ≠ 0) (has : a ≠ t.sentinel) (ha : m a = none)
    (k : Key) :
    ∃ t' T' ρ, Returns (fun fuel => StoreOp.exec fuel t (.insert a k)) t' ∧
      t'.Holds T' (Function.update m a (some k)) ∧ t'.sentinel = t.sentinel ∧
      t'.key = Function.update t.key a k ∧ T.inorder = before ρ ++ after ρ ∧
      T'.inorder = before ρ ++ a :: after ρ ∧
      ∀ g ∈ ρ, g.dir = if timerLess k (t'.key g.item) then .left else .right := by
  have h' := h.putKey ha k
  obtain ⟨n, hb⟩ := h'.balanced
  have hai : a ∉ T.inorder := fun hm => (h.nodes a).mp hm ha
  obtain ⟨t', T', ρ, hrun, hs', hb', hk', hsen, hT, hT', hdir⟩ :=
    agcRbtreeInsert_spec timerLess h'.shape hb ha0 has hai
  have hkey : t'.key = Function.update t.key a k := hk'
  refine ⟨t', T', ρ, ?_, ⟨hs', hb', fun b => ?_, fun b k' hbk => ?_⟩, hsen, hkey, hT, hT', ?_⟩
  · refine hrun.congr fun fuel => ?_
    simp only [StoreOp.exec, setKey_eq _ _ ha0, ok_bind]
    rfl
  · have hb := h.nodes b
    rw [hT] at hb
    rw [hT']
    by_cases hba : b = a
    · simp [hba]
    · simp only [List.mem_append, List.mem_cons, hba, false_or, Function.update_of_ne hba] at hb ⊢
      exact hb
  · rw [hkey]
    by_cases hba : b = a
    · subst hba
      simpa using hbk
    · rw [Function.update_of_ne hba] at hbk ⊢
      exact h.keys b k' hbk
  · intro g hg
    rw [hdir g hg, hk']
    simp

theorem Holds.delete (h : t.Holds T m) (ha : m a ≠ none) :
    ∃ t' T', Returns (fun fuel => StoreOp.exec fuel t (.delete a)) t' ∧
      t'.Holds T' (Function.update m a none) ∧ t'.sentinel = t.sentinel ∧
      t'.key = Function.update t.key a 0 ∧
      ∃ pre post, T.inorder = pre ++ a :: post ∧ T'.inorder = pre ++ post := by
  obtain ⟨n, hb⟩ := h.balanced
  obtain ⟨t', T', hrun, hs', hb', hkey, hsen, pre, post, hT, hT'⟩ :=
    agcRbtreeDelete_spec h.shape hb ((h.nodes a).mpr ha)
  refine ⟨t', T', hrun, ⟨hs', hb', fun b => ?_, fun b k' hbk => ?_⟩, hsen, hkey, pre, post, hT,
    hT'⟩
  · have hb := h.nodes b
    have hnd := h.shape.nodup
    rw [hT] at hb hnd
    rw [hT']
    by_cases hba : b = a
    · subst hba
      have := (List.nodup_middle.mp hnd).notMem
      simpa using this
    · simp only [List.mem_append, List.mem_cons, hba, false_or, Function.update_of_ne hba] at hb ⊢
      exact hb
  · have hba : b ≠ a := by
      rintro rfl
      simp at hbk
    rw [hkey, Function.update_of_ne hba]
    rw [Function.update_of_ne hba] at hbk
    exact h.keys b k' hbk

/-- An insertion keeps the order when the new keys lie in a window. -/
theorem Ordered.insert {t' : Rbtree} {T' : ColorTree Ptr} {ρ : Path Ptr} (ho : t.Ordered T)
    (hw : Window {k | ∃ b ∈ T'.inorder, t'.key b = k})
    (hkey : t'.key = Function.update t.key a k) (hT : T.inorder = before ρ ++ after ρ)
    (hT' : T'.inorder = before ρ ++ a :: after ρ) (ha : a ∉ T.inorder)
    (hdir : ∀ g ∈ ρ, g.dir = if timerLess k (t'.key g.item) then .left else .right) :
    t'.Ordered T' := by
  obtain ⟨b, n, hn, hoff⟩ := hw
  have hlt : ∀ x ∈ T'.inorder, offset b (t'.key x) < 2 ^ (64 - 1) := fun x hx =>
    Nat.lt_trans (hoff _ ⟨x, hx, rfl⟩) hn
  -- the offsets rank the nodes, and the search compared them
  set rank : Ptr → ℕ := fun x => offset b (t'.key x) with hrank
  have hka : t'.key a = k := by simp [hkey]
  have haT' : a ∈ T'.inorder := by simp [hT']
  have hmem : ∀ x ∈ T.inorder, x ∈ T'.inorder := by
    intro x hx
    rw [hT] at hx
    rw [hT']
    simp only [List.mem_append, List.mem_cons] at hx ⊢
    tauto
  have hsame : ∀ x ∈ T.inorder, t'.key x = t.key x := by
    intro x hx
    rw [hkey, Function.update_of_ne]
    rintro rfl
    exact ha hx
  have hsorted : (before ρ ++ after ρ).Pairwise fun x y => rank x ≤ rank y := by
    rw [← hT]
    refine List.Pairwise.imp_of_mem ?_ ho
    intro x y hx hy hxy
    rw [← hsame x hx, ← hsame y hy] at hxy
    exact (toInt_sub_nonneg_iff (hlt y (hmem y hy)) (hlt x (hmem x hx))).mp hxy
  have hsearch : Searched rank (rank a) ρ := by
    intro g hg
    have hgi : g.item ∈ T'.inorder := hmem _ (by rw [hT]; exact item_mem_items hg)
    have hd := hdir g hg
    have hiff : timerLess k (t'.key g.item) = true ↔ rank a < rank g.item := by
      rw [timerLess, decide_eq_true_iff, ← hka]
      exact toInt_sub_neg_iff (hlt a haT') (hlt _ hgi)
    refine ⟨fun hl => ?_, fun hr => ?_⟩
    · by_contra hc
      rw [if_neg (fun h => hc (hiff.mp h)), hl] at hd
      cases hd
    · by_contra hc
      rw [if_pos (hiff.mpr (by omega)), hr] at hd
      cases hd
  have hle := before_le_of_search hsearch hsorted
  have hgt := lt_after_of_search hsearch hsorted
  have hsorted' : T'.inorder.Pairwise fun x y => rank x ≤ rank y := by
    rw [hT']
    obtain ⟨hb, haf, hcross⟩ := List.pairwise_append.mp hsorted
    refine List.pairwise_append.mpr ⟨hb, List.pairwise_cons.mpr ⟨?_, haf⟩, ?_⟩
    · intro x hx
      exact Nat.le_of_lt (hgt x hx)
    · intro x hx y hy
      rcases List.mem_cons.mp hy with rfl | hy
      · exact hle x hx
      · exact hcross x hx y hy
  refine List.Pairwise.imp_of_mem ?_ hsorted'
  intro x y hx hy hxy
  exact (toInt_sub_nonneg_iff (hlt y hy) (hlt x hx)).mpr hxy

/-- A removal keeps the order. -/
theorem Ordered.delete {t' : Rbtree} {T' : ColorTree Ptr} {pre post : List Ptr} (ho : t.Ordered T)
    (hn : T.inorder.Nodup) (hkey : t'.key = Function.update t.key a 0)
    (hT : T.inorder = pre ++ a :: post) (hT' : T'.inorder = pre ++ post) : t'.Ordered T' := by
  rw [Ordered, hT] at ho
  rw [hT] at hn
  have ha : a ∉ pre ++ post := (List.nodup_middle.mp hn).notMem
  have hsub : (pre ++ post).Pairwise fun a b => 0 ≤ (t.key b - t.key a).toInt :=
    ho.sublist (List.Sublist.append_left (List.sublist_cons_self a post) pre)
  rw [Ordered, hT']
  refine List.Pairwise.imp_of_mem ?_ hsub
  intro x y hx hy hxy
  have hxa : x ≠ a := by rintro rfl; exact ha hx
  have hya : y ≠ a := by rintro rfl; exact ha hy
  rw [hkey, Function.update_of_ne hxa, Function.update_of_ne hya]
  exact hxy

/-- Every child of a node has that node as its parent. -/
theorem Hangs.parent_child {p : Ptr} (h : t.Hangs T p) :
    ∀ b ∈ T.inorder, ∀ d, t.child d b ≠ t.sentinel → t.parent (t.child d b) = b := by
  induction T generalizing p with
  | leaf => simp
  | node c l x r ihl ihr =>
    obtain ⟨-, -, -, -, h4, h5, h6, h7⟩ := h
    intro b hb d hd
    simp only [inorder, List.mem_append, List.mem_cons] at hb
    rcases hb with hb | rfl | hb
    · exact ihl h6 b hb d hd
    · cases d with
      | left =>
        rw [h4] at hd ⊢
        cases l with
        | leaf => exact absurd rfl hd
        | node c' l' y r' => exact h6.2.2.2.1
      | right =>
        rw [h5] at hd ⊢
        cases r with
        | leaf => exact absurd rfl hd
        | node c' l' y r' => exact h7.2.2.2.1
    · exact ihr h7 b hb d hd

end Operations

/-! ## Runs -/

/-- The timer store: the memory `t` holds an ordered red-black tree `T` of the nodes of `m`. -/
structure StoreInvariant (t : Rbtree) (T : ColorTree Ptr) (m : Pending) : Prop where
  shape : t.Shape T
  sentinel_black : t.color t.sentinel = .black
  root_black : t.color t.root = .black
  noRedRed : NoRedRed T
  blackCounts : ∃ n, ∀ k ∈ blackCounts T, k = n
  ordered : t.Ordered T
  parent_child : ∀ a ∈ T.inorder, ∀ d, t.child d a ≠ t.sentinel → t.parent (t.child d a) = a
  nodes : ∀ a, a ∈ T.inorder ↔ m a ≠ none
  keys : ∀ a k, m a = some k → t.key a = k

theorem Holds.storeInvariant {t : Rbtree} {T : ColorTree Ptr} {m : Pending} (h : t.Holds T m)
    (ho : t.Ordered T) : t.StoreInvariant T m := by
  obtain ⟨n, hb⟩ := h.balanced
  obtain ⟨rp, hT⟩ := h.shape.hangs
  have hroot : t.color t.root = .black := by
    rw [h.shape.root_eq]
    exact (Shape.color_ptr (π := []) h.shape).trans hb.color_eq
  exact ⟨h.shape, h.shape.sentinel_black, hroot, hb.noRedRed, ⟨n, hb.blackCounts_eq⟩, ho,
    hT.parent_child, h.nodes, h.keys⟩

/-- One legal operation, whose keys lie in a window, keeps the ordered tree. -/
theorem Holds.exec {t : Rbtree} {T : ColorTree Ptr} {m : Pending} {op : StoreOp} (h : t.Holds T m)
    (ho : t.Ordered T) (hop : op.Legal t.sentinel m) (hw : Window (op.apply m).keys) :
    ∃ t' T', Returns (fun fuel => op.exec fuel t) t' ∧ t'.Holds T' (op.apply m) ∧
      t'.Ordered T' ∧ t'.sentinel = t.sentinel := by
  cases op with
  | insert a k =>
    obtain ⟨ha0, has, ha⟩ := hop
    obtain ⟨t', T', ρ, hrun, h', hsen, hkey, hT, hT', hdir⟩ := h.insert ha0 has ha k
    refine ⟨t', T', hrun, h', ?_, hsen⟩
    refine ho.insert (hw.mono ?_) hkey hT hT' (fun hm => (h.nodes a).mp hm ha) hdir
    rintro k' ⟨b, hb, rfl⟩
    exact ⟨b, h'.key_eq hb⟩
  | delete a =>
    obtain ⟨t', T', hrun, h', hsen, hkey, pre, post, hT, hT'⟩ := h.delete hop
    exact ⟨t', T', hrun, h', ho.delete h.shape.nodup hkey hT hT', hsen⟩

theorem Holds.storeRun {t : Rbtree} {T : ColorTree Ptr} {m : Pending} {ops : List StoreOp}
    (h : t.Holds T m) (ho : t.Ordered T) (hl : LegalRun t.sentinel m ops) :
    ∃ t' T', Returns (fun fuel => Rbtree.storeRun fuel t ops) t' ∧
      t'.Holds T' (ops.foldl StoreOp.apply m) ∧ t'.Ordered T' := by
  induction ops generalizing t T m with
  | nil => exact ⟨t, T, Returns.const t, h, ho⟩
  | cons op ops ih =>
    cases hl with
    | cons hop hw hrest =>
      obtain ⟨t₁, T₁, hrun, h₁, ho₁, hsen⟩ := h.exec ho hop hw
      rw [← hsen] at hrest
      obtain ⟨t', T', hrun', h', ho'⟩ := ih h₁ ho₁ hrest
      exact ⟨t', T', hrun.bind hrun', h', ho'⟩

/-- **The timer store.** Every legal run from the empty tree returns, and the memory then holds an
ordered red-black tree of the nodes inserted and not yet removed. -/
theorem timer_store_invariant (t₀ : Rbtree) {s : Ptr} (hs : s ≠ 0) {ops : List StoreOp}
    (hl : LegalRun s (fun _ => none) ops) :
    ∃ t T, Returns (fun fuel => Rbtree.storeRun fuel (agcRbtreeInit t₀ s) ops) t ∧
      t.StoreInvariant T (ops.foldl StoreOp.apply fun _ => none) := by
  obtain ⟨t, T, hrun, h, ho⟩ := (holds_init t₀ hs).storeRun List.Pairwise.nil hl
  exact ⟨t, T, hrun, h.storeInvariant ho⟩

/-- A window for the keys of the map stays one for an operation whose key lies in it. -/
theorem StoreOp.keys_apply {m : Pending} {b : Key} {n : ℕ} (op : StoreOp)
    (hm : ∀ k ∈ m.keys, offset b k < n) (hop : ∀ a k, op = .insert a k → offset b k < n) :
    ∀ k ∈ (op.apply m).keys, offset b k < n := by
  rintro k ⟨x, hx⟩
  cases op with
  | insert a k' =>
    by_cases hxa : x = a
    · subst hxa
      obtain rfl : k' = k := by simpa [StoreOp.apply] using hx
      exact hop x k' rfl
    · exact hm k ⟨x, by simpa [StoreOp.apply, hxa] using hx⟩
  | delete a =>
    by_cases hxa : x = a
    · simp [StoreOp.apply, hxa] at hx
    · exact hm k ⟨x, by simpa [StoreOp.apply, hxa] using hx⟩

/-- A memory whose fields are all zero. -/
def blank : Rbtree where
  root := 0
  sentinel := 0
  key _ := 0
  child _ _ := 0
  parent _ := 0
  color _ := .black

/-- Three insertions whose keys wrap past the end of the circle, and a removal. -/
theorem timer_store_wrapping :
    ∃ t T, Returns (fun fuel => Rbtree.storeRun fuel (agcRbtreeInit blank 1)
        [.insert 2 5, .insert 3 (-7), .insert 4 0, .delete 2]) t ∧
      t.StoreInvariant T
        ([.insert 2 5, .insert 3 (-7), .insert 4 0, .delete 2].foldl StoreOp.apply
          fun _ => none) := by
  have h₀ : ∀ k ∈ Pending.keys (fun _ => none), offset (-7) k < 20 := by
    rintro k ⟨a, ha⟩
    cases ha
  have h₁ := StoreOp.keys_apply (.insert 2 5) h₀ (by rintro a k ⟨⟩; decide)
  have h₂ := StoreOp.keys_apply (.insert 3 (-7)) h₁ (by rintro a k ⟨⟩; decide)
  have h₃ := StoreOp.keys_apply (.insert 4 0) h₂ (by rintro a k ⟨⟩; decide)
  have h₄ := StoreOp.keys_apply (.delete 2) h₃ (by rintro a k ⟨⟩)
  refine timer_store_invariant blank (by decide) ?_
  refine .cons ⟨by decide, by decide, rfl⟩ ⟨-7, 20, by decide, h₁⟩ ?_
  refine .cons ⟨by decide, by decide, rfl⟩ ⟨-7, 20, by decide, h₂⟩ ?_
  refine .cons ⟨by decide, by decide, rfl⟩ ⟨-7, 20, by decide, h₃⟩ ?_
  exact .cons (by decide) ⟨-7, 20, by decide, h₄⟩ .nil

end Rbtree
