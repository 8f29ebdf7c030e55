import AgcFramework.Lib.Exec
import AgcFramework.Lib.RedBlack

/-!
# The intrusive red-black tree

`agc_rbtree.c` keeps a red-black tree of nodes embedded in their owners, with parent pointers and
one shared sentinel in place of every leaf. The memory is one map for each field of
`agc_rbtree_node_s`; the fields `left` and `right` are the map `child` at its two sides, so that a
mirrored pair of branches in the source is one definition at a side. Following a null pointer is a
fault.

## Main definitions

* `Rbtree`: the tree header and the node fields
* `agcRbtreeInsert`, `agcRbtreeDelete`, `agcRbtreeMin`: the operations of `agc_rbtree.c`
* `agcRbtreeInsertTimerValue`: the descent that compares keys on the 64-bit circle
-/

open RedBlack Exec

/-- The address of a node; `0` is the null pointer. -/
abbrev Ptr := ℕ

/-- `agc_rbtree_key_t`, an unsigned word. -/
abbrev Key := BitVec 64

/-- An `agc_rbtree_t` with the fields of all its nodes. -/
structure Rbtree where
  root : Ptr
  sentinel : Ptr
  key : Ptr → Key
  child : Dir → Ptr → Ptr
  parent : Ptr → Ptr
  color : Ptr → Color

namespace Rbtree

/-- A read through the pointer `p`. -/
def deref {α : Type} (f : Ptr → α) (p : Ptr) : Exec α :=
  if p = 0 then .error .fault else .ok (f p)

/-- A write through the pointer `p`. -/
def assign (p : Ptr) (t : Rbtree) : Exec Rbtree :=
  if p = 0 then .error .fault else .ok t

/-- `node->left` or `node->right`. -/
def getChild (t : Rbtree) (d : Dir) (p : Ptr) : Exec Ptr := deref (t.child d) p

/-- `node->parent`. -/
def getParent (t : Rbtree) (p : Ptr) : Exec Ptr := deref t.parent p

/-- `node->key`. -/
def getKey (t : Rbtree) (p : Ptr) : Exec Key := deref t.key p

/-- `node->color`. -/
def getColor (t : Rbtree) (p : Ptr) : Exec Color := deref t.color p

/-- `node->left = q` or `node->right = q`. -/
def setChild (t : Rbtree) (d : Dir) (p q : Ptr) : Exec Rbtree :=
  assign p { t with child := Function.update t.child d (Function.update (t.child d) p q) }

/-- `node->parent = q`. -/
def setParent (t : Rbtree) (p q : Ptr) : Exec Rbtree :=
  assign p { t with parent := Function.update t.parent p q }

/-- `node->key = k`. -/
def setKey (t : Rbtree) (p : Ptr) (k : Key) : Exec Rbtree :=
  assign p { t with key := Function.update t.key p k }

/-- `agc_rbt_red`, `agc_rbt_black` and `agc_rbt_copy_color`. -/
def setColor (t : Rbtree) (p : Ptr) (c : Color) : Exec Rbtree :=
  assign p { t with color := Function.update t.color p c }

end Rbtree

/-- `agc_rbtree_init`: the sentinel is painted black and stands at the root. -/
def agcRbtreeInit (t : Rbtree) (s : Ptr) : Rbtree :=
  { t with root := s, sentinel := s, color := Function.update t.color s .black }

/-- `agc_rbtree_min`: the loop down the left links. -/
def agcRbtreeMin (t : Rbtree) : ℕ → Ptr → Exec Ptr
  | 0, _ => .error .fuel
  | n + 1, node => do
    let l ← t.getChild .left node
    if l = t.sentinel then pure node else agcRbtreeMin t n l

/-- The link from above to `node` is redirected to `temp`; the source tests first whether `node`
hangs on the side `d` of its parent. -/
def redirect (d : Dir) (t : Rbtree) (node temp : Ptr) : Exec Rbtree :=
  if node = t.root then pure { t with root := temp } else do
    let up ← t.getParent node
    let here ← t.getChild d up
    if node = here then t.setChild d up temp else t.setChild d.flip up temp

/-- `if (child != sentinel) child->parent = node`. -/
def adopt (t : Rbtree) (child node : Ptr) : Exec Rbtree :=
  if child ≠ t.sentinel then t.setParent child node else pure t

/-- The rotation that moves `node` down to the side `d`. -/
def rotate (d : Dir) (t : Rbtree) (node : Ptr) : Exec Rbtree := do
  let temp ← t.getChild d.flip node
  let inner ← t.getChild d temp
  let t ← t.setChild d.flip node inner
  let inner ← t.getChild d temp
  let t ← adopt t inner node
  let up ← t.getParent node
  let t ← t.setParent temp up
  let t ← redirect d t node temp
  let t ← t.setChild d temp node
  t.setParent node temp

/-- `agc_rbtree_left_rotate`. -/
def agcRbtreeLeftRotate : Rbtree → Ptr → Exec Rbtree := rotate .left

/-- `agc_rbtree_right_rotate`. -/
def agcRbtreeRightRotate : Rbtree → Ptr → Exec Rbtree := rotate .right

/-- The descent shared by `agc_rbtree_insert_value` and `agc_rbtree_insert_timer_value`: go left
where `less` holds, stop above the sentinel, and hang the red node there. -/
def insertValueBy (less : Key → Key → Bool) (t : Rbtree) : ℕ → Ptr → Ptr → Exec Rbtree
  | 0, _, _ => .error .fuel
  | n + 1, temp, node => do
    let k ← t.getKey node
    let k' ← t.getKey temp
    let d : Dir := if less k k' then .left else .right
    let next ← t.getChild d temp
    if next = t.sentinel then do
      let t ← t.setChild d temp node
      let t ← t.setParent node temp
      let t ← t.setChild .left node t.sentinel
      let t ← t.setChild .right node t.sentinel
      t.setColor node .red
    else insertValueBy less t n next node

/-- `node->key < temp->key`. -/
def keyLess (k k' : Key) : Bool := decide (k.toNat < k'.toNat)

/-- `(agc_rbtree_key_int_t) (node->key - temp->key) < 0`. -/
def timerLess (k k' : Key) : Bool := decide ((k - k').toInt < 0)

/-- `agc_rbtree_insert_value`. -/
def agcRbtreeInsertValue : Rbtree → ℕ → Ptr → Ptr → Exec Rbtree := insertValueBy keyLess

/-- `agc_rbtree_insert_timer_value`. -/
def agcRbtreeInsertTimerValue : Rbtree → ℕ → Ptr → Ptr → Exec Rbtree := insertValueBy timerLess

/-- The branch of a red uncle `temp`: it and the parent are painted black, the grandparent red. -/
def insertRecolor (t : Rbtree) (up upup temp : Ptr) : Exec (Rbtree × Ptr) := do
  let t ← t.setColor up .black
  let t ← t.setColor temp .black
  let t ← t.setColor upup .red
  pure (t, upup)

/-- An inner grandchild is first rotated outwards, and the loop goes on with its former parent. -/
def insertOutwards (d : Dir) (t : Rbtree) (node : Ptr) : Exec (Rbtree × Ptr) := do
  let up ← t.getParent node
  let inner ← t.getChild d.flip up
  if node = inner then do
    let t ← rotate d t up
    pure (t, up)
  else pure (t, node)

/-- One round of the insertion's loop for a parent on the side `d` of the grandparent. -/
def insertSide (d : Dir) (t : Rbtree) (node : Ptr) : Exec (Rbtree × Ptr) := do
  let up ← t.getParent node
  let upup ← t.getParent up
  let temp ← t.getChild d.flip upup
  let c ← t.getColor temp
  if c = .red then insertRecolor t up upup temp
  else do
    let (t, node) ← insertOutwards d t node
    let up ← t.getParent node
    let t ← t.setColor up .black
    let upup ← t.getParent up
    let t ← t.setColor upup .red
    let t ← rotate d.flip t upup
    pure (t, node)

/-- The loop of `agc_rbtree_insert`: `while (node != *root && agc_rbt_is_red(node->parent))`. -/
def insertLoop : ℕ → Rbtree → Ptr → Exec Rbtree
  | 0, _, _ => .error .fuel
  | n + 1, t, node =>
    if node = t.root then pure t else do
      let up ← t.getParent node
      let c ← t.getColor up
      if c = .black then pure t else do
        let upup ← t.getParent up
        let l ← t.getChild .left upup
        let (t, node) ← insertSide (if up = l then .left else .right) t node
        insertLoop n t node

/-- `agc_rbtree_insert`, with the tree's `insert` function as its first argument. -/
def agcRbtreeInsert (insert : Rbtree → ℕ → Ptr → Ptr → Exec Rbtree) (fuel : ℕ) (t : Rbtree)
    (node : Ptr) : Exec Rbtree :=
  if t.root = t.sentinel then do
    let t ← t.setParent node 0
    let t ← t.setChild .left node t.sentinel
    let t ← t.setChild .right node t.sentinel
    let t ← t.setColor node .black
    pure { t with root := node }
  else do
    let t ← insert t fuel t.root node
    let t ← insertLoop fuel t node
    t.setColor t.root .black

/-- A red sibling `w` is rotated over its parent; the new sibling is returned. -/
def deleteRedSibling (d : Dir) (t : Rbtree) (temp w : Ptr) : Exec (Rbtree × Ptr) := do
  let c ← t.getColor w
  if c = .red then do
    let t ← t.setColor w .black
    let up ← t.getParent temp
    let t ← t.setColor up .red
    let t ← rotate d t up
    let up ← t.getParent temp
    let w ← t.getChild d.flip up
    pure (t, w)
  else pure (t, w)

/-- A black far nephew: the near one is rotated over the sibling `w`; the new sibling is
returned. -/
def deleteNearNephew (d : Dir) (t : Rbtree) (temp w : Ptr) : Exec (Rbtree × Ptr) := do
  let far ← t.getChild d.flip w
  let c ← t.getColor far
  if c = .black then do
    let near ← t.getChild d w
    let t ← t.setColor near .black
    let t ← t.setColor w .red
    let t ← rotate d.flip t w
    let up ← t.getParent temp
    let w ← t.getChild d.flip up
    pure (t, w)
  else pure (t, w)

/-- A red far nephew: the sibling `w` takes the parent's colour and is rotated over it. -/
def deleteFarNephew (d : Dir) (t : Rbtree) (temp w : Ptr) : Exec Rbtree := do
  let up ← t.getParent temp
  let c ← t.getColor up
  let t ← t.setColor w c
  let t ← t.setColor up .black
  let far ← t.getChild d.flip w
  let t ← t.setColor far .black
  rotate d t up

/-- The rest of a round, for a black sibling `w`. -/
def deleteBlackSibling (d : Dir) (t : Rbtree) (temp w : Ptr) : Exec (Rbtree × Ptr) := do
  let near ← t.getChild d w
  let cn ← t.getColor near
  let far ← t.getChild d.flip w
  let cf ← t.getColor far
  if cn = .black ∧ cf = .black then do
    let t ← t.setColor w .red
    let up ← t.getParent temp
    pure (t, up)
  else do
    let (t, w) ← deleteNearNephew d t temp w
    let t ← deleteFarNephew d t temp w
    pure (t, t.root)

/-- One round of the removal's loop for a focus on the side `d` of its parent. -/
def deleteSide (d : Dir) (t : Rbtree) (temp : Ptr) : Exec (Rbtree × Ptr) := do
  let up ← t.getParent temp
  let w ← t.getChild d.flip up
  let (t, w) ← deleteRedSibling d t temp w
  deleteBlackSibling d t temp w

/-- The loop of `agc_rbtree_delete`: `while (temp != *root && agc_rbt_is_black(temp))`, and the
final `agc_rbt_black(temp)`. -/
def deleteLoop : ℕ → Rbtree → Ptr → Exec Rbtree
  | 0, _, _ => .error .fuel
  | n + 1, t, temp =>
    if temp = t.root then t.setColor temp .black else do
      let c ← t.getColor temp
      if c = .red then t.setColor temp .black else do
        let up ← t.getParent temp
        let l ← t.getChild .left up
        let (t, temp) ← deleteSide (if temp = l then .left else .right) t temp
        deleteLoop n t temp

/-- The "DEBUG stuff" of `agc_rbtree_delete`: the removed node is wiped. -/
def wipe (t : Rbtree) (node : Ptr) : Exec Rbtree := do
  let t ← t.setChild .left node 0
  let t ← t.setChild .right node 0
  let t ← t.setParent node 0
  t.setKey node 0

/-- The choice of `subst` and `temp` in `agc_rbtree_delete`. -/
def chooseSubst (fuel : ℕ) (t : Rbtree) (node : Ptr) : Exec (Ptr × Ptr) := do
  let l ← t.getChild .left node
  let r ← t.getChild .right node
  if l = t.sentinel then pure (node, r)
  else if r = t.sentinel then pure (node, l)
  else do
    let subst ← agcRbtreeMin t fuel r
    let sl ← t.getChild .left subst
    if sl ≠ t.sentinel then pure (subst, sl) else do
      let sr ← t.getChild .right subst
      pure (subst, sr)

/-- `subst` takes the links and the colour of `node`. -/
def takePlace (t : Rbtree) (node subst : Ptr) : Exec Rbtree := do
  let l ← t.getChild .left node
  let t ← t.setChild .left subst l
  let r ← t.getChild .right node
  let t ← t.setChild .right subst r
  let p ← t.getParent node
  let t ← t.setParent subst p
  let c ← t.getColor node
  let t ← t.setColor subst c
  let t ← redirect .left t node subst
  let l ← t.getChild .left subst
  let t ← adopt t l subst
  let r ← t.getChild .right subst
  adopt t r subst

/-- The unlinking of `subst` in `agc_rbtree_delete`, and its move into the place of `node`. -/
def unlink (t : Rbtree) (node subst temp : Ptr) : Exec Rbtree := do
  let up ← t.getParent subst
  let l ← t.getChild .left up
  let t ← t.setChild (if subst = l then .left else .right) up temp
  let up ← t.getParent subst
  if subst = node then t.setParent temp up
  else do
    let t ← t.setParent temp (if up = node then subst else up)
    takePlace t node subst

/-- `agc_rbtree_delete`. -/
def agcRbtreeDelete (fuel : ℕ) (t : Rbtree) (node : Ptr) : Exec Rbtree := do
  let (subst, temp) ← chooseSubst fuel t node
  if subst = t.root then do
    let t ← Rbtree.setColor { t with root := temp } temp .black
    wipe t node
  else do
    let c ← t.getColor subst
    let t ← unlink t node subst temp
    let t ← wipe t node
    if c = .red then pure t else deleteLoop fuel t temp
