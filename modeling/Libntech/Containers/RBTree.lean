import Libntech.Lib.RedBlack
import Mathlib.Logic.Function.Basic
import Mathlib.Data.Int.Order.Basic

/-! # RBTree (`libutils/rb-tree.c`)

Nodes live in a heap and are addressed by numbers; `fresh` is the next address `xmalloc` gives out. Keys
and values are `void *`: `none` is `NULL`. `root` is the sentinel above the tree (its left child is the top
node), `nil` the shared sentinel below it; both are written through like any other node.

The two mirror images of the source's rotations and fix-up branches are one definition over a direction
`d`, the source's first branch being `d = left`. A failed `assert` is `none`, and so is a loop that has not
ended after visiting as many nodes as were ever allocated. The destroy functions only dispose of what has
left the tree and are left out, as are the frees themselves.
-/
namespace Libntech.Containers
open Lib.RedBlack
set_option autoImplicit false

variable {K V : Type}

structure RBNode (K V : Type) where
  key : Option K
  value : Option V
  red : Bool
  parent : ℕ
  left : ℕ
  right : ℕ

def RBNode.child (d : Dir) (n : RBNode K V) : ℕ :=
  match d with
  | .left => n.left
  | .right => n.right

def RBNode.setChild (d : Dir) (c : ℕ) (n : RBNode K V) : RBNode K V :=
  match d with
  | .left => { n with left := c }
  | .right => { n with right := c }

def RBNode.setParent (p : ℕ) (n : RBNode K V) : RBNode K V := { n with parent := p }
def RBNode.setRed (b : Bool) (n : RBNode K V) : RBNode K V := { n with red := b }

structure RBTreeFns (K V : Type) where
  keyCopy : Option K → Option K
  keyCompare : Option K → Option K → ℤ
  valueCopy : Option V → Option V

structure RBTree (K V : Type) where
  heap : ℕ → RBNode K V
  fresh : ℕ
  root : ℕ
  nil : ℕ
  size : ℕ

namespace RBTree

def parent (t : RBTree K V) (i : ℕ) : ℕ := (t.heap i).parent
def child (t : RBTree K V) (d : Dir) (i : ℕ) : ℕ := (t.heap i).child d
def left (t : RBTree K V) (i : ℕ) : ℕ := (t.heap i).left
def right (t : RBTree K V) (i : ℕ) : ℕ := (t.heap i).right
def red (t : RBTree K V) (i : ℕ) : Bool := (t.heap i).red

def modify (t : RBTree K V) (i : ℕ) (f : RBNode K V → RBNode K V) : RBTree K V :=
  { t with heap := Function.update t.heap i (f (t.heap i)) }

def setParent (t : RBTree K V) (i p : ℕ) : RBTree K V := t.modify i (RBNode.setParent p)
def setRed (t : RBTree K V) (i : ℕ) (b : Bool) : RBTree K V := t.modify i (RBNode.setRed b)
def setChild (t : RBTree K V) (i : ℕ) (d : Dir) (c : ℕ) : RBTree K V := t.modify i (RBNode.setChild d c)

/-- The branch of `if (x == x->parent->left)`. -/
def sideOf (t : RBTree K V) (x : ℕ) : Dir := bif x == t.left (t.parent x) then .left else .right

/-- `if (x == x->parent->left) x->parent->left = y; else x->parent->right = y;` -/
def relinkParent (t : RBTree K V) (x y : ℕ) : RBTree K V := t.setChild (t.parent x) (t.sideOf x) y

/-- `assert(!tree->nil->red)` -/
def nilBlack (t : RBTree K V) : Option (RBTree K V) := if t.red t.nil then none else some t

end RBTree
open Containers.RBTree

/-! ## Construction -/

/-- The record of a sentinel after `Reset_`. -/
def sentinel (nil : ℕ) : RBNode K V := ⟨none, none, false, nil, nil, nil⟩

def reset (t : RBTree K V) : RBTree K V :=
  { (t.modify t.nil fun _ => sentinel t.nil).modify t.root fun _ => sentinel t.nil with size := 0 }

def rbTreeNew : RBTree K V :=
  reset { heap := fun _ => sentinel 0, fresh := 2, root := 1, nil := 0, size := 0 }

def nodeNew (fns : RBTreeFns K V) (t : RBTree K V) (parent : ℕ) (red : Bool) (key : Option K)
    (value : Option V) : ℕ × RBTree K V :=
  (t.fresh,
    { t.modify t.fresh fun _ => ⟨fns.keyCopy key, fns.valueCopy value, red, parent, t.nil, t.nil⟩ with
      fresh := t.fresh + 1 })

/-! ## Rotations -/

def rotateLinks (d : Dir) (t : RBTree K V) (x : ℕ) : RBTree K V :=
  let y := t.child d.opp x
  let t := t.setChild x d.opp (t.child d y)
  let t := if t.child d y ≠ t.nil then t.setParent (t.child d y) x else t
  let t := t.setParent y (t.parent x)
  let t := t.relinkParent x y
  let t := t.setChild y d x
  t.setParent x y

def rotate (d : Dir) (t : RBTree K V) (x : ℕ) : Option (RBTree K V) := do
  let t ← t.nilBlack
  (rotateLinks d t x).nilBlack

def rotateLeft (t : RBTree K V) (x : ℕ) : Option (RBTree K V) := rotate .left t x
def rotateRight (t : RBTree K V) (x : ℕ) : Option (RBTree K V) := rotate .right t x

/-! ## Insertion -/

/-- Cases 2 and 3 of `PutFix_`, on the side `d` of the grandparent. -/
def putFixRotate (d : Dir) (t : RBTree K V) (z : ℕ) : Option (RBTree K V × ℕ) := do
  let (t, z) ←
    if z = t.child d.opp (t.parent z) then (rotate d t (t.parent z)).map fun t' => (t', t.parent z)
    else some (t, z)
  let t := t.setRed (t.parent z) false
  let t := t.setRed (t.parent (t.parent z)) true
  let t ← rotate d.opp t (t.parent (t.parent z))
  return (t, z)

/-- The body of the loop of `PutFix_`. -/
def putFixStep (d : Dir) (t : RBTree K V) (z : ℕ) : Option (RBTree K V × ℕ) :=
  let y := t.child d.opp (t.parent (t.parent z))
  if t.red y then
    -- case 1
    let t := t.setRed (t.parent z) false
    let t := t.setRed y false
    let t := t.setRed (t.parent (t.parent z)) true
    some (t, t.parent (t.parent z))
  else putFixRotate d t z

def putFixLoop : ℕ → RBTree K V → ℕ → Option (RBTree K V)
  | 0, _, _ => none
  | fuel + 1, t, z =>
    if t.red (t.parent z) then do
      let (t, z) ← putFixStep (t.sideOf (t.parent z)) t z
      putFixLoop fuel t z
    else some t

def putFix (t : RBTree K V) (z : ℕ) : Option (RBTree K V) := do
  let t ← putFixLoop t.fresh t z
  let t := t.setRed (t.left t.root) false
  let t ← t.nilBlack
  if t.red t.root then none else some t

/-- The search loop of `RBTreePut`: `y` and `x` where it stops, at `nil` or at an equal key. -/
def putSearch (fns : RBTreeFns K V) (t : RBTree K V) (key : Option K) : ℕ → ℕ → ℕ → Option (ℕ × ℕ)
  | 0, _, _ => none
  | fuel + 1, y, x =>
    if x = t.nil then some (y, x)
    else
      let cmp := fns.keyCompare key (t.heap x).key
      if cmp = 0 then some (x, x)
      else putSearch fns t key fuel x (if cmp < 0 then t.left x else t.right x)

/-- The branch of `if (y == tree->root || tree->KeyCompare(z->key, y->key) < 0)`. -/
def putSide (fns : RBTreeFns K V) (t : RBTree K V) (y z : ℕ) : Dir :=
  if y = t.root ∨ fns.keyCompare (t.heap z).key (t.heap y).key < 0 then .left else .right

def rbTreePut (fns : RBTreeFns K V) (t : RBTree K V) (key : Option K) (value : Option V) :
    Option (RBTree K V × Bool) := do
  let (y, x) ← putSearch fns t key t.fresh t.root (t.left t.root)
  if x ≠ t.nil then
    return (t.modify x fun n => { n with key := fns.keyCopy key, value := fns.valueCopy value }, true)
  else
    let (z, t) := nodeNew fns t y true key value
    let t := t.setChild y (putSide fns t y z) z
    let t ← putFix t z
    return ({ t with size := t.size + 1 }, false)

/-! ## Lookup -/

/-- `for (; curr->left != tree->nil; curr = curr->left);` -/
def leftmost (t : RBTree K V) : ℕ → ℕ → Option ℕ
  | 0, _ => none
  | fuel + 1, curr => if t.left curr ≠ t.nil then leftmost t fuel (t.left curr) else some curr

/-- `for (; node == curr->right; node = curr, curr = curr->parent);` -/
def climb (t : RBTree K V) : ℕ → ℕ → ℕ → Option ℕ
  | 0, _, _ => none
  | fuel + 1, node, curr => if node = t.right curr then climb t fuel curr (t.parent curr) else some curr

def next (t : RBTree K V) (node : ℕ) : Option ℕ :=
  if t.right node ≠ t.nil then leftmost t t.fresh (t.right node)
  else do
    let curr ← climb t t.fresh node (t.parent node)
    return if curr ≠ t.root then curr else t.nil

def getLoop (fns : RBTreeFns K V) (t : RBTree K V) (key : Option K) : ℕ → ℕ → Option ℕ
  | 0, _ => none
  | fuel + 1, curr =>
    if curr = t.nil then some curr
    else
      let cmp := fns.keyCompare key (t.heap curr).key
      if cmp = 0 then some curr
      else if cmp < 0 then getLoop fns t key fuel (t.left curr)
      else getLoop fns t key fuel (t.right curr)

/-- `Get_`; its second assertion is about the tree of the first, which nothing has written to. -/
def getNode (fns : RBTreeFns K V) (t : RBTree K V) (key : Option K) : Option ℕ := do
  let t ← t.nilBlack
  getLoop fns t key t.fresh (t.left t.root)

def rbTreeGet (fns : RBTreeFns K V) (t : RBTree K V) (key : Option K) : Option (Option V) := do
  let node ← getNode fns t key
  return if node ≠ t.nil then (t.heap node).value else none

/-! ## Removal -/

/-- The part of the body of `RemoveFix_` after a red sibling has been rotated away; `x` is the child on
side `d` and `w` its sibling. -/
def removeFixSibling (d : Dir) (t : RBTree K V) (root x w : ℕ) : Option (RBTree K V × ℕ) :=
  if !t.red (t.left w) && !t.red (t.right w) then
    let t := t.setRed w true
    some (t, t.parent x)
  else do
    let (t, w) ←
      if !t.red (t.child d.opp w) then do
        let t := t.setRed (t.child d w) false
        let t := t.setRed w true
        let t ← rotate d.opp t w
        some (t, t.child d.opp (t.parent x))
      else some (t, w)
    let t := t.setRed w (t.red (t.parent x))
    let t := t.setRed (t.parent x) false
    let t := t.setRed (t.child d.opp w) false
    let t ← rotate d t (t.parent x)
    return (t, root)

/-- The body of the loop of `RemoveFix_`. -/
def removeFixStep (d : Dir) (t : RBTree K V) (root x : ℕ) : Option (RBTree K V × ℕ) := do
  let w := t.child d.opp (t.parent x)
  if t.red w then
    let t := t.setRed w false
    let t := t.setRed (t.parent x) true
    let t ← rotate d t (t.parent x)
    removeFixSibling d t root x (t.child d.opp (t.parent x))
  else removeFixSibling d t root x w

/-- The loop of `RemoveFix_`, with the top node `root` as it was before the first rotation. -/
def removeFixLoop (root : ℕ) : ℕ → RBTree K V → ℕ → Option (RBTree K V × ℕ)
  | 0, _, _ => none
  | fuel + 1, t, x =>
    if x ≠ root ∧ t.red x = false then do
      let (t, x) ← removeFixStep (t.sideOf x) t root x
      removeFixLoop root fuel t x
    else some (t, x)

def removeFix (t : RBTree K V) (x : ℕ) : Option (RBTree K V) := do
  let t ← t.nilBlack
  let (t, x) ← removeFixLoop (t.left t.root) t.fresh t x
  (t.setRed x false).nilBlack

/-- Unlink `y`, which has at most the child `x`. -/
def spliceOut (t : RBTree K V) (y x : ℕ) : RBTree K V :=
  let t := t.setParent x (t.parent y)
  if t.root = t.parent x then t.setChild t.root .left x else t.relinkParent y x

/-- `if (!y->red) RemoveFix_(tree, x);` -/
def fixIfBlack (t : RBTree K V) (y x : ℕ) : Option (RBTree K V) := if t.red y then some t else removeFix t x

/-- Put `y` in the place of `z`. -/
def takePlace (t : RBTree K V) (z y : ℕ) : RBTree K V :=
  let t := t.setChild y .left (t.left z)
  let t := t.setChild y .right (t.right z)
  let t := t.setParent y (t.parent z)
  let t := t.setRed y (t.red z)
  let t := t.setParent (t.left z) y
  let t := t.setParent (t.right z) y
  t.relinkParent z y

def rbTreeRemove (fns : RBTreeFns K V) (t : RBTree K V) (key : Option K) :
    Option (RBTree K V × Bool) := do
  let t ← t.nilBlack
  let z ← getNode fns t key
  if z = t.nil then return (t, false)
  let y ← if t.left z = t.nil ∨ t.right z = t.nil then some z else next t z
  let x := if t.left y = t.nil then t.right y else t.left y
  let t := spliceOut t y x
  let t ←
    if z ≠ y then do
      if y = t.nil then none
      let t ← t.nilBlack
      let t ← fixIfBlack t y x
      some (takePlace t z y)
    else fixIfBlack t y x
  let t ← t.nilBlack
  return ({ t with size := t.size - 1 }, true)

/-! ## The rest of the interface -/

/-- `ClearRecursive_` only frees; the old root is freed with the rest. -/
def rbTreeClear (t : RBTree K V) : RBTree K V :=
  reset { t with root := t.fresh, fresh := t.fresh + 1 }

def rbTreeSize (t : RBTree K V) : ℕ := t.size

/-- `VerifyNode_`: `none` if an assertion fails, else the new value of `*path_black_count`. -/
def verifyNode (t : RBTree K V) : ℕ → ℕ → ℤ → ℤ → Option ℤ
  | 0, _, _, _ => none
  | fuel + 1, node, blackCount, pathBlackCount =>
    if t.red node && (t.red (t.left node) || t.red (t.right node)) then none
    else
      let blackCount := if t.red node then blackCount else blackCount + 1
      if node = t.nil then
        if t.red node then none
        else if pathBlackCount = -1 then some blackCount
        else if blackCount = pathBlackCount then some pathBlackCount
        else none
      else do
        let pathBlackCount ← verifyNode t fuel (t.left node) blackCount pathBlackCount
        verifyNode t fuel (t.right node) blackCount pathBlackCount

/-- `VerifyTree_`: whether all its assertions hold. -/
def verifyTree (t : RBTree K V) : Bool :=
  !t.red t.root && (t.heap t.root).key.isNone && (t.heap t.root).value.isNone &&
    (!t.red t.nil && (t.heap t.nil).key.isNone && (t.heap t.nil).value.isNone) &&
    (verifyNode t t.fresh (t.left t.root) 0 (-1)).isSome

end Libntech.Containers
