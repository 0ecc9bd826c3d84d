/-
# The red-black tree of the hash ring

`hashring/rbtree.go`, function by function.  A `redBlackNode` is a cell of a
store and a `*redBlackNode` a pointer to one, so that an assignment through one
variable is seen through every other, as in the source.  Dereferencing nil is a
fault; so is running out of the steps a loop was given, which the source has no
counterpart for: `insertFuel` and `deleteFuel` are enough on every tree that calls
can build (`Ringpop.Hashring.RedBlackInvariant`).

`int` is two's complement of width `w`: `node.val - val` wraps (`intSub`), and
`cmp < 0` is read off the wrapped difference.  A node allocated by `Insert` for
the time of the call (`head`) stays in the store, unreachable, as it would until
the garbage collector takes it.
-/

import Ringpop.Memory.Cells
import Mathlib.Algebra.Order.Ring.Int
import Mathlib.Data.Finset.Card
import Mathlib.Data.String.Basic

namespace Ringpop
namespace Hashring

open CellStore

/-- `redBlackNode`: a node of the tree. -/
structure RedBlackNode where
  val : ℤ
  str : String
  left : Ptr := none
  right : Ptr := none
  red : Bool := false
deriving DecidableEq, Repr

/-- `redBlackTree`, with the store its nodes live in. -/
structure RedBlackTree where
  store : Store RedBlackNode
  root : Ptr
  size : ℤ

/-- `&redBlackTree{}`. -/
def RedBlackTree.empty : RedBlackTree := ⟨Store.empty, none, 0⟩

/-- `a - b` on an `int` of `w` bits. -/
def intSub (w : ℕ) (a b : ℤ) : ℤ := (a - b).bmod (2 ^ w)

/-- `Child`, of a node. -/
def RedBlackNode.child (n : RedBlackNode) (right : Bool) : Ptr :=
  if right then n.right else n.left

/-- `setChild`, of a node. -/
def RedBlackNode.setChild (n : RedBlackNode) (right : Bool) (p : Ptr) : RedBlackNode :=
  if right then { n with right := p } else { n with left := p }

/-- `Child`, through a pointer. -/
def child (p : Ptr) (right : Bool) : Exec RedBlackNode Ptr := do
  return (← load p).child right

/-- `setChild`, through a pointer. -/
def setChild (p : Ptr) (right : Bool) (node : Ptr) : Exec RedBlackNode Unit :=
  modify p fun n => n.setChild right node

/-- The assignment `p.red = red`. -/
def setRed (p : Ptr) (red : Bool) : Exec RedBlackNode Unit :=
  modify p fun n => { n with red := red }

/-- `isRed`. -/
def isRed (p : Ptr) : Exec RedBlackNode Bool := do
  if p = none then return false
  return (← load p).red

/-- The test `p.right == q`. -/
def rightIs (p q : Ptr) : Exec RedBlackNode Bool := do
  return decide ((← load p).right = q)

/-- `singleRotate`. -/
def singleRotate (oldroot : Ptr) (dir : Bool) : Exec RedBlackNode Ptr := do
  let newroot ← child oldroot (!dir)
  let inner ← child newroot dir
  setChild oldroot (!dir) inner
  setChild newroot dir oldroot
  setRed oldroot true
  setRed newroot false
  return newroot

/-- `doubleRotate`. -/
def doubleRotate (root : Ptr) (dir : Bool) : Exec RedBlackNode Ptr := do
  let outer ← child root (!dir)
  let sr ← singleRotate outer (!dir)
  setChild root (!dir) sr
  singleRotate root dir

/-! ### `Insert` -/

/-- The variables of the loop of `Insert`. -/
structure InsertVars where
  dir : Bool
  last : Bool
  parent : Ptr
  gparent : Ptr
  ggparent : Ptr
  node : Ptr

/-- The first branch of the loop of `Insert`: a new node at the bottom, or a
colour flip.  Returns `node` and `ret`. -/
def growOrFlip (val : ℤ) (str : String) (v : InsertVars) : Exec RedBlackNode (Ptr × Bool) := do
  if v.node = none then
    -- insert new node at bottom
    let node ← alloc { val := val, str := str, red := true }
    setChild v.parent v.dir node
    return (node, true)
  let n ← load v.node
  if ← isRed n.left <&&> isRed n.right then
    -- flip colors
    setRed v.node true
    setRed n.left false
    setRed n.right false
  return (v.node, false)

/-- The second branch of the loop of `Insert`: repair a red node under a red
parent by a rotation at the grandparent. -/
def fixRedViolation (v : InsertVars) (node : Ptr) : Exec RedBlackNode Unit := do
  if ← isRed node <&&> isRed v.parent then
    let dir2 ← rightIs v.ggparent v.gparent
    if node = (← child v.parent v.last) then
      let sr ← singleRotate v.gparent (!v.last)
      setChild v.ggparent dir2 sr
    else
      let dr ← doubleRotate v.gparent (!v.last)
      setChild v.ggparent dir2 dr

/-- The helpers of `Insert` moved one level down, to the child of `node` on the
side `dir`. -/
def InsertVars.advance (v : InsertVars) (node : Ptr) (dir : Bool) (next : Ptr) : InsertVars where
  dir := dir
  last := v.dir
  parent := node
  gparent := v.parent
  ggparent := if v.gparent = none then v.ggparent else v.gparent
  node := next

/-- The loop of `Insert`.  Returns `ret`. -/
def insertLoop (w : ℕ) (val : ℤ) (str : String) : ℕ → InsertVars → Exec RedBlackNode Bool
  | 0, _ => throw .outOfFuel
  | fuel + 1, v => do
    let (node, ret) ← growOrFlip val str v
    fixRedViolation v node
    let n ← load node
    let cmp := intSub w n.val val
    -- stop if found
    if cmp = 0 then return ret
    let dir := decide (cmp < 0)
    insertLoop w val str fuel (v.advance node dir (n.child dir))

/-- Steps enough for the loop of `Insert`: two for each cell of the store. -/
def insertFuel (s : Store RedBlackNode) : ℕ := 2 * s.next + 2

/-- The part of `Insert` that works on the nodes.  Returns the new root and
`ret`. -/
def insertNodes (w : ℕ) (fuel : ℕ) (root : Ptr) (val : ℤ) (str : String) :
    Exec RedBlackNode (Ptr × Bool) := do
  let (root, ret) ← if root = none then do
      let node ← alloc { val := val, str := str }
      pure (node, true)
    else do
      let head ← alloc { val := 0, str := "", right := root }
      let ret ← insertLoop w val str fuel
        { dir := true, last := true, parent := none, gparent := none, ggparent := head,
          node := root }
      pure ((← load head).right, ret)
  -- make root black
  setRed root false
  return (root, ret)

/-- `Insert`. -/
def RedBlackTree.insert (w : ℕ) (t : RedBlackTree) (val : ℤ) (str : String) :
    Except Fault (Bool × RedBlackTree) := do
  let ((root, ret), store) ← insertNodes w (insertFuel t.store) t.root val str t.store
  return (ret, ⟨store, root, if ret then t.size + 1 else t.size⟩)

/-! ### `Delete` -/

/-- The variables of the loop of `Delete`. -/
structure DeleteVars where
  node : Ptr
  parent : Ptr
  gparent : Ptr
  found : Ptr
  dir : Bool

/-- The body of `pretend to push red node down`, for a black `node` whose child
on the side `dir` is black.  Returns `parent`. -/
def pushRed (gparent parent node : Ptr) (dir last : Bool) : Exec RedBlackNode Ptr := do
  if ← isRed (← child node (!dir)) then
    let sr ← singleRotate node dir
    setChild parent last sr
    return sr
  let sibling ← child parent (!last)
  if sibling = none then return parent
  if ← (! ·) <$> (child sibling (!last) >>= isRed) <&&>
      (! ·) <$> (child sibling last >>= isRed) then
    -- flip colors
    setRed parent false
    setRed sibling true
    setRed node true
  else
    let dir2 ← rightIs gparent parent
    if ← isRed (← child sibling last) then
      let dr ← doubleRotate parent last
      setChild gparent dir2 dr
    else if ← isRed (← child sibling (!last)) then
      let sr ← singleRotate parent last
      setChild gparent dir2 sr
    let gpc ← child gparent dir2
    setRed gpc true
    setRed node true
    let g ← load gpc
    setRed g.left false
    setRed g.right false
  return parent

/-- The loop of `Delete`. -/
def deleteLoop (w : ℕ) (val : ℤ) : ℕ → DeleteVars → Exec RedBlackNode DeleteVars
  | 0, _ => throw .outOfFuel
  | fuel + 1, v => do
    let node ← child v.node v.dir
    if node = none then return v
    let n ← load node
    let cmp := intSub w n.val val
    let dir := decide (cmp < 0)
    -- save node if found
    let found := if cmp = 0 then node else v.found
    let black ← (! ·) <$> isRed node <&&> (! ·) <$> isRed (n.child dir)
    -- pretend to push red node down
    let parent ← if black then pushRed v.parent v.node node dir v.dir else pure v.node
    deleteLoop w val fuel
      { node := node, parent := parent, gparent := v.parent, found := found, dir := dir }

/-- Steps enough for the loop of `Delete`: one for each cell of the store. -/
def deleteFuel (s : Store RedBlackNode) : ℕ := s.next + 1

/-- The part of `Delete` that works on the nodes of a tree that is not empty.
Returns the new root and whether the value was found. -/
def deleteNodes (w : ℕ) (fuel : ℕ) (root : Ptr) (val : ℤ) : Exec RedBlackNode (Ptr × Bool) := do
  -- fake red node to push down
  let head ← alloc { val := 0, str := "", right := root, red := true }
  let v ← deleteLoop w val fuel
    { node := head, parent := none, gparent := none, found := none, dir := true }
  -- get rid of node if we've found one
  if v.found ≠ none then
    let n ← load v.node
    modify v.found fun f => { f with val := n.val }
    modify v.found fun f => { f with str := n.str }
    let right ← rightIs v.parent v.node
    let n ← load v.node
    setChild v.parent right (n.child (decide (n.left = none)))
  let root := (← load head).right
  if root ≠ none then setRed root false
  return (root, decide (v.found ≠ none))

/-- `Delete`. -/
def RedBlackTree.delete (w : ℕ) (t : RedBlackTree) (val : ℤ) :
    Except Fault (Bool × RedBlackTree) := do
  if t.root = none then return (false, t)
  let ((root, found), store) ← deleteNodes w (deleteFuel t.store) t.root val t.store
  return (found, ⟨store, root, if found then t.size - 1 else t.size⟩)

/-! ### `Search` and `LookupNUniqueAt` -/

/-- `redBlackNode.search`. -/
def searchNode (val : ℤ) : ℕ → Ptr → Exec RedBlackNode (String × Bool)
  | 0, _ => throw .outOfFuel
  | fuel + 1, p => do
    let n ← load p
    if n.val = val then return (n.str, true)
    else if val < n.val then
      if n.left ≠ none then searchNode val fuel n.left else return ("", false)
    else
      if n.right ≠ none then searchNode val fuel n.right else return ("", false)

/-- `Search`. -/
def RedBlackTree.search (t : RedBlackTree) (val : ℤ) : Except Fault (String × Bool) := do
  if t.root = none then return ("", false)
  let (res, _) ← searchNode val (t.store.next + 1) t.root t.store
  return res

/-- `findNUniqueAbove`: `result` is the map that the source fills. -/
def findNUniqueAbove (n val : ℤ) :
    ℕ → Ptr → Finset String → Exec RedBlackNode (Finset String)
  | 0, _, _ => throw .outOfFuel
  | fuel + 1, p, result => do
    if n ≤ result.card ∨ p = none then return result
    let node ← load p
    -- skip left branch when all its values are smaller than val
    let result ← if val ≤ node.val then findNUniqueAbove n val fuel node.left result
      else pure result
    -- Make sure to stop when we have n unique strings
    if n ≤ result.card then return result
    let result := if val ≤ node.val then insert node.str result else result
    findNUniqueAbove n val fuel node.right result

/-- `LookupNUniqueAt`. -/
def RedBlackTree.lookupNUniqueAt (t : RedBlackTree) (n val : ℤ) (result : Finset String) :
    Except Fault (Finset String) := do
  let (result, _) ← findNUniqueAbove n val (t.store.next + 1) t.root result t.store
  return result

end Hashring
end Ringpop
