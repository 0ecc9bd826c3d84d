/-
# Trees and paths in the store

What a pointer of `Ringpop.Hashring.RedBlackTree` stands for.  `Tree` is the
tree below a pointer, each node with its address; `Path` is the way down to a
node, from the sentinel `head` that `Insert` and `Delete` allocate, with the
subtrees that hang off it.  `Tree.cells` and `Path.cells` are the cells they
occupy, so that "the store holds this tree under this path" is
`Store.Holds (C.cells T.ptr + T.cells)` and nothing more: that the nodes are
pairwise different is part of `Store.Holds`.

Most of the code treats its two sides alike and takes the side as an argument
`dir`.  `Tree.mk` and `nodeCell` follow it: the child on the side `dir` comes
first, the one on the other side second, whichever is on the left.
-/

import Ringpop.Hashring.RedBlackTree
import Mathlib.Tactic.SplitIfs

namespace Ringpop
namespace Hashring

open CellStore

/-- The tree below a pointer, with the addresses of its nodes. -/
inductive Tree where
  | nil
  | node (addr : ℕ) (red : Bool) (val : ℤ) (str : String) (left right : Tree)

namespace Tree

/-- The pointer to the root. -/
def ptr : Tree → Ptr
  | nil => none
  | node a _ _ _ _ _ => some a

/-- Whether the root is a red node. -/
def isRed : Tree → Bool
  | nil => false
  | node _ red _ _ _ _ => red

/-- The root made black or red. -/
def paint (red : Bool) : Tree → Tree
  | nil => nil
  | node a _ val str l r => node a red val str l r

/-- The number of nodes. -/
def size : Tree → ℕ
  | nil => 0
  | node _ _ _ _ l r => l.size + r.size + 1

/-- The bindings, from left to right. -/
def bindings : Tree → List (ℤ × String)
  | nil => []
  | node _ _ val str l r => l.bindings ++ (val, str) :: r.bindings

/-- A node whose child on the side `dir` is `x` and whose other child is `y`. -/
def mk (a : ℕ) (red : Bool) (val : ℤ) (str : String) (dir : Bool) (x y : Tree) : Tree :=
  if dir then node a red val str y x else node a red val str x y

end Tree

/-- The cell of a node whose child on the side `dir` is at `p` and whose other
child is at `q`. -/
def nodeCell (red : Bool) (val : ℤ) (str : String) (dir : Bool) (p q : Ptr) : RedBlackNode :=
  if dir then ⟨val, str, q, p, red⟩ else ⟨val, str, p, q, red⟩

section nodeCell

variable {red : Bool} {val : ℤ} {str : String} {dir : Bool} {p q : Ptr}

@[simp] theorem nodeCell_val : (nodeCell red val str dir p q).val = val := by
  cases dir <;> rfl

@[simp] theorem nodeCell_str : (nodeCell red val str dir p q).str = str := by
  cases dir <;> rfl

@[simp] theorem nodeCell_red : (nodeCell red val str dir p q).red = red := by
  cases dir <;> rfl

@[simp] theorem nodeCell_child : (nodeCell red val str dir p q).child dir = p := by
  cases dir <;> rfl

@[simp] theorem nodeCell_child_not : (nodeCell red val str dir p q).child (!dir) = q := by
  cases dir <;> rfl

@[simp] theorem nodeCell_setChild (r : Ptr) :
    (nodeCell red val str dir p q).setChild dir r = nodeCell red val str dir r q := by
  cases dir <;> rfl

@[simp] theorem nodeCell_setChild_not (r : Ptr) :
    (nodeCell red val str dir p q).setChild (!dir) r = nodeCell red val str dir p r := by
  cases dir <;> rfl

/-- The same cell, seen from the other side. -/
theorem nodeCell_not : nodeCell red val str (!dir) p q = nodeCell red val str dir q p := by
  cases dir <;> rfl

theorem nodeCell_setRed (red' : Bool) :
    ({ nodeCell red val str dir p q with red := red' } : RedBlackNode) =
      nodeCell red' val str dir p q := by
  cases dir <;> rfl

theorem nodeCell_setVal (val' : ℤ) :
    ({ nodeCell red val str dir p q with val := val' } : RedBlackNode) =
      nodeCell red val' str dir p q := by
  cases dir <;> rfl

theorem nodeCell_setStr (str' : String) :
    ({ nodeCell red val str dir p q with str := str' } : RedBlackNode) =
      nodeCell red val str' dir p q := by
  cases dir <;> rfl

end nodeCell

namespace Tree

/-- The cells a tree occupies. -/
def cells : Tree → Multiset (ℕ × RedBlackNode)
  | nil => 0
  | node a red val str l r => {(a, ⟨val, str, l.ptr, r.ptr, red⟩)} + (l.cells + r.cells)

section mk

variable {a : ℕ} {red : Bool} {val : ℤ} {str : String} {dir : Bool} {x y : Tree}

@[simp] theorem mk_ptr : (mk a red val str dir x y).ptr = some a := by
  cases dir <;> rfl

@[simp] theorem mk_isRed : (mk a red val str dir x y).isRed = red := by
  cases dir <;> rfl

@[simp] theorem mk_paint (red' : Bool) :
    (mk a red val str dir x y).paint red' = mk a red' val str dir x y := by
  cases dir <;> rfl

@[simp] theorem mk_size : (mk a red val str dir x y).size = x.size + y.size + 1 := by
  cases dir
  · rfl
  · simp [mk, size, Nat.add_comm]

/-- The same node, seen from the other side. -/
theorem mk_not : mk a red val str (!dir) x y = mk a red val str dir y x := by
  cases dir <;> rfl

theorem mk_bindings : (mk a red val str dir x y).bindings =
    if dir then y.bindings ++ (val, str) :: x.bindings
    else x.bindings ++ (val, str) :: y.bindings := by
  cases dir <;> rfl

/-- The cells of a node: its own, those of the child on the side `dir`, those
of the other child. -/
theorem mk_cells : (mk a red val str dir x y).cells =
    {(a, nodeCell red val str dir x.ptr y.ptr)} + x.cells + y.cells := by
  cases dir <;> simp only [mk, cells, nodeCell, Bool.false_eq_true, if_true, if_false] <;> abel

end mk

/-- **Either side may come first**: a tree that is not empty is a `mk` on any
side. -/
theorem exists_mk (dir : Bool) {T : Tree} (hT : T ≠ nil) :
    ∃ a red val str x y, T = mk a red val str dir x y := by
  cases T with
  | nil => exact absurd rfl hT
  | node a red val str l r =>
    cases dir
    · exact ⟨a, red, val, str, l, r, rfl⟩
    · exact ⟨a, red, val, str, r, l, rfl⟩

/-- A tree that is not empty, seen on the side of its root where `val` is. -/
theorem exists_mk_toward (val : ℤ) {T : Tree} (hT : T ≠ nil) :
    ∃ a red k s X Y, T = mk a red k s (decide (k < val)) X Y := by
  cases T with
  | nil => exact absurd rfl hT
  | node a red k s l r =>
    by_cases hk : k < val
    · exact ⟨a, red, k, s, r, l, by simp [mk, hk]⟩
    · exact ⟨a, red, k, s, l, r, by simp [mk, hk]⟩

theorem eq_nil_of_ptr {T : Tree} (h : T.ptr = none) : T = nil := by
  cases T with
  | nil => rfl
  | node => cases h

theorem ptr_eq_none_iff {T : Tree} : T.ptr = none ↔ T = nil :=
  ⟨eq_nil_of_ptr, fun h => h ▸ rfl⟩

theorem ne_nil_of_isRed {T : Tree} (h : T.isRed = true) : T ≠ nil := by
  rintro rfl
  cases h

@[simp] theorem paint_ptr (T : Tree) (red : Bool) : (T.paint red).ptr = T.ptr := by
  cases T <;> rfl

@[simp] theorem paint_bindings (T : Tree) (red : Bool) :
    (T.paint red).bindings = T.bindings := by
  cases T <;> rfl

@[simp] theorem paint_size (T : Tree) (red : Bool) : (T.paint red).size = T.size := by
  cases T <;> rfl

theorem paint_isRed {T : Tree} (hT : T ≠ nil) (red : Bool) : (T.paint red).isRed = red := by
  cases T with
  | nil => exact absurd rfl hT
  | node => rfl

/-- As many bindings as nodes. -/
theorem length_bindings (T : Tree) : T.bindings.length = T.size := by
  induction T with
  | nil => rfl
  | node a red val str l r ihl ihr => simp [bindings, size, ihl, ihr, Nat.add_assoc]

/-- A tree occupies one cell for each node. -/
theorem card_cells (T : Tree) : T.cells.card = T.size := by
  induction T with
  | nil => rfl
  | node a red val str l r ihl ihr => simp [cells, size, ihl, ihr, Nat.add_comm]

/-- The pointer to a tree points into its cells. -/
theorem exists_cell_of_ptr {T : Tree} {a : ℕ} (h : T.ptr = some a) :
    ∃ c R, T.cells = {(a, c)} + R := by
  cases T with
  | nil => cases h
  | node b red val str l r =>
    obtain rfl := Option.some.inj h
    exact ⟨_, _, rfl⟩

end Tree

/-- The way from the sentinel `head` down to a place in the tree.  A `down`
step leaves a node on the side `dir`, with `sib` the subtree on the other
side. -/
inductive Path where
  | head (addr : ℕ) (red : Bool)
  | down (addr : ℕ) (red : Bool) (val : ℤ) (str : String) (dir : Bool) (sib : Tree) (up : Path)

namespace Path

/-- The address of the node the path ends in. -/
def addr : Path → ℕ
  | head a _ => a
  | down a _ _ _ _ _ _ => a

/-- The side on which the path leaves the node it ends in. -/
def dir : Path → Bool
  | head _ _ => true
  | down _ _ _ _ d _ _ => d

/-- The path to the parent of the node the path ends in; the sentinel has
none. -/
def up : Path → Path
  | head a red => head a red
  | down _ _ _ _ _ _ up => up

/-- The sentinel the path starts from. -/
def sentinel : Path → Path
  | head a red => head a red
  | down _ _ _ _ _ _ up => up.sentinel

/-- The pointer to the node the path ends in, nil for the sentinel: what
`Insert` starts `parent` and `gparent` with. -/
def nodePtr : Path → Ptr
  | head _ _ => none
  | down a _ _ _ _ _ _ => some a

/-- The tree with `T` at the end of the path. -/
def plug : Path → Tree → Tree
  | head _ _, T => T
  | down a red val str d sib up, T => up.plug (Tree.mk a red val str d T sib)

/-- The bindings to the left of the end of the path. -/
def before : Path → List (ℤ × String)
  | head _ _ => []
  | down _ _ val str d sib up => if d then up.before ++ sib.bindings ++ [(val, str)] else up.before

/-- The bindings to the right of the end of the path. -/
def after : Path → List (ℤ × String)
  | head _ _ => []
  | down _ _ val str d sib up => if d then up.after else (val, str) :: sib.bindings ++ up.after

/-- The cells of a path whose end points to `p`. -/
def cells : Path → Ptr → Multiset (ℕ × RedBlackNode)
  | head a red, p => {(a, ⟨0, "", none, p, red⟩)}
  | down a red val str d sib up, p =>
      {(a, nodeCell red val str d p sib.ptr)} + sib.cells + up.cells (some a)

theorem plug_bindings (C : Path) (T : Tree) :
    (C.plug T).bindings = C.before ++ T.bindings ++ C.after := by
  induction C generalizing T with
  | head => simp [plug, before, after]
  | down a red val str d sib up ih =>
    rw [plug, ih, Tree.mk_bindings]
    cases d <;> simp [before, after]

/-- **One step down** changes which cells are the path and which the tree, and
no cell. -/
theorem cells_down (C : Path) (a : ℕ) (red : Bool) (val : ℤ) (str : String) (d : Bool)
    (X Y : Tree) : C.cells (some a) + (Tree.mk a red val str d X Y).cells =
      (down a red val str d Y C).cells X.ptr + X.cells := by
  rw [cells, Tree.mk_cells]
  abel

/-- **A path and a tree are the tree they plug to**, and the sentinel that
points to it. -/
theorem cells_plug (C : Path) (T : Tree) :
    C.cells T.ptr + T.cells = C.sentinel.cells (C.plug T).ptr + (C.plug T).cells := by
  induction C generalizing T with
  | head h red => rfl
  | down a red val str d sib up ih =>
    rw [plug, sentinel, ← ih, Tree.mk_ptr, cells_down]

/-- The node at the end of a path is one cell of it, and its pointer down is
the only thing that changes with the tree there. -/
theorem cells_eq_end (C : Path) : ∃ (n : RedBlackNode) (R : Multiset (ℕ × RedBlackNode)),
    n.child C.dir = none ∧ ∀ p, C.cells p = {(C.addr, n.setChild C.dir p)} + R := by
  cases C with
  | head h red => exact ⟨⟨0, "", none, none, red⟩, 0, rfl, fun p => rfl⟩
  | down a red val str d sib up =>
    refine ⟨nodeCell red val str d none sib.ptr, sib.cells + up.cells (some a),
      nodeCell_child, fun p => ?_⟩
    simp [cells, addr, dir]

end Path

end Hashring
end Ringpop
