/-
# What the pointer operations do to trees and paths

One rule for each operation of `hashring/rbtree.go` that touches the store, on
the trees and paths of `Ringpop.Hashring.RedBlackShape`.  `isRed_bind` and
`setRed_bind` read and paint the root of a tree; `setChild_end_bind` hangs a tree at
the end of a path; `singleRotate_bind` and `doubleRotate_bind` are the two
rotations, with the subtrees they move.  The two tests on pointers come out as
sides: `ggparent.right == gparent` is the side on which the path leaves
`ggparent` (`rightIs_bind`), and `node == parent.Child(last)` fails when the last
two steps went to different sides (`ptr_ne_of_holds`), because a node is the
child of another on one side only.
-/

import Ringpop.Hashring.RedBlackShape

namespace Ringpop
namespace Hashring

open CellStore

variable {β : Type} {M R : Multiset (ℕ × RedBlackNode)}
  {Q : β → Multiset (ℕ × RedBlackNode) → Prop}

/-- `Child` of a cell that is held. -/
theorem child_bind {a : ℕ} {c : RedBlackNode} {d : Bool} {f : Ptr → Exec RedBlackNode β}
    (hM : M = {(a, c)} + R) (h : Triple M (f (c.child d)) Q) :
    Triple M (child (some a) d >>= f) Q := by
  rw [child, bind_assoc]
  refine Triple.load_bind (c := c) (by rw [hM]; simp) ?_
  rw [pure_bind]
  exact h

/-- `isRed` of the root of a tree that is held. -/
theorem isRed_bind {T : Tree} {f : Bool → Exec RedBlackNode β} (hM : M = T.cells + R)
    (h : Triple M (f T.isRed) Q) : Triple M (isRed T.ptr >>= f) Q := by
  cases T with
  | nil => exact h
  | node a red val str l r =>
    have hc : (a, (⟨val, str, l.ptr, r.ptr, red⟩ : RedBlackNode)) ∈ M := by
      rw [hM]
      simp [Tree.cells]
    simp only [isRed, Tree.ptr, reduceCtorEq, if_false, bind_assoc]
    refine Triple.load_bind hc ?_
    rw [pure_bind]
    exact h

/-- The colour of a child. -/
theorem child_isRed_bind {a : ℕ} {c d : Bool} {k : ℤ} {s : String} {X Y : Tree}
    {f : Bool → Exec RedBlackNode β} (hM : M = (Tree.mk a c k s d X Y).cells + R)
    (h : Triple M (f X.isRed) Q) :
    Triple M (child (some a) d >>= fun x => isRed x >>= f) Q := by
  have ha : M = {(a, nodeCell c k s d X.ptr Y.ptr)} + (X.cells + Y.cells + R) := by
    rw [hM, Tree.mk_cells]
    abel
  have hX : M = X.cells + ({(a, nodeCell c k s d X.ptr Y.ptr)} + (Y.cells + R)) := by
    rw [ha]
    abel
  refine child_bind ha ?_
  rw [nodeCell_child]
  exact isRed_bind hX h

/-- The colour of the other child. -/
theorem child_not_isRed_bind {a : ℕ} {c d : Bool} {k : ℤ} {s : String} {X Y : Tree}
    {f : Bool → Exec RedBlackNode β} (hM : M = (Tree.mk a c k s d X Y).cells + R)
    (h : Triple M (f Y.isRed) Q) :
    Triple M (child (some a) (!d) >>= fun x => isRed x >>= f) Q := by
  rw [← Tree.mk_not] at hM
  exact child_isRed_bind hM h

/-- The assignment of a colour to the root of a tree that is held. -/
theorem setRed_bind {T : Tree} {red : Bool} {f : Unit → Exec RedBlackNode β} (hT : T ≠ .nil)
    (hM : M = T.cells + R) (h : Triple ((T.paint red).cells + R) (f ()) Q) :
    Triple M (setRed T.ptr red >>= f) Q := by
  cases T with
  | nil => exact absurd rfl hT
  | node a red' val str l r =>
    rw [Tree.cells, add_assoc] at hM
    refine Triple.modify_bind hM ?_
    simpa only [Tree.paint, Tree.cells, add_assoc] using h

/-- The same, for a node whose address is known. -/
theorem setRed_mk_bind {a : ℕ} {c red d : Bool} {k : ℤ} {s : String} {X Y : Tree}
    {f : Unit → Exec RedBlackNode β} (hM : M = (Tree.mk a c k s d X Y).cells + R)
    (h : Triple ((Tree.mk a red k s d X Y).cells + R) (f ()) Q) :
    Triple M (setRed (some a) red >>= f) Q := by
  rw [Tree.mk_cells, add_assoc, add_assoc] at hM
  refine Triple.modify_bind hM ?_
  rw [nodeCell_setRed]
  rwa [Tree.mk_cells, add_assoc, add_assoc] at h

/-- **A rotation.**  `g` with its child `p` on the other side than `dir` becomes
`p` with the child `g` on the side `dir`; the inner subtree `B` changes parents,
`g` becomes red and `p` black. -/
theorem singleRotate_bind {g p : ℕ} {cg cp dir : Bool} {kg kp : ℤ} {sg sp : String} {A B C : Tree}
    {f : Ptr → Exec RedBlackNode β}
    (hM : M = (Tree.mk g cg kg sg dir C (.mk p cp kp sp dir B A)).cells + R)
    (h : Triple ((Tree.mk p false kp sp dir (.mk g true kg sg dir C B) A).cells + R)
      (f (some p)) Q) : Triple M (singleRotate (some g) dir >>= f) Q := by
  have hg : M = {(g, nodeCell cg kg sg dir C.ptr (some p))} +
      ({(p, nodeCell cp kp sp dir B.ptr A.ptr)} + (A.cells + B.cells + C.cells + R)) := by
    rw [hM, Tree.mk_cells, Tree.mk_cells, Tree.mk_ptr]
    abel
  simp only [singleRotate, bind_assoc]
  refine child_bind hg ?_
  rw [nodeCell_child_not]
  refine child_bind (hg.trans (add_left_comm ..)) ?_
  rw [nodeCell_child]
  refine Triple.modify_bind hg ?_
  rw [nodeCell_setChild_not]
  refine Triple.modify_bind (add_left_comm ..) ?_
  rw [nodeCell_setChild]
  refine Triple.modify_bind (add_left_comm ..) ?_
  rw [nodeCell_setRed]
  refine Triple.modify_bind (add_left_comm ..) ?_
  rw [nodeCell_setRed, pure_bind]
  convert h using 1
  rw [Tree.mk_cells, Tree.mk_cells, Tree.mk_ptr]
  abel

/-- **A double rotation.**  The inner grandchild `q` of `g`, on the other side
than `dir`, comes to the top with `g` and `p` as its children, both red. -/
theorem doubleRotate_bind {g p q : ℕ} {cg cp cq dir : Bool} {kg kp kq : ℤ} {sg sp sq : String}
    {A B₁ B₂ C : Tree} {f : Ptr → Exec RedBlackNode β}
    (hM : M = (Tree.mk g cg kg sg dir C
      (.mk p cp kp sp dir (.mk q cq kq sq dir B₂ B₁) A)).cells + R)
    (h : Triple ((Tree.mk q false kq sq dir (.mk g true kg sg dir C B₂)
      (.mk p true kp sp dir B₁ A)).cells + R) (f (some q)) Q) :
    Triple M (doubleRotate (some g) dir >>= f) Q := by
  have hg : M = {(g, nodeCell cg kg sg dir C.ptr (some p))} + (C.cells +
      ((Tree.mk p cp kp sp dir (.mk q cq kq sq dir B₂ B₁) A).cells + R)) := by
    rw [hM, Tree.mk_cells, Tree.mk_ptr]
    abel
  -- the inner rotation is the same one seen from the other side
  have hp : M = (Tree.mk p cp kp sp (!dir) A (.mk q cq kq sq (!dir) B₁ B₂)).cells +
      ({(g, nodeCell cg kg sg dir C.ptr (some p))} + (C.cells + R)) := by
    rw [hg, Tree.mk_not, Tree.mk_not]
    abel
  simp only [doubleRotate, bind_assoc]
  refine child_bind hg ?_
  rw [nodeCell_child_not]
  refine singleRotate_bind hp ?_
  rw [Tree.mk_not, Tree.mk_not]
  refine Triple.modify_bind (add_left_comm ..) ?_
  rw [nodeCell_setChild_not]
  have hq : {(g, nodeCell cg kg sg dir C.ptr (some q))} +
      ((Tree.mk q false kq sq dir B₂ (.mk p true kp sp dir B₁ A)).cells + (C.cells + R)) =
      (Tree.mk g cg kg sg dir C
        (.mk q false kq sq dir B₂ (.mk p true kp sp dir B₁ A))).cells + R := by
    rw [Tree.mk_cells (a := g), Tree.mk_ptr]
    abel
  exact singleRotate_bind hq h

/-- Hanging a tree at the end of a path. -/
theorem setChild_end_bind {C : Path} {p q : Ptr} {f : Unit → Exec RedBlackNode β}
    (hM : M = C.cells p + R) (h : Triple (C.cells q + R) (f ()) Q) :
    Triple M (setChild (some C.addr) C.dir q >>= f) Q := by
  obtain ⟨n, S, -, hC⟩ := C.cells_eq_end
  rw [hC, add_assoc] at hM
  rw [hC, add_assoc] at h
  refine Triple.modify_bind hM ?_
  have hset : (n.setChild C.dir p).setChild C.dir q = n.setChild C.dir q := by
    cases C.dir <;> rfl
  rw [hset]
  exact h

/-- The tree that hangs at the end of a path. -/
theorem child_end_bind {C : Path} {p : Ptr} {f : Ptr → Exec RedBlackNode β}
    (hM : M = C.cells p + R) (h : Triple M (f p) Q) :
    Triple M (child (some C.addr) C.dir >>= f) Q := by
  obtain ⟨n, S, -, hC⟩ := C.cells_eq_end
  rw [hC, add_assoc] at hM
  refine child_bind hM ?_
  have hset : (n.setChild C.dir p).child C.dir = p := by
    cases C.dir <;> rfl
  rw [hset]
  exact h

/-- A tree and its sibling have different roots. -/
theorem ptr_ne_of_holds {s : Store RedBlackNode} {T U : Tree} (hs : s.Holds (T.cells + U.cells + R))
    (hT : T ≠ .nil) : U.ptr ≠ T.ptr := by
  intro heq
  cases hp : T.ptr with
  | none => exact hT (Tree.eq_nil_of_ptr hp)
  | some a =>
    obtain ⟨c, S, hTc⟩ := Tree.exists_cell_of_ptr hp
    obtain ⟨c', S', hUc⟩ := Tree.exists_cell_of_ptr (heq.trans hp)
    refine hs.ne (a := a) (b := a) (c := c) (d := c') (R := S + S' + R) ?_ rfl
    rw [hTc, hUc]
    abel

/-- **The test `ggparent.right == gparent`** tells the side on which the path
leaves `ggparent`. -/
theorem rightIs_bind {C : Path} {T : Tree} {g : ℕ} {f : Bool → Exec RedBlackNode β}
    (hg : T.ptr = some g) (hM : M = C.cells (some g) + T.cells + R) (h : Triple M (f C.dir) Q) :
    Triple M (rightIs (some C.addr) (some g) >>= f) Q := by
  have hT : T ≠ .nil := by
    rintro rfl
    cases hg
  refine Triple.of_holds ?_
  rintro ⟨s, hs⟩
  simp only [rightIs, bind_assoc, pure_bind]
  cases C with
  | head a red =>
    refine Triple.load_bind (c := ⟨0, "", none, some g, red⟩)
      (by rw [hM]; simp [Path.cells, Path.addr]) ?_
    simpa [Path.dir] using h
  | down a red val str d sib up =>
    refine Triple.load_bind (c := nodeCell red val str d (some g) sib.ptr)
      (by rw [hM]; simp [Path.cells, Path.addr]) ?_
    have hne : sib.ptr ≠ T.ptr := by
      refine ptr_ne_of_holds (s := s)
        (R := {(a, nodeCell red val str d (some g) sib.ptr)} + up.cells (some a) + R) ?_ hT
      convert hs using 1
      rw [hM, Path.cells]
      abel
    have hdec : decide ((nodeCell red val str d (some g) sib.ptr).right = some g) = d := by
      cases d
      · simpa [nodeCell, hg] using hne
      · simp [nodeCell]
    rw [hdec]
    exact h

end Hashring
end Ringpop
