/-
# `Insert` keeps the tree, its colours and its order

The loop of `Insert` walks down from the sentinel with `node` and three
ancestors, flipping colours on the way and rotating where a flip or the new node
puts a red node under a red one.  After a rotation the three ancestors are no
longer parent, grandparent and great-grandparent of `node`; they are again a few
steps later.  What makes this safe is that no second rotation can be needed
before that, and the invariant of the loop says so in three phases:

* `OpenAt`: `parent` is the parent of `node`, and where the parent is red, so
  that a rotation is possible, `gparent` and `ggparent` are right as well;
* `QuietAt`: only `parent` is right, but `node` is a node that was red until its
  parent was flipped, so it is black with two black children: no flip, no
  rotation;
* `PreQuietAt`, after a double rotation: `node` is one of the two red nodes that
  the rotation put below the new top, and the way goes on to a node as above.
-/

import Ringpop.Hashring.RedBlackBalance

namespace Ringpop
namespace Hashring

open CellStore

variable {β : Type} {M R : Multiset (ℕ × RedBlackNode)}
  {Q : β → Multiset (ℕ × RedBlackNode) → Prop}

/-! ### The branches of the loop -/

/-- `isRed` of the node a path ends in; the sentinel is never asked. -/
theorem isRed_end_bind {C : Path} {p : Ptr} {f : Bool → Exec RedBlackNode β}
    (hM : M = C.cells p + R) (h : Triple M (f C.isRed) Q) :
    Triple M (isRed C.nodePtr >>= f) Q := by
  cases C with
  | head => exact h
  | down a red val str d sib up =>
    have hc : (a, nodeCell red val str d p sib.ptr) ∈ M := by
      rw [hM]
      simp [Path.cells]
    simp only [isRed, Path.nodePtr, reduceCtorEq, if_false, bind_assoc]
    refine Triple.load_bind hc ?_
    rw [pure_bind, nodeCell_red]
    exact h

/-- The condition `isRed(node) && …`, which looks further only below a red
node. -/
theorem isRed_andM_bind {T : Tree} {y : Exec RedBlackNode Bool} {f : Bool → Exec RedBlackNode β}
    (hM : M = T.cells + R) (hred : T.isRed = true → Triple M (y >>= f) Q)
    (hblack : T.isRed = false → Triple M (f false) Q) :
    Triple M ((isRed T.ptr <&&> y) >>= f) Q := by
  simp only [andM, bind_assoc]
  refine isRed_bind hM ?_
  cases h : T.isRed with
  | true => exact hred h
  | false =>
    simp only [toBool, pure_bind]
    exact hblack h

/-- At the bottom, `Insert` hangs a new red node at the end of the path. -/
theorem growOrFlip_nil_bind {val : ℤ} {str : String} {v : InsertVars} {C : Path}
    {f : Ptr × Bool → Exec RedBlackNode β} (hnode : v.node = none)
    (hparent : v.parent = some C.addr) (hdir : v.dir = C.dir)
    (h : ∀ a, Triple (C.cells (some a) + (Tree.mk a true val str false .nil .nil).cells)
      (f (some a, true)) Q) : Triple (C.cells none) (growOrFlip val str v >>= f) Q := by
  simp only [growOrFlip, hnode, if_true, bind_assoc, hparent, hdir]
  refine Triple.alloc_bind fun a _ => ?_
  refine setChild_end_bind (add_comm ..) ?_
  rw [pure_bind]
  exact h a

/-- A node with two red children is flipped. -/
theorem growOrFlip_flip_bind {val : ℤ} {str : String} {v : InsertVars} {q : ℕ} {cq d : Bool}
    {kq : ℤ} {sq : String} {X Y : Tree} {f : Ptr × Bool → Exec RedBlackNode β}
    (hnode : v.node = some q) (hX : X.isRed = true) (hY : Y.isRed = true)
    (hM : M = (Tree.mk q cq kq sq d X Y).cells + R)
    (h : Triple ((Tree.mk q true kq sq d (X.paint false) (Y.paint false)).cells + R)
      (f (some q, false)) Q) : Triple M (growOrFlip val str v >>= f) Q := by
  have hXn := Tree.ne_nil_of_isRed hX
  have hYn := Tree.ne_nil_of_isRed hY
  -- the side `d` is only a way to name the children: the code reads left, then right
  obtain ⟨l, r, hl, hr, hmk, hmk'⟩ : ∃ l r : Tree, l.isRed = true ∧ r.isRed = true ∧
      Tree.mk q cq kq sq d X Y = .node q cq kq sq l r ∧
      Tree.mk q true kq sq d (X.paint false) (Y.paint false) =
        .node q true kq sq (l.paint false) (r.paint false) := by
    cases d
    · exact ⟨X, Y, hX, hY, rfl, rfl⟩
    · exact ⟨Y, X, hY, hX, rfl, rfl⟩
  rw [hmk, Tree.cells] at hM
  rw [hmk', Tree.cells] at h
  simp only [growOrFlip, hnode, reduceCtorEq, if_false, bind_assoc]
  refine Triple.load_bind (c := ⟨kq, sq, l.ptr, r.ptr, cq⟩) (by rw [hM]; simp) ?_
  refine isRed_andM_bind (hM.trans (by abel : _ =
      l.cells + ({(q, ⟨kq, sq, l.ptr, r.ptr, cq⟩)} + r.cells + R))) (fun _ => ?_)
    (fun hl' => by simp [hl] at hl')
  refine isRed_bind (hM.trans (by abel : _ =
      r.cells + ({(q, ⟨kq, sq, l.ptr, r.ptr, cq⟩)} + l.cells + R))) ?_
  rw [hr, if_pos rfl]
  simp only [bind_assoc]
  refine Triple.modify_bind (hM.trans (add_assoc ..)) ?_
  refine setRed_bind (Tree.ne_nil_of_isRed hl) (by abel : _ =
      l.cells + ({(q, ⟨kq, sq, l.ptr, r.ptr, true⟩)} + r.cells + R)) ?_
  refine setRed_bind (Tree.ne_nil_of_isRed hr) (by abel : _ =
      r.cells + ({(q, ⟨kq, sq, l.ptr, r.ptr, true⟩)} + (l.paint false).cells + R)) ?_
  rw [pure_bind]
  convert h using 1
  simp only [Tree.paint_ptr]
  abel

/-- A node whose children are not both red is left alone. -/
theorem growOrFlip_skip_bind {val : ℤ} {str : String} {v : InsertVars} {T : Tree} {q : ℕ}
    {cq d : Bool} {kq : ℤ} {sq : String} {X Y : Tree} {f : Ptr × Bool → Exec RedBlackNode β}
    (hnode : v.node = some q) (hXY : ¬(X.isRed = true ∧ Y.isRed = true))
    (hT : T = Tree.mk q cq kq sq d X Y) (hM : M = T.cells + R)
    (h : Triple M (f (some q, false)) Q) : Triple M (growOrFlip val str v >>= f) Q := by
  obtain ⟨l, r, hlr, hmk⟩ : ∃ l r : Tree, ¬(l.isRed = true ∧ r.isRed = true) ∧
      T = .node q cq kq sq l r := by
    cases d
    · exact ⟨X, Y, hXY, hT⟩
    · exact ⟨Y, X, fun h => hXY h.symm, hT⟩
  rw [hmk, Tree.cells] at hM
  simp only [growOrFlip, hnode, reduceCtorEq, if_false, bind_assoc]
  refine Triple.load_bind (c := ⟨kq, sq, l.ptr, r.ptr, cq⟩) (by rw [hM]; simp) ?_
  refine isRed_andM_bind (hM.trans (by abel : _ =
      l.cells + ({(q, ⟨kq, sq, l.ptr, r.ptr, cq⟩)} + r.cells + R))) (fun hl => ?_)
    (fun hl => by simpa using h)
  refine isRed_bind (hM.trans (by abel : _ =
      r.cells + ({(q, ⟨kq, sq, l.ptr, r.ptr, cq⟩)} + l.cells + R))) ?_
  have hr : r.isRed = false := by
    rw [← Bool.not_eq_true]
    exact fun hr => hlr ⟨hl, hr⟩
  rw [hr]
  simpa using h

/-- Where `node` and `parent` are not both red, nothing is rotated. -/
theorem fixRedViolation_skip_bind {v : InsertVars} {C : Path} {T : Tree} {q : ℕ}
    {f : Unit → Exec RedBlackNode β} (hq : T.ptr = some q) (hparent : v.parent = C.nodePtr)
    (hred : ¬(T.isRed = true ∧ C.isRed = true)) (hM : M = C.cells (some q) + T.cells)
    (h : Triple M (f ()) Q) : Triple M (fixRedViolation v (some q) >>= f) Q := by
  rw [← hq] at hM ⊢
  simp only [fixRedViolation, bind_assoc, hparent]
  refine isRed_andM_bind (hM.trans (add_comm ..)) (fun hT => ?_) (fun _ => by simpa using h)
  refine isRed_end_bind (R := T.cells) hM ?_
  have hC : C.isRed = false := by
    rw [← Bool.not_eq_true]
    exact fun hC => hred ⟨hT, hC⟩
  rw [hC]
  simpa using h

/-- **The outer case**: `node` is on the same side of `parent` as `parent` of
`gparent`, and `parent` takes the place of `gparent`. -/
theorem fixRedViolation_single_bind {v : InsertVars} {p g : ℕ} {cg last : Bool} {kp kg : ℤ}
    {sp sg : String} {sib uncle T : Tree} {up : Path} {f : Unit → Exec RedBlackNode β}
    (hparent : v.parent = some p) (hgparent : v.gparent = some g)
    (hggparent : v.ggparent = some up.addr) (hlast : v.last = last) (hT : T.isRed = true)
    (hM : M = (Path.down p true kp sp last sib (.down g cg kg sg last uncle up)).cells T.ptr +
      T.cells)
    (h : Triple ((Path.down p false kp sp last (.mk g true kg sg last sib uncle) up).cells T.ptr +
      T.cells) (f ()) Q) : Triple M (fixRedViolation v T.ptr >>= f) Q := by
  -- the whole subtree of `gparent`, as `ggparent` sees it
  have hg : M = up.cells (some g) + (Tree.mk g cg kg sg (!last) uncle
      (.mk p true kp sp (!last) sib T)).cells + 0 := by
    rw [hM, Tree.mk_not, Tree.mk_not, Tree.mk_cells, Tree.mk_cells, Tree.mk_ptr, Path.cells,
      Path.cells]
    abel
  have hp : M = {(p, nodeCell true kp sp last T.ptr sib.ptr)} +
      (sib.cells + (Path.down g cg kg sg last uncle up).cells (some p) + T.cells) := by
    rw [hM, Path.cells]
    abel
  simp only [fixRedViolation, bind_assoc, hparent, hgparent, hggparent, hlast]
  refine isRed_andM_bind (hM.trans (add_comm ..)) (fun _ => ?_) (fun hT' => by simp [hT] at hT')
  refine isRed_end_bind (C := .down p true kp sp last sib (.down g cg kg sg last uncle up)) hM ?_
  simp only [Path.isRed, if_true, bind_assoc]
  refine rightIs_bind Tree.mk_ptr hg ?_
  refine child_bind hp ?_
  simp only [nodeCell_child, if_true, bind_assoc]
  refine singleRotate_bind (hg.trans (by abel : _ = _ + up.cells (some g))) ?_
  refine setChild_end_bind (add_comm ..) ?_
  convert h using 1
  rw [Tree.mk_not, Tree.mk_not, Tree.mk_cells, Tree.mk_ptr, Path.cells, Tree.mk_ptr]
  abel

/-- **The inner case**: `node` is on the other side of `parent` than `parent` of
`gparent`, and takes the place of `gparent` with the two as its children. -/
theorem fixRedViolation_double_bind {v : InsertVars} {p g q : ℕ} {cg cq last : Bool}
    {kp kg kq : ℤ} {sp sg sq : String} {sib uncle X Y T : Tree} {up : Path}
    {f : Unit → Exec RedBlackNode β} (hparent : v.parent = some p) (hgparent : v.gparent = some g)
    (hggparent : v.ggparent = some up.addr) (hlast : v.last = last)
    (hT : T = .mk q cq kq sq (!last) X Y) (hred : T.isRed = true)
    (hM : M = (Path.down p true kp sp (!last) sib (.down g cg kg sg last uncle up)).cells T.ptr +
      T.cells)
    (h : Triple (up.cells (some q) + (Tree.mk q false kq sq (!last)
      (.mk g true kg sg (!last) uncle X) (.mk p true kp sp (!last) Y sib)).cells) (f ()) Q) :
    Triple M (fixRedViolation v T.ptr >>= f) Q := by
  have hg : M = up.cells (some g) + (Tree.mk g cg kg sg (!last) uncle
      (.mk p true kp sp (!last) T sib)).cells + 0 := by
    rw [hM, Tree.mk_not (x := uncle), Tree.mk_cells, Tree.mk_cells, Tree.mk_ptr, Path.cells,
      Path.cells]
    abel
  have hp : M = {(p, nodeCell true kp sp (!last) T.ptr sib.ptr)} +
      (sib.cells + (Path.down g cg kg sg last uncle up).cells (some p) + T.cells) := by
    rw [hM, Path.cells]
    abel
  refine Triple.of_holds ?_
  rintro ⟨s, hs⟩
  have hne : T.ptr ≠ sib.ptr := by
    refine (ptr_ne_of_holds (s := s) (R := {(p, nodeCell true kp sp (!last) T.ptr sib.ptr)} +
      (Path.down g cg kg sg last uncle up).cells (some p)) ?_ (Tree.ne_nil_of_isRed hred)).symm
    convert hs using 1
    rw [hp]
    abel
  simp only [fixRedViolation, bind_assoc, hparent, hgparent, hggparent, hlast]
  refine isRed_andM_bind (hM.trans (add_comm ..)) (fun _ => ?_)
    (fun hred' => by simp [hred] at hred')
  refine isRed_end_bind (C := .down p true kp sp (!last) sib (.down g cg kg sg last uncle up))
    hM ?_
  simp only [Path.isRed, if_true, bind_assoc]
  refine rightIs_bind Tree.mk_ptr hg ?_
  refine child_bind hp ?_
  have hlast' : (nodeCell true kp sp (!last) T.ptr sib.ptr).child last = sib.ptr := by
    rw [nodeCell_not, nodeCell_child]
  rw [hlast', if_neg hne, bind_assoc]
  refine doubleRotate_bind (hg.trans (by rw [hT]; abel : _ = _ + up.cells (some g))) ?_
  refine setChild_end_bind (add_comm ..) ?_
  exact h

end Hashring
end Ringpop
