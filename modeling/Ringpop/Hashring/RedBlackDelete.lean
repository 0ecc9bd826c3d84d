/-
# `Delete` pushes a red node down

Before `Delete` steps below a node it makes that node, or the child it steps to,
red, so that what it unlinks at the end is a red leaf and no black height
changes.  `pushRed` does it, and this file says what each of its branches does
to the cells: the red child on the other side comes up (`pushRed_rotate_bind`);
below the sentinel there is no sibling and nothing happens
(`pushRed_top_bind`); otherwise a sibling with two black children takes part in a
colour flip, and a red child of the sibling, near or far, comes up by a rotation at
the parent (`pushRed_down_bind`).
-/

import Ringpop.Hashring.RedBlackInsert

namespace Ringpop
namespace Hashring

open CellStore

variable {β : Type} {M R : Multiset (ℕ × RedBlackNode)}
  {Q : β → Multiset (ℕ × RedBlackNode) → Prop}

/-- The condition `!isRed(x) && …`, which looks further only at a black
child. -/
theorem not_isRed_andM_bind {a : ℕ} {c d : Bool} {k : ℤ} {s : String} {X Y : Tree}
    {y : Exec RedBlackNode Bool} {f : Bool → Exec RedBlackNode β}
    (hM : M = (Tree.mk a c k s d X Y).cells + R)
    (hblack : Y.isRed = false → Triple M (y >>= f) Q)
    (hred : Y.isRed = true → Triple M (f false) Q) :
    Triple M (((! ·) <$> (child (some a) (!d) >>= isRed) <&&> y) >>= f) Q := by
  simp only [andM, bind_assoc, map_eq_pure_bind]
  refine child_not_isRed_bind hM ?_
  rw [pure_bind]
  cases h : Y.isRed with
  | true =>
    simp only [toBool, Bool.not_true, pure_bind]
    exact hred h
  | false => exact hblack h

/-- The last part of the branch with a rotation: the new top of the subtree and
`node` become red, the two children of the top black. -/
theorem recolor_bind {f : Unit → Exec RedBlackNode β} {r p a : ℕ} {c cp b : Bool} {kr kp : ℤ}
    {sr sp : String} {q : Ptr} {T S : Tree} (ha : T.ptr = some a) (hS : S ≠ .nil)
    (hM : M = {(r, nodeCell c kr sr b (some p) S.ptr)} +
      ({(p, nodeCell cp kp sp b (some a) q)} + (T.cells + (S.cells + R))))
    (h : Triple ({(r, nodeCell true kr sr b (some p) S.ptr)} +
      ({(p, nodeCell false kp sp b (some a) q)} +
        ((T.paint true).cells + ((S.paint false).cells + R)))) (f ()) Q) :
    Triple M (do
      setRed (some r) true
      setRed (some a) true
      let g ← load (some r)
      setRed g.left false
      setRed g.right false
      f ()) Q := by
  have hT : T ≠ .nil := by
    rintro rfl
    cases ha
  refine Triple.modify_bind hM ?_
  rw [nodeCell_setRed, ← ha]
  refine setRed_bind hT (by abel : _ = T.cells + ({(r, nodeCell true kr sr b (some p) S.ptr)} +
    ({(p, nodeCell cp kp sp b T.ptr q)} + (S.cells + R)))) ?_
  refine Triple.load_bind (c := nodeCell true kr sr b (some p) S.ptr) (by simp) ?_
  rw [ha]
  -- the two children are painted in the order left, right
  cases b with
  | false =>
    refine Triple.modify_bind (a := p) (by abel : _ = {(p, nodeCell cp kp sp false (some a) q)} +
      ((T.paint true).cells + ({(r, nodeCell true kr sr false (some p) S.ptr)} +
        (S.cells + R)))) ?_
    rw [nodeCell_setRed]
    refine setRed_bind hS (by abel : _ = S.cells + ({(p, nodeCell false kp sp false (some a) q)} +
      ((T.paint true).cells + ({(r, nodeCell true kr sr false (some p) S.ptr)} + R)))) ?_
    convert h using 1
    abel
  | true =>
    refine setRed_bind hS (by abel : _ = S.cells + ({(p, nodeCell cp kp sp true (some a) q)} +
      ((T.paint true).cells + ({(r, nodeCell true kr sr true (some p) S.ptr)} + R)))) ?_
    refine Triple.modify_bind (a := p) (by abel : _ = {(p, nodeCell cp kp sp true (some a) q)} +
      ((T.paint true).cells + ({(r, nodeCell true kr sr true (some p) S.ptr)} +
        ((S.paint false).cells + R)))) ?_
    rw [nodeCell_setRed]
    convert h using 1
    abel

section pushRed

variable {gparent : Ptr} {a : ℕ} {c d : Bool} {k : ℤ} {s : String} {X Y : Tree}
  {f : Ptr → Exec RedBlackNode β}

/-- **The red child on the other side comes up.** -/
theorem pushRed_rotate_bind {C : Path} {y : ℕ} {ky : ℤ} {sy : String} {Y₁ Y₂ : Tree}
    (hM : M = C.cells (some a) + (Tree.mk a c k s d X (.mk y true ky sy d Y₁ Y₂)).cells)
    (h : Triple (C.cells (some y) + (Tree.mk y false ky sy d (.mk a true k s d X Y₁) Y₂).cells)
      (f (some y)) Q) :
    Triple M (pushRed gparent (some C.addr) (some a) d C.dir >>= f) Q := by
  simp only [pushRed, bind_assoc]
  refine child_not_isRed_bind (hM.trans (add_comm ..)) ?_
  rw [Tree.mk_isRed, if_pos rfl]
  simp only [bind_assoc, pure_bind]
  refine singleRotate_bind (hM.trans (add_comm ..)) ?_
  refine setChild_end_bind (add_comm ..) ?_
  exact h

/-- **Below the sentinel there is no sibling**, and nothing is pushed. -/
theorem pushRed_top_bind {h₀ : ℕ} {c₀ : Bool} (hY : Y.isRed = false)
    (hM : M = (Path.head h₀ c₀).cells (some a) + (Tree.mk a c k s d X Y).cells)
    (h : Triple M (f (some h₀)) Q) :
    Triple M (pushRed gparent (some h₀) (some a) d true >>= f) Q := by
  simp only [pushRed, bind_assoc]
  refine child_not_isRed_bind (hM.trans (add_comm ..)) ?_
  rw [hY]
  simp only [Bool.false_eq_true, if_false, bind_assoc]
  refine child_bind (R := (Tree.mk a c k s d X Y).cells) hM ?_
  exact h

variable {p t : ℕ} {cp ct b : Bool} {kp kt : ℤ} {sp st : String} {up : Path}

/-- What the branches with a rotation do once the rotation, `rot`, is chosen. -/
def rotateAndRecolor (rot : Exec RedBlackNode Ptr) (C : Path) (a : ℕ) : Exec RedBlackNode Unit := do
  let top ← rot
  setChild (some C.addr) C.dir top
  let gpc ← child (some C.addr) C.dir
  setRed gpc true
  setRed (some a) true
  let g ← load gpc
  setRed g.left false
  setRed g.right false

/-- The way into the branches with a sibling: the other child of `node` is
black and the sibling is not nil. -/
theorem pushRed_sibling_bind {S₁ S₂ : Tree} (hY : Y.isRed = false)
    (hM : M = (Path.down p cp kp sp b (.mk t ct kt st b S₁ S₂) up).cells (some a) +
      (Tree.mk a c k s d X Y).cells)
    (hflip : S₁.isRed = false → S₂.isRed = false → Triple M (do
      setRed (some p) false
      setRed (some t) true
      setRed (some a) true
      f (some p)) Q)
    (hnear : S₁.isRed = true →
      Triple M (rotateAndRecolor (doubleRotate (some p) b) up a >>= fun _ => f (some p)) Q)
    (hfar : S₁.isRed = false → S₂.isRed = true →
      Triple M (rotateAndRecolor (singleRotate (some p) b) up a >>= fun _ => f (some p)) Q) :
    Triple M (pushRed (some up.addr) (some p) (some a) d b >>= f) Q := by
  have hp : M = {(p, nodeCell cp kp sp b (some a) (some t))} +
      ((Tree.mk t ct kt st b S₁ S₂).cells + up.cells (some p) +
        (Tree.mk a c k s d X Y).cells) := by
    rw [hM, Path.cells, Tree.mk_ptr]
    abel
  have htop : M = up.cells (some p) + (Tree.mk p cp kp sp b (.mk a c k s d X Y)
      (.mk t ct kt st b S₁ S₂)).cells + 0 := by
    rw [hp, Tree.mk_cells (a := p), Tree.mk_ptr, Tree.mk_ptr]
    abel
  have ht : M = (Tree.mk t ct kt st b S₁ S₂).cells +
      ({(p, nodeCell cp kp sp b (some a) (some t))} + up.cells (some p) +
        (Tree.mk a c k s d X Y).cells) := by
    rw [hp]
    abel
  simp only [rotateAndRecolor, bind_assoc] at hnear hfar
  simp only [pushRed, bind_assoc]
  refine child_not_isRed_bind (hM.trans (add_comm ..)) ?_
  rw [hY]
  simp only [Bool.false_eq_true, if_false, bind_assoc]
  refine child_bind hp ?_
  simp only [nodeCell_child_not, reduceCtorEq, if_false, bind_assoc]
  refine not_isRed_andM_bind ht (fun hS₂ => ?_) (fun hS₂ => ?_)
  · simp only [map_eq_pure_bind, bind_assoc, pure_bind]
    refine child_isRed_bind ht ?_
    cases hS₁ : S₁.isRed with
    | false => simpa using hflip hS₁ hS₂
    | true =>
      simp only [Bool.not_true, Bool.false_eq_true, if_false, bind_assoc]
      refine rightIs_bind Tree.mk_ptr htop ?_
      refine child_isRed_bind ht ?_
      simpa [hS₁] using hnear hS₁
  · simp only [Bool.false_eq_true, if_false, bind_assoc]
    refine rightIs_bind Tree.mk_ptr htop ?_
    refine child_isRed_bind ht ?_
    cases hS₁ : S₁.isRed with
    | true => simpa using hnear hS₁
    | false =>
      simp only [Bool.false_eq_true, if_false, bind_assoc]
      refine child_not_isRed_bind ht ?_
      simpa [hS₂] using hfar hS₁ hS₂

/-- After a rotation that leaves `top` over `parent` and `S`, with `node` below
`parent`, the top and `node` are red and the two children of the top black. -/
theorem rotateAndRecolor_bind {rot : Exec RedBlackNode Ptr} {r : ℕ} {kr : ℤ} {sr : String}
    {Z S : Tree} {g : Unit → Exec RedBlackNode β} (hS : S ≠ .nil)
    (hrot : ∀ g : Ptr → Exec RedBlackNode β, Triple (up.cells (some p) +
        (Tree.mk r false kr sr b (.mk p true kp sp b (.mk a c k s d X Y) Z) S).cells)
      (g (some r)) Q → Triple M (rot >>= g) Q)
    (h : Triple ((Path.down p false kp sp b Z (.down r true kr sr b (S.paint false) up)).cells
      (some a) + (Tree.mk a true k s d X Y).cells) (g ()) Q) :
    Triple M (rotateAndRecolor rot up a >>= g) Q := by
  simp only [rotateAndRecolor, bind_assoc]
  have htop : up.cells (some r) +
      (Tree.mk r false kr sr b (.mk p true kp sp b (.mk a c k s d X Y) Z) S).cells =
      {(r, nodeCell false kr sr b (some p) S.ptr)} +
        ({(p, nodeCell true kp sp b (some a) Z.ptr)} +
          ((Tree.mk a c k s d X Y).cells + (S.cells + (Z.cells + up.cells (some r))))) := by
    rw [Tree.mk_cells (a := r), Tree.mk_cells (a := p), Tree.mk_ptr, Tree.mk_ptr]
    abel
  refine hrot _ ?_
  refine setChild_end_bind rfl ?_
  refine child_end_bind rfl ?_
  refine recolor_bind Tree.mk_ptr hS htop ?_
  convert h using 1
  rw [Path.cells, Path.cells, Tree.mk_paint, Tree.paint_ptr]
  abel

/-- **Every branch with a sibling**, as the path and the tree it leaves: `node`
is red and its parent black. -/
theorem pushRed_down_bind {S₁ S₂ : Tree} (hY : Y.isRed = false)
    (hM : M = (Path.down p cp kp sp b (.mk t ct kt st b S₁ S₂) up).cells (some a) +
      (Tree.mk a c k s d X Y).cells)
    (hflip : S₁.isRed = false → S₂.isRed = false →
      Triple ((Path.down p false kp sp b (.mk t true kt st b S₁ S₂) up).cells (some a) +
        (Tree.mk a true k s d X Y).cells) (f (some p)) Q)
    (hnear : ∀ (r : ℕ) (kr : ℤ) (sr : String) (R₁ R₂ : Tree), S₁ = .mk r true kr sr b R₂ R₁ →
      Triple ((Path.down p false kp sp b R₂ (.down r true kr sr b (.mk t false kt st b R₁ S₂)
        up)).cells (some a) + (Tree.mk a true k s d X Y).cells) (f (some p)) Q)
    (hfar : S₁.isRed = false → S₂.isRed = true →
      Triple ((Path.down p false kp sp b S₁ (.down t true kt st b (S₂.paint false) up)).cells
        (some a) + (Tree.mk a true k s d X Y).cells) (f (some p)) Q) :
    Triple M (pushRed (some up.addr) (some p) (some a) d b >>= f) Q := by
  have htop : M = (Tree.mk p cp kp sp b (.mk a c k s d X Y) (.mk t ct kt st b S₁ S₂)).cells +
      up.cells (some p) := by
    rw [hM, Path.cells, Tree.mk_cells (a := p), Tree.mk_ptr, Tree.mk_ptr]
    abel
  refine pushRed_sibling_bind hY hM (fun h₁ h₂ => ?_) (fun h₁ => ?_) (fun h₁ h₂ => ?_)
  · refine setRed_mk_bind htop ?_
    have ht : (Tree.mk p false kp sp b (.mk a c k s d X Y) (.mk t ct kt st b S₁ S₂)).cells +
        up.cells (some p) = (Tree.mk t ct kt st b S₁ S₂).cells +
          ({(p, nodeCell false kp sp b (some a) (some t))} + ((Tree.mk a c k s d X Y).cells +
            up.cells (some p))) := by
      rw [Tree.mk_cells (a := p), Tree.mk_ptr, Tree.mk_ptr]
      abel
    refine setRed_mk_bind ht ?_
    refine setRed_mk_bind (by abel : _ = (Tree.mk a c k s d X Y).cells +
      ((Tree.mk t true kt st b S₁ S₂).cells + ({(p, nodeCell false kp sp b (some a) (some t))} +
        up.cells (some p)))) ?_
    convert hflip h₁ h₂ using 1
    rw [Path.cells, Tree.mk_ptr]
    abel
  · obtain ⟨r, cr, kr, sr, R₂, R₁, rfl⟩ := Tree.exists_mk b (Tree.ne_nil_of_isRed h₁)
    rw [Tree.mk_isRed] at h₁
    subst h₁
    refine rotateAndRecolor_bind (S := .mk t true kt st b R₁ S₂)
      (fun h => by simp [← Tree.ptr_eq_none_iff] at h)
      (fun g hg => doubleRotate_bind htop (by rwa [add_comm])) ?_
    rw [Tree.mk_paint]
    exact hnear r kr sr R₁ R₂ rfl
  · exact rotateAndRecolor_bind (Tree.ne_nil_of_isRed h₂)
      (fun g hg => singleRotate_bind htop (by rwa [add_comm])) (hfar h₁ h₂)

end pushRed

end Hashring
end Ringpop
