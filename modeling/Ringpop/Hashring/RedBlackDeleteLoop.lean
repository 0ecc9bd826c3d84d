/-
# The loop of `Delete`

On the way down `Delete` remembers the node that holds `val`, and goes on to its
left and then always to the right, to the binding just before it.  `Path.Found`
says where the remembered node is when the loop has passed it: it is the last
node the path left to the left, so its binding is the first one to the right of
the path, and rotations do not change that.  `Pushed` is the invariant on
colours: the node above is red, or the child it steps to is, or it is the root.
-/

import Ringpop.Hashring.RedBlackDelete

namespace Ringpop
namespace Hashring

open CellStore

/-- The node at `f`, with the value `val`, is the last one that the path has left
to the left. -/
def Path.Found : Path → ℕ → ℤ → Prop
  | head _ _, _, _ => False
  | down a _ k _ d _ up, f, val => if d then up.Found f val else a = f ∧ k = val

/-- What the descent of `Delete` knows: it is headed to `val`, or has passed it. -/
def Toward (C : Path) (found : Ptr) (val : ℤ) : Prop :=
  match found with
  | none => C.Between val
  | some f => C.Found f val

/-- The node the path ends in is red, or the tree below it is, or it is the root
and its other child is black. -/
def Pushed : Path → Tree → Prop
  | .head _ _, _ => True
  | .down _ red _ _ _ sib up, T =>
      red = true ∨ T.isRed = true ∨ (up.nodePtr = none ∧ sib.isRed = false)

section shape

variable {C C' up : Path} {L : List (ℤ × String)} {val : ℤ} {found : Ptr} {a p t : ℕ}
  {c cp ct d b : Bool} {k kp kt : ℤ} {s sp st : String} {X Y S₁ S₂ : Tree}

/-- The first binding to the right of a path that has passed `val`. -/
theorem Path.Found.after_eq {f : ℕ} (h : C.Found f val) : ∃ s r, C.after = (val, s) :: r := by
  induction C with
  | head => exact absurd h id
  | down a red k s d sib up ih =>
    cases d with
    | false =>
      obtain ⟨-, rfl⟩ : a = f ∧ k = val := by simpa [Path.Found] using h
      exact ⟨s, sib.bindings ++ up.after, by simp [Path.after]⟩
    | true => simpa [Path.after] using ih (by simpa [Path.Found] using h)

/-- A descent that keeps what is beside the path, and the node it has passed,
stays headed the same way. -/
theorem Toward.congr (h : Toward C found val) (hb : C'.before = C.before)
    (ha : C'.after = C.after) (hf : ∀ f, C.Found f val → C'.Found f val) :
    Toward C' found val := by
  cases found with
  | none =>
    rw [Toward, Path.Between, hb, ha]
    exact h
  | some f => exact hf f h

/-- After it has passed `val`, the descent only meets smaller values. -/
theorem Toward.lt_of_found {f : ℕ} (h : Toward C (some f) val)
    (hat : At C (.mk a c k s d X Y) L) (hL : L.Pairwise fun p q => p.1 < q.1) : k < val := by
  obtain ⟨s', r, hr⟩ := Path.Found.after_eq (C := C) h
  rw [← hat.bindings, hr, List.pairwise_append] at hL
  refine hL.2.2 (k, s) ?_ (val, s') (List.mem_cons_self ..)
  rw [Tree.mk_bindings]
  cases d <;> simp

/-- **One step down towards `val`.** -/
theorem Toward.down (h : Toward C found val) (hat : At C (.mk a c k s d X Y) L)
    (hL : L.Pairwise fun p q => p.1 < q.1) (hk : k ≠ val) (hd : decide (k < val) = d) :
    Toward (.down a c k s d Y C) found val := by
  cases found with
  | none => exact hat.between_down hL h hk hd
  | some f =>
    have hlt := h.lt_of_found hat hL
    obtain rfl : true = d := by simpa [hlt] using hd
    exact h

/-- A step past the node that holds `val`. -/
theorem toward_found (C : Path) (a : ℕ) (c : Bool) (val : ℤ) (s : String) (Y : Tree) :
    Toward (.down a c val s false Y C) (some a) val := by
  simp [Toward, Path.Found]

/-! ### The tree after a push -/

/-- The red child on the other side has come up. -/
theorem at_push_rotate {y : ℕ} {ky : ℤ} {sy : String} {Y₁ Y₂ : Tree} (hX : X.isRed = false)
    (h : At C (.mk a false k s d X (.mk y true ky sy d Y₁ Y₂)) L) :
    At C (.mk y false ky sy d (.mk a true k s d X Y₁) Y₂) L := by
  obtain ⟨n, hT, hC⟩ := h.balanced
  obtain ⟨m, rfl, hXb, hYb⟩ := Tree.mk_black_balanced.1 hT
  obtain ⟨hY₁, -, hY₁b, hY₂b⟩ := Tree.mk_red_balanced.1 hYb
  refine ⟨⟨m + 1, Tree.mk_black_balanced.2 ⟨m, rfl, ?_, hY₂b⟩, by simpa using hC⟩, ?_⟩
  · exact Tree.mk_red_balanced.2 ⟨hX, hY₁, hXb, hY₁b⟩
  · rw [← h.bindings]
    cases d <;> simp [Tree.mk_bindings]

/-- What the colours say where `node` and its children are black and it has a
sibling: the sibling is a black node, and a red node may replace the parent. -/
theorem exists_sibling {sib : Tree}
    (h : At (.down p cp kp sp b sib up) (.mk a false k s d X Y) L)
    (hpush : Pushed (.down p cp kp sp b sib up) (.mk a false k s d X Y)) :
    ∃ m t kt st S₁ S₂, sib = .mk t false kt st b S₁ S₂ ∧ X.Balanced m ∧ Y.Balanced m ∧
      S₁.Balanced m ∧ S₂.Balanced m ∧ up.Balanced true (m + 1) := by
  obtain ⟨n, hT, hcp, hsib, hup⟩ := h.balanced
  obtain ⟨m, rfl, hXb, hYb⟩ := Tree.mk_black_balanced.1 hT
  have hblack : sib.isRed = false ∧ up.Balanced true (m + 1) := by
    rcases hpush with rfl | hred | ⟨hnode, hsibr⟩
    · exact ⟨(hcp rfl).2, by simpa using hup⟩
    · simp at hred
    · refine ⟨hsibr, ?_⟩
      cases up with
      | head => trivial
      | down => cases hnode
  have hne : sib ≠ .nil := by
    rintro rfl
    exact absurd hsib (Nat.succ_ne_zero m)
  obtain ⟨t, ct, kt, st, S₁, S₂, rfl⟩ := Tree.exists_mk b hne
  obtain rfl : ct = false := by simpa using hblack.1
  obtain ⟨m', hm', h₁, h₂⟩ := Tree.mk_black_balanced.1 hsib
  obtain rfl : m = m' := by omega
  exact ⟨m, t, kt, st, S₁, S₂, rfl, hXb, hYb, h₁, h₂, hblack.2⟩

section push

variable {m : ℕ} (hX : X.isRed = false) (hY : Y.isRed = false) (hXb : X.Balanced m)
  (hYb : Y.Balanced m) (hup : up.Balanced true (m + 1))
  (h : At (.down p cp kp sp b (.mk t ct kt st b S₁ S₂) up) (.mk a c k s d X Y) L)
include hX hY hXb hYb hup h

/-- After the colour flip. -/
theorem at_push_flip (h₁ : S₁.isRed = false) (h₂ : S₂.isRed = false) (h₁b : S₁.Balanced m)
    (h₂b : S₂.Balanced m) :
    At (.down p false kp sp b (.mk t true kt st b S₁ S₂) up) (.mk a true k s d X Y) L := by
  refine ⟨⟨m, Tree.mk_red_balanced.2 ⟨hX, hY, hXb, hYb⟩, by simp,
    Tree.mk_red_balanced.2 ⟨h₁, h₂, h₁b, h₂b⟩, by simpa using hup.black⟩, ?_⟩
  rw [← h.bindings]
  cases b <;> simp [Tree.mk_bindings, Path.before, Path.after]

/-- After the rotation that brings the near child of the sibling up. -/
theorem at_push_near {r : ℕ} {kr : ℤ} {sr : String} {R₁ R₂ : Tree}
    (hS₁ : S₁ = .mk r true kr sr b R₂ R₁) (h₁b : S₁.Balanced m) (h₂b : S₂.Balanced m) :
    At (.down p false kp sp b R₂ (.down r true kr sr b (.mk t false kt st b R₁ S₂) up))
      (.mk a true k s d X Y) L := by
  subst hS₁
  obtain ⟨-, -, hR₂b, hR₁b⟩ := Tree.mk_red_balanced.1 h₁b
  refine ⟨⟨m, Tree.mk_red_balanced.2 ⟨hX, hY, hXb, hYb⟩, by simp, hR₂b, by simp,
    Tree.mk_black_balanced.2 ⟨m, by simp, hR₁b, h₂b⟩, by simpa using hup⟩, ?_⟩
  rw [← h.bindings]
  cases b <;> simp [Tree.mk_bindings, Path.before, Path.after]

/-- After the rotation that brings the sibling up. -/
theorem at_push_far (h₂ : S₂.isRed = true) (h₁b : S₁.Balanced m) (h₂b : S₂.Balanced m) :
    At (.down p false kp sp b S₁ (.down t true kt st b (S₂.paint false) up))
      (.mk a true k s d X Y) L := by
  refine ⟨⟨m, Tree.mk_red_balanced.2 ⟨hX, hY, hXb, hYb⟩, by simp, h₁b, ?_,
    by simpa using h₂b.paint_of_isRed h₂, by simpa using hup⟩, ?_⟩
  · simpa using Tree.paint_isRed (Tree.ne_nil_of_isRed h₂) false
  · rw [← h.bindings]
    cases b <;> simp [Tree.mk_bindings, Path.before, Path.after]

end push

end shape

/-! ### One iteration, and all of them -/

/-- The variables at the head of the loop, with the tree `T` below the node the
path `C` ends in. -/
structure DeleteAt (v : DeleteVars) (C : Path) (T : Tree) (val : ℤ)
    (L : List (ℤ × String)) : Prop where
  here : At C T L
  node : v.node = some C.addr
  dir : v.dir = C.dir
  parent : C.nodePtr ≠ none → v.parent = some C.up.addr
  toward : Toward C v.found val
  pushed : Pushed C T
  grow : T = .nil → C.nodePtr ≠ none

/-- The assertion on the cells the loop leaves, below the sentinel `H`: `node` is
a leaf and `parent` its parent, and the leaf may go without changing a black
height. -/
def DeleteLoopPost (H : Path) (L : List (ℤ × String)) (val : ℤ) (v : DeleteVars)
    (M : Multiset (ℕ × RedBlackNode)) : Prop :=
  ∃ (a : ℕ) (c : Bool) (k : ℤ) (s : String) (d : Bool) (up : Path),
    v.node = some a ∧ v.parent = some up.addr ∧ up.sentinel = H ∧
    M = (Path.down a c k s d .nil up).cells none ∧ At (.down a c k s d .nil up) .nil L ∧
    Toward (.down a c k s d .nil up) v.found val ∧ (c = true ∨ up.nodePtr = none)

section loop

variable {w : ℕ} {val : ℤ} {L : List (ℤ × String)} {C : Path} {T X Y : Tree} {v : DeleteVars}
  {a : ℕ} {c d : Bool} {k : ℤ} {s : String}

/-- Two nodes on one way: where the way to `val` leaves the upper one on the side
`d`, it leaves the one on its other side on the side `d` as well. -/
theorem toward_rotate {y : ℕ} {cy : Bool} {ky : ℤ} {sy : String} {Y₁ Y₂ : Tree}
    (hL : L.Pairwise fun p q => p.1 < q.1)
    (h : At C (.mk a c k s (decide (k < val)) X (.mk y cy ky sy (decide (k < val)) Y₁ Y₂)) L) :
    ky ≠ val ∧ decide (ky < val) = decide (k < val) := by
  rw [← h.bindings, List.pairwise_append, List.pairwise_append] at hL
  have hT := hL.1.2.1
  by_cases hk : k < val
  · have hlt : ky < k := by
      simp only [hk, Tree.mk_bindings, decide_true, if_true, List.pairwise_append] at hT
      exact hT.2.2 (ky, sy) (by simp) (k, s) (by simp)
    exact ⟨by omega, by simp only [hk, decide_true, decide_eq_true_eq]; omega⟩
  · have hlt : k < ky := by
      simp only [hk, Tree.mk_bindings, decide_false, Bool.false_eq_true, if_false,
        List.pairwise_append, List.pairwise_cons] at hT
      exact hT.2.1.1 (ky, sy) (by simp)
    exact ⟨by omega, by simp only [hk, decide_false, decide_eq_false_iff_not]; omega⟩

section push

variable {β : Type} {Q : β → Multiset (ℕ × RedBlackNode) → Prop} {f : Ptr → Exec RedBlackNode β}

/-- `f` goes on from whatever a push leaves below the sentinel `H`: the node `a`
is still there, with its child `X` towards `val`, and now it or `X` is red, unless
it is the root. -/
def GoesOn (H : Path) (found : Ptr) (val : ℤ) (L : List (ℤ × String)) (a : ℕ) (k : ℤ) (s : String)
    (X : Tree) (f : Ptr → Exec RedBlackNode β) (Q : β → Multiset (ℕ × RedBlackNode) → Prop) :
    Prop :=
  ∀ (C : Path) (c : Bool) (Y : Tree), C.sentinel = H → Toward C found val →
    At C (.mk a c k s (decide (k < val)) X Y) L →
    Pushed (.down a c k s (decide (k < val)) Y C) X →
    Triple (C.cells (some a) + (Tree.mk a c k s (decide (k < val)) X Y).cells) (f (some C.addr)) Q

/-- **A push where the other child is red**: that child becomes the parent. -/
theorem push_rotate_bind (hL : L.Pairwise fun p q => p.1 < q.1)
    (h : DeleteAt v C (.mk a false k s (decide (k < val)) X Y) val L) (hX : X.isRed = false)
    (hY : Y.isRed = true) (hnext : GoesOn C.sentinel v.found val L a k s X f Q) :
    Triple (C.cells (some a) + (Tree.mk a false k s (decide (k < val)) X Y).cells)
      (pushRed v.parent (some C.addr) (some a) (decide (k < val)) C.dir >>= f) Q := by
  obtain ⟨y, cy, ky, sy, Y₁, Y₂, rfl⟩ :=
    Tree.exists_mk (decide (k < val)) (Tree.ne_nil_of_isRed hY)
  rw [Tree.mk_isRed] at hY
  subst hY
  refine pushRed_rotate_bind rfl ?_
  have hat := at_push_rotate hX h.here
  obtain ⟨hky, hdy⟩ := toward_rotate hL h.here
  have := hnext (.down y false ky sy (decide (k < val)) Y₂ C) true Y₁ rfl
    (h.toward.down hat hL hky hdy) hat.down (.inl rfl)
  rw [Path.cells_down, Tree.mk_ptr]
  exact this

/-- **A push where both children are black**: at the root nothing moves, and
elsewhere the sibling says which way the red comes. -/
theorem push_sibling_bind (h : DeleteAt v C (.mk a false k s (decide (k < val)) X Y) val L)
    (hX : X.isRed = false) (hY : Y.isRed = false)
    (hnext : GoesOn C.sentinel v.found val L a k s X f Q) :
    Triple (C.cells (some a) + (Tree.mk a false k s (decide (k < val)) X Y).cells)
      (pushRed v.parent (some C.addr) (some a) (decide (k < val)) C.dir >>= f) Q := by
  cases C with
  | head h₀ c₀ =>
    refine pushRed_top_bind hY rfl ?_
    exact hnext (.head h₀ c₀) false Y rfl h.toward h.here (.inr (.inr ⟨rfl, hY⟩))
  | down p cp kp sp b sib up =>
    obtain ⟨m, t, kt, st, S₁, S₂, rfl, hXb, hYb, h₁b, h₂b, hup⟩ :=
      exists_sibling h.here h.pushed
    rw [h.parent (by simp [Path.nodePtr])]
    simp only [Path.addr, Path.dir, Path.up]
    refine pushRed_down_bind hY rfl (fun h₁ h₂ => ?_) (fun r kr sr R₁ R₂ hS₁ => ?_)
      (fun h₁ h₂ => ?_)
    · exact hnext (.down p false kp sp b (.mk t true kt st b S₁ S₂) up) true Y rfl
        (h.toward.congr (by cases b <;> simp [Path.before, Tree.mk_bindings])
          (by cases b <;> simp [Path.after, Tree.mk_bindings]) fun _ hf => hf)
        (at_push_flip hX hY hXb hYb hup h.here h₁ h₂ h₁b h₂b) (.inl rfl)
    · subst hS₁
      exact hnext (.down p false kp sp b R₂ (.down r true kr sr b
          (.mk t false kt st b R₁ S₂) up)) true Y rfl
        (h.toward.congr (by cases b <;> simp [Path.before, Tree.mk_bindings])
          (by cases b <;> simp [Path.after, Tree.mk_bindings])
          (by cases b <;> simp [Path.Found]))
        (at_push_near hX hY hXb hYb hup h.here rfl h₁b h₂b) (.inl rfl)
    · exact hnext (.down p false kp sp b S₁ (.down t true kt st b (S₂.paint false) up))
        true Y rfl
        (h.toward.congr (by cases b <;> simp [Path.before, Tree.mk_bindings])
          (by cases b <;> simp [Path.after, Tree.mk_bindings])
          (by cases b <;> simp [Path.Found]))
        (at_push_far hX hY hXb hYb hup h.here h₂ h₁b h₂b) (.inl rfl)

/-- **What an iteration does to the tree before it steps down.** -/
theorem push_bind (hL : L.Pairwise fun p q => p.1 < q.1)
    (h : DeleteAt v C (.mk a c k s (decide (k < val)) X Y) val L)
    (hnext : GoesOn C.sentinel v.found val L a k s X f Q) :
    Triple (C.cells (some a) + (Tree.mk a c k s (decide (k < val)) X Y).cells) (do
      let black ← (! ·) <$> isRed (some a) <&&> (! ·) <$> isRed X.ptr
      let parent ← if black then pushRed v.parent v.node (some a) (decide (k < val)) v.dir
        else pure v.node
      f parent) Q := by
  have hX : C.cells (some a) + (Tree.mk a c k s (decide (k < val)) X Y).cells = X.cells +
      ({(a, nodeCell c k s (decide (k < val)) X.ptr Y.ptr)} + (Y.cells + C.cells (some a))) := by
    rw [Tree.mk_cells]
    abel
  simp only [andM, bind_assoc, map_eq_pure_bind]
  rw [← Tree.mk_ptr (a := a)]
  refine isRed_bind (add_comm ..) ?_
  rw [Tree.mk_isRed, pure_bind]
  cases c with
  | true =>
    simp only [toBool, Bool.not_true, pure_bind, Bool.false_eq_true, if_false, h.node]
    rw [Tree.mk_ptr]
    exact hnext C true Y rfl h.toward h.here (.inl rfl)
  | false =>
    simp only [toBool, Bool.not_false, bind_assoc]
    rw [Tree.mk_ptr]
    refine isRed_bind hX ?_
    simp only [pure_bind]
    cases hXr : X.isRed with
    | true =>
      simp only [Bool.not_true, Bool.false_eq_true, if_false, h.node]
      exact hnext C false Y rfl h.toward h.here (.inr (.inl hXr))
    | false =>
      simp only [Bool.not_false, if_true, h.node, h.dir]
      cases hYr : Y.isRed with
      | true => exact push_rotate_bind hL h hXr hYr hnext
      | false => exact push_sibling_bind h hXr hYr hnext

end push

/-- The loop stops at a leaf. -/
theorem deleteLoopPost_of_nil (h : DeleteAt v C .nil val L) :
    DeleteLoopPost C.sentinel L val v (C.cells none) := by
  cases C with
  | head => exact absurd rfl (h.grow rfl)
  | down a c k s d sib up =>
    obtain ⟨n, hn, hred, hsib, -⟩ := h.here.balanced
    obtain rfl : n = 0 := hn
    have hpush : sib.isRed = false ∧ (c = true ∨ up.nodePtr = none) := by
      rcases h.pushed with hc | hnil | ⟨hup, hs⟩
      · exact ⟨(hred hc).2, .inl hc⟩
      · cases hnil
      · exact ⟨hs, .inr hup⟩
    obtain rfl := hsib.eq_nil hpush.1
    exact ⟨a, c, k, s, d, up, h.node, h.parent (by simp [Path.nodePtr]), rfl, rfl, h.here,
      h.toward, hpush.2⟩

/-- **The loop of `Delete`**, by induction on its steps. -/
theorem deleteLoop_spec {fuel : ℕ} (hL : L.Pairwise fun p q => p.1 < q.1)
    (hfit : ∀ b ∈ L, Fits w b.1) (hvalw : Fits w val) (h : DeleteAt v C T val L)
    (hfuel : T.size + 1 ≤ fuel) :
    Triple (C.cells T.ptr + T.cells) (deleteLoop w val fuel v)
      (DeleteLoopPost C.sentinel L val) := by
  induction fuel generalizing v C T with
  | zero => omega
  | succ fuel ih =>
    rw [deleteLoop, h.node, h.dir]
    refine child_end_bind rfl ?_
    by_cases hT : T = .nil
    · subst hT
      simp only [Tree.ptr, if_true, Tree.cells, add_zero]
      exact Triple.pure (deleteLoopPost_of_nil h)
    · obtain ⟨a, c, k, s, X, Y, rfl⟩ := Tree.exists_mk_toward val hT
      rw [Tree.mk_size] at hfuel
      have hmem : (k, s) ∈ L := h.here.mem
      have hkw : Fits w k := hfit _ hmem
      have hlt : (k - val < 0) = (k < val) := by simp
      rw [Tree.mk_ptr, if_neg (by simp)]
      refine Triple.load_bind (c := nodeCell c k s (decide (k < val)) X.ptr Y.ptr)
        (by rw [Tree.mk_cells]; simp) ?_
      simp only [nodeCell_val, intSub_eq hkw hvalw, hlt, nodeCell_child]
      rw [← h.node, ← h.dir]
      refine push_bind hL h fun C₂ c₂ Y₂ hs htoward hat hpushed => ?_
      rw [Path.cells_down, ← hs]
      refine ih ⟨hat.down, rfl, rfl, fun _ => rfl, ?_, hpushed, fun _ => by simp [Path.nodePtr]⟩
        (by omega)
      by_cases hkv : k = val
      · subst hkv
        simpa using toward_found C₂ a c₂ k s Y₂
      · rw [if_neg (by omega)]
        exact htoward.down hat hL hkv rfl

end loop

end Hashring
end Ringpop
