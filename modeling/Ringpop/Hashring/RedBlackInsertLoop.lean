/-
# The loop of `Insert`

The invariant of the loop in its three phases, what one iteration does to it,
and by induction what the whole loop returns.
-/

import Ringpop.Hashring.RedBlackInsert

namespace Ringpop
namespace Hashring

open CellStore

namespace Tree

/-- A black node with two black children. -/
def Quiet : Tree → Prop
  | nil => False
  | node _ red _ _ l r => red = false ∧ l.isRed = false ∧ r.isRed = false

/-- **A red node that is painted black is quiet**: its children were black. -/
theorem Balanced.quiet_paint {T : Tree} {n : ℕ} (h : T.Balanced n) (hT : T.isRed = true) :
    (T.paint false).Quiet := by
  cases T with
  | nil => cases hT
  | node a red val str l r => exact ⟨rfl, h.1 hT⟩

theorem mk_quiet {a : ℕ} {red : Bool} {k : ℤ} {s : String} {d : Bool} {X Y : Tree} :
    (mk a red k s d X Y).Quiet ↔ red = false ∧ X.isRed = false ∧ Y.isRed = false := by
  cases d
  · rfl
  · simp only [mk, if_true, Quiet, and_comm (a := X.isRed = false)]

end Tree

/-- `parent` is the parent of `node`, and `gparent` and `ggparent` are right
where a rotation may need them. -/
structure OpenAt (v : InsertVars) (C : Path) (T : Tree) : Prop where
  parent : v.parent = C.nodePtr
  dir : v.dir = C.dir
  next : (if v.gparent = none then v.ggparent else v.gparent) = some C.up.addr
  sib : T.isRed = true → C.SibBlack
  grow : T = .nil → C.nodePtr ≠ none
  red : C.isRed = true → v.last = C.up.dir ∧ v.gparent = C.up.nodePtr ∧
    v.ggparent = some C.up.up.addr ∧ C.up.SibBlack

/-- The phases of the loop, each with the steps it still needs. -/
inductive Phase (val : ℤ) (v : InsertVars) (C : Path) : Tree → ℕ → Prop where
  | openAt {T fuel} (h : OpenAt v C T) (hfuel : 2 * T.size + 1 ≤ fuel) : Phase val v C T fuel
  | quietAt {T fuel} (hparent : v.parent = some C.addr) (hC : C.nodePtr = some C.addr)
      (hT : T.Quiet) (hfuel : 2 * T.size + 1 ≤ fuel) : Phase val v C T fuel
  | preQuietAt {a k s d X Y fuel} (hparent : v.parent = some C.addr)
      (hC : C.nodePtr = some C.addr) (hred : C.isRed = false) (hk : k ≠ val)
      (hd : decide (k < val) = d) (hX : X.Quiet) (hY : Y.isRed = false)
      (hfuel : 2 * X.size + 2 ≤ fuel) : Phase val v C (.mk a true k s d X Y) fuel

/-- What the loop leaves: the tree with the new binding in its place, or the
tree with the bindings it had, `val` among them. -/
def Inserted (L : List (ℤ × String)) (val : ℤ) (str : String) (ret : Bool) (U : Tree) : Prop :=
  (∃ m, U.Balanced m) ∧
    if ret then ∃ l r, L = l ++ r ∧ (∀ b ∈ l, b.1 < val) ∧ (∀ b ∈ r, val < b.1) ∧
      U.bindings = l ++ (val, str) :: r
    else (∃ s, (val, s) ∈ L) ∧ U.bindings = L

/-- The assertion on the cells the loop leaves, the sentinel `H` among them. -/
def InsertLoopPost (H : Path) (L : List (ℤ × String)) (val : ℤ) (str : String) (ret : Bool)
    (M : Multiset (ℕ × RedBlackNode)) : Prop :=
  ∃ U : Tree, M = H.cells U.ptr + U.cells ∧ Inserted L val str ret U

/-- What the loop does in every phase when it has `fuel` steps. -/
def InsertLoopSpec (w : ℕ) (val : ℤ) (str : String) (L : List (ℤ × String)) (fuel : ℕ) : Prop :=
  ∀ (v : InsertVars) (C : Path) (T : Tree), At C T L → C.Between val → v.node = T.ptr →
    Phase val v C T fuel →
      Triple (C.cells T.ptr + T.cells) (insertLoop w val str fuel v)
        (InsertLoopPost C.sentinel L val str)

section loop

variable {w : ℕ} {val : ℤ} {str : String} {L L' : List (ℤ × String)} {C C' : Path} {T : Tree}

/-- The loop stops at a value that is in the tree. -/
theorem insertLoopPost_of_mem {s : String} (hC : C'.sentinel = C.sentinel) (h : At C' T L)
    (hs : (val, s) ∈ L) : InsertLoopPost C.sentinel L val str false (C'.cells T.ptr + T.cells) := by
  obtain ⟨hbal, hbind⟩ := h.plug
  exact ⟨C'.plug T, by rw [← hC, ← Path.cells_plug], hbal, ⟨s, hs⟩, hbind⟩

/-- The loop stops at the node it has just put between the smaller and the
larger bindings. -/
theorem insertLoopPost_of_grown (hC : C'.sentinel = C.sentinel) (hval : C.Between val)
    (hL : C.before ++ C.after = L) (h : At C' T (C.before ++ (val, str) :: C.after)) :
    InsertLoopPost C.sentinel L val str true (C'.cells T.ptr + T.cells) := by
  obtain ⟨hbal, hbind⟩ := h.plug
  exact ⟨C'.plug T, by rw [← hC, ← Path.cells_plug], hbal, C.before, C.after, hL.symm, hval.1,
    hval.2, hbind⟩

/-- The second half of an iteration: compare, and stop or go on at the child
towards `val`. -/
theorem insertTail_bind {M R : Multiset (ℕ × RedBlackNode)}
    {Q : Bool → Multiset (ℕ × RedBlackNode) → Prop} {fuel : ℕ} {v : InsertVars} {q : ℕ}
    {ret c : Bool} {k : ℤ} {s : String} {X Y : Tree} (hk : Fits w k) (hval : Fits w val)
    (hM : M = (Tree.mk q c k s (decide (k < val)) X Y).cells + R)
    (hfound : k = val → Q ret M)
    (hnext : k ≠ val →
      Triple M (insertLoop w val str fuel (v.advance (some q) (decide (k < val)) X.ptr)) Q) :
    Triple M (do
      let n ← load (some q)
      if intSub w n.val val = 0 then return ret
      insertLoop w val str fuel (v.advance (some q) (decide (intSub w n.val val < 0))
        (n.child (decide (intSub w n.val val < 0))))) Q := by
  refine Triple.load_bind (c := nodeCell c k s (decide (k < val)) X.ptr Y.ptr)
    (by rw [hM, Tree.mk_cells]; simp) ?_
  have hlt : (k - val < 0) = (k < val) := by simp
  simp only [nodeCell_val, intSub_eq hk hval, hlt, nodeCell_child]
  by_cases hkv : k = val
  · rw [if_pos (by omega)]
    exact Triple.pure (hfound hkv)
  · rw [if_neg (by omega)]
    exact hnext hkv

/-! ### Repairing a red node under a red one -/

section rotate

variable {p g q : ℕ} {cg last : Bool} {kp kg kq : ℤ} {sp sg sq : String}
  {sib uncle X Y : Tree} {up : Path} {n : ℕ}

/-- The parent of a red node is black. -/
theorem Path.Balanced.grandparent_black {d : Bool}
    (h : (Path.down p true kp sp d sib (.down g cg kg sg last uncle up)).Balanced false n) :
    cg = false := by
  obtain ⟨-, -, hg, -, -⟩ := h
  rw [← Bool.not_eq_true]
  exact fun hcg => by simpa using (hg hcg).1

/-- The outer rotation moves nothing past the end of the path. -/
theorem between_rotate_outer
    (h : (Path.down p true kp sp last sib (.down g cg kg sg last uncle up)).Between val) :
    (Path.down p false kp sp last (.mk g true kg sg last sib uncle) up).Between val := by
  obtain ⟨hb, ha⟩ := h
  refine ⟨fun b hmem => hb b ?_, fun b hmem => ha b ?_⟩
  · cases last <;> simpa [Path.before, Tree.mk_bindings] using hmem
  · cases last <;> simpa [Path.after, Tree.mk_bindings] using hmem

/-- After the outer rotation everything is balanced again. -/
theorem at_rotate_outer
    (hC : (Path.down p true kp sp last sib (.down g cg kg sg last uncle up)).Balanced false n)
    (hT : T.Balanced n) (huncle : uncle.isRed = false)
    (hb : (Path.down p true kp sp last sib (.down g cg kg sg last uncle up)).before ++ T.bindings ++
      (Path.down p true kp sp last sib (.down g cg kg sg last uncle up)).after = L) :
    At (.down p false kp sp last (.mk g true kg sg last sib uncle) up) T L := by
  obtain rfl := hC.grandparent_black
  obtain ⟨hp, hsib, hg, hunc, hup⟩ := hC
  refine ⟨⟨n, hT, by simp, ?_, by simpa using hup⟩, ?_⟩
  · exact Tree.mk_red_balanced.2 ⟨(hp rfl).2, huncle, hsib, by simpa using hunc⟩
  · rw [← hb]
    cases last <;> simp [Path.before, Path.after, Tree.mk_bindings]

/-- After the inner rotation everything is balanced again. -/
theorem at_rotate_inner
    (hC : (Path.down p true kp sp (!last) sib (.down g cg kg sg last uncle up)).Balanced false n)
    (hT : (Tree.mk q true kq sq (!last) X Y).Balanced n) (huncle : uncle.isRed = false)
    (hb : (Path.down p true kp sp (!last) sib (.down g cg kg sg last uncle up)).before ++
      (Tree.mk q true kq sq (!last) X Y).bindings ++
      (Path.down p true kp sp (!last) sib (.down g cg kg sg last uncle up)).after = L) :
    At up (.mk q false kq sq (!last) (.mk g true kg sg (!last) uncle X)
      (.mk p true kp sp (!last) Y sib)) L := by
  obtain rfl := hC.grandparent_black
  obtain ⟨hp, hsib, hg, hunc, hup⟩ := hC
  obtain ⟨hXr, hYr, hX, hY⟩ := Tree.mk_red_balanced.1 hT
  refine ⟨⟨n + 1, Tree.mk_black_balanced.2 ⟨n, rfl, ?_, ?_⟩, ?_⟩, ?_⟩
  · exact Tree.mk_red_balanced.2 ⟨huncle, hXr, by simpa using hunc, hX⟩
  · exact Tree.mk_red_balanced.2 ⟨hYr, (hp rfl).2, hY, hsib⟩
  · simpa using hup
  · rw [← hb]
    cases last <;> simp [Path.before, Path.after, Tree.mk_bindings]

end rotate

/-- **A new red node, where the path is open.**  Either the node keeps its place
below some path (no violation, or the outer rotation), or it comes to the top of
an inner rotation, and the way towards `val` leads through one of the two red
nodes below it to the child it would have led to. -/
theorem fixRedViolation_open_bind {β : Type} {Q : β → Multiset (ℕ × RedBlackNode) → Prop}
    {f : Unit → Exec RedBlackNode β} {v : InsertVars} {T₀ X Y : Tree} {q n : ℕ} {kq : ℤ}
    {sq : String} (ho : OpenAt v C T₀) (hval : C.Between val) (hC : C.Balanced false n)
    (hT : (Tree.mk q true kq sq (decide (kq < val)) X Y).Balanced n)
    (hb : C.before ++ (Tree.mk q true kq sq (decide (kq < val)) X Y).bindings ++ C.after = L)
    (hkeep : ∀ C₂ : Path, C₂.sentinel = C.sentinel → C₂.Between val →
      At C₂ (.mk q true kq sq (decide (kq < val)) X Y) L →
      Triple (C₂.cells (some q) + (Tree.mk q true kq sq (decide (kq < val)) X Y).cells) (f ()) Q)
    (hturn : ∀ (C₂ : Path) (a : ℕ) (k : ℤ) (s : String) (d₁ d₂ : Bool) (Z Y' : Tree),
      C₂.sentinel = C.sentinel → C₂.Between val → decide (kq < val) = d₁ → k ≠ val →
      decide (k < val) = d₂ → Z.isRed = false →
      At C₂ (.mk q false kq sq d₁ (.mk a true k s d₂ X Z) Y') L →
      Triple (C₂.cells (some q) + (Tree.mk q false kq sq d₁ (.mk a true k s d₂ X Z) Y').cells)
        (f ()) Q) :
    Triple (C.cells (some q) + (Tree.mk q true kq sq (decide (kq < val)) X Y).cells)
      (fixRedViolation v (some q) >>= f) Q := by
  set T := Tree.mk q true kq sq (decide (kq < val)) X Y with hTdef
  have hTptr : T.ptr = some q := by simp [hTdef]
  have hTred : T.isRed = true := by simp [hTdef]
  cases hCred : C.isRed with
  | false =>
    refine fixRedViolation_skip_bind hTptr ho.parent (by simp [hCred]) rfl ?_
    exact hkeep C rfl hval ⟨⟨n, hT, hC.of_not_isRed hCred _⟩, hb⟩
  | true =>
    rw [← hTptr]
    obtain ⟨hlast, hgparent, hggparent, hunc⟩ := ho.red hCred
    -- a red parent has a parent of its own, which is not the sentinel
    cases C with
    | head => cases hCred
    | down p cp kp sp d sib up₁ =>
      have hcp : cp = true := hCred
      subst hcp
      cases up₁ with
      | head => exact absurd hunc id
      | down g cg kg sg last uncle up =>
        have hp := hval.toward
        have hg := hval.up.toward
        by_cases hd : d = last
        · subst hd
          refine fixRedViolation_single_bind ho.parent hgparent hggparent hlast hTred rfl ?_
          rw [hTptr]
          exact hkeep _ rfl (between_rotate_outer hval) (at_rotate_outer hC hT hunc hb)
        · obtain rfl : d = !last := Bool.eq_not.2 hd
          by_cases hq : decide (kq < val) = !last
          · have hT' : T = .mk q true kq sq (!last) X Y := by rw [hTdef, hq]
            refine fixRedViolation_double_bind ho.parent hgparent hggparent hlast hT' hTred rfl ?_
            have hat := at_rotate_inner hC (hT' ▸ hT) hunc (hT' ▸ hb)
            rw [Tree.mk_not (a := g)] at hat ⊢
            exact hturn up g kg sg _ _ uncle _ rfl hval.up.up hq hg.1 hg.2 hunc hat
          · have hq' : decide (kq < val) = last := by
              rw [← Bool.not_not (b := last)]
              exact Bool.eq_not.2 hq
            have hT' : T = .mk q true kq sq (!last) Y X := by rw [hTdef, hq', Tree.mk_not]
            refine fixRedViolation_double_bind ho.parent hgparent hggparent hlast hT' hTred rfl ?_
            have hat := at_rotate_inner hC (hT' ▸ hT) hunc (hT' ▸ hb)
            rw [Tree.mk_not (a := q)] at hat ⊢
            exact hturn up p kp sp _ _ sib _ rfl hval.up.up hq' hp.1 hp.2 (hC.1 rfl).2 hat

/-! ### One iteration, and all of them -/

/-- The loop at a node that is neither flipped nor rotated. -/
theorem openAt_advance {v : InsertVars} {a : ℕ} {red d : Bool} {k : ℤ} {s : String} {X Y : Tree}
    (h : OpenAt v C (.mk a red k s d X Y)) (hXY : ¬(X.isRed = true ∧ Y.isRed = true)) :
    OpenAt (v.advance (some a) d X.ptr) (.down a red k s d Y C) X where
  parent := rfl
  dir := rfl
  next := by
    have hparent := h.parent
    cases C with
    | head => simpa [InsertVars.advance, hparent, Path.nodePtr, Path.up] using h.next
    | down => simp [InsertVars.advance, hparent, Path.nodePtr, Path.up, Path.addr]
  sib hX := by
    rw [Path.SibBlack, ← Bool.not_eq_true]
    exact fun hY => hXY ⟨hX, hY⟩
  grow _ := by simp [Path.nodePtr]
  red hred := ⟨h.dir, h.parent, h.next, h.sib (by rw [Tree.mk_isRed]; exact hred)⟩

variable {v : InsertVars} {fuel : ℕ}

/-- **What is left of an iteration after a flip or a new node**, for the loop
that goes on with `fuel` steps. -/
theorem insertRest_bind {T₀ X Y : Tree} {q n : ℕ} {kq : ℤ} {sq : String} {ret : Bool}
    (ih : InsertLoopSpec w val str L fuel) (hL : L.Pairwise fun p q => p.1 < q.1)
    (hkq : Fits w kq) (hvalw : Fits w val) (ho : OpenAt v C T₀) (hval : C.Between val)
    (hC : C.Balanced false n) (hT : (Tree.mk q true kq sq (decide (kq < val)) X Y).Balanced n)
    (hb : C.before ++ (Tree.mk q true kq sq (decide (kq < val)) X Y).bindings ++ C.after = L')
    (hfound : kq = val → ∀ (C₂ : Path) (T₂ : Tree), C₂.sentinel = C.sentinel → At C₂ T₂ L' →
      InsertLoopPost C.sentinel L val str ret (C₂.cells T₂.ptr + T₂.cells))
    (hnext : kq ≠ val → L' = L ∧ X.Quiet ∧ 2 * X.size + 2 ≤ fuel) :
    Triple (C.cells (some q) + (Tree.mk q true kq sq (decide (kq < val)) X Y).cells) (do
      fixRedViolation v (some q)
      let n ← load (some q)
      if intSub w n.val val = 0 then return ret
      insertLoop w val str fuel (v.advance (some q) (decide (intSub w n.val val < 0))
        (n.child (decide (intSub w n.val val < 0))))) (InsertLoopPost C.sentinel L val str) := by
  refine fixRedViolation_open_bind ho hval hC hT hb (fun C₂ hs hval₂ hat => ?_)
    (fun C₂ a k s d₁ d₂ Z Y' hs hval₂ hd₁ hk hd₂ hZ hat => ?_)
  · refine insertTail_bind hkq hvalw (add_comm ..) (fun hkv => ?_) (fun hkv => ?_)
    · simpa using hfound hkv C₂ _ hs hat
    · obtain ⟨rfl, hX, hfuel⟩ := hnext hkv
      have := ih (v.advance (some q) (decide (kq < val)) X.ptr) _ _ hat.down
        (hat.between_down hL hval₂ hkv rfl) rfl (.quietAt rfl rfl hX (by omega))
      rw [Path.sentinel, hs] at this
      rw [Path.cells_down]
      exact this
  · subst hd₁
    refine insertTail_bind hkq hvalw (add_comm ..) (fun hkv => ?_) (fun hkv => ?_)
    · simpa using hfound hkv C₂ _ hs hat
    · obtain ⟨rfl, hX, hfuel⟩ := hnext hkv
      have := ih (v.advance (some q) (decide (kq < val)) (some a)) _ _ hat.down
        (hat.between_down hL hval₂ hkv rfl) (Tree.mk_ptr.symm)
        (.preQuietAt rfl rfl rfl hk hd₂ hX hZ hfuel)
      rw [Path.sentinel, hs] at this
      rw [Path.cells_down, Tree.mk_ptr] at *
      exact this

/-- **An iteration at a node that is neither flipped nor rotated.** -/
theorem insertDown_bind {a : ℕ} {red : Bool} {k : ℤ} {s : String} {X Y : Tree}
    (ih : InsertLoopSpec w val str L fuel) (hL : L.Pairwise fun p q => p.1 < q.1)
    (hfit : ∀ b ∈ L, Fits w b.1) (hvalw : Fits w val)
    (hat : At C (.mk a red k s (decide (k < val)) X Y) L) (hval : C.Between val)
    (hnode : v.node = some a) (hparent : v.parent = C.nodePtr)
    (hXY : ¬(X.isRed = true ∧ Y.isRed = true)) (hred : ¬(red = true ∧ C.isRed = true))
    (hnext : k ≠ val → Phase val (v.advance (some a) (decide (k < val)) X.ptr)
      (.down a red k s (decide (k < val)) Y C) X fuel) :
    Triple (C.cells (some a) + (Tree.mk a red k s (decide (k < val)) X Y).cells)
      (insertLoop w val str (fuel + 1) v) (InsertLoopPost C.sentinel L val str) := by
  have hmem : (k, s) ∈ L := hat.mem
  have hkw : Fits w k := hfit _ hmem
  rw [insertLoop]
  refine growOrFlip_skip_bind hnode hXY rfl (add_comm ..) ?_
  refine fixRedViolation_skip_bind Tree.mk_ptr hparent (by rwa [Tree.mk_isRed]) rfl ?_
  refine insertTail_bind hkw hvalw (add_comm ..) (fun hkv => ?_) fun hkv => ?_
  · rw [← Tree.mk_ptr (a := a)]
    exact insertLoopPost_of_mem rfl hat (hkv ▸ hmem)
  · rw [Path.cells_down]
    exact ih _ _ _ hat.down (hat.between_down hL hval hkv rfl) rfl (hnext hkv)

/-- **An iteration at the end of the way down**: the new node takes the place. -/
theorem insertGrow_bind (ih : InsertLoopSpec w val str L fuel)
    (hL : L.Pairwise fun p q => p.1 < q.1) (hvalw : Fits w val) (hat : At C .nil L)
    (hval : C.Between val) (hnode : v.node = none) (ho : OpenAt v C .nil) :
    Triple (C.cells none) (insertLoop w val str (fuel + 1) v)
      (InsertLoopPost C.sentinel L val str) := by
  obtain ⟨n, hnil, hCbal⟩ := hat.balanced
  have hn : n = 0 := hnil
  subst hn
  have hC : C.nodePtr = some C.addr := by
    cases C with
    | head => exact absurd rfl (ho.grow rfl)
    | down => rfl
  have hL' : C.before ++ C.after = L := by simpa [Tree.bindings] using hat.bindings
  rw [insertLoop]
  refine growOrFlip_nil_bind hnode (ho.parent.trans hC) ho.dir fun a => ?_
  -- The direction of a leaf is free: take the one the comparison with `val` gives.
  have hmk : Tree.mk a true val str false .nil .nil =
      .mk a true val str (decide (val < val)) .nil .nil := by simp
  rw [hmk]
  have hb : C.before ++ (Tree.mk a true val str (decide (val < val)) .nil .nil).bindings ++
      C.after = C.before ++ (val, str) :: C.after := by
    simp [Tree.mk_bindings, Tree.bindings]
  exact insertRest_bind ih hL hvalw hvalw ho hval hCbal
    (Tree.mk_red_balanced.2 ⟨rfl, rfl, rfl, rfl⟩) hb
    (fun _ C₂ T₂ hs hat₂ => insertLoopPost_of_grown hs hval hL' hat₂) (fun h => absurd rfl h)

/-- **An iteration at a node with two red children**, which trades its colour
with theirs. -/
theorem insertFlip_bind {a : ℕ} {red : Bool} {k : ℤ} {s : String} {X Y : Tree}
    (ih : InsertLoopSpec w val str L fuel) (hL : L.Pairwise fun p q => p.1 < q.1)
    (hfit : ∀ b ∈ L, Fits w b.1) (hvalw : Fits w val)
    (hat : At C (.mk a red k s (decide (k < val)) X Y) L) (hval : C.Between val)
    (hnode : v.node = some a) (ho : OpenAt v C (.mk a red k s (decide (k < val)) X Y))
    (hX : X.isRed = true) (hY : Y.isRed = true) (hfuel : 2 * X.size + 2 ≤ fuel) :
    Triple (C.cells (some a) + (Tree.mk a red k s (decide (k < val)) X Y).cells)
      (insertLoop w val str (fuel + 1) v) (InsertLoopPost C.sentinel L val str) := by
  obtain ⟨n, hTbal, hCbal⟩ := hat.balanced
  have hredn : red = false := by
    rw [← Bool.not_eq_true]
    intro hred
    simpa [hX] using (Tree.mk_balanced.1 hTbal).1 hred
  subst hredn
  obtain ⟨m, rfl, hXb, hYb⟩ := Tree.mk_black_balanced.1 hTbal
  have hflip : (Tree.mk a true k s (decide (k < val)) (X.paint false) (Y.paint false)).Balanced
      (m + 1) :=
    Tree.mk_red_balanced.2 ⟨Tree.paint_isRed (Tree.ne_nil_of_isRed hX) _,
      Tree.paint_isRed (Tree.ne_nil_of_isRed hY) _, hXb.paint_of_isRed hX, hYb.paint_of_isRed hY⟩
  have hb : C.before ++ (Tree.mk a true k s (decide (k < val)) (X.paint false)
      (Y.paint false)).bindings ++ C.after = L := by
    rw [← hat.bindings, Tree.mk_bindings, Tree.mk_bindings, Tree.paint_bindings,
      Tree.paint_bindings]
  rw [insertLoop]
  refine growOrFlip_flip_bind hnode hX hY (add_comm ..) ?_
  rw [add_comm]
  exact insertRest_bind ih hL (hfit _ hat.mem) hvalw ho hval hCbal.black hflip hb
    (fun hkv C₂ T₂ hs hat₂ => insertLoopPost_of_mem hs hat₂ (hkv ▸ hat.mem))
    (fun hkv => ⟨rfl, hXb.quiet_paint hX, by rwa [Tree.paint_size]⟩)

/-- **The loop of `Insert`**, from every phase, by induction on its steps. -/
theorem insertLoop_spec (hL : L.Pairwise fun p q => p.1 < q.1) (hfit : ∀ b ∈ L, Fits w b.1)
    (hvalw : Fits w val) : InsertLoopSpec w val str L fuel := by
  induction fuel with
  | zero =>
    intro v C T _ _ _ hphase
    cases hphase <;> omega
  | succ fuel ih =>
    intro v C T hat hval hnode hphase
    cases hphase with
    | quietAt hparent hC hT hfuel =>
      obtain ⟨a, red, k, s, X, Y, rfl⟩ := Tree.exists_mk_toward val
        (T := T) (by rintro rfl; exact hT)
      obtain ⟨rfl, hX, hY⟩ := Tree.mk_quiet.1 hT
      rw [Tree.mk_size] at hfuel
      rw [Tree.mk_ptr] at hnode ⊢
      refine insertDown_bind ih hL hfit hvalw hat hval hnode (hparent.trans hC.symm)
        (by simp [hX]) (by simp) fun hk => .openAt ⟨rfl, rfl, ?_, ?_, ?_, ?_⟩ (by omega)
      · simp [InsertVars.advance, hparent, Path.up]
      · simp [hX]
      · simp [Path.nodePtr]
      · simp [Path.isRed]
    | @preQuietAt a k s d X Y _ hparent hC hred hk hd hX hY hfuel =>
      subst hd
      rw [Tree.mk_ptr] at hnode ⊢
      exact insertDown_bind ih hL hfit hvalw hat hval hnode (hparent.trans hC.symm)
        (by simp [hY]) (by simp [hred]) fun _ => .quietAt rfl rfl hX (by omega)
    | openAt ho hfuel =>
      by_cases hT : T = .nil
      · subst hT
        simpa [Tree.cells, Tree.ptr] using insertGrow_bind ih hL hvalw hat hval hnode ho
      · obtain ⟨a, red, k, s, X, Y, rfl⟩ := Tree.exists_mk_toward val hT
        rw [Tree.mk_size] at hfuel
        rw [Tree.mk_ptr] at hnode ⊢
        by_cases hXY : X.isRed = true ∧ Y.isRed = true
        · exact insertFlip_bind ih hL hfit hvalw hat hval hnode ho hXY.1 hXY.2 (by omega)
        · refine insertDown_bind ih hL hfit hvalw hat hval hnode ho.parent hXY ?_
            fun _ => .openAt (openAt_advance ho hXY) (by omega)
          -- A red node has a black parent.
          rintro ⟨rfl, hC⟩
          obtain ⟨n, -, hCbal⟩ := hat.balanced
          cases C with
          | head => cases hC
          | down p cp kp sp d sib up =>
            have := (hCbal.1 hC).1
            rw [Tree.mk_isRed] at this
            cases this

end loop

end Hashring
end Ringpop
