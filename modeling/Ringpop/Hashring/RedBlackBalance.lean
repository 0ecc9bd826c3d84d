/-
# Colours, black heights and order

The representation invariant of the tree, on the shapes of
`Ringpop.Hashring.RedBlackShape`.  `Tree.Balanced T n` says that no red node of
`T` has a red child and that every way from the root of `T` down to a nil
crosses `n` black nodes; `Path.Balanced C c n` says the same of everything around
the end of the path `C`, when a tree of black height `n` whose root is red iff
`c` is put there.  A tree under a path is a balanced tree
(`Path.plug_balanced`), so a loop that works at the end of a path only has to
keep these two.

`Path.Between C val` is the other half: everything left of the path is smaller
than `val`, everything right of it is larger.  It is what a descent towards
`val` knows, and what makes the place it ends in the right one.

Both `Insert` and `Delete` compare by subtraction.  On values that leave room
for the difference (`Fits`) that is the order of the integers.
-/

import Ringpop.Hashring.RedBlackRules
import Mathlib.Data.List.Pairwise
import Mathlib.Tactic.NormNum
import Mathlib.Tactic.Ring

namespace Ringpop
namespace Hashring

/-- A value whose difference to every other such value fits an `int` of `w`
bits. -/
def Fits (w : ℕ) (v : ℤ) : Prop := 0 ≤ v ∧ v < 2 ^ (w - 1)

/-- **On values that fit, the comparison by subtraction is the order.** -/
theorem intSub_eq {w : ℕ} {a b : ℤ} (ha : Fits w a) (hb : Fits w b) : intSub w a b = a - b := by
  obtain ⟨ha₀, ha₁⟩ := ha
  obtain ⟨hb₀, hb₁⟩ := hb
  cases w with
  | zero =>
    have h₁ : a = 0 := by simp at ha₁; omega
    have h₂ : b = 0 := by simp at hb₁; omega
    subst h₁ h₂
    rfl
  | succ w =>
    rw [Nat.add_sub_cancel] at ha₁ hb₁
    have hpow : ((2 ^ (w + 1) : ℕ) : ℤ) = 2 * 2 ^ w := by push_cast; ring
    refine Int.bmod_eq_of_le ?_ ?_ <;> rw [hpow] <;> omega

/-- Hash values are `uint32`s, and they fit an `int` of 64 bits. -/
theorem fits_of_lt {v : ℤ} (h₀ : 0 ≤ v) (h : v < 2 ^ 32) : Fits 64 v :=
  ⟨h₀, h.trans (by norm_num)⟩

namespace Tree

/-- No red node has a red child, and every way down to a nil crosses `n` black
nodes. -/
def Balanced : Tree → ℕ → Prop
  | nil, n => n = 0
  | node _ red _ _ l r, n =>
      (red = true → l.isRed = false ∧ r.isRed = false) ∧
        ∃ m, n = m + (!red).toNat ∧ l.Balanced m ∧ r.Balanced m

section mk

variable {a : ℕ} {red : Bool} {val : ℤ} {str : String} {dir : Bool} {x y : Tree} {n : ℕ}

theorem mk_balanced : (mk a red val str dir x y).Balanced n ↔
    (red = true → x.isRed = false ∧ y.isRed = false) ∧
      ∃ m, n = m + (!red).toNat ∧ x.Balanced m ∧ y.Balanced m := by
  cases dir
  · rfl
  · simp only [mk, if_true, Balanced, and_comm (a := x.isRed = false),
      and_comm (a := x.Balanced _)]

/-- A red node is balanced when its children are, and are black. -/
theorem mk_red_balanced : (mk a true val str dir x y).Balanced n ↔
    x.isRed = false ∧ y.isRed = false ∧ x.Balanced n ∧ y.Balanced n := by
  simp [mk_balanced, and_assoc]

/-- A black node is balanced when its children are. -/
theorem mk_black_balanced : (mk a false val str dir x y).Balanced n ↔
    ∃ m, n = m + 1 ∧ x.Balanced m ∧ y.Balanced m := by
  simp [mk_balanced]

end mk

/-- A tree of black height `0` whose root is black is nil. -/
theorem Balanced.eq_nil {T : Tree} (h : T.Balanced 0) (hT : T.isRed = false) : T = nil := by
  cases T with
  | nil => rfl
  | node a red val str l r =>
    obtain ⟨-, m, hm, -, -⟩ := h
    have hred : red = false := hT
    subst hred
    simp at hm

/-- Painting the root black keeps a tree balanced. -/
theorem Balanced.paint_black {T : Tree} {n : ℕ} (h : T.Balanced n) :
    ∃ m, (T.paint false).Balanced m := by
  cases T with
  | nil => exact ⟨n, h⟩
  | node a red val str l r =>
    obtain ⟨-, m, -, hl, hr⟩ := h
    exact ⟨m + 1, by simp, m, rfl, hl, hr⟩

/-- A red node painted black is one higher. -/
theorem Balanced.paint_of_isRed {T : Tree} {n : ℕ} (h : T.Balanced n) (hT : T.isRed = true) :
    (T.paint false).Balanced (n + 1) := by
  cases T with
  | nil => cases hT
  | node a red val str l r =>
    obtain ⟨-, m, hm, hl, hr⟩ := h
    have hred : red = true := hT
    subst hred
    obtain rfl : n = m := by simpa using hm
    exact ⟨by simp, n, by simp, hl, hr⟩

/-- Every binding of the tree is to the left of the next one. -/
def Ordered (T : Tree) : Prop := T.bindings.Pairwise fun p q => p.1 < q.1

end Tree

namespace Path

/-- Whether the path ends in a red node. -/
def isRed : Path → Bool
  | head _ _ => false
  | down _ red _ _ _ _ _ => red

/-- The path ends in a node whose other child is black. -/
def SibBlack : Path → Prop
  | head _ _ => False
  | down _ _ _ _ _ sib _ => sib.isRed = false

/-- With a tree of black height `n` at its end, red iff `c`, everything above
and beside the path is balanced. -/
def Balanced : Path → Bool → ℕ → Prop
  | head _ _, _, _ => True
  | down _ red _ _ _ sib up, c, n =>
      (red = true → c = false ∧ sib.isRed = false) ∧ sib.Balanced n ∧
        up.Balanced red (n + (!red).toNat)

/-- Everything to the left of the path is smaller than `val`, everything to the
right of it larger. -/
def Between (C : Path) (val : ℤ) : Prop :=
  (∀ b ∈ C.before, b.1 < val) ∧ ∀ b ∈ C.after, val < b.1

/-- **A balanced tree under a balanced path is a balanced tree.** -/
theorem plug_balanced {C : Path} {T : Tree} {n : ℕ} (hC : C.Balanced T.isRed n)
    (hT : T.Balanced n) : ∃ m, (C.plug T).Balanced m := by
  induction C generalizing T n with
  | head => exact ⟨n, hT⟩
  | down a red val str d sib up ih =>
    obtain ⟨hred, hsib, hup⟩ := hC
    refine ih ?_ (Tree.mk_balanced.2 ⟨hred, n, rfl, hT, hsib⟩)
    rwa [Tree.mk_isRed]

/-- A black tree may be put where a red one was. -/
theorem Balanced.black {C : Path} {c : Bool} {n : ℕ} (hC : C.Balanced c n) :
    C.Balanced false n := by
  cases C with
  | head => trivial
  | down a red val str d sib up => exact ⟨fun h => ⟨rfl, (hC.1 h).2⟩, hC.2⟩

/-- A red tree may be put below a black node. -/
theorem Balanced.of_not_isRed {C : Path} {c : Bool} {n : ℕ} (hC : C.Balanced c n)
    (hred : C.isRed = false) (c' : Bool) : C.Balanced c' n := by
  cases C with
  | head => trivial
  | down a red val str d sib up =>
    refine ⟨fun h => ?_, hC.2⟩
    have : red = false := hred
    simp [this] at h

/-- One step of a descent to the left or to the right of a node. -/
theorem Between.down {C : Path} {val : ℤ} (hC : C.Between val) {a : ℕ} {red : Bool} {k : ℤ}
    {s : String} {d : Bool} {sib : Tree} (hk : if d then k < val else val < k)
    (hsib : ∀ b ∈ sib.bindings, if d then b.1 < val else val < b.1) :
    (down a red k s d sib C).Between val := by
  obtain ⟨hb, ha⟩ := hC
  cases d with
  | false =>
    refine ⟨hb, fun b hmem => ?_⟩
    simp only [after, List.cons_append, List.mem_cons, List.mem_append, Bool.false_eq_true,
      if_false] at hmem
    rcases hmem with rfl | hmem | hmem
    · simpa using hk
    · simpa using hsib b hmem
    · exact ha b hmem
  | true =>
    refine ⟨fun b hmem => ?_, ha⟩
    simp only [before, List.mem_append, List.mem_singleton, if_true] at hmem
    rcases hmem with (hmem | hmem) | rfl
    · exact hb b hmem
    · simpa using hsib b hmem
    · simpa using hk

/-- A descent that has left a node on the side `d` is headed to that side of
it. -/
theorem Between.toward {a : ℕ} {red : Bool} {k : ℤ} {s : String} {d : Bool} {sib : Tree}
    {C : Path} {val : ℤ} (h : (Path.down a red k s d sib C).Between val) :
    k ≠ val ∧ decide (k < val) = d := by
  obtain ⟨hb, ha⟩ := h
  cases d with
  | false =>
    have hk : val < k := ha (k, s) (by simp [after])
    exact ⟨hk.ne', by simp [hk.le]⟩
  | true =>
    have hk : k < val := hb (k, s) (by simp [before])
    exact ⟨hk.ne, by simp [hk]⟩

/-- What a descent knows at a node it knew at the parent. -/
theorem Between.up {a : ℕ} {red : Bool} {k : ℤ} {s : String} {d : Bool} {sib : Tree}
    {C : Path} {val : ℤ} (h : (Path.down a red k s d sib C).Between val) : C.Between val := by
  obtain ⟨hb, ha⟩ := h
  refine ⟨fun b hmem => hb b ?_, fun b hmem => ha b ?_⟩
  · cases d <;> simp [before, hmem]
  · cases d <;> simp [after, hmem]

end Path

/-- The tree `T` at the end of the path `C` is balanced, and its bindings with
those around the path are `L`. -/
structure At (C : Path) (T : Tree) (L : List (ℤ × String)) : Prop where
  balanced : ∃ n, T.Balanced n ∧ C.Balanced T.isRed n
  bindings : C.before ++ T.bindings ++ C.after = L

section At

variable {C : Path} {T X Y : Tree} {L : List (ℤ × String)} {a : ℕ} {red : Bool} {k val : ℤ}
  {s : String} {d : Bool}

/-- The whole tree, seen from the end of a path. -/
theorem At.plug (h : At C T L) : (∃ m, (C.plug T).Balanced m) ∧ (C.plug T).bindings = L := by
  obtain ⟨n, hT, hC⟩ := h.balanced
  exact ⟨Path.plug_balanced hC hT, (C.plug_bindings T).trans h.bindings⟩

/-- The binding of the node at the position is one of the list. -/
theorem At.mem (h : At C (.mk a red k s d X Y) L) : (k, s) ∈ L := by
  rw [← h.bindings, Tree.mk_bindings]
  split_ifs <;> simp

/-- **One step down.** -/
theorem At.down (h : At C (.mk a red k s d X Y) L) : At (.down a red k s d Y C) X L := by
  obtain ⟨n, hT, hC⟩ := h.balanced
  obtain ⟨hred, m, rfl, hX, hY⟩ := Tree.mk_balanced.1 hT
  rw [Tree.mk_isRed] at hC
  refine ⟨⟨m, hX, hred, hY, hC⟩, ?_⟩
  rw [← h.bindings, Tree.mk_bindings]
  cases d <;> simp [Path.before, Path.after]

/-- **One step down towards `val`** stays between the smaller and the larger
bindings. -/
theorem At.between_down (h : At C (.mk a red k s d X Y) L) (hL : L.Pairwise fun p q => p.1 < q.1)
    (hC : C.Between val) (hk : k ≠ val) (hd : decide (k < val) = d) :
    (Path.down a red k s d Y C).Between val := by
  rw [← h.bindings, Tree.mk_bindings, List.pairwise_append, List.pairwise_append] at hL
  obtain ⟨⟨-, hT, -⟩, -, -⟩ := hL
  cases d with
  | false =>
    have hk' : val < k := lt_of_le_of_ne (by simpa using hd) hk.symm
    simp only [Bool.false_eq_true, if_false, List.pairwise_append, List.pairwise_cons] at hT
    refine hC.down (by simpa using hk') fun b hb => ?_
    have := hT.2.1.1 b hb
    simp only [Bool.false_eq_true, if_false]
    omega
  | true =>
    have hk' : k < val := by simpa using hd
    simp only [if_true, List.pairwise_append, List.mem_cons] at hT
    refine hC.down (by simpa using hk') fun b hb => ?_
    have := hT.2.2 b hb (k, s) (.inl rfl)
    simp only [if_true]
    omega

end At

end Hashring
end Ringpop
