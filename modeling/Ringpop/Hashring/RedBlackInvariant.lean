/-
# What `Insert` and `Delete` leave

The loops of `Ringpop.Hashring.RedBlackInsertLoop` and
`Ringpop.Hashring.RedBlackDeleteLoop` inside the calls they belong to: the
sentinel is allocated before them and dropped after them, the root becomes
black, and `Delete` copies the leaf it stopped at into the node it had found and
unlinks the leaf.  `Path.rekey` is that copy.

`Represents` is the invariant that the two calls keep.  Every sequence of calls
from the empty tree keeps it, so no call of such a sequence stops at a fault.
-/

import Ringpop.Collections.Runs
import Ringpop.Hashring.RedBlackDeleteLoop
import Ringpop.Hashring.RedBlackInsertLoop

namespace Ringpop
namespace Hashring

open CellStore

/-! ### Unlinking -/

namespace Path

/-- The path with another binding in the last node it has left to the left. -/
def rekey (k : ℤ) (s : String) : Path → Path
  | head a red => head a red
  | down a red k' s' d sib up =>
      if d then down a red k' s' d sib (up.rekey k s) else down a red k s d sib up

section rekey

variable {C : Path} {k : ℤ} {s : String} {f : ℕ} {val : ℤ}

@[simp] theorem rekey_addr : (C.rekey k s).addr = C.addr := by
  cases C with
  | head => rfl
  | down a red k' s' d sib up => cases d <;> rfl

@[simp] theorem rekey_sentinel : (C.rekey k s).sentinel = C.sentinel := by
  induction C with
  | head => rfl
  | down a red k' s' d sib up ih =>
    cases d
    · rfl
    · exact ih

@[simp] theorem rekey_before : (C.rekey k s).before = C.before := by
  induction C with
  | head => rfl
  | down a red k' s' d sib up ih =>
    cases d
    · rfl
    · simp [rekey, before, ih]

/-- The binding just after the path is replaced, and no other. -/
theorem Found.rekey_after (h : C.Found f val) :
    ∃ s' r, C.after = (val, s') :: r ∧ (C.rekey k s).after = (k, s) :: r := by
  induction C with
  | head => exact absurd h id
  | down a red k' s' d sib up ih =>
    cases d with
    | false =>
      obtain ⟨-, rfl⟩ : a = f ∧ k' = val := by simpa [Found] using h
      exact ⟨s', sib.bindings ++ up.after, by simp [after], by simp [rekey, after]⟩
    | true => simpa [after, rekey] using ih (by simpa [Found] using h)

theorem Balanced.rekey {c : Bool} {n : ℕ} (h : C.Balanced c n) : (C.rekey k s).Balanced c n := by
  induction C generalizing c n with
  | head => trivial
  | down a red k' s' d sib up ih =>
    obtain ⟨hred, hsib, hup⟩ := h
    cases d
    · exact ⟨hred, hsib, hup⟩
    · exact ⟨hred, hsib, ih hup⟩

end rekey

end Path

section nodes

variable {β : Type} {M R : Multiset (ℕ × RedBlackNode)}
  {Q : β → Multiset (ℕ × RedBlackNode) → Prop} {w : ℕ} {val : ℤ} {T : Tree}

/-- **The copy into the node that was found** rekeys the path. -/
theorem rekey_bind {C : Path} {k : ℤ} {s : String} {f : ℕ} {p : Ptr}
    {g : Exec RedBlackNode β} (h : C.Found f val) (hM : M = C.cells p + R)
    (hg : Triple ((C.rekey k s).cells p + R) g Q) :
    Triple M (do
      modify (some f) fun n => { n with val := k }
      modify (some f) fun n => { n with str := s }
      g) Q := by
  induction C generalizing p R with
  | head => exact absurd h id
  | down a red k' s' d sib up ih =>
    cases d with
    | false =>
      obtain ⟨rfl, rfl⟩ : a = f ∧ k' = val := by simpa [Path.Found] using h
      rw [Path.cells, add_assoc, add_assoc] at hM
      refine Triple.modify_bind hM ?_
      rw [nodeCell_setVal]
      refine Triple.modify_bind rfl ?_
      rw [nodeCell_setStr]
      simpa [Path.rekey, Path.cells, add_assoc] using hg
    | true =>
      refine ih (p := some a) (R := {(a, nodeCell red k' s' true p sib.ptr)} + sib.cells + R)
        (by simpa [Path.Found] using h) ?_ ?_
      · rw [hM, Path.cells]
        abel
      · convert hg using 1
        simp only [Path.rekey, if_true, Path.cells]
        abel

/-- What `Delete` leaves when it was asked for `val`. -/
def Deleted (L : List (ℤ × String)) (val : ℤ) (found : Bool) (U : Tree) : Prop :=
  (∃ m, U.Balanced m) ∧
    if found then ∃ l s r, L = l ++ (val, s) :: r ∧ U.bindings = l ++ r
    else (∀ b ∈ L, b.1 ≠ val) ∧ U.bindings = L

section unlink

variable {a f : ℕ} {c d : Bool} {k : ℤ} {s : String} {up : Path} {L : List (ℤ × String)}

/-- **The leaf is copied into the node that was found, and unlinked.** -/
theorem unlink_bind {g : Exec RedBlackNode β}
    (h : (Path.down a c k s d .nil up).Found f val)
    (hM : M = (Path.down a c k s d .nil up).cells none)
    (hg : Triple ((if d then up.rekey k s else up).cells none +
      {(a, nodeCell c k s d none none)}) g Q) :
    Triple M (do
      let n ← load (some a)
      modify (some f) fun m => { m with val := n.val }
      modify (some f) fun m => { m with str := n.str }
      let right ← rightIs (some up.addr) (some a)
      let n ← load (some a)
      setChild (some up.addr) right (n.child (decide (n.left = none)))
      g) Q := by
  refine Triple.load_bind (c := nodeCell c k s d none none)
    (by rw [hM]; simp [Path.cells, Tree.ptr]) ?_
  rw [nodeCell_val, nodeCell_str]
  refine rekey_bind h (hM.trans (add_zero _).symm) ?_
  have haddr : up.addr = (if d then up.rekey k s else up).addr := by cases d <;> simp
  have hcells : ((Path.down a c k s d .nil up).rekey k s).cells none + 0 =
      (if d then up.rekey k s else up).cells (some a) +
        (Tree.mk a c k s d .nil .nil).cells + 0 := by
    rw [Tree.mk_cells]
    cases d <;> simp only [Path.rekey, Path.cells, Tree.cells, Tree.ptr, Bool.false_eq_true,
      if_true, if_false] <;> abel
  rw [haddr]
  refine rightIs_bind Tree.mk_ptr hcells ?_
  refine Triple.load_bind (c := nodeCell c k s d none none)
    (by rw [hcells, Tree.mk_cells]; simp [Tree.ptr]) ?_
  have hleaf (e : Bool) : (nodeCell c k s d none none).child e = none := by
    cases d <;> cases e <;> rfl
  rw [hleaf]
  refine setChild_end_bind (R := (Tree.mk a c k s d .nil .nil).cells)
    (by rw [hcells, add_zero]) ?_
  simpa [Tree.mk_cells, Tree.cells, Tree.ptr] using hg

/-- What is left after the leaf is gone: the bindings without the one that was
found, and the same black heights. -/
theorem deleted_of_unlink (h : (Path.down a c k s d .nil up).Found f val)
    (hat : At (.down a c k s d .nil up) .nil L) (hcol : c = true ∨ up.nodePtr = none) :
    Deleted L val true ((if d then up.rekey k s else up).plug .nil) := by
  obtain ⟨n, hn, -, -, hup⟩ := hat.balanced
  obtain rfl : n = 0 := hn
  have hup' : up.Balanced false 0 := by
    rcases hcol with rfl | hnode
    · simpa using hup.black
    · cases up with
      | head => trivial
      | down => cases hnode
  have hb := hat.bindings
  rw [Deleted, if_pos rfl, Path.plug_bindings]
  cases d with
  | false =>
    obtain ⟨-, rfl⟩ : a = f ∧ k = val := by simpa [Path.Found] using h
    refine ⟨Path.plug_balanced (by simpa [Tree.isRed] using hup') (n := 0) rfl, up.before, s,
      up.after, ?_, by simp [Tree.bindings]⟩
    simpa [Path.before, Path.after, Tree.bindings] using hb.symm
  | true =>
    obtain ⟨s', r, hafter, hrekey⟩ := Path.Found.rekey_after (k := k) (s := s) (C := up)
      (by simpa [Path.Found] using h)
    refine ⟨Path.plug_balanced (by simpa [Tree.isRed] using hup'.rekey) (n := 0) rfl,
      up.before ++ [(k, s)], s', r, ?_, by simp [Tree.bindings, hrekey]⟩
    simpa [Path.before, Path.after, Tree.bindings, hafter] using hb.symm

end unlink

/-- The end of `Delete`: the root is taken from the sentinel and made black. -/
theorem deleteFinish_spec {h₀ : ℕ} {c₀ found : Bool} {U : Tree} {L : List (ℤ × String)}
    (hM : M = (Path.head h₀ c₀).cells U.ptr + U.cells + R) (h : Deleted L val found U) :
    Triple M (do
      let n ← load (some h₀)
      if n.right ≠ none then setRed n.right false
      return (n.right, found)) fun r M => ∃ U : Tree, r.1 = U.ptr ∧
        U.cells ≤ M ∧ U.isRed = false ∧ Deleted L val r.2 U := by
  refine Triple.load_bind (c := ⟨0, "", none, U.ptr, c₀⟩) (by rw [hM]; simp [Path.cells]) ?_
  by_cases hU : U = .nil
  · subst hU
    exact Triple.pure ⟨.nil, rfl, Multiset.zero_le _, rfl, h⟩
  · have hptr : U.ptr ≠ none := fun h => hU (Tree.ptr_eq_none_iff.1 h)
    simp only [ne_eq, hptr, not_false_eq_true, if_true]
    refine setRed_bind hU (hM.trans (by abel : _ = U.cells + ((Path.head h₀ c₀).cells U.ptr + R)))
      ?_
    obtain ⟨⟨m, hbal⟩, hb⟩ := h
    refine Triple.pure ⟨U.paint false, by simp, Multiset.le_add_right .., Tree.paint_isRed hU _,
      hbal.paint_black, ?_⟩
    rwa [Tree.paint_bindings]

/-- **`Delete` on the nodes of a tree**, from the root down to the unlinked
leaf. -/
theorem deleteNodes_spec {fuel : ℕ} (hT : T ≠ .nil) (hbal : ∃ n, T.Balanced n) (hL : T.Ordered)
    (hfit : ∀ b ∈ T.bindings, Fits w b.1) (hvalw : Fits w val) (hfuel : T.size + 1 ≤ fuel) :
    Triple T.cells (deleteNodes w fuel T.ptr val) fun r M => ∃ U : Tree, r.1 = U.ptr ∧
      U.cells ≤ M ∧ U.isRed = false ∧ Deleted T.bindings val r.2 U := by
  obtain ⟨n, hbal⟩ := hbal
  rw [deleteNodes]
  refine Triple.alloc_bind fun h₀ _ => ?_
  have hat : DeleteAt ⟨some h₀, none, none, none, true⟩ (.head h₀ true) T val T.bindings :=
    ⟨⟨⟨n, hbal, trivial⟩, by simp [Path.before, Path.after]⟩, rfl, rfl, by simp [Path.nodePtr],
      ⟨by simp [Path.before], by simp [Path.after]⟩, trivial, fun h => absurd h hT⟩
  refine Triple.bind (deleteLoop_spec hL hfit hvalw hat hfuel) ?_
  rintro v _ ⟨a, c, k, s, d, up, hnode, hparent, hs, rfl, hhere, htoward, hcol⟩
  cases hfound : v.found with
  | none =>
    rw [hfound] at htoward
    obtain ⟨hbal', hbind⟩ := hhere.plug
    have hM := Path.cells_plug (.down a c k s d .nil up) .nil
    rw [Path.sentinel, hs, Tree.cells, add_zero] at hM
    refine deleteFinish_spec (R := 0) (by rw [add_zero]; exact hM) ⟨hbal', ?_⟩
    rw [if_neg (by simp)]
    refine ⟨fun b hb => ?_, hbind⟩
    rw [← hhere.bindings] at hb
    simp only [Tree.bindings, List.append_nil, List.mem_append] at hb
    rcases hb with hb | hb
    · exact (htoward.1 b hb).ne
    · exact (htoward.2 b hb).ne'
  | some f =>
    rw [hfound] at htoward
    rw [if_pos (by simp), hnode, hparent]
    refine unlink_bind htoward rfl ?_
    have hM := Path.cells_plug (if d then up.rekey k s else up) .nil
    have hs' : (if d then up.rekey k s else up).sentinel = .head h₀ true := by
      cases d <;> simp [hs, Path.sentinel]
    rw [hs', Tree.cells, add_zero] at hM
    exact deleteFinish_spec (congrArg (· + _) hM) (deleted_of_unlink htoward hhere hcol)

/-- **`Insert` on the nodes of a tree.** -/
theorem insertNodes_spec {fuel : ℕ} (str : String) (hbal : ∃ n, T.Balanced n)
    (hblack : T.isRed = false) (hL : T.Ordered) (hfit : ∀ b ∈ T.bindings, Fits w b.1)
    (hvalw : Fits w val) (hfuel : 2 * T.size + 1 ≤ fuel) :
    Triple T.cells (insertNodes w fuel T.ptr val str) fun r M => ∃ U : Tree, r.1 = U.ptr ∧
      U.cells ≤ M ∧ U.isRed = false ∧ Inserted T.bindings val str r.2 U := by
  obtain ⟨n, hbal⟩ := hbal
  rw [insertNodes]
  by_cases hT : T = .nil
  · subst hT
    rw [Tree.ptr, if_pos rfl]
    refine Triple.alloc_bind fun a _ => ?_
    rw [pure_bind]
    have hM : ({(a, ⟨val, str, none, none, false⟩)} + Tree.nil.cells :
        Multiset (ℕ × RedBlackNode)) = (Tree.mk a false val str false .nil .nil).cells + 0 := by
      simp [Tree.mk_cells, Tree.cells, nodeCell, Tree.ptr]
    refine setRed_mk_bind hM ?_
    refine Triple.pure ⟨.mk a false val str false .nil .nil, by simp, by simp, by simp,
      ⟨1, Tree.mk_black_balanced.2 ⟨0, rfl, rfl, rfl⟩⟩, ?_⟩
    exact ⟨[], [], rfl, by simp, by simp, by simp [Tree.mk_bindings, Tree.bindings]⟩
  · have hptr : T.ptr ≠ none := fun h => hT (Tree.ptr_eq_none_iff.1 h)
    simp only [hptr, if_false, pure_bind]
    refine Triple.alloc_bind fun h₀ _ => ?_
    have hat : At (.head h₀ false) T T.bindings :=
      ⟨⟨n, hbal, trivial⟩, by simp [Path.before, Path.after]⟩
    have hopen : OpenAt ⟨true, true, none, none, some h₀, T.ptr⟩ (.head h₀ false) T :=
      ⟨rfl, rfl, rfl, by simp [hblack], fun h => absurd h hT, by simp [Path.isRed]⟩
    refine Triple.bind (insertLoop_spec hL hfit hvalw _ _ _ hat
      ⟨by simp [Path.before], by simp [Path.after]⟩ rfl (.openAt hopen hfuel)) ?_
    rintro ret _ ⟨U, rfl, hbal', hb⟩
    refine Triple.load_bind (c := ⟨0, "", none, U.ptr, false⟩)
      (by simp [Path.sentinel, Path.cells]) ?_
    have hU : U ≠ .nil := by
      rintro rfl
      cases ret with
      | true =>
        obtain ⟨l, r, -, -, -, hnil⟩ := hb
        simp [Tree.bindings] at hnil
      | false =>
        obtain ⟨⟨s, hs⟩, hnil⟩ := hb
        rw [← hnil] at hs
        cases hs
    refine setRed_bind hU (add_comm ..) ?_
    obtain ⟨m, hm⟩ := hbal'
    refine Triple.pure ⟨U.paint false, by simp, Multiset.le_add_right .., Tree.paint_isRed hU _,
      hm.paint_black, ?_⟩
    rwa [Tree.paint_bindings]

end nodes

/-! ### The invariant of the tree -/

namespace Tree

/-- The values bound in a tree, from left to right. -/
def keys (T : Tree) : List ℤ := T.bindings.map Prod.fst

theorem mem_keys {T : Tree} {v : ℤ} : v ∈ T.keys ↔ ∃ s, (v, s) ∈ T.bindings := by
  simp [keys]

end Tree

/-- The tree `T` is what the pointers of `t` stand for: a red-black search tree
with a black root, its nodes counted by `size`. -/
structure Represents (w : ℕ) (t : RedBlackTree) (T : Tree) : Prop where
  root_eq : t.root = T.ptr
  holds : t.store.Holds T.cells
  size_eq : t.size = T.size
  balanced : ∃ n, T.Balanced n
  black : T.isRed = false
  ordered : T.Ordered
  fits : ∀ b ∈ T.bindings, Fits w b.1

/-- Every cell of the tree was allocated. -/
theorem Represents.size_le {w : ℕ} {t : RedBlackTree} {T : Tree} (h : Represents w t T) :
    T.size ≤ t.store.next := by
  rw [← T.card_cells]
  exact h.holds.card_le

theorem represents_empty (w : ℕ) : Represents w .empty .nil :=
  ⟨rfl, Store.holds_zero _, rfl, ⟨0, rfl⟩, rfl, List.Pairwise.nil, by simp [Tree.bindings]⟩

section calls

variable {w : ℕ} {t : RedBlackTree} {T : Tree} {val : ℤ} {str : String}

/-- A binding between the smaller and the larger ones keeps the order. -/
theorem pairwise_insert {l r : List (ℤ × String)} (h : (l ++ r).Pairwise fun p q => p.1 < q.1)
    (hl : ∀ b ∈ l, b.1 < val) (hr : ∀ b ∈ r, val < b.1) :
    (l ++ (val, str) :: r).Pairwise fun p q => p.1 < q.1 := by
  rw [List.pairwise_append] at h ⊢
  obtain ⟨h₁, h₂, h₃⟩ := h
  refine ⟨h₁, List.pairwise_cons.2 ⟨hr, h₂⟩, fun p hp q hq => ?_⟩
  rcases List.mem_cons.1 hq with rfl | hq
  · exact hl p hp
  · exact h₃ p hp q hq

/-- In an ordered list the bindings around the one of `val` are those of the
other values. -/
theorem mem_around_iff {l r : List (ℤ × String)}
    (h : (l ++ (val, str) :: r).Pairwise fun p q => p.1 < q.1) (b : ℤ × String) :
    b ∈ l ++ r ↔ b ∈ l ++ (val, str) :: r ∧ b.1 ≠ val := by
  rw [List.pairwise_append, List.pairwise_cons] at h
  obtain ⟨-, ⟨hvr, -⟩, hlr⟩ := h
  simp only [List.mem_append, List.mem_cons]
  constructor
  · rintro (hmem | hmem)
    · exact ⟨.inl hmem, (hlr b hmem _ (.head _)).ne⟩
    · exact ⟨.inr (.inr hmem), (hvr b hmem).ne'⟩
  · rintro ⟨hmem | rfl | hmem, hne⟩
    · exact .inl hmem
    · exact absurd rfl hne
    · exact .inr hmem

/-- A tree with one binding more has one node more. -/
theorem Tree.size_of_bindings {U : Tree} {b : ℤ × String} {l r : List (ℤ × String)}
    (hT : T.bindings = l ++ r) (hU : U.bindings = l ++ b :: r) : U.size = T.size + 1 := by
  rw [← Tree.length_bindings, ← Tree.length_bindings, hT, hU]
  simp only [List.length_append, List.length_cons]
  omega

/-- **A balanced tree with the bindings of `T`** represents a call's result when
`T` represented its receiver and the call counted nothing. -/
theorem Represents.of_bindings_eq {t' : RedBlackTree} {U : Tree} (h : Represents w t T)
    (hroot : t'.root = U.ptr) (hholds : t'.store.Holds U.cells) (hsize : t'.size = t.size)
    (hbal : ∃ n, U.Balanced n) (hblack : U.isRed = false) (hb : U.bindings = T.bindings) :
    Represents w t' U where
  root_eq := hroot
  holds := hholds
  size_eq := by rw [hsize, h.size_eq, ← Tree.length_bindings, ← Tree.length_bindings, hb]
  balanced := hbal
  black := hblack
  ordered := by
    rw [Tree.Ordered, hb]
    exact h.ordered
  fits := hb ▸ h.fits

/-- **`Insert`** returns whether `val` was absent; the binding is added then, and
no other changes. -/
theorem Represents.insert (h : Represents w t T) (hval : Fits w val) (str : String) :
    ∃ t' U, t.insert w val str = .ok (decide (val ∉ T.keys), t') ∧ Represents w t' U ∧
      ∀ b, b ∈ U.bindings ↔ b ∈ T.bindings ∨ (val ∉ T.keys ∧ b = (val, str)) := by
  have hfuel : 2 * T.size + 1 ≤ insertFuel t.store := by
    have := h.size_le
    rw [insertFuel]
    omega
  obtain ⟨⟨root, ret⟩, s', M', hrun, hs', U, hroot, hU, hblack, hbal, hins⟩ :=
    insertNodes_spec str h.balanced h.black h.ordered h.fits hval hfuel t.store h.holds
  have hcall : t.insert w val str =
      .ok (ret, ⟨s', root, if ret then t.size + 1 else t.size⟩) := by
    rw [RedBlackTree.insert, h.root_eq, hrun]
    rfl
  refine ⟨⟨s', root, if ret then t.size + 1 else t.size⟩, U, ?_⟩
  cases ret with
  | true =>
    obtain ⟨l, r, hL, hl, hr, hb⟩ := hins
    have hord : (l ++ (val, str) :: r).Pairwise fun p q => p.1 < q.1 :=
      pairwise_insert (hL ▸ h.ordered) hl hr
    have hkeys : val ∉ T.keys := by
      rw [Tree.mem_keys, hL]
      rintro ⟨s, hs⟩
      exact ((mem_around_iff hord _).1 hs).2 rfl
    have hmem (b : ℤ × String) :
        b ∈ U.bindings ↔ b ∈ T.bindings ∨ (val ∉ T.keys ∧ b = (val, str)) := by
      rw [hb, hL]
      simp only [List.mem_append, List.mem_cons, hkeys, not_false_eq_true, true_and]
      tauto
    refine ⟨by simp [hcall, hkeys], ⟨hroot, hs'.mono hU, ?_, hbal, hblack, ?_, ?_⟩, hmem⟩
    · simp [h.size_eq, Tree.size_of_bindings hL hb]
    · rwa [Tree.Ordered, hb]
    · intro b hbU
      rcases (hmem b).1 hbU with hbT | ⟨-, rfl⟩
      · exact h.fits b hbT
      · exact hval
  | false =>
    obtain ⟨hmem, hb⟩ := hins
    have hkeys : val ∈ T.keys := Tree.mem_keys.2 hmem
    exact ⟨by simp [hcall, hkeys], h.of_bindings_eq hroot (hs'.mono hU) rfl hbal hblack hb,
      by simp [hb, hkeys]⟩

/-- **`Delete`** returns whether `val` was bound; that binding is gone then, and
every other is as it was. -/
theorem Represents.delete (h : Represents w t T) (hval : Fits w val) :
    ∃ t' U, t.delete w val = .ok (decide (val ∈ T.keys), t') ∧ Represents w t' U ∧
      ∀ b, b ∈ U.bindings ↔ b ∈ T.bindings ∧ b.1 ≠ val := by
  by_cases hT : T = .nil
  · subst hT
    refine ⟨t, .nil, ?_, h, by simp [Tree.bindings]⟩
    rw [RedBlackTree.delete, h.root_eq]
    rfl
  · have hfuel : T.size + 1 ≤ deleteFuel t.store := by
      have := h.size_le
      rw [deleteFuel]
      omega
    obtain ⟨⟨root, found⟩, s', M', hrun, hs', U, hroot, hU, hblack, hbal, hdel⟩ :=
      deleteNodes_spec hT h.balanced h.ordered h.fits hval hfuel t.store h.holds
    have hcall : t.delete w val =
        .ok (found, ⟨s', root, if found then t.size - 1 else t.size⟩) := by
      have hptr : T.ptr ≠ none := fun h => hT (Tree.ptr_eq_none_iff.1 h)
      rw [RedBlackTree.delete, h.root_eq, if_neg hptr, hrun]
      rfl
    refine ⟨⟨s', root, if found then t.size - 1 else t.size⟩, U, ?_⟩
    cases found with
    | true =>
      obtain ⟨l, s, r, hL, hb⟩ := hdel
      have hkeys : val ∈ T.keys := Tree.mem_keys.2 ⟨s, by rw [hL]; simp⟩
      have hord : (l ++ (val, s) :: r).Pairwise fun p q => p.1 < q.1 := hL ▸ h.ordered
      have hmem (b : ℤ × String) : b ∈ U.bindings ↔ b ∈ T.bindings ∧ b.1 ≠ val := by
        rw [hb, hL]
        exact mem_around_iff hord b
      refine ⟨by simp [hcall, hkeys], ⟨hroot, hs'.mono hU, ?_, hbal, hblack, ?_, ?_⟩, hmem⟩
      · simp [h.size_eq, Tree.size_of_bindings hb hL]
      · rw [Tree.Ordered, hb]
        exact hord.sublist ((List.sublist_cons_self ..).append_left l)
      · exact fun b hbU => h.fits b ((hmem b).1 hbU).1
    | false =>
      obtain ⟨hnot, hb⟩ := hdel
      have hkeys : val ∉ T.keys := by
        rw [Tree.mem_keys]
        rintro ⟨s, hs⟩
        exact hnot _ hs rfl
      refine ⟨by simp [hcall, hkeys], h.of_bindings_eq hroot (hs'.mono hU) rfl hbal hblack hb,
        fun b => ?_⟩
      rw [hb]
      exact ⟨fun hmem => ⟨hmem, hnot b hmem⟩, fun hmem => hmem.1⟩

end calls

/-! ### Sequences of calls -/

/-- A call that changes the tree. -/
inductive TreeOp where
  | insert (val : ℤ) (str : String)
  | delete (val : ℤ)

namespace TreeOp

/-- The value a call is about. -/
def val : TreeOp → ℤ
  | insert v _ => v
  | delete v => v

/-- One call, its result dropped. -/
def step (w : ℕ) (t : RedBlackTree) : TreeOp → Except Fault RedBlackTree
  | insert v str => Prod.snd <$> t.insert w v str
  | delete v => Prod.snd <$> t.delete w v

/-- A sequence of calls. -/
def run (w : ℕ) (t : RedBlackTree) (ops : List TreeOp) : Except Fault RedBlackTree :=
  ops.foldlM (step w) t

end TreeOp

section run

variable {w : ℕ} {t : RedBlackTree} {T : Tree}

/-- One call keeps the invariant. -/
theorem Represents.step (h : Represents w t T) (op : TreeOp) (hop : Fits w op.val) :
    ∃ t' U, op.step w t = .ok t' ∧ Represents w t' U := by
  cases op with
  | insert v str =>
    have hv : Fits w v := hop
    obtain ⟨t', U, hcall, hU, -⟩ := h.insert hv str
    exact ⟨t', U, by rw [TreeOp.step, hcall]; rfl, hU⟩
  | delete v =>
    have hv : Fits w v := hop
    obtain ⟨t', U, hcall, hU, -⟩ := h.delete hv
    exact ⟨t', U, by rw [TreeOp.step, hcall]; rfl, hU⟩

/-- **Every sequence of calls keeps the invariant**, and none of them stops at a
fault. -/
theorem Represents.run (h : Represents w t T) (ops : List TreeOp)
    (hops : ∀ op ∈ ops, Fits w op.val) :
    ∃ t' U, TreeOp.run w t ops = .ok t' ∧ Represents w t' U := by
  have hstep (t : RedBlackTree) (op : TreeOp) (hop : op ∈ ops) (ht : ∃ U, Represents w t U) :
      ∃ t', op.step w t = .ok t' ∧ ∃ U, Represents w t' U := by
    obtain ⟨T, hT⟩ := ht
    obtain ⟨t', U, hcall, hU⟩ := hT.step op (hops op hop)
    exact ⟨t', hcall, U, hU⟩
  obtain ⟨t', hrun, U, hU⟩ := Runs.exists_foldlM hstep ⟨T, h⟩
  exact ⟨t', U, hrun, hU⟩

end run

namespace Tree

/-- Every value of the left subtree is smaller, every value of the right one
larger, at every node. -/
def SearchTree : Tree → Prop
  | nil => True
  | node _ _ v _ l r =>
      (∀ u ∈ l.keys, u < v) ∧ (∀ u ∈ r.keys, v < u) ∧ l.SearchTree ∧ r.SearchTree

/-- No red node has a red child. -/
def NoRedRed : Tree → Prop
  | nil => True
  | node _ red _ _ l r =>
      (red = true → l.isRed = false ∧ r.isRed = false) ∧ l.NoRedRed ∧ r.NoRedRed

/-- The numbers of black nodes on the ways from the root down to a nil, one for
each way. -/
def blackCounts : Tree → List ℕ
  | nil => [0]
  | node _ red _ _ l r => (l.blackCounts ++ r.blackCounts).map (· + (!red).toNat)

theorem Ordered.searchTree {T : Tree} (h : T.Ordered) : T.SearchTree := by
  induction T with
  | nil => trivial
  | node a red v s l r ihl ihr =>
    rw [Ordered, bindings, List.pairwise_append, List.pairwise_cons] at h
    obtain ⟨hl, ⟨hvr, hr⟩, hlr⟩ := h
    refine ⟨fun u hu => ?_, fun u hu => ?_, ihl hl, ihr hr⟩
    · obtain ⟨s', hs'⟩ := mem_keys.1 hu
      exact hlr _ hs' _ (.head _)
    · obtain ⟨s', hs'⟩ := mem_keys.1 hu
      exact hvr _ hs'

theorem Balanced.noRedRed {T : Tree} {n : ℕ} (h : T.Balanced n) : T.NoRedRed := by
  induction T generalizing n with
  | nil => trivial
  | node a red v s l r ihl ihr =>
    obtain ⟨hred, m, -, hl, hr⟩ := h
    exact ⟨hred, ihl hl, ihr hr⟩

theorem Balanced.blackCounts {T : Tree} {n m : ℕ} (h : T.Balanced n) (hm : m ∈ T.blackCounts) :
    m = n := by
  induction T generalizing n m with
  | nil =>
    have hn : n = 0 := h
    simpa [hn] using List.mem_singleton.1 hm
  | node a red v s l r ihl ihr =>
    obtain ⟨-, k, rfl, hl, hr⟩ := h
    obtain ⟨j, hj, rfl⟩ := List.mem_map.1 hm
    rcases List.mem_append.1 hj with hj | hj
    · rw [ihl hl hj]
    · rw [ihr hr hj]

end Tree

/-- **The red-black invariant.**  After every sequence of `Insert` and `Delete`
calls on hash values, from the empty tree, no call has faulted and the tree that
the pointers stand for is a search tree with a black root, without a red node
under a red one, with as many black nodes on every way down, and with `size`
nodes. -/
theorem insert_delete_redBlack (ops : List TreeOp)
    (hops : ∀ op ∈ ops, 0 ≤ op.val ∧ op.val < 2 ^ 32) :
    ∃ (t : RedBlackTree) (T : Tree), TreeOp.run 64 .empty ops = .ok t ∧
      t.root = T.ptr ∧ t.store.Holds T.cells ∧ T.SearchTree ∧ T.isRed = false ∧ T.NoRedRed ∧
      (∀ m ∈ T.blackCounts, ∀ n ∈ T.blackCounts, m = n) ∧ t.size = T.size := by
  obtain ⟨t, T, hrun, hT⟩ := (represents_empty 64).run ops fun op hop =>
    fits_of_lt (hops op hop).1 (hops op hop).2
  obtain ⟨n, hbal⟩ := hT.balanced
  exact ⟨t, T, hrun, hT.root_eq, hT.holds, hT.ordered.searchTree, hT.black, hbal.noRedRed,
    fun m hm k hk => (hbal.blackCounts hm).trans (hbal.blackCounts hk).symm, hT.size_eq⟩

/-- A sequence with a duplicate insert and a delete of an absent value. -/
theorem insert_delete_redBlack_duplicate :
    (∀ op ∈ [TreeOp.insert 7 "a", .insert 4294967295 "b", .insert 7 "c", .delete 3, .delete 7],
      0 ≤ op.val ∧ op.val < 2 ^ 32) ∧
    ∃ (t : RedBlackTree) (T : Tree), TreeOp.run 64 .empty [.insert 7 "a", .insert 4294967295 "b",
        .insert 7 "c", .delete 3, .delete 7] = .ok t ∧
      t.root = T.ptr ∧ t.store.Holds T.cells ∧ T.SearchTree ∧ T.isRed = false ∧ T.NoRedRed ∧
      (∀ m ∈ T.blackCounts, ∀ n ∈ T.blackCounts, m = n) ∧ t.size = T.size := by
  have hops : ∀ op ∈ [TreeOp.insert 7 "a", .insert 4294967295 "b", .insert 7 "c", .delete 3,
      .delete 7], 0 ≤ op.val ∧ op.val < 2 ^ 32 := by
    simp [TreeOp.val]
  exact ⟨hops, insert_delete_redBlack _ hops⟩

end Hashring
end Ringpop
