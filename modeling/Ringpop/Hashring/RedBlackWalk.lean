/-
# The walk through the tree

`findNUniqueAbove` goes through the nodes in order, skips the left subtree of a
node below `val` and stops when it has `n` strings.  Whatever it skips and
wherever it stops, it gathers what the loop `Clockwise.collect` gathers from the
bindings from `val` upwards (`findNUniqueAbove_spec`): skipped subtrees hold
nothing that is asked for, and a loop that has enough gathers nothing.
-/

import Ringpop.Collections.Clockwise
import Ringpop.Hashring.RedBlackMap

namespace Ringpop
namespace Hashring

open CellStore Clockwise

/-- The strings of the bindings from `val` upwards. -/
def above (L : List (ℤ × String)) (val : ℤ) : List String :=
  (L.filter (val ≤ ·.1)).map Prod.snd

section above

variable {l r : List (ℤ × String)} {k val : ℤ} {s : String}

theorem above_of_le (h : val ≤ k) :
    above (l ++ (k, s) :: r) val = above l val ++ s :: above r val := by
  simp [above, h]

/-- A subtree left of a node below `val` may be skipped, and the node too. -/
theorem above_of_lt (hl : ∀ b ∈ l, b.1 < k) (h : k < val) :
    above (l ++ (k, s) :: r) val = above r val := by
  have hnil : l.filter (val ≤ ·.1) = [] := by
    rw [List.filter_eq_nil_iff]
    intro b hb
    have := hl b hb
    simp only [decide_eq_true_eq]
    omega
  simp [above, hnil, h]

end above

section walk

variable {M R : Multiset (ℕ × RedBlackNode)} {T : Tree}

/-- **`findNUniqueAbove`, by induction on the tree.** -/
theorem findNUniqueAbove_spec {fuel : ℕ} (n val : ℤ) (result : Finset String) (hord : T.Ordered)
    (hfuel : T.size + 1 ≤ fuel) (hM : M = T.cells + R) :
    Triple M (findNUniqueAbove n val fuel T.ptr result) fun res M' =>
      M' = M ∧ res = collect n (above T.bindings val) result := by
  induction T generalizing fuel R result with
  | nil =>
    obtain ⟨fuel, rfl⟩ : ∃ k, fuel = k + 1 := ⟨fuel - 1, by omega⟩
    rw [findNUniqueAbove, if_pos (.inr rfl)]
    exact Triple.pure ⟨rfl, rfl⟩
  | node a red k s l r ihl ihr =>
    obtain ⟨fuel, rfl⟩ : ∃ k, fuel = k + 1 := ⟨fuel - 1, by omega⟩
    rw [Tree.size] at hfuel
    rw [findNUniqueAbove]
    by_cases hn : n ≤ result.card
    · rw [if_pos (.inl hn)]
      exact Triple.pure ⟨rfl, (collect_of_le hn _).symm⟩
    rw [if_neg (by simp [hn, Tree.ptr]), Tree.ptr]
    refine Triple.load_bind (c := ⟨k, s, l.ptr, r.ptr, red⟩) (by rw [hM]; simp [Tree.cells]) ?_
    have hMl : M = l.cells + ({(a, ⟨k, s, l.ptr, r.ptr, red⟩)} + r.cells + R) := by
      rw [hM, Tree.cells]
      abel
    have hMr : M = r.cells + ({(a, ⟨k, s, l.ptr, r.ptr, red⟩)} + l.cells + R) := by
      rw [hM, Tree.cells]
      abel
    by_cases hk : val ≤ k
    · simp only [hk, if_true]
      refine Triple.bind (ihl result hord.left (by omega) hMl) ?_
      rintro res _ ⟨rfl, rfl⟩
      have habove : above (Tree.node a red k s l r).bindings val =
          above l.bindings val ++ s :: above r.bindings val := above_of_le hk
      rw [habove, collect_append]
      split_ifs with hfull
      · exact Triple.pure ⟨rfl, (collect_of_le hfull _).symm⟩
      · rw [collect, if_neg hfull]
        exact ihr _ hord.right (by omega) hMr
    · have hl : ∀ b ∈ l.bindings, b.1 < k := fun b hb =>
        (List.pairwise_append.1 hord).2.2 b hb (k, s) (.head _)
      have habove : above (Tree.node a red k s l r).bindings val = above r.bindings val :=
        above_of_lt hl (by omega)
      simp only [hk, if_false, pure_bind, hn, habove]
      exact ihr _ hord.right (by omega) hMr

end walk

/-- **`LookupNUniqueAt`** on a search tree in the store, whatever its values. -/
theorem lookupNUniqueAt_eq {t : RedBlackTree} {T : Tree} (hroot : t.root = T.ptr)
    (hholds : t.store.Holds T.cells) (hord : T.Ordered) (hsize : T.size ≤ t.store.next)
    (n val : ℤ) (result : Finset String) :
    t.lookupNUniqueAt n val result = .ok (collect n (above T.bindings val) result) := by
  obtain ⟨res, s', -, hrun, -, -, rfl⟩ := findNUniqueAbove_spec n val result hord
    (Nat.succ_le_succ hsize) (add_zero _).symm t.store hholds
  rw [RedBlackTree.lookupNUniqueAt, hroot, hrun]
  rfl

/-- **`LookupNUniqueAt`** gathers from the bindings from `val` upwards, in their
order. -/
theorem Refines.lookupNUniqueAt {w : ℕ} {t : RedBlackTree} {m : IntMap} (h : Refines w t m) :
    ∃ L, Lists m L ∧ (∀ b ∈ L, Fits w b.1) ∧ ∀ n val result,
      t.lookupNUniqueAt n val result = .ok (collect n (above L val) result) := by
  obtain ⟨T, hT, hm⟩ := h
  exact ⟨T.bindings, ⟨hT.ordered, hm⟩, hT.fits,
    lookupNUniqueAt_eq hT.root_eq hT.holds hT.ordered hT.size_le⟩

end Hashring
end Ringpop
