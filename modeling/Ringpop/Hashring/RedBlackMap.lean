/-
# The tree is a finite map

What the tree is for: it binds hash values to servers.  `IntMap` is that map and
`IntMap.insert`, `IntMap.delete` and `IntMap.search` are its operations, stated
without a tree; `Refines` relates a tree to the map it stands for.  Each of
`Insert`, `Delete` and `Search` takes related states to related states and
returns what the operation of the map returns, so a tree and a map that start
empty and get the same calls stay related.

`Search` descends by `<` where `Insert` and `Delete` descend by the sign of a
difference; the same order of the bindings serves both.
-/

import Ringpop.Hashring.RedBlackInvariant

namespace Ringpop
namespace Hashring

open CellStore

/-! ### `Search` -/

section search

variable {M R : Multiset (ℕ × RedBlackNode)} {T l r : Tree} {a : ℕ} {red : Bool} {k val : ℤ}
  {s s' : String}

/-- A smaller value is bound in the left subtree. -/
theorem Tree.Ordered.mem_left (h : (Tree.node a red k s l r).Ordered) (hk : val < k) :
    (val, s') ∈ (Tree.node a red k s l r).bindings ↔ (val, s') ∈ l.bindings := by
  rw [Tree.Ordered, Tree.bindings, List.pairwise_append, List.pairwise_cons] at h
  obtain ⟨-, ⟨hr, -⟩, -⟩ := h
  simp only [Tree.bindings, List.mem_append, List.mem_cons, Prod.mk.injEq]
  constructor
  · rintro (hmem | ⟨rfl, -⟩ | hmem)
    · exact hmem
    · omega
    · have := hr _ hmem
      omega
  · exact .inl

/-- A larger value is bound in the right subtree. -/
theorem Tree.Ordered.mem_right (h : (Tree.node a red k s l r).Ordered) (hk : k < val) :
    (val, s') ∈ (Tree.node a red k s l r).bindings ↔ (val, s') ∈ r.bindings := by
  rw [Tree.Ordered, Tree.bindings, List.pairwise_append] at h
  obtain ⟨-, -, hl⟩ := h
  simp only [Tree.bindings, List.mem_append, List.mem_cons, Prod.mk.injEq]
  constructor
  · rintro (hmem | ⟨rfl, -⟩ | hmem)
    · have := hl _ hmem _ (.head _)
      omega
    · omega
    · exact hmem
  · exact fun hmem => .inr (.inr hmem)

/-- A value is bound once. -/
theorem Tree.Ordered.eq_of_mem (h : T.Ordered) (hs : (val, s) ∈ T.bindings)
    (hs' : (val, s') ∈ T.bindings) : s = s' := by
  by_contra hne
  have := List.Pairwise.forall_of_forall_of_flip (R := fun p q : ℤ × String => p.1 = q.1 → p = q)
    (l := T.bindings) (fun p _ _ => rfl)
    (h.imp fun hlt heq => absurd heq hlt.ne) (h.imp fun hlt heq => absurd heq.symm hlt.ne)
  exact hne (congrArg Prod.snd (this hs hs' rfl))

/-- The subtrees of a search tree are search trees. -/
theorem Tree.Ordered.left (h : (Tree.node a red k s l r).Ordered) : l.Ordered :=
  (List.pairwise_append.1 h).1

theorem Tree.Ordered.right (h : (Tree.node a red k s l r).Ordered) : r.Ordered :=
  (List.pairwise_cons.1 (List.pairwise_append.1 h).2.1).2

/-- The answer of `Search`: the string bound to `val`, if there is one. -/
def Answers (T : Tree) (val : ℤ) (res : String × Bool) : Prop :=
  (∀ s, (val, s) ∈ T.bindings → res = (s, true)) ∧ (val ∉ T.keys → res = ("", false))

/-- **`search`, by induction on the tree.** -/
theorem searchNode_spec {fuel : ℕ} (val : ℤ) (hT : T ≠ .nil) (hord : T.Ordered)
    (hfuel : T.size ≤ fuel) (hM : M = T.cells + R) :
    Triple M (searchNode val fuel T.ptr) fun res _ => Answers T val res := by
  induction T generalizing fuel R with
  | nil => exact absurd rfl hT
  | node a red k s l r ihl ihr =>
    obtain ⟨fuel, rfl⟩ : ∃ n, fuel = n + 1 := ⟨fuel - 1, by rw [Tree.size] at hfuel; omega⟩
    rw [Tree.size] at hfuel
    have hself : (k, s) ∈ (Tree.node a red k s l r).bindings := by simp [Tree.bindings]
    rw [searchNode, Tree.ptr]
    refine Triple.load_bind (c := ⟨k, s, l.ptr, r.ptr, red⟩) (by rw [hM]; simp [Tree.cells]) ?_
    by_cases hk : k = val
    · subst hk
      rw [if_pos rfl]
      exact Triple.pure ⟨fun s' hs' => by rw [hord.eq_of_mem hself hs'],
        fun h => absurd (Tree.mem_keys.2 ⟨s, hself⟩) h⟩
    · rw [if_neg hk]
      by_cases hlt : val < k
      · have hiff : Answers (Tree.node a red k s l r) val = Answers l val := by
          funext res
          simp only [Answers, Tree.mem_keys, hord.mem_left hlt]
        rw [if_pos hlt, hiff]
        by_cases hl : l = .nil
        · subst hl
          exact Triple.pure ⟨by simp [Tree.bindings], fun _ => rfl⟩
        · rw [if_pos (mt Tree.eq_nil_of_ptr hl)]
          refine ihl (R := {(a, ⟨k, s, l.ptr, r.ptr, red⟩)} + r.cells + R) hl hord.left
            (by omega) ?_
          rw [hM, Tree.cells]
          abel
      · have hiff : Answers (Tree.node a red k s l r) val = Answers r val := by
          funext res
          simp only [Answers, Tree.mem_keys, hord.mem_right (by omega : k < val)]
        rw [if_neg hlt, hiff]
        by_cases hr : r = .nil
        · subst hr
          exact Triple.pure ⟨by simp [Tree.bindings], fun _ => rfl⟩
        · rw [if_pos (mt Tree.eq_nil_of_ptr hr)]
          refine ihr (R := {(a, ⟨k, s, l.ptr, r.ptr, red⟩)} + l.cells + R) hr hord.right
            (by omega) ?_
          rw [hM, Tree.cells]
          abel

/-- **`Search`** returns the string that `val` is bound to. -/
theorem Represents.search {w : ℕ} {t : RedBlackTree} (h : Represents w t T) (val : ℤ) :
    ∃ res, t.search val = .ok res ∧ Answers T val res := by
  by_cases hT : T = .nil
  · subst hT
    refine ⟨("", false), ?_, by simp [Tree.bindings], fun _ => rfl⟩
    rw [RedBlackTree.search, h.root_eq]
    rfl
  · have hfuel : T.size ≤ t.store.next + 1 := h.size_le.trans (Nat.le_succ _)
    obtain ⟨res, s', -, hrun, -, hres⟩ :=
      searchNode_spec val hT h.ordered hfuel (add_zero _).symm t.store h.holds
    refine ⟨res, ?_, hres⟩
    have hptr : T.ptr ≠ none := fun h => hT (Tree.ptr_eq_none_iff.1 h)
    rw [RedBlackTree.search, h.root_eq, if_neg hptr, hrun]
    rfl

end search

/-! ### The map -/

/-- A string that may be missing, as the source returns it. -/
def answer : Option String → String × Bool
  | some s => (s, true)
  | none => ("", false)

@[simp] theorem answer_eq_true {x : Option String} {s : String} :
    answer x = (s, true) ↔ x = some s := by
  cases x <;> simp [answer]

/-- A map from values to strings. -/
abbrev IntMap := ℤ → Option String

namespace IntMap

/-- Bind a value that is not bound; a bound one keeps its string. -/
def insert (m : IntMap) (val : ℤ) (str : String) : IntMap :=
  if (m val).isNone then Function.update m val (some str) else m

/-- Unbind a value. -/
def delete (m : IntMap) (val : ℤ) : IntMap := Function.update m val none

/-- The string bound to a value, and whether there is one. -/
def search (m : IntMap) (val : ℤ) : String × Bool := answer (m val)

end IntMap

/-- What a call does to the map. -/
def TreeOp.apply (m : IntMap) : TreeOp → IntMap
  | insert v str => m.insert v str
  | delete v => m.delete v

/-- The bindings of the tree are those of the map. -/
def Refines (w : ℕ) (t : RedBlackTree) (m : IntMap) : Prop :=
  ∃ T, Represents w t T ∧ ∀ v s, (v, s) ∈ T.bindings ↔ m v = some s

section refines

variable {w : ℕ} {t : RedBlackTree} {m : IntMap} {val : ℤ}

theorem refines_empty (w : ℕ) : Refines w .empty fun _ => none :=
  ⟨.nil, represents_empty w, by simp [Tree.bindings]⟩

/-- **`Insert` refines the insertion into the map.** -/
theorem Refines.insert (h : Refines w t m) (hval : Fits w val) (str : String) :
    ∃ t', t.insert w val str = .ok ((m val).isNone, t') ∧ Refines w t' (m.insert val str) := by
  obtain ⟨T, hT, hm⟩ := h
  obtain ⟨t', U, hcall, hU, hb⟩ := hT.insert hval str
  have hkeys : val ∉ T.keys ↔ (m val).isNone := by
    simp only [Tree.mem_keys, hm, not_exists, Option.isNone_iff_eq_none]
    exact Option.eq_none_iff_forall_ne_some.symm
  refine ⟨t', by simpa only [hkeys, Bool.decide_eq_true] using hcall, U, hU, fun v s => ?_⟩
  rw [hb, hm, hkeys, IntMap.insert]
  by_cases hnone : (m val).isNone
  · rw [if_pos hnone]
    by_cases hv : v = val
    · subst hv
      simp [Option.isNone_iff_eq_none.1 hnone, eq_comm]
    · simp [hv]
  · simp [hnone]

/-- **`Delete` refines the deletion from the map.** -/
theorem Refines.delete (h : Refines w t m) (hval : Fits w val) :
    ∃ t', t.delete w val = .ok ((m val).isSome, t') ∧ Refines w t' (m.delete val) := by
  obtain ⟨T, hT, hm⟩ := h
  obtain ⟨t', U, hcall, hU, hb⟩ := hT.delete hval
  have hkeys : val ∈ T.keys ↔ (m val).isSome := by
    simp only [Tree.mem_keys, hm, Option.isSome_iff_exists]
  refine ⟨t', by simpa only [hkeys, Bool.decide_eq_true] using hcall, U, hU, fun v s => ?_⟩
  rw [hb, hm, IntMap.delete]
  by_cases hv : v = val
  · subst hv
    simp
  · simp [hv]

/-- **`Search` refines the search in the map.** -/
theorem Refines.search (h : Refines w t m) (val : ℤ) : t.search val = .ok (m.search val) := by
  obtain ⟨T, hT, hm⟩ := h
  obtain ⟨res, hcall, hsome, hnone⟩ := hT.search val
  rw [hcall, IntMap.search]
  cases hval : m val with
  | some s => rw [hsome s ((hm val s).2 hval), answer]
  | none =>
    rw [hnone, answer]
    simp [Tree.mem_keys, hm, hval]

/-- One call takes a tree and its map to a tree and its map. -/
theorem Refines.step (h : Refines w t m) (op : TreeOp) (hop : Fits w op.val) :
    ∃ t', op.step w t = .ok t' ∧ Refines w t' (op.apply m) := by
  cases op with
  | insert v str =>
    have hv : Fits w v := hop
    obtain ⟨t', hcall, ht'⟩ := h.insert hv str
    exact ⟨t', by rw [TreeOp.step, hcall]; rfl, ht'⟩
  | delete v =>
    have hv : Fits w v := hop
    obtain ⟨t', hcall, ht'⟩ := h.delete hv
    exact ⟨t', by rw [TreeOp.step, hcall]; rfl, ht'⟩

/-- **A sequence of calls does to the tree what it does to the map.** -/
theorem Refines.run (h : Refines w t m) (ops : List TreeOp) (hops : ∀ op ∈ ops, Fits w op.val) :
    ∃ t', TreeOp.run w t ops = .ok t' ∧ Refines w t' (ops.foldl TreeOp.apply m) :=
  Runs.foldlM_refines (fun _ _ op hop ht => ht.step op (hops op hop)) h

end refines

/-- **The tree refines a finite map.**  After every sequence of calls on hash
values the tree stands for the map that the same calls leave; the next `Insert`,
`Delete` or `Search` returns what the map says, and stands for the map it
leaves. -/
theorem insert_delete_search_refine (ops : List TreeOp)
    (hops : ∀ op ∈ ops, 0 ≤ op.val ∧ op.val < 2 ^ 32) :
    ∃ (t : RedBlackTree) (m : IntMap), m = ops.foldl TreeOp.apply (fun _ => none) ∧
      TreeOp.run 64 .empty ops = .ok t ∧ Refines 64 t m ∧
      ∀ val : ℤ, 0 ≤ val → val < 2 ^ 32 →
        (∀ str, ∃ t', t.insert 64 val str = .ok ((m val).isNone, t') ∧
          Refines 64 t' (m.insert val str)) ∧
        (∃ t', t.delete 64 val = .ok ((m val).isSome, t') ∧ Refines 64 t' (m.delete val)) ∧
        t.search val = .ok (m.search val) := by
  obtain ⟨t, hrun, ht⟩ := (refines_empty 64).run ops fun op hop =>
    fits_of_lt (hops op hop).1 (hops op hop).2
  refine ⟨t, _, rfl, hrun, ht, fun val h₀ h₁ => ?_⟩
  have hval := fits_of_lt h₀ h₁
  exact ⟨fun str => ht.insert hval str, ht.delete hval, ht.search val⟩

/-- A deletion that copies the in-order neighbour up keeps the neighbour's
string. -/
theorem insert_delete_search_refine_neighbour :
    (∀ op ∈ [TreeOp.insert 5 "a", .insert 3 "b", .insert 8 "c", .delete 5],
      0 ≤ op.val ∧ op.val < 2 ^ 32) ∧
    ∃ (t : RedBlackTree) (m : IntMap),
      m = [TreeOp.insert 5 "a", .insert 3 "b", .insert 8 "c", .delete 5].foldl TreeOp.apply
        (fun _ => none) ∧
      TreeOp.run 64 .empty [.insert 5 "a", .insert 3 "b", .insert 8 "c", .delete 5] = .ok t ∧
      Refines 64 t m ∧
      ∀ val : ℤ, 0 ≤ val → val < 2 ^ 32 →
        (∀ str, ∃ t', t.insert 64 val str = .ok ((m val).isNone, t') ∧
          Refines 64 t' (m.insert val str)) ∧
        (∃ t', t.delete 64 val = .ok ((m val).isSome, t') ∧ Refines 64 t' (m.delete val)) ∧
        t.search val = .ok (m.search val) := by
  have hops : ∀ op ∈ [TreeOp.insert 5 "a", .insert 3 "b", .insert 8 "c", .delete 5],
      0 ≤ op.val ∧ op.val < 2 ^ 32 := by
    simp [TreeOp.val]
  exact ⟨hops, insert_delete_search_refine _ hops⟩

example : (TreeOp.run 64 .empty [.insert 5 "a", .insert 3 "b", .insert 8 "c", .delete 5] >>=
    fun t => t.search 3) = .ok ("b", true) := by
  decide +kernel

end Hashring
end Ringpop
