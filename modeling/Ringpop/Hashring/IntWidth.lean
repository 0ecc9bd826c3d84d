/-
# The width of `int`

A hash is a `uint32`, and the ring keeps it as an `int`, which has 32 or 64 bits.  The tree
compares the values of its nodes in two ways: `Insert` and `Delete` by the sign of
`node.val - val`, `search` and `findNUniqueAbove` by `<` and `>=`.  And `LookupN` takes 0 for the
least of all hashes, when it goes on from there.

With 64 bits all of that is one order (`keyOrder_of_fits`).  With 32 bits a hash of `2^31` or more
is a negative `int`: the difference of two hashes may wrap (`sameOrder_iff`), so that `Insert` puts
a value where `Search` does not look for it, and a walk from 0 does not come by a negative
value, so that `LookupN` and `Lookup` miss servers.  Both widths agree exactly on hashes below
`2^31` (`keyOrder_iff`).
-/

import Ringpop.Hashring.Lookup

namespace Ringpop
namespace Hashring

open CellStore Clockwise

/-- The comparison by subtraction of `Insert` and `Delete` is the comparison of `search` and
`findNUniqueAbove`: both find a value in the same node, and go right at the same nodes. -/
def SameOrder (w : ℕ) (nodeVal val : ℤ) : Prop :=
  (intSub w nodeVal val = 0 ↔ nodeVal = val) ∧ (intSub w nodeVal val < 0 ↔ nodeVal < val)

theorem sameOrder_of_fits {w : ℕ} {a b : ℤ} (ha : Fits w a) (hb : Fits w b) :
    SameOrder w a b := by
  rw [SameOrder, intSub_eq ha hb]
  omega

/-- **With 32 bits** the comparisons of two hashes agree if their difference does not wrap. -/
theorem sameOrder_iff (g h : UInt32) :
    SameOrder 32 (intOfUInt32 32 g) (intOfUInt32 32 h) ↔
      -2 ^ 31 ≤ intOfUInt32 32 g - intOfUInt32 32 h ∧
        intOfUInt32 32 g - intOfUInt32 32 h < 2 ^ 31 := by
  have hg : g.toNat < 2 ^ 32 := g.toNat_lt
  have hh : h.toNat < 2 ^ 32 := h.toNat_lt
  rw [SameOrder, intSub, Int.bmod_eq_emod, intOfUInt32_eq_ite, intOfUInt32_eq_ite]
  split_ifs <;> omega

/-- One order of the keys, for the hashes `H`.  The two comparisons agree on them; after every
sequence of calls of `Insert` and `Delete`, `Search` finds what the calls leave and a scan from 0
comes by all of it, unless it stops because it has enough; and on every ring a `LookupN` that
returns fewer servers than it was asked for has missed none that has a point. -/
structure KeyOrder (w : ℕ) (H : Set UInt32) : Prop where
  same : ∀ g ∈ H, ∀ h ∈ H, SameOrder w (intOfUInt32 w g) (intOfUInt32 w h)
  tree : ∀ ops : List TreeOp, (∀ op ∈ ops, ∃ h ∈ H, op.val = intOfUInt32 w h) →
    ∃ t, TreeOp.run w .empty ops = .ok t ∧
      ∀ m : IntMap, m = ops.foldl TreeOp.apply (fun _ => none) →
        (∀ val, t.search val = .ok (m.search val)) ∧
        ∀ n result, ∃ found, t.lookupNUniqueAt n 0 result = .ok found ∧
          (found.card < n → ∀ val s, m val = some s → s ∈ found)
  ring : ∀ (fp hash : String → UInt32) (R : ℤ) (calls : List (MapOrder × RingOp)),
    (∀ s, hash s ∈ H) → ∃ r, RingOp.run ⟨w, fp⟩ (.new w hash R) calls = .ok r ∧
      ∀ o key n, ∃ servers, r.lookupN o key n = .ok servers ∧
        (servers.length < n → ∀ p s, r.tree.search p = .ok (s, true) → s ∈ servers)

section fits

variable {w : ℕ} {H : Set UInt32}

/-- A scan from 0 comes by every value that fits. -/
theorem Refines.scan_zero {t : RedBlackTree} {m : IntMap} (h : Refines w t m) (n : ℤ)
    (result : Finset String) : ∃ found, t.lookupNUniqueAt n 0 result = .ok found ∧
      (found.card < n → ∀ val s, m val = some s → s ∈ found) := by
  obtain ⟨L, hL, hfits, hcall⟩ := h.lookupNUniqueAt
  refine ⟨_, hcall n 0 result, fun hcard val s hs => mem_collect_of_card_lt hcard ?_⟩
  rw [above_zero hfits]
  exact List.mem_map.2 ⟨(val, s), (hL.2 val s).2 hs, rfl⟩

/-- `LookupN` misses no server that has a point. -/
theorem Owns.lookupN_all {pf : Platform} {hashfunc : String → ℤ} {R : ℤ} {U : Set String}
    {r : HashRing} {A : Ownership} (h : Owns pf hashfunc R U r A)
    (hA : A.Owned (ringPoints hashfunc R)) (o : MapOrder) (key : String) (n : ℤ) :
    ∃ servers, r.lookupN o key n = .ok servers ∧
      (servers.length < n → ∀ p s, r.tree.search p = .ok (s, true) → s ∈ servers) := by
  obtain ⟨L, hL, -, -⟩ := h.tree.lookupNUniqueAt
  obtain ⟨servers, hcall, hnodup, hservers⟩ := h.lookupN hL o key n
  refine ⟨servers, hcall, fun hlength p s hs => ?_⟩
  have howner : A.owner p = some s := by
    rw [h.tree.search] at hs
    exact answer_eq_true.1 (Except.ok.inj hs)
  rw [← List.toFinset_card_of_nodup hnodup, hservers] at hlength
  rw [← List.mem_toFinset, hservers]
  rw [Ownership.firstN] at hlength ⊢
  split_ifs at hlength ⊢ with hn
  · rw [← collect_empty] at hlength ⊢
    exact mem_collect_of_card_lt hlength (mem_clockwise.2 ⟨p, (hL.2 p s).2 howner⟩)
  · exact (hA p s howner).1

/-- **Hashes that fit an `int`** are in one order. -/
theorem keyOrder_of_fits (hH : ∀ h ∈ H, Fits w (intOfUInt32 w h)) : KeyOrder w H where
  same g hg h hh := sameOrder_of_fits (hH g hg) (hH h hh)
  tree ops hops := by
    have hfits : ∀ op ∈ ops, Fits w op.val := by
      intro op hop
      obtain ⟨h, hh, hval⟩ := hops op hop
      rw [hval]
      exact hH h hh
    obtain ⟨t, hrun, ht⟩ := (refines_empty w).run ops hfits
    refine ⟨t, hrun, ?_⟩
    rintro m rfl
    exact ⟨ht.search, ht.scan_zero⟩
  ring fp hash R calls hhash := by
    have hnew := owns_new_of_fits fp R fun s => hH _ (hhash s)
    obtain ⟨r, hrun, h⟩ := hnew.run calls fun s _ => Set.mem_univ s
    exact ⟨r, hrun, h.lookupN_all (Ownership.owned_empty.run _)⟩

end fits

/-- The tree after one call of `Insert`. -/
theorem run_insert (w : ℕ) (v : ℤ) (s : String) : ∃ cell : ℕ → Option RedBlackNode,
    cell 0 = some { val := v, str := s } ∧
      TreeOp.run w .empty [.insert v s] = .ok ⟨⟨1, cell⟩, some 0, 1⟩ :=
  ⟨_, rfl, rfl⟩

/-- A scan from 0 does not come by a negative value. -/
theorem scan_zero_of_neg {w : ℕ} {v : ℤ} (hv : v < 0) {s : String} {t : RedBlackTree}
    (h : TreeOp.run w .empty [.insert v s] = .ok t) : t.lookupNUniqueAt 1 0 ∅ = .ok ∅ := by
  obtain ⟨cell, hcell, hrun⟩ := run_insert w v s
  obtain rfl := Except.ok.inj (h.symm.trans hrun)
  have hholds : (⟨1, cell⟩ : Store RedBlackNode).Holds (Tree.node 0 false v s .nil .nil).cells :=
    ⟨by simp [Tree.cells], by simp [Tree.cells], by simp [Tree.cells, hcell, Tree.ptr]⟩
  have hord : (Tree.node 0 false v s .nil .nil).Ordered := by simp [Tree.Ordered, Tree.bindings]
  have hnone : above (Tree.node 0 false v s .nil .nil).bindings 0 = [] := by
    simp [above, Tree.bindings, hv]
  rw [lookupNUniqueAt_eq rfl hholds hord le_rfl, hnone]
  rfl

/-- A hash whose point is reached from 0 is not negative as an `int`. -/
theorem KeyOrder.nonneg {w : ℕ} {H : Set UInt32} (hH : KeyOrder w H) {h : UInt32} (hh : h ∈ H) :
    0 ≤ intOfUInt32 w h := by
  by_contra hneg
  obtain ⟨t, hrun, ht⟩ := hH.tree [.insert (intOfUInt32 w h) "a"] (by
    rintro op hop
    obtain rfl := List.mem_singleton.1 hop
    exact ⟨h, hh, rfl⟩)
  obtain ⟨found, hcall, hfound⟩ := (ht _ rfl).2 1 ∅
  obtain rfl := Except.ok.inj (hcall.symm.trans (scan_zero_of_neg (not_le.1 hneg) hrun))
  refine Finset.notMem_empty "a" (hfound (by decide) (intOfUInt32 w h) "a" ?_)
  simp [TreeOp.apply, IntMap.insert]

/-- **The keys are in one order exactly where no hash is a negative `int`**: with 64 bits always,
and with 32 bits on the hashes below `2^31`. -/
theorem keyOrder_iff (W : IntWidth) (H : Set UInt32) :
    KeyOrder W.bits H ↔ W = .bits64 ∨ ∀ h ∈ H, h.toNat < 2 ^ 31 := by
  constructor
  · intro hH
    cases W with
    | bits64 => exact .inl rfl
    | bits32 =>
      refine .inr fun h hh => ?_
      have hnonneg : 0 ≤ intOfUInt32 32 h := hH.nonneg hh
      have hlt : h.toNat < 2 ^ 32 := h.toNat_lt
      rw [intOfUInt32_eq_ite] at hnonneg
      split_ifs at hnonneg with hsmall
      · exact hsmall
      · omega
  · intro hW
    exact keyOrder_of_fits fun h hh => intOfUInt32_fits_of_lt (hW.imp_right fun hH => hH h hh)

/-- Three servers whose points are negative `int`s of 32 bits, and a key that is not. -/
def highPoints (s : String) : UInt32 :=
  if s = "a0" then 0x80000000 else if s = "b0" then 0x90000000
  else if s = "c0" then 0xa0000000 else 5

/-- **With 32 bits** `Insert` goes right where `search` goes left, so that it puts a point where
`Search` does not find it; and on a ring with three servers `LookupN` returns none of the two
that it is asked for, and `Lookup` no owner. -/
theorem keyOrder_32_fails :
    (intSub 32 (intOfUInt32 32 1) (intOfUInt32 32 0x80000000) < 0 ∧
      intOfUInt32 32 0x80000000 < intOfUInt32 32 1) ∧
    (TreeOp.run 32 .empty [.insert (intOfUInt32 32 1) "a",
        .insert (intOfUInt32 32 0x80000000) "b"] >>=
      fun t => t.search (intOfUInt32 32 0x80000000)) = .ok ("", false) ∧
    (do
      let r ← RingOp.run ⟨32, fun _ => 0⟩ (.new 32 highPoints 1)
        [(.sorted, .addRemoveServers ["a", "b", "c"] [])]
      let servers ← r.lookupN .sorted "k" 2
      let owner ← r.lookup .sorted "k"
      return (r.serverCount, servers, owner)) = .ok (3, [], "", false) ∧
    ¬ KeyOrder 32 Set.univ := by
  refine ⟨by decide, by decide +kernel, by decide +kernel, fun hH => ?_⟩
  exact absurd (hH.nonneg (Set.mem_univ 0x80000000)) (by decide)

end Hashring
end Ringpop
