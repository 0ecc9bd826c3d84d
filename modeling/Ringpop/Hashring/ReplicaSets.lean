/-
# Replica sets of rings that differ

Two nodes whose membership differs have different rings, and so do a node before and after a
change.  `LookupN` then returns different replicas for a key.  Where no two replica points
of the servers have the same hash, and none is negative as an `int`, how different they are is
bounded by how different the sets of servers are: a server that both rings have gives way only
to one that the other ring does not have (`replica_sets_overlap`).  Both rings are parts of one
larger ring, and their walks are the walk around that one with some owners left out
(`Ownership.Exact.clockwise_eq_filter`).
-/

import Ringpop.Hashring.RingContent

namespace Ringpop
namespace Hashring

open CellStore Clockwise

variable {hashfunc : String → ℤ} {R : ℤ} {U : Finset String} {A B : Ownership}
  {L M : List (ℤ × String)}

namespace Ownership

/-- **What `LookupN` is to return** is a part of the walk, also where it is everything. -/
theorem Exact.firstN_eq (hA : A.Exact (ringPoints hashfunc R)) (hL : Lists A.owner L)
    (hR : 1 ≤ R) (h n : ℤ) :
    A.firstN L h n = (firstDistinct n.toNat (clockwise L h)).toFinset := by
  rw [firstN]
  split_ifs with hn
  · rfl
  · have hwalk := hA.clockwise_toFinset hL hR h
    symm
    refine Finset.eq_of_subset_of_card_le (fun s hs => ?_) ?_
    · rw [← hwalk]
      exact List.mem_toFinset.2 (mem_of_mem_firstDistinct (List.mem_toFinset.1 hs))
    · rw [card_firstDistinct, hwalk]
      omega

/-- **The walk around a part of a ring** is that around the ring with some owners left out. -/
theorem Exact.clockwise_eq_filter {points : String → List ℤ} (hA : A.Exact points)
    (hB : B.Exact points) (hsub : A.servers ⊆ B.servers) (hL : Lists A.owner L)
    (hM : Lists B.owner M) (h : ℤ) :
    clockwise L h = (clockwise M h).filter fun s => decide (s ∈ A.servers) := by
  have howner : A.owner = fun v => (B.owner v).filter fun s => decide (s ∈ A.servers) := by
    funext v
    refine Option.ext fun s => ?_
    rw [Option.filter_eq_some_iff, decide_eq_true_iff, hA v s, hB v s]
    exact ⟨fun hs => ⟨⟨hsub hs.1, hs.2⟩, hs.1⟩, fun hs => ⟨hs.2, hs.1.2⟩⟩
  rw [howner] at hL
  rw [hL.unique (hM.filter _)]
  exact clockwise_filter M h fun s => decide (s ∈ A.servers)

/-- **The ring of given servers.** -/
theorem exists_exact {W : IntWidth} {hash : String → UInt32} (hfit : PointsFit W hash R U)
    (hU : NoSharedPoint (ringPoints (fun s => intOfUInt32 W.bits (hash s)) R) U) :
    ∃ (B : Ownership) (M : List (ℤ × String)),
      B.Exact (ringPoints (fun s => intOfUInt32 W.bits (hash s)) R) ∧ B.servers = U ∧
      Lists B.owner M := by
  obtain ⟨r, -, h⟩ := (owns_new (fun _ => 0) hfit).run
    [(.sorted, .addRemoveServers U.toList [])] (by simp [RingOp.addedBy, RingOp.added])
  obtain ⟨M, hM, -, -⟩ := h.tree.lookupNUniqueAt
  refine ⟨_, M, ((exact_empty _).run hU (Finset.empty_subset _) _ ?_).1, ?_, hM⟩
  · rintro op hop s hs
    rw [List.map_singleton, List.mem_singleton] at hop
    subst hop
    exact Finset.mem_toList.1 hs
  · rw [List.map_singleton, List.foldl_cons, List.foldl_nil, RingOp.apply, List.foldl_nil,
      foldl_add_servers, Finset.toList_toFinset]
    exact Finset.empty_union U

/-- **How many servers give way.**  Of the servers that two rings have, those that the first
returns and the second does not are at most as many as the second returns and the first does
not have. -/
theorem Exact.card_displaced_le (hA : A.Exact (ringPoints hashfunc R))
    (hB : B.Exact (ringPoints hashfunc R)) {C : Ownership} {N : List (ℤ × String)}
    (hC : C.Exact (ringPoints hashfunc R)) (hAC : A.servers ⊆ C.servers)
    (hBC : B.servers ⊆ C.servers) (hL : Lists A.owner L) (hM : Lists B.owner M)
    (hN : Lists C.owner N) (hR : 1 ≤ R) (h n : ℤ) :
    ((A.firstN L h n ∩ B.servers) \ B.firstN M h n).card ≤
      (B.firstN M h n \ A.servers).card := by
  have hle := Clockwise.card_displaced_le n.toNat (clockwise N h)
    (fun s => decide (s ∈ A.servers)) fun s => decide (s ∈ B.servers)
  rw [← hA.clockwise_eq_filter hC hAC hL hN, ← hB.clockwise_eq_filter hC hBC hM hN,
    ← hA.firstN_eq hL hR, ← hB.firstN_eq hM hR] at hle
  simpa only [decide_eq_true_iff, decide_eq_false_iff_not, Finset.filter_mem_eq_inter,
    Finset.filter_notMem_eq_sdiff] using hle

end Ownership

section calls

variable {W : IntWidth} {fp hash : String → UInt32} {calls calls' : List (MapOrder × RingOp)}
  {r r' : HashRing} {o o' : MapOrder} {key : String} {n : ℤ} {l l' : List String}

/-- **What two rings return** for a key. -/
theorem card_displaced_of_lookupN (hR : 1 ≤ R)
    (hfit : PointsFit W hash R (RingOp.addedBy calls ∪ RingOp.addedBy calls'))
    (hdistinct : DistinctPoints hash R (RingOp.addedBy calls ∪ RingOp.addedBy calls'))
    (hrun : RingOp.run ⟨W.bits, fp⟩ (.new W.bits hash R) calls = .ok r)
    (hrun' : RingOp.run ⟨W.bits, fp⟩ (.new W.bits hash R) calls' = .ok r')
    (hl : r.lookupN o key n = .ok l) (hl' : r'.lookupN o' key n = .ok l') :
    l.Nodup ∧ l.length ≤ n.toNat ∧ l.toFinset ⊆ r.serverSet ∧
      ((l.toFinset ∩ r'.serverSet) \ l'.toFinset).card ≤ (l'.toFinset \ r.serverSet).card := by
  obtain ⟨r₁, A, hrun₁, h, hA, hAU⟩ :=
    exists_owns_exact fp hfit hdistinct calls Finset.subset_union_left
  obtain ⟨r₂, B, hrun₂, h', hB, hBU⟩ :=
    exists_owns_exact fp hfit hdistinct calls' Finset.subset_union_right
  obtain ⟨C, N, hC, hCU, hN⟩ := Ownership.exists_exact hfit (hdistinct.toInt W).noSharedPoint
  obtain ⟨L, hL, -, -⟩ := h.tree.lookupNUniqueAt
  obtain ⟨M, hM, -, -⟩ := h'.tree.lookupNUniqueAt
  obtain rfl := Except.ok.inj (hrun.symm.trans hrun₁)
  obtain rfl := Except.ok.inj (hrun'.symm.trans hrun₂)
  obtain ⟨l₁, hl₁, hnodup, hset⟩ := h.lookupN hL o key n
  obtain ⟨l₂, hl₂, -, hset'⟩ := h'.lookupN hM o' key n
  obtain rfl := Except.ok.inj (hl.symm.trans hl₁)
  obtain rfl := Except.ok.inj (hl'.symm.trans hl₂)
  rw [← hCU] at hAU hBU
  have hOwned : A.Owned (ringPoints (fun s => intOfUInt32 W.bits (hash s)) R) :=
    fun p t => (hA p t).1
  refine ⟨hnodup, ?_, ?_⟩
  · rw [← List.toFinset_card_of_nodup hnodup, hset, hA.firstN_eq hL hR]
    exact card_firstDistinct_le ..
  · rw [hset, hset', h.servers, h'.servers]
    exact ⟨hOwned.firstN_subset hL _ n, hA.card_displaced_le hB hC hAU hBU hL hM hN hR _ n⟩

/-- What two different choices have in common. -/
theorem card_le_card_inter_add {S T V W : Finset String} (hV : V ⊆ S) (hW : W ⊆ T)
    (h : ((V ∩ T) \ W).card ≤ (W \ S).card) :
    V.card ≤ (V ∩ W).card + (S \ T).card + (T \ S).card := by
  have hsplit : V ⊆ (V ∩ W) ∪ ((V ∩ T) \ W) ∪ (S \ T) := by
    intro s hs
    by_cases hT : s ∈ T
    · by_cases hsW : s ∈ W
      · exact Finset.mem_union_left _ (Finset.mem_union_left _ (Finset.mem_inter.2 ⟨hs, hsW⟩))
      · exact Finset.mem_union_left _ (Finset.mem_union_right _
          (Finset.mem_sdiff.2 ⟨Finset.mem_inter.2 ⟨hs, hT⟩, hsW⟩))
    · exact Finset.mem_union_right _ (Finset.mem_sdiff.2 ⟨hV hs, hT⟩)
  have hcard := (Finset.card_le_card hsplit).trans (Finset.card_union_le _ _)
  have hunion := Finset.card_union_le (V ∩ W) ((V ∩ T) \ W)
  have hnew := Finset.card_le_card (Finset.sdiff_subset_sdiff hW (Finset.Subset.refl S))
  omega

end calls

/-- **Replica sets of rings that differ.**  Take any two rings with the same hash function, built
by any calls over servers whose replica points are all different, where `int` has 64 bits or the
points are below `2^31`.  For every key and every `n`,
the servers that both rings have and only the first ring returns are at most as many as those
that the second ring returns and the first does not have; so the replicas that both return are
as many as asked for, up to the number of servers that only one of the rings has. -/
theorem replica_sets_overlap (W : IntWidth) (fp hash : String → UInt32) (R : ℤ) (hR : 1 ≤ R)
    (calls calls' : List (MapOrder × RingOp))
    (hfit : PointsFit W hash R (RingOp.addedBy calls ∪ RingOp.addedBy calls'))
    (hdistinct : DistinctPoints hash R (RingOp.addedBy calls ∪ RingOp.addedBy calls')) :
    ∃ r r', RingOp.run ⟨W.bits, fp⟩ (.new W.bits hash R) calls = .ok r ∧
      RingOp.run ⟨W.bits, fp⟩ (.new W.bits hash R) calls' = .ok r' ∧
      ∀ (o o' : MapOrder) (key : String) (n : ℤ),
        ∃ l l', r.lookupN o key n = .ok l ∧ r'.lookupN o' key n = .ok l' ∧
          ((l.toFinset ∩ r'.serverSet) \ l'.toFinset).card ≤
            (l'.toFinset \ r.serverSet).card ∧
          l.length ≤ (l.toFinset ∩ l'.toFinset).card + (r.serverSet \ r'.serverSet).card +
            (r'.serverSet \ r.serverSet).card := by
  obtain ⟨r, A, L, hrun, h, -, hL⟩ := exists_owns fp hfit calls Finset.subset_union_left
  obtain ⟨r', B, M, hrun', h', -, hM⟩ := exists_owns fp hfit calls' Finset.subset_union_right
  refine ⟨r, r', hrun, hrun', fun o o' key n => ?_⟩
  obtain ⟨l, hl, -⟩ := h.lookupN hL o key n
  obtain ⟨l', hl', -⟩ := h'.lookupN hM o' key n
  obtain ⟨hnodup, -, hsub, hle⟩ := card_displaced_of_lookupN hR hfit hdistinct hrun hrun' hl hl'
  rw [Finset.union_comm] at hfit hdistinct
  obtain ⟨-, -, hsub', -⟩ := card_displaced_of_lookupN hR hfit hdistinct hrun' hrun hl' hl
  refine ⟨l, l', hl, hl', hle, ?_⟩
  rw [← List.toFinset_card_of_nodup hnodup]
  exact card_le_card_inter_add hsub hsub' hle

/-- The first replicas of four servers, in their order. -/
def fourPoints (s : String) : UInt32 :=
  if s = "a0" then 1 else if s = "b0" then 2 else if s = "c0" then 3 else
    if s = "d0" then 4 else 0

/-- A ring with `a`, `b` and `c`, and one with `d` in the place of `a`, with an `int` of 32
bits. -/
theorem replica_sets_overlap_four : ∃ r r' l l',
    RingOp.run ⟨32, fun _ => 0⟩ (.new 32 fourPoints 1)
      [(.sorted, .addRemoveServers ["a", "b", "c"] [])] = .ok r ∧
    RingOp.run ⟨32, fun _ => 0⟩ (.new 32 fourPoints 1)
      [(.sorted, .addRemoveServers ["b", "c", "d"] [])] = .ok r' ∧
    r.serverSet = {"a", "b", "c"} ∧ r'.serverSet = {"b", "c", "d"} ∧
    r.lookupN .sorted "k" 3 = .ok l ∧ r'.lookupN .sorted "k" 3 = .ok l' ∧
    l.length ≤ (l.toFinset ∩ l'.toFinset).card + 2 := by
  obtain ⟨r, r', hrun, hrun', hlookup⟩ := replica_sets_overlap .bits32 (fun _ => 0) fourPoints
    1 le_rfl [(.sorted, .addRemoveServers ["a", "b", "c"] [])]
    [(.sorted, .addRemoveServers ["b", "c", "d"] [])] (by decide +kernel) (by decide +kernel)
  obtain ⟨l, l', hl, hl', -, hle⟩ := hlookup .sorted .sorted "k" 3
  have hset : (RingOp.run ⟨32, fun _ => 0⟩ (.new 32 fourPoints 1)
      [(.sorted, .addRemoveServers ["a", "b", "c"] [])]).map
        (fun r => decide (r.serverSet = {"a", "b", "c"})) = .ok true := by decide +kernel
  have hset' : (RingOp.run ⟨32, fun _ => 0⟩ (.new 32 fourPoints 1)
      [(.sorted, .addRemoveServers ["b", "c", "d"] [])]).map
        (fun r => decide (r.serverSet = {"b", "c", "d"})) = .ok true := by decide +kernel
  obtain ⟨r₁, hrun₁, hset⟩ := exists_of_map_eq_ok hset
  obtain ⟨r₂, hrun₂, hset'⟩ := exists_of_map_eq_ok hset'
  obtain rfl := Except.ok.inj (hrun.symm.trans hrun₁)
  obtain rfl := Except.ok.inj (hrun'.symm.trans hrun₂)
  have hset : r.serverSet = {"a", "b", "c"} := of_decide_eq_true hset
  have hset' : r'.serverSet = {"b", "c", "d"} := of_decide_eq_true hset'
  rw [hset, hset'] at hle
  exact ⟨r, r', l, l', hrun, hrun', hset, hset', hl, hl', hle⟩

end Hashring
end Ringpop
