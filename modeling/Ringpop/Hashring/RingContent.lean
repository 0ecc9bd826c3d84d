/-
# What is on a ring whose replica points are all different

Where no two replicas of the servers that are ever added have the same hash
(`DistinctPoints`), nothing of what collisions do to a ring can happen
(`Ringpop.Hashring.RingChange`).  Every server owns its points whatever was added
and removed, so the tree holds the points of the servers of the ring and nothing
else: `replicaPoints` for each server (`Ownership.Exact.length_eq`).  With one
replica at least every server is met on the way around, and `LookupN` returns as
many servers as it was asked for, or all (`Ownership.Exact.card_firstN`).  The points
are to be no negative `int`s (`PointsFit`): otherwise `LookupN` may return none of the
servers (`lookupN_misses_servers`).
-/

import Mathlib.Data.Finset.Prod
import Ringpop.Hashring.RingChange

namespace Ringpop
namespace Hashring

open CellStore Clockwise

/-- No two replicas of servers in `U` have the same hash. -/
def DistinctPoints {κ : Type} (hashfunc : String → κ) (replicaPoints : ℤ) (U : Finset String) :
    Prop :=
  ∀ s ∈ U, ∀ t ∈ U, ∀ i < replicaPoints.toNat, ∀ j < replicaPoints.toNat,
    hashfunc (HashRing.replica s i) = hashfunc (HashRing.replica t j) → s = t ∧ i = j

instance {κ : Type} [DecidableEq κ] (hashfunc : String → κ) (R : ℤ) (U : Finset String) :
    Decidable (DistinctPoints hashfunc R U) :=
  inferInstanceAs (Decidable (∀ s ∈ U, ∀ t ∈ U, ∀ i < R.toNat, ∀ j < R.toNat, _ → _))

section distinct

variable {hashfunc : String → ℤ} {R : ℤ} {U : Finset String} {A : Ownership}
  {L : List (ℤ × String)}

theorem mem_ringPoints {p : ℤ} {s : String} : p ∈ ringPoints hashfunc R s ↔
    ∃ i < R.toNat, hashfunc (HashRing.replica s i) = p := by
  simp [ringPoints]

theorem DistinctPoints.mono {V : Finset String} (h : DistinctPoints hashfunc R U) (hV : V ⊆ U) :
    DistinctPoints hashfunc R V :=
  fun s hs t ht => h s (hV hs) t (hV ht)

/-- As `int`s, different hashes are different. -/
theorem DistinctPoints.toInt {hash : String → UInt32} (h : DistinctPoints hash R U)
    (W : IntWidth) : DistinctPoints (fun s => intOfUInt32 W.bits (hash s)) R U := by
  intro s hs t ht i hi j hj heq
  exact h s hs t ht i hi j hj (intOfUInt32_injective W heq)

theorem DistinctPoints.noSharedPoint (h : DistinctPoints hashfunc R U) :
    Ownership.NoSharedPoint (ringPoints hashfunc R) U := by
  intro s hs t ht hst p hps hpt
  obtain ⟨i, hi, rfl⟩ := mem_ringPoints.1 hps
  obtain ⟨j, hj, heq⟩ := mem_ringPoints.1 hpt
  exact hst (h s hs t ht i hi j hj heq.symm).1

namespace Ownership

/-- **Every sequence of calls** over servers that share no point leaves every
server the owner of its points. -/
theorem Exact.run {points : String → List ℤ} (hA : A.Exact points) (hU : NoSharedPoint points U)
    (hAU : A.servers ⊆ U) (ops : List RingOp) (hops : ∀ op ∈ ops, ∀ s ∈ op.added, s ∈ U) :
    (ops.foldl (RingOp.apply points) A).Exact points ∧
      (ops.foldl (RingOp.apply points) A).servers ⊆ U :=
  List.foldlRecOn ops _ (motive := fun B : Ownership => B.Exact points ∧ B.servers ⊆ U)
    ⟨hA, hAU⟩ fun _ hB op hop => hB.1.apply_subset op hU hB.2 (hops op hop)

/-- The points of the servers, with their owners, listed server by server. -/
theorem Exact.toFinset_eq (hA : A.Exact (ringPoints hashfunc R)) (hL : Lists A.owner L) :
    L.toFinset = (A.servers ×ˢ Finset.range R.toNat).image
      fun x => (hashfunc (HashRing.replica x.1 x.2), x.1) := by
  ext ⟨p, s⟩
  simp only [List.mem_toFinset, hL.2, hA p s, mem_ringPoints, Finset.mem_image,
    Finset.mem_product, Finset.mem_range, Prod.mk.injEq, Prod.exists]
  constructor
  · rintro ⟨hs, i, hi, hp⟩
    exact ⟨s, i, ⟨hs, hi⟩, hp, rfl⟩
  · rintro ⟨_, i, ⟨hs, hi⟩, hp, rfl⟩
    exact ⟨hs, i, hi, hp⟩

/-- **There are `replicaPoints` points for each server.** -/
theorem Exact.length_eq (hA : A.Exact (ringPoints hashfunc R)) (hL : Lists A.owner L)
    (hdistinct : DistinctPoints hashfunc R A.servers) :
    L.length = R.toNat * A.servers.card := by
  have hnodup : L.Nodup := by
    refine hL.1.imp ?_
    rintro b _ hlt rfl
    exact lt_irrefl _ hlt
  rw [← List.toFinset_card_of_nodup hnodup, hA.toFinset_eq hL, Finset.card_image_of_injOn,
    Finset.card_product, Finset.card_range, mul_comm]
  rintro ⟨s, i⟩ hs ⟨t, j⟩ ht heq
  simp only [Finset.coe_product, Set.mem_prod, Finset.mem_coe, Finset.mem_range] at hs ht
  obtain ⟨rfl, rfl⟩ := hdistinct s hs.1 t ht.1 i hs.2 j ht.2 (congrArg Prod.fst heq)
  rfl

/-- With one replica at least, the walk meets every server. -/
theorem Exact.clockwise_toFinset (hA : A.Exact (ringPoints hashfunc R)) (hL : Lists A.owner L)
    (hR : 1 ≤ R) (h : ℤ) : (clockwise L h).toFinset = A.servers := by
  ext s
  simp only [List.mem_toFinset, mem_clockwise, hL.2, hA _ s, mem_ringPoints]
  constructor
  · rintro ⟨p, hs, -⟩
    exact hs
  · intro hs
    exact ⟨_, hs, 0, by omega, rfl⟩

/-- **`LookupN` is to return as many servers as it was asked for**, or all. -/
theorem Exact.card_firstN (hA : A.Exact (ringPoints hashfunc R)) (hL : Lists A.owner L)
    (hR : 1 ≤ R) (h : ℤ) {n : ℤ} (hn : 0 ≤ n) :
    ((A.firstN L h n).card : ℤ) = min n A.servers.card := by
  rw [firstN]
  split_ifs with hcard
  · rw [card_firstDistinct, hA.clockwise_toFinset hL hR]
    omega
  · omega

end Ownership

end distinct

/-- **Every ring that calls can build** over servers without common points. -/
theorem exists_owns_exact {W : IntWidth} {hash : String → UInt32} {R : ℤ} {U : Finset String}
    (fp : String → UInt32) (hfit : PointsFit W hash R U) (hdistinct : DistinctPoints hash R U)
    (calls : List (MapOrder × RingOp)) (hcalls : RingOp.addedBy calls ⊆ U) :
    ∃ r A, RingOp.run ⟨W.bits, fp⟩ (.new W.bits hash R) calls = .ok r ∧
      Owns ⟨W.bits, fp⟩ (fun s => intOfUInt32 W.bits (hash s)) R U r A ∧
      A.Exact (ringPoints (fun s => intOfUInt32 W.bits (hash s)) R) ∧ A.servers ⊆ U := by
  obtain ⟨r, hrun, h⟩ := (owns_new fp hfit).run calls hcalls
  obtain ⟨hA, hAU⟩ := (Ownership.exact_empty _).run (hdistinct.toInt W).noSharedPoint
    (Finset.empty_subset _) (calls.map Prod.snd) (by
      rintro _ hop s hs
      obtain ⟨call, hcall, rfl⟩ := List.mem_map.1 hop
      exact hcalls (RingOp.mem_addedBy hcall hs))
  exact ⟨r, _, hrun, h, hA, hAU⟩

/-- **The content of a ring without collisions.**  After any sequence of calls
over servers whose replica points are all different, where `int` has 64 bits or the
points are below `2^31`, the tree binds the points of the servers of the ring and no
others, it has `replicaPoints` nodes for each server, and `LookupN` returns `n`
different servers of the ring, or all. -/
theorem ring_content_of_distinctPoints (W : IntWidth) (fp hash : String → UInt32) (R : ℤ)
    (calls : List (MapOrder × RingOp)) (hfit : PointsFit W hash R (RingOp.addedBy calls))
    (hdistinct : DistinctPoints hash R (RingOp.addedBy calls)) :
    ∃ (r : HashRing) (T : Tree),
      RingOp.run ⟨W.bits, fp⟩ (.new W.bits hash R) calls = .ok r ∧
      Represents W.bits r.tree T ∧
      (∀ p s, (p, s) ∈ T.bindings ↔
        s ∈ r.serverSet ∧ ∃ i < R.toNat, ((hash (HashRing.replica s i)).toNat : ℤ) = p) ∧
      r.tree.size = R.toNat * r.serverCount ∧
      (1 ≤ R → ∀ (o : MapOrder) (key : String) (n : ℤ), 0 ≤ n →
        ∃ l, r.lookupN o key n = .ok l ∧ l.Nodup ∧ (∀ s ∈ l, s ∈ r.serverSet) ∧
          (l.length : ℤ) = min n r.serverCount) := by
  obtain ⟨r, A, hrun, h, hA, hAU⟩ := exists_owns_exact fp hfit hdistinct calls subset_rfl
  obtain ⟨T, hT, hm⟩ := h.tree
  have hL : Lists A.owner T.bindings := ⟨hT.ordered, hm⟩
  refine ⟨r, T, hrun, hT, fun p s => ?_, ?_, fun hR o key n hn => ?_⟩
  · rw [hm, hA p s, h.servers, mem_ringPoints]
    refine and_congr_right fun hs => exists_congr fun i => and_congr_right fun hi => ?_
    rw [hfit.intOfUInt32_eq (hAU hs) hi]
  · rw [hT.size_eq, ← Tree.length_bindings, hA.length_eq hL ((hdistinct.toInt W).mono hAU),
      HashRing.serverCount, h.servers]
    push_cast
    rfl
  · obtain ⟨l, hcall, hnodup, hmem⟩ := h.lookupN hL o key n
    refine ⟨l, hcall, hnodup, fun s hs => ?_, ?_⟩
    · rw [h.servers]
      have hOwned : A.Owned (ringPoints (fun s => intOfUInt32 W.bits (hash s)) R) :=
        fun p t => (hA p t).1
      exact hOwned.firstN_subset hL _ n (hmem ▸ List.mem_toFinset.2 hs)
    · rw [← List.toFinset_card_of_nodup hnodup, hmem, hA.card_firstN hL hR _ hn,
        HashRing.serverCount, h.servers]

/-- Two servers with two replicas each, one added twice and the other removed and
added again. -/
theorem ring_content_of_distinctPoints_two :
    DistinctPoints (fun s => if s = "a0" then 4 else if s = "a1" then 3 else
        if s = "b0" then 2 else 1) 2 {"a", "b"} ∧
      ∃ r, RingOp.run (.bits64 fun _ => 0)
        (.new 64 (fun s => if s = "a0" then 4 else if s = "a1" then 3 else
          if s = "b0" then 2 else 1) 2)
        [(.sorted, .addServer "a"), (.sorted, .addRemoveServers ["a", "b"] ["b"]),
          (.sorted, .addServer "b")] = .ok r ∧
        r.serverSet = {"a", "b"} ∧ r.tree.size = 4 ∧
        ∃ l, r.lookupN .sorted "k" 1 = .ok l ∧ l.length = 1 := by
  have hdistinct : DistinctPoints (fun s => if s = "a0" then (4 : UInt32) else
      if s = "a1" then 3 else if s = "b0" then 2 else 1) 2
      (RingOp.addedBy [(.sorted, .addServer "a"), (.sorted, .addRemoveServers ["a", "b"] ["b"]),
        (.sorted, .addServer "b")]) := by
    decide +kernel
  have hservers : (RingOp.run (.bits64 fun _ => 0)
      (.new 64 (fun s => if s = "a0" then 4 else if s = "a1" then 3 else
        if s = "b0" then 2 else 1) 2)
      [(.sorted, .addServer "a"), (.sorted, .addRemoveServers ["a", "b"] ["b"]),
        (.sorted, .addServer "b")]).map (fun r => decide (r.serverSet = {"a", "b"})) =
      .ok true := by
    decide +kernel
  obtain ⟨r, T, hrun, -, -, hsize, hlookup⟩ := ring_content_of_distinctPoints .bits64
    (fun _ => 0) (fun s => if s = "a0" then 4 else if s = "a1" then 3 else
      if s = "b0" then 2 else 1) 2
    [(.sorted, .addServer "a"), (.sorted, .addRemoveServers ["a", "b"] ["b"]),
      (.sorted, .addServer "b")] (.inl rfl) hdistinct
  have hset : r.serverSet = {"a", "b"} := by
    obtain ⟨r₁, hrun₁, hset⟩ := exists_of_map_eq_ok hservers
    obtain rfl := Except.ok.inj (hrun.symm.trans hrun₁)
    exact of_decide_eq_true hset
  have hcount : r.serverCount = 2 := by rw [HashRing.serverCount, hset]; rfl
  obtain ⟨l, hcall, -, -, hlength⟩ := hlookup (by decide) .sorted "k" 1 (by decide)
  refine ⟨by decide +kernel, r, hrun, hset, by rw [hsize, hcount]; rfl, l, hcall, ?_⟩
  rw [hcount] at hlength
  exact_mod_cast hlength

/-- **With 32 bits** three servers with different points, and none of them is returned: all
points are negative, and a walk that goes on from 0 comes by none of them. -/
theorem lookupN_misses_servers :
    DistinctPoints highPoints 1 {"a", "b", "c"} ∧
      ∃ r, RingOp.run ⟨32, fun _ => 0⟩ (.new 32 highPoints 1)
          [(.sorted, .addRemoveServers ["a", "b", "c"] [])] = .ok r ∧
        r.serverSet = {"a", "b", "c"} ∧ r.lookupN .sorted "k" 2 = .ok [] := by
  have heval : (do
      let r ← RingOp.run ⟨32, fun _ => 0⟩ (.new 32 highPoints 1)
        [(.sorted, .addRemoveServers ["a", "b", "c"] [])]
      let servers ← r.lookupN .sorted "k" 2
      return (decide (r.serverSet = {"a", "b", "c"}), servers)) = .ok (true, []) := by
    decide +kernel
  obtain ⟨r, hrun, heval⟩ := exists_of_bind_eq_ok heval
  obtain ⟨servers, hcall, heval⟩ := exists_of_bind_eq_ok heval
  simp only [pure, Except.pure, Except.ok.injEq, Prod.mk.injEq, decide_eq_true_eq] at heval
  obtain ⟨hset, rfl⟩ := heval
  exact ⟨by decide +kernel, r, hrun, hset, hcall⟩

end Hashring
end Ringpop
