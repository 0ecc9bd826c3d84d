/-
# What a change of the ring does to lookups

A server that is added gives keys to itself only (`addServer_attracts`), also
where its points collide with owned ones: what it does not get stays as it was.
With a server that is removed it is different.  `removeReplicasNoLock` deletes the
points of the server by their values, so a point that collided and belongs to
another server goes too, and the keys there go to whoever owns the next point.  No
other key moves if and only if that is the same server, for every such point
(`removeServer_keeps_lookup_iff`).

For the same reason two rings with the same servers may differ: who owns a point
that two servers share depends on who came first, and on what was removed since.
Where no server is added next to one it shares a point with, the owners are
determined by the servers (`Ownership.Exact`), and the rings agree
(`lookup_agree_of_collisionFree`).

All three need points that are not negative as an `int` (`PointsFit`); with 32 bits a
server that is added may take a key from another one and not get it
(`addServer_loses_key`).
-/

import Ringpop.Hashring.IntWidth

namespace Ringpop
namespace Hashring

open CellStore Clockwise Runs

/-! ### One server more, one server less -/

namespace Ownership

variable {points : String → List ℤ} {A : Ownership} {L L' : List (ℤ × String)} {h : ℤ}
  {s t : String}

/-- The head of a list is the head of what is kept of it, if it is kept. -/
theorem head?_filter {α : Type} {l : List α} {x : α} {keep : α → Bool} (hl : l.head? = some x)
    (hx : keep x = true) : (l.filter keep).head? = some x := by
  cases l with
  | nil => cases hl
  | cons y l =>
    obtain rfl : y = x := Option.some.inj hl
    rw [List.filter_cons_of_pos hx, List.head?_cons]

/-- Without the new server, the owners are the old ones. -/
theorem Owned.owner_eq_add_filter (hA : Owned points A) (hs : s ∉ A.servers) :
    A.owner = fun p => ((A.add points s).owner p).filter (· ≠ s) := by
  funext p
  have hkeep : (A.owner p).filter (· ≠ s) = A.owner p := by
    cases hp : A.owner p with
    | none => rfl
    | some t =>
      have hts : t ≠ s := fun hts => hs (hts ▸ (hA p t hp).1)
      simp [hts]
  rw [add_of_notMem hs]
  by_cases hps : p ∈ points s
  · simp only [hps, if_true]
    cases hp : A.owner p with
    | none => simp [Option.filter_some]
    | some t => simpa [hp] using hkeep.symm
  · simp only [hps, if_false, hkeep]

/-- **A server that is added attracts keys, and moves no other key.** -/
theorem Owned.first_add (hA : Owned points A) (hs : s ∉ A.servers) (hpt : points s ≠ [])
    (hL : Lists A.owner L) (hL' : Lists (A.add points s).owner L') :
    (A.add points s).first L' h = A.first L h ∨ (A.add points s).first L' h = some s := by
  have hservers : (A.add points s).servers = insert s A.servers := by rw [add_of_notMem hs]
  have hcard : (A.add points s).servers.card = A.servers.card + 1 := by
    rw [hservers, Finset.card_insert_of_notMem hs]
  obtain ⟨p, hp⟩ := List.exists_mem_of_ne_nil _ hpt
  -- the first point of the new server has an owner now, so the walk is not empty
  have hne : ∃ x, (clockwise L' h).head? = some x := by
    have howner : ∃ t, (A.add points s).owner p = some t := by
      rw [add_of_notMem hs]
      cases hpo : A.owner p <;> simp [hp, hpo]
    obtain ⟨t, ht⟩ := howner
    have hmem := mem_clockwise (h := h).2 ⟨p, (hL'.2 p t).2 ht⟩
    exact Option.isSome_iff_exists.1 (by simpa using List.ne_nil_of_mem hmem)
  obtain ⟨x, hx⟩ := hne
  rcases Nat.eq_zero_or_pos A.servers.card with hzero | hpos
  · right
    rw [first_of_card_le (by omega), hservers]
    exact Finset.mem_insert_self ..
  · have hfirst : (A.add points s).first L' h = some x := by
      rw [first, if_pos (by omega), hx]
    by_cases hxs : x = s
    · exact .inr (hxs ▸ hfirst)
    · left
      rw [hfirst]
      have hxA : x ∈ A.servers := by
        have hmem := (hA.add s).mem_of_clockwise hL' (List.mem_of_mem_head? hx)
        rw [hservers] at hmem
        exact (Finset.mem_insert.1 hmem).resolve_left hxs
      by_cases hone : A.servers.card ≤ 1
      · exact ((first_of_card_le hone x).2 hxA).symm
      · have hLL : L = L'.filter fun b => decide (b.2 ≠ s) := by
          refine hL.unique ?_
          rw [hA.owner_eq_add_filter hs]
          exact hL'.filter fun t => decide (t ≠ s)
        rw [first, if_pos (by omega), hLL, clockwise_filter L' h fun t => decide (t ≠ s)]
        exact (head?_filter hx (by simpa using hxs)).symm

/-- When `s` goes with its points, what is at `h` goes to `t`: there is no third
server, or the first point from `h` on that is not a point of `s` is owned by
`t`. -/
def Covers (servers : Finset String) (points : List ℤ) (L : List (ℤ × String)) (s t : String)
    (h : ℤ) : Prop :=
  servers = {s, t} ∨ (clockwise (L.filter fun b => b.1 ∉ points) h).head? = some t

/-- What is left on the circle when a server goes. -/
theorem lists_remove (hs : s ∈ A.servers) (hL : Lists A.owner L) :
    Lists (A.remove points s).owner (L.filter fun b => b.1 ∉ points s) := by
  have howner : (A.remove points s).owner =
      fun p => if decide (p ∉ points s) then A.owner p else none := by
    funext p
    rw [remove_of_mem hs]
    by_cases hp : p ∈ points s <;> simp [hp]
  rw [howner]
  exact hL.filter_fst fun p => decide (p ∉ points s)

/-- **Where a key goes when a server goes.** -/
theorem first_remove_iff (hs : s ∈ A.servers) (ht : t ∈ A.servers) (hts : t ≠ s)
    (hL : Lists A.owner L) (hL' : Lists (A.remove points s).owner L') :
    (A.remove points s).first L' h = some t ↔ Covers A.servers (points s) L s t h := by
  have ht' : t ∈ (A.remove points s).servers := by
    rw [remove_servers]
    exact Finset.mem_erase.2 ⟨hts, ht⟩
  obtain rfl := hL'.unique (lists_remove hs hL)
  by_cases hone : (A.remove points s).servers.card ≤ 1
  · have htwo : A.servers = {s, t} := by
      have herase : (A.remove points s).servers = {t} := Finset.eq_singleton_iff_unique_mem.2
        ⟨ht', fun u hu => Finset.card_le_one.1 hone u hu t ht'⟩
      rw [← Finset.insert_erase hs, ← remove_servers, herase]
    exact iff_of_true ((first_of_card_le hone t).2 ht') (.inl htwo)
  · have hthree : A.servers ≠ {s, t} := by
      intro htwo
      refine hone ?_
      rw [remove_servers, Finset.card_erase_of_mem hs, htwo, Finset.card_pair hts.symm]
    rw [first, if_pos (by omega), Covers, or_iff_right hthree]

/-- A key that reaches a point of its own server stays with it, and one that
reaches a point of the server that goes is covered where that point is. -/
theorem covers_of_covers_points (hL : Lists A.owner L)
    (hcover : ∀ p ∈ points s, ∀ t, A.owner p = some t → t ≠ s →
      Covers A.servers (points s) L s t p)
    (hfirst : (clockwise L h).head? = some t) (hts : t ≠ s) :
    Covers A.servers (points s) L s t h := by
  rw [clockwise, List.head?_map] at hfirst
  obtain ⟨b, hb, rfl⟩ := Option.map_eq_some_iff.1 hfirst
  by_cases hbs : b.1 ∈ points s
  · have howner : A.owner b.1 = some b.2 := by
      have hmem : b ∈ walk L h := List.mem_of_mem_head? hb
      refine (hL.2 b.1 b.2).1 ?_
      simp only [walk, List.mem_append, List.mem_filter] at hmem
      rcases hmem with hmem | hmem
      · exact hmem.1
      · exact hmem.1
    refine (hcover b.1 hbs b.2 howner hts).imp_right fun hcov => ?_
    rwa [clockwise, walk_filter, walk_of_head? hL.1 hb, ← walk_filter, ← clockwise] at hcov
  · refine .inr ?_
    rw [clockwise, walk_filter, List.head?_map, head?_filter hb (by simpa using hbs)]
    rfl

/-- **A server that goes moves no key of another** if and only if each of its points
that another server owns is followed by a point of that server. -/
theorem Owned.first_remove_keeps_iff {hashfunc : String → ℤ} {R : ℤ}
    (hA : Owned (ringPoints hashfunc R) A) (hs : s ∈ A.servers) (hL : Lists A.owner L)
    (hL' : Lists (A.remove (ringPoints hashfunc R) s).owner L') :
    (∀ key t, A.first L (hashfunc key) = some t → t ≠ s →
      (A.remove (ringPoints hashfunc R) s).first L' (hashfunc key) = some t) ↔
    ∀ p ∈ ringPoints hashfunc R s, ∀ t, A.owner p = some t → t ≠ s →
      Covers A.servers (ringPoints hashfunc R s) L s t p := by
  have hcard (t : String) (ht : t ∈ A.servers) (hts : t ≠ s) : 1 < A.servers.card :=
    Finset.one_lt_card.2 ⟨t, ht, s, hs, hts⟩
  constructor
  · -- the name of the replica is a key that reaches the point
    intro hkeep p hp t howner hts
    obtain ⟨i, -, rfl⟩ := List.mem_map.1 hp
    have ht := (hA _ t howner).1
    refine (first_remove_iff hs ht hts hL hL').1 (hkeep _ t ?_ hts)
    rw [first, if_pos (hcard t ht hts), clockwise, List.head?_map, hL.walk_head? howner]
    rfl
  · intro hcover key t hfirst hts
    have ht := hA.mem_of_first hL hfirst
    rw [first, if_pos (hcard t ht hts)] at hfirst
    exact (first_remove_iff hs ht hts hL hL').2 (covers_of_covers_points hL hcover hfirst hts)

/-! ### Servers that share no point -/

/-- No two servers of a set have a point in common. -/
def NoSharedPoint (points : String → List ℤ) (U : Finset String) : Prop :=
  ∀ s ∈ U, ∀ t ∈ U, s ≠ t → ∀ p ∈ points s, p ∉ points t

/-- The owners are determined by the servers: each owns its points. -/
def Exact (points : String → List ℤ) (A : Ownership) : Prop :=
  ∀ p s, A.owner p = some s ↔ s ∈ A.servers ∧ p ∈ points s

variable {U : Finset String}

theorem Exact.add (hA : Exact points A) (hU : NoSharedPoint points U) (hAU : A.servers ⊆ U)
    (hs : s ∈ U) : Exact points (A.add points s) := by
  by_cases hsA : s ∈ A.servers
  · rwa [add_of_mem hsA]
  rw [add_of_notMem hsA]
  intro p t
  simp only [Finset.mem_insert]
  by_cases hps : p ∈ points s
  · -- nobody else has this point, so it is free
    have hfree : A.owner p = none := by
      refine Option.eq_none_iff_forall_ne_some.2 fun u hu => ?_
      obtain ⟨huA, hpu⟩ := (hA p u).1 hu
      exact hU s hs u (hAU huA) (fun h => hsA (h ▸ huA)) p hps hpu
    simp only [hps, if_true, hfree, Option.none_or, Option.some.injEq]
    constructor
    · rintro rfl
      exact ⟨.inl rfl, hps⟩
    · rintro ⟨rfl | ht, hpt⟩
      · rfl
      · by_contra hne
        exact hU s hs t (hAU ht) hne p hps hpt
  · simp only [hps, if_false, hA p t]
    constructor
    · rintro ⟨ht, hpt⟩
      exact ⟨.inr ht, hpt⟩
    · rintro ⟨rfl | ht, hpt⟩
      · exact absurd hpt hps
      · exact ⟨ht, hpt⟩

theorem Exact.remove (hA : Exact points A) (hU : NoSharedPoint points U) (hAU : A.servers ⊆ U)
    (s : String) : Exact points (A.remove points s) := by
  by_cases hsA : s ∈ A.servers
  · rw [remove_of_mem hsA]
    intro p t
    simp only [Finset.mem_erase]
    by_cases hps : p ∈ points s
    · simp only [hps, if_true, reduceCtorEq, false_iff]
      rintro ⟨⟨hts, ht⟩, hpt⟩
      exact hU s (hAU hsA) t (hAU ht) hts.symm p hps hpt
    · simp only [hps, if_false, hA p t]
      constructor
      · rintro ⟨ht, hpt⟩
        exact ⟨⟨fun hts => hps (hts ▸ hpt), ht⟩, hpt⟩
      · rintro ⟨⟨-, ht⟩, hpt⟩
        exact ⟨ht, hpt⟩
  · rwa [remove_of_notMem hsA]

theorem add_servers_subset (hAU : A.servers ⊆ U) (hs : s ∈ U) :
    (A.add points s).servers ⊆ U := by
  by_cases hsA : s ∈ A.servers
  · rwa [add_of_mem hsA]
  · rw [add_of_notMem hsA]
    exact Finset.insert_subset hs hAU

theorem remove_servers_subset (hAU : A.servers ⊆ U) (s : String) :
    (A.remove points s).servers ⊆ U := by
  by_cases hsA : s ∈ A.servers
  · rw [remove_of_mem hsA]
    exact (Finset.erase_subset ..).trans hAU
  · rwa [remove_of_notMem hsA]

end Ownership

section apply

variable {points : String → List ℤ} {A : Ownership} {U : Finset String}

/-- **A call over servers that share no point** leaves every server the owner of
its points. -/
theorem Ownership.Exact.apply_subset (hA : A.Exact points) (op : RingOp)
    (hU : Ownership.NoSharedPoint points U) (hAU : A.servers ⊆ U) (hop : ∀ s ∈ op.added, s ∈ U) :
    (op.apply points A).Exact points ∧ (op.apply points A).servers ⊆ U :=
  op.apply_induction (P := fun B => B.Exact points ∧ B.servers ⊆ U)
    (fun _ s hs hB => ⟨hB.1.add hU hB.2 (hop s hs), add_servers_subset hB.2 (hop s hs)⟩)
    (fun _ s hB => ⟨hB.1.remove hU hB.2 s, remove_servers_subset hB.2 s⟩) ⟨hA, hAU⟩

/-- **A call that brings no two servers with a common point together** leaves
every server the owner of its points. -/
theorem Ownership.Exact.apply (hA : A.Exact points) (op : RingOp)
    (hU : Ownership.NoSharedPoint points (A.servers ∪ op.added.toFinset)) :
    (op.apply points A).Exact points :=
  (hA.apply_subset op hU Finset.subset_union_left fun _ hs =>
    Finset.mem_union_right _ (List.mem_toFinset.2 hs)).1

/-- Two ownerships with the same servers, each the owner of its points, are the
same. -/
theorem Ownership.Exact.eq {B : Ownership} (hA : A.Exact points) (hB : B.Exact points)
    (h : A.servers = B.servers) : A = B := by
  have howner : A.owner = B.owner := by
    funext p
    refine Option.ext fun s => ?_
    rw [hA p s, hB p s, h]
  cases A
  cases B
  exact congrArg₂ Ownership.mk h howner

end apply

/-! ### Runs of calls -/

/-- In a sequence of calls, none brings two servers with a common point
together: not among the servers it may add, nor with those on the ring. -/
def CollisionFree (pf : Platform) (r : HashRing) (calls : List (MapOrder × RingOp)) : Prop :=
  Along (RingOp.step pf) (fun r call =>
    Ownership.NoSharedPoint r.points (r.serverSet ∪ call.2.added.toFinset)) r calls

instance (points : String → List ℤ) (U : Finset String) :
    Decidable (Ownership.NoSharedPoint points U) :=
  inferInstanceAs (Decidable (∀ s ∈ U, ∀ t ∈ U, s ≠ t → ∀ p ∈ points s, p ∉ points t))

instance (pf : Platform) (r : HashRing) (calls : List (MapOrder × RingOp)) :
    Decidable (CollisionFree pf r calls) :=
  inferInstanceAs (Decidable (Along _ _ _ _))

section run

variable {pf : Platform} {hashfunc : String → ℤ} {R : ℤ} {U : Set String} {r : HashRing}
  {A : Ownership}

theorem Owns.points_eq (h : Owns pf hashfunc R U r A) : r.points = ringPoints hashfunc R := by
  funext s
  rw [HashRing.points, h.hashfunc_eq, h.replicaPoints_eq]

/-- **A sequence of calls without a collision** leaves every server the owner of
its points. -/
theorem Owns.run_exact (h : Owns pf hashfunc R U r A) (hA : A.Exact (ringPoints hashfunc R))
    (calls : List (MapOrder × RingOp)) (hcalls : ∀ s ∈ RingOp.addedBy calls, s ∈ U)
    (hfree : CollisionFree pf r calls) :
    ∃ r' A', RingOp.run pf r calls = .ok r' ∧ Owns pf hashfunc R U r' A' ∧
      A'.Exact (ringPoints hashfunc R) := by
  have hmem : Along (RingOp.step pf) (fun _ call => ∀ s ∈ call.2.added, s ∈ U) r calls :=
    along_of_forall_mem (fun _ call hcall s hs => hcalls s (RingOp.mem_addedBy hcall hs)) r
  obtain ⟨r', hrun, h', hA'⟩ := (hfree.and hmem).refines
    (R := fun r A => Owns pf hashfunc R U r A ∧ A.Exact (ringPoints hashfunc R))
    (g := fun A call => call.2.apply (ringPoints hashfunc R) A) (t := A)
    (fun r A call hr hcall => by
      obtain ⟨hshare, hadded⟩ := hcall
      rw [hr.1.points_eq, hr.1.servers] at hshare
      obtain ⟨r', hstep, h'⟩ := hr.1.step call hadded
      exact ⟨r', hstep, h', hr.2.apply call.2 hshare⟩) ⟨h, hA⟩
  exact ⟨r', _, hrun, h', hA'⟩

end run

/-- The ring of `New` owns nothing, exactly. -/
theorem Ownership.exact_empty (points : String → List ℤ) : Ownership.empty.Exact points := by
  intro p s
  simp [Ownership.empty]

/-- **Rings that never saw a collision agree.**  Two rings with the same hash
function and the same number of replicas, each built by its own sequence of calls
without a collision, return the same for every key once they have the same
servers; `int` has 64 bits, or the points of the servers that are added are below
`2^31`. -/
theorem lookup_agree_of_collisionFree (W : IntWidth) (fp hash : String → UInt32) (R : ℤ)
    (callsA callsB : List (MapOrder × RingOp))
    (hfit : PointsFit W hash R (RingOp.addedBy callsA ∪ RingOp.addedBy callsB))
    (hfreeA : CollisionFree ⟨W.bits, fp⟩ (.new W.bits hash R) callsA)
    (hfreeB : CollisionFree ⟨W.bits, fp⟩ (.new W.bits hash R) callsB) :
    ∃ rA rB, RingOp.run ⟨W.bits, fp⟩ (.new W.bits hash R) callsA = .ok rA ∧
      RingOp.run ⟨W.bits, fp⟩ (.new W.bits hash R) callsB = .ok rB ∧
      (rA.serverSet = rB.serverSet → ∀ (oA oB : MapOrder) (key : String),
        ∃ res, rA.lookup oA key = .ok res ∧ rB.lookup oB key = .ok res) := by
  have hnew := owns_new fp hfit
  obtain ⟨rA, A, hrunA, hA, hexA⟩ := hnew.run_exact (Ownership.exact_empty _) callsA
    (fun s hs => Finset.mem_union_left _ hs) hfreeA
  obtain ⟨rB, B, hrunB, hB, hexB⟩ := hnew.run_exact (Ownership.exact_empty _) callsB
    (fun s hs => Finset.mem_union_right _ hs) hfreeB
  refine ⟨rA, rB, hrunA, hrunB, fun hservers oA oB key => ?_⟩
  rw [hA.servers, hB.servers] at hservers
  obtain rfl := hexA.eq hexB hservers
  obtain ⟨L, hL, -, -⟩ := hA.tree.lookupNUniqueAt
  exact ⟨_, hA.lookup hL oA key, hB.lookup hL oB key⟩

/-- Two servers without a common point, added in either order. -/
theorem lookup_agree_of_collisionFree_swap :
    ∃ rA rB,
      RingOp.run (.bits64 fun _ => 0) (.new 64 (fun s => if s = "a0" then 1 else 2) 1)
        [(.sorted, .addServer "a"), (.sorted, .addServer "b")] = .ok rA ∧
      RingOp.run (.bits64 fun _ => 0) (.new 64 (fun s => if s = "a0" then 1 else 2) 1)
        [(.sorted, .addServer "b"), (.sorted, .addServer "a")] = .ok rB ∧
      rA.serverSet = rB.serverSet ∧ ∃ res, rA.lookup .sorted "k" = .ok res ∧
        rB.lookup .sorted "k" = .ok res := by
  have hfreeA : CollisionFree (.bits64 fun _ => 0)
      (.new 64 (fun s => if s = "a0" then 1 else 2) 1)
      [(.sorted, .addServer "a"), (.sorted, .addServer "b")] := by
    decide +kernel
  have hfreeB : CollisionFree (.bits64 fun _ => 0)
      (.new 64 (fun s => if s = "a0" then 1 else 2) 1)
      [(.sorted, .addServer "b"), (.sorted, .addServer "a")] := by
    decide +kernel
  obtain ⟨rA, rB, hA, hB, hagree⟩ := lookup_agree_of_collisionFree .bits64 (fun _ => 0)
    (fun s => if s = "a0" then 1 else 2) 1
    [(.sorted, .addServer "a"), (.sorted, .addServer "b")]
    [(.sorted, .addServer "b"), (.sorted, .addServer "a")] (.inl rfl) hfreeA hfreeB
  change RingOp.run (.bits64 fun _ => 0) (.new 64 (fun s => if s = "a0" then 1 else 2) 1)
    [(.sorted, .addServer "a"), (.sorted, .addServer "b")] = .ok rA at hA
  change RingOp.run (.bits64 fun _ => 0) (.new 64 (fun s => if s = "a0" then 1 else 2) 1)
    [(.sorted, .addServer "b"), (.sorted, .addServer "a")] = .ok rB at hB
  have hservers : ((RingOp.run (.bits64 fun _ => 0)
      (.new 64 (fun s => if s = "a0" then 1 else 2) 1)
        [(.sorted, .addServer "a"), (.sorted, .addServer "b")]).bind fun rA =>
      (RingOp.run (.bits64 fun _ => 0) (.new 64 (fun s => if s = "a0" then 1 else 2) 1)
        [(.sorted, .addServer "b"), (.sorted, .addServer "a")]).map fun rB =>
      decide (rA.serverSet = rB.serverSet)) = .ok true := by
    decide +kernel
  rw [hA, hB] at hservers
  have hsame : rA.serverSet = rB.serverSet := by simpa [Except.bind, Except.map] using hservers
  exact ⟨rA, rB, hA, hB, hsame, hagree hsame .sorted .sorted "k"⟩

/-- **Rings that saw a collision may disagree.**  With a hash function that is
constant, the server that comes first owns the one point; both rings have the
servers `a` and `b`. -/
theorem lookup_depends_on_history :
    ∃ rA rB, RingOp.run (.bits64 fun _ => 0) (.new 64 (fun _ => 5) 1)
        [(.sorted, .addServer "a"), (.sorted, .addServer "b")] = .ok rA ∧
      RingOp.run (.bits64 fun _ => 0) (.new 64 (fun _ => 5) 1)
        [(.sorted, .addServer "b"), (.sorted, .addServer "a")] = .ok rB ∧
      rA.serverSet = {"a", "b"} ∧ rB.serverSet = {"a", "b"} ∧
      rA.lookup .sorted "k" = .ok ("a", true) ∧ rB.lookup .sorted "k" = .ok ("b", true) := by
  have hA : (do
      let r ← RingOp.run (.bits64 fun _ => 0) (.new 64 (fun _ => 5) 1)
        [(.sorted, .addServer "a"), (.sorted, .addServer "b")]
      let res ← r.lookup .sorted "k"
      return (decide (r.serverSet = {"a", "b"}), res)) = .ok (true, "a", true) := by
    decide +kernel
  have hB : (do
      let r ← RingOp.run (.bits64 fun _ => 0) (.new 64 (fun _ => 5) 1)
        [(.sorted, .addServer "b"), (.sorted, .addServer "a")]
      let res ← r.lookup .sorted "k"
      return (decide (r.serverSet = {"a", "b"}), res)) = .ok (true, "b", true) := by
    decide +kernel
  obtain ⟨rA, hrunA, hA⟩ := exists_of_bind_eq_ok hA
  obtain ⟨resA, hlookA, hA⟩ := exists_of_bind_eq_ok hA
  obtain ⟨rB, hrunB, hB⟩ := exists_of_bind_eq_ok hB
  obtain ⟨resB, hlookB, hB⟩ := exists_of_bind_eq_ok hB
  simp only [pure, Except.pure, Except.ok.injEq, Prod.mk.injEq, decide_eq_true_eq] at hA hB
  obtain ⟨hsetA, rfl⟩ := hA
  obtain ⟨hsetB, rfl⟩ := hB
  exact ⟨rA, rB, hrunA, hrunB, hsetA, hsetB, hlookA, hlookB⟩

/-- **When removing a server moves no other key.**  On every ring that a sequence
of calls can build, where `int` has 64 bits or the points of the servers that are
added are below `2^31`, and for every server `S` of it, each key that `Lookup` gave to
another server stays there when `S` goes, if and only if each point of `S` that
another server owns is followed, past the points of `S`, by a point of that server,
or there is no third server. -/
theorem removeServer_keeps_lookup_iff (W : IntWidth) (fp hash : String → UInt32) (R : ℤ)
    (calls : List (MapOrder × RingOp)) (hfit : PointsFit W hash R (RingOp.addedBy calls)) :
    ∃ (r : HashRing) (T : Tree),
      RingOp.run ⟨W.bits, fp⟩ (.new W.bits hash R) calls = .ok r ∧
      Represents W.bits r.tree T ∧ ∀ S ∈ r.serverSet, ∀ o o₁ o₂ : MapOrder,
        ∃ r', r.removeServer ⟨W.bits, fp⟩ o S = .ok (true, r') ∧
          ((∀ key t, r.lookup o₁ key = .ok (t, true) → t ≠ S →
            r'.lookup o₂ key = .ok (t, true)) ↔
          ∀ p ∈ r.points S, ∀ t, r.tree.search p = .ok (t, true) → t ≠ S →
            Ownership.Covers r.serverSet (r.points S) T.bindings S t p) := by
  obtain ⟨r, A, -, hrun, h, hA, -⟩ := exists_owns fp hfit calls subset_rfl
  obtain ⟨T, hT, hm⟩ := h.tree
  have hL : Lists A.owner T.bindings := ⟨hT.ordered, hm⟩
  refine ⟨r, T, hrun, hT, fun S hS o o₁ o₂ => ?_⟩
  rw [h.servers] at hS
  obtain ⟨r', hcall, h'⟩ := h.removeServer o S
  obtain ⟨L', hL', -, -⟩ := h'.tree.lookupNUniqueAt
  refine ⟨r', by rw [hcall, decide_eq_true hS], ?_⟩
  have hkeep := hA.first_remove_keeps_iff hS hL hL'
  simpa only [h.lookup hL, h'.lookup hL', h.tree.search, IntMap.search, h.servers, h.points_eq,
    Except.ok.injEq, answer_eq_true] using hkeep

/-- Three servers without a common point: the key of `c` stays when `a` goes. -/
theorem removeServer_keeps_lookup_three :
    ∃ r r', RingOp.run (.bits64 fun _ => 0)
        (.new 64 (fun s => if s = "a0" then 1 else if s = "b0" then 2 else 3) 1)
        [(.sorted, .addRemoveServers ["a", "b", "c"] [])] = .ok r ∧
      "a" ∈ r.serverSet ∧ r.lookup .sorted "k" = .ok ("c", true) ∧
      r.removeServer (.bits64 fun _ => 0) .sorted "a" = .ok (true, r') ∧
      r'.lookup .sorted "k" = .ok ("c", true) := by
  have heval : (do
      let r ← RingOp.run (.bits64 fun _ => 0)
        (.new 64 (fun s => if s = "a0" then 1 else if s = "b0" then 2 else 3) 1)
        [(.sorted, .addRemoveServers ["a", "b", "c"] [])]
      let res ← r.lookup .sorted "k"
      let owner ← r.tree.search 1
      return (decide ("a" ∈ r.serverSet), r.points "a", res, owner)) =
        .ok (true, [1], ("c", true), ("a", true)) := by
    decide +kernel
  obtain ⟨r, hrun, heval⟩ := exists_of_bind_eq_ok heval
  obtain ⟨res, hlook, heval⟩ := exists_of_bind_eq_ok heval
  obtain ⟨owner, hsearch, heval⟩ := exists_of_bind_eq_ok heval
  simp only [pure, Except.pure, Except.ok.injEq, Prod.mk.injEq, decide_eq_true_eq] at heval
  obtain ⟨hmem, hpoints, rfl, rfl⟩ := heval
  obtain ⟨r₀, T, hrun₀, -, hkeep⟩ := removeServer_keeps_lookup_iff .bits64 (fun _ => 0)
    (fun s => if s = "a0" then 1 else if s = "b0" then 2 else 3) 1
    [(.sorted, .addRemoveServers ["a", "b", "c"] [])] (.inl rfl)
  obtain rfl : r₀ = r := Except.ok.inj (hrun₀.symm.trans hrun)
  obtain ⟨r', hcall, hiff⟩ := hkeep "a" hmem .sorted .sorted .sorted
  refine ⟨r₀, r', hrun, hmem, hlook, hcall, hiff.2 ?_ "k" "c" hlook (by decide)⟩
  -- the only point of the server that goes is its own
  intro p hp t ht hta
  rw [hpoints, List.mem_singleton] at hp
  rw [hp, hsearch] at ht
  exact absurd (congrArg Prod.fst (Except.ok.inj ht)).symm hta

/-- **Removing a server may move the key of another.**  The points of `s` and `t`
are one point, which `t` owns; it goes with `s`, and the key of `t` with it. -/
theorem removeServer_moves_other_key :
    ∃ r r', RingOp.run (.bits64 fun _ => 0) (.new 64 (fun s => if s = "u0" then 9 else 5) 1)
        [(.sorted, .addServer "t"), (.sorted, .addServer "s"), (.sorted, .addServer "u")] = .ok r ∧
      "s" ∈ r.serverSet ∧ r.lookup .sorted "k" = .ok ("t", true) ∧
      r.removeServer (.bits64 fun _ => 0) .sorted "s" = .ok (true, r') ∧
      r'.lookup .sorted "k" = .ok ("u", true) := by
  have heval : (do
      let r ← RingOp.run (.bits64 fun _ => 0) (.new 64 (fun s => if s = "u0" then 9 else 5) 1)
        [(.sorted, .addServer "t"), (.sorted, .addServer "s"), (.sorted, .addServer "u")]
      let res ← r.lookup .sorted "k"
      let removed ← r.removeServer (.bits64 fun _ => 0) .sorted "s"
      let res' ← removed.2.lookup .sorted "k"
      return (decide ("s" ∈ r.serverSet), res, removed.1, res')) =
        .ok (true, ("t", true), true, ("u", true)) := by
    decide +kernel
  obtain ⟨r, hrun, heval⟩ := exists_of_bind_eq_ok heval
  obtain ⟨res, hlook, heval⟩ := exists_of_bind_eq_ok heval
  obtain ⟨⟨ok, r'⟩, hcall, heval⟩ := exists_of_bind_eq_ok heval
  obtain ⟨res', hlook', heval⟩ := exists_of_bind_eq_ok heval
  simp only [pure, Except.pure, Except.ok.injEq, Prod.mk.injEq, decide_eq_true_eq] at heval
  obtain ⟨hmem, rfl, rfl, rfl⟩ := heval
  exact ⟨r, r', hrun, hmem, hlook, hcall, hlook'⟩

/-- **Adding a server only attracts keys.**  On every ring that a sequence of
calls can build, where `int` has 64 bits or the points of `S` and of the servers that are
added are below `2^31`, after `AddServer(S)` a key is where it was or with `S`. -/
theorem addServer_attracts (W : IntWidth) (fp hash : String → UInt32) (R : ℤ) (hR : 1 ≤ R)
    (calls : List (MapOrder × RingOp)) (S : String)
    (hfit : PointsFit W hash R (insert S (RingOp.addedBy calls))) :
    ∃ r, RingOp.run ⟨W.bits, fp⟩ (.new W.bits hash R) calls = .ok r ∧
      ∀ (key : String) (o o₁ o₂ : MapOrder), ∃ ok r' res res',
        r.addServer ⟨W.bits, fp⟩ o S = .ok (ok, r') ∧ r.lookup o₁ key = .ok res ∧
        r'.lookup o₂ key = .ok res' ∧ (res' = res ∨ res' = (S, true)) := by
  obtain ⟨r, A, L, hrun, h, hA, hL⟩ := exists_owns fp hfit calls (Finset.subset_insert ..)
  refine ⟨r, hrun, fun key o o₁ o₂ => ?_⟩
  obtain ⟨r', hcall, h'⟩ := h.addServer o (s := S) (Finset.mem_insert_self ..)
  obtain ⟨L', hL', -, -⟩ := h'.tree.lookupNUniqueAt
  refine ⟨_, r', _, _, hcall, h.lookup hL o₁ key, h'.lookup hL' o₂ key, ?_⟩
  by_cases hS : S ∈ A.servers
  · rw [Ownership.add_of_mem hS] at hL' ⊢
    rw [hL.unique hL']
    exact .inl rfl
  · have hpoints : ringPoints (fun s => intOfUInt32 W.bits (hash s)) R S ≠ [] := by
      have hrange : R.toNat ≠ 0 := by omega
      simpa [ringPoints] using hrange
    rcases hA.first_add hS hpoints hL hL' with hsame | hmoved
    · exact .inl (congrArg answer hsame)
    · exact .inr (congrArg answer hmoved)

/-- A server that joins one whose only point it shares, with an `int` of 32 bits. -/
theorem addServer_attracts_collision :
    (1 : ℤ) ≤ 1 ∧ PointsFit .bits32 (fun _ => 5) 1 {"b", "a"} ∧
    ∃ r, RingOp.run ⟨32, fun _ => 0⟩ (.new 32 (fun _ => 5) 1)
        [(.sorted, .addServer "a")] = .ok r ∧
      ∃ ok r' res res', r.addServer ⟨32, fun _ => 0⟩ .sorted "b" = .ok (ok, r') ∧
        r.lookup .sorted "k" = .ok res ∧ r'.lookup .sorted "k" = .ok res' ∧
        (res' = res ∨ res' = ("b", true)) := by
  obtain ⟨r, hrun, hadd⟩ := addServer_attracts .bits32 (fun _ => 0) (fun _ => 5) 1 le_rfl
    [(.sorted, .addServer "a")] "b" (by decide +kernel)
  exact ⟨le_rfl, by decide +kernel, r, hrun, hadd "k" .sorted .sorted .sorted⟩

/-- **With 32 bits** a key may be lost.  One server is found without a look at the tree; when
another one is added, the walk from the key comes by neither point, as both are negative. -/
theorem addServer_loses_key :
    ∃ r r', RingOp.run ⟨32, fun _ => 0⟩ (.new 32 highPoints 1)
        [(.sorted, .addServer "a")] = .ok r ∧
      r.lookup .sorted "k" = .ok ("a", true) ∧
      r.addServer ⟨32, fun _ => 0⟩ .sorted "b" = .ok (true, r') ∧
      r'.lookup .sorted "k" = .ok ("", false) := by
  have heval : (do
      let r ← RingOp.run ⟨32, fun _ => 0⟩ (.new 32 highPoints 1) [(.sorted, .addServer "a")]
      let res ← r.lookup .sorted "k"
      let added ← r.addServer ⟨32, fun _ => 0⟩ .sorted "b"
      let res' ← added.2.lookup .sorted "k"
      return (res, added.1, res')) = .ok (("a", true), true, ("", false)) := by
    decide +kernel
  obtain ⟨r, hrun, heval⟩ := exists_of_bind_eq_ok heval
  obtain ⟨res, hlook, heval⟩ := exists_of_bind_eq_ok heval
  obtain ⟨⟨ok, r'⟩, hcall, heval⟩ := exists_of_bind_eq_ok heval
  obtain ⟨res', hlook', heval⟩ := exists_of_bind_eq_ok heval
  simp only [pure, Except.pure, Except.ok.injEq, Prod.mk.injEq] at heval
  obtain ⟨rfl, rfl, rfl⟩ := heval
  exact ⟨r, r', hrun, hlook, hcall, hlook'⟩

end Hashring
end Ringpop
