/-
# Quorums that meet

A request for a key that succeeds has been answered by a quorum of the key's replicas.  What
quorums are for is that two of them meet: that a server which has answered a write also
answers the next read.  The nodes that make the two requests may have different rings, and so
different replicas for the key, but not more different than their servers are
(`Ringpop.Hashring.ReplicaSets`).  `quorums_meet` says how much larger the quorums have to be
for that, where `int` has 64 bits or the points of the servers are below `2^31`.
-/

import Ringpop.Hashring.ReplicaSets
import Ringpop.Replica.Quorum

namespace Ringpop
namespace Replica

open CellStore Hashring
open Forward (Bytes)

/-- A `Read` or `Write` for one key. -/
structure KeyRequest where
  rw : Operation
  defaults : Option Options
  opts : Option Options
  request : Bytes
  operation : String
  fopts : Option Forward.Options

namespace KeyRequest

/-- The options of the request, with the defaults. -/
def options (q : KeyRequest) : Options :=
  mergeDefaultOptions q.opts (newReplicator q.defaults).defaults

/-- The answers that the request asks for. -/
def quorum (q : KeyRequest) : ℤ := q.options.rwValue q.rw

/-- The call of the replicator. -/
def send (q : KeyRequest) (env : Surroundings) (orders : Orders) (key : String) :
    Except Fault Result :=
  (newReplicator q.defaults).call q.rw env orders [key] q.request q.operation q.fopts q.opts

/-- The request returns without an error on a node with the ring `r`, and without rerouting
retries. -/
structure Succeeds (q : KeyRequest) (r : HashRing) (env : Surroundings) (orders : Orders)
    (key : String) (res : Result) : Prop where
  lookup : ∃ o, r.lookupN o key q.options.nValue = .ok (env.lookupN 0 key q.options.nValue).1
  stays : ∀ f ∈ q.fopts, f.rerouteRetries = false
  send : q.send env orders key = .ok res
  err : res.err = none

variable {q : KeyRequest} {r : HashRing} {env : Surroundings} {orders : Orders} {key : String}
  {res : Result}

theorem Succeeds.readWrite (h : q.Succeeds r env orders key res) :
    readWrite env orders q.rw [key] q.request q.operation q.fopts q.options = .ok res := h.send

theorem keeps_of_stays (hstays : ∀ f ∈ q.fopts, f.rerouteRetries = false) (copts : CallOptions) :
    copts.Keeps env q.fopts := by
  rintro dest - ⟨hreroute, -⟩
  have hfalse : (copts.requestTo env q.fopts dest).rerouteRetries = false := by
    rw [CallOptions.requestTo, Forward.Request.of]
    cases hf : q.fopts with
    | none => rfl
    | some f => exact hstays f hf
  rw [hfalse] at hreroute
  cases hreroute

/-- **The servers of a quorum** are enough, and replicas of the key. -/
theorem Succeeds.servers (h : q.Succeeds r env orders key res)
    (hnodup : (env.lookupN 0 key q.options.nValue).1.Nodup) :
    res.servers.toFinset ⊆ (env.lookupN 0 key q.options.nValue).1.toFinset ∧
      q.quorum ≤ res.servers.toFinset.card := by
  have hmode : q.options.fanoutMode.Known :=
    known_mergeDefaultOptions (known_mergeDefaultOptions fun m hm => by cases hm)
  obtain ⟨hfanout, hresponses, hlen⟩ := exists_of_readWrite h.readWrite h.err
  have hall := fanout_spec hmode hfanout
  have hdests := callOptions_dests_single env orders key q.request q.operation q.options
  have hservers := servers_eq ((keeps_iff hall).1 (keeps_of_stays h.stays _))
  refine ⟨fun s hs => ?_, ?_⟩
  · rw [List.mem_toFinset, hservers, List.mem_filterMap] at hs
    obtain ⟨f, hf, hs⟩ := hs
    obtain ⟨response, hr, rfl⟩ := Option.map_eq_some_iff.1 hs
    obtain ⟨dest, hdest, hforward⟩ := (mem_forwards_iff hall).1 hf
    rw [hdests] at hdest
    rw [destination_of_forward hforward (toOption_eq_some_iff.1 hr)]
    exact List.mem_toFinset.2 hdest
  · have hdistinct : res.servers.Nodup := by
      rw [hservers]
      exact nodup_destinations hall (hdests.symm ▸ hnodup)
    rw [List.toFinset_card_of_nodup hdistinct, hservers, ← List.map_filterMap, ← hresponses,
      List.length_map]
    exact hlen

/-- No more answers are asked for than replicas. -/
theorem Succeeds.quorum_le (h : q.Succeeds r env orders key res) :
    q.quorum ≤ q.options.nValue := by
  by_contra hlt
  have hcall := h.readWrite
  have herr := h.err
  have hgt : q.options.rwValue q.rw > q.options.nValue := not_le.1 hlt
  rw [Replica.readWrite, if_pos hgt] at hcall
  rw [← Except.ok.inj hcall] at herr
  cases herr

end KeyRequest

/-- How large two different choices are together. -/
theorem card_union_le_add {S T V W : Finset String} {n : ℕ} (hn : V.card ≤ n) (hV : V ⊆ S)
    (hW : W ⊆ T) (h : ((W ∩ S) \ V).card ≤ (V \ T).card) :
    (V ∪ W).card ≤ n + (S \ T).card + (T \ S).card := by
  have hsplit : V ∪ W ⊆ V ∪ ((W ∩ S) \ V) ∪ (T \ S) := by
    intro s hs
    by_cases hsV : s ∈ V
    · exact Finset.mem_union_left _ (Finset.mem_union_left _ hsV)
    have hsW := (Finset.mem_union.1 hs).resolve_left hsV
    by_cases hsS : s ∈ S
    · exact Finset.mem_union_left _ (Finset.mem_union_right _
        (Finset.mem_sdiff.2 ⟨Finset.mem_inter.2 ⟨hsW, hsS⟩, hsV⟩))
    · exact Finset.mem_union_right _ (Finset.mem_sdiff.2 ⟨hW hsW, hsS⟩)
  have hcard := (Finset.card_le_card hsplit).trans (Finset.card_union_le _ _)
  have hunion := Finset.card_union_le V ((W ∩ S) \ V)
  have hold := Finset.card_le_card (Finset.sdiff_subset_sdiff hV (Finset.Subset.refl T))
  omega

/-- **Quorums meet.**  Two nodes have rings that any calls have built over servers whose replica
points are all different (and below `2^31` if `int` has 32 bits), and each makes a request for
the same key to `n` replicas.  If both requests return without an error, and the answers they
asked for are more than `n` and the number of servers that only one of the rings has, then some
server has answered both. -/
theorem quorums_meet (W : IntWidth) (fp hash : String → UInt32) (R : ℤ) (hR : 1 ≤ R)
    (calls calls' : List (MapOrder × RingOp)) (r r' : HashRing)
    (hfit : PointsFit W hash R (RingOp.addedBy calls ∪ RingOp.addedBy calls'))
    (hdistinct : DistinctPoints hash R (RingOp.addedBy calls ∪ RingOp.addedBy calls'))
    (hrun : RingOp.run ⟨W.bits, fp⟩ (.new W.bits hash R) calls = .ok r)
    (hrun' : RingOp.run ⟨W.bits, fp⟩ (.new W.bits hash R) calls' = .ok r') (key : String)
    (q q' : KeyRequest) (env env' : Surroundings) (orders orders' : Orders) (res res' : Result)
    (h : q.Succeeds r env orders key res) (h' : q'.Succeeds r' env' orders' key res')
    (hn : q'.options.nValue = q.options.nValue)
    (hquorum : q.options.nValue + (r.serverSet \ r'.serverSet).card +
      (r'.serverSet \ r.serverSet).card < q.quorum + q'.quorum) :
    ∃ server, server ∈ res.servers ∧ server ∈ res'.servers := by
  obtain ⟨o, hl⟩ := h.lookup
  obtain ⟨o', hl'⟩ := h'.lookup
  rw [hn] at hl'
  obtain ⟨hnodup, hlen, hsub, -⟩ := card_displaced_of_lookupN hR hfit hdistinct hrun hrun' hl hl'
  rw [Finset.union_comm] at hfit hdistinct
  obtain ⟨hnodup', -, hsub', hle⟩ :=
    card_displaced_of_lookupN hR hfit hdistinct hrun' hrun hl' hl
  obtain ⟨hservers, hcard⟩ := h.servers hnodup
  obtain ⟨hservers', hcard'⟩ := h'.servers (hn.symm ▸ hnodup')
  rw [hn] at hservers'
  rw [← List.toFinset_card_of_nodup hnodup] at hlen
  have hunion := card_union_le_add hlen hsub hsub' hle
  have hquorum_le := h.quorum_le
  have hquorum_le' := h'.quorum_le
  obtain ⟨server, hserver⟩ := Finset.inter_nonempty_of_card_lt_card_add_card
    (hservers.trans Finset.subset_union_left) (hservers'.trans Finset.subset_union_right)
    (by omega)
  rw [Finset.mem_inter, List.mem_toFinset, List.mem_toFinset] at hserver
  exact ⟨server, hserver⟩

/-- Every server answers, and these are the replicas. -/
def allAnswer (replicas : List String) : Surroundings where
  lookupN _ _ _ := (replicas, none)
  forward dest :=
    { call := fun _ _ => .answered [1] false
      lookup := fun _ _ _ => .ok dest
      unmarshal := fun _ => .error "" }
  serviceName := "service"

/-- A ring with three servers, which are the replicas of the key, with an `int` of 32 bits. -/
theorem exists_ring (calls : List (MapOrder × RingOp)) (replicas : List String)
    (h : (RingOp.run ⟨32, fun _ => 0⟩ (.new 32 fourPoints 1) calls).map (fun r =>
      decide (r.serverSet = replicas.toFinset ∧
        r.lookupN (.startingWith replicas) "k" 3 = .ok replicas)) = .ok true) :
    ∃ r, RingOp.run ⟨32, fun _ => 0⟩ (.new 32 fourPoints 1) calls = .ok r ∧
      r.serverSet = replicas.toFinset ∧
      r.lookupN (.startingWith replicas) "k" 3 = .ok replicas := by
  cases hrun : RingOp.run ⟨32, fun _ => 0⟩ (.new 32 fourPoints 1) calls with
  | error fault =>
    rw [hrun] at h
    cases h
  | ok r =>
    rw [hrun] at h
    exact ⟨r, rfl, of_decide_eq_true (Except.ok.inj h)⟩

/-- A write on a ring with `a`, `b` and `c`, and one on a ring with `d` in the place of `a`:
three answers each, of three replicas. -/
theorem quorums_meet_four : ∃ r r' res res',
    (⟨.write, none, none, [0], "op", none⟩ : KeyRequest).Succeeds r (allAnswer ["a", "b", "c"])
      ⟨.asIs, .asIs, .inOrder⟩ "k" res ∧
    (⟨.write, none, none, [1], "op", none⟩ : KeyRequest).Succeeds r' (allAnswer ["b", "c", "d"])
      ⟨.asIs, .asIs, .inOrder⟩ "k" res' ∧
    r.serverSet = ["a", "b", "c"].toFinset ∧ r'.serverSet = ["b", "c", "d"].toFinset ∧
    ∃ server, server ∈ res.servers ∧ server ∈ res'.servers := by
  obtain ⟨r, hrun, hset, hlookup⟩ := exists_ring
    [(.sorted, .addRemoveServers ["a", "b", "c"] [])] ["a", "b", "c"] (by decide +kernel)
  obtain ⟨r', hrun', hset', hlookup'⟩ := exists_ring
    [(.sorted, .addRemoveServers ["b", "c", "d"] [])] ["b", "c", "d"] (by decide +kernel)
  have h : (⟨.write, none, none, [0], "op", none⟩ : KeyRequest).Succeeds r
      (allAnswer ["a", "b", "c"]) ⟨.asIs, .asIs, .inOrder⟩ "k" _ :=
    ⟨⟨_, hlookup⟩, (fun f hf => by cases hf), rfl, rfl⟩
  have h' : (⟨.write, none, none, [1], "op", none⟩ : KeyRequest).Succeeds r'
      (allAnswer ["b", "c", "d"]) ⟨.asIs, .asIs, .inOrder⟩ "k" _ :=
    ⟨⟨_, hlookup'⟩, (fun f hf => by cases hf), rfl, rfl⟩
  refine ⟨r, r', _, _, h, h', hset, hset', quorums_meet .bits32 (fun _ => 0) fourPoints 1 le_rfl
    _ _ r r' (by decide +kernel) (by decide +kernel) hrun hrun' "k" _ _ _ _ _ _ _ _ h h' rfl ?_⟩
  rw [hset, hset']
  decide

end Replica
end Ringpop
