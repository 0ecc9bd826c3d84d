/-
# Requests reach the owner of their key

Put together: the member lists of nodes that gossip come to be the same
(`Ringpop.Swim.Agreement`), each ring follows the member list of its node
(`Ringpop.Facade.ClusterRing`), rings with the same servers give the same answers, unless
replica points collide (`Ringpop.Hashring.RingChange`), and a request is sent again only
after its key was looked up again (`Ringpop.Forward.Attempts`).

So from some time on a key has one owner, which is alive, for all of the nodes: the owner
handles the requests for the key, and every other node forwards them to the owner and to
nobody else, however often it has to try (`requests_reach_owner`).  In particular no
request is forwarded twice.

A suspect is on the rings of those who knew it before and not on the others, so this needs
that suspicions about nodes outside of the set end.
-/

import Ringpop.Facade.Api
import Ringpop.Swim.Agreement

namespace Ringpop

/-! ### A request whose key stays where it is -/

namespace Forward

variable {env : Surroundings} {q : Request} {k : ℕ} {x dest key : String}
  {calls : List (String × Reply)} {events : List Forward.Event}
  {e : Except CellStore.Fault (Except String Bytes)}

/-- One key belongs to the server that is looked up. -/
theorem Surroundings.resolve_singleton {retry : ℕ}
    (h : ∀ i, env.lookup retry i key = .ok dest) : env.resolve retry [key] = some dest := by
  rw [resolve_eq_some, lookupKeys]
  simp [h, Except.toOption]

/-- **A request whose keys stay with `dest`** is sent to nobody else. -/
theorem Trace.eq_of_mem (h : Trace env q k x calls events e) (hx : x = dest)
    (hkeys : ∀ retry, env.resolve retry q.keys = some dest) : ∀ call ∈ calls, call.1 = dest := by
  induction h with
  | retry h hk hlen hdest hrest ih =>
    subst hx
    obtain rfl := Option.some.inj ((hkeys _).symm.trans hdest)
    intro call hcall
    rcases List.mem_cons.1 hcall with rfl | hcall
    · rfl
    · exact ih (by split_ifs <;> rfl) call hcall
  | _ =>
    intro call hcall
    rw [List.mem_singleton.1 hcall]
    exact hx

end Forward

namespace Facade

open CellStore Runs Hashring Swim Forward

/-! ### Rings of nodes that agree -/

variable {pr : Primitives} {s : Cluster} {S U : Finset String} {sched : ℕ → Swim.Action}
  {x y key : String} {c : RingConfig} {rp : RingpopInstance}

theorem Mirrored.follow (h : Mirrored s) (hinv : s.Inv pr) (sched : ℕ → Swim.Action) (n : ℕ) :
    Mirrored (s.follow pr sched n) ∧ (s.follow pr sched n).Inv pr := by
  induction n with
  | zero => exact ⟨h, hinv⟩
  | succ n ih => exact ⟨ih.1.step ih.2 _, ih.2.step _⟩

/-- Without suspects, the servers are the members that are alive. -/
theorem Mirrored.mem_servers_iff (h : Mirrored s) (hinv : s.Inv pr)
    (hsettled : ∀ y member, (s.node x).memberlist.entry y = some member →
      member.status ≠ suspect) :
    y ∈ servers (s.node x) ↔
      ∃ member, (s.node x).memberlist.entry y = some member ∧ member.status = alive := by
  constructor
  · intro hy
    obtain ⟨member, hmember, hreachable⟩ := h.reachable_of_mem hinv hy
    rw [Member.isReachable, Bool.or_eq_true, decide_eq_true_eq, decide_eq_true_eq] at hreachable
    exact ⟨member, hmember, hreachable.resolve_right (hsettled y member hmember)⟩
  · rintro ⟨member, hmember, hstatus⟩
    exact h.mem_of_alive hmember hstatus

/-- The points of the ring of an instance. -/
abbrev RingConfig.points (c : RingConfig) : String → List ℤ :=
  ringPoints (fun s => intOfUInt32 64 (c.fingerprint32 s)) c.replicaPoints

/-- **Servers that share no point** own their points. -/
theorem Mirrored.exact_owners (h : Mirrored s) (hinv : s.Inv pr)
    (hgenerated : ∀ p ∈ s.generated, p.1 ∈ U) (hU : Ownership.NoSharedPoint c.points U)
    (x : String) : (c.owners (s.node x)).Exact c.points := by
  refine ((Ownership.exact_empty c.points).run hU (Finset.empty_subset U) _ ?_).1
  intro op hop z hz
  obtain ⟨batch, hbatch, rfl⟩ := List.mem_map.1 hop
  obtain ⟨change, hchange, rfl⟩ : ∃ change ∈ batch, change.address = z := by
    change z ∈ (serversToChange batch).1 at hz
    rw [serversToChange_eq] at hz
    obtain ⟨change, hchange, hz⟩ := List.mem_map.1 hz
    exact ⟨change, (List.mem_filter.1 hchange).1, hz⟩
  obtain ⟨member, hmember⟩ := Option.isSome_iff_exists.1 (h.known x batch hbatch change hchange)
  have hauthentic := (hinv.node x).entry _ member hmember
  have haddress : member.address = change.address :=
    (hinv.node x).believes.sound.memberlist.address_eq hmember
  rw [← haddress]
  exact hgenerated _ hauthentic.generated

/-- **The owner of a key**, once the ring has a server. -/
theorem exists_owner {A : Ownership} {L : List (ℤ × String)} (hA : A.Exact c.points)
    (hL : Clockwise.Lists A.owner L) (hR : 1 ≤ c.replicaPoints) (hne : A.servers.Nonempty)
    (h : ℤ) : ∃ owner ∈ A.servers, A.first L h = some owner := by
  by_cases hcard : 1 < A.servers.card
  · have hwalk := hA.clockwise_toFinset hL hR h
    rw [Ownership.first, if_pos hcard]
    cases hclock : Clockwise.clockwise L h with
    | nil =>
      rw [hclock] at hwalk
      exact absurd hwalk.symm hne.ne_empty
    | cons owner rest =>
      refine ⟨owner, ?_, rfl⟩
      rw [← hwalk, hclock]
      exact List.mem_toFinset.2 (.head _)
  · obtain ⟨owner, howner⟩ := hne
    exact ⟨owner, howner, (Ownership.first_of_card_le (by omega) owner).2 howner⟩

/-! ### Instances -/

/-- The instance is bootstrapped, and this is its node. -/
def RingpopInstance.RunsNode (rp : RingpopInstance) (n : Node) : Prop :=
  rp.state = .ready ∧ ∃ gossipNode, rp.node = some gossipNode ∧ gossipNode.toNode = n

theorem RingpopInstance.RunsNode.ready {n : Node} (h : rp.RunsNode n) (hn : n.ready = true) :
    rp.ready = .ok true := by
  obtain ⟨hstate, gossipNode, hnode, rfl⟩ := h
  rw [RingpopInstance.ready, hstate, hnode]
  exact congrArg Except.ok hn

/-- **The owner handles** the requests for its keys. -/
theorem handleOrForward_of_owner {o : MapOrder} (hready : rp.ready = .ok true)
    (hlookup : rp.lookup c o key = .ok (.ok x)) (env : Surroundings) (request : Bytes)
    (service endpoint : String) (format : Format) (opts : Option Options) :
    rp.handleOrForward c (.ok x) o env key request service endpoint format opts =
      .ok ⟨true, none, none, none⟩ := by
  rw [RingpopInstance.handleOrForward, hready, hlookup, RingpopInstance.whoAmI,
    RingpopInstance.gated_of_ready hready]
  simp [Bind.bind, Except.bind, pure, Except.pure]

/-- **The others forward** to the owner, and to nobody else. -/
theorem handleOrForward_of_ne {o : MapOrder} {owner : String} (hready : rp.ready = .ok true)
    (hlookup : rp.lookup c o key = .ok (.ok owner)) (hne : x ≠ owner) {env : Surroundings}
    (henv : ∀ retry i, env.lookup retry i key = .ok owner) {request : Bytes}
    {service endpoint : String} {format : Format} {opts : Option Options} {h : Handling}
    (hcall : rp.handleOrForward c (.ok x) o env key request service endpoint format opts =
      .ok h) :
    h.handle = false ∧ ∃ sender, h.sender = some sender ∧ sender.calls ≠ [] ∧
      ∀ call ∈ sender.calls, call.1 = owner := by
  rw [RingpopInstance.handleOrForward, hready, hlookup, RingpopInstance.whoAmI,
    RingpopInstance.gated_of_ready hready] at hcall
  simp only [Bind.bind, Except.bind, pure, Except.pure, if_neg hne.symm, Bool.true_eq_false,
    if_false] at hcall
  obtain ⟨calls, events, e, htrace, hforward⟩ :=
    forwardRequest_trace env request owner service endpoint [key] format opts
  cases hres : forwardRequest env request owner service endpoint [key] format opts with
  | error fault =>
    rw [hres] at hcall
    cases hcall
  | ok res =>
    rw [hres] at hcall hforward
    have hcalls : res.2.calls = calls := by
      cases e with
      | error fault => cases hforward
      | ok r => exact congrArg (·.2.1) (Except.ok.inj hforward)
    have hkeys (retry : ℕ) : env.resolve retry
        (Request.of request service endpoint [key] format opts).keys = some owner :=
      Surroundings.resolve_singleton (henv retry)
    have hall : ∀ call ∈ res.2.calls, call.1 = owner := by
      rw [hcalls]
      exact htrace.eq_of_mem rfl hkeys
    have hnil : res.2.calls ≠ [] := by
      rw [hcalls]
      exact htrace.calls_ne_nil
    rcases res with ⟨result | result, sender⟩
    · obtain rfl := Except.ok.inj hcall
      exact ⟨rfl, sender, rfl, hnil, hall⟩
    · obtain rfl := Except.ok.inj hcall
      exact ⟨rfl, sender, rfl, hnil, hall⟩

/-- **`Lookup`** returns the owner. -/
theorem RingpopInstance.RunsNode.lookup {n : Node} {A : Ownership} {L : List (ℤ × String)}
    {owner : String} (h : rp.RunsNode n) (hn : n.ready = true) (hA : c.owners n = A)
    (hL : Clockwise.Lists A.owner L)
    (howner : A.first L (intOfUInt32 64 (c.fingerprint32 key)) = some owner) (o : MapOrder) :
    rp.lookup c o key = .ok (.ok owner) := by
  have hready := h.ready hn
  obtain ⟨-, gossipNode, hnode, rfl⟩ := h
  subst hA
  rw [lookup_of_ready hready hnode hL, howner]

/-! ### The set settles -/

/-- From `N` on, the nodes of the set hold the same members, nobody is suspected, and all of
the set are alive. -/
structure Settled (pr : Primitives) (s : Cluster) (sched : ℕ → Swim.Action) (S : Finset String)
    (N : ℕ) : Prop where
  ready : ∀ n x, x ∈ S → ((s.follow pr sched n).node x).ready = true
  same : ∀ n, N ≤ n → ∀ x ∈ S, ∀ y ∈ S, ((s.follow pr sched n).node x).memberlist.entry =
    ((s.follow pr sched N).node y).memberlist.entry
  settled : ∀ n, N ≤ n → ∀ x ∈ S, ∀ y member,
    ((s.follow pr sched n).node x).memberlist.entry y = some member → member.status ≠ suspect
  own : ∀ n, ∀ x ∈ S, ∃ member, ((s.follow pr sched n).node x).memberlist.entry x = some member ∧
    member.status = alive

section settled

variable (hinv : s.Inv pr) (hready : ∀ x ∈ S, (s.node x).ready = true)
  (hcalm : ∀ x ∈ S, ∀ y ∈ S, ∀ member, (s.node x).memberlist.entry y = some member →
    member.status = alive)
  (hsched : ∀ n, (s.follow pr sched n).Gossips S s.network.length (sched n))

include hinv hready hcalm hsched

/-- What the nodes of the set hold of each other is that they are alive, for ever. -/
theorem alive_of_gossips (n : ℕ) : (∀ x ∈ S, ((s.follow pr sched n).node x).ready = true) ∧
    ∀ x ∈ S, ∀ y ∈ S, ∀ member,
      ((s.follow pr sched n).node x).memberlist.entry y = some member →
        member.status = alive := by
  have hheld : ∀ member, s.Held S member → member.status = alive := by
    rintro member ⟨hS, z, hz, hmember⟩
    exact hcalm z hz member.address hS member hmember
  have hfollow := (hinv.calm hready).follow (fun member h => .inl (hheld member h)) hsched n
  exact ⟨hfollow.ready, fun x hx y hy member hmember =>
    hheld member (hfollow.entry x hx y hy member hmember)⟩

/-- **The set settles.** -/
theorem exists_settled
    (hfair : ∀ x ∈ S, ∀ y ∈ S, x ≠ y → ∀ n, s.Pings pr sched x y n)
    (hsum : ∀ n, ∀ x ∈ S, ∀ y ∈ S,
      ((s.follow pr sched n).node x).memberlist.checksum =
        ((s.follow pr sched n).node y).memberlist.checksum →
      ((s.follow pr sched n).node x).memberlist.entry =
        ((s.follow pr sched n).node y).memberlist.entry)
    (hsettled : ∀ n, ∃ n', n ≤ n' ∧ ∀ x ∈ S, ∀ y ∉ S, ∀ member,
      ((s.follow pr sched n').node x).memberlist.entry y = some member →
        member.status ≠ suspect) :
    ∃ N, Settled pr s sched S N := by
  have halive := alive_of_gossips hinv hready hcalm hsched
  obtain ⟨N, hsame⟩ := hinv.exists_agreement hready
    (fun x hx y hy member hmember => .inl (hcalm x hx y hy member hmember)) hsched hfair hsum
  refine ⟨N, fun n => (halive n).1, hsame, fun n hn x hx y member hmember => ?_,
    fun n x hx => ?_⟩
  · by_cases hy : y ∈ S
    · rw [(halive n).2 x hx y hy member hmember]
      decide
    · obtain ⟨n', hn', hnone⟩ := hsettled N
      rw [hsame n hn x hx x hx, ← hsame n' hn' x hx x hx] at hmember
      exact hnone x hx y hy member hmember
  · have hinv' : (s.follow pr sched n).Inv pr := by
      induction n with
      | zero => exact hinv
      | succ n ih => exact ih.step _
    obtain ⟨own, hown, -⟩ := ((hinv'.node x).ready ((halive n).1 x hx)).own
    rw [(hinv'.node x).address] at hown
    exact ⟨own, hown, (halive n).2 x hx x hx own hown⟩

end settled

/-- **One owner for all.**  On the rings of a set that has settled, every key has one owner. -/
theorem Settled.exists_owner {N : ℕ} (h : Settled pr s sched S N) (hmirrored : Mirrored s)
    (hinv : s.Inv pr) (hR : 1 ≤ c.replicaPoints) (hgenerated : ∀ n, ∀ p ∈
      (s.follow pr sched n).generated, p.1 ∈ U)
    (hU : Ownership.NoSharedPoint c.points U) (hS : S.Nonempty) (key : String) :
    ∃ A L owner, Clockwise.Lists A.owner L ∧
      A.first L (intOfUInt32 64 (c.fingerprint32 key)) = some owner ∧
      ∀ n, N ≤ n → ∀ x ∈ S, c.owners ((s.follow pr sched n).node x) = A ∧
        ∃ member, ((s.follow pr sched n).node x).memberlist.entry owner = some member ∧
          member.status = alive := by
  obtain ⟨z, hz⟩ := hS
  have hall (n : ℕ) := hmirrored.follow hinv sched n
  have hexact (n : ℕ) (x : String) := (hall n).1.exact_owners (hall n).2 (hgenerated n) hU x
  have hmem (n : ℕ) (hn : N ≤ n) (x : String) (hx : x ∈ S) (y : String) :=
    (hall n).1.mem_servers_iff (y := y) (hall n).2 (h.settled n hn x hx)
  have hservers (n : ℕ) (hn : N ≤ n) (x : String) (hx : x ∈ S) :
      servers ((s.follow pr sched n).node x) = servers ((s.follow pr sched N).node z) := by
    ext y
    rw [hmem n hn x hx, hmem N le_rfl z hz, h.same n hn x hx z hz]
  obtain ⟨ring, -, howns⟩ := exists_ringOf c.fingerprint32 c.fingerprint32 c.replicaPoints
    c.orders ((s.follow pr sched N).node z)
  obtain ⟨L, hL, -, -⟩ := howns.tree.lookupNUniqueAt
  obtain ⟨owner, howner, hfirst⟩ := Facade.exists_owner (hexact N z) hL hR
    ⟨z, by rw [c.servers_owners, hmem N le_rfl z hz]; exact h.own N z hz⟩
    (intOfUInt32 64 (c.fingerprint32 key))
  rw [c.servers_owners, hmem N le_rfl z hz] at howner
  refine ⟨c.owners ((s.follow pr sched N).node z), L, owner, hL, hfirst,
    fun n hn x hx => ⟨(hexact n x).eq (hexact N z) ?_, ?_⟩⟩
  · rw [c.servers_owners, c.servers_owners, hservers n hn x hx]
  · rw [h.same n hn x hx z hz]
    exact howner

/-- **Requests reach the owner of their key.**  Take any state that a cluster can reach, and a
set of nodes that are ready and hold each other alive, and let them gossip fairly as in
`Ringpop.Swim.Agreement`, where suspicions about others end and the addresses that are known
share no replica point.  From some time on, every key has one owner for all nodes of the set,
which all of them hold alive.  If the owner is asked for a key, `HandleOrForward` says that it
handles the request; if another one is asked and the call returns, it has called the owner,
and nobody else, whatever failed on the way. -/
theorem requests_reach_owner (pr : Primitives) (app : String → String)
    (actions : List Swim.Action) (S : Finset String) (sched : ℕ → Swim.Action) (R : ℤ)
    (hR : 1 ≤ R) (hready : ∀ x ∈ S, (((Cluster.new app).run pr actions).node x).ready = true)
    (hcalm : ∀ x ∈ S, ∀ y ∈ S, ∀ member,
      (((Cluster.new app).run pr actions).node x).memberlist.entry y = some member →
        member.status = alive)
    (hsched : ∀ n, (((Cluster.new app).run pr actions).follow pr sched n).Gossips S
      ((Cluster.new app).run pr actions).network.length (sched n))
    (hfair : ∀ x ∈ S, ∀ y ∈ S, x ≠ y → ∀ n,
      ((Cluster.new app).run pr actions).Pings pr sched x y n)
    (hsum : ∀ n, ∀ x ∈ S, ∀ y ∈ S,
      ((((Cluster.new app).run pr actions).follow pr sched n).node x).memberlist.checksum =
        ((((Cluster.new app).run pr actions).follow pr sched n).node y).memberlist.checksum →
      ((((Cluster.new app).run pr actions).follow pr sched n).node x).memberlist.entry =
        ((((Cluster.new app).run pr actions).follow pr sched n).node y).memberlist.entry)
    (hsettled : ∀ n, ∃ n', n ≤ n' ∧ ∀ x ∈ S, ∀ y ∉ S, ∀ member,
      ((((Cluster.new app).run pr actions).follow pr sched n').node x).memberlist.entry y =
        some member → member.status ≠ suspect)
    (hpoints : Ownership.NoSharedPoint
      (ringPoints (fun s => intOfUInt32 64 (pr.fingerprint32 s)) R)
      (((Cluster.new app).run pr actions).generated.map Prod.fst).toFinset) :
    ∃ N, ∀ key, ∃ owner, ∀ n, N ≤ n → ∀ x ∈ S,
      (∃ member, ((((Cluster.new app).run pr actions).follow pr sched n).node x).memberlist.entry
        owner = some member ∧ member.status = alive) ∧
      ∀ rp : RingpopInstance,
        rp.RunsNode ((((Cluster.new app).run pr actions).follow pr sched n).node x) →
        ∀ orders o env request service endpoint format opts,
        (x = owner → rp.handleOrForward ⟨pr.fingerprint32, R, orders⟩ (.ok x) o env key request
          service endpoint format opts = .ok ⟨true, none, none, none⟩) ∧
        (x ≠ owner →
          -- `LookupKeys` asks the same instance, at some time later on
          (∀ retry i, ∃ n' rp' orders' o', N ≤ n' ∧ RingpopInstance.RunsNode rp'
            ((((Cluster.new app).run pr actions).follow pr sched n').node x) ∧
            rp'.lookup ⟨pr.fingerprint32, R, orders'⟩ o' key = .ok (env.lookup retry i key)) →
          ∀ h, rp.handleOrForward ⟨pr.fingerprint32, R, orders⟩ (.ok x) o env key request
            service endpoint format opts = .ok h →
          h.handle = false ∧ ∃ sender, h.sender = some sender ∧ sender.calls ≠ [] ∧
            ∀ call ∈ sender.calls, call.1 = owner) := by
  have hinv := (Cluster.inv_new pr app).run actions
  have hmirrored := mirrored_run pr app actions
  generalize (Cluster.new app).run pr actions = s at *
  obtain ⟨N, hN⟩ := exists_settled hinv hready hcalm hsched hfair hsum hsettled
  refine ⟨N, fun key => ?_⟩
  rcases S.eq_empty_or_nonempty with rfl | hS
  · exact ⟨"", fun n hn x hx => absurd hx (Finset.notMem_empty x)⟩
  have hgenerated (n : ℕ) : ∀ p ∈ (s.follow pr sched n).generated,
      p.1 ∈ (s.generated.map Prod.fst).toFinset := by
    intro p hp
    rw [(hinv.calm hready).mem_generated (Cluster.Held.alive_or_leave
      fun x hx y hy member hmember => .inl (hcalm x hx y hy member hmember)) hsched] at hp
    exact List.mem_toFinset.2 (List.mem_map_of_mem hp)
  obtain ⟨A, L, owner, hL, howner, hall⟩ := hN.exists_owner
    (c := ⟨pr.fingerprint32, R, fun _ => .sorted⟩) hmirrored hinv hR hgenerated hpoints hS key
  have hlookup (n : ℕ) (hn : N ≤ n) (x : String) (hx : x ∈ S) (rp : RingpopInstance)
      (hrp : rp.RunsNode ((s.follow pr sched n).node x)) (orders : ℕ → MapOrder)
      (o : MapOrder) : rp.lookup ⟨pr.fingerprint32, R, orders⟩ o key = .ok (.ok owner) :=
    hrp.lookup (c := ⟨pr.fingerprint32, R, orders⟩) (hN.ready n x hx) (hall n hn x hx).1 hL
      howner o
  refine ⟨owner, fun n hn x hx => ⟨(hall n hn x hx).2, ?_⟩⟩
  intro rp hrp orders o env request service endpoint format opts
  have hready' := hrp.ready (hN.ready n x hx)
  constructor
  · rintro rfl
    exact handleOrForward_of_owner hready' (hlookup n hn x hx rp hrp orders o) env request
      service endpoint format opts
  · intro hne henv h hcall
    refine handleOrForward_of_ne hready' (hlookup n hn x hx rp hrp orders o) hne
      (fun retry i => ?_) hcall
    obtain ⟨n', rp', orders', o', hn', hrp', heq⟩ := henv retry i
    rw [hlookup n' hn' x hx rp' hrp' orders' o'] at heq
    exact (Except.ok.inj heq).symm

/-- As long as nobody outside of the set is known, there is nobody to suspect. -/
theorem mem_of_entry_follow (hinv : s.Inv pr) (hready : ∀ x ∈ S, (s.node x).ready = true)
    (hcalm : ∀ x ∈ S, ∀ y ∈ S, ∀ member, (s.node x).memberlist.entry y = some member →
      member.status = alive)
    (hsched : ∀ n, (s.follow pr sched n).Gossips S s.network.length (sched n))
    (hgenerated : ∀ p ∈ s.generated, p.1 ∈ S) {n : ℕ} {member : Member}
    (hmember : ((s.follow pr sched n).node x).memberlist.entry y = some member) : y ∈ S := by
  have hA := Cluster.Held.alive_or_leave (s := s) (S := S)
    fun x hx y hy member hmember => .inl (hcalm x hx y hy member hmember)
  have hinv' := ((hinv.calm hready).follow hA hsched n).inv
  have hauthentic := ((hinv'.node x).entry y member hmember).generated
  rw [(hinv.calm hready).mem_generated hA hsched] at hauthentic
  rw [← (hinv'.node x).believes.sound.memberlist.address_eq hmember]
  exact hgenerated _ hauthentic

/-- Two nodes that know only themselves at first, and ping each other in turn. -/
theorem requests_reach_owner_two : ∃ s : Cluster,
    ∃ N, ∀ key, ∃ owner, ∀ n, N ≤ n → ∀ x ∈ ({"a", "bb"} : Finset String),
      (∃ member, ((s.follow ⟨fun t => t.utf8ByteSize.toUInt32, id⟩ (Cluster.turns "a" "bb")
        n).node x).memberlist.entry owner = some member ∧ member.status = alive) ∧
      ∀ rp : RingpopInstance, rp.RunsNode ((s.follow ⟨fun t => t.utf8ByteSize.toUInt32, id⟩
          (Cluster.turns "a" "bb") n).node x) → x = owner →
        ∀ orders o env request service endpoint format opts,
          rp.handleOrForward ⟨fun t => t.utf8ByteSize.toUInt32, 1, orders⟩ (.ok x) o env key
            request service endpoint format opts = .ok ⟨true, none, none, none⟩ := by
  refine ⟨(Cluster.new fun _ => "app").run ⟨fun t => t.utf8ByteSize.toUInt32, id⟩
    (Cluster.alone "a" "bb"), ?_⟩
  have hinv := (Cluster.inv_new ⟨fun t => t.utf8ByteSize.toUInt32, id⟩
    fun _ => "app").run (Cluster.alone "a" "bb")
  obtain ⟨hsched, hfair, hsum⟩ := hinv.turns (x := "a") (y := "bb")
    {⟨"a", alive, 1⟩, ⟨"bb", alive, 2⟩}
    (by decide +kernel) (by decide +kernel) (by simp; decide +kernel) (by decide +kernel)
  have hready : ∀ x ∈ ({"a", "bb"} : Finset String), (((Cluster.new fun _ => "app").run
      ⟨fun t => t.utf8ByteSize.toUInt32, id⟩ (Cluster.alone "a" "bb")).node x).ready = true := by
    decide +kernel
  have hcalm : ∀ x ∈ ({"a", "bb"} : Finset String), ∀ y ∈ ({"a", "bb"} : Finset String),
      ∀ member, (((Cluster.new fun _ => "app").run ⟨fun t => t.utf8ByteSize.toUInt32, id⟩
        (Cluster.alone "a" "bb")).node x).memberlist.entry y = some member →
          member.status = alive := by
    simp only [← Option.mem_def]
    decide +kernel
  obtain ⟨N, hall⟩ := requests_reach_owner _ _ _ {"a", "bb"} (Cluster.turns "a" "bb") 1 le_rfl
    hready hcalm hsched hfair hsum
    (fun n => ⟨n, le_rfl, fun x hx y hy member hmember => absurd
      (mem_of_entry_follow hinv hready hcalm hsched (by decide +kernel) hmember) hy⟩)
    (by decide +kernel)
  refine ⟨N, fun key => ?_⟩
  obtain ⟨owner, howner⟩ := hall key
  refine ⟨owner, fun n hn x hx => ⟨(howner n hn x hx).1, ?_⟩⟩
  intro rp hrp hx' orders o env request service endpoint format opts
  exact ((howner n hn x hx).2 rp hrp orders o env request service endpoint format opts).1 hx'

end Facade
end Ringpop
