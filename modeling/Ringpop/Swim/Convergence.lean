/-
# A converged cluster is stable

Nodes that hold the same members have nothing to tell each other.  What waits in the
disseminator of such a node is what its member list holds, so it is what the list of the
receiver holds as well, and `Update` makes nothing of it (`Node.Good.update_known`): a
change that is known has the rank of its entry, and no node sees itself as suspect or
faulty.  Their checksums are the same too, so no response is a full sync.

An exchange is a ping, or a ping request with the ping that it asks for, from the first
call to the last response.  It is made of actions of the cluster.
-/

import Ringpop.Swim.ClusterInvariant

namespace Ringpop
namespace Swim

open CellStore Runs Reorder

/-- The event of a refutation or of a full sync. -/
def NodeEvent.repairs : NodeEvent → Bool
  | .memberlist .refuteUpdate => true
  | .fullSync _ _ => true
  | _ => false

/-- The view has the changes already. -/
def View.Knows (V : View) (changes : List Change) : Prop :=
  ∀ c ∈ changes, V c.address = some c.member

/-! ### Changes that are known -/

/-- **A change that is known** and does not accuse the node is of no effect. -/
theorem UpdateState.updateChange_known {a : String} {st : UpdateState} {c : Change}
    (hknown : st.memberlist.entry c.address = some c.member) (hvalid : ValidStatus c.status)
    (haccuses : ¬ c.Accuses a) (choice : Choice) : st.updateChange a c choice = .ok st := by
  obtain ⟨p, hp, hcell⟩ := Option.bind_eq_some_iff.1 hknown
  have hloc : c.member.localOverride a c = false := by
    rw [Member.localOverride]
    split_ifs with haddr
    · rfl
    · have hstatus := not_and.1 haccuses (not_ne_iff.1 haddr)
      rw [not_or] at hstatus
      simp [hstatus]
  rw [updateChange, hp]
  simp only [hcell, hloc, nonLocalOverride_eq (m := c.member) hvalid hvalid, Change.member_rank,
    lt_irrefl, decide_false]
  rfl

theorem Memberlist.applyChanges_known {a : String} {m : Memberlist} {changes : List Change}
    (hknown : View.Knows m.entry changes) (hvalid : ∀ c ∈ changes, ValidStatus c.status)
    (haccuses : ∀ c ∈ changes, ¬ c.Accuses a) (choices : ℕ → Choice) :
    m.applyChanges a choices changes = .ok ⟨m, [], []⟩ := by
  obtain ⟨st, hrun, rfl⟩ := exists_foldlM (l := changes.zipIdx)
    (f := fun st (ci : Change × ℕ) => UpdateState.updateChange a st ci.1 (choices ci.2))
    (I := fun st => st = ⟨m, [], []⟩) (s := ⟨m, [], []⟩) (fun st ci hci hst => by
      subst hst
      have hmem : ci.1 ∈ changes := List.fst_mem_of_mem_zipIdx hci
      exact ⟨_, UpdateState.updateChange_known (hknown _ hmem) (hvalid _ hmem)
        (haccuses _ hmem) _, rfl⟩) rfl
  exact hrun

namespace Node

variable {pr : Primitives} {l : Ledger} {x : String} {n n' n₁ : Node} {choices : ℕ → Choice}
  {o : Arrangement Change}

/-- Nothing has become of the member list, and nothing was refuted or synced. -/
structure Settles (n n' : Node) : Prop where
  memberlist : n'.memberlist = n.memberlist
  ready : n'.ready = n.ready
  repairs : n'.emitted.filter NodeEvent.repairs = n.emitted.filter NodeEvent.repairs

theorem Settles.refl (n : Node) : n.Settles n := ⟨rfl, rfl, rfl⟩

theorem Settles.trans (h : n.Settles n₁) (h' : n₁.Settles n') : n.Settles n' :=
  ⟨h'.memberlist.trans h.memberlist, h'.ready.trans h.ready, h'.repairs.trans h.repairs⟩

/-- Other events do not matter. -/
theorem settles_of_emitted {events : List NodeEvent} (hm : n'.memberlist = n.memberlist)
    (hready : n'.ready = n.ready) (hemitted : n'.emitted = n.emitted ++ events)
    (hevents : ∀ e ∈ events, e.repairs = false) : n.Settles n' := by
  refine ⟨hm, hready, ?_⟩
  have hnil : events.filter NodeEvent.repairs = [] :=
    List.filter_eq_nil_iff.2 fun e he => by simp [hevents e he]
  rw [hemitted, List.filter_append, hnil, List.append_nil]

theorem settles_emit {events : List NodeEvent} (hevents : ∀ e ∈ events, e.repairs = false) :
    n.Settles (n.emit events) :=
  settles_of_emitted rfl rfl rfl hevents

/-- What a node sends, it knows. -/
theorem Believes.knows_issueChanges (h : n.Believes) (o : Arrangement Change) :
    View.Knows n.memberlist.entry (n.disseminator.issueChanges o) := by
  intro _ hc
  obtain ⟨pc, hpc, rfl⟩ := Disseminator.mem_issueChanges.1 hc
  exact h.entry _ pc hpc

/-- **`Update`** of changes that are known. -/
theorem Good.update_known {b : Batch} (h : n.Good pr l x) (hj : n.Joined pr)
    (hknown : View.Knows n.memberlist.entry b.changes) :
    ∃ events, n.update pr b = .ok ([], n.emit events) ∧ ∀ e ∈ events, e.repairs = false := by
  obtain ⟨own, hown, hstatus⟩ := hj.own
  have hloop : n.memberlist.applyChanges n.address b.choices b.changes =
      .ok ⟨n.memberlist, [], []⟩ := by
    refine Memberlist.applyChanges_known hknown
      (fun c hc => (h.entry _ _ (hknown c hc)).valid) (fun c hc haccuses => ?_) _
    have hc' := hknown c hc
    rw [haccuses.1, hown] at hc'
    obtain rfl := Option.some.inj hc'
    rcases haccuses.2 with hs | hs <;> rcases hstatus with ht | ht <;>
      exact absurd (hs.symm.trans ht) (by decide)
  by_cases hnil : b.changes.isEmpty = true
  · have hup : n.memberlist.update pr.fingerprint32 n.address n.stopped b.choices b.changes =
        .ok ⟨n.memberlist, [], []⟩ := by
      rw [Memberlist.update, hnil, Bool.or_true]
      rfl
    refine ⟨[], ?_, by simp⟩
    rw [Node.update, hup]
    rfl
  · have hup : n.memberlist.update pr.fingerprint32 n.address n.stopped b.choices b.changes =
        .ok ⟨n.memberlist, [], [.changesReceived b.changes]⟩ := by
      rw [Memberlist.update, h.stopped, eq_false_of_ne_true hnil, hloop]
      rfl
    refine ⟨[.memberlist (.changesReceived b.changes)], ?_, by simp [NodeEvent.repairs]⟩
    rw [Node.update, hup]
    rfl

/-- **`IssueAsReceiver`** for a sender of the same checksum. -/
theorem Issues.settles {source : String} {incarnation : ℤ} {checksum : UInt32}
    {kept changes : List Change} {full : Bool}
    (h : n.Issues o source incarnation checksum kept changes full n') (hn : n.Believes)
    (hsum : n.memberlist.checksum = checksum) :
    n.Settles n' ∧ View.Knows n.memberlist.entry changes := by
  have hfull : full = false ∧ changes = kept := by
    rcases h.changes with ⟨hfull, hkept, -⟩ | ⟨-, -, -, hne⟩
    · exact ⟨hfull, hkept⟩
    · exact absurd hsum hne
  obtain ⟨events, hemitted, hevents⟩ := h.emitted
  refine ⟨settles_of_emitted h.only.memberlist h.only.ready hemitted fun e he => ?_,
    fun c hc => ?_⟩
  · rcases hevents e he with ⟨cs, rfl⟩ | ⟨c, rfl⟩ | ⟨htrue, -⟩
    · rfl
    · rfl
    · exact absurd (hfull.1.symm.trans htrue) (by decide)
  · rw [hfull.2] at hc
    obtain ⟨⟨pc, hpc, rfl⟩, -⟩ := h.mem_kept.1 hc
    exact hn.entry _ pc hpc

/-- **`handlePing`** of a ping that tells nothing new. -/
theorem Good.handlePing_known {req : Ping} (h : n.Good pr l x) (hready : n.ready = true)
    (hknown : View.Knows n.memberlist.entry req.changes)
    (hsum : n.memberlist.checksum = req.checksum) (choices : ℕ → Choice)
    (o : Arrangement Change) : ∃ res n', n.handlePing pr choices o req = .ok (.ok res, n') ∧
      n.Settles n' ∧ View.Knows n.memberlist.entry res.changes := by
  obtain ⟨hemit, hkeep⟩ := h.emit [.pingReceive n.address req.source req.changes]
  obtain ⟨events, hup, hevents⟩ := hemit.update_known (b := ⟨req.changes, choices⟩)
    (hkeep (h.ready hready)) hknown
  obtain ⟨kept, changes, full, n', hping, hi⟩ := handlePing_spec (o := o) hready hup
  obtain ⟨hsettles, hres⟩ := hi.settles (hemit.emit events).1.believes hsum
  refine ⟨_, n', hping, Settles.trans ?_ hsettles, hres⟩
  exact (settles_emit (by simp [NodeEvent.repairs])).trans (settles_emit hevents)

/-- **`handlePingRequest`** of a request that tells nothing new, until it pings. -/
theorem Good.receivePingRequest_known {req : PingRequest} (h : n.Good pr l x)
    (hready : n.ready = true) (hknown : View.Knows n.memberlist.entry req.changes)
    (choices : ℕ → Choice) : ∃ events, n.receivePingRequest pr choices req =
      .ok (.ok (), n.emit events) ∧ ∀ e ∈ events, e.repairs = false := by
  obtain ⟨hemit, hkeep⟩ := h.emit
    [.pingRequestReceive n.address req.source req.target req.changes]
  obtain ⟨events, hup, hevents⟩ := hemit.update_known (b := ⟨req.changes, choices⟩)
    (hkeep (h.ready hready)) hknown
  refine ⟨.pingRequestReceive n.address req.source req.target req.changes :: events, ?_,
    List.forall_mem_cons.2 ⟨rfl, hevents⟩⟩
  rw [Node.receivePingRequest, hready, if_neg (by decide), hup, emit_emit]
  rfl

/-- **`handlePingRequest`** when the target has answered with nothing new. -/
theorem Good.answerPingRequest_known {res : Ping} (h : n.Good pr l x) (hj : n.Joined pr)
    (hknown : View.Knows n.memberlist.entry res.changes) (req : PingRequest)
    (hsum : n.memberlist.checksum = req.checksum) (choices : ℕ → Choice)
    (o : Arrangement Change) : ∃ out n',
      n.answerPingRequest pr choices o req (some res) = .ok (out, n') ∧
        n.Settles n' ∧ View.Knows n.memberlist.entry out.changes := by
  obtain ⟨hemit, hkeep⟩ := h.emit [.pingRequestPing n.address req.source req.target]
  obtain ⟨events, hup, hevents⟩ := hemit.update_known (b := ⟨res.changes, choices⟩)
    (hkeep hj) hknown
  obtain ⟨kept, changes, full, n', hissue, hi⟩ := issueAsReceiver_spec
    ((n.emit [.pingRequestPing n.address req.source req.target]).emit events) o req.source
    req.sourceIncarnation req.checksum
  obtain ⟨hsettles, hout⟩ := hi.settles (hemit.emit events).1.believes hsum
  refine ⟨⟨true, req.target, changes⟩, n', ?_, Settles.trans ?_ hsettles, hout⟩
  · rw [Node.answerPingRequest, hup]
    simp only [Bind.bind, Except.bind, Node.respondPingRequest, hissue]
    rfl
  · exact (settles_emit (by simp [NodeEvent.repairs])).trans (settles_emit hevents)

/-- The counters do not matter. -/
theorem settles_pingReturned (n : Node) (target : String) (req : Ping) (failed : Bool) :
    n.Settles (n.pingReturned target req failed) := by
  cases failed with
  | true => exact .refl n
  | false => exact settles_of_emitted rfl rfl rfl (by simp [NodeEvent.repairs])

theorem settles_pingRequestReturned (n : Node) (req : PingRequest) (failed : Bool) :
    n.Settles (n.pingRequestReturned req failed) := by
  cases failed with
  | true => exact ⟨rfl, rfl, rfl⟩
  | false => exact .refl n

end Node

/-! ### Exchanges -/

/-- A successful ping, or a successful ping request to `peer` with its ping of `target`.
The orders and the choices are those of its actions, one after the other. -/
inductive Exchange where
  | ping (x target : String) (o : ℕ → Arrangement Change) (choices : ℕ → ℕ → Choice)
  | pingRequest (x peer target : String) (o : ℕ → Arrangement Change)
      (choices : ℕ → ℕ → Choice)

namespace Exchange

/-- The nodes that take part. -/
def nodes : Exchange → List String
  | ping x target _ _ => [x, target]
  | pingRequest x peer target _ _ => [x, peer, target]

/-- How many messages are sent. -/
def messages : Exchange → ℕ
  | ping _ _ _ _ => 2
  | pingRequest _ _ _ _ _ => 4

/-- The actions of an exchange on a network of `k` messages: the first call is sent, and
then each message is delivered when it was sent. -/
def actions (k : ℕ) : Exchange → List Action
  | ping x target o choices =>
      .sendPing x (o 0) target ::
        (List.range 2).map fun i => .deliver (k + i) (choices i) (o (i + 1))
  | pingRequest x peer target o choices =>
      .sendPingRequest x (o 0) peer target ::
        (List.range 4).map fun i => .deliver (k + i) (choices i) (o (i + 1))

end Exchange

namespace Cluster

variable {pr : Primitives} {s s' t : Cluster} {x : String} {n : Node} {m : Message}
  {S : Set String} {V : View} {sum : UInt32} {choices : ℕ → Choice} {o : Arrangement Change}

/-- One exchange. -/
def exchange (pr : Primitives) (s : Cluster) (e : Exchange) : Cluster :=
  s.run pr (e.actions s.network.length)

/-- One exchange after the other. -/
def exchanges (pr : Primitives) (s : Cluster) (es : List Exchange) : Cluster :=
  es.foldl (exchange pr) s

/-- No process has ended, and nothing has become of the member lists. -/
structure Settles (s s' : Cluster) : Prop where
  life : s'.life = s.life
  node : ∀ x, (s.node x).Settles (s'.node x)

theorem Settles.refl (s : Cluster) : s.Settles s := ⟨rfl, fun _ => .refl _⟩

theorem Settles.trans (h : s.Settles t) (h' : t.Settles s') : s.Settles s' :=
  ⟨h'.life.trans h.life, fun x => (h.node x).trans (h'.node x)⟩

theorem settles_set (hn : (s.node x).Settles n) (hnode : t.node = Function.update s.node x n)
    (hlife : t.life = s.life) : s.Settles t := by
  refine ⟨hlife, ?_⟩
  rw [hnode]
  exact (Function.forall_update_iff s.node fun y n => (s.node y).Settles n).2
    ⟨hn, fun y _ => .refl _⟩

/-- The nodes of `S` are ready, and hold the same entries. -/
structure Agrees (pr : Primitives) (S : Set String) (V : View) (sum : UInt32) (s : Cluster) :
    Prop where
  inv : s.Inv pr
  ready : ∀ x ∈ S, (s.node x).ready = true
  entry : ∀ x ∈ S, (s.node x).memberlist.entry = V
  checksum : ∀ x ∈ S, (s.node x).memberlist.checksum = sum

theorem Agrees.of_settles (h : s.Agrees pr S V sum) (hs : s.Settles t) (hinv : t.Inv pr) :
    t.Agrees pr S V sum where
  inv := hinv
  ready x hx := (hs.node x).ready.trans (h.ready x hx)
  entry x hx := by
    rw [(hs.node x).memberlist]
    exact h.entry x hx
  checksum x hx := by
    rw [(hs.node x).memberlist]
    exact h.checksum x hx

theorem Agrees.joined (h : s.Agrees pr S V sum) (hx : x ∈ S) : (s.node x).Joined pr :=
  (h.inv.node x).ready (h.ready x hx)

theorem Agrees.isJoined (h : s.Agrees pr S V sum) (hx : x ∈ S) : s.joined x = true := by
  obtain ⟨own, hown, -⟩ := (h.joined hx).own
  rw [(h.inv.node x).address] at hown
  rw [Cluster.joined, hown]
  rfl

/-- What a node of the set sends is known to all of them. -/
theorem Agrees.knows_issueChanges (h : s.Agrees pr S V sum) (hx : x ∈ S)
    (o : Arrangement Change) : V.Knows ((s.node x).disseminator.issueChanges o) := by
  rw [← h.entry x hx]
  exact (h.inv.node x).believes.knows_issueChanges o

/-- A call of a node of the set has returned, and the node takes the changes of the
response. -/
theorem Agrees.update_returned {changes : List Change} (h : s.Agrees pr S V sum) (hx : x ∈ S)
    (hback : (s.node x).Settles n)
    (hgood : n.Good pr s.toLedger x ∧ ((s.node x).Joined pr → n.Joined pr))
    (hknown : V.Knows changes) (choices : ℕ → Choice) :
    ∃ n', n.update pr ⟨changes, choices⟩ = .ok ([], n') ∧ (s.node x).Settles n' := by
  have hknown' : View.Knows n.memberlist.entry changes := by
    rw [hback.memberlist, h.entry x hx]
    exact hknown
  obtain ⟨events, hup, hevents⟩ := hgood.1.update_known (b := ⟨changes, choices⟩)
    (hgood.2 (h.joined hx)) hknown'
  exact ⟨_, hup, hback.trans (Node.settles_emit hevents)⟩

/-! ### The actions of an exchange -/

/-- **A ping is sent.** -/
theorem Agrees.sendPing (h : s.Agrees pr S V sum) (hx : x ∈ S) (o : Arrangement Change)
    (target : String) : ∃ req, V.Knows req.changes ∧ req.checksum = sum ∧ req.source = x ∧
      (s.step pr (.sendPing x o target)).network =
        s.network ++ [.ping (s.life x) target req none] ∧
      s.Settles (s.step pr (.sendPing x o target)) := by
  refine ⟨((s.node x).sendPing o target).1, h.knows_issueChanges hx o, h.checksum x hx,
    (h.inv.node x).address, ?_, ?_⟩
  · rw [step, if_pos (h.isJoined hx)]
    rfl
  · rw [step, if_pos (h.isJoined hx)]
    refine settles_set ?_ rfl rfl
    exact Node.settles_of_emitted rfl rfl (List.append_assoc ..) (by simp [NodeEvent.repairs])

/-- **A ping request is sent.** -/
theorem Agrees.sendPingRequest (h : s.Agrees pr S V sum) (hx : x ∈ S) (o : Arrangement Change)
    (peer target : String) : ∃ req, V.Knows req.changes ∧ req.checksum = sum ∧ req.source = x ∧
      req.target = target ∧
      (s.step pr (.sendPingRequest x o peer target)).network =
        s.network ++ [.pingRequest (s.life x) peer req] ∧
      s.Settles (s.step pr (.sendPingRequest x o peer target)) := by
  refine ⟨((s.node x).sendPingRequest o target).1, h.knows_issueChanges hx o, h.checksum x hx,
    (h.inv.node x).address, rfl, ?_, ?_⟩
  · rw [step, if_pos (h.isJoined hx)]
    rfl
  · rw [step, if_pos (h.isJoined hx)]
    refine settles_set ?_ rfl rfl
    exact Node.settles_emit (by simp [NodeEvent.repairs])

/-- **A ping arrives** at a node of the set. -/
theorem Agrees.deliver_ping {target : String} {req : Ping} (h : s.Agrees pr S V sum)
    (htarget : target ∈ S) (hknown : V.Knows req.changes) (hsum : req.checksum = sum) (life : ℕ)
    (helped : Option (ℕ × PingRequest)) (choices : ℕ → Choice) (o : Arrangement Change) :
    ∃ res, V.Knows res.changes ∧
      (s.deliver pr choices o (.ping life target req helped)).network =
        s.network ++ [.pingResponse life target req helped res] ∧
      s.Settles (s.deliver pr choices o (.ping life target req helped)) := by
  obtain ⟨res, n, hping, hsettles, hres⟩ := (h.inv.node target).handlePing_known
    (h.ready target htarget) (by rw [h.entry target htarget]; exact hknown)
    ((h.checksum target htarget).trans hsum.symm) choices o
  rw [h.entry target htarget] at hres
  refine ⟨res, hres, ?_, ?_⟩
  · rw [deliver, hping]
    rfl
  · rw [deliver, hping]
    exact settles_set hsettles rfl rfl

/-- **The response of a ping arrives** at a node of the set. -/
theorem Agrees.deliver_pingResponse {life : ℕ} {req res : Ping} (h : s.Agrees pr S V sum)
    (target : String) (hx : req.source ∈ S) (hlife : s.life req.source = life)
    (hknown : V.Knows res.changes) (choices : ℕ → Choice) (o : Arrangement Change) :
    (s.deliver pr choices o (.pingResponse life target req none res)).network = s.network ∧
      s.Settles (s.deliver pr choices o (.pingResponse life target req none res)) := by
  obtain ⟨n, hup, hsettles⟩ := h.update_returned hx
    ((s.node req.source).settles_pingReturned target req false)
    ((h.inv.node req.source).pingReturned target req false) hknown choices
  have heq : s.deliver pr choices o (.pingResponse life target req none res) =
      (s.note req.source ⟨res.changes, choices⟩).set req.source n := by
    rw [deliver, if_pos hlife]
    simp only [hup]
    rfl
  rw [heq]
  exact ⟨rfl, settles_set hsettles rfl rfl⟩

/-- **The response of a ping arrives** at the peer of a ping request. -/
theorem Agrees.deliver_pingResponse_helped {life life' : ℕ} {target : String} {req res : Ping}
    {req' : PingRequest} (h : s.Agrees pr S V sum) (hx : req.source ∈ S)
    (hlife : s.life req.source = life) (hknown : V.Knows res.changes)
    (hsum : req'.checksum = sum) (choices : ℕ → Choice) (o : Arrangement Change) :
    ∃ out, V.Knows out.changes ∧
      (s.deliver pr choices o (.pingResponse life target req (some (life', req')) res)).network =
        s.network ++ [.pingRequestResponse life' req' out] ∧
      s.Settles (s.deliver pr choices o
        (.pingResponse life target req (some (life', req')) res)) := by
  have hback := (s.node req.source).settles_pingReturned target req false
  obtain ⟨hgood, hkeep⟩ := (h.inv.node req.source).pingReturned target req false
  obtain ⟨out, n, hanswer, hsettles, hout⟩ := hgood.answerPingRequest_known
    (hkeep (h.joined hx)) (by rw [hback.memberlist, h.entry _ hx]; exact hknown) req'
    (by rw [hback.memberlist, h.checksum _ hx, hsum]) choices o
  rw [hback.memberlist, h.entry _ hx] at hout
  have heq : s.deliver pr choices o (.pingResponse life target req (some (life', req')) res) =
      ((s.note req.source ⟨res.changes, choices⟩).set req.source n).send
        (.pingRequestResponse life' req' out) := by
    rw [deliver, if_pos hlife]
    simp only [hanswer]
    rfl
  rw [heq]
  exact ⟨out, hout, rfl, settles_set (hback.trans hsettles) rfl rfl⟩

/-- **A ping request arrives** at a node of the set. -/
theorem Agrees.deliver_pingRequest {peer : String} {req : PingRequest}
    (h : s.Agrees pr S V sum) (hpeer : peer ∈ S) (hknown : V.Knows req.changes) (life : ℕ)
    (choices : ℕ → Choice) (o : Arrangement Change) : ∃ ping, V.Knows ping.changes ∧
      ping.checksum = sum ∧ ping.source = peer ∧
      (s.deliver pr choices o (.pingRequest life peer req)).network =
        s.network ++ [.ping (s.life peer) req.target ping (some (life, req))] ∧
      s.Settles (s.deliver pr choices o (.pingRequest life peer req)) := by
  obtain ⟨events, hreceive, hevents⟩ := (h.inv.node peer).receivePingRequest_known
    (h.ready peer hpeer) (by rw [h.entry peer hpeer]; exact hknown) choices
  refine ⟨(((s.node peer).emit events).sendPing o req.target).1, h.knows_issueChanges hpeer o,
    h.checksum peer hpeer, (h.inv.node peer).address, ?_, ?_⟩
  · rw [deliver, hreceive]
    rfl
  · rw [deliver, hreceive]
    refine settles_set ((Node.settles_emit hevents).trans ?_) rfl rfl
    exact Node.settles_of_emitted rfl rfl (List.append_assoc ..) (by simp [NodeEvent.repairs])

/-- **The response of a ping request arrives** at a node of the set. -/
theorem Agrees.deliver_pingRequestResponse {life : ℕ} {req : PingRequest} {res : PingResponse}
    (h : s.Agrees pr S V sum) (hx : req.source ∈ S) (hlife : s.life req.source = life)
    (hknown : V.Knows res.changes) (choices : ℕ → Choice) (o : Arrangement Change) :
    (s.deliver pr choices o (.pingRequestResponse life req res)).network = s.network ∧
      s.Settles (s.deliver pr choices o (.pingRequestResponse life req res)) := by
  obtain ⟨n, hup, hsettles⟩ := h.update_returned hx
    ((s.node req.source).settles_pingRequestReturned req false)
    ((h.inv.node req.source).pingRequestReturned req false) hknown choices
  rw [deliver, if_pos hlife, hup]
  exact ⟨rfl, settles_set hsettles rfl rfl⟩

/-! ### Whole exchanges -/

/-- The last message of the network is delivered. -/
theorem step_deliver_last {network : List Message} {i : ℕ} (hs : s.network = network ++ [m])
    (hi : i = network.length) (choices : ℕ → Choice) (o : Arrangement Change) :
    s.step pr (.deliver i choices o) = s.deliver pr choices o m := by
  subst hi
  simp only [step, hs, List.getElem?_concat_length]

/-- **An exchange** between nodes of the set settles. -/
theorem Agrees.exchange (h : s.Agrees pr S V sum) {e : Exchange} (he : ∀ x ∈ e.nodes, x ∈ S) :
    s.Settles (s.exchange pr e) ∧
      (s.exchange pr e).network.length = s.network.length + e.messages := by
  cases e with
  | ping x target o choices =>
    have hx : x ∈ S := he x (.head _)
    have htarget : target ∈ S := he target (.tail _ (.head _))
    obtain ⟨req, hreq, hsum, rfl, hnet₁, hs₁⟩ := h.sendPing hx (o 0) target
    have h₁ := h.of_settles hs₁ (h.inv.step _)
    obtain ⟨res, hres, hnet₂, hs₂⟩ := h₁.deliver_ping htarget hreq hsum
      (s.life req.source) none (choices 0) (o 1)
    rw [← step_deliver_last hnet₁ rfl] at hnet₂ hs₂
    have h₂ := h₁.of_settles hs₂ (h₁.inv.step _)
    obtain ⟨hnet₃, hs₃⟩ := h₂.deliver_pingResponse target hx
      (congrFun (hs₁.trans hs₂).life req.source) hres (choices 1) (o 2)
    rw [← step_deliver_last (i := s.network.length + 1) hnet₂ (by simp [hnet₁])] at hnet₃ hs₃
    refine ⟨(hs₁.trans hs₂).trans hs₃, (congrArg List.length hnet₃).trans ?_⟩
    simp [hnet₂, hnet₁, Exchange.messages]
  | pingRequest x peer target o choices =>
    have hx : x ∈ S := he x (.head _)
    have hpeer : peer ∈ S := he peer (.tail _ (.head _))
    have htarget : target ∈ S := he target (.tail _ (.tail _ (.head _)))
    obtain ⟨req, hreq, hsum, rfl, rfl, hnet₁, hs₁⟩ := h.sendPingRequest hx (o 0) peer target
    have h₁ := h.of_settles hs₁ (h.inv.step _)
    obtain ⟨ping, hping, hsum', rfl, hnet₂, hs₂⟩ := h₁.deliver_pingRequest hpeer hreq
      (s.life req.source) (choices 0) (o 1)
    rw [← step_deliver_last hnet₁ rfl] at hnet₂ hs₂
    have h₂ := h₁.of_settles hs₂ (h₁.inv.step _)
    obtain ⟨res, hres, hnet₃, hs₃⟩ := h₂.deliver_ping htarget hping hsum' _ _ (choices 1) (o 2)
    rw [← step_deliver_last (i := s.network.length + 1) hnet₂ (by simp [hnet₁])] at hnet₃ hs₃
    have h₃ := h₂.of_settles hs₃ (h₂.inv.step _)
    obtain ⟨out, hout, hnet₄, hs₄⟩ := h₃.deliver_pingResponse_helped hpeer
      (congrFun (hs₂.trans hs₃).life ping.source) hres hsum (choices 2) (o 3)
    rw [← step_deliver_last (i := s.network.length + 2) hnet₃ (by simp [hnet₂, hnet₁])] at hnet₄ hs₄
    have h₄ := h₃.of_settles hs₄ (h₃.inv.step _)
    have hs₁₄ := (hs₁.trans hs₂).trans (hs₃.trans hs₄)
    obtain ⟨hnet₅, hs₅⟩ := h₄.deliver_pingRequestResponse hx
      (congrFun hs₁₄.life req.source) hout (choices 3) (o 4)
    rw [← step_deliver_last (i := s.network.length + 3) hnet₄
      (by simp [hnet₃, hnet₂, hnet₁])] at hnet₅ hs₅
    refine ⟨hs₁₄.trans hs₅, (congrArg List.length hnet₅).trans ?_⟩
    simp [hnet₄, hnet₃, hnet₂, hnet₁, Exchange.messages]

/-- **Exchanges**, one after the other. -/
theorem Agrees.exchanges (h : s.Agrees pr S V sum) {es : List Exchange}
    (hes : ∀ e ∈ es, ∀ x ∈ e.nodes, x ∈ S) :
    s.Settles (s.exchanges pr es) ∧
      (s.exchanges pr es).network.length = s.network.length + (es.map Exchange.messages).sum := by
  induction es generalizing s with
  | nil => exact ⟨.refl s, rfl⟩
  | cons e es ih =>
    obtain ⟨hone, hlen⟩ := h.exchange (hes e (.head _))
    obtain ⟨hrest, hlen'⟩ := ih (h.of_settles hone (h.inv.run _)) fun e' he' => hes e' (.tail _ he')
    refine ⟨hone.trans hrest, hlen'.trans ?_⟩
    rw [hlen, List.map_cons, List.sum_cons, Nat.add_assoc]

/-- Nodes that hold the same members agree, on the checksum too. -/
theorem Inv.exists_agrees {members : Finset Member} (h : s.Inv pr)
    (hS : ∀ x ∈ S, (s.node x).ready = true ∧
      (s.node x).memberlist.getMembers.toFinset = members) : ∃ V sum, s.Agrees pr S V sum := by
  rcases S.eq_empty_or_nonempty with rfl | ⟨y, hy⟩
  · exact ⟨fun _ => none, 0, h, by simp, by simp, by simp⟩
  · have hsound (x : String) := (h.node x).believes.sound.memberlist
    have hentry : ∀ x ∈ S, (s.node x).memberlist.entry = (s.node y).memberlist.entry := by
      intro x hx
      refine (hsound x).entry_eq (hsound y) fun member => ?_
      rw [← List.mem_toFinset, (hS x hx).2, ← (hS y hy).2, List.mem_toFinset]
    have hsummed : ∀ x ∈ S, (s.node x).memberlist.checksum =
        pr.fingerprint32 (s.node x).memberlist.genChecksumString :=
      fun x hx => ((h.node x).ready (hS x hx).1).summed
    refine ⟨_, (s.node y).memberlist.checksum, h, fun x hx => (hS x hx).1, hentry,
      fun x hx => ?_⟩
    rw [hsummed x hx, (hsound x).genChecksumString_eq (hsound y) (hentry x hx), ← hsummed y hy]

/-- **A converged cluster is stable.**  In every run of a cluster, take any set of nodes
that are ready and hold the same members.  Then exchanges among them, whatever their
disseminators still hold, all come to their end and change no member list; nothing is
refuted, and there is no full sync. -/
theorem converged_stable (pr : Primitives) (app : String → String) (actions : List Action)
    (S : Set String) (members : Finset Member)
    (hS : ∀ x ∈ S, (((new app).run pr actions).node x).ready = true ∧
      (((new app).run pr actions).node x).memberlist.getMembers.toFinset = members)
    (es : List Exchange) (hes : ∀ e ∈ es, ∀ x ∈ e.nodes, x ∈ S) :
    ((new app).run pr actions).Settles (((new app).run pr actions).exchanges pr es) ∧
      (((new app).run pr actions).exchanges pr es).network.length =
        ((new app).run pr actions).network.length + (es.map Exchange.messages).sum := by
  obtain ⟨V, sum, hagrees⟩ := ((inv_new pr app).run actions).exists_agrees hS
  exact hagrees.exchanges hes

/-- Three nodes have joined and pinged until each knows all three.  Their disseminators
are not empty. -/
theorem converged_stable_three : ∃ s : Cluster,
    (∀ x ∈ ["a", "b", "c"], (s.node x).disseminator.changes.keys ≠ []) ∧
      s.Settles (s.exchanges ⟨fun t => t.utf8ByteSize.toUInt32, id⟩
        [.ping "a" "b" (fun _ => .asIs) fun _ _ => ⟨9, 0⟩,
          .pingRequest "b" "c" "a" (fun _ => .asIs) fun _ _ => ⟨9, 0⟩]) := by
  refine ⟨(new fun _ => "app").run ⟨fun t => t.utf8ByteSize.toUInt32, id⟩
    [.reincarnate "a" 1 0 fun _ => ⟨9, 0⟩, .reincarnate "b" 2 0 fun _ => ⟨9, 0⟩,
      .reincarnate "c" 3 0 fun _ => ⟨9, 0⟩, .sendJoin "b" "a", .deliver 0 (fun _ => ⟨9, 0⟩) .asIs,
      .deliver 1 (fun _ => ⟨9, 0⟩) .asIs, .sendJoin "c" "a", .deliver 2 (fun _ => ⟨9, 0⟩) .asIs,
      .deliver 3 (fun _ => ⟨9, 0⟩) .asIs, .ready "a", .ready "b", .ready "c",
      .sendPing "b" .asIs "a", .deliver 4 (fun _ => ⟨9, 0⟩) .asIs,
      .deliver 5 (fun _ => ⟨9, 0⟩) .asIs, .sendPing "c" .asIs "a",
      .deliver 6 (fun _ => ⟨9, 0⟩) .asIs, .deliver 7 (fun _ => ⟨9, 0⟩) .asIs,
      .sendPing "b" .asIs "a", .deliver 8 (fun _ => ⟨9, 0⟩) .asIs,
      .deliver 9 (fun _ => ⟨9, 0⟩) .asIs], by decide +kernel, ?_⟩
  refine (converged_stable _ _ _ {x | x ∈ ["a", "b", "c"]}
    {⟨"a", alive, 1⟩, ⟨"b", alive, 2⟩, ⟨"c", alive, 3⟩} ?_ _ ?_).1
  · show ∀ x ∈ ["a", "b", "c"], _
    decide +kernel
  · show ∀ e ∈ _, ∀ x ∈ Exchange.nodes e, x ∈ ["a", "b", "c"]
    simp [Exchange.nodes]

end Cluster

end Swim
end Ringpop
