/-
# The public functions of an instance

`ringpop.go`: what a `Ringpop` answers to its users, from its state, its node and its ring.
All of these functions ask `Ready` first, and return `ErrNotBootstrapped` if it says no
(`gated`).  The ring and the node are pointers that are nil until `init` has run, and the
functions do not look; they rely on `Ready`.  That is enough: after whatever calls of
`Bootstrap` and `Destroy` that did not panic themselves, no public function comes upon a nil
pointer (`api_answers`).

The ring is made together with the node and follows its events, so it is read off them
here (`RingpopInstance.ring`).  What the identity resolver returns is an argument.  The
events of lookups and the logs are left out.
-/

import Ringpop.Facade.ClusterRing
import Ringpop.Facade.Lifecycle
import Ringpop.Forward.Attempts

namespace Ringpop
namespace Facade

open CellStore Runs Hashring Swim Forward

/-- `ErrNotBootstrapped`. -/
def errNotBootstrapped : String := "ringpop is not bootstrapped"

/-- `CountReachableMembers` of a member list. -/
def countReachableMembers (m : Memberlist) : ℕ :=
  (m.list.filterMap m.store.cell).countP Member.isReachable

/-- It counts what `GetReachableMembers` returns. -/
theorem length_getReachableMembers (m : Memberlist) :
    m.getReachableMembers.length = countReachableMembers m := by
  rw [Memberlist.getReachableMembers, List.length_map, ← List.countP_eq_length_filter,
    countReachableMembers]

/-- What the ring of an instance is made with, `farm.Fingerprint32` and `ReplicaPoints`, and the
order of the servers each time that an event is handled. -/
structure RingConfig where
  fingerprint32 : String → UInt32
  replicaPoints : ℤ
  orders : ℕ → MapOrder

/-- Who owns which points of the ring of a node. -/
noncomputable def RingConfig.owners (c : RingConfig) (n : Node) : Ownership :=
  (n.history.map ringOp).foldl (RingOp.apply (ringPoints
    (fun s => intOfUInt32 64 (c.fingerprint32 s)) c.replicaPoints)) .empty

@[simp] theorem RingConfig.servers_owners (c : RingConfig) (n : Node) :
    (c.owners n).servers = servers n :=
  servers_eq ..

/-- What `HandleOrForward` returns, what it writes to the response, and the request sender, if
there was one. -/
structure Handling where
  handle : Bool
  err : Option String
  response : Option Bytes
  sender : Option RequestSender

namespace RingpopInstance

variable (c : RingConfig) (rp : RingpopInstance)

/-- `rp.ring`. -/
def ring : Except Fault HashRing :=
  match rp.node with
  | none => throw .nilDereference
  | some n => ringOf (.bits64 c.fingerprint32) c.fingerprint32 c.replicaPoints c.orders n.toNode

/-- A function that needs an instance which is bootstrapped. -/
def gated {α : Type} (f : Except Fault (Except String α)) : Except Fault (Except String α) := do
  if ← rp.ready then f else return .error errNotBootstrapped

/-- `WhoAmI`. -/
def whoAmI (identity : Except String String) : Except Fault (Except String String) :=
  rp.gated (return identity)

/-- `Checksum`. -/
def checksum : Except Fault (Except String UInt32) :=
  rp.gated do
    let ring ← rp.ring c
    return .ok ring.checksum

/-- `Lookup`. -/
def lookup (o : MapOrder) (key : String) : Except Fault (Except String String) :=
  rp.gated do
    let ring ← rp.ring c
    let (dest, success) ← ring.lookup o key
    if success then return .ok dest
    else return .error "could not find destination for key"

/-- `LookupN`. -/
def lookupN (o : MapOrder) (key : String) (n : ℤ) : Except Fault (Except String (List String)) :=
  rp.gated do
    let ring ← rp.ring c
    let servers ← ring.lookupN o key n
    return .ok servers

/-- A function of the node. -/
def ofNode {α : Type} (f : Node → α) : Except Fault (Except String α) :=
  rp.gated <|
    match rp.node with
    | none => throw .nilDereference
    | some n => return .ok (f n.toNode)

/-- `GetReachableMembers`. -/
def getReachableMembers : Except Fault (Except String (List String)) :=
  rp.ofNode fun n => n.memberlist.getReachableMembers

/-- `CountReachableMembers`. -/
def countReachableMembers : Except Fault (Except String ℕ) :=
  rp.ofNode fun n => Facade.countReachableMembers n.memberlist

/-- `HandleOrForward`. -/
def handleOrForward (identity : Except String String) (o : MapOrder) (env : Surroundings)
    (key : String) (request : Bytes) (service endpoint : String) (format : Format)
    (opts : Option Options) : Except Fault Handling := do
  if (← rp.ready) = false then return ⟨false, some errNotBootstrapped, none, none⟩
  match ← rp.lookup c o key with
  | .error err => return ⟨false, some err, none, none⟩
  | .ok dest =>
      match ← rp.whoAmI identity with
      | .error err => return ⟨false, some err, none, none⟩
      | .ok identity =>
          if dest = identity then return ⟨true, none, none, none⟩
          let (res, sender) ← forwardRequest env request dest service endpoint [key] format opts
          match res with
          | .ok res => return ⟨false, none, some res, some sender⟩
          | .error err => return ⟨false, some err, none, some sender⟩

end RingpopInstance

/-! ### Instances that are ready have a node -/

namespace RingpopInstance

variable {pr : Primitives} {c : RingConfig} {rp rp' : RingpopInstance} {n : GossipNode}
  {o : MapOrder} {key : String}

/-- An instance that is ready has a node. -/
def Armed (rp : RingpopInstance) : Prop := rp.state = .ready → rp.node.isSome

theorem Armed.bootstrapNode {call : BootstrapCall} {joined : Except JoinError (List String)}
    (h : rp.Armed) (hcall : rp.bootstrapNode pr call = .ok (joined, rp')) : rp'.Armed := by
  rcases bootstrapNode_cases hcall with ⟨err, -, rfl⟩ | ⟨identity, opts, n, n', -, -, -, -, rfl⟩
  · exact h
  · exact fun _ => rfl

/-- **One call** of `Bootstrap` or `Destroy`. -/
theorem Armed.step {call : LifecycleCall} (h : rp.Armed)
    (hcall : call.step pr rp = .ok rp') : rp'.Armed := by
  cases call with
  | destroy =>
    obtain rfl := Except.ok.inj hcall
    intro hready
    cases hready
  | bootstrap call =>
    obtain ⟨⟨joined, rp₁⟩, hboot, rfl⟩ := exists_of_map_eq_ok hcall
    rw [bootstrap] at hboot
    split_ifs at hboot
    · cases hinit : rp.init call.initIdentity with
      | error err =>
        rw [hinit] at hboot
        obtain ⟨-, rfl⟩ := Prod.mk.inj (Except.ok.inj hboot)
        exact h
      | ok rp₂ =>
        rw [hinit] at hboot
        refine Armed.bootstrapNode (fun hready => ?_) hboot
        -- `init` leaves the instance initialized
        rw [init] at hinit
        split_ifs at hinit
        cases hidentity : call.initIdentity with
        | error err =>
          rw [hidentity] at hinit
          cases hinit
        | ok address =>
          rw [hidentity] at hinit
          obtain rfl := Except.ok.inj hinit
          cases hready
    · exact h.bootstrapNode hboot

theorem new_state {app : String} {period : ℤ} {channel identityResolver : Bool}
    (hnew : new app period channel identityResolver = .ok rp) : rp.state = .created := by
  rw [new] at hnew
  cases hperiod : ringChecksumStatPeriod period with
  | error err =>
    rw [hperiod] at hnew
    cases hnew
  | ok period' =>
    simp only [hperiod, Bind.bind, Except.bind] at hnew
    split_ifs at hnew
    obtain rfl := Except.ok.inj hnew
    rfl

/-- **Any calls** of `Bootstrap` and `Destroy` on a new instance. -/
theorem armed_run {app : String} {period : ℤ} {channel identityResolver : Bool}
    {calls : List LifecycleCall} (hnew : new app period channel identityResolver = .ok rp)
    (hrun : LifecycleCall.run pr rp calls = .ok rp') : rp'.Armed := by
  refine foldlM_invariant (I := Armed) (fun _ _ _ => Armed.step) (fun hready => ?_) hrun
  rw [new_state hnew] at hready
  cases hready

/-! ### What the functions return -/

theorem gated_of_not_ready {α : Type} (h : rp.ready = .ok false)
    (f : Except Fault (Except String α)) : rp.gated f = .ok (.error errNotBootstrapped) := by
  rw [gated, h]
  rfl

theorem gated_of_ready {α : Type} (h : rp.ready = .ok true) (f : Except Fault (Except String α)) :
    rp.gated f = f := by
  rw [gated, h]
  rfl

theorem exists_node_of_ready (h : rp.ready = .ok true) : ∃ n, rp.node = some n := by
  rw [ready] at h
  split_ifs at h
  · cases h
  · cases hn : rp.node with
    | none =>
      rw [hn] at h
      cases h
    | some n => exact ⟨n, rfl⟩

theorem ofNode_of_ready {α : Type} (h : rp.ready = .ok true) (hn : rp.node = some n)
    (f : Node → α) : rp.ofNode f = .ok (.ok (f n.toNode)) := by
  rw [ofNode, gated_of_ready h, hn]
  rfl

/-- An instance with a node has a ring, which answers from the servers of the batches. -/
theorem exists_ring (hn : rp.node = some n) :
    ∃ ring L, rp.ring c = .ok ring ∧ Owns (.bits64 c.fingerprint32)
        (fun s => intOfUInt32 64 (c.fingerprint32 s)) c.replicaPoints Set.univ ring
          (c.owners n.toNode) ∧
      Clockwise.Lists (c.owners n.toNode).owner L := by
  obtain ⟨ring, hring, h⟩ :=
    exists_ringOf c.fingerprint32 c.fingerprint32 c.replicaPoints c.orders n.toNode
  obtain ⟨L, hL, -, -⟩ := h.tree.lookupNUniqueAt
  exact ⟨ring, L, by rw [RingpopInstance.ring, hn]; exact hring, h, hL⟩

/-- **`Lookup`** of an instance that is ready. -/
theorem lookup_of_ready {L : List (ℤ × String)} (h : rp.ready = .ok true)
    (hn : rp.node = some n) (hL : Clockwise.Lists (c.owners n.toNode).owner L) (o : MapOrder)
    (key : String) :
    rp.lookup c o key =
      .ok (match (c.owners n.toNode).first L (intOfUInt32 64 (c.fingerprint32 key)) with
        | some dest => .ok dest
        | none => .error "could not find destination for key") := by
  obtain ⟨ring, -, hring, howns, -⟩ := exists_ring (c := c) hn
  rw [lookup, gated_of_ready h, hring]
  simp only [Bind.bind, Except.bind, howns.lookup hL]
  cases (c.owners n.toNode).first L (intOfUInt32 64 (c.fingerprint32 key)) <;> rfl

end RingpopInstance

/-- **Every public function answers.**  After any calls of `Bootstrap` and `Destroy` on a new
instance, it is ready or not.  If it is not, every public function returns
`ErrNotBootstrapped`.  If it is, they all return, whatever the ring is: none of them panics
or comes upon a nil pointer. -/
theorem api_answers (pr : Primitives) (c : RingConfig) (app : String) (period : ℤ)
    (channel identityResolver : Bool) (calls : List LifecycleCall) (rp rp' : RingpopInstance)
    (hnew : RingpopInstance.new app period channel identityResolver = .ok rp)
    (hrun : LifecycleCall.run pr rp calls = .ok rp') :
    (rp'.ready = .ok false ∧ ∀ (identity : Except String String) (o : MapOrder) (key : String)
      (k : ℤ),
      rp'.whoAmI identity = .ok (.error errNotBootstrapped) ∧
      rp'.checksum c = .ok (.error errNotBootstrapped) ∧
      rp'.lookup c o key = .ok (.error errNotBootstrapped) ∧
      rp'.lookupN c o key k = .ok (.error errNotBootstrapped) ∧
      rp'.getReachableMembers = .ok (.error errNotBootstrapped) ∧
      rp'.countReachableMembers = .ok (.error errNotBootstrapped) ∧
      ∀ env request service endpoint format opts,
        rp'.handleOrForward c identity o env key request service endpoint format opts =
          .ok ⟨false, some errNotBootstrapped, none, none⟩) ∨
    (rp'.ready = .ok true ∧ ∀ (identity : Except String String) (o : MapOrder) (key : String)
      (k : ℤ),
      rp'.whoAmI identity = .ok identity ∧
      (∃ checksum, rp'.checksum c = .ok (.ok checksum)) ∧
      (∃ dest, rp'.lookup c o key = .ok dest) ∧
      (∃ dests, rp'.lookupN c o key k = .ok (.ok dests)) ∧
      ∃ members, rp'.getReachableMembers = .ok (.ok members) ∧
        rp'.countReachableMembers = .ok (.ok members.length)) := by
  have harmed := RingpopInstance.armed_run hnew hrun
  obtain ⟨b, hb⟩ : ∃ b, rp'.ready = .ok b := by
    rw [RingpopInstance.ready]
    split_ifs with hstate
    · exact ⟨false, rfl⟩
    · obtain ⟨n, hn⟩ := Option.isSome_iff_exists.1 (harmed (not_not.1 hstate))
      rw [hn]
      exact ⟨n.ready, rfl⟩
  cases b with
  | false =>
    refine .inl ⟨hb, fun identity o key k => ?_⟩
    refine ⟨RingpopInstance.gated_of_not_ready hb _, RingpopInstance.gated_of_not_ready hb _,
      RingpopInstance.gated_of_not_ready hb _, RingpopInstance.gated_of_not_ready hb _,
      RingpopInstance.gated_of_not_ready hb _, RingpopInstance.gated_of_not_ready hb _,
      fun env request service endpoint format opts => ?_⟩
    rw [RingpopInstance.handleOrForward, hb]
    rfl
  | true =>
    refine .inr ⟨hb, fun identity o key k => ?_⟩
    obtain ⟨n, hn⟩ := RingpopInstance.exists_node_of_ready hb
    obtain ⟨ring, L, hring, howns, hL⟩ := RingpopInstance.exists_ring (c := c) hn
    refine ⟨RingpopInstance.gated_of_ready hb _, ⟨ring.checksum, ?_⟩,
      ⟨_, RingpopInstance.lookup_of_ready hb hn hL o key⟩,
      ⟨o.keys ((c.owners n.toNode).firstN L (intOfUInt32 64 (c.fingerprint32 key)) k), ?_⟩, _,
      RingpopInstance.ofNode_of_ready hb hn _, ?_⟩
    · rw [RingpopInstance.checksum, RingpopInstance.gated_of_ready hb, hring]
      rfl
    · rw [RingpopInstance.lookupN, RingpopInstance.gated_of_ready hb, hring]
      simp only [Bind.bind, Except.bind, howns.lookupN_eq hL]
      rfl
    · rw [RingpopInstance.countReachableMembers, RingpopInstance.ofNode_of_ready hb hn,
        length_getReachableMembers]

/-- An instance that is bootstrapped alone, and answers. -/
theorem api_answers_alone :
    ∃ rp rp', RingpopInstance.new "app" 5000000000 true true = .ok rp ∧
      LifecycleCall.run ⟨fun _ => 0, fun _ => 1⟩ rp [bootstrapAlone] = .ok rp' ∧
      rp'.ready = .ok true ∧
      rp'.whoAmI (.ok "h1:1") = .ok (.ok "h1:1") ∧
      ∃ dest, rp'.lookup ⟨fun _ => 0, 1, fun _ => .sorted⟩ .sorted "key" = .ok dest := by
  have heval : ((LifecycleCall.run ⟨fun _ => 0, fun _ => 1⟩
      ⟨⟨"app", 5000000000⟩, true, .created, none, none⟩ [bootstrapAlone]).map fun rp =>
        rp.ready.toOption) = .ok (some true) := by
    decide +kernel
  obtain ⟨rp', hrun, hready⟩ := exists_of_map_eq_ok heval
  have hanswers := api_answers ⟨fun _ => 0, fun _ => 1⟩ ⟨fun _ => 0, 1, fun _ => .sorted⟩ "app"
    5000000000 true true [bootstrapAlone] _ rp' rfl hrun
  refine ⟨_, rp', rfl, hrun, ?_⟩
  rcases hanswers with ⟨hb, -⟩ | ⟨hb, hall⟩
  · rw [hb] at hready
    cases hready
  · obtain ⟨hwho, -, hlookup, -⟩ := hall (.ok "h1:1") .sorted "key" 1
    exact ⟨hb, hwho, hlookup⟩

end Facade
end Ringpop
