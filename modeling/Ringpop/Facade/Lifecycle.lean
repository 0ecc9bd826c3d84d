/-
# The life of an instance

`ringpop.go` with `swim/node.go` and `swim/node_bootstrap.go`: what `Bootstrap` and
`Destroy` do to the state of a `Ringpop`, to its node and to the gossip of the node.

`Destroy` stops all this, and its comment says that the instance cannot be restarted.
`Bootstrap` does not look for that.  It only tests whether the state is below
`initialized`, and it sets the state at its end, to `ready` or back to `initialized`.

* If `Destroy` was called before the first `Bootstrap`, there is no node, and `Bootstrap`
  panics.
* If the instance is the only one of its cluster, the join returns before it looks at the
  flag `destroyed`, and the instance is ready and gossips again.
* If it is not, the join fails, but the state is `initialized` afterwards.

These are all the cases (`bootstrap_destroy_panics_iff`,
`RingpopInstance.Sound.bootstrap_destroy`), so an instance stays destroyed if and only if it
is not bootstrapped again (`destroyed_final_iff`).

The calls come one after the other here.  The ring, the forwarder, the statistics and the
rollup of updates are left out.
-/

import Ringpop.Swim.Gossip
import Ringpop.Swim.JoinSender
import Ringpop.Swim.Refutation

namespace Ringpop
namespace Facade

open CellStore Runs Swim

/-! ### The node -/

/-- `BootstrapOptions`; the hosts of the provider, if there is one, or its error. -/
structure BootstrapOptions where
  discoverProvider : Option (Except String (List String))
  hosts : List String
  file : String
  stopped : Bool
  joinSize : ℤ
  maxJoinDuration : ℤ
  parallelismFactor : ℤ

/-- The options that stand for `nil`. -/
def BootstrapOptions.zero : BootstrapOptions := ⟨none, [], "", false, 0, 0, 0⟩

/-- The options with which `Ringpop.Bootstrap` calls the node: if there is no file, the own
identity is one of the hosts. -/
def BootstrapOptions.withIdentity (opts : BootstrapOptions) (identity : String) :
    BootstrapOptions :=
  if opts.file = "" ∧ identity ∉ opts.hosts then { opts with hosts := opts.hosts ++ [identity] }
  else opts

/-- A call of `Bootstrap`: its options, if they are not `nil`, and what else it finds.  The
identity is resolved twice, by `init` and by `Bootstrap` itself; the file holds a list of
hosts, or cannot be read; there is at least one attempt to join. -/
structure BootstrapCall where
  opts : Option BootstrapOptions
  initIdentity : Except String String
  identity : Except String String
  fileHosts : Except String (List String)
  now : ℤ
  timeNowMS : ℤ
  choices : ℕ → Choice
  orders : HostOrders
  attempt : JoinAttempt
  attempts : List JoinAttempt

/-- `resolveDiscoverProvider`. -/
def resolveDiscoverProvider (opts : BootstrapOptions) (fileHosts : Except String (List String)) :
    Except String (Except String (List String)) :=
  match opts.discoverProvider with
  | some discoverProvider => return discoverProvider
  | none =>
      if opts.hosts.length ≠ 0 then return .ok opts.hosts
      else if opts.file ≠ "" then return fileHosts
      else throw "no discover provider"

/-- `sendJoin`: the nodes that were joined or the error, and the node afterwards. -/
def sendJoin (pr : Primitives) (n : Node) (opts : JoinOpts) (o : HostOrders)
    (attempts : List JoinAttempt) : Except Fault (Except JoinError (List String) × Node) :=
  match JoinSender.new n opts o with
  | .error err => return (.error err, n)
  | .ok joiner =>
      match joiner.joinCluster pr attempts with
      | .error (.returned _ (some err) joiner) => return (.error err, joiner.node)
      | .error (.returned joined none joiner) => return (.ok joined, joiner.node)
      | .error (.faulted fault) => throw fault
      | .ok _ => throw .outOfFuel

/-- `Node` with its gossip, its channel and the flag `destroyed`. -/
structure GossipNode extends Node where
  channel : Bool
  destroyed : Bool
  gossip : Gossip

namespace GossipNode

/-- `NewNode`. -/
def new (app address : String) (channel : Bool) : GossipNode where
  toNode := .new app address
  channel := channel
  destroyed := false
  gossip := .new

/-- `Stop`. -/
def stop (n : GossipNode) : GossipNode :=
  { n with toNode := n.toNode.stop, gossip := n.gossip.stop }

/-- `Destroy`. -/
def destroy (n : GossipNode) : GossipNode := { n.stop with destroyed := true }

/-- `Bootstrap`. -/
def bootstrap (pr : Primitives) (n : GossipNode) (opts : Option BootstrapOptions)
    (call : BootstrapCall) : Except Fault (Except JoinError (List String) × GossipNode) :=
  if n.channel = false then return (.error (.text "channel required"), n)
  else
    let opts := opts.getD .zero
    match resolveDiscoverProvider opts call.fileHosts with
    | .error err => return (.error (.text err), n)
    | .ok discoverProvider => do
        let (_, node) ← n.toNode.reincarnate pr call.now call.timeNowMS call.choices
        let (joined, node) ← sendJoin pr node
          ⟨opts.joinSize, opts.maxJoinDuration, opts.parallelismFactor, some discoverProvider⟩
          call.orders
          ((call.attempt :: call.attempts).map fun a => { a with destroyed := n.destroyed })
        match joined with
        | .error err => return (.error err, { n with toNode := node })
        | .ok joined =>
            let gossip := if opts.stopped then n.gossip else n.gossip.start
            return (.ok joined, { n with toNode := { node with ready := true }, gossip := gossip })

end GossipNode

/-! ### The instance -/

/-- `state`. -/
inductive RingpopState where
  | created
  | initialized
  | ready
  | destroyed
deriving DecidableEq, Repr

/-- The number of a state. -/
def RingpopState.toNat : RingpopState → ℕ
  | created => 0
  | initialized => 1
  | ready => 2
  | destroyed => 3

/-- `configuration`. -/
structure Configuration where
  app : String
  ringChecksumStatPeriod : ℤ

/-- `Ringpop`.  Of the tickers, the periods are kept. -/
structure RingpopInstance where
  config : Configuration
  channel : Bool
  state : RingpopState
  node : Option GossipNode
  tickers : Option (List ℤ)

/-- `RingChecksumStatPeriodNever`. -/
def ringChecksumStatPeriodNever : ℤ := -1

/-- `RingChecksumStatPeriod`, in nanoseconds. -/
def ringChecksumStatPeriod (period : ℤ) : Except String ℤ :=
  if period ≤ 0 then return ringChecksumStatPeriodNever
  else if period < 10000000 then throw "ring checksum stat period invalid below 10 ms"
  else return period

/-- `checkOptions`. -/
def checkOptions (channel identityResolver : Bool) : List String :=
  (if channel then [] else ["channel is required"]) ++
    if identityResolver then [] else ["identity resolver is nil"]

namespace RingpopInstance

/-- `New`. -/
def new (app : String) (period : ℤ) (channel identityResolver : Bool) :
    Except String RingpopInstance := do
  let period ← ringChecksumStatPeriod period
  let errs := checkOptions channel identityResolver
  if errs.length ≠ 0 then throw ("[" ++ " ".intercalate errs ++ "]")
  else return ⟨⟨app, period⟩, channel, .created, none, none⟩

/-- `startTimers`. -/
def startTimers (rp : RingpopInstance) : RingpopInstance :=
  if rp.tickers.isSome then rp
  else if rp.config.ringChecksumStatPeriod ≠ ringChecksumStatPeriodNever then
    { rp with tickers := some [rp.config.ringChecksumStatPeriod] }
  else { rp with tickers := some [] }

/-- `stopTimers`. -/
def stopTimers (rp : RingpopInstance) : RingpopInstance :=
  if rp.tickers.isSome then { rp with tickers := none } else rp

/-- `init`. -/
def init (rp : RingpopInstance) (identity : Except String String) : Except String RingpopInstance :=
  if rp.channel = false then throw "Missing channel"
  else do
    let address ← identity
    let rp := startTimers { rp with node := some (.new rp.config.app address true) }
    return { rp with state := .initialized }

/-- `Bootstrap` of an instance that is initialized. -/
def bootstrapNode (pr : Primitives) (rp : RingpopInstance) (call : BootstrapCall) :
    Except Fault (Except JoinError (List String) × RingpopInstance) :=
  match call.identity with
  | .error err => return (.error (.text err), rp)
  | .ok identity =>
      match call.opts with
      | none => throw .nilDereference
      | some opts =>
          match rp.node with
          | none => throw .nilDereference
          | some n => do
              let (joined, n) ← n.bootstrap pr (some (opts.withIdentity identity)) call
              match joined with
              | .error err => return (.error err, { rp with node := some n, state := .initialized })
              | .ok joined => return (.ok joined, { rp with node := some n, state := .ready })

/-- `Bootstrap`. -/
def bootstrap (pr : Primitives) (rp : RingpopInstance) (call : BootstrapCall) :
    Except Fault (Except JoinError (List String) × RingpopInstance) :=
  if rp.state.toNat < RingpopState.initialized.toNat then
    match rp.init call.initIdentity with
    | .error err => return (.error (.text err), rp)
    | .ok rp => rp.bootstrapNode pr call
  else rp.bootstrapNode pr call

/-- `Destroy`. -/
def destroy (rp : RingpopInstance) : RingpopInstance :=
  { stopTimers { rp with node := rp.node.map GossipNode.destroy } with state := .destroyed }

/-- `Ready`. -/
def ready (rp : RingpopInstance) : Except Fault Bool :=
  if rp.state ≠ .ready then return false
  else
    match rp.node with
    | none => throw .nilDereference
    | some n => return n.ready

end RingpopInstance

/-- A call on an instance. -/
inductive LifecycleCall where
  | bootstrap (call : BootstrapCall)
  | destroy

namespace LifecycleCall

/-- The call is one of `Bootstrap`. -/
def isBootstrap : LifecycleCall → Bool
  | bootstrap _ => true
  | destroy => false

/-- The identity resolver works. -/
def Identified : LifecycleCall → Prop
  | bootstrap call =>
      (∃ address, call.initIdentity = .ok address) ∧ ∃ address, call.identity = .ok address
  | destroy => True

/-- One call. -/
def step (pr : Primitives) (rp : RingpopInstance) : LifecycleCall → Except Fault RingpopInstance
  | bootstrap call => (rp.bootstrap pr call).map Prod.snd
  | destroy => return rp.destroy

/-- Calls one after the other. -/
def run (pr : Primitives) (rp : RingpopInstance) (calls : List LifecycleCall) :
    Except Fault RingpopInstance :=
  calls.foldlM (step pr) rp

end LifecycleCall

/-! ### Staying destroyed -/

/-- What a destroyed instance should be for ever. -/
structure RingpopInstance.Final (rp : RingpopInstance) : Prop where
  state : rp.state = .destroyed
  ready : rp.ready = .ok false
  gossip : ∀ n ∈ rp.node, n.gossip.stopped = true

namespace RingpopInstance

variable {pr : Primitives} {rp rp' : RingpopInstance} {call : BootstrapCall}

@[simp] theorem destroy_node (rp : RingpopInstance) :
    rp.destroy.node = rp.node.map GossipNode.destroy := by
  rw [destroy, stopTimers]
  split_ifs <;> rfl

theorem final_destroy (rp : RingpopInstance) : rp.destroy.Final := by
  refine ⟨rfl, rfl, fun n hn => ?_⟩
  rw [destroy_node, Option.mem_def, Option.map_eq_some_iff] at hn
  obtain ⟨n₀, -, rfl⟩ := hn
  exact n₀.gossip.stop_stopped

/-- A destroyed instance is not initialized again. -/
theorem bootstrap_eq (h : rp.state = .destroyed) (pr : Primitives) (call : BootstrapCall) :
    rp.bootstrap pr call = rp.bootstrapNode pr call := by
  rw [bootstrap, h]
  rfl

/-- What `Bootstrap` of an initialized instance can come to: the identity is not resolved, or
the node is bootstrapped and the state set. -/
theorem bootstrapNode_cases {joined : Except JoinError (List String)}
    (h : rp.bootstrapNode pr call = .ok (joined, rp')) :
    (∃ err, call.identity = .error err ∧ rp' = rp) ∨
      ∃ identity opts n n', call.identity = .ok identity ∧ call.opts = some opts ∧
        rp.node = some n ∧
        n.bootstrap pr (some (opts.withIdentity identity)) call = .ok (joined, n') ∧
        rp' = { rp with
          node := some n', state := if joined.isOk then .ready else .initialized } := by
  rw [bootstrapNode] at h
  cases hidentity : call.identity with
  | error err =>
    rw [hidentity] at h
    obtain ⟨-, rfl⟩ := Prod.mk.inj (Except.ok.inj h)
    exact .inl ⟨err, rfl, rfl⟩
  | ok identity =>
    rw [hidentity] at h
    cases hopts : call.opts with
    | none => rw [hopts] at h; cases h
    | some opts =>
      rw [hopts] at h
      cases hnode : rp.node with
      | none => rw [hnode] at h; cases h
      | some n =>
        rw [hnode] at h
        obtain ⟨⟨result, n'⟩, hboot, h⟩ := exists_of_bind_eq_ok h
        cases result with
        | error err =>
          obtain ⟨rfl, rfl⟩ := Prod.mk.inj (Except.ok.inj h)
          exact .inr ⟨identity, opts, n, n', rfl, rfl, rfl, hboot, rfl⟩
        | ok nodes =>
          obtain ⟨rfl, rfl⟩ := Prod.mk.inj (Except.ok.inj h)
          exact .inr ⟨identity, opts, n, n', rfl, rfl, rfl, hboot, rfl⟩

/-- **A `Bootstrap` of a destroyed instance** does not leave it destroyed. -/
theorem Final.not_final_of_bootstrap (h : rp.Final) {identity : String}
    (hidentity : call.identity = .ok identity)
    (hstep : LifecycleCall.step pr rp (.bootstrap call) = .ok rp') : ¬ rp'.Final := by
  intro hfinal
  obtain ⟨⟨joined, rp₁⟩, hboot, rfl⟩ := exists_of_map_eq_ok hstep
  rw [bootstrap_eq h.state] at hboot
  rcases bootstrapNode_cases hboot with ⟨err, herr, -⟩ | ⟨_, _, _, n', -, -, -, -, rfl⟩
  · cases hidentity.symm.trans herr
  · -- whatever it was, `Bootstrap` sets the state
    have hstate := hfinal.state
    cases hok : joined.isOk <;> simp [hok] at hstate

end RingpopInstance

/-- From a destroyed instance on, it stays destroyed as long as there is no `Bootstrap`. -/
theorem final_run_iff {pr : Primitives} {rp : RingpopInstance} (h : rp.Final)
    {post : List LifecycleCall} (hidentified : ∀ call ∈ post, call.Identified) :
    (∀ calls, calls <+: post → ∃ rp', LifecycleCall.run pr rp calls = .ok rp' ∧ rp'.Final) ↔
      ∀ call ∈ post, call.isBootstrap = false := by
  induction post generalizing rp with
  | nil =>
    refine iff_of_true (fun calls hcalls => ⟨rp, ?_, h⟩) (by simp)
    rw [List.prefix_nil.1 hcalls]
    rfl
  | cons call post ih =>
    cases call with
    | bootstrap call =>
      refine iff_of_false (fun hall => ?_) fun hnone => ?_
      · -- the first call already takes the instance out of its state
        obtain ⟨rp', hrun, hfinal⟩ := hall [.bootstrap call] (by simp)
        obtain ⟨-, identity, hidentity⟩ := hidentified _ (.head _)
        obtain ⟨rp₁, hstep, hrun⟩ := exists_of_bind_eq_ok hrun
        obtain rfl : rp₁ = rp' := Except.ok.inj hrun
        exact h.not_final_of_bootstrap hidentity hstep hfinal
      · cases hnone _ (.head _)
    | destroy =>
      have ih' := ih rp.final_destroy fun call hcall => hidentified call (.tail _ hcall)
      constructor
      · intro hall call hcall
        rcases List.mem_cons.1 hcall with rfl | hcall
        · rfl
        · exact ih'.1 (fun calls hcalls => hall (.destroy :: calls)
            ((List.prefix_cons_inj _).2 hcalls)) call hcall
      · intro hnone calls hcalls
        rcases List.prefix_cons_iff.1 hcalls with rfl | ⟨rest, rfl, hrest⟩
        · exact ⟨rp, rfl, h⟩
        · exact ih'.2 (fun call hcall => hnone call (.tail _ hcall)) rest hrest

/-- **Destroyed is final as long as nothing is bootstrapped.**  After `Destroy` the instance
stays destroyed, is not ready, does not panic and does not gossip, however often it is
destroyed again, but only if `Bootstrap` is not called. -/
theorem destroyed_final_iff (pr : Primitives) (rp : RingpopInstance) (post : List LifecycleCall)
    (hidentified : ∀ call ∈ post, call.Identified) :
    (∀ calls, calls <+: post →
      ∃ rp', LifecycleCall.run pr rp (.destroy :: calls) = .ok rp' ∧ rp'.Final) ↔
      ∀ call ∈ post, call.isBootstrap = false :=
  final_run_iff rp.final_destroy hidentified

/-- A call of `Bootstrap` without hosts, of an instance at `h1:1`. -/
def bootstrapAlone : LifecycleCall :=
  let attempt : JoinAttempt := ⟨false, ⟨.asIs, .asIs⟩, fun _ => 0, .asIs, fun _ => none, 0⟩
  .bootstrap ⟨some .zero, .ok "h1:1", .ok "h1:1", .ok [], 5, 5, fun _ => ⟨5, 0⟩, ⟨.asIs, .asIs⟩,
    attempt, []⟩

/-- Destroyed, destroyed again and then bootstrapped, an instance does not stay destroyed. -/
theorem destroyed_final_iff_alone :
    ∃ rp, RingpopInstance.new "app" 5000000000 true true = .ok rp ∧
      (∀ call ∈ [LifecycleCall.destroy, bootstrapAlone], call.Identified) ∧
        ¬ ∀ calls, calls <+: [LifecycleCall.destroy, bootstrapAlone] →
          ∃ rp', LifecycleCall.run ⟨fun _ => 0, fun _ => 1⟩ rp (.destroy :: calls) = .ok rp' ∧
            rp'.Final := by
  have hidentified : ∀ call ∈ [LifecycleCall.destroy, bootstrapAlone], call.Identified := by
    intro call hcall
    rcases List.mem_pair.1 hcall with rfl | rfl
    · trivial
    · exact ⟨⟨_, rfl⟩, _, rfl⟩
  refine ⟨_, rfl, hidentified, fun hfinal => ?_⟩
  have hnone := (destroyed_final_iff _ _ _ hidentified).1 hfinal bootstrapAlone (by simp)
  cases hnone

/-- **Destroyed is not final.**  An instance that is destroyed before it is bootstrapped panics
when it is; one that is destroyed after it is bootstrapped is ready again when it is, and
its gossip has started. -/
theorem destroyed_revived :
    ∃ rp, RingpopInstance.new "app" 5000000000 true true = .ok rp ∧
      (∃ rp', LifecycleCall.run ⟨fun _ => 0, fun _ => 1⟩ rp [.destroy] = .ok rp' ∧ rp'.Final) ∧
      LifecycleCall.run ⟨fun _ => 0, fun _ => 1⟩ rp [.destroy, bootstrapAlone] =
        .error .nilDereference ∧
      ∃ rp' n, LifecycleCall.run ⟨fun _ => 0, fun _ => 1⟩ rp
          [bootstrapAlone, .destroy, bootstrapAlone] = .ok rp' ∧
        rp'.state = .ready ∧ rp'.ready = .ok true ∧ rp'.node = some n ∧
          n.destroyed = true ∧ n.gossip.stopped = false := by
  refine ⟨_, rfl, ⟨_, rfl, RingpopInstance.final_destroy _⟩, rfl, ?_⟩
  have heval : ((LifecycleCall.run ⟨fun _ => 0, fun _ => 1⟩
      ⟨⟨"app", 5000000000⟩, true, .created, none, none⟩
      [bootstrapAlone, .destroy, bootstrapAlone]).map fun rp => rp.node.map fun n =>
        decide (rp.state = .ready ∧ n.ready = true ∧ n.destroyed = true ∧
          n.gossip.stopped = false)) = .ok (some true) := by
    decide +kernel
  obtain ⟨rp', hrun, hnode⟩ := exists_of_map_eq_ok heval
  obtain ⟨n, hn, hflags⟩ := Option.map_eq_some_iff.1 hnode
  obtain ⟨hstate, hready, hdestroyed, hgossip⟩ := of_decide_eq_true hflags
  refine ⟨rp', n, hrun, hstate, ?_, hn, hdestroyed, hgossip⟩
  simp only [RingpopInstance.ready, hstate, hn, hready]
  rfl

/-! ### What a join leaves of the node -/

section join

variable {pr : Primitives} {n n' : Node}

theorem sound_of_addJoinList {b : Batch} (hn : n.Sound) (h : n.addJoinList pr b = .ok n') :
    n'.Sound := by
  obtain ⟨⟨applied, n₁⟩, hup, h⟩ := exists_of_bind_eq_ok h
  obtain rfl := Except.ok.inj h
  have he := Node.effect_update hn hup
  exact he.sound.congr rfl rfl

theorem selectLoop_node (random : ℕ → ℕ) (numNodesLeft : ℤ) (fuel : ℕ) (j : JoinSender)
    (group : List String) :
    (JoinSender.selectLoop random numNodesLeft fuel j group).2.node = j.node := by
  induction fuel generalizing j group with
  | zero => rfl
  | succ fuel ih =>
    rw [JoinSender.selectLoop]
    split_ifs
    · rfl
    · rw [ih]
    · rw [ih]
    · rfl

theorem selectGroup_node (j : JoinSender) (o : HostOrders) (random : ℕ → ℕ)
    (nodesJoined : List String) :
    (j.selectGroup o random nodesJoined).2.node = j.node := by
  rw [JoinSender.selectGroup, selectLoop_node]
  split_ifs <;> rfl

/-- `JoinGroup` leaves the node sound. -/
theorem sound_of_joinGroup {j j' : JoinSender} {a : JoinAttempt} {nodesJoined : List String}
    {r : List String × List String} (hj : j.node.Sound)
    (h : j.joinGroup pr a nodesJoined = .ok (r, j')) : j'.node.Sound := by
  rw [JoinSender.joinGroup] at h
  refine foldlM_invariant (I := fun s => s.2.node.Sound) (fun s e s' hs hs' => ?_)
    (by rwa [← selectGroup_node j a.orders a.random nodesJoined] at hj) h
  rw [JoinSender.joinNode] at hs'
  cases hresponse : a.response e.2 with
  | none =>
    rw [hresponse] at hs'
    obtain rfl := Except.ok.inj hs'
    exact hs
  | some membership =>
    rw [hresponse] at hs'
    obtain ⟨node, hnode, hs'⟩ := exists_of_bind_eq_ok hs'
    obtain rfl := Except.ok.inj hs'
    exact sound_of_addJoinList hs hnode

/-- **One attempt** leaves the node sound, whether the loop goes on or returns. -/
theorem sound_of_step {s : Joining} {a : JoinAttempt} (hs : s.sender.node.Sound) :
    (∀ s', s.step pr a = .ok s' → s'.sender.node.Sound) ∧
      ∀ nodesJoined err sender, s.step pr a = .error (.returned nodesJoined err sender) →
        sender.node.Sound := by
  have hspec := s.step_spec pr a
  refine ⟨fun s' hs' => ?_, fun nodesJoined err sender hret => ?_⟩
  · rw [hs'] at hspec
    cases hspec with
    | again ha hgroup => exact sound_of_joinGroup hs hgroup
  · rw [hret] at hspec
    cases hspec with
    | destroyed ha => exact hs
    | complete ha hgroup hsize =>
      have hnode := sound_of_joinGroup hs hgroup
      exact hnode
    | exceeded ha hgroup =>
      have hnode := sound_of_joinGroup hs hgroup
      exact hnode

theorem node_of_new {opts : JoinOpts} {o : HostOrders} {j : JoinSender}
    (h : JoinSender.new n opts o = .ok j) : j.node = n := by
  rw [JoinSender.new] at h
  split at h
  · cases h
  · cases h
  · split_ifs at h
    obtain rfl := Except.ok.inj h
    rfl

theorem exists_new {opts : JoinOpts} {hosts : List String}
    (hprovider : opts.discoverProvider = some (.ok hosts)) (hempty : hosts.length ≠ 0) (n : Node)
    (o : HostOrders) :
    ∃ j, JoinSender.new n opts o = .ok j ∧ j.node = n ∧
      j.bootstrapHostsMap = hostPortsByHost hosts := by
  rw [JoinSender.new, hprovider]
  dsimp only
  rw [if_neg hempty]
  exact ⟨_, rfl, rfl, rfl⟩

/-- **A join** leaves the node sound. -/
theorem sound_of_sendJoin {opts : JoinOpts} {o : HostOrders} {attempts : List JoinAttempt}
    {joined : Except JoinError (List String)} (hn : n.Sound)
    (h : sendJoin pr n opts o attempts = .ok (joined, n')) : n'.Sound := by
  rw [sendJoin] at h
  cases hnew : JoinSender.new n opts o with
  | error err =>
    rw [hnew] at h
    obtain ⟨-, rfl⟩ := Prod.mk.inj (Except.ok.inj h)
    exact hn
  | ok joiner =>
    rw [hnew] at h
    dsimp only at h
    have hj : joiner.node.Sound := by rwa [node_of_new hnew]
    have hreturned (nodes : List String) (err : Option JoinError) (sender : JoinSender)
        (hret : joiner.joinCluster pr attempts = .error (.returned nodes err sender)) :
        sender.node.Sound := by
      rw [JoinSender.joinCluster] at hret
      split_ifs at hret
      · obtain ⟨-, -, rfl⟩ := JoinEnd.returned.inj (Except.error.inj hret)
        exact hj
      · obtain ⟨s, a, -, hs, -, hstep⟩ := Along.exists_of_error (P := fun _ _ => True)
          (I := fun s : Joining => s.sender.node.Sound)
          (fun s a s' hs _ hs' => (sound_of_step hs).1 s' hs') hj
          (along_of_forall_mem (fun _ _ _ => trivial) _) hret
        exact (sound_of_step hs).2 nodes err sender hstep
    split at h
    · rename_i nodes err sender hret
      obtain ⟨-, rfl⟩ := Prod.mk.inj (Except.ok.inj h)
      exact hreturned _ _ _ hret
    · rename_i nodes sender hret
      obtain ⟨-, rfl⟩ := Prod.mk.inj (Except.ok.inj h)
      exact hreturned _ _ _ hret
    · cases h
    · cases h

end join

/-! ### What `Bootstrap` makes of a destroyed instance -/

/-- The node of an instance, if there is one, has a sound member list. -/
def RingpopInstance.Sound (rp : RingpopInstance) : Prop := ∀ n ∈ rp.node, n.toNode.Sound

namespace RingpopInstance

variable {pr : Primitives} {rp rp' : RingpopInstance} {call : BootstrapCall}

/-- `Bootstrap` of a node leaves it sound. -/
theorem sound_of_bootstrap {n n' : GossipNode} {opts : Option BootstrapOptions}
    {joined : Except JoinError (List String)} (hn : n.toNode.Sound)
    (h : n.bootstrap pr opts call = .ok (joined, n')) : n'.toNode.Sound := by
  rw [GossipNode.bootstrap] at h
  split_ifs at h
  · obtain ⟨-, rfl⟩ := Prod.mk.inj (Except.ok.inj h)
    exact hn
  · dsimp only at h
    split at h
    · obtain ⟨-, rfl⟩ := Prod.mk.inj (Except.ok.inj h)
      exact hn
    · obtain ⟨⟨applied, node⟩, hnode, h⟩ := exists_of_bind_eq_ok h
      obtain ⟨⟨result, node'⟩, hjoin, h⟩ := exists_of_bind_eq_ok h
      have hsound := sound_of_sendJoin (hn.of_reincarnate hnode) hjoin
      cases result with
      | error err =>
        obtain ⟨-, rfl⟩ := Prod.mk.inj (Except.ok.inj h)
        exact hsound
      | ok nodes =>
        obtain ⟨-, rfl⟩ := Prod.mk.inj (Except.ok.inj h)
        exact hsound.congr rfl rfl

theorem Sound.bootstrapNode {joined : Except JoinError (List String)} (hrp : rp.Sound)
    (h : rp.bootstrapNode pr call = .ok (joined, rp')) : rp'.Sound := by
  rcases bootstrapNode_cases h with ⟨-, -, rfl⟩ | ⟨_, _, n, n', -, -, hnode, hboot, rfl⟩
  · exact hrp
  · have hn' := sound_of_bootstrap (hrp n hnode) hboot
    simpa [Sound] using hn'

theorem sound_of_init {identity : Except String String} (h : rp.init identity = .ok rp') :
    rp'.Sound := by
  rw [init] at h
  split_ifs at h
  cases identity with
  | error err => cases h
  | ok address =>
    obtain rfl := Except.ok.inj h
    intro n hn
    obtain rfl : GossipNode.new rp.config.app address true = n := by
      dsimp only [startTimers] at hn
      split_ifs at hn <;> exact Option.some.inj hn
    exact Node.sound_new _ _

/-- **One call** leaves the node sound. -/
theorem Sound.step {c : LifecycleCall} (hrp : rp.Sound) (h : c.step pr rp = .ok rp') :
    rp'.Sound := by
  cases c with
  | destroy =>
    obtain rfl := Except.ok.inj h
    intro n hn
    rw [destroy_node, Option.mem_def, Option.map_eq_some_iff] at hn
    obtain ⟨n₀, hn₀, rfl⟩ := hn
    have hsound := hrp n₀ hn₀
    exact hsound.congr rfl rfl
  | bootstrap call =>
    obtain ⟨⟨joined, rp₁⟩, hboot, rfl⟩ := exists_of_map_eq_ok h
    rw [bootstrap] at hboot
    split_ifs at hboot
    · split at hboot
      · obtain ⟨-, rfl⟩ := Prod.mk.inj (Except.ok.inj hboot)
        exact hrp
      · rename_i rp₀ hinit
        exact (sound_of_init hinit).bootstrapNode hboot
    · exact hrp.bootstrapNode hboot

/-- An instance is sound in every run from `New`. -/
theorem sound_of_run {app : String} {period : ℤ} {channel identityResolver : Bool}
    {rp₀ : RingpopInstance} {calls : List LifecycleCall}
    (hnew : new app period channel identityResolver = .ok rp₀)
    (hrun : LifecycleCall.run pr rp₀ calls = .ok rp) : rp.Sound := by
  refine foldlM_invariant (I := RingpopInstance.Sound) (fun s c s' hs hs' => hs.step hs') ?_ hrun
  rw [new] at hnew
  cases hperiod : Facade.ringChecksumStatPeriod period with
  | error err => rw [hperiod] at hnew; cases hnew
  | ok period =>
    rw [hperiod] at hnew
    dsimp only [Bind.bind, Except.bind] at hnew
    split_ifs at hnew
    obtain rfl := Except.ok.inj hnew
    intro n hn
    cases hn

/-- Without a node, `Bootstrap` of a destroyed instance panics. -/
theorem bootstrap_destroy_of_node_eq_none (hnode : rp.node = none) {identity : String}
    (hidentity : call.identity = .ok identity) :
    rp.destroy.bootstrap pr call = .error .nilDereference := by
  rw [bootstrap_eq rfl, bootstrapNode, hidentity, destroy_node, hnode]
  cases call.opts <;> rfl

end RingpopInstance

/-- The hosts of a bootstrap are the node alone. -/
def BootstrapOptions.Alone (opts : BootstrapOptions) (fileHosts : Except String (List String))
    (address : String) : Prop :=
  ∃ hosts, resolveDiscoverProvider opts fileHosts = .ok (.ok hosts) ∧
    singleNodeCluster address (hostPortsByHost hosts) = true

/-- A stopped node ignores the change that `Reincarnate` makes. -/
theorem exists_reincarnate_of_stopped {n : Node} (hn : n.Sound) (hstopped : n.stopped = true)
    (pr : Primitives) (now t : ℤ) (choices : ℕ → Choice) :
    ∃ applied n', n.reincarnate pr now t choices = .ok (applied, n') ∧
      n'.address = n.address := by
  obtain ⟨applied, n', hcall⟩ : ∃ applied n', n.reincarnate pr now t choices =
      .ok (applied, n') := by
    refine hn.exists_makeStatus_of_run (fun i => ?_) pr t
    rw [hstopped]
    exact ⟨_, rfl⟩
  obtain ⟨-, i, he⟩ := Node.effect_makeStatus hn hcall
  exact ⟨applied, n', hcall, he.address⟩

/-- **A destroyed node** only joins a cluster of its own. -/
theorem sendJoin_destroyed {opts : JoinOpts} {provider : Except String (List String)}
    {a : JoinAttempt} (hprovider : opts.discoverProvider = some provider)
    (ha : a.destroyed = true) (pr : Primitives) (n : Node) (o : HostOrders)
    (attempts : List JoinAttempt) :
    ∃ joined, sendJoin pr n opts o (a :: attempts) = .ok (joined, n) ∧
      (joined.isOk = true ↔
        ∃ hosts, provider = .ok hosts ∧ singleNodeCluster n.address (hostPortsByHost hosts)) := by
  cases provider with
  | error err =>
    refine ⟨.error (.text err), ?_, by simp [Except.isOk, Except.toBool]⟩
    rw [sendJoin, JoinSender.new, hprovider]
    rfl
  | ok hosts =>
    by_cases hempty : hosts.length = 0
    · obtain rfl := List.eq_nil_of_length_eq_zero hempty
      refine ⟨.error (.text "bootstrap hosts cannot be empty"), ?_, ?_⟩
      · rw [sendJoin, JoinSender.new, hprovider]
        rfl
      · simp [Except.isOk, Except.toBool, hostPortsByHost, singleNodeCluster]
    · obtain ⟨j, hnew, rfl, hmap⟩ := exists_new hprovider hempty n o
      rw [sendJoin, hnew]
      dsimp only [JoinSender.joinCluster]
      rw [hmap]
      cases hsingle : singleNodeCluster j.node.address (hostPortsByHost hosts) with
      | true => exact ⟨.ok [], rfl, by simp [Except.isOk, Except.toBool, hsingle]⟩
      | false =>
        have hstep : (a :: attempts).foldlM (Joining.step pr) ⟨j, [], 0⟩ =
            .error (.returned [] (some (.text "node destroyed while attempting to join cluster"))
              { j with emitted := j.emitted ++ [.failedDestroyed] }) := by
          rw [List.foldlM_cons, Joining.step, ha]
          rfl
        refine ⟨.error (.text "node destroyed while attempting to join cluster"), ?_,
          by simp [Except.isOk, Except.toBool, hsingle]⟩
        rw [if_neg Bool.false_ne_true, hstep]
        rfl

/-- **`Bootstrap` of a destroyed node** returns; its gossip starts if it is alone. -/
theorem GossipNode.bootstrap_destroyed {n : GossipNode} (hn : n.toNode.Sound)
    (hstopped : n.stopped = true) (hdestroyed : n.destroyed = true)
    (hgossip : n.gossip.stopped = true) (pr : Primitives) (opts : BootstrapOptions)
    (call : BootstrapCall) :
    ∃ joined n', n.bootstrap pr (some opts) call = .ok (joined, n') ∧
      (joined.isOk = true ↔ n.channel = true ∧ opts.Alone call.fileHosts n.address) ∧
        (joined.isOk = true → n'.ready = true ∧ n'.gossip.stopped = opts.stopped) ∧
          (joined.isOk = false → n'.gossip.stopped = true) := by
  rw [GossipNode.bootstrap]
  cases hchannel : n.channel with
  | false => exact ⟨_, n, rfl, by simp [Except.isOk, Except.toBool, hgossip]⟩
  | true =>
    dsimp only [Option.getD_some]
    cases hprovider : resolveDiscoverProvider opts call.fileHosts with
    | error err =>
      refine ⟨_, n, rfl, ?_⟩
      simp [Except.isOk, Except.toBool, hgossip, BootstrapOptions.Alone, hprovider]
    | ok provider =>
      obtain ⟨applied, node, hnode, haddress⟩ := exists_reincarnate_of_stopped hn hstopped pr
        call.now call.timeNowMS call.choices
      have hoptions : (⟨opts.joinSize, opts.maxJoinDuration, opts.parallelismFactor,
          some provider⟩ : JoinOpts).discoverProvider = some provider := rfl
      obtain ⟨joined, hjoin, hok⟩ := sendJoin_destroyed
        (a := { call.attempt with destroyed := n.destroyed }) hoptions hdestroyed pr node
        call.orders (call.attempts.map fun a => { a with destroyed := n.destroyed })
      rw [haddress] at hok
      have halone : opts.Alone call.fileHosts n.address ↔
          ∃ hosts, provider = .ok hosts ∧ singleNodeCluster n.address (hostPortsByHost hosts) := by
        simp [BootstrapOptions.Alone, hprovider]
      simp only [hnode, List.map_cons, Bind.bind, Except.bind, hjoin]
      cases joined with
      | error err =>
        refine ⟨_, _, rfl, ?_⟩
        rw [halone, ← hok]
        simp [Except.isOk, Except.toBool, hgossip]
      | ok nodes =>
        refine ⟨_, _, rfl, ?_⟩
        rw [halone, ← hok]
        cases opts.stopped <;> simp [Except.isOk, Except.toBool, hgossip, Gossip.start]

/-- **`Bootstrap` of a destroyed instance** that has a node returns.  If the instance is alone,
it is ready and its gossip starts, unless the options say that it should not; otherwise the
instance is initialized, as if it had not been destroyed. -/
theorem RingpopInstance.Sound.bootstrap_destroy {rp : RingpopInstance} (hrp : rp.Sound)
    {n : GossipNode} (hnode : rp.node = some n) {call : BootstrapCall} {opts : BootstrapOptions}
    {identity : String} (hidentity : call.identity = .ok identity) (hopts : call.opts = some opts)
    (pr : Primitives) :
    ∃ joined rp' n', rp.destroy.bootstrap pr call = .ok (joined, rp') ∧ rp'.node = some n' ∧
      (joined.isOk = true ↔
        n.channel = true ∧ (opts.withIdentity identity).Alone call.fileHosts n.address) ∧
        (joined.isOk = true →
          rp'.state = .ready ∧ rp'.ready = .ok true ∧ n'.gossip.stopped = opts.stopped) ∧
          (joined.isOk = false →
            rp'.state = .initialized ∧ rp'.ready = .ok false ∧ n'.gossip.stopped = true) := by
  have hsound : n.destroy.toNode.Sound := ⟨(hrp n hnode).memberlist, (hrp n hnode).localMember⟩
  obtain ⟨joined, n', hboot, hok, hjoined, hfailed⟩ := GossipNode.bootstrap_destroyed hsound rfl rfl
    n.gossip.stop_stopped pr (opts.withIdentity identity) call
  have hstopped : (opts.withIdentity identity).stopped = opts.stopped := by
    rw [BootstrapOptions.withIdentity]
    split_ifs <;> rfl
  rw [bootstrap_eq rfl, RingpopInstance.bootstrapNode, hidentity, destroy_node, hnode, hopts]
  simp only [Option.map_some, hboot, Bind.bind, Except.bind]
  cases joined with
  | error err =>
    refine ⟨_, _, n', rfl, rfl, hok, nofun, fun h => ⟨rfl, rfl, hfailed h⟩⟩
  | ok nodes =>
    refine ⟨_, _, n', rfl, rfl, hok, fun h => ?_, nofun⟩
    obtain ⟨hready, hgossip⟩ := hjoined h
    exact ⟨rfl, congrArg Except.ok hready, hgossip.trans hstopped⟩

/-- **`Bootstrap` panics after `Destroy`**, in a run from `New`, if and only if no `Bootstrap` had
made the node before. -/
theorem bootstrap_destroy_panics_iff {pr : Primitives} {app : String} {period : ℤ}
    {channel identityResolver : Bool} {rp₀ rp : RingpopInstance} {pre : List LifecycleCall}
    (hnew : RingpopInstance.new app period channel identityResolver = .ok rp₀)
    (hrun : LifecycleCall.run pr rp₀ pre = .ok rp) {call : BootstrapCall} {opts : BootstrapOptions}
    {identity : String} (hidentity : call.identity = .ok identity)
    (hopts : call.opts = some opts) :
    (∃ fault, rp.destroy.bootstrap pr call = .error fault) ↔ rp.node = none := by
  constructor
  · rintro ⟨fault, hfault⟩
    cases hnode : rp.node with
    | none => rfl
    | some n =>
      have hsound := RingpopInstance.sound_of_run hnew hrun
      obtain ⟨joined, rp', n', hboot, -⟩ := hsound.bootstrap_destroy hnode hidentity hopts pr
      rw [hboot] at hfault
      cases hfault
  · intro hnode
    exact ⟨_, RingpopInstance.bootstrap_destroy_of_node_eq_none hnode hidentity⟩

end Facade
end Ringpop
