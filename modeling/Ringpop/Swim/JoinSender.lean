/-
# Joining a cluster

`swim/join_sender.go`, with what it uses of `util/util.go`: a node that is bootstrapped
sends join requests to the bootstrap hosts, a group of them at a time, until it has joined
enough.  The groups are drawn from two pools, the hosts of other machines first and those
of the own machine after them; when both are empty they are filled again, and a new round
through all hosts begins.

A bootstrap is a list of attempts, one for each time round the loop of `JoinCluster`.  An
attempt is what the code leaves open: the order in which the map of hosts is enumerated,
the numbers that are drawn, the order in which the requests of the group end and with what,
the time it has all taken, and whether the node has been destroyed.  The loop ends with a
result (`JoinEnd`), or it is still going on when the attempts are over.

The delays between the attempts are in `Ringpop.Swim.JoinDelayer`; the logs and the timeouts are
left out.
-/

import Ringpop.Collections.Groups
import Ringpop.Collections.Reorder
import Ringpop.Swim.Node

namespace Ringpop
namespace Swim

open CellStore Reorder

/-! ### Hosts -/

/-- The place of the last `c`. -/
def lastIndexOf (c : Char) (l : List Char) : Option ℕ :=
  (l.reverse.idxOf? c).map fun i => l.length - 1 - i

/-- `net.SplitHostPort`, without its errors. -/
def splitHostPort (hostport : List Char) : Option (List Char × List Char) := do
  -- the port starts after the last colon
  let i ← lastIndexOf ':' hostport
  if hostport.head? = some '[' then
    -- the first bracket that closes is just before it
    let close ← hostport.idxOf? ']'
    if close + 1 = i ∧ '[' ∉ hostport.drop 1 ∧ ']' ∉ hostport.drop (close + 1) then
      return ((hostport.take close).drop 1, hostport.drop (i + 1))
    none
  else
    let host := hostport.take i
    if ':' ∉ host ∧ '[' ∉ hostport ∧ ']' ∉ hostport then return (host, hostport.drop (i + 1))
    none

/-- `CaptureHost`. -/
def captureHost (hostport : String) : String :=
  match splitHostPort hostport.toList with
  | none => ""
  | some (host, _) => String.ofList host

/-- `HostPortsByHost`. -/
def hostPortsByHost (hostports : List String) : Groups String String :=
  hostports.foldl (fun hostMap hostport =>
    let host := captureHost hostport
    if host ≠ "" then hostMap.add host hostport else hostMap) []

/-- `SingleNodeCluster`. -/
def singleNodeCluster (hostport : String) (hostMap : Groups String String) : Bool :=
  if hostMap.length > 1 then false
  else
    match hostMap.find? (·.1 = captureHost hostport) with
    | none => false
    | some (_, hostports) =>
        if hostports.length > 1 then false else decide (hostports.head? = some hostport)

/-- `TakeNode`, with the number that is drawn if the index is negative. -/
def takeNode (nodes : List String) (index : ℤ) (random : ℕ) : String × List String :=
  if nodes.length = 0 then ("", nodes)
  else if index ≥ nodes.length then ("", nodes)
  else
    let i := if index ≥ 0 then index.toNat else random % nodes.length
    (nodes.getD i "", nodes.eraseIdx i)

/-- `SelectInt`. -/
def selectInt (opt default : ℤ) : ℤ := if opt = 0 then default else opt

/-! ### The join sender -/

/-- An error of a join: one of a fixed text, or that of `maxJoinDuration`. -/
inductive JoinError where
  | text (message : String)
  | durationExceeded (joinDuration maxJoinDuration : ℤ)
deriving DecidableEq, Repr

/-- The events of a join, without the times. -/
inductive JoinEvent where
  | triesUpdate (numTries : ℕ)
  | failedDestroyed
  | failedError (err : JoinError)
  | complete (numJoined : ℕ) (joined : List String)
deriving DecidableEq, Repr

/-- `joinOpts`; the hosts of the provider, if there is one, or its error. -/
structure JoinOpts where
  size : ℤ
  maxJoinDuration : ℤ
  parallelismFactor : ℤ
  discoverProvider : Option (Except String (List String))

/-- `joinSender`. -/
structure JoinSender where
  node : Node
  bootstrapHostsMap : Groups String String
  parallelismFactor : ℤ
  maxJoinDuration : ℤ
  potentialNodes : List String
  preferredNodes : List String
  nonPreferredNodes : List String
  size : ℤ
  roundPotentialNodes : List String
  roundPreferredNodes : List String
  roundNonPreferredNodes : List String
  numTries : ℕ
  emitted : List JoinEvent

/-- The orders in which the map of hosts is enumerated. -/
structure HostOrders where
  potential : Arrangement (String × List String)
  preferred : Arrangement (String × List String)

/-- One time round the loop of `JoinCluster`: the node may have been destroyed; the orders and
the numbers that are drawn, the order in which the requests of the group end, and for each
of them the membership of the response, if it did not fail; how long the join has taken. -/
structure JoinAttempt where
  destroyed : Bool
  orders : HostOrders
  random : ℕ → ℕ
  finish : Arrangement String
  response : ℕ → Option Batch
  joinDuration : ℤ

namespace JoinSender

/-- `CollectPotentialNodes`. -/
def collectPotentialNodes (j : JoinSender) (o : HostOrders) (nodesJoined : List String) :
    List String :=
  ((o.potential.arrange j.bootstrapHostsMap).flatMap Prod.snd).filter fun hostport =>
    j.node.address ≠ hostport && hostport ∉ nodesJoined

/-- `CollectPreferredNodes`. -/
def collectPreferredNodes (j : JoinSender) (o : HostOrders) : List String :=
  ((o.preferred.arrange j.bootstrapHostsMap).filter fun e =>
    e.1 ≠ captureHost j.node.address).flatMap Prod.snd

/-- `CollectNonPreferredNodes`. -/
def collectNonPreferredNodes (j : JoinSender) : List String :=
  if j.preferredNodes.length = 0 then j.potentialNodes
  else
    (j.bootstrapHostsMap.get (captureHost j.node.address)).filter fun host => host ≠ j.node.address

/-- `newJoinSender`. -/
def new (node : Node) (opts : JoinOpts) (o : HostOrders) : Except JoinError JoinSender :=
  match opts.discoverProvider with
  | none => throw (.text "missing host provider in join options")
  | some (.error err) => throw (.text err)
  | some (.ok bootstrapHosts) =>
      if bootstrapHosts.length = 0 then throw (.text "bootstrap hosts cannot be empty")
      else
        let j : JoinSender :=
          ⟨node, hostPortsByHost bootstrapHosts, selectInt opts.parallelismFactor 2,
            selectInt opts.maxJoinDuration 120000000000, [], [], [], 0, [], [], [], 0, []⟩
        let potentialNodes := j.collectPotentialNodes o []
        return { j with
          potentialNodes := potentialNodes
          size := min (selectInt opts.size 3) potentialNodes.length }

/-- `Init`. -/
def init (j : JoinSender) (o : HostOrders) (nodesJoined : List String) : JoinSender :=
  let j := { j with potentialNodes := j.collectPotentialNodes o nodesJoined }
  let j := { j with preferredNodes := j.collectPreferredNodes o }
  let j := { j with nonPreferredNodes := j.collectNonPreferredNodes }
  { j with
    roundPotentialNodes := j.roundPotentialNodes ++ j.potentialNodes
    roundPreferredNodes := j.roundPreferredNodes ++ j.preferredNodes
    roundNonPreferredNodes := j.roundNonPreferredNodes ++ j.nonPreferredNodes }

/-- The loop of `SelectGroup`.  Each time round a node is taken, so there are not more times
than nodes. -/
def selectLoop (random : ℕ → ℕ) (numNodesLeft : ℤ) :
    ℕ → JoinSender → List String → List String × JoinSender
  | 0, j, group => (group, j)
  | fuel + 1, j, group =>
      if group.length = numNodesLeft * j.parallelismFactor then (group, j)
      else if j.roundPreferredNodes.length > 0 then
        let (node, nodes) := takeNode j.roundPreferredNodes (-1) (random group.length)
        selectLoop random numNodesLeft fuel { j with roundPreferredNodes := nodes }
          (group ++ [node])
      else if j.roundNonPreferredNodes.length > 0 then
        let (node, nodes) := takeNode j.roundNonPreferredNodes (-1) (random group.length)
        selectLoop random numNodesLeft fuel { j with roundNonPreferredNodes := nodes }
          (group ++ [node])
      else (group, j)

/-- `SelectGroup`. -/
def selectGroup (j : JoinSender) (o : HostOrders) (random : ℕ → ℕ) (nodesJoined : List String) :
    List String × JoinSender :=
  -- if fully exhausted or first round, initialize this round's nodes
  let j := if j.roundPreferredNodes.length = 0 && j.roundNonPreferredNodes.length = 0 then
    j.init o nodesJoined else j
  let numNodesLeft := j.size - nodesJoined.length
  selectLoop random numNodesLeft
    (j.roundPreferredNodes.length + j.roundNonPreferredNodes.length) j []

/-- The request to one node of the group has ended: it is put to the nodes that were joined, or
to those that have failed. -/
def joinNode (pr : Primitives) (response : ℕ → Option Batch)
    (s : (List String × List String) × JoinSender) (e : String × ℕ) :
    Except Fault ((List String × List String) × JoinSender) :=
  match response e.2 with
  | none => return ((s.1.1, s.1.2 ++ [e.1]), s.2)
  | some membership => do
      let node ← s.2.node.addJoinList pr membership
      return ((s.1.1 ++ [e.1], s.1.2), { s.2 with node := node })

/-- `JoinGroup`. -/
def joinGroup (pr : Primitives) (j : JoinSender) (a : JoinAttempt) (nodesJoined : List String) :
    Except Fault ((List String × List String) × JoinSender) :=
  let (group, j) := j.selectGroup a.orders a.random nodesJoined
  let numTries := j.numTries + 1
  let j := { j with numTries := numTries, emitted := j.emitted ++ [.triesUpdate numTries] }
  (a.finish.arrange group).zipIdx.foldlM (joinNode pr a.response) (([], []), j)

end JoinSender

/-- The variables of the loop of `JoinCluster`. -/
structure Joining where
  sender : JoinSender
  nodesJoined : List String
  numJoined : ℕ

/-- How the loop of `JoinCluster` ends: with its result, or in a fault. -/
inductive JoinEnd where
  | returned (nodesJoined : List String) (err : Option JoinError) (sender : JoinSender)
  | faulted (fault : Fault)

namespace Joining

/-- One time round the loop of `JoinCluster`. -/
def step (pr : Primitives) (s : Joining) (a : JoinAttempt) : Except JoinEnd Joining :=
  if a.destroyed then
    throw (.returned [] (some (.text "node destroyed while attempting to join cluster"))
      { s.sender with emitted := s.sender.emitted ++ [.failedDestroyed] })
  else do
    -- join group of nodes
    let ((successes, _), j) ← (s.sender.joinGroup pr a s.nodesJoined).mapError .faulted
    let nodesJoined := s.nodesJoined ++ successes
    let numJoined := s.numJoined + successes.length
    if (numJoined : ℤ) ≥ j.size then
      throw (.returned nodesJoined none
        { j with emitted := j.emitted ++ [.complete numJoined nodesJoined] })
    else if a.joinDuration > j.maxJoinDuration then
      let err := .durationExceeded a.joinDuration j.maxJoinDuration
      throw (.returned nodesJoined (some err)
        { j with emitted := j.emitted ++ [.failedError err] })
    else return ⟨j, nodesJoined, numJoined⟩

/-- What one time round the loop of `JoinCluster` can come to. -/
inductive Step (pr : Primitives) (s : Joining) (a : JoinAttempt) : Except JoinEnd Joining → Prop
  | destroyed (ha : a.destroyed = true) {err : JoinError} : Step pr s a (.error (.returned []
      (some err) { s.sender with emitted := s.sender.emitted ++ [.failedDestroyed] }))
  | faulted {fault : Fault} (ha : a.destroyed = false)
      (hgroup : s.sender.joinGroup pr a s.nodesJoined = .error fault) :
      Step pr s a (.error (.faulted fault))
  | complete {successes failures : List String} {j : JoinSender} {event : JoinEvent}
      (ha : a.destroyed = false)
      (hgroup : s.sender.joinGroup pr a s.nodesJoined = .ok ((successes, failures), j))
      (hsize : j.size ≤ (s.numJoined + successes.length : ℕ)) :
      Step pr s a (.error (.returned (s.nodesJoined ++ successes) none
        { j with emitted := j.emitted ++ [event] }))
  | exceeded {successes failures : List String} {j : JoinSender} {err : JoinError}
      (ha : a.destroyed = false)
      (hgroup : s.sender.joinGroup pr a s.nodesJoined = .ok ((successes, failures), j)) :
      Step pr s a (.error (.returned (s.nodesJoined ++ successes) (some err)
        { j with emitted := j.emitted ++ [.failedError err] }))
  | again {successes failures : List String} {j : JoinSender} (ha : a.destroyed = false)
      (hgroup : s.sender.joinGroup pr a s.nodesJoined = .ok ((successes, failures), j)) :
      Step pr s a (.ok ⟨j, s.nodesJoined ++ successes, s.numJoined + successes.length⟩)

/-- **One time round the loop** comes to one of these. -/
theorem step_spec (pr : Primitives) (s : Joining) (a : JoinAttempt) :
    Step pr s a (s.step pr a) := by
  rw [step]
  cases ha : a.destroyed with
  | true => exact .destroyed ha
  | false =>
    cases hgroup : s.sender.joinGroup pr a s.nodesJoined with
    | error fault => exact .faulted ha hgroup
    | ok r =>
      obtain ⟨⟨successes, failures⟩, j⟩ := r
      simp only [Bool.false_eq_true, if_false, Except.mapError, Bind.bind, Except.bind]
      split_ifs with hsize hduration
      · exact .complete ha hgroup hsize
      · exact .exceeded ha hgroup
      · exact .again ha hgroup

end Joining

/-- `JoinCluster`: its end, or where it is when the attempts are over. -/
def JoinSender.joinCluster (pr : Primitives) (j : JoinSender) (attempts : List JoinAttempt) :
    Except JoinEnd Joining :=
  if singleNodeCluster j.node.address j.bootstrapHostsMap then throw (.returned [] none j)
  else attempts.foldlM (Joining.step pr) ⟨j, [], 0⟩

end Swim
end Ringpop
