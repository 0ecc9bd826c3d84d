/-
# A cluster of nodes

The handlers that `swim/handlers.go` registers, with `swim/join_handler.go`,
`swim/ping_handler.go` and `swim/ping_request_handler.go` behind them, and the calls that
`swim/join_sender.go`, `swim/ping_sender.go` and `swim/ping_request_sender.go` make, put
together to a system; the functions themselves are in `Ringpop.Swim.Node`.

One process for each address, and the messages between them.  Nothing is ever taken
from the network: a message may be delivered at any time, several times, or not at
all.  A function of a node runs as a whole; where it waits for the answer to a call it
is cut in two, and the call remembers the life of the process that waits, so that an
answer to a process that is gone is not delivered to the one that came after it.  A
process that runs into a fault ends, and a new one takes its address.

The `Ledger` is not part of the system.  It notes what a process did on its own: the
incarnations of its `Reincarnate`s and of its refutations, and the incarnations at which
it was told to leave.
-/

import Ringpop.Swim.Node

namespace Ringpop
namespace Swim

open CellStore Reorder

/-- A message, a call or the answer to it.  A ping that is sent for a ping request comes
with that request and the life of its sender. -/
inductive Message where
  | joinRequest (life : ℕ) (target : String) (req : JoinRequest)
  | joinResponse (life : ℕ) (req : JoinRequest) (res : JoinResponse)
  | ping (life : ℕ) (target : String) (req : Ping) (helped : Option (ℕ × PingRequest))
  | pingResponse (life : ℕ) (target : String) (req : Ping) (helped : Option (ℕ × PingRequest))
      (res : Ping)
  | pingRequest (life : ℕ) (peer : String) (req : PingRequest)
  | pingRequestResponse (life : ℕ) (req : PingRequest) (res : PingResponse)

/-- What processes did on their own, with their addresses: the incarnations that they
generated, and those at which they were told to leave. -/
structure Ledger where
  generated : List (String × ℤ)
  left : List (String × ℤ)

/-- The processes and the network. -/
structure Cluster extends Ledger where
  app : String → String
  node : String → Node
  life : String → ℕ
  network : List Message

/-- What may happen next.  A node may ping any address, and suspect any member but
itself.  `deliver` and `fail` are about the message at a place of the
network; `fail` is a call that returns an error to its caller. -/
inductive Action where
  | restart (x : String)
  | reincarnate (x : String) (now timeNowMS : ℤ) (choices : ℕ → Choice)
  | ready (x : String)
  | sendJoin (x target : String)
  | sendPing (x : String) (o : Arrangement Change) (target : String)
  | sendPingRequest (x : String) (o : Arrangement Change) (peer target : String)
  | deliver (i : ℕ) (choices : ℕ → Choice) (o : Arrangement Change)
  | fail (i : ℕ) (choices : ℕ → Choice) (o : Arrangement Change)
  | suspect (x : String) (timeNowMS : ℤ) (choices : ℕ → Choice) (target : String)
  | fire (x : String) (timeNowMS : ℤ) (choices : ℕ → Choice) (address : String)
  | adminLeave (x : String) (timeNowMS : ℤ) (choices : ℕ → Choice)
  | shuffle (x : String) (o : Arrangement ℕ)

/-- The refutations that `Update` makes of a batch: what it applies and was not given. -/
def Node.refutations (n : Node) (b : Batch) : List Change :=
  match n.memberlist.applyChanges n.address b.choices b.changes with
  | .ok st => st.applied.filter (· ∉ b.changes)
  | .error _ => []

namespace Cluster

/-- A process at each address, none of which has bootstrapped. -/
def new (app : String → String) : Cluster where
  app := app
  node x := .new (app x) x
  life _ := 0
  network := []
  generated := []
  left := []

/-- The process at `x` goes on as `n`. -/
def set (s : Cluster) (x : String) (n : Node) : Cluster :=
  { s with node := Function.update s.node x n }

/-- A message more. -/
def send (s : Cluster) (m : Message) : Cluster := { s with network := s.network ++ [m] }

/-- A new process at `x`. -/
def restart (s : Cluster) (x : String) : Cluster :=
  { s with
    node := Function.update s.node x (.new (s.app x) x)
    life := Function.update s.life x (s.life x + 1) }

/-- Note the refutations that the process at `x` makes of a batch. -/
def note (s : Cluster) (x : String) (b : Batch) : Cluster :=
  { s with generated := s.generated ++ ((s.node x).refutations b).map fun c => (x, c.incarnation) }

/-- What follows a function of the process at `x`, if it returns. -/
def attempt {α : Type} (s : Cluster) (x : String) (r : Except Fault α) (f : α → Cluster) :
    Cluster :=
  match r with
  | .ok a => f a
  | .error _ => s.restart x

/-- `Bootstrap` has come as far as its `Reincarnate`. -/
def joined (s : Cluster) (x : String) : Bool := ((s.node x).memberlist.entry x).isSome

/-- A message arrives. -/
def deliver (pr : Primitives) (s : Cluster) (choices : ℕ → Choice) (o : Arrangement Change) :
    Message → Cluster
  | .joinRequest life target req =>
      let (res, n) := (s.node target).handleJoin req
      match res with
      | .ok res => (s.set target n).send (.joinResponse life req res)
      | .error _ => s.set target n
  | .joinResponse life req res =>
      if s.life req.source = life then
        s.attempt req.source ((s.node req.source).addJoinList pr ⟨res.membership, choices⟩)
          fun n => (s.note req.source ⟨res.membership, choices⟩).set req.source n
      else s
  | .ping life target req helped =>
      s.attempt target ((s.node target).handlePing pr choices o req) fun (res, n) =>
        match res with
        | .ok res => ((s.note target ⟨req.changes, choices⟩).set target n).send
            (.pingResponse life target req helped res)
        | .error _ => s.set target n
  | .pingResponse life target req helped res =>
      if s.life req.source = life then
        let n := (s.node req.source).pingReturned target req false
        let s' := s.note req.source ⟨res.changes, choices⟩
        match helped with
        | none =>
            -- `pingNextMember`
            s.attempt req.source (n.update pr ⟨res.changes, choices⟩) fun (_, n) =>
              s'.set req.source n
        | some (life', req') =>
            -- the end of `handlePingRequest`
            s.attempt req.source (n.answerPingRequest pr choices o req' (some res))
              fun (res', n) => (s'.set req.source n).send (.pingRequestResponse life' req' res')
      else s
  | .pingRequest life peer req =>
      s.attempt peer ((s.node peer).receivePingRequest pr choices req) fun (res, n) =>
        match res with
        | .ok _ =>
            let (ping, n) := n.sendPing o req.target
            ((s.note peer ⟨req.changes, choices⟩).set peer n).send
              (.ping (s.life peer) req.target ping (some (life, req)))
        | .error _ => s.set peer n
  | .pingRequestResponse life req res =>
      if s.life req.source = life then
        s.attempt req.source (((s.node req.source).pingRequestReturned req false).update pr
            ⟨res.changes, choices⟩)
          fun (_, n) => (s.note req.source ⟨res.changes, choices⟩).set req.source n
      else s

/-- A call fails at its caller. -/
def fail (pr : Primitives) (s : Cluster) (choices : ℕ → Choice) (o : Arrangement Change) :
    Message → Cluster
  | .ping life target req (some (life', req')) =>
      if s.life req.source = life then
        s.attempt req.source (((s.node req.source).pingReturned target req true).answerPingRequest
            pr choices o req' none)
          fun (res', n) => (s.set req.source n).send (.pingRequestResponse life' req' res')
      else s
  | .pingRequest life _ req =>
      if s.life req.source = life then
        s.set req.source ((s.node req.source).pingRequestReturned req true)
      else s
  | _ => s

/-- One action.  An action that is not possible changes nothing. -/
def step (pr : Primitives) (s : Cluster) : Action → Cluster
  | .restart x => s.restart x
  | .reincarnate x now t choices =>
      -- the start of `Bootstrap`, or `adminJoinHandler`
      s.attempt x ((s.node x).reincarnate pr now t choices) fun (_, n) =>
        { s.set x n with generated := s.generated ++ [(x, now)] }
  | .ready x => if s.joined x then s.set x { s.node x with ready := true } else s
  | .sendJoin x target =>
      if s.joined x then s.send (.joinRequest (s.life x) target (s.node x).sendJoin) else s
  | .sendPing x o target =>
      if s.joined x then
        let (req, n) := (s.node x).sendPing o target
        (s.set x n).send (.ping (s.life x) target req none)
      else s
  | .sendPingRequest x o peer target =>
      if s.joined x then
        let (req, n) := (s.node x).sendPingRequest o target
        (s.set x n).send (.pingRequest (s.life x) peer req)
      else s
  | .deliver i choices o =>
      match s.network[i]? with
      | some m => s.deliver pr choices o m
      | none => s
  | .fail i choices o =>
      match s.network[i]? with
      | some m => s.fail pr choices o m
      | none => s
  | .suspect x t choices target =>
      -- the end of `pingNextMember`, whose member is a pointer into the list
      match (s.node x).memberlist.entry target with
      | some member =>
          if target = x then s
          else s.attempt x ((s.node x).makeSuspect pr t choices target member.incarnation)
            fun (_, n) => s.set x n
      | none => s
  | .fire x t choices address =>
      s.attempt x ((s.node x).fire pr t choices address) fun (_, n) => s.set x n
  | .adminLeave x t choices =>
      s.attempt x ((s.node x).adminLeave pr t choices) fun (_, n) =>
        { s.set x n with left := s.left ++ [(x, (s.node x).incarnation)] }
  | .shuffle x o =>
      s.set x { s.node x with memberlist := (s.node x).memberlist.shuffle o }

/-- A run of the cluster. -/
def run (pr : Primitives) (s : Cluster) (actions : List Action) : Cluster :=
  actions.foldl (step pr) s

end Cluster

end Swim
end Ringpop
