/-
# A node

`swim/node.go` with the parts of the protocol that a node runs by itself: what it does
with the changes it applied, the changes it makes, and how it answers and sends pings,
ping requests and joins.  A call over the network is cut in two where it waits: the
message that is sent, and what follows when the call returns.

`Primitives` is what the code takes from libraries: `farm.Fingerprint32`, and
`int(math.Ceil(math.Log(float64(n)) / log10))`, a computation with floats that is left
open.  What `emit` is given is kept in `emitted`, without durations; the logs are left
out, and with them the call of `TrackUpdates`, which is about what is logged
(`Ringpop.Swim.Rollup`).
-/

import Ringpop.Swim.Disseminator
import Ringpop.Swim.Memberlist
import Ringpop.Swim.Suspicion

namespace Ringpop
namespace Swim

open CellStore Reorder

/-- `farm.Fingerprint32`, and the logarithm to base ten, rounded up. -/
structure Primitives where
  fingerprint32 : String → UInt32
  ceilLog10 : ℕ → ℕ

/-- The events that a node emits. -/
inductive NodeEvent where
  | memberlist (event : MemberlistEvent)
  | makeNodeStatus (status : String)
  | maxPAdjusted (prevMax newMax : ℕ)
  | changesCalculated (changes : List Change)
  | changeFiltered (change : Change)
  | fullSync (remote : String) (remoteChecksum : UInt32)
  | requestBeforeReady (endpoint : String)
  | pingSend (localAddress remote : String) (changes : List Change)
  | pingSendComplete (localAddress remote : String) (changes : List Change)
  | pingReceive (localAddress source : String) (changes : List Change)
  | pingRequestReceive (localAddress source target : String) (changes : List Change)
  | pingRequestPing (localAddress source target : String)
  | joinReceive (localAddress source : String)
deriving DecidableEq, Repr

/-- `Node`. -/
structure Node where
  app : String
  address : String
  ready : Bool
  stopped : Bool
  memberlist : Memberlist
  disseminator : Disseminator
  suspicion : Suspicion
  emitted : List NodeEvent

/-- `ping`, a request or its response. -/
structure Ping where
  changes : List Change
  checksum : UInt32
  source : String
  sourceIncarnation : ℤ

/-- `pingRequest`. -/
structure PingRequest where
  source : String
  sourceIncarnation : ℤ
  target : String
  checksum : UInt32
  changes : List Change

/-- `pingResponse`. -/
structure PingResponse where
  ok : Bool
  target : String
  changes : List Change

/-- `joinRequest`. -/
structure JoinRequest where
  app : String
  source : String
  incarnation : ℤ

/-- `joinResponse`. -/
structure JoinResponse where
  app : String
  coordinator : String
  membership : List Change
  checksum : UInt32

/-- `ErrNodeNotReady`. -/
def errNodeNotReady : String := "node is not ready to handle requests"

namespace Node

/-- `NewNode`. -/
def new (app address : String) : Node where
  app := app
  address := address
  ready := false
  stopped := false
  memberlist := .new
  disseminator := .new
  suspicion := .new
  emitted := []

/-- `emit`. -/
def emit (n : Node) (events : List NodeEvent) : Node := { n with emitted := n.emitted ++ events }

/-- `Incarnation`. -/
def incarnation (n : Node) : ℤ :=
  ((n.memberlist.localMember.bind n.memberlist.store.cell).map Member.incarnation).getD (-1)

/-- `Start`, without the gossip. -/
def start (n : Node) : Node := { n with suspicion := n.suspicion.reenable, stopped := false }

/-- `Stop`, without the gossip. -/
def stop (n : Node) : Node := { n with suspicion := n.suspicion.disable, stopped := true }

/-! ### Changes -/

/-- `AdjustMaxPropagations`. -/
def adjustMaxPropagations (pr : Primitives) (n : Node) : Except Fault Node := do
  let numPingable ← n.memberlist.numPingableMembers
  let prevMaxP := n.disseminator.maxP
  let newMaxP := n.disseminator.pFactor * pr.ceilLog10 (numPingable + 1)
  if newMaxP ≠ prevMaxP then
    return emit { n with disseminator := { n.disseminator with maxP := newMaxP } }
      [.maxPAdjusted prevMaxP newMaxP]
  return n

/-- The body of the loop of `handleChanges`. -/
def handleChange (pr : Primitives) (n : Node) (change : Change) : Except Fault Node :=
  let n := { n with disseminator := n.disseminator.recordChange change }
  let stopped := { n with suspicion := n.suspicion.stop change.address }
  let started := { n with
    suspicion := n.suspicion.start n.address change.address change.incarnation }
  if change.status = alive then stopped.adjustMaxPropagations pr
  else if change.status = faulty then return stopped
  else if change.status = suspect then started.adjustMaxPropagations pr
  else if change.status = leave then stopped.adjustMaxPropagations pr
  else return n

/-- `handleChanges`. -/
def handleChanges (pr : Primitives) (n : Node) (changes : List Change) : Except Fault Node :=
  changes.foldlM (handleChange pr) n

/-- `memberlist.Update`, with what follows the emission.  Returns what was applied. -/
def update (pr : Primitives) (n : Node) (b : Batch) : Except Fault (List Change × Node) := do
  let st ← n.memberlist.update pr.fingerprint32 n.address n.stopped b.choices b.changes
  let n := emit { n with memberlist := st.memberlist } (st.emitted.map .memberlist)
  let n ← n.handleChanges pr st.applied
  return (st.applied, n)

/-- `MakeChange`.  `timeNowMS` is the reading of the clock for a local member. -/
def makeChange (pr : Primitives) (n : Node) (timeNowMS : ℤ) (choices : ℕ → Choice)
    (address : String) (incarnation : ℤ) (status : String) : Except Fault (List Change × Node) := do
  let m := n.memberlist.ensureLocal n.address timeNowMS
  let localMember ← m.getLocal
  update pr { n with memberlist := m }
    ⟨[⟨localMember.address, localMember.incarnation, address, incarnation, status⟩], choices⟩

/-- The four functions that make a change of one status. -/
def makeStatus (status : String) (pr : Primitives) (n : Node) (timeNowMS : ℤ)
    (choices : ℕ → Choice) (address : String) (incarnation : ℤ) :
    Except Fault (List Change × Node) :=
  (n.emit [.makeNodeStatus status]).makeChange pr timeNowMS choices address incarnation status

/-- `MakeAlive`. -/
def makeAlive := makeStatus alive

/-- `MakeSuspect`. -/
def makeSuspect := makeStatus suspect

/-- `MakeFaulty`. -/
def makeFaulty := makeStatus faulty

/-- `MakeLeave`. -/
def makeLeave := makeStatus leave

/-- `Reincarnate`, at the reading `now` of the node's clock. -/
def reincarnate (pr : Primitives) (n : Node) (now timeNowMS : ℤ) (choices : ℕ → Choice) :
    Except Fault (List Change × Node) :=
  n.makeAlive pr timeNowMS choices n.address now

/-- `adminLeaveHandler`. -/
def adminLeave (pr : Primitives) (n : Node) (timeNowMS : ℤ) (choices : ℕ → Choice) :
    Except Fault (List Change × Node) := do
  let localMember ← n.memberlist.getLocal
  n.makeLeave pr timeNowMS choices n.address localMember.incarnation

/-- The function of the suspicion timer of an address, when it goes off. -/
def fire (pr : Primitives) (n : Node) (timeNowMS : ℤ) (choices : ℕ → Choice) (address : String) :
    Except Fault (List Change × Node) :=
  match n.suspicion.timers address with
  | some ⟨incarnation, false⟩ =>
      makeFaulty pr { n with suspicion := n.suspicion.fire address } timeNowMS choices address
        incarnation
  | _ => return ([], n)

/-- `AddJoinList`. -/
def addJoinList (pr : Primitives) (n : Node) (list : Batch) : Except Fault Node := do
  let (applied, n) ← n.update pr list
  let disseminator := applied.foldl (fun (d : Disseminator) member =>
    if member.address = n.address then d else d.clearChange member.address) n.disseminator
  return { n with disseminator := disseminator }

/-! ### Issuing changes -/

/-- `FullSync`. -/
def fullSync (n : Node) : List Change :=
  n.memberlist.getMembers.map fun member =>
    ⟨n.address, n.incarnation, member.address, member.incarnation, member.status⟩

/-- `issueChanges`, with its event. -/
def issueChanges (n : Node) (o : Arrangement Change) : List Change × Node :=
  let changes := n.disseminator.issueChanges o
  (changes, n.emit [.changesCalculated changes])

/-- The callback of `IssueAsSender`. -/
def bumpPiggybackCounters (n : Node) (changes : List Change) : Node :=
  { n with disseminator := n.disseminator.bumpPiggybackCounters changes }

/-- `IssueAsReceiver`.  Returns the changes, and whether they are a full sync. -/
def issueAsReceiver (n : Node) (o : Arrangement Change) (senderAddress : String)
    (senderIncarnation : ℤ) (senderChecksum : UInt32) :
    Except Fault ((List Change × Bool) × Node) := do
  let (changes, n) := n.issueChanges o
  let (changes, filtered) ← filterChangesFromSender changes senderAddress senderIncarnation
  let n := (n.emit (filtered.map .changeFiltered)).bumpPiggybackCounters changes
  if changes.length > 0 || n.memberlist.checksum = senderChecksum then
    return ((changes, false), n)
  return ((n.fullSync, true), n.emit [.fullSync senderAddress senderChecksum])

/-! ### Pings, ping requests and joins -/

/-- `handlePing`. -/
def handlePing (pr : Primitives) (n : Node) (choices : ℕ → Choice) (o : Arrangement Change)
    (req : Ping) : Except Fault (Except String Ping × Node) := do
  if n.ready = false then
    return (.error errNodeNotReady, n.emit [.requestBeforeReady "ping"])
  let (_, n) ← (n.emit [.pingReceive n.address req.source req.changes]).update pr
    ⟨req.changes, choices⟩
  let ((changes, _), n) ← n.issueAsReceiver o req.source req.sourceIncarnation req.checksum
  return (.ok ⟨changes, n.memberlist.checksum, n.address, n.incarnation⟩, n)

/-- `pingSender.MakeCall`, until the call: the ping that is sent. -/
def sendPing (n : Node) (o : Arrangement Change) (target : String) : Ping × Node :=
  let (changes, n) := n.issueChanges o
  (⟨changes, n.memberlist.checksum, n.address, n.incarnation⟩,
    n.emit [.pingSend n.address target changes])

/-- `pingSender.MakeCall`, when the call of the ping `req` has returned. -/
def pingReturned (n : Node) (target : String) (req : Ping) (failed : Bool) : Node :=
  if failed then n
  else (n.bumpPiggybackCounters req.changes).emit [.pingSendComplete n.address target req.changes]

/-- `pingRequestSender.MakeCall`, until the call: the ping request that is sent. -/
def sendPingRequest (n : Node) (o : Arrangement Change) (target : String) : PingRequest × Node :=
  let (changes, n) := n.issueChanges o
  (⟨n.address, n.incarnation, target, n.memberlist.checksum, changes⟩, n)

/-- `pingRequestSender.MakeCall`, when the call of the ping request `req` has
returned. -/
def pingRequestReturned (n : Node) (req : PingRequest) (failed : Bool) : Node :=
  if failed then n.bumpPiggybackCounters req.changes else n

/-- `handlePingRequest`, until it pings the target. -/
def receivePingRequest (pr : Primitives) (n : Node) (choices : ℕ → Choice) (req : PingRequest) :
    Except Fault (Except String Unit × Node) := do
  if n.ready = false then
    return (.error errNodeNotReady, n.emit [.requestBeforeReady "ping-req"])
  let (_, n) ← (n.emit [.pingRequestReceive n.address req.source req.target req.changes]).update pr
    ⟨req.changes, choices⟩
  return (.ok (), n)

/-- The end of `handlePingRequest`. -/
def respondPingRequest (n : Node) (o : Arrangement Change) (req : PingRequest) (pingOk : Bool) :
    Except Fault (PingResponse × Node) := do
  let ((changes, _), n) ← n.issueAsReceiver o req.source req.sourceIncarnation req.checksum
  return (⟨pingOk, req.target, changes⟩, n)

/-- `handlePingRequest`, with the response of the target, if there was one. -/
def answerPingRequest (pr : Primitives) (n : Node) (choices : ℕ → Choice) (o : Arrangement Change)
    (req : PingRequest) : Option Ping → Except Fault (PingResponse × Node)
  | none => n.respondPingRequest o req false
  | some res => do
      let (_, n) ← (n.emit [.pingRequestPing n.address req.source req.target]).update pr
        ⟨res.changes, choices⟩
      n.respondPingRequest o req true

/-- `joinSender.MakeCall`: the request that is sent. -/
def sendJoin (n : Node) : JoinRequest := ⟨n.app, n.address, n.incarnation⟩

/-- `validateSourceAddress`. -/
def validateSourceAddress (n : Node) (sourceAddress : String) : Except String Unit :=
  if n.address = sourceAddress then
    throw ("A node tried joining a cluster by attempting to join itself. The node ," ++
      sourceAddress ++ ", must join someone else.")
  else return ()

/-- `validateSourceApp`. -/
def validateSourceApp (n : Node) (sourceApp : String) : Except String Unit :=
  if n.app ≠ sourceApp then
    throw ("A node tried joining a different app cluster. The expected app, " ++ n.app ++
      ", did not match the actual app ," ++ sourceApp)
  else return ()

/-- `handleJoin`. -/
def handleJoin (n : Node) (req : JoinRequest) : Except String JoinResponse × Node :=
  let n := n.emit [.joinReceive n.address req.source]
  let res := do
    n.validateSourceAddress req.source
    n.validateSourceApp req.app
    return ⟨n.app, n.address, n.fullSync, n.memberlist.checksum⟩
  (res, n)

end Node

end Swim
end Ringpop
