/-
# The member list

`swim/memberlist.go`.  The list and the map `byAddress` hold pointers to the same
members, so the members are cells of a store and both hold their addresses in it;
`entry` is the member that the map finds.

`Update` takes the address of its node and whether the node is stopped, and two
things that the code asks for while it runs: the reading of the clock for a
refutation and the random number for the place of a new member, one `Choice` for
each change of the batch.  `applyChanges` is the part of `Update` under the lock of
the members.  What `emit` is given is returned with the result; the durations of
the events are left out.  What follows the emission does not write the member list:
the node's own `handleChanges` is in `Ringpop.Swim.Node`, and the rollup only keeps
statistics.
-/

import Ringpop.Collections.Reorder
import Ringpop.Swim.Member
import Mathlib.Data.List.Sort
import Mathlib.Data.UInt

namespace Ringpop
namespace Swim

open CellStore

/-- The events of the member list: `MemberlistChangesReceivedEvent`,
`RefuteUpdateEvent`, `ChecksumComputeEvent` and
`MemberlistChangesAppliedEvent`. -/
inductive MemberlistEvent where
  | changesReceived (changes : List Change)
  | refuteUpdate
  | checksumCompute (checksum : UInt32)
  | changesApplied (changes : List Change) (oldChecksum newChecksum : UInt32) (numMembers : ℕ)
deriving DecidableEq, Repr

/-- `memberlist`, with the store its members live in. -/
structure Memberlist where
  store : Store Member
  list : List ℕ
  byAddress : String → Option ℕ
  localMember : Ptr
  checksum : UInt32

/-- What the code asks for while it handles one change: `nowInMillis` of the
node's clock, and a random number. -/
structure Choice where
  now : ℤ
  random : ℕ

namespace Memberlist

/-- `newMemberlist`. -/
def new : Memberlist where
  store := Store.empty
  list := []
  byAddress _ := none
  localMember := none
  checksum := 0

/-- The member of an address, if there is one: `Member`. -/
def entry (m : Memberlist) (address : String) : Option Member :=
  (m.byAddress address).bind m.store.cell

/-- `GenChecksumString`. -/
def genChecksumString (m : Memberlist) : String :=
  let strings := (m.list.filterMap m.store.cell).map fun member =>
    member.address ++ member.status ++ toString member.incarnation
  String.join ((strings.insertionSort (· ≤ ·)).map (· ++ ";"))

/-- `ComputeChecksum`. -/
def computeChecksum (fingerprint32 : String → UInt32) (m : Memberlist) : Memberlist :=
  { m with checksum := fingerprint32 m.genChecksumString }

/-- `NumMembers`. -/
def numMembers (m : Memberlist) : ℕ := m.list.length

/-- `getJoinPosition`, with the number that `rand.Intn` draws from. -/
def getJoinPosition (m : Memberlist) (random : ℕ) : ℕ :=
  if m.list.length = 0 then m.list.length else random % m.list.length

/-- The branch of `Apply` for an address that is not known.  Returns the new
member. -/
def addMember (localAddress : String) (choice : Choice) (m : Memberlist) (change : Change) :
    Memberlist × ℕ :=
  let p := m.store.next
  let i := m.getJoinPosition choice.random
  ({ m with
      store :=
        { next := p + 1
          cell := Function.update m.store.cell p
            (some ⟨change.address, change.status, change.incarnation⟩) }
      localMember := if change.address = localAddress then some p else m.localMember
      byAddress := Function.update m.byAddress change.address (some p)
      list := m.list.take i ++ p :: m.list.drop i }, p)

/-- Set the status and the incarnation of the member at `p`. -/
def setMember (m : Memberlist) (p : ℕ) (change : Change) : Memberlist :=
  { m with
    store :=
      { m.store with
        cell := Function.update m.store.cell p ((m.store.cell p).map fun member =>
          { member with status := change.status, incarnation := change.incarnation }) } }

/-- `Apply`. -/
def apply (localAddress : String) (choice : Choice) (m : Memberlist) (change : Change) :
    Memberlist :=
  match m.byAddress change.address with
  | some p => m.setMember p change
  | none =>
      let (m, p) := m.addMember localAddress choice change
      m.setMember p change

end Memberlist

/-- The variables of `Update`, and what has been emitted. -/
structure UpdateState where
  memberlist : Memberlist
  applied : List Change
  emitted : List MemberlistEvent

namespace UpdateState

/-- Apply a change and note it as applied. -/
def take (localAddress : String) (choice : Choice) (st : UpdateState) (change : Change) :
    UpdateState :=
  { st with
    memberlist := st.memberlist.apply localAddress choice change
    applied := st.applied ++ [change] }

/-- The body of the loop of `Update`. -/
def updateChange (localAddress : String) (st : UpdateState) (change : Change) (choice : Choice) :
    Except Fault UpdateState := do
  match st.memberlist.byAddress change.address with
  -- first time member has been seen, take change wholesale
  | none => return st.take localAddress choice change
  | some p =>
    match st.memberlist.store.cell p with
    | none => throw .nilDereference
    | some member =>
      -- if change is local override, reassert member is alive
      if member.localOverride localAddress change then
        let overrideChange := { change with incarnation := choice.now, status := alive }
        return take localAddress choice { st with emitted := st.emitted ++ [.refuteUpdate] }
          overrideChange
      -- if non-local override, apply change wholesale
      if ← member.nonLocalOverride change then return st.take localAddress choice change
      return st

end UpdateState

namespace Memberlist

/-- The loop of `Update`, which runs under the lock of the members. -/
def applyChanges (localAddress : String) (choices : ℕ → Choice) (m : Memberlist)
    (changes : List Change) : Except Fault UpdateState :=
  changes.zipIdx.foldlM (fun st (change, i) => st.updateChange localAddress change (choices i))
    ⟨m, [], []⟩

/-- `Update` up to `m.node.handleChanges`, with which `Node.update` goes on. -/
def update (fingerprint32 : String → UInt32) (localAddress : String) (stopped : Bool)
    (choices : ℕ → Choice) (m : Memberlist) (changes : List Change) :
    Except Fault UpdateState := do
  if stopped || changes.isEmpty then return ⟨m, [], []⟩
  let st ← m.applyChanges localAddress choices changes
  let emitted := [.changesReceived changes] ++ st.emitted
  if st.applied.length > 0 then
    let oldChecksum := st.memberlist.checksum
    let m := st.memberlist.computeChecksum fingerprint32
    return ⟨m, st.applied, emitted ++ [.checksumCompute m.checksum,
      .changesApplied st.applied oldChecksum m.checksum m.numMembers]⟩
  return ⟨st.memberlist, st.applied, emitted⟩

/-- `GetMembers`. -/
def getMembers (m : Memberlist) : List Member := m.list.filterMap m.store.cell

/-- `m.local`, dereferenced. -/
def getLocal (m : Memberlist) : Except Fault Member :=
  match m.localMember.bind m.store.cell with
  | none => throw .nilDereference
  | some member => return member

/-- `Pingable`. -/
def pingable (m : Memberlist) (member : Member) : Except Fault Bool := do
  let localMember ← m.getLocal
  return member.address ≠ localMember.address &&
    (member.status = alive || member.status = suspect)

/-- `NumPingableMembers`. -/
def numPingableMembers (m : Memberlist) : Except Fault ℕ :=
  m.getMembers.foldlM (fun n member => do
    if ← m.pingable member then return n + 1
    return n) 0

/-- What `m.node.handleChanges` asks of the member list at the end of `Update`: for every change
but a faulty one `AdjustMaxPropagations` counts the pingable members. -/
def countForChanges (m : Memberlist) (changes : List Change) : Except Fault Unit :=
  forM changes fun change =>
    if change.status = alive || change.status = suspect || change.status = leave then
      (fun _ => ()) <$> m.numPingableMembers
    else return ()

/-- The start of `MakeChange`: a local member that is in no list, where there is
none. -/
def ensureLocal (localAddress : String) (timeNowMS : ℤ) (m : Memberlist) : Memberlist :=
  match m.localMember with
  | some _ => m
  | none =>
      { m with
        store :=
          { next := m.store.next + 1
            cell := Function.update m.store.cell m.store.next
              (some ⟨localAddress, alive, timeNowMS⟩) }
        localMember := some m.store.next }

/-- `Shuffle`, with the permutation that is drawn. -/
def shuffle (o : Reorder.Arrangement ℕ) (m : Memberlist) : Memberlist :=
  { m with list := o.arrange m.list }

/-- `GetReachableMembers`. -/
def getReachableMembers (m : Memberlist) : List String :=
  ((m.list.filterMap m.store.cell).filter Member.isReachable).map Member.address

end Memberlist

/-- The changes of one call of `Update`, and what the code asks for meanwhile. -/
structure Batch where
  changes : List Change
  choices : ℕ → Choice

/-- A batch of one change, at incarnation `1`. -/
def Batch.single (address status : String) : Batch :=
  ⟨[⟨"s", 1, address, 1, status⟩], fun _ => ⟨9, 0⟩⟩

end Swim
end Ringpop
