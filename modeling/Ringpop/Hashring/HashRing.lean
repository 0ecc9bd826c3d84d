/-
# The hash ring

`hashring/hashring.go`, function by function.  A ring holds a set of servers and
a tree that binds each of their points, `hash(server ++ i)` for `i` below
`replicaPoints`, to the server.  Every public function of the source takes the
lock of the ring, so a call is one step here; the functions with `NoLock` in
their names are the bodies.

What the code takes from its surroundings is in `Platform`: the number of bits of
`int` and `farm.Fingerprint32`.  Go enumerates a map in an order that may differ
from one `range` to the next; a `MapOrder` is one choice, and every function that
ranges over a map takes one.  `emitted` is what `emit` has handed to the
listeners, in order.  Strings are hashed as strings, not as their bytes.
-/

import Ringpop.Hashring.RedBlackWalk
import Mathlib.Data.Finset.Sort

namespace Ringpop
namespace Hashring

open CellStore

/-- The events that a ring emits: `RingChecksumEvent` and `RingChangedEvent`. -/
inductive RingEvent where
  | ringChecksum (oldChecksum newChecksum : UInt32)
  | ringChanged (serversAdded serversRemoved : List String)
deriving DecidableEq, Repr

/-- The number of bits of `int`, and `farm.Fingerprint32`. -/
structure Platform where
  intSize : ℕ
  fingerprint32 : String → UInt32

/-- The sizes of `int` that Go allows. -/
inductive IntWidth where
  | bits32
  | bits64
deriving DecidableEq, Repr

def IntWidth.bits : IntWidth → ℕ
  | bits32 => 32
  | bits64 => 64

/-- A platform whose `int` has 64 bits. -/
def Platform.bits64 (fingerprint32 : String → UInt32) : Platform := ⟨64, fingerprint32⟩

/-- An order in which a map with string keys may be enumerated: each key
once. -/
structure MapOrder where
  keys : Finset String → List String
  nodup : ∀ s, (keys s).Nodup
  mem_keys : ∀ s x, x ∈ keys s ↔ x ∈ s

theorem MapOrder.toFinset_keys (o : MapOrder) (s : Finset String) : (o.keys s).toFinset = s := by
  ext x
  rw [List.mem_toFinset, o.mem_keys]

/-- The order of the strings, one of the orders in which a map may be
enumerated. -/
def MapOrder.sorted : MapOrder where
  keys s := s.sort (· ≤ ·)
  nodup s := s.sort_nodup (· ≤ ·)
  mem_keys s _ := s.mem_sort (· ≤ ·)

/-- An order that starts with the keys of a list, as far as the map has them. -/
def MapOrder.startingWith (l : List String) : MapOrder where
  keys s := l.dedup.filter (· ∈ s) ++ (s.filter (· ∉ l)).sort (· ≤ ·)
  nodup s := by
    refine ((List.nodup_dedup l).filter _).append ((s.filter (· ∉ l)).sort_nodup (· ≤ ·)) ?_
    intro x hx hx'
    rw [Finset.mem_sort, Finset.mem_filter] at hx'
    exact hx'.2 (List.mem_dedup.1 (List.mem_of_mem_filter hx))
  mem_keys s x := by
    rw [List.mem_append, List.mem_filter, List.mem_dedup, Finset.mem_sort, Finset.mem_filter,
      decide_eq_true_eq]
    tauto

/-- Every list of the keys of a map is in some order of it. -/
theorem MapOrder.keys_startingWith {l : List String} (hl : l.Nodup) :
    (startingWith l).keys l.toFinset = l := by
  have hmem : l.filter (· ∈ l.toFinset) = l :=
    List.filter_eq_self.2 fun x hx => decide_eq_true (List.mem_toFinset.2 hx)
  have hrest : l.toFinset.filter (· ∉ l) = ∅ :=
    Finset.filter_eq_empty_iff.2 fun x hx => not_not_intro (List.mem_toFinset.1 hx)
  show l.dedup.filter (· ∈ l.toFinset) ++ (l.toFinset.filter (· ∉ l)).sort (· ≤ ·) = l
  rw [hl.dedup, hmem, hrest, Finset.sort_empty, List.append_nil]

/-- `int(h)`, of a `uint32`. -/
def intOfUInt32 (w : ℕ) (h : UInt32) : ℤ := (h.toNat : ℤ).bmod (2 ^ w)

/-- `HashRing`. -/
structure HashRing where
  hashfunc : String → ℤ
  replicaPoints : ℤ
  serverSet : Finset String
  tree : RedBlackTree
  checksum : UInt32
  emitted : List RingEvent

namespace HashRing

/-- `New`. -/
def new (w : ℕ) (hashfunc : String → UInt32) (replicaPoints : ℤ) : HashRing where
  hashfunc str := intOfUInt32 w (hashfunc str)
  replicaPoints := replicaPoints
  serverSet := ∅
  tree := .empty
  checksum := 0
  emitted := []

/-- `emit`. -/
def emit (r : HashRing) (event : RingEvent) : HashRing :=
  { r with emitted := r.emitted ++ [event] }

/-- `copyServersNoLock`. -/
def copyServersNoLock (o : MapOrder) (r : HashRing) : List String := o.keys r.serverSet

/-- `computeChecksumNoLock`. -/
def computeChecksumNoLock (pf : Platform) (o : MapOrder) (r : HashRing) : HashRing :=
  let addresses := (r.copyServersNoLock o).insertionSort (· ≤ ·)
  let checksum := pf.fingerprint32 (";".intercalate addresses)
  emit { r with checksum := checksum } (.ringChecksum r.checksum checksum)

/-- The name of the `i`th replica of a server, which is hashed to its `i`th
point: `fmt.Sprintf("%s%v", server, i)`. -/
def replica (server : String) (i : ℕ) : String := server ++ toString i

/-- `addReplicasNoLock`. -/
def addReplicasNoLock (pf : Platform) (r : HashRing) (server : String) :
    Except Fault HashRing := do
  let tree ← (List.range r.replicaPoints.toNat).foldlM (fun tree i => do
    let (_, tree) ← tree.insert pf.intSize (r.hashfunc (replica server i)) server
    return tree) r.tree
  return { r with serverSet := insert server r.serverSet, tree := tree }

/-- `addServerNoLock`. -/
def addServerNoLock (pf : Platform) (r : HashRing) (address : String) :
    Except Fault (Bool × HashRing) := do
  if address ∈ r.serverSet then return (false, r)
  return (true, ← r.addReplicasNoLock pf address)

/-- `AddServer`. -/
def addServer (pf : Platform) (o : MapOrder) (r : HashRing) (address : String) :
    Except Fault (Bool × HashRing) := do
  let (ok, r) ← r.addServerNoLock pf address
  if ok then
    return (ok, (r.computeChecksumNoLock pf o).emit (.ringChanged [address] []))
  return (ok, r)

/-- `removeReplicasNoLock`. -/
def removeReplicasNoLock (pf : Platform) (r : HashRing) (server : String) :
    Except Fault HashRing := do
  let tree ← (List.range r.replicaPoints.toNat).foldlM (fun tree i => do
    let (_, tree) ← tree.delete pf.intSize (r.hashfunc (replica server i))
    return tree) r.tree
  return { r with serverSet := r.serverSet.erase server, tree := tree }

/-- `removeServerNoLock`. -/
def removeServerNoLock (pf : Platform) (r : HashRing) (address : String) :
    Except Fault (Bool × HashRing) := do
  if address ∉ r.serverSet then return (false, r)
  return (true, ← r.removeReplicasNoLock pf address)

/-- `RemoveServer`. -/
def removeServer (pf : Platform) (o : MapOrder) (r : HashRing) (address : String) :
    Except Fault (Bool × HashRing) := do
  let (ok, r) ← r.removeServerNoLock pf address
  if ok then
    return (ok, (r.computeChecksumNoLock pf o).emit (.ringChanged [] [address]))
  return (ok, r)

/-- A loop of `addRemoveServersNoLock`: `change` each server of a list, and
remember whether one of them changed the ring. -/
def changeServers (change : HashRing → String → Except Fault (Bool × HashRing))
    (servers : List String) (changed : Bool) (r : HashRing) : Except Fault (Bool × HashRing) :=
  servers.foldlM (fun (changed, r) server => do
    let (ok, r) ← change r server
    return (if ok then true else changed, r)) (changed, r)

/-- `addRemoveServersNoLock`, and `AddRemoveServers` with it. -/
def addRemoveServers (pf : Platform) (o : MapOrder) (r : HashRing) (add remove : List String) :
    Except Fault (Bool × HashRing) := do
  let (changed, r) ← changeServers (addServerNoLock pf) add false r
  let (changed, r) ← changeServers (removeServerNoLock pf) remove changed r
  if changed then
    return (changed, (r.computeChecksumNoLock pf o).emit (.ringChanged add remove))
  return (changed, r)

/-- `HasServer`. -/
def hasServer (r : HashRing) (server : String) : Bool := decide (server ∈ r.serverSet)

/-- `ServerCount`. -/
def serverCount (r : HashRing) : ℤ := r.serverSet.card

/-- `lookupNNoLock`, and `LookupN` with it. -/
def lookupN (o : MapOrder) (r : HashRing) (key : String) (n : ℤ) : Except Fault (List String) := do
  if r.serverSet.card ≤ n then return r.copyServersNoLock o
  let hash := r.hashfunc key
  let unique ← r.tree.lookupNUniqueAt n hash ∅
  -- past the end of the tree, go on from 0
  let unique ← if unique.card < n then r.tree.lookupNUniqueAt n 0 unique else pure unique
  return o.keys unique

/-- `Lookup`. -/
def lookup (o : MapOrder) (r : HashRing) (key : String) : Except Fault (String × Bool) := do
  let strs ← r.lookupN o key 1
  return answer strs.head?

end HashRing

/-! ### Sequences of calls -/

/-- A call that changes the ring. -/
inductive RingOp where
  | addServer (address : String)
  | removeServer (address : String)
  | addRemoveServers (add remove : List String)

namespace RingOp

/-- One call, its result dropped. -/
def step (pf : Platform) (r : HashRing) : MapOrder × RingOp → Except Fault HashRing
  | (o, addServer address) => Prod.snd <$> r.addServer pf o address
  | (o, removeServer address) => Prod.snd <$> r.removeServer pf o address
  | (o, addRemoveServers add remove) => Prod.snd <$> r.addRemoveServers pf o add remove

/-- A sequence of calls, each with the order in which it enumerates the
servers. -/
def run (pf : Platform) (r : HashRing) (calls : List (MapOrder × RingOp)) :
    Except Fault HashRing :=
  calls.foldlM (step pf) r

end RingOp

end Hashring
end Ringpop
