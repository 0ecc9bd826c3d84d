/-
# The ring under its lock

The public functions of `hashring/hashring.go` are called from any number of goroutines at
any time.  Those that change the ring take its lock for writing and change one server after
the other, replica by replica; the others take it for reading.  Here each of these is a step
of its own: each look into the set of servers, each point that is inserted or deleted, each
walk over the tree (`sharedRing`).

In between, a ring may hold some points of a server and not others, and a wrong checksum.
Nobody sees that.  There is one order of all changes (`SharedRing.log`), and every call
returns what it would return if it were made alone, between two of them: after all changes
that had ended when it began, and before all that begin when it has ended
(`ring_linearizes`).  So a call may be taken as one step, as elsewhere in this development.

`since` is the number of changes at the beginning of a call; nothing reads it, nor the log,
nor the number of a change in it.
A goroutine that panics keeps the lock; none does.
-/

import Ringpop.Concurrency.ReadWriteLock
import Ringpop.Hashring.RingChange

namespace Ringpop
namespace Hashring

open CellStore Threads

/-- A call that does not change the ring. -/
inductive Query where
  | checksum
  | hasServer (server : String)
  | servers
  | serverCount
  | lookup (key : String)
  | lookupN (key : String) (n : ℤ)
deriving DecidableEq, Repr

/-- What such a call returns. -/
inductive Answer where
  | checksum (checksum : UInt32)
  | bool (ok : Bool)
  | servers (servers : List String)
  | count (n : ℤ)
  | owner (owner : String) (ok : Bool)
deriving DecidableEq, Repr

/-- The result of a walk, as the call returns it. -/
def Query.ofServers : Query → List String → Answer
  | lookup _, strs => .owner (answer strs.head?).1 (answer strs.head?).2
  | _, strs => .servers strs

/-- The call made alone. -/
def Query.eval (o : MapOrder) (r : HashRing) : Query → Except Fault Answer
  | checksum => return .checksum r.checksum
  | hasServer server => return .bool (r.hasServer server)
  | servers => return .servers (r.copyServersNoLock o)
  | serverCount => return .count r.serverCount
  | lookup key => (fun res => .owner res.1 res.2) <$> r.lookup o key
  | lookupN key n => .servers <$> r.lookupN o key n

namespace RingOp

/-- The call made alone, with its result. -/
def call (pf : Platform) (o : MapOrder) (r : HashRing) : RingOp → Except Fault (Bool × HashRing)
  | addServer address => r.addServer pf o address
  | removeServer address => r.removeServer pf o address
  | addRemoveServers add remove => r.addRemoveServers pf o add remove

end RingOp

/-- A change that has begun: how many were made before, the order of the servers and the call. -/
structure Update where
  since : ℕ
  order : MapOrder
  op : RingOp

/-- A query that has begun. -/
structure Ask where
  since : ℕ
  order : MapOrder
  query : Query

/-- A public function of the ring. -/
inductive RingCall where
  | update (o : MapOrder) (op : RingOp)
  | query (o : MapOrder) (q : Query)

/-- Where a goroutine is. -/
inductive RingPlace where
  | update (o : MapOrder) (op : RingOp)
  | lock (u : Update)
  | adding (u : Update) (add remove : List String) (changed : Bool)
  | inserting (u : Update) (server : String) (i : ℕ) (add remove : List String)
  | removing (u : Update) (remove : List String) (changed : Bool)
  | deleting (u : Update) (server : String) (i : ℕ) (remove : List String)
  | publish (u : Update) (changed : Bool)
  | unlock (u : Update) (k : ℕ) (changed : Bool)
  | updated (u : Update) (k : ℕ) (changed : Bool)
  | query (o : MapOrder) (q : Query)
  | rLock (q : Ask)
  | read (q : Ask)
  | walk (q : Ask) (key : String) (n : ℤ)
  | walkOn (q : Ask) (n : ℤ) (unique : Finset String)
  | rUnlock (q : Ask) (answer : Answer)
  | answered (q : Ask) (answer : Answer)
  | panicked (mode : RWMode) (fault : Fault)

/-- The ring, and the changes that were made to it. -/
structure SharedRing where
  ring : HashRing
  log : List (MapOrder × RingOp)

/-- The end of a change: a ring that has changed is published. -/
def Update.publish (pf : Platform) (u : Update) (changed : Bool) (r : HashRing) : HashRing :=
  if changed then
    (r.computeChecksumNoLock pf u.order).emit (.ringChanged u.op.added u.op.removed)
  else r

/-- The functions of the ring. -/
def sharedRing (pf : Platform) : RWProgram SharedRing RingPlace RingCall where
  enter
    | .update o op => .update o op
    | .query o q => .query o q
  instr
    | .update o op => .act fun d => (d, .lock ⟨d.log.length, o, op⟩)
    | .lock u => .lock (.adding u u.op.added u.op.removed false)
    -- the loop over `add`, with `addServerNoLock`
    | .adding u add remove changed => .act fun d =>
        match add with
        | [] => (d, .removing u remove changed)
        | server :: add =>
            if server ∈ d.ring.serverSet then (d, .adding u add remove changed)
            else ({ d with ring.serverSet := insert server d.ring.serverSet },
              .inserting u server 0 add remove)
    | .inserting u server i add remove => .act fun d =>
        if i < d.ring.replicaPoints.toNat then
          match d.ring.tree.insert pf.intSize
              (d.ring.hashfunc (HashRing.replica server i)) server with
          | .ok (_, tree) =>
              ({ d with ring.tree := tree }, .inserting u server (i + 1) add remove)
          | .error fault => (d, .panicked .writing fault)
        else (d, .adding u add remove true)
    -- the loop over `remove`, with `removeServerNoLock`
    | .removing u remove changed => .act fun d =>
        match remove with
        | [] => (d, .publish u changed)
        | server :: remove =>
            if server ∉ d.ring.serverSet then (d, .removing u remove changed)
            else ({ d with ring.serverSet := d.ring.serverSet.erase server },
              .deleting u server 0 remove)
    | .deleting u server i remove => .act fun d =>
        if i < d.ring.replicaPoints.toNat then
          match d.ring.tree.delete pf.intSize (d.ring.hashfunc (HashRing.replica server i)) with
          | .ok (_, tree) => ({ d with ring.tree := tree }, .deleting u server (i + 1) remove)
          | .error fault => (d, .panicked .writing fault)
        else (d, .removing u remove true)
    | .publish u changed => .act fun d =>
        (⟨u.publish pf changed d.ring, d.log ++ [(u.order, u.op)]⟩,
          .unlock u d.log.length changed)
    | .unlock u k changed => .unlock (.updated u k changed)
    | .updated _ _ _ => .halt
    | .query o q => .act fun d => (d, .rLock ⟨d.log.length, o, q⟩)
    | .rLock q => .rlock (.read q)
    | .read q => .act fun d =>
        match q.query with
        | .checksum => (d, .rUnlock q (.checksum d.ring.checksum))
        | .hasServer server => (d, .rUnlock q (.bool (d.ring.hasServer server)))
        | .servers => (d, .rUnlock q (.servers (d.ring.copyServersNoLock q.order)))
        | .serverCount => (d, .rUnlock q (.count d.ring.serverCount))
        | .lookup key => (d, .walk q key 1)
        | .lookupN key n => (d, .walk q key n)
    -- `lookupNNoLock`
    | .walk q key n => .act fun d =>
        if d.ring.serverSet.card ≤ n then
          (d, .rUnlock q (q.query.ofServers (d.ring.copyServersNoLock q.order)))
        else
          match d.ring.tree.lookupNUniqueAt n (d.ring.hashfunc key) ∅ with
          | .ok unique => (d, .walkOn q n unique)
          | .error fault => (d, .panicked .reading fault)
    | .walkOn q n unique => .act fun d =>
        if unique.card < n then
          match d.ring.tree.lookupNUniqueAt n 0 unique with
          | .ok unique => (d, .rUnlock q (q.query.ofServers (q.order.keys unique)))
          | .error fault => (d, .panicked .reading fault)
        else (d, .rUnlock q (q.query.ofServers (q.order.keys unique)))
    | .rUnlock q answer => .runlock (.answered q answer)
    | .answered _ _ => .halt
    | .panicked mode fault => .act fun d => (d, .panicked mode fault)

/-- How the lock is held. -/
def RingPlace.mode : RingPlace → RWMode
  | adding _ _ _ _ => .writing
  | inserting _ _ _ _ _ => .writing
  | removing _ _ _ => .writing
  | deleting _ _ _ _ => .writing
  | publish _ _ => .writing
  | unlock _ _ _ => .writing
  | read _ => .reading
  | walk _ _ _ => .reading
  | walkOn _ _ _ => .reading
  | rUnlock _ _ => .reading
  | panicked mode _ => mode
  | _ => .free

theorem annotated_sharedRing (pf : Platform) :
    (sharedRing pf).Annotated RingPlace.mode where
  enter c := by cases c <;> rfl
  rlock place place' h := by
    cases place <;> cases h
    exact ⟨rfl, rfl⟩
  runlock place place' h := by
    cases place <;> cases h
    exact ⟨rfl, rfl⟩
  lock place place' h := by
    cases place <;> cases h
    exact ⟨rfl, rfl⟩
  unlock place place' h := by
    cases place <;> cases h
    exact ⟨rfl, rfl⟩
  act place f h d := by
    cases place <;> cases h <;> dsimp only <;> (repeat' split) <;> simp [RingPlace.mode]
  halt place h := by cases place <;> first | rfl | cases h

/-! ### What is left of a change -/

section changeServers

variable {change : HashRing → String → Except Fault (Bool × HashRing)} {r r' : HashRing}
  {server : String} {ok : Bool} {fault : Fault}

theorem changeServers_of_ok (h : change r server = .ok (ok, r')) (servers : List String)
    (changed : Bool) : HashRing.changeServers change (server :: servers) changed r =
      HashRing.changeServers change servers (if ok then true else changed) r' := by
  rw [HashRing.changeServers, List.foldlM_cons]
  dsimp only
  rw [h]
  rfl

theorem changeServers_of_error (h : change r server = .error fault) (servers : List String)
    (changed : Bool) :
    HashRing.changeServers change (server :: servers) changed r = .error fault := by
  rw [HashRing.changeServers, List.foldlM_cons]
  dsimp only
  rw [h]
  rfl

end changeServers

/-- The loop over the replicas `is` of a server. -/
def eachReplica (call : RedBlackTree → ℕ → Except Fault (Bool × RedBlackTree)) (is : List ℕ)
    (tree : RedBlackTree) : Except Fault RedBlackTree :=
  is.foldlM (fun tree i => do
    let (_, tree) ← call tree i
    return tree) tree

section eachReplica

variable {call : RedBlackTree → ℕ → Except Fault (Bool × RedBlackTree)} {i n : ℕ}
  {tree tree' : RedBlackTree} {ok : Bool} {fault : Fault}

theorem range'_of_lt (h : i < n) :
    List.range' i (n - i) = i :: List.range' (i + 1) (n - (i + 1)) := by
  rw [show n - i = n - (i + 1) + 1 by omega, List.range'_succ]

theorem eachReplica_of_ok (h : i < n) (hcall : call tree i = .ok (ok, tree')) :
    eachReplica call (List.range' i (n - i)) tree =
      eachReplica call (List.range' (i + 1) (n - (i + 1))) tree' := by
  rw [range'_of_lt h, eachReplica, List.foldlM_cons, hcall]
  rfl

theorem eachReplica_of_error (h : i < n) (hcall : call tree i = .error fault) :
    eachReplica call (List.range' i (n - i)) tree = .error fault := by
  rw [range'_of_lt h, eachReplica, List.foldlM_cons, hcall]
  rfl

end eachReplica

namespace Update

variable (pf : Platform) (u : Update)

/-- The loop over `remove`, and the end. -/
def removeRest (remove : List String) (changed : Bool) (r : HashRing) :
    Except Fault (Bool × HashRing) := do
  let (changed, r) ← HashRing.changeServers (HashRing.removeServerNoLock pf) remove changed r
  return (changed, u.publish pf changed r)

/-- The loop over `add`, and all that follows. -/
def addRest (add remove : List String) (changed : Bool) (r : HashRing) :
    Except Fault (Bool × HashRing) := do
  let (changed, r) ← HashRing.changeServers (HashRing.addServerNoLock pf) add changed r
  u.removeRest pf remove changed r

/-- The points of a server from the `i`th on are inserted, and all that follows. -/
def insertRest (server : String) (i : ℕ) (add remove : List String) (r : HashRing) :
    Except Fault (Bool × HashRing) := do
  let tree ← eachReplica (fun tree i =>
    tree.insert pf.intSize (r.hashfunc (HashRing.replica server i)) server)
    (List.range' i (r.replicaPoints.toNat - i)) r.tree
  u.addRest pf add remove true { r with tree := tree }

/-- The points of a server from the `i`th on are deleted, and all that follows. -/
def deleteRest (server : String) (i : ℕ) (remove : List String) (r : HashRing) :
    Except Fault (Bool × HashRing) := do
  let tree ← eachReplica (fun tree i =>
    tree.delete pf.intSize (r.hashfunc (HashRing.replica server i)))
    (List.range' i (r.replicaPoints.toNat - i)) r.tree
  u.removeRest pf remove true { r with tree := tree }

variable {pf u} {add remove : List String} {server : String} {changed : Bool} {i : ℕ}
  {r : HashRing}

/-- **The whole call** is left at the beginning. -/
theorem call_eq_addRest (r : HashRing) :
    u.op.call pf u.order r = u.addRest pf u.op.added u.op.removed false r := by
  obtain ⟨since, o, op⟩ := u
  cases op with
  | addServer address =>
    rw [RingOp.call, HashRing.addServer, addRest, RingOp.added]
    cases h : r.addServerNoLock pf address with
    | error fault =>
      rw [changeServers_of_error h]
      rfl
    | ok res =>
      obtain ⟨ok, r'⟩ := res
      rw [changeServers_of_ok h]
      cases ok <;> rfl
  | removeServer address =>
    rw [RingOp.call, HashRing.removeServer]
    show _ = removeRest pf _ [address] false r
    rw [removeRest]
    cases h : r.removeServerNoLock pf address with
    | error fault =>
      rw [changeServers_of_error h]
      rfl
    | ok res =>
      obtain ⟨ok, r'⟩ := res
      rw [changeServers_of_ok h]
      cases ok <;> rfl
  | addRemoveServers add remove =>
    rw [RingOp.call, HashRing.addRemoveServers, addRest]
    dsimp only [RingOp.added, RingOp.removed]
    cases HashRing.changeServers (HashRing.addServerNoLock pf) add false r with
    | error fault => rfl
    | ok res =>
      simp only [Bind.bind, Except.bind, removeRest]
      cases HashRing.changeServers (HashRing.removeServerNoLock pf) remove res.1 res.2 with
      | error fault => rfl
      | ok res =>
        obtain ⟨changed, r'⟩ := res
        cases changed <;> rfl

theorem addRest_of_mem (h : server ∈ r.serverSet) :
    u.addRest pf (server :: add) remove changed r = u.addRest pf add remove changed r := by
  have hcall : r.addServerNoLock pf server = .ok (false, r) := by
    rw [HashRing.addServerNoLock, if_pos h]
    rfl
  rw [addRest, changeServers_of_ok hcall]
  rfl

theorem addRest_of_notMem (h : server ∉ r.serverSet) :
    u.addRest pf (server :: add) remove changed r =
      u.insertRest pf server 0 add remove { r with serverSet := insert server r.serverSet } := by
  rw [addRest, insertRest, Nat.sub_zero, ← List.range_eq_range']
  cases htree : eachReplica (fun tree i => tree.insert pf.intSize (r.hashfunc
      (HashRing.replica server i)) server) (List.range r.replicaPoints.toNat) r.tree with
  | error fault =>
    have hcall : r.addServerNoLock pf server = .error fault := by
      rw [eachReplica] at htree
      rw [HashRing.addServerNoLock, if_neg h, HashRing.addReplicasNoLock, htree]
      rfl
    rw [changeServers_of_error hcall]
    rfl
  | ok tree =>
    have hcall : r.addServerNoLock pf server =
        .ok (true, { r with serverSet := insert server r.serverSet, tree := tree }) := by
      rw [eachReplica] at htree
      rw [HashRing.addServerNoLock, if_neg h, HashRing.addReplicasNoLock, htree]
      rfl
    rw [changeServers_of_ok hcall]
    rfl

theorem insertRest_of_ok (h : i < r.replicaPoints.toNat) {ok : Bool} {tree : RedBlackTree}
    (hcall : r.tree.insert pf.intSize (r.hashfunc (HashRing.replica server i)) server =
      .ok (ok, tree)) :
    u.insertRest pf server i add remove r =
      u.insertRest pf server (i + 1) add remove { r with tree := tree } := by
  rw [insertRest, eachReplica_of_ok h hcall]
  rfl

theorem insertRest_of_error (h : i < r.replicaPoints.toNat) {fault : Fault}
    (hcall : r.tree.insert pf.intSize (r.hashfunc (HashRing.replica server i)) server =
      .error fault) : u.insertRest pf server i add remove r = .error fault := by
  rw [insertRest, eachReplica_of_error h hcall]
  rfl

theorem insertRest_of_le (h : r.replicaPoints.toNat ≤ i) :
    u.insertRest pf server i add remove r = u.addRest pf add remove true r := by
  rw [insertRest, Nat.sub_eq_zero_of_le h]
  rfl

theorem removeRest_of_notMem (h : server ∉ r.serverSet) :
    u.removeRest pf (server :: remove) changed r = u.removeRest pf remove changed r := by
  have hcall : r.removeServerNoLock pf server = .ok (false, r) := by
    rw [HashRing.removeServerNoLock, if_pos h]
    rfl
  rw [removeRest, changeServers_of_ok hcall]
  rfl

theorem removeRest_of_mem (h : server ∈ r.serverSet) :
    u.removeRest pf (server :: remove) changed r =
      u.deleteRest pf server 0 remove { r with serverSet := r.serverSet.erase server } := by
  rw [removeRest, deleteRest, Nat.sub_zero, ← List.range_eq_range']
  cases htree : eachReplica (fun tree i => tree.delete pf.intSize (r.hashfunc
      (HashRing.replica server i))) (List.range r.replicaPoints.toNat) r.tree with
  | error fault =>
    have hcall : r.removeServerNoLock pf server = .error fault := by
      rw [eachReplica] at htree
      rw [HashRing.removeServerNoLock, if_neg (not_not.2 h), HashRing.removeReplicasNoLock, htree]
      rfl
    rw [changeServers_of_error hcall]
    rfl
  | ok tree =>
    have hcall : r.removeServerNoLock pf server =
        .ok (true, { r with serverSet := r.serverSet.erase server, tree := tree }) := by
      rw [eachReplica] at htree
      rw [HashRing.removeServerNoLock, if_neg (not_not.2 h), HashRing.removeReplicasNoLock, htree]
      rfl
    rw [changeServers_of_ok hcall]
    rfl

theorem deleteRest_of_ok (h : i < r.replicaPoints.toNat) {ok : Bool} {tree : RedBlackTree}
    (hcall : r.tree.delete pf.intSize (r.hashfunc (HashRing.replica server i)) =
      .ok (ok, tree)) :
    u.deleteRest pf server i remove r =
      u.deleteRest pf server (i + 1) remove { r with tree := tree } := by
  rw [deleteRest, eachReplica_of_ok h hcall]
  rfl

theorem deleteRest_of_error (h : i < r.replicaPoints.toNat) {fault : Fault}
    (hcall : r.tree.delete pf.intSize (r.hashfunc (HashRing.replica server i)) =
      .error fault) : u.deleteRest pf server i remove r = .error fault := by
  rw [deleteRest, eachReplica_of_error h hcall]
  rfl

theorem deleteRest_of_le (h : r.replicaPoints.toNat ≤ i) :
    u.deleteRest pf server i remove r = u.removeRest pf remove true r := by
  rw [deleteRest, Nat.sub_eq_zero_of_le h]
  rfl

end Update

/-! ### Calls on a ring that calls have built -/

section built

variable {fp hash : String → UInt32} {R : ℤ} {log : List (MapOrder × RingOp)} {r : HashRing}

/-- **A change** of a ring that was built by changes returns, and is one more of them. -/
theorem exists_call (h : RingOp.run (.bits64 fp) (.new 64 hash R) log = .ok r) (o : MapOrder)
    (op : RingOp) : ∃ ok r', op.call (.bits64 fp) o r = .ok (ok, r') ∧
      RingOp.run (.bits64 fp) (.new 64 hash R) (log ++ [(o, op)]) = .ok r' := by
  obtain ⟨r₁, hrun, howns⟩ := (owns_new_of_fits fp R fun s => intOfUInt32_fits (hash s)).run log
    fun s _ => Set.mem_univ s
  obtain rfl := Except.ok.inj (h.symm.trans hrun)
  obtain ⟨r', hstep, -⟩ := howns.step (o, op) fun s _ => Set.mem_univ s
  have hrun' : RingOp.run (.bits64 fp) (.new 64 hash R) (log ++ [(o, op)]) = .ok r' := by
    rw [RingOp.run, List.foldlM_append]
    rw [RingOp.run] at h
    rw [h]
    exact (bind_pure _).trans hstep
  have hcall : Prod.snd <$> op.call (.bits64 fp) o r = .ok r' := by
    cases op <;> exact hstep
  obtain ⟨res, hres, rfl⟩ := exists_of_map_eq_ok hcall
  exact ⟨res.1, res.2, hres, hrun'⟩

/-- **A query** returns. -/
theorem exists_eval (h : RingOp.run (.bits64 fp) (.new 64 hash R) log = .ok r) (o : MapOrder)
    (q : Query) : ∃ answer, q.eval o r = .ok answer := by
  obtain ⟨r₁, hrun, howns⟩ := (owns_new_of_fits fp R fun s => intOfUInt32_fits (hash s)).run log
    fun s _ => Set.mem_univ s
  obtain rfl := Except.ok.inj (h.symm.trans hrun)
  obtain ⟨L, hL, -, -⟩ := howns.tree.lookupNUniqueAt
  cases q with
  | lookup key => exact ⟨_, by rw [Query.eval, howns.lookup hL]; rfl⟩
  | lookupN key n => exact ⟨_, by rw [Query.eval, howns.lookupN_eq hL]; rfl⟩
  | _ => exact ⟨_, rfl⟩

end built

/-! ### The proof outline -/

section outline

variable (fp hash : String → UInt32) (R : ℤ) (d : SharedRing)

/-- The ring after some changes, made one after the other. -/
def built (log : List (MapOrder × RingOp)) : Except Fault HashRing :=
  RingOp.run (.bits64 fp) (.new 64 hash R) log

/-- The change that is being made began on the ring of the log, and comes to `rest`. -/
def Midway (u : Update) (rest : Except Fault (Bool × HashRing)) : Prop :=
  u.since ≤ d.log.length ∧
    ∃ r, built fp hash R d.log = .ok r ∧ u.op.call (.bits64 fp) u.order r = rest

/-- The change is the `k`-th of the log, and returned what it returns there. -/
def Made (u : Update) (k : ℕ) (changed : Bool) : Prop :=
  u.since ≤ k ∧ d.log[k]? = some (u.order, u.op) ∧
    ∃ r r', built fp hash R (d.log.take k) = .ok r ∧
      u.op.call (.bits64 fp) u.order r = .ok (changed, r')

/-- The answer is one of the ring after some of the changes. -/
def Given (q : Ask) (answer : Answer) : Prop :=
  ∃ k r, q.since ≤ k ∧ k ≤ d.log.length ∧ built fp hash R (d.log.take k) = .ok r ∧
    q.query.eval q.order r = .ok answer

/-- The query is being made on the ring of the log, and comes to `rest`. -/
def Asking (q : Ask) (rest : Except Fault Answer) : Prop :=
  q.since ≤ d.log.length ∧ built fp hash R d.log = .ok d.ring ∧
    q.query.eval q.order d.ring = rest

/-- What a goroutine knows where it is. -/
def RingKnows : RingPlace → Prop
  | .update _ _ => True
  | .lock u => u.since ≤ d.log.length
  | .adding u add remove changed =>
      Midway fp hash R d u (u.addRest (.bits64 fp) add remove changed d.ring)
  | .inserting u server i add remove =>
      Midway fp hash R d u (u.insertRest (.bits64 fp) server i add remove d.ring)
  | .removing u remove changed =>
      Midway fp hash R d u (u.removeRest (.bits64 fp) remove changed d.ring)
  | .deleting u server i remove =>
      Midway fp hash R d u (u.deleteRest (.bits64 fp) server i remove d.ring)
  | .publish u changed =>
      Midway fp hash R d u (.ok (changed, u.publish (.bits64 fp) changed d.ring))
  | .unlock u k changed => built fp hash R d.log = .ok d.ring ∧ Made fp hash R d u k changed
  | .updated u k changed => Made fp hash R d u k changed
  | .query _ _ => True
  | .rLock q => q.since ≤ d.log.length
  | .read q => Asking fp hash R d q (q.query.eval q.order d.ring)
  | .walk q key n =>
      Asking fp hash R d q (q.query.ofServers <$> d.ring.lookupN q.order key n)
  | .walkOn q n unique => Asking fp hash R d q do
      let unique ← if unique.card < n then d.ring.tree.lookupNUniqueAt n 0 unique else pure unique
      return q.query.ofServers (q.order.keys unique)
  | .rUnlock q answer => Given fp hash R d q answer
  | .answered q answer => Given fp hash R d q answer
  | .panicked _ _ => False

variable {fp hash R d} {u : Update} {q : Ask} {rest : Except Fault (Bool × HashRing)}
  {answer : Answer} {d' : SharedRing}

/-- A change that is being made does not end in a fault. -/
theorem Midway.not_error {fault : Fault} (h : Midway fp hash R d u (.error fault)) : False := by
  obtain ⟨-, r, hr, hcall⟩ := h
  obtain ⟨ok, r', hok, -⟩ := exists_call hr u.order u.op
  rw [hcall] at hok
  cases hok

theorem Asking.not_error {fault : Fault} (h : Asking fp hash R d q (.error fault)) : False := by
  obtain ⟨-, hr, hcall⟩ := h
  obtain ⟨answer, hok⟩ := exists_eval hr q.order q.query
  rw [hcall] at hok
  cases hok

theorem Asking.given (h : Asking fp hash R d q (.ok answer)) : Given fp hash R d q answer := by
  refine ⟨d.log.length, d.ring, h.1, le_rfl, ?_, h.2.2⟩
  rw [List.take_length]
  exact h.2.1

/-- **A change is made**: it goes to the end of the log. -/
theorem Midway.publish {changed : Bool} {r : HashRing}
    (h : Midway fp hash R d u (.ok (changed, r))) :
    built fp hash R (d.log ++ [(u.order, u.op)]) = .ok r ∧
      Made fp hash R ⟨r, d.log ++ [(u.order, u.op)]⟩ u d.log.length changed := by
  obtain ⟨hsince, r₀, hr₀, hcall⟩ := h
  obtain ⟨ok, r', hok, hrun⟩ := exists_call hr₀ u.order u.op
  obtain ⟨rfl, rfl⟩ := Prod.mk.inj (Except.ok.inj (hok.symm.trans hcall))
  refine ⟨hrun, hsince, ?_, r₀, r', ?_, hcall⟩
  · simp
  · rw [List.take_left]
    exact hr₀

/-- **What a goroutine knows without the lock** stays true when changes are made. -/
theorem RingKnows.mono {place : RingPlace} (h : RingKnows fp hash R d place)
    (hfree : place.mode = .free) (hlog : d.log <+: d'.log) : RingKnows fp hash R d' place := by
  obtain ⟨later, hlater⟩ := hlog
  have hlength : d.log.length ≤ d'.log.length := by
    rw [← hlater, List.length_append]
    exact Nat.le_add_right _ _
  cases place with
  | update o op => trivial
  | query o q => trivial
  | lock u => exact le_trans h hlength
  | rLock q => exact le_trans h hlength
  | updated u k changed =>
    obtain ⟨hk, hlogk, r, r', hr, hcall⟩ := h
    have hlt : k < d.log.length := (List.getElem?_eq_some_iff.1 hlogk).1
    refine ⟨hk, ?_, r, r', ?_, hcall⟩
    · rw [← hlater, List.getElem?_append_left hlt, hlogk]
    · rw [← hlater, List.take_append_of_le_length hlt.le, hr]
  | answered q answer =>
    obtain ⟨k, r, hk, hle, hr, hcall⟩ := h
    refine ⟨k, r, hk, hle.trans hlength, ?_, hcall⟩
    rw [← hlater, List.take_append_of_le_length hle, hr]
  | panicked mode fault => exact h.elim
  | _ => cases hfree

variable {place : RingPlace} {f : SharedRing → SharedRing × RingPlace}

/-- No step takes a change out of the log. -/
theorem log_prefix_act (hinstr : (sharedRing (.bits64 fp)).instr place = .act f) :
    d.log <+: (f d).1.log := by
  cases place <;> cases hinstr <;> dsimp only <;> (repeat' split) <;>
    first | exact List.prefix_rfl | exact List.prefix_append _ _

/-- **A step of a change** leaves what the change comes to. -/
theorem knows_update (hinstr : (sharedRing (.bits64 fp)).instr place = .act f)
    (hmode : place.mode = .writing) (h : RingKnows fp hash R d place) :
    RingKnows fp hash R (f d).1 (f d).2 := by
  cases place with
  | adding u add remove changed =>
    obtain rfl := RWInstr.act.inj hinstr
    cases add with
    | nil => exact h
    | cons server add =>
      dsimp only
      split_ifs with hserver
      · rw [RingKnows, Update.addRest_of_mem hserver] at h
        exact h
      · rw [RingKnows, Update.addRest_of_notMem hserver] at h
        exact h
  | inserting u server i add remove =>
    obtain rfl := RWInstr.act.inj hinstr
    dsimp only
    split_ifs with hi
    · cases hcall : d.ring.tree.insert (Platform.bits64 fp).intSize
        (d.ring.hashfunc (HashRing.replica server i)) server with
      | error fault =>
        rw [RingKnows, Update.insertRest_of_error hi hcall] at h
        exact h.not_error
      | ok res =>
        rw [RingKnows, Update.insertRest_of_ok hi hcall] at h
        exact h
    · rw [RingKnows, Update.insertRest_of_le (Nat.le_of_not_lt hi)] at h
      exact h
  | removing u remove changed =>
    obtain rfl := RWInstr.act.inj hinstr
    cases remove with
    | nil => exact h
    | cons server remove =>
      dsimp only
      split_ifs with hserver
      · rw [RingKnows, Update.removeRest_of_mem hserver] at h
        exact h
      · rw [RingKnows, Update.removeRest_of_notMem hserver] at h
        exact h
  | deleting u server i remove =>
    obtain rfl := RWInstr.act.inj hinstr
    dsimp only
    split_ifs with hi
    · cases hcall : d.ring.tree.delete (Platform.bits64 fp).intSize
        (d.ring.hashfunc (HashRing.replica server i)) with
      | error fault =>
        rw [RingKnows, Update.deleteRest_of_error hi hcall] at h
        exact h.not_error
      | ok res =>
        rw [RingKnows, Update.deleteRest_of_ok hi hcall] at h
        exact h
    · rw [RingKnows, Update.deleteRest_of_le (Nat.le_of_not_lt hi)] at h
      exact h
  | publish u changed =>
    obtain rfl := RWInstr.act.inj hinstr
    exact h.publish
  | panicked mode fault => exact h.elim
  | unlock u k changed => cases hinstr
  | _ => cases hmode

/-- `Lookup` is `LookupN` for one server. -/
theorem eval_lookup (o : MapOrder) (r : HashRing) (key : String) :
    (Query.lookup key).eval o r = (Query.lookup key).ofServers <$> r.lookupN o key 1 := by
  rw [Query.eval, HashRing.lookup]
  cases r.lookupN o key 1 <;> rfl

/-- **A step of a query** leaves what the query comes to. -/
theorem knows_query (hinstr : (sharedRing (.bits64 fp)).instr place = .act f)
    (hmode : place.mode = .reading) (h : RingKnows fp hash R d place) :
    RingKnows fp hash R (f d).1 (f d).2 := by
  cases place with
  | read q =>
    obtain rfl := RWInstr.act.inj hinstr
    obtain ⟨since, o, query⟩ := q
    cases query with
    | lookup key =>
      rw [RingKnows, eval_lookup] at h
      exact h
    | lookupN key n => exact h
    | _ => exact Asking.given h
  | walk q key n =>
    obtain rfl := RWInstr.act.inj hinstr
    dsimp only
    rw [RingKnows, HashRing.lookupN] at h
    split_ifs with hcard
    · rw [if_pos hcard] at h
      exact Asking.given h
    · rw [if_neg hcard] at h
      cases hcall : d.ring.tree.lookupNUniqueAt n (d.ring.hashfunc key) ∅ with
      | error fault =>
        simp only [hcall] at h
        exact Asking.not_error h
      | ok unique =>
        simp only [hcall] at h
        refine ⟨h.1, h.2.1, h.2.2.trans ?_⟩
        simp only [Bind.bind, Except.bind]
        split_ifs
        · cases d.ring.tree.lookupNUniqueAt n 0 unique <;> rfl
        · rfl
  | walkOn q n unique =>
    obtain rfl := RWInstr.act.inj hinstr
    dsimp only
    rw [RingKnows] at h
    split_ifs with hcard
    · rw [if_pos hcard] at h
      cases hcall : d.ring.tree.lookupNUniqueAt n 0 unique with
      | error fault =>
        rw [hcall] at h
        exact Asking.not_error h
      | ok unique =>
        rw [hcall] at h
        exact Asking.given h
    · rw [if_neg hcard] at h
      exact Asking.given h
  | rUnlock q answer => cases hinstr
  | panicked mode fault => exact h.elim
  | _ => cases hmode

/-- **The proof outline** of the functions of the ring. -/
theorem proved_sharedRing (fp hash : String → UInt32) (R : ℤ) :
    (sharedRing (.bits64 fp)).Proved RingPlace.mode (fun _ => True)
      (fun d => built fp hash R d.log = .ok d.ring)
      (fun _ place d => RingKnows fp hash R d place) where
  enter i c d _ := by cases c <;> trivial
  rlock i place place' h d hI hA := by
    cases place <;> cases h
    exact ⟨hA, hI, rfl⟩
  runlock i place place' h d hA := by
    cases place <;> cases h
    exact hA
  lock i place place' h d hI hA := by
    cases place <;> cases h
    exact ⟨hA, d.ring, hI, Update.call_eq_addRest _⟩
  unlock i place place' h d hA := by
    cases place <;> cases h
    exact hA
  act i place f h d hA := by
    cases hmode : place.mode with
    | free =>
      cases place with
      | update o op =>
        obtain rfl := RWInstr.act.inj h
        exact le_rfl
      | query o q =>
        obtain rfl := RWInstr.act.inj h
        exact le_rfl
      | panicked mode fault => exact hA.elim
      | lock u => cases h
      | updated u k changed => cases h
      | rLock q => cases h
      | answered q answer => cases h
      | _ => cases hmode
    | reading => exact knows_query h hmode hA
    | writing => exact knows_update h hmode hA
  stable i place f h hmode d hA j other hfree hother := hother.mono hfree (log_prefix_act h)

end outline

/-- The number of a change in the log. -/
def RingPlace.number : RingPlace → Option ℕ
  | unlock _ k _ => some k
  | updated _ k _ => some k
  | _ => none

/-- A change is entered in the log when it is published, and nowhere else. -/
theorem numbering_sharedRing (pf : Platform) : Code.Numbering (sharedRing pf).code
    RingPlace.number (fun d => d.data.log.length) where
  enter c := by cases c <;> rfl
  next i place d d' place' started h := by
    obtain ⟨rfl, hcases⟩ := RWProgram.next_cases h
    refine ⟨rfl, ?_⟩
    obtain ⟨hinstr, -, rfl⟩ | ⟨hinstr, rfl⟩ | ⟨hinstr, -, -, rfl⟩ | ⟨hinstr, rfl⟩ |
      ⟨f, hinstr, rfl, rfl⟩ := hcases
    · cases place <;> cases hinstr
      exact .inl ⟨rfl, rfl⟩
    · cases place <;> cases hinstr
      exact .inl ⟨rfl, rfl⟩
    · cases place <;> cases hinstr
      exact .inl ⟨rfl, rfl⟩
    · cases place <;> cases hinstr
      exact .inl ⟨rfl, rfl⟩
    · cases place with
      | publish u changed =>
        obtain rfl := RWInstr.act.inj hinstr
        exact .inr ⟨List.length_append, rfl, rfl⟩
      | _ =>
        cases hinstr <;> dsimp only <;> (repeat' split) <;> exact .inl ⟨rfl, rfl⟩

/-- **Calls on a ring that is shared** behave as if they were made one after the other.  Take
any calls of the public functions of a ring but `RegisterListener`, with their steps
interleaved in any way, and an `int` of 64 bits, with which the tree is in order.  There
is a log of all changes that were made so far, each of one call: while nobody holds the lock
for writing, the ring is the one that these changes build, one after the other.  A change
that has ended stands in the log, not before those that were in it when the call began, and
returned what it returns there; a query that has ended returned what it returns after some of
the changes, all those among them that were in the log when the call began.  No call panics,
and as long as one has not ended, some goroutine can go on. -/
theorem ring_linearizes (fp hash : String → UInt32) (R : ℤ)
    (s : State (RWLocked SharedRing) RingPlace)
    (hs : (sharedRing (.bits64 fp)).code.Reaches (fun _ _ => True)
      (RWProgram.start ⟨.new 64 hash R, []⟩) s) :
    (s.data.writer = none → RingOp.run (.bits64 fp) (.new 64 hash R) s.data.data.log =
      .ok s.data.data.ring) ∧
    (s.threads.filterMap RingPlace.number).Perm (List.range s.data.data.log.length) ∧
    (∀ (i : ℕ) u k changed, s.threads[i]? = some (.updated u k changed) → u.since ≤ k ∧
      s.data.data.log[k]? = some (u.order, u.op) ∧ ∃ r r',
        RingOp.run (.bits64 fp) (.new 64 hash R) (s.data.data.log.take k) = .ok r ∧
        u.op.call (.bits64 fp) u.order r = .ok (changed, r')) ∧
    (∀ (i : ℕ) q answer, s.threads[i]? = some (.answered q answer) → ∃ k r, q.since ≤ k ∧
      k ≤ s.data.data.log.length ∧
      RingOp.run (.bits64 fp) (.new 64 hash R) (s.data.data.log.take k) = .ok r ∧
      q.query.eval q.order r = .ok answer) ∧
    (∀ (i : ℕ) mode fault, s.threads[i]? ≠ some (.panicked mode fault)) ∧
    ∀ (i : ℕ) place, s.threads[i]? = some place →
      (∃ u k changed, place = .updated u k changed) ∨ (∃ q answer, place = .answered q answer) ∨
        ∃ j s', (sharedRing (.bits64 fp)).code.step s (.run j) = some s' := by
  have hstart : RWProgram.Holds RingPlace.mode
      (RWProgram.start (⟨.new 64 hash R, []⟩ : SharedRing)) :=
    RWProgram.holds_start _
  have hholds := (annotated_sharedRing (.bits64 fp)).holds hstart hs
  have houtlined := (proved_sharedRing fp hash R).reaches (annotated_sharedRing _)
    (fun _ _ _ => trivial) hstart (RWProgram.outlined_start rfl) hs
  refine ⟨houtlined.inv, (numbering_sharedRing _).reaches (.refl _) hs,
    fun i u k changed hi => houtlined.at_place i _ hi,
    fun i q answer hi => houtlined.at_place i _ hi,
    fun i mode fault hi => houtlined.at_place i _ hi, fun i place hi => ?_⟩
  by_cases hhalt : (sharedRing (.bits64 fp)).instr place = .halt
  · cases place with
    | updated u k changed => exact .inl ⟨u, k, changed, rfl⟩
    | answered q answer => exact .inr (.inl ⟨q, answer, rfl⟩)
    | _ => cases hhalt
  · exact .inr (.inr ((annotated_sharedRing _).exists_step hholds hi hhalt))

/-- The answer of a goroutine. -/
def RingPlace.answer : RingPlace → Option Answer
  | answered _ answer => some answer
  | _ => none

/-- Two servers are added, one of which has its point already when a lookup is called; the lookup
waits, and finds both. -/
theorem ring_linearizes_waiting : ∃ s : State (RWLocked SharedRing) RingPlace,
    ∃ q, s.threads[1]? = some (.answered q (.owner "b" true)) ∧ ∃ k r, q.since ≤ k ∧
      k ≤ s.data.data.log.length ∧ RingOp.run (.bits64 fun _ => 0)
        (.new 64 (fun s => if s = "a0" then 1 else 2) 1) (s.data.data.log.take k) = .ok r ∧
      q.query.eval q.order r = .ok (.owner "b" true) := by
  have heval : ((sharedRing (.bits64 fun _ => 0)).code.run (fun _ _ => True)
      (RWProgram.start ⟨.new 64 (fun s => if s = "a0" then 1 else 2) 1, []⟩)
      ([.call (.update .sorted (.addRemoveServers ["a", "b"] []))] ++
        List.replicate 4 (.run 0) ++ [.call (.query .sorted (.lookup "k")), .run 1] ++
        List.replicate 8 (.run 0) ++ List.replicate 5 (.run 1))).map
      (fun s => s.threads[1]?.bind RingPlace.answer) = some (some (.owner "b" true)) := by
    decide +kernel
  obtain ⟨s, hrun, hanswer⟩ := Option.map_eq_some_iff.1 heval
  obtain ⟨place, hplace, hanswer⟩ := Option.bind_eq_some_iff.1 hanswer
  obtain ⟨-, -, -, hqueries, -⟩ := ring_linearizes (fun _ => 0)
    (fun s => if s = "a0" then 1 else 2) 1 s (Code.reaches_of_run .refl hrun)
  cases place with
  | answered q answer =>
    obtain rfl := Option.some.inj hanswer
    exact ⟨s, q, hplace, hqueries 1 q _ hplace⟩
  | _ => cases hanswer

end Hashring
end Ringpop
