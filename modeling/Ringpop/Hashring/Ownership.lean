/-
# Who owns which point

What the ring is, without its tree: a set of servers and an owner for some of the
points.  A server that is added takes the points of its replicas that nobody
owns; a server that is removed takes all its points out, whoever owns them
(`Ownership.add`, `Ownership.remove`).  `Owns` relates a ring of
`Ringpop.Hashring.HashRing` to its ownership, every call keeps them related
(`Owns.step`), and `LookupN` and `Lookup` answer from the ownership alone
(`Owns.lookupN`, `Owns.lookup`), in whatever order the maps are enumerated.

All that rests on the tree keeping its points in order, which it does where they
are not negative as an `int`: it has 64 bits, or the hashes are below `2^31`.  `Owns`
asks it of the points of the servers that may come (`PointsFit`), not of those that
never do, nor of the keys: a negative hash of a key lies before all points, where the
walk from it is the walk from 0.
-/

import Ringpop.Hashring.HashRing

namespace Ringpop
namespace Hashring

open CellStore Clockwise

/-- The points of a server: the hashes of the names of its replicas. -/
def ringPoints (hashfunc : String → ℤ) (replicaPoints : ℤ) (server : String) : List ℤ :=
  (List.range replicaPoints.toNat).map fun i => hashfunc (HashRing.replica server i)

/-- The points of a server on a ring. -/
def HashRing.points (r : HashRing) (server : String) : List ℤ :=
  ringPoints r.hashfunc r.replicaPoints server

/-- The servers of a ring and the owners of its points. -/
structure Ownership where
  servers : Finset String
  owner : IntMap

namespace Ownership

/-- Nobody owns anything. -/
def empty : Ownership := ⟨∅, fun _ => none⟩

/-- A new server takes those of its points that nobody owns. -/
def add (points : String → List ℤ) (A : Ownership) (s : String) : Ownership :=
  if s ∈ A.servers then A
  else ⟨insert s A.servers, fun p => if p ∈ points s then (A.owner p).or (some s) else A.owner p⟩

/-- A server that goes takes its points out, whoever owns them. -/
def remove (points : String → List ℤ) (A : Ownership) (s : String) : Ownership :=
  if s ∈ A.servers then
    ⟨A.servers.erase s, fun p => if p ∈ points s then none else A.owner p⟩
  else A

section

variable {points : String → List ℤ} {A : Ownership} {s : String}

theorem add_of_mem (h : s ∈ A.servers) : A.add points s = A := if_pos h

theorem add_of_notMem (h : s ∉ A.servers) : A.add points s =
    ⟨insert s A.servers, fun p => if p ∈ points s then (A.owner p).or (some s) else A.owner p⟩ :=
  if_neg h

theorem remove_of_mem (h : s ∈ A.servers) : A.remove points s =
    ⟨A.servers.erase s, fun p => if p ∈ points s then none else A.owner p⟩ :=
  if_pos h

theorem remove_of_notMem (h : s ∉ A.servers) : A.remove points s = A := if_neg h

theorem add_servers (A : Ownership) (s : String) :
    (A.add points s).servers = insert s A.servers := by
  by_cases hs : s ∈ A.servers
  · rw [add_of_mem hs, Finset.insert_eq_of_mem hs]
  · rw [add_of_notMem hs]

theorem remove_servers (A : Ownership) (s : String) :
    (A.remove points s).servers = A.servers.erase s := by
  by_cases hs : s ∈ A.servers
  · rw [remove_of_mem hs]
  · rw [remove_of_notMem hs, Finset.erase_eq_of_notMem hs]

/-- The servers after several are added. -/
theorem foldl_add_servers (l : List String) (A : Ownership) :
    (l.foldl (add points) A).servers = A.servers ∪ l.toFinset := by
  induction l generalizing A with
  | nil => simp
  | cons s l ih =>
    rw [List.foldl_cons, ih, add_servers, List.toFinset_cons, Finset.insert_union,
      Finset.union_insert]

/-- The servers after several are removed. -/
theorem foldl_remove_servers (l : List String) (A : Ownership) :
    (l.foldl (remove points) A).servers = A.servers \ l.toFinset := by
  induction l generalizing A with
  | nil => simp
  | cons s l ih =>
    rw [List.foldl_cons, ih, remove_servers, List.toFinset_cons, Finset.sdiff_insert,
      Finset.erase_sdiff_comm]

end

end Ownership

/-- What a call does to the ownership. -/
def RingOp.apply (points : String → List ℤ) (A : Ownership) : RingOp → Ownership
  | addServer s => A.add points s
  | removeServer s => A.remove points s
  | addRemoveServers add remove =>
      remove.foldl (Ownership.remove points) (add.foldl (Ownership.add points) A)

/-- The servers that a call may add. -/
def RingOp.added : RingOp → List String
  | addServer s => [s]
  | removeServer _ => []
  | addRemoveServers add _ => add

/-- The servers that a call removes. -/
def RingOp.removed : RingOp → List String
  | addServer _ => []
  | removeServer s => [s]
  | addRemoveServers _ remove => remove

/-- The servers that a sequence of calls may add. -/
def RingOp.addedBy (calls : List (MapOrder × RingOp)) : Finset String :=
  (calls.flatMap fun call => call.2.added).toFinset

theorem RingOp.mem_addedBy {calls : List (MapOrder × RingOp)} {call : MapOrder × RingOp}
    {s : String} (hcall : call ∈ calls) (hs : s ∈ call.2.added) : s ∈ addedBy calls :=
  List.mem_toFinset.2 (List.mem_flatMap.2 ⟨call, hcall, hs⟩)

/-- A property that adding the servers of a call and removing any server keeps,
the call keeps. -/
theorem RingOp.apply_induction {points : String → List ℤ} {A : Ownership}
    {P : Ownership → Prop} (op : RingOp)
    (hadd : ∀ A, ∀ s ∈ op.added, P A → P (A.add points s))
    (hremove : ∀ A s, P A → P (A.remove points s)) (hA : P A) : P (op.apply points A) := by
  cases op with
  | addServer s => exact hadd A s (.head _) hA
  | removeServer s => exact hremove A s hA
  | addRemoveServers add remove =>
    refine List.foldlRecOn remove _ (motive := P) ?_ fun B hB s _ => hremove B s hB
    exact List.foldlRecOn add _ (motive := P) hA fun B hB s hs => hadd B s hs hB

/-! ### Inserting and deleting the points of a server -/

namespace IntMap

/-- The points of a server inserted one after the other. -/
theorem foldl_insert (ps : List ℤ) (s : String) (m : IntMap) :
    ps.foldl (fun m p => m.insert p s) m =
      fun p => if p ∈ ps then (m p).or (some s) else m p := by
  induction ps generalizing m with
  | nil => rfl
  | cons q ps ih =>
    rw [List.foldl_cons, ih]
    funext p
    by_cases hq : p = q
    · subst hq
      cases hm : m p <;> by_cases hp : p ∈ ps <;> simp [IntMap.insert, hm, hp]
    · by_cases hm : (m q).isNone <;> simp [IntMap.insert, hm, hq]

/-- The points of a server deleted one after the other. -/
theorem foldl_delete (ps : List ℤ) (m : IntMap) :
    ps.foldl (fun m p => m.delete p) m = fun p => if p ∈ ps then none else m p := by
  induction ps generalizing m with
  | nil => rfl
  | cons q ps ih =>
    rw [List.foldl_cons, ih]
    funext p
    by_cases hq : p = q
    · subst hq
      by_cases hp : p ∈ ps <;> simp [IntMap.delete, hp]
    · simp [IntMap.delete, hq]

end IntMap

/-! ### Hashes as `int`s -/

/-- A `uint32` is its own value as an `int` of 64 bits. -/
theorem intOfUInt32_eq (h : UInt32) : intOfUInt32 64 h = h.toNat := by
  have hlt : h.toNat < 2 ^ 32 := h.toNat_lt
  refine Int.bmod_eq_of_le ?_ ?_ <;> push_cast <;> omega

/-- A `uint32` as an `int` of 32 bits. -/
theorem intOfUInt32_eq_ite (h : UInt32) : intOfUInt32 32 h =
    if h.toNat < 2 ^ 31 then (h.toNat : ℤ) else h.toNat - 2 ^ 32 := by
  have hlt : h.toNat < 2 ^ 32 := h.toNat_lt
  rw [intOfUInt32, Int.bmod_eq_emod]
  split_ifs <;> omega

theorem intOfUInt32_fits (h : UInt32) : Fits 64 (intOfUInt32 64 h) := by
  have hlt : h.toNat < 2 ^ 32 := h.toNat_lt
  rw [intOfUInt32_eq]
  exact fits_of_lt (by omega) (by exact_mod_cast hlt)

/-- Different hashes are different `int`s, of either width. -/
theorem intOfUInt32_injective (W : IntWidth) : Function.Injective (intOfUInt32 W.bits) := by
  intro g h heq
  have hg : g.toNat < 2 ^ 32 := g.toNat_lt
  have hh : h.toNat < 2 ^ 32 := h.toNat_lt
  refine UInt32.toNat_inj.1 ?_
  cases W with
  | bits64 =>
    simp only [IntWidth.bits, intOfUInt32_eq] at heq
    omega
  | bits32 =>
    simp only [IntWidth.bits, intOfUInt32_eq_ite] at heq
    split_ifs at heq <;> omega

/-- A hash that is not negative as an `int` is its own value. -/
theorem intOfUInt32_eq_of_lt {W : IntWidth} {h : UInt32} (hW : W = .bits64 ∨ h.toNat < 2 ^ 31) :
    intOfUInt32 W.bits h = h.toNat := by
  cases W with
  | bits64 => exact intOfUInt32_eq h
  | bits32 =>
    have hlt : h.toNat < 2 ^ 31 := hW.resolve_left (by decide)
    rw [IntWidth.bits, intOfUInt32_eq_ite, if_pos hlt]

theorem intOfUInt32_fits_of_lt {W : IntWidth} {h : UInt32}
    (hW : W = .bits64 ∨ h.toNat < 2 ^ 31) : Fits W.bits (intOfUInt32 W.bits h) := by
  cases W with
  | bits64 => exact intOfUInt32_fits h
  | bits32 =>
    have hlt : h.toNat < 2 ^ 31 := hW.resolve_left (by decide)
    rw [intOfUInt32_eq_of_lt hW]
    exact ⟨by omega, by exact_mod_cast hlt⟩

/-- The points of the servers of `U` are not negative as an `int`: it has 64 bits, or their
hashes are below `2^31`. -/
def PointsFit (W : IntWidth) (hash : String → UInt32) (R : ℤ) (U : Finset String) : Prop :=
  W = .bits64 ∨ ∀ s ∈ U, ∀ i < R.toNat, (hash (HashRing.replica s i)).toNat < 2 ^ 31

instance (W : IntWidth) (hash : String → UInt32) (R : ℤ) (U : Finset String) :
    Decidable (PointsFit W hash R U) :=
  inferInstanceAs (Decidable (W = .bits64 ∨ ∀ s ∈ U, ∀ i < R.toNat, _))

theorem PointsFit.intOfUInt32_eq {W : IntWidth} {hash : String → UInt32} {R : ℤ}
    {U : Finset String} (h : PointsFit W hash R U) {s : String} (hs : s ∈ U) {i : ℕ}
    (hi : i < R.toNat) : intOfUInt32 W.bits (hash (HashRing.replica s i)) =
      (hash (HashRing.replica s i)).toNat :=
  intOfUInt32_eq_of_lt (h.imp_right fun h => h s hs i hi)

/-- Then the tree can compare them. -/
theorem PointsFit.fits {W : IntWidth} {hash : String → UInt32} {R : ℤ} {U : Finset String}
    (h : PointsFit W hash R U) {s : String} (hs : s ∈ U) :
    ∀ p ∈ ringPoints (fun s => intOfUInt32 W.bits (hash s)) R s, Fits W.bits p := by
  intro p hp
  obtain ⟨i, hi, rfl⟩ := List.mem_map.1 hp
  exact intOfUInt32_fits_of_lt (h.imp_right fun h => h s hs i (List.mem_range.1 hi))

/-! ### A ring and its ownership -/

/-- A ring and its ownership: the same servers, which are among those that may come, a tree that
stands for the owners, and points of the servers that may come which the tree can compare. -/
structure Owns (pf : Platform) (hashfunc : String → ℤ) (replicaPoints : ℤ) (U : Set String)
    (r : HashRing) (A : Ownership) : Prop where
  hashfunc_eq : r.hashfunc = hashfunc
  replicaPoints_eq : r.replicaPoints = replicaPoints
  servers : r.serverSet = A.servers
  tree : Refines pf.intSize r.tree A.owner
  known : ∀ s ∈ A.servers, s ∈ U
  fits : ∀ s ∈ U, ∀ p ∈ ringPoints hashfunc replicaPoints s, Fits pf.intSize p

/-- The ring that `New` returns, where the points fit an `int`. -/
theorem owns_new {W : IntWidth} {hash : String → UInt32} {R : ℤ} {U : Finset String}
    (fp : String → UInt32) (h : PointsFit W hash R U) :
    Owns ⟨W.bits, fp⟩ (fun s => intOfUInt32 W.bits (hash s)) R U (.new W.bits hash R) .empty where
  hashfunc_eq := rfl
  replicaPoints_eq := rfl
  servers := rfl
  tree := refines_empty W.bits
  known s hs := absurd hs (Finset.notMem_empty s)
  fits _ hs := h.fits hs

/-- The ring that `New` returns, where every hash fits an `int`: then any server may come. -/
theorem owns_new_of_fits {w : ℕ} {hash : String → UInt32} (fp : String → UInt32) (R : ℤ)
    (hfits : ∀ s, Fits w (intOfUInt32 w (hash s))) :
    Owns ⟨w, fp⟩ (fun s => intOfUInt32 w (hash s)) R Set.univ (.new w hash R) .empty where
  hashfunc_eq := rfl
  replicaPoints_eq := rfl
  servers := rfl
  tree := refines_empty w
  known s _ := Set.mem_univ s
  fits s _ p hp := by
    obtain ⟨i, -, rfl⟩ := List.mem_map.1 hp
    exact hfits _

section calls

variable {pf : Platform} {hashfunc : String → ℤ} {R : ℤ} {U : Set String} {r : HashRing}
  {A : Ownership} {o : MapOrder}

/-- A loop over the replicas of a server, whose body is a call on the tree, is a
sequence of such calls. -/
theorem foldlM_replicas (h : Owns pf hashfunc R U r A) {server : String} (hserver : server ∈ U)
    (op : ℤ → TreeOp) (hop : ∀ v, (op v).val = v) :
    ∃ t', (∀ f : RedBlackTree → ℕ → Except Fault RedBlackTree,
        (∀ t i, f t i = (op (r.hashfunc (HashRing.replica server i))).step pf.intSize t) →
        (List.range r.replicaPoints.toNat).foldlM f r.tree = .ok t') ∧
      Refines pf.intSize t'
        (((ringPoints hashfunc R server).map op).foldl TreeOp.apply A.owner) := by
  have hfits : ∀ x ∈ (ringPoints hashfunc R server).map op, Fits pf.intSize x.val := by
    rintro _ hx
    obtain ⟨p, hp, rfl⟩ := List.mem_map.1 hx
    rw [hop]
    exact h.fits server hserver p hp
  obtain ⟨t', hrun, ht'⟩ := h.tree.run _ hfits
  refine ⟨t', fun f hf => ?_, ht'⟩
  rw [← hrun, TreeOp.run, ringPoints, List.map_map, List.foldlM_map, ← h.replicaPoints_eq,
    ← h.hashfunc_eq]
  exact congrFun (congrArg₂ List.foldlM (funext₂ hf) rfl) _

/-- **`addServerNoLock`.** -/
theorem Owns.addServerNoLock (h : Owns pf hashfunc R U r A) {s : String} (hsU : s ∈ U) :
    ∃ r', r.addServerNoLock pf s = .ok (decide (s ∉ A.servers), r') ∧
      Owns pf hashfunc R U r' (A.add (ringPoints hashfunc R) s) := by
  by_cases hs : s ∈ A.servers
  · refine ⟨r, ?_, by rwa [Ownership.add_of_mem hs]⟩
    rw [HashRing.addServerNoLock, h.servers, if_pos hs]
    simp [hs]
    rfl
  · obtain ⟨t', hrun, ht'⟩ := foldlM_replicas h hsU (.insert · s) (fun _ => rfl)
    refine ⟨{ r with serverSet := insert s r.serverSet, tree := t' }, ?_, ?_⟩
    · rw [HashRing.addServerNoLock, if_neg (h.servers ▸ hs), HashRing.addReplicasNoLock, hrun,
        decide_eq_true hs]
      · rfl
      · intro t i
        rw [TreeOp.step]
        cases t.insert pf.intSize (r.hashfunc (HashRing.replica s i)) s <;> rfl
    · rw [Ownership.add_of_notMem hs]
      refine ⟨h.hashfunc_eq, h.replicaPoints_eq, by simp [h.servers], ?_,
        Finset.forall_mem_insert _ _ _ |>.2 ⟨hsU, h.known⟩, h.fits⟩
      rw [← IntMap.foldl_insert]
      simpa [List.foldl_map, TreeOp.apply] using ht'

/-- **`removeServerNoLock`.** -/
theorem Owns.removeServerNoLock (h : Owns pf hashfunc R U r A) (s : String) :
    ∃ r', r.removeServerNoLock pf s = .ok (decide (s ∈ A.servers), r') ∧
      Owns pf hashfunc R U r' (A.remove (ringPoints hashfunc R) s) := by
  by_cases hs : s ∈ A.servers
  · obtain ⟨t', hrun, ht'⟩ := foldlM_replicas h (h.known s hs) .delete (fun _ => rfl)
    refine ⟨{ r with serverSet := r.serverSet.erase s, tree := t' }, ?_, ?_⟩
    · rw [HashRing.removeServerNoLock, if_neg (by simpa [h.servers] using hs),
        HashRing.removeReplicasNoLock, hrun, decide_eq_true hs]
      · rfl
      · intro t i
        rw [TreeOp.step]
        cases t.delete pf.intSize (r.hashfunc (HashRing.replica s i)) <;> rfl
    · rw [Ownership.remove_of_mem hs]
      refine ⟨h.hashfunc_eq, h.replicaPoints_eq, by simp [h.servers], ?_,
        fun t ht => h.known t (Finset.mem_of_mem_erase ht), h.fits⟩
      rw [← IntMap.foldl_delete]
      simpa [List.foldl_map, TreeOp.apply] using ht'
  · refine ⟨r, ?_, by rwa [Ownership.remove_of_notMem hs]⟩
    rw [HashRing.removeServerNoLock, h.servers, if_pos hs]
    simp [hs]
    rfl

/-- A new checksum and an event leave the ownership alone. -/
theorem Owns.publish (h : Owns pf hashfunc R U r A) (o : MapOrder) (event : RingEvent) :
    Owns pf hashfunc R U ((r.computeChecksumNoLock pf o).emit event) A :=
  ⟨h.hashfunc_eq, h.replicaPoints_eq, h.servers, h.tree, h.known, h.fits⟩

/-- The end of every call: a ring that has changed is published. -/
theorem Owns.published (h : Owns pf hashfunc R U r A) (o : MapOrder) (event : RingEvent)
    (b : Bool) :
    ∃ r', (if b = true then pure (b, (r.computeChecksumNoLock pf o).emit event) else pure (b, r) :
        Except Fault (Bool × HashRing)) = .ok (b, r') ∧ Owns pf hashfunc R U r' A := by
  cases b with
  | true => exact ⟨_, rfl, h.publish o event⟩
  | false => exact ⟨r, rfl, h⟩

/-- **`AddServer`.** -/
theorem Owns.addServer (h : Owns pf hashfunc R U r A) (o : MapOrder) {s : String} (hsU : s ∈ U) :
    ∃ r', r.addServer pf o s = .ok (decide (s ∉ A.servers), r') ∧
      Owns pf hashfunc R U r' (A.add (ringPoints hashfunc R) s) := by
  obtain ⟨r₁, hcall, h₁⟩ := h.addServerNoLock hsU
  obtain ⟨r', hend, h'⟩ := h₁.published o (.ringChanged [s] []) (decide (s ∉ A.servers))
  refine ⟨r', ?_, h'⟩
  rw [HashRing.addServer, hcall]
  exact hend

/-- **`RemoveServer`.** -/
theorem Owns.removeServer (h : Owns pf hashfunc R U r A) (o : MapOrder) (s : String) :
    ∃ r', r.removeServer pf o s = .ok (decide (s ∈ A.servers), r') ∧
      Owns pf hashfunc R U r' (A.remove (ringPoints hashfunc R) s) := by
  obtain ⟨r₁, hcall, h₁⟩ := h.removeServerNoLock s
  obtain ⟨r', hend, h'⟩ := h₁.published o (.ringChanged [] [s]) (decide (s ∈ A.servers))
  refine ⟨r', ?_, h'⟩
  rw [HashRing.removeServer, hcall]
  exact hend

/-- A loop of `addRemoveServersNoLock` changes one server after the other. -/
theorem Owns.changeServers {change : HashRing → String → Except Fault (Bool × HashRing)}
    {f : Ownership → String → Ownership} (servers : List String)
    (hchange : ∀ r A, ∀ s ∈ servers, Owns pf hashfunc R U r A →
      ∃ b r', change r s = .ok (b, r') ∧ Owns pf hashfunc R U r' (f A s))
    (h : Owns pf hashfunc R U r A) (changed : Bool) :
    ∃ b r', HashRing.changeServers change servers changed r = .ok (b, r') ∧
      Owns pf hashfunc R U r' (servers.foldl f A) := by
  have hrun : ∃ s', HashRing.changeServers change servers changed r = .ok s' ∧
      Owns pf hashfunc R U s'.2 (servers.foldl f A) := by
    refine Runs.foldlM_refines (R := fun (s : Bool × HashRing) A => Owns pf hashfunc R U s.2 A)
      (fun s A server hserver hs => ?_) h
    obtain ⟨b, r', hcall, h'⟩ := hchange s.2 A server hserver hs
    refine ⟨(if b then true else s.1, r'), ?_, h'⟩
    simp only [hcall]
    rfl
  obtain ⟨⟨b, r'⟩, hrun, h'⟩ := hrun
  exact ⟨b, r', hrun, h'⟩

/-- **`AddRemoveServers`.** -/
theorem Owns.addRemoveServers (h : Owns pf hashfunc R U r A) (o : MapOrder)
    (add : List String) (hadd : ∀ s ∈ add, s ∈ U) (remove : List String) :
    ∃ b r', r.addRemoveServers pf o add remove = .ok (b, r') ∧
      Owns pf hashfunc R U r' (remove.foldl (Ownership.remove (ringPoints hashfunc R))
        (add.foldl (Ownership.add (ringPoints hashfunc R)) A)) := by
  obtain ⟨b₁, r₁, hcall₁, h₁⟩ := h.changeServers add
    (fun r A s hs h => ⟨_, h.addServerNoLock (s := s) (hadd s hs)⟩) false
  obtain ⟨b₂, r₂, hcall₂, h₂⟩ := h₁.changeServers remove
    (fun r A s _ h => ⟨_, h.removeServerNoLock s⟩) b₁
  obtain ⟨r', hend, h'⟩ := h₂.published o (.ringChanged add remove) b₂
  refine ⟨b₂, r', ?_, h'⟩
  rw [HashRing.addRemoveServers, hcall₁]
  simp only [Bind.bind, Except.bind, hcall₂]
  exact hend

/-- **One call** does to the ring what it does to the ownership. -/
theorem Owns.step (h : Owns pf hashfunc R U r A) (call : MapOrder × RingOp)
    (hcall : ∀ s ∈ call.2.added, s ∈ U) :
    ∃ r', RingOp.step pf r call = .ok r' ∧
      Owns pf hashfunc R U r' (call.2.apply (ringPoints hashfunc R) A) := by
  obtain ⟨o, op⟩ := call
  cases op with
  | addServer s =>
    obtain ⟨r', hcall, h'⟩ := h.addServer o (hcall s (.head _))
    exact ⟨r', by rw [RingOp.step, hcall]; rfl, h'⟩
  | removeServer s =>
    obtain ⟨r', hcall, h'⟩ := h.removeServer o s
    exact ⟨r', by rw [RingOp.step, hcall]; rfl, h'⟩
  | addRemoveServers add remove =>
    obtain ⟨b, r', hcall, h'⟩ := h.addRemoveServers o add hcall remove
    exact ⟨r', by rw [RingOp.step, hcall]; rfl, h'⟩

/-- **A sequence of calls** does to the ring what it does to the ownership, and
no call stops at a fault. -/
theorem Owns.run (h : Owns pf hashfunc R U r A) (calls : List (MapOrder × RingOp))
    (hcalls : ∀ s ∈ RingOp.addedBy calls, s ∈ U) :
    ∃ r', RingOp.run pf r calls = .ok r' ∧ Owns pf hashfunc R U r'
      ((calls.map Prod.snd).foldl (RingOp.apply (ringPoints hashfunc R)) A) := by
  rw [List.foldl_map]
  exact Runs.foldlM_refines
    (fun _ _ call hcall hr => hr.step call fun s hs => hcalls s (RingOp.mem_addedBy hcall hs)) h

end calls

end Hashring
end Ringpop
