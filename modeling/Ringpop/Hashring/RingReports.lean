/-
# What a ring reports of itself

A ring answers its callers and its listeners: a call that changes the servers returns whether
it has, stores a new checksum and emits it, and emits the servers of the call.  None of that
depends on the tree (`Reports`, one for all calls).

The checksum is the fingerprint of the servers, sorted and joined by semicolons.  After every
sequence of calls it belongs to the servers that are there (`checksum_of_run`), and if there is
a server and none has a semicolon in it, the string tells what the servers are
(`checksum_identifies_servers`).

The result and the event of `AddRemoveServers` are not as exact.  The loop that removes may
undo what the loop that adds has done, which counts as a change, and the event names the
servers of the call whether or not they were on the ring.  Both are right for a call that does
nothing and for a call that does all it is asked for, and for no other
(`addRemoveServers_reports_iff`).
-/

import Ringpop.Collections.Words
import Ringpop.Hashring.Lookup

namespace Ringpop
namespace Hashring

open CellStore

/-! ### The checksum -/

/-- The string that the checksum of a ring is the fingerprint of. -/
def checksumString (servers : Finset String) : String :=
  ";".intercalate (MapOrder.sorted.keys servers)

/-- The servers are sorted, so the order in which the map is enumerated does not matter. -/
theorem MapOrder.insertionSort_keys (o : MapOrder) (s : Finset String) :
    (o.keys s).insertionSort (· ≤ ·) = sorted.keys s := by
  have hperm : (o.keys s).Perm (sorted.keys s) :=
    (List.perm_ext_iff_of_nodup (o.nodup s) (sorted.nodup s)).2 fun x => by
      rw [o.mem_keys, sorted.mem_keys]
  exact ((List.perm_insertionSort (· ≤ ·) _).trans hperm).eq_of_sortedLE
    List.sortedLE_insertionSort (s.sortedLT_sort).sortedLE

namespace HashRing

variable {pf : Platform} {o : MapOrder} {r r' r₁ : HashRing} {add remove : List String} {b : Bool}

theorem checksum_computeChecksumNoLock (pf : Platform) (o : MapOrder) (r : HashRing) :
    (r.computeChecksumNoLock pf o).checksum = pf.fingerprint32 (checksumString r.serverSet) := by
  show pf.fingerprint32 (";".intercalate ((o.keys r.serverSet).insertionSort (· ≤ ·))) = _
  rw [o.insertionSort_keys, checksumString]

/-! ### One call -/

/-- What a call that adds some servers and removes others does, as far as callers and listeners
see it. -/
structure Reports (pf : Platform) (add remove : List String) (r : HashRing) (b : Bool)
    (r' : HashRing) : Prop where
  servers : r'.serverSet = (r.serverSet ∪ add.toFinset) \ remove.toFinset
  changed : b = true ↔
    (∃ s ∈ add, s ∉ r.serverSet) ∨ ∃ s ∈ remove, s ∈ r.serverSet ∪ add.toFinset
  checksum : r'.checksum = if b then pf.fingerprint32 (checksumString r'.serverSet) else r.checksum
  emitted : r'.emitted = r.emitted ++
    if b then [.ringChecksum r.checksum r'.checksum, .ringChanged add remove] else []

/-- Nothing is reported yet. -/
structure Quiet (r r' : HashRing) : Prop where
  checksum : r'.checksum = r.checksum
  emitted : r'.emitted = r.emitted

theorem Quiet.refl (r : HashRing) : Quiet r r := ⟨rfl, rfl⟩

theorem Quiet.trans (h : Quiet r r₁) (h' : Quiet r₁ r') : Quiet r r' :=
  ⟨h'.checksum.trans h.checksum, h'.emitted.trans h.emitted⟩

/-- The end of every call: a ring that has changed is published. -/
theorem Quiet.reports (h : Quiet r r₁)
    (hservers : r₁.serverSet = (r.serverSet ∪ add.toFinset) \ remove.toFinset)
    (hchanged : b = true ↔
      (∃ s ∈ add, s ∉ r.serverSet) ∨ ∃ s ∈ remove, s ∈ r.serverSet ∪ add.toFinset)
    (o : MapOrder) : Reports pf add remove r b
      (if b then (r₁.computeChecksumNoLock pf o).emit (.ringChanged add remove) else r₁) := by
  cases b with
  | false => exact ⟨hservers, hchanged, h.checksum, h.emitted.trans (List.append_nil _).symm⟩
  | true =>
    refine ⟨hservers, hchanged, checksum_computeChecksumNoLock pf o r₁, ?_⟩
    show (r₁.emitted ++ [_]) ++ [_] = r.emitted ++ [_, _]
    rw [h.emitted, h.checksum, List.append_assoc]
    rfl

/-- `addServerNoLock` adds a server that is not there. -/
theorem addServerNoLock_ok {s : String} (h : r.addServerNoLock pf s = .ok (b, r')) :
    (b = true ↔ s ∉ r.serverSet) ∧ r'.serverSet = r.serverSet ∪ [s].toFinset ∧ Quiet r r' := by
  rw [addServerNoLock] at h
  split_ifs at h with hs
  · obtain ⟨rfl, rfl⟩ := Prod.mk.inj (Except.ok.inj h)
    refine ⟨by simp [hs], ?_, .refl r⟩
    rw [Finset.union_eq_left.2]
    simpa using hs
  · obtain ⟨r₁, hr₁, h⟩ := exists_of_bind_eq_ok h
    obtain ⟨rfl, rfl⟩ := Prod.mk.inj (Except.ok.inj h)
    obtain ⟨t, -, ht⟩ := exists_of_bind_eq_ok hr₁
    obtain rfl := Except.ok.inj ht
    refine ⟨by simp [hs], ?_, rfl, rfl⟩
    rw [Finset.union_comm]
    rfl

/-- `removeServerNoLock` removes a server that is there. -/
theorem removeServerNoLock_ok {s : String} (h : r.removeServerNoLock pf s = .ok (b, r')) :
    (b = true ↔ s ∈ r.serverSet) ∧ r'.serverSet = r.serverSet \ [s].toFinset ∧ Quiet r r' := by
  rw [removeServerNoLock] at h
  split_ifs at h with hs
  · obtain ⟨r₁, hr₁, h⟩ := exists_of_bind_eq_ok h
    obtain ⟨rfl, rfl⟩ := Prod.mk.inj (Except.ok.inj h)
    obtain ⟨t, -, ht⟩ := exists_of_bind_eq_ok hr₁
    obtain rfl := Except.ok.inj ht
    refine ⟨by simp [hs], ?_, rfl, rfl⟩
    rw [Finset.erase_eq]
    rfl
  · obtain ⟨rfl, rfl⟩ := Prod.mk.inj (Except.ok.inj h)
    refine ⟨by simp [hs], ?_, .refl r⟩
    rw [Finset.sdiff_eq_self_of_disjoint]
    simpa using hs

/-- **A loop of `addRemoveServersNoLock`** changes the ring if one of its servers does, and a
server that has had its turn does not.  `F S l` are the servers after the loop over `l`, and
`P S s` says that `s` changes `S`. -/
theorem changeServers_ok {change : HashRing → String → Except Fault (Bool × HashRing)}
    {F : Finset String → List String → Finset String} {P : Finset String → String → Prop}
    (hchange : ∀ {r s b r'}, change r s = .ok (b, r') →
      (b = true ↔ P r.serverSet s) ∧ r'.serverSet = F r.serverSet [s] ∧ Quiet r r')
    (hnil : ∀ S, F S [] = S) (hcons : ∀ S s l, F (F S [s]) l = F S (s :: l))
    (hP : ∀ S s t, P (F S [s]) t ↔ t ≠ s ∧ P S t)
    {l : List String} {changed changed' : Bool}
    (h : changeServers change l changed r = .ok (changed', r')) :
    (changed' = true ↔ changed = true ∨ ∃ s ∈ l, P r.serverSet s) ∧
      r'.serverSet = F r.serverSet l ∧ Quiet r r' := by
  induction l generalizing r changed with
  | nil =>
    obtain ⟨rfl, rfl⟩ := Prod.mk.inj (Except.ok.inj h)
    exact ⟨by simp, (hnil _).symm, .refl r⟩
  | cons s l ih =>
    rw [changeServers, List.foldlM_cons] at h
    obtain ⟨⟨b, r₁⟩, hone, h⟩ := exists_of_bind_eq_ok h
    obtain ⟨⟨b₁, r₂⟩, hcall, hone⟩ := exists_of_bind_eq_ok hone
    obtain ⟨rfl, rfl⟩ := Prod.mk.inj (Except.ok.inj hone)
    obtain ⟨hb, hset, hquiet⟩ := hchange hcall
    obtain ⟨hchanged, hset', hquiet'⟩ := ih h
    refine ⟨?_, by rw [hset', hset, hcons], hquiet.trans hquiet'⟩
    have hhere : (if b₁ = true then true else changed) = true ↔
        changed = true ∨ P r.serverSet s := by
      rw [← hb]
      cases b₁ <;> simp
    rw [hchanged, hhere, hset, or_assoc, List.exists_mem_cons_iff]
    simp only [hP]
    grind

/-- The servers of a call are changed, and the ring is published if one of them has changed. -/
theorem eq_of_published {event : RingEvent} {b₁ : Bool}
    (h : (if b₁ = true then pure (b₁, (r₁.computeChecksumNoLock pf o).emit event)
      else pure (b₁, r₁) : Except Fault (Bool × HashRing)) = .ok (b, r')) :
    b = b₁ ∧ r' = if b₁ then (r₁.computeChecksumNoLock pf o).emit event else r₁ := by
  split_ifs at h with hb
  · obtain ⟨rfl, rfl⟩ := Prod.mk.inj (Except.ok.inj h)
    exact ⟨rfl, (if_pos hb).symm⟩
  · obtain ⟨rfl, rfl⟩ := Prod.mk.inj (Except.ok.inj h)
    exact ⟨rfl, (if_neg hb).symm⟩

/-- **`AddServer`**, if it returns. -/
theorem addServer_ok {s : String} (h : r.addServer pf o s = .ok (b, r')) :
    Reports pf [s] [] r b r' := by
  obtain ⟨⟨b₁, r₁⟩, hbody, h⟩ := exists_of_bind_eq_ok h
  obtain ⟨hb, hset, hquiet⟩ := addServerNoLock_ok hbody
  obtain ⟨rfl, rfl⟩ := eq_of_published h
  exact hquiet.reports (by simp [hset]) (by simp [hb]) o

/-- **`RemoveServer`**, if it returns. -/
theorem removeServer_ok {s : String} (h : r.removeServer pf o s = .ok (b, r')) :
    Reports pf [] [s] r b r' := by
  obtain ⟨⟨b₁, r₁⟩, hbody, h⟩ := exists_of_bind_eq_ok h
  obtain ⟨hb, hset, hquiet⟩ := removeServerNoLock_ok hbody
  obtain ⟨rfl, rfl⟩ := eq_of_published h
  exact hquiet.reports (by simp [hset]) (by simp [hb]) o

/-- **`AddRemoveServers`**, if it returns. -/
theorem addRemoveServers_ok (h : r.addRemoveServers pf o add remove = .ok (b, r')) :
    Reports pf add remove r b r' := by
  obtain ⟨⟨b₁, r₁⟩, hadd, h⟩ := exists_of_bind_eq_ok h
  obtain ⟨⟨b₂, r₂⟩, hremove, h⟩ := exists_of_bind_eq_ok h
  obtain ⟨hb₁, hset₁, hquiet₁⟩ := changeServers_ok (F := fun S l => S ∪ l.toFinset)
    (P := fun S s => s ∉ S) addServerNoLock_ok (by simp) (by simp) (by simp) hadd
  obtain ⟨hb₂, hset₂, hquiet₂⟩ := changeServers_ok (F := fun S l => S \ l.toFinset)
    (P := fun S s => s ∈ S) removeServerNoLock_ok (by simp) (by simp [sdiff_sdiff_left])
    (by simp [and_comm]) hremove
  obtain ⟨rfl, rfl⟩ := eq_of_published h
  refine (hquiet₁.trans hquiet₂).reports (by rw [hset₂, hset₁]) ?_ o
  rw [hb₂, hb₁, hset₁]
  simp

/-- A call returns `false` if there is nothing for it to do. -/
theorem Reports.eq_false_iff (h : Reports pf add remove r b r') :
    b = false ↔ (∀ s ∈ add, s ∈ r.serverSet) ∧ ∀ s ∈ remove, s ∉ r.serverSet := by
  rw [← Bool.not_eq_true, h.changed]
  push Not
  refine and_congr_right fun hadd => ?_
  have hunion : r.serverSet ∪ add.toFinset = r.serverSet :=
    Finset.union_eq_left.2 fun s hs => hadd s (List.mem_toFinset.1 hs)
  rw [hunion]

/-- Then it leaves the servers as they are. -/
theorem Reports.servers_eq (h : Reports pf add remove r false r') :
    r'.serverSet = r.serverSet := by
  obtain ⟨hadd, hremove⟩ := h.eq_false_iff.1 rfl
  have hunion : r.serverSet ∪ add.toFinset = r.serverSet :=
    Finset.union_eq_left.2 fun s hs => hadd s (List.mem_toFinset.1 hs)
  rw [h.servers, hunion, Finset.sdiff_eq_self_iff_disjoint, Finset.disjoint_right]
  exact fun s hs => hremove s (List.mem_toFinset.1 hs)

/-- The event of a call names the servers that the call was given. -/
theorem Reports.mem_events (h : Reports pf add remove r b r') (added removed : List String) :
    .ringChanged added removed ∈ r'.emitted.drop r.emitted.length ↔
      b = true ∧ added = add ∧ removed = remove := by
  rw [h.emitted, List.drop_left]
  cases b <;> simp

end HashRing

open HashRing

/-- **One call** reports what it adds and removes. -/
theorem RingOp.step_ok {pf : Platform} {r r' : HashRing} {call : MapOrder × RingOp}
    (h : RingOp.step pf r call = .ok r') : ∃ b, Reports pf call.2.added call.2.removed r b r' := by
  obtain ⟨o, op⟩ := call
  cases op with
  | addServer s =>
    obtain ⟨⟨b, r₁⟩, hcall, rfl⟩ := exists_of_map_eq_ok h
    exact ⟨b, addServer_ok hcall⟩
  | removeServer s =>
    obtain ⟨⟨b, r₁⟩, hcall, rfl⟩ := exists_of_map_eq_ok h
    exact ⟨b, removeServer_ok hcall⟩
  | addRemoveServers add remove =>
    obtain ⟨⟨b, r₁⟩, hcall, rfl⟩ := exists_of_map_eq_ok h
    exact ⟨b, addRemoveServers_ok hcall⟩

/-! ### The checksum of a run -/

/-- The checksum is that of the servers, unless the ring is empty, when it may be the `0` of a
new ring. -/
def Checked (pf : Platform) (r : HashRing) : Prop :=
  r.serverSet.Nonempty → r.checksum = pf.fingerprint32 (checksumString r.serverSet)

/-- **One call** keeps the checksum that of the servers. -/
theorem Checked.step {pf : Platform} {r r' : HashRing} {call : MapOrder × RingOp}
    (h : Checked pf r) (hstep : RingOp.step pf r call = .ok r') : Checked pf r' := by
  obtain ⟨b, hreports⟩ := RingOp.step_ok hstep
  intro hne
  cases b with
  | true => exact hreports.checksum
  | false =>
    rw [hreports.servers_eq] at hne ⊢
    exact hreports.checksum.trans (h hne)

/-- **Every sequence of calls** leaves the checksum of the servers that are there. -/
theorem checksum_of_run {pf : Platform} {w : ℕ} {hash : String → UInt32} {R : ℤ}
    {calls : List (MapOrder × RingOp)} {r : HashRing}
    (h : RingOp.run pf (.new w hash R) calls = .ok r) : Checked pf r :=
  Runs.foldlM_invariant (fun _ _ _ hr hstep => hr.step hstep)
    (fun hne => absurd rfl hne.ne_empty) h

/-- **The string determines the servers.** -/
theorem checksumString_inj {S T : Finset String} (hS : S.Nonempty) (hT : T.Nonempty)
    (hS' : ∀ s ∈ S, ';' ∉ s.toList) (hT' : ∀ s ∈ T, ';' ∉ s.toList)
    (h : checksumString S = checksumString T) : S = T := by
  have hne {S : Finset String} (hS : S.Nonempty) :
      (MapOrder.sorted.keys S).map String.toList ≠ [] := by
    obtain ⟨s, hs⟩ := hS
    exact List.ne_nil_of_mem (List.mem_map_of_mem ((MapOrder.sorted.mem_keys S s).2 hs))
  have hword {S : Finset String} (hS : ∀ s ∈ S, ';' ∉ s.toList) :
      ∀ w ∈ (MapOrder.sorted.keys S).map String.toList, ';' ∉ w := by
    intro w hw
    obtain ⟨s, hs, rfl⟩ := List.mem_map.1 hw
    exact hS s ((MapOrder.sorted.mem_keys S s).1 hs)
  have hlist := congrArg String.toList h
  rw [checksumString, checksumString, String.toList_intercalate, String.toList_intercalate]
    at hlist
  have hsort := List.map_injective_iff.2 (fun _ _ => String.toList_inj.1)
    (Words.eq_of_intercalate_eq (hne hS) (hne hT) (hword hS') (hword hT') hlist)
  rw [← MapOrder.sorted.toFinset_keys S, hsort, MapOrder.sorted.toFinset_keys]

/-- **The checksum identifies the servers.**  After any sequences of calls, on any machines, two
rings that are not empty and whose servers have no semicolon in them store the fingerprints of
strings that are the same exactly if the servers are the same. -/
theorem checksum_identifies_servers (fp : String → UInt32) (w w' : ℕ)
    (hash hash' : String → UInt32) (R R' : ℤ) (calls calls' : List (MapOrder × RingOp))
    (r r' : HashRing) (hrun : RingOp.run ⟨w, fp⟩ (.new w hash R) calls = .ok r)
    (hrun' : RingOp.run ⟨w', fp⟩ (.new w' hash' R') calls' = .ok r')
    (hne : r.serverSet.Nonempty) (hne' : r'.serverSet.Nonempty)
    (hservers : ∀ s ∈ r.serverSet, s ≠ "" ∧ ';' ∉ s.toList)
    (hservers' : ∀ s ∈ r'.serverSet, s ≠ "" ∧ ';' ∉ s.toList) :
    r.checksum = fp (checksumString r.serverSet) ∧
      r'.checksum = fp (checksumString r'.serverSet) ∧
      (checksumString r.serverSet = checksumString r'.serverSet ↔ r.serverSet = r'.serverSet) := by
  refine ⟨checksum_of_run hrun hne, checksum_of_run hrun' hne', fun heq => ?_, fun heq => ?_⟩
  · exact checksumString_inj hne hne' (fun s hs => (hservers s hs).2)
      (fun s hs => (hservers' s hs).2) heq
  · rw [heq]

/-- Two servers, added one after the other and in one call that adds a third and takes it out. -/
theorem checksum_identifies_servers_two :
    ∃ r r' : HashRing,
      RingOp.run ⟨64, fun s => .ofNat s.length⟩ (.new 64 (fun s => if s = "a0" then 1 else 2) 1)
        [(.sorted, .addServer "a"), (.sorted, .addServer "b")] = .ok r ∧
      RingOp.run ⟨32, fun s => .ofNat s.length⟩ (.new 32 (fun _ => 7) 2)
        [(.sorted, .addRemoveServers ["b", "c", "a"] ["c"])] = .ok r' ∧
      r.serverSet = {"a", "b"} ∧ r'.serverSet = {"a", "b"} ∧ r.checksum = r'.checksum := by
  have heval : (do
      let r ← RingOp.run ⟨64, fun s => .ofNat s.length⟩
        (.new 64 (fun s => if s = "a0" then 1 else 2) 1)
        [(.sorted, .addServer "a"), (.sorted, .addServer "b")]
      let r' ← RingOp.run ⟨32, fun s => .ofNat s.length⟩ (.new 32 (fun _ => 7) 2)
        [(.sorted, .addRemoveServers ["b", "c", "a"] ["c"])]
      return decide (r.serverSet = {"a", "b"} ∧ r'.serverSet = {"a", "b"})) = .ok true := by
    decide +kernel
  obtain ⟨r, hrun, heval⟩ := exists_of_bind_eq_ok heval
  obtain ⟨r', hrun', heval⟩ := exists_of_bind_eq_ok heval
  obtain ⟨hset, hset'⟩ := of_decide_eq_true (Except.ok.inj heval)
  have hservers : ∀ s ∈ ({"a", "b"} : Finset String), s ≠ "" ∧ ';' ∉ s.toList := by decide
  obtain ⟨hsum, hsum', hiff⟩ := checksum_identifies_servers _ 64 32 _ _ 1 2 _ _ r r' hrun hrun'
    (hset ▸ by decide) (hset' ▸ by decide) (hset ▸ hservers) (hset' ▸ hservers)
  exact ⟨r, r', hrun, hrun', hset, hset',
    by rw [hsum, hsum', hiff.2 (hset.trans hset'.symm)]⟩

/-! ### The report of `AddRemoveServers` -/

/-- A call returns `true` and emits a `RingChangedEvent` if the servers are not the same after
it, and the event has the servers that came and the servers that went. -/
structure ReportsExactly (r : HashRing) (b : Bool) (r' : HashRing) : Prop where
  returns : b = true ↔ r'.serverSet ≠ r.serverSet
  emits : (∃ added removed, .ringChanged added removed ∈ r'.emitted.drop r.emitted.length) ↔
    r'.serverSet ≠ r.serverSet
  names : ∀ added removed, .ringChanged added removed ∈ r'.emitted.drop r.emitted.length →
    added.toFinset = r'.serverSet \ r.serverSet ∧ removed.toFinset = r.serverSet \ r'.serverSet

namespace HashRing

variable {pf : Platform} {r r' : HashRing} {add remove : List String} {b : Bool}

theorem Reports.reportsExactly_iff (h : Reports pf add remove r b r') : ReportsExactly r b r' ↔
    (b = true ↔ r'.serverSet ≠ r.serverSet) ∧ (b = true →
      add.toFinset = r'.serverSet \ r.serverSet ∧
        remove.toFinset = r.serverSet \ r'.serverSet) := by
  constructor
  · rintro ⟨hreturns, -, hnames⟩
    exact ⟨hreturns, fun hb => hnames add remove ((h.mem_events add remove).2 ⟨hb, rfl, rfl⟩)⟩
  · rintro ⟨hreturns, hnames⟩
    refine ⟨hreturns, ?_, fun added removed hmem => ?_⟩
    · rw [← hreturns]
      simp only [h.mem_events]
      simp
    · obtain ⟨hb, rfl, rfl⟩ := (h.mem_events added removed).1 hmem
      exact hnames hb

/-- What came and what went, in a call that does all it is asked for. -/
theorem Reports.sdiff_eq (h : Reports pf add remove r b r') (hadd : ∀ s ∈ add, s ∉ r.serverSet)
    (hremove : ∀ s ∈ remove, s ∈ r.serverSet) : add.toFinset = r'.serverSet \ r.serverSet ∧
      remove.toFinset = r.serverSet \ r'.serverSet := by
  rw [h.servers]
  constructor
  · ext s
    have := hadd s
    have := hremove s
    simp only [List.mem_toFinset, Finset.mem_sdiff, Finset.mem_union]
    tauto
  · ext s
    have := hremove s
    simp only [List.mem_toFinset, Finset.mem_sdiff, Finset.mem_union]
    tauto

/-- **A report is exact** for a call that does nothing and for one that does all it is asked
for. -/
theorem Reports.reportsExactly_iff_forall (h : Reports pf add remove r b r') :
    ReportsExactly r b r' ↔
      (∀ s ∈ add, s ∈ r.serverSet) ∧ (∀ s ∈ remove, s ∉ r.serverSet) ∨
      (∀ s ∈ add, s ∉ r.serverSet) ∧ ∀ s ∈ remove, s ∈ r.serverSet := by
  rw [h.reportsExactly_iff, ← h.eq_false_iff]
  constructor
  · rintro ⟨-, hnames⟩
    cases b with
    | false => exact .inl rfl
    | true =>
      obtain ⟨hadd, hremove⟩ := hnames rfl
      refine .inr ⟨fun s hs => ?_, fun s hs => ?_⟩
      · rw [← List.mem_toFinset, hadd] at hs
        exact (Finset.mem_sdiff.1 hs).2
      · rw [← List.mem_toFinset, hremove] at hs
        exact (Finset.mem_sdiff.1 hs).1
  · rintro (rfl | ⟨hadd, hremove⟩)
    · exact ⟨⟨fun hb => absurd hb Bool.false_ne_true, fun hne => absurd h.servers_eq hne⟩,
        fun hb => absurd hb Bool.false_ne_true⟩
    · have hdiff := h.sdiff_eq hadd hremove
      refine ⟨⟨fun hb heq => ?_, fun hne => ?_⟩, fun _ => hdiff⟩
      · -- nothing came and nothing went, so the call was given nothing
        simp only [heq, sdiff_self, Finset.bot_eq_empty, List.toFinset_eq_empty_iff] at hdiff
        obtain ⟨rfl, rfl⟩ := hdiff
        simpa using h.changed.1 hb
      · cases b with
        | true => rfl
        | false => exact absurd h.servers_eq hne

end HashRing

/-- **When the report of `AddRemoveServers` is exact.**  On every ring that calls can build, a
call of `AddRemoveServers` reports the change it makes exactly if there is nothing for it to do,
or if no server that it adds is on the ring and every server that it removes is.  That is for
every width of `int`; that the call returns is said for 64 bits only, where the tree is known to
be in order. -/
theorem addRemoveServers_reports_iff (pf : Platform) (hash : String → UInt32) (R : ℤ)
    (calls : List (MapOrder × RingOp)) (o : MapOrder) (add remove : List String) :
    (∀ r b r', RingOp.run pf (.new pf.intSize hash R) calls = .ok r →
      r.addRemoveServers pf o add remove = .ok (b, r') →
      (ReportsExactly r b r' ↔
        (∀ s ∈ add, s ∈ r.serverSet) ∧ (∀ s ∈ remove, s ∉ r.serverSet) ∨
        (∀ s ∈ add, s ∉ r.serverSet) ∧ ∀ s ∈ remove, s ∈ r.serverSet)) ∧
    (pf.intSize = 64 → ∃ r b r', RingOp.run pf (.new pf.intSize hash R) calls = .ok r ∧
      r.addRemoveServers pf o add remove = .ok (b, r')) := by
  refine ⟨fun r b r' _ hcall => (addRemoveServers_ok hcall).reportsExactly_iff_forall, ?_⟩
  obtain ⟨w, fp⟩ := pf
  rintro rfl
  obtain ⟨r, hrun, h⟩ := (owns_new_of_fits fp R fun s => intOfUInt32_fits (hash s)).run calls
    fun s _ => Set.mem_univ s
  obtain ⟨b, r', hcall, -⟩ := h.addRemoveServers o _ (fun s _ => Set.mem_univ s) remove
  exact ⟨r, b, r', hrun, hcall⟩

/-- A server that takes the place of another, and the same call once more. -/
theorem addRemoveServers_reports_iff_twice :
    ∃ r r₁ r₂ : HashRing,
      RingOp.run (.bits64 fun _ => 0) (.new 64 (fun s => if s = "a0" then 1 else 2) 1)
        [(.sorted, .addServer "a")] = .ok r ∧
      r.addRemoveServers (.bits64 fun _ => 0) .sorted ["b"] ["a"] = .ok (true, r₁) ∧
      ReportsExactly r true r₁ ∧
      RingOp.run (.bits64 fun _ => 0) (.new 64 (fun s => if s = "a0" then 1 else 2) 1)
        [(.sorted, .addServer "a"), (.sorted, .addRemoveServers ["b"] ["a"])] = .ok r₁ ∧
      r₁.addRemoveServers (.bits64 fun _ => 0) .sorted ["b"] ["a"] = .ok (false, r₂) ∧
      ReportsExactly r₁ false r₂ := by
  have heval : (do
      let r ← RingOp.run (.bits64 fun _ => 0) (.new 64 (fun s => if s = "a0" then 1 else 2) 1)
        [(.sorted, .addServer "a")]
      let res₁ ← r.addRemoveServers (.bits64 fun _ => 0) .sorted ["b"] ["a"]
      let res₂ ← res₁.2.addRemoveServers (.bits64 fun _ => 0) .sorted ["b"] ["a"]
      return decide (res₁.1 = true ∧ res₂.1 = false ∧ r.serverSet = {"a"} ∧
        res₁.2.serverSet = {"b"})) = .ok true := by
    decide +kernel
  obtain ⟨r, hrun, heval⟩ := exists_of_bind_eq_ok heval
  obtain ⟨⟨b₁, r₁⟩, hcall₁, heval⟩ := exists_of_bind_eq_ok heval
  obtain ⟨⟨b₂, r₂⟩, hcall₂, heval⟩ := exists_of_bind_eq_ok heval
  obtain ⟨rfl, rfl, hset, hset₁⟩ := of_decide_eq_true (Except.ok.inj heval)
  have hrun₁ : RingOp.run (.bits64 fun _ => 0)
      (.new 64 (fun s => if s = "a0" then 1 else 2) 1)
      [(.sorted, .addServer "a"), (.sorted, .addRemoveServers ["b"] ["a"])] = .ok r₁ := by
    rw [RingOp.run, ← List.singleton_append, List.foldlM_append, ← RingOp.run, hrun]
    show (RingOp.step _ r (.sorted, .addRemoveServers ["b"] ["a"]) >>= pure) = .ok r₁
    rw [bind_pure, RingOp.step, hcall₁]
    rfl
  have hiff := addRemoveServers_reports_iff (.bits64 fun _ => 0)
    (fun s => if s = "a0" then 1 else 2) 1
  refine ⟨r, r₁, r₂, hrun, hcall₁, ?_, hrun₁, hcall₂, ?_⟩
  · refine ((hiff _ .sorted ["b"] ["a"]).1 r true r₁ hrun hcall₁).2 (.inr ?_)
    rw [hset]
    decide
  · refine ((hiff _ .sorted ["b"] ["a"]).1 r₁ false r₂ hrun₁ hcall₂).2 (.inl ?_)
    rw [hset₁]
    decide

/-- A ring with one server.  A call that adds another and removes it again returns `true` and
emits an event, and the servers are the same.  A call that adds both, and removes one that is
not there, emits an event in which a server has come that was there and one has gone that was
not. -/
theorem addRemoveServers_misreports :
    ∃ r r₁ r₂ : HashRing,
      RingOp.run (.bits64 fun _ => 0) (.new 64 (fun s => if s = "a0" then 1 else 2) 1)
        [(.sorted, .addServer "a")] = .ok r ∧
      r.addRemoveServers (.bits64 fun _ => 0) .sorted ["b"] ["b"] = .ok (true, r₁) ∧
      r₁.serverSet = r.serverSet ∧
      r₁.emitted = r.emitted ++ [.ringChecksum 0 0, .ringChanged ["b"] ["b"]] ∧
      ¬ ReportsExactly r true r₁ ∧
      r.addRemoveServers (.bits64 fun _ => 0) .sorted ["a", "b"] ["c"] = .ok (true, r₂) ∧
      r₂.serverSet \ r.serverSet = {"b"} ∧ r.serverSet \ r₂.serverSet = ∅ ∧
      r₂.emitted = r.emitted ++ [.ringChecksum 0 0, .ringChanged ["a", "b"] ["c"]] ∧
      ¬ ReportsExactly r true r₂ := by
  have heval : (do
      let r ← RingOp.run (.bits64 fun _ => 0) (.new 64 (fun s => if s = "a0" then 1 else 2) 1)
        [(.sorted, .addServer "a")]
      let res₁ ← r.addRemoveServers (.bits64 fun _ => 0) .sorted ["b"] ["b"]
      let res₂ ← r.addRemoveServers (.bits64 fun _ => 0) .sorted ["a", "b"] ["c"]
      return decide (res₁.1 = true ∧ res₁.2.serverSet = r.serverSet ∧
        res₁.2.emitted = r.emitted ++ [RingEvent.ringChecksum 0 0, .ringChanged ["b"] ["b"]] ∧
        res₂.1 = true ∧ res₂.2.serverSet \ r.serverSet = {"b"} ∧
        r.serverSet \ res₂.2.serverSet = ∅ ∧ res₂.2.emitted =
          r.emitted ++ [RingEvent.ringChecksum 0 0, .ringChanged ["a", "b"] ["c"]])) =
      .ok true := by
    decide +kernel
  obtain ⟨r, hrun, heval⟩ := exists_of_bind_eq_ok heval
  obtain ⟨⟨b₁, r₁⟩, hcall₁, heval⟩ := exists_of_bind_eq_ok heval
  obtain ⟨⟨b₂, r₂⟩, hcall₂, heval⟩ := exists_of_bind_eq_ok heval
  obtain ⟨rfl, hset₁, hemit₁, rfl, hcame, hwent, hemit₂⟩ :=
    of_decide_eq_true (Except.ok.inj heval)
  refine ⟨r, r₁, r₂, hrun, hcall₁, hset₁, hemit₁, fun hexact => ?_, hcall₂, hcame, hwent, hemit₂,
    fun hexact => ?_⟩
  · exact hexact.returns.1 rfl hset₁
  · obtain ⟨hadded, -⟩ := hexact.names ["a", "b"] ["c"] (by rw [hemit₂]; simp)
    rw [hcame] at hadded
    exact absurd hadded (by decide)

end Hashring
end Ringpop
