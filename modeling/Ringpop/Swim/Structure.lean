/-
# The structure of the member list

The members of a node live in a list, in a map by address and, for the node itself, in
the pointer `local`.  From the first `Reincarnate` on, all three are about the same
members (`Node.Structured`): the list has each address of the map once, `local` is the
member of the node's own address, and the node never holds itself suspect or faulty.

Before the first `Reincarnate` the pointer may be to a member that `MakeChange` has made
and that is in no list; the first change about the node itself replaces it.
-/

import Ringpop.Swim.Authentic

namespace Ringpop
namespace Swim

open CellStore Runs Reorder

/-! ### Addresses and members -/

namespace Memberlist

variable {m : Memberlist} {a x : String} {p : ℕ}

/-- A member that is known stays the member of its address. -/
theorem apply_byAddress (hp : m.byAddress x = some p) (choice : Choice) (c : Change) :
    (m.apply a choice c).byAddress x = some p := by
  rw [Memberlist.apply]
  cases hc : m.byAddress c.address with
  | some q => exact hp
  | none =>
    have hx : x ≠ c.address := by
      rintro rfl
      rw [hc] at hp
      cases hp
    simpa [addMember, setMember, hx] using hp

/-- **`Update`** loses no member. -/
theorem update_byAddress (hp : m.byAddress x = some p) {fp : String → UInt32} {stopped : Bool}
    {choices : ℕ → Choice} {changes : List Change} {st : UpdateState}
    (hst : m.update fp a stopped choices changes = .ok st) :
    st.memberlist.byAddress x = some p :=
  update_invariant (I := fun m => m.byAddress x = some p)
    (fun _ choice c hm => apply_byAddress hm choice c) (fun _ hm => hm) hp hst

/-- The addresses in the list are all different. -/
theorem Sound.nodup_addresses (h : m.Sound) : (m.getMembers.map Member.address).Nodup := by
  refine h.nodup_getMembers.map_on fun member hm member' hm' haddr => ?_
  have hentry := h.mem_getMembers.1 hm
  rw [haddr, h.mem_getMembers.1 hm'] at hentry
  exact (Option.some.inj hentry).symm

theorem Sound.mem_addresses (h : m.Sound) :
    x ∈ m.getMembers.map Member.address ↔ ∃ p, m.byAddress x = some p := by
  rw [List.mem_map]
  constructor
  · rintro ⟨member, hm, rfl⟩
    obtain ⟨p, hp, -⟩ := Option.bind_eq_some_iff.1 (h.mem_getMembers.1 hm)
    exact ⟨p, hp⟩
  · rintro ⟨p, hp⟩
    obtain ⟨member, hcell, rfl⟩ := h.cell x p hp
    refine ⟨member, h.mem_getMembers.2 ?_, rfl⟩
    rw [entry, hp, Option.bind_some, hcell]

end Memberlist

namespace Node

variable {pr : Primitives} {n n' : Node} {choices : ℕ → Choice} {changes applied : List Change}

theorem byAddress_of_update {b : Batch} {x : String} {p : ℕ}
    (hp : n.memberlist.byAddress x = some p) (h : n.update pr b = .ok (applied, n')) :
    n'.memberlist.byAddress x = some p := by
  obtain ⟨st, hst, -, hn'⟩ := exists_handled_of_update h
  rw [(handled_handleChanges hn').memberlist]
  exact Memberlist.update_byAddress hp hst

theorem byAddress_of_makeChange {status address x : String} {t incarnation : ℤ} {p : ℕ}
    (hp : n.memberlist.byAddress x = some p)
    (h : n.makeChange pr t choices address incarnation status = .ok (applied, n')) :
    n'.memberlist.byAddress x = some p := by
  rw [makeChange] at h
  obtain ⟨l, -, h⟩ := exists_of_bind_eq_ok h
  refine byAddress_of_update ?_ h
  cases hl : n.memberlist.localMember <;> simpa [Memberlist.ensureLocal, hl] using hp

/-! ### A node that has reincarnated -/

/-- A node that has reincarnated: it goes on, and its own entry is alive or has left. -/
structure Settled (n : Node) : Prop extends Live n where
  own : ∃ own, n.memberlist.entry n.address = some own ∧
    (own.status = alive ∨ own.status = leave)

/-- Whatever valid changes are given to the member list, the own entry is alive or has
left. -/
theorem Effect.settled (he : n.Effect choices changes applied n') (hn : n.Settled)
    (hlive : n'.Live) (hvalid : ∀ c ∈ changes, ValidStatus c.status) : n'.Settled := by
  obtain ⟨own, hown, hstatus⟩ := hn.own
  have hgiven : ∀ c ∈ if n.stopped then [] else changes, ValidStatus c.status := by
    split_ifs
    · simp
    · exact hvalid
  refine ⟨hlive, ?_⟩
  rw [he.address]
  exact View.run_own hown (hn.sound.memberlist.address_eq hown) hstatus hgiven he.run

/-- **The first `Reincarnate`**, of a node that knows nobody. -/
theorem exists_reincarnate_new (hnew : n.memberlist = .new) (hstopped : n.stopped = false)
    (pr : Primitives) (now t : ℤ) (choices : ℕ → Choice) :
    ∃ applied n', n.reincarnate pr now t choices = .ok (applied, n') ∧ n'.Settled := by
  have hn : n.Sound := by
    refine ⟨?_, ?_⟩ <;> rw [hnew]
    · exact Memberlist.sound_new
    · exact Memberlist.local_new _
  have hvalid : View.Valid n.memberlist.entry := by
    rw [hnew]
    exact View.valid_new
  obtain ⟨applied, n', hcall, hlive⟩ := hn.exists_makeStatus hvalid (validStatus_name .alive) pr t
    choices n.address now
  refine ⟨applied, n', hcall, hlive, ?_⟩
  obtain ⟨-, i, he⟩ := effect_makeStatus hn hcall
  have hrun := he.run
  rw [hstopped, hnew] at hrun
  obtain ⟨hentry, -⟩ := Prod.mk.inj (Except.ok.inj hrun)
  rw [he.address, ← hentry]
  exact ⟨_, Function.update_self .., .inl rfl⟩

/-- **`Update`** with valid statuses. -/
theorem Settled.update {b : Batch} (hn : n.Settled) (pr : Primitives)
    (hb : ∀ c ∈ b.changes, ValidStatus c.status) :
    ∃ applied n', n.update pr b = .ok (applied, n') ∧ n'.Settled := by
  obtain ⟨applied, n', hup, hlive⟩ := hn.toLive.update pr hb
  exact ⟨applied, n', hup, (effect_update hn.sound hup).settled hn hlive hb⟩

/-- **`MakeChange`** with a valid status. -/
theorem Settled.makeChange {status : String} (hn : n.Settled) (pr : Primitives)
    (hstatus : ValidStatus status) (t : ℤ) (choices : ℕ → Choice) (address : String)
    (incarnation : ℤ) :
    ∃ applied n', n.makeChange pr t choices address incarnation status = .ok (applied, n') ∧
      n'.Settled := by
  obtain ⟨applied, n', hup, hlive⟩ := hn.sound.exists_makeChange hn.valid hstatus pr t choices
    address incarnation
  obtain ⟨-, i, he⟩ := effect_makeChange hn.sound hup
  exact ⟨applied, n', hup, he.settled hn hlive (by simpa using hstatus)⟩

/-- `Shuffle`, on the member list of the node. -/
def shuffle (o : Arrangement ℕ) (n : Node) : Node :=
  { n with memberlist := n.memberlist.shuffle o }

/-- **`Shuffle`** changes the order of the list, and nothing else. -/
theorem Settled.shuffle (hn : n.Settled) (o : Arrangement ℕ) : (n.shuffle o).Settled :=
  ⟨⟨⟨hn.sound.memberlist.shuffle o, hn.sound.localMember.own, hn.sound.localMember.cell⟩,
    hn.hasLocal, hn.valid⟩, hn.own⟩

/-- The list, the map and the local member are about the same members. -/
structure Structured (n : Node) : Prop where
  /-- The list has each known address once, and no other. -/
  once : ∀ x, (n.memberlist.getMembers.map Member.address).count x =
    if (n.memberlist.byAddress x).isSome then 1 else 0
  /-- The list holds the members of the map. -/
  same : ∀ p, p ∈ n.memberlist.list ↔ ∃ x, n.memberlist.byAddress x = some p
  /-- The map finds a member of the address. -/
  found : ∀ x p, n.memberlist.byAddress x = some p →
    ∃ member, n.memberlist.store.cell p = some member ∧ member.address = x
  /-- The local member is the entry of the node's own address. -/
  localMember : n.memberlist.localMember = n.memberlist.byAddress n.address
  /-- The node does not hold itself suspect or faulty. -/
  own : ∃ own, n.memberlist.entry n.address = some own ∧
    (own.status = alive ∨ own.status = leave)

theorem Settled.structured (hn : n.Settled) : n.Structured := by
  obtain ⟨own, hown, -⟩ := hn.own
  obtain ⟨p, hp, -⟩ := Option.bind_eq_some_iff.1 hown
  refine ⟨fun x => ?_, hn.sound.memberlist.mem_list, hn.sound.memberlist.cell, ?_, hn.own⟩
  · rw [hn.sound.memberlist.nodup_addresses.count]
    refine if_congr ?_ rfl rfl
    rw [hn.sound.memberlist.mem_addresses, Option.isSome_iff_exists]
  · rw [hp, hn.sound.localMember.own p hp]

end Node

/-! ### Runs -/

/-- The calls that change the member list. -/
inductive MemberlistCall where
  | update (b : Batch)
  | makeChange (timeNowMS : ℤ) (choices : ℕ → Choice) (address : String) (incarnation : ℤ)
      (status : String)
  | addJoinList (list : Batch)
  | shuffle (o : Arrangement ℕ)

namespace MemberlistCall

/-- One call. -/
def step (pr : Primitives) (n : Node) : MemberlistCall → Except Fault Node
  | update b => Prod.snd <$> n.update pr b
  | makeChange t choices address incarnation status =>
      Prod.snd <$> n.makeChange pr t choices address incarnation status
  | addJoinList list => n.addJoinList pr list
  | shuffle o => return n.shuffle o

/-- The changes that come with the call have valid statuses. -/
def Valid : MemberlistCall → Prop
  | update b => ∀ c ∈ b.changes, ValidStatus c.status
  | makeChange _ _ _ _ status => ValidStatus status
  | addJoinList list => ∀ c ∈ list.changes, ValidStatus c.status
  | shuffle _ => True

/-- A sequence of calls. -/
def run (pr : Primitives) (n : Node) (calls : List MemberlistCall) : Except Fault Node :=
  calls.foldlM (step pr) n

/-- The members of `n` are those of `n'`, under the same addresses. -/
def Keeps (n n' : Node) : Prop :=
  ∀ x p, n.memberlist.byAddress x = some p → n'.memberlist.byAddress x = some p

/-- **One call** returns and loses no member. -/
theorem step_spec {n : Node} {call : MemberlistCall} (hn : n.Settled) (pr : Primitives)
    (hcall : call.Valid) : ∃ n', call.step pr n = .ok n' ∧ n'.Settled ∧ Keeps n n' := by
  cases call with
  | update b =>
    obtain ⟨applied, n', hup, hn'⟩ := hn.update pr hcall
    exact ⟨n', by rw [step, hup]; rfl, hn', fun x p hp => Node.byAddress_of_update hp hup⟩
  | makeChange t choices address incarnation status =>
    obtain ⟨applied, n', hup, hn'⟩ := hn.makeChange pr hcall t choices address incarnation
    exact ⟨n', by rw [step, hup]; rfl, hn', fun x p hp => Node.byAddress_of_makeChange hp hup⟩
  | addJoinList list =>
    obtain ⟨applied, n', hup, hn'⟩ := hn.update pr hcall
    refine ⟨_, by rw [step, Node.addJoinList, hup]; rfl, ?_, ?_⟩
    · exact ⟨hn'.toLive.congr rfl rfl, hn'.own⟩
    · intro x p hp
      have hkept := Node.byAddress_of_update hp hup
      exact hkept
  | shuffle o => exact ⟨_, rfl, hn.shuffle o, fun x p hp => hp⟩

/-- **A sequence of calls** returns and loses no member. -/
theorem run_spec {n : Node} {calls : List MemberlistCall} (hn : n.Settled) (pr : Primitives)
    (hcalls : ∀ call ∈ calls, call.Valid) :
    ∃ n', run pr n calls = .ok n' ∧ n'.Settled ∧ Keeps n n' :=
  exists_foldlM (I := fun n' => Node.Settled n' ∧ Keeps n n')
    (fun n₁ call hcall hn₁ => by
      obtain ⟨n₂, hstep, hn₂, hkeeps⟩ := step_spec hn₁.1 pr (hcalls call hcall)
      exact ⟨n₂, hstep, hn₂, fun x p hp => hkeeps x p (hn₁.2 x p hp)⟩)
    ⟨hn, fun _ _ hp => hp⟩

end MemberlistCall

/-- **The member list keeps its structure.**  After `Reincarnate` on a node that knows
nobody and is not stopped, and any sequence of calls with valid statuses, the list, the
map and the local member are about the same members, and no member of an earlier moment
is gone. -/
theorem memberlist_structured (pr : Primitives) (n : Node) (now t : ℤ) (choices : ℕ → Choice)
    (pre post : List MemberlistCall) (hnew : n.memberlist = .new) (hstopped : n.stopped = false)
    (hvalid : ∀ call ∈ pre ++ post, call.Valid) :
    ∃ applied n₀ n₁ n₂, n.reincarnate pr now t choices = .ok (applied, n₀) ∧
      MemberlistCall.run pr n₀ pre = .ok n₁ ∧ MemberlistCall.run pr n₁ post = .ok n₂ ∧
      n₁.Structured ∧ n₂.Structured ∧ ∀ x p, n₁.memberlist.byAddress x = some p →
        n₂.memberlist.byAddress x = some p := by
  rw [List.forall_mem_append] at hvalid
  obtain ⟨applied, n₀, hboot, hn₀⟩ := Node.exists_reincarnate_new hnew hstopped pr now t choices
  obtain ⟨n₁, hpre, hn₁, -⟩ := MemberlistCall.run_spec hn₀ pr hvalid.1
  obtain ⟨n₂, hpost, hn₂, hkeeps⟩ := MemberlistCall.run_spec hn₁ pr hvalid.2
  exact ⟨applied, n₀, n₁, n₂, hboot, hpre, hpost, hn₁.structured, hn₂.structured, hkeeps⟩

/-- A member joins, the node is accused, and the list is reversed. -/
theorem memberlist_structured_three :
    ∃ applied n₀ n₁ n₂,
      (Node.new "app" "a").reincarnate ⟨fun _ => 0, fun _ => 1⟩ 5 5 (fun _ => ⟨5, 0⟩) =
        .ok (applied, n₀) ∧
      MemberlistCall.run ⟨fun _ => 0, fun _ => 1⟩ n₀ [.addJoinList (.single "b" alive)] = .ok n₁ ∧
      MemberlistCall.run ⟨fun _ => 0, fun _ => 1⟩ n₁ [.update (.single "a" faulty),
        .makeChange 7 (fun _ => ⟨7, 0⟩) "c" 3 suspect,
        .shuffle ⟨List.reverse, List.reverse_perm⟩] = .ok n₂ ∧
      n₁.Structured ∧ n₂.Structured ∧ ∀ x p, n₁.memberlist.byAddress x = some p →
        n₂.memberlist.byAddress x = some p := by
  refine memberlist_structured ⟨fun _ => 0, fun _ => 1⟩ (.new "app" "a") 5 5 (fun _ => ⟨5, 0⟩)
    [.addJoinList (.single "b" alive)] [.update (.single "a" faulty),
      .makeChange 7 (fun _ => ⟨7, 0⟩) "c" 3 suspect,
      .shuffle ⟨List.reverse, List.reverse_perm⟩] rfl rfl ?_
  simp only [List.singleton_append, List.forall_mem_cons, List.not_mem_nil, false_implies,
    implies_true, and_true, MemberlistCall.Valid]
  decide +kernel

end Swim
end Ringpop
