/-
# A node gossips what it believes

`Update` changes the member list for a whole batch and records the applied changes
afterwards, one after the other.  Of several changes of one address the last one that
was applied is the last one that is recorded, so what waits in the disseminator is
always what the member list holds (`Node.Believes`).  The other functions that touch
the disseminator only raise counters or drop entries.
-/

import Ringpop.Swim.NodeEffect

namespace Ringpop
namespace Swim

open CellStore Runs Reorder

/-- What a node may be asked to do, one call after the other.  The list of `bump` is that
of any callback that `IssueAsSender` has returned. -/
inductive Call where
  | update (b : Batch)
  | make (status : String) (timeNowMS : ℤ) (choices : ℕ → Choice) (address : String)
      (incarnation : ℤ)
  | addJoinList (list : Batch)
  | fire (timeNowMS : ℤ) (choices : ℕ → Choice) (address : String)
  | issueAsSender (o : Arrangement Change)
  | bump (changes : List Change)
  | issueAsReceiver (o : Arrangement Change) (senderAddress : String) (senderIncarnation : ℤ)
      (senderChecksum : UInt32)
  | fullSync
  | clearChange (address : String)

namespace Call

/-- One call. -/
def step (pr : Primitives) (n : Node) : Call → Except Fault Node
  | update b => Prod.snd <$> n.update pr b
  | make status t choices address incarnation =>
      Prod.snd <$> n.makeStatus status pr t choices address incarnation
  | addJoinList list => n.addJoinList pr list
  | fire t choices address => Prod.snd <$> n.fire pr t choices address
  | issueAsSender o => return (n.issueChanges o).2
  | bump changes => return n.bumpPiggybackCounters changes
  | issueAsReceiver o address incarnation checksum =>
      Prod.snd <$> n.issueAsReceiver o address incarnation checksum
  | fullSync => return n
  | clearChange address =>
      return { n with disseminator := n.disseminator.clearChange address }

/-- The changes that come with the call have valid statuses. -/
def Valid : Call → Prop
  | update b => ∀ c ∈ b.changes, ValidStatus c.status
  | make status _ _ _ _ => ValidStatus status
  | addJoinList list => ∀ c ∈ list.changes, ValidStatus c.status
  | _ => True

/-- A sequence of calls. -/
def run (pr : Primitives) (n : Node) (calls : List Call) : Except Fault Node :=
  calls.foldlM (step pr) n

end Call

/-- **What a batch applies last of an address is what the view holds.** -/
theorem View.run_recorded {localAddress : String} {choices : ℕ → Choice} {V V' : View}
    {changes applied : List Change} {P : String → Option PChange}
    (hrun : View.run localAddress choices V changes = .ok (V', applied))
    (hP : ∀ x pc, P x = some pc → V x = some pc.member) :
    ∀ x pc, Disseminator.recorded P applied x = some pc → V' x = some pc.member := by
  refine View.run_invariant (I := fun s => ∀ x pc,
    Disseminator.recorded P s.2 x = some pc → s.1 x = some pc.member) hP hrun ?_
  intro s c i c' _ hs _ x pc hpc
  simp only [View.take, Disseminator.recorded_append] at hpc ⊢
  by_cases hx : x = c'.address
  · subst hx
    obtain rfl : (⟨c', 0⟩ : PChange) = pc := by simpa using hpc
    simp
  · rw [Function.update_of_ne hx] at hpc ⊢
    exact hs x pc hpc

namespace Node

/-- What waits in the disseminator is what the member list holds. -/
structure Believes (n : Node) : Prop where
  sound : n.Sound
  entry : ∀ x pc, n.disseminator.entry x = some pc → n.memberlist.entry x = some pc.member

variable {pr : Primitives} {n n' : Node} {choices : ℕ → Choice} {changes applied : List Change}

theorem believes_new (app address : String) : (new app address).Believes :=
  ⟨sound_new app address, fun x pc h => by cases h⟩

/-- **Whatever is given to the member list**, the node believes what it gossips. -/
theorem Effect.believes (h : n.Effect choices changes applied n') (hn : n.Believes) :
    n'.Believes := by
  refine ⟨h.sound, ?_⟩
  rw [h.entry]
  exact View.run_recorded h.run hn.entry

/-- Raising counters and dropping entries adds no belief. -/
theorem Believes.of_entry (hn : n.Believes) (hs : n'.Sound)
    (hm : n'.memberlist = n.memberlist) (hd : ∀ x pc, n'.disseminator.entry x = some pc →
      ∃ pc₀, n.disseminator.entry x = some pc₀ ∧ pc.toChange = pc₀.toChange) : n'.Believes := by
  refine ⟨hs, fun x pc hpc => ?_⟩
  obtain ⟨pc₀, hpc₀, heq⟩ := hd x pc hpc
  rw [hm, heq]
  exact hn.entry x pc₀ hpc₀

/-- `AddJoinList` drops entries after its `Update`. -/
theorem entry_of_clear {d : Disseminator} {a x : String} {pc : PChange}
    (h : (applied.foldl (fun (d : Disseminator) member =>
      if member.address = a then d else d.clearChange member.address) d).entry x = some pc) :
    d.entry x = some pc := by
  rw [Disseminator.entry_foldl_clearChange] at h
  split_ifs at h
  exact h

/-- **One call.** -/
theorem Believes.step {call : Call} (hn : n.Believes) (h : call.step pr n = .ok n') :
    n'.Believes := by
  cases call with
  | update b =>
    obtain ⟨⟨applied, n₁⟩, hup, rfl⟩ := exists_of_map_eq_ok h
    exact (effect_update hn.sound hup).believes hn
  | make status t choices address incarnation =>
    obtain ⟨⟨applied, n₁⟩, hup, rfl⟩ := exists_of_map_eq_ok h
    obtain ⟨-, i, he⟩ := effect_makeStatus hn.sound hup
    exact he.believes hn
  | addJoinList list =>
    obtain ⟨⟨applied, n₁⟩, hup, h⟩ := exists_of_bind_eq_ok h
    obtain rfl := Except.ok.inj h
    have hn₁ := (effect_update hn.sound hup).believes hn
    exact hn₁.of_entry (hn₁.sound.congr rfl rfl) rfl
      fun x pc hpc => ⟨pc, entry_of_clear hpc, rfl⟩
  | fire t choices address =>
    obtain ⟨⟨applied, n₁⟩, hup, rfl⟩ := exists_of_map_eq_ok h
    rcases effect_fire hn.sound hup with ⟨-, rfl⟩ | ⟨i, -, j, he⟩
    · exact hn
    · exact he.believes ⟨hn.sound.congr rfl rfl, hn.entry⟩
  | issueAsSender o =>
    obtain rfl := Except.ok.inj h
    exact ⟨hn.sound.congr rfl rfl, hn.entry⟩
  | bump changes =>
    obtain rfl := Except.ok.inj h
    exact hn.of_entry (hn.sound.congr rfl rfl) rfl
      fun x pc hpc => Disseminator.of_entry_bumpPiggybackCounters hpc
  | issueAsReceiver o address incarnation checksum =>
    obtain ⟨kept, changes, full, n₁, hcall, hi⟩ :=
      issueAsReceiver_spec n o address incarnation checksum
    obtain ⟨⟨res, n₂⟩, hcall', rfl⟩ := exists_of_map_eq_ok h
    obtain ⟨-, rfl⟩ := Prod.mk.inj (Except.ok.inj (hcall.symm.trans hcall'))
    refine hn.of_entry (hi.only.sound hn.sound) hi.only.memberlist fun x pc hpc => ?_
    rw [hi.disseminator] at hpc
    exact Disseminator.of_entry_bumpPiggybackCounters hpc
  | fullSync =>
    obtain rfl := Except.ok.inj h
    exact hn
  | clearChange address =>
    obtain rfl := Except.ok.inj h
    refine hn.of_entry (hn.sound.congr rfl rfl) rfl fun x pc hpc => ?_
    rw [Disseminator.entry_clearChange] at hpc
    split_ifs at hpc
    exact ⟨pc, hpc, rfl⟩

/-- **A call with valid statuses** does not stop the node. -/
theorem Live.step {call : Call} (hn : n.Live) (pr : Primitives) (hcall : call.Valid) :
    ∃ n', call.step pr n = .ok n' ∧ n'.Live := by
  cases call with
  | update b =>
    obtain ⟨applied, n', hup, hn'⟩ := hn.update pr hcall
    exact ⟨n', by rw [Call.step, hup]; rfl, hn'⟩
  | make status t choices address incarnation =>
    obtain ⟨applied, n', hup, hn'⟩ := hn.sound.exists_makeStatus hn.valid hcall pr t choices
      address incarnation
    exact ⟨n', by rw [Call.step, hup]; rfl, hn'⟩
  | addJoinList list =>
    obtain ⟨applied, n', hup, hn'⟩ := hn.update pr hcall
    refine ⟨_, by rw [Call.step, addJoinList, hup]; rfl, ?_⟩
    exact hn'.congr rfl rfl
  | fire t choices address =>
    obtain ⟨applied, n', hup, hn'⟩ := hn.fire pr t choices address
    exact ⟨n', by rw [Call.step, hup]; rfl, hn'⟩
  | issueAsSender o =>
    exact ⟨_, rfl, hn.congr rfl rfl⟩
  | bump changes =>
    exact ⟨_, rfl, hn.congr rfl rfl⟩
  | issueAsReceiver o address incarnation checksum =>
    obtain ⟨kept, changes, full, n', hup, hi⟩ :=
      issueAsReceiver_spec n o address incarnation checksum
    refine ⟨n', by rw [Call.step, hup]; rfl, hi.only.sound hn.sound, ?_, ?_⟩ <;>
      rw [hi.only.memberlist]
    · exact hn.hasLocal
    · exact hn.valid
  | fullSync => exact ⟨n, rfl, hn⟩
  | clearChange address =>
    exact ⟨_, rfl, hn.congr rfl rfl⟩

end Node

/-- **A node only gossips what it believes.**  After any sequence of calls, the change
that waits for an address has the status and the incarnation that the member list
holds for it.  With valid statuses, and once the node has reincarnated, no call of the
sequence fails. -/
theorem gossips_only_beliefs (pr : Primitives) (app address : String) (calls : List Call) :
    (∀ n, Call.run pr (.new app address) calls = .ok n → ∀ x pc,
      n.disseminator.entry x = some pc → ∃ member, n.memberlist.entry x = some member ∧
        member.address = x ∧ member.status = pc.status ∧ member.incarnation = pc.incarnation) ∧
    ((∀ call ∈ calls, call.Valid) → ∀ t choices now, ∃ n, Call.run pr (.new app address)
      (.make alive t choices address now :: calls) = .ok n) := by
  refine ⟨fun n hrun x pc hpc => ?_, fun hvalid t choices now => ?_⟩
  · have hn : n.Believes := foldlM_invariant (fun _ _ _ hn h => Node.Believes.step hn h)
      (Node.believes_new app address) hrun
    have hmember := hn.entry x pc hpc
    exact ⟨pc.member, hmember, hn.sound.memberlist.address_eq hmember, rfl, rfl⟩
  · obtain ⟨applied, n₁, hfirst, hlive⟩ := (Node.sound_new app address).exists_makeStatus
      View.valid_new (validStatus_name .alive) pr t choices address now
    obtain ⟨n, hrun, -⟩ := exists_foldlM (I := Node.Live) (f := Call.step pr) (l := calls)
      (fun n call hcall hn => hn.step pr (hvalid call hcall)) hlive
    have hone : (Call.make alive t choices address now).step pr (.new app address) = .ok n₁ :=
      congrArg (Except.map Prod.snd) hfirst
    exact ⟨n, (foldlM_cons_ok hone).trans hrun⟩

/-- A batch with two changes of `x` and an accusation that the node refutes. -/
theorem gossips_only_beliefs_refutation :
    let calls : List Call := [.update ⟨[⟨"s", 1, "x", 1, alive⟩, ⟨"s", 1, "x", 1, suspect⟩,
      ⟨"s", 1, "a", 7, faulty⟩], fun _ => ⟨9, 0⟩⟩]
    ∃ n, Call.run ⟨fun _ => 0, fun _ => 1⟩ (.new "app" "a")
        (.make alive 5 (fun _ => ⟨5, 0⟩) "a" 5 :: calls) = .ok n ∧
      ∀ x pc, n.disseminator.entry x = some pc → ∃ member, n.memberlist.entry x = some member ∧
        member.address = x ∧ member.status = pc.status ∧ member.incarnation = pc.incarnation := by
  intro calls
  have hvalid : ∀ call ∈ calls, call.Valid := by
    simp only [calls, List.forall_mem_singleton, Call.Valid]
    decide +kernel
  obtain ⟨n, hrun⟩ := (gossips_only_beliefs ⟨fun _ => 0, fun _ => 1⟩ "app" "a" calls).2 hvalid 5
    (fun _ => ⟨5, 0⟩) 5
  exact ⟨n, hrun, (gossips_only_beliefs ⟨fun _ => 0, fun _ => 1⟩ "app" "a" _).1 n hrun⟩

end Swim
end Ringpop
