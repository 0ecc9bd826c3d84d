/-
# Refuting an accusation

A change that calls the node itself suspect or faulty is an accusation.  `Update` does
not compare it with the node's own entry: it stores that the node is alive, at the
reading of the clock, whatever the incarnations of the entry and of the accusation are
(`View.step_accusation`).  So the refutation is above both exactly if the clock is
(`self_assertion_iff`).

The refutation also keeps the source of the accusation, and `IssueAsReceiver` leaves out
of a response what came from the sender of the request.  `refutation_reaches_sender_iff`
says which requests are answered with the refutation.
-/

import Ringpop.Swim.Belief

namespace Ringpop
namespace Swim

open CellStore Runs Reorder

/-- The change calls the node suspect or faulty. -/
def Change.Accuses (address : String) (c : Change) : Prop :=
  c.address = address ∧ (c.status = suspect ∨ c.status = faulty)

instance (address : String) (c : Change) : Decidable (c.Accuses address) :=
  inferInstanceAs (Decidable (_ ∧ _))

namespace View

variable {a : String} {choices : ℕ → Choice} {V V' : View} {s s' : View × List Change}
  {c : Change} {changes pre post applied : List Change}

/-- **An accusation** is refuted, whatever the entry. -/
theorem outcome_accusation {member : Member} (choice : Choice) (hc : c.Accuses a)
    (haddr : member.address = a) :
    outcome a choice (some member) c =
      .ok (some { c with incarnation := choice.now, status := alive }) := by
  have hloc : member.localOverride a c = true := by
    rw [Member.localOverride, if_neg (not_not_intro haddr)]
    rcases hc.2 with h | h <;> simp [h]
  rw [outcome, if_pos hloc]

theorem step_accusation {member : Member} {choice : Choice} (hc : c.Accuses a)
    (hentry : s.1 a = some member) (haddr : member.address = a) :
    step a s c choice =
      .ok (take s (some { c with incarnation := choice.now, status := alive })) := by
  have hentry' : s.1 c.address = some member := by rw [hc.1, hentry]
  rw [step, hentry', outcome_accusation choice hc haddr]
  rfl

/-- **A change to alive** is taken if its incarnation is larger, and is of no effect
otherwise. -/
theorem step_alive {member : Member} (a : String) (choice : Choice) (hc : c.status = alive)
    (hentry : s.1 c.address = some member) :
    (member.incarnation < c.incarnation → step a s c choice = .ok (take s (some c))) ∧
      (c.incarnation ≤ member.incarnation → ∀ s', step a s c choice = .ok s' → s' = s) := by
  have hloc : member.localOverride a c = false := by
    rw [Member.localOverride, hc]
    split_ifs <;> rfl
  rw [step, hentry, outcome, hloc, if_neg Bool.false_ne_true, Member.nonLocalOverride]
  refine ⟨fun hlt => by rw [if_pos hlt]; rfl, fun hle s' h => ?_⟩
  rw [if_neg (by omega)] at h
  split_ifs at h
  · exact (Except.ok.inj h).symm
  · rw [hc, show statePrecedence alive = .ok 0 from rfl] at h
    obtain ⟨o, ho, rfl⟩ := exists_of_map_eq_ok h
    obtain ⟨b, hb, rfl⟩ := exists_of_map_eq_ok ho
    obtain ⟨p, hp, hb⟩ := exists_of_bind_eq_ok hb
    obtain rfl := Except.ok.inj hp
    obtain ⟨q, -, hb⟩ := exists_of_bind_eq_ok hb
    obtain rfl := Except.ok.inj hb
    rfl

/-- A batch is its first part, one change, and the rest. -/
theorem exists_of_run_append (h : run a choices V (pre ++ c :: post) = .ok s') :
    ∃ s₁ s₂, run a choices V pre = .ok s₁ ∧ step a s₁ c (choices pre.length) = .ok s₂ ∧
      (post.zipIdx (pre.length + 1)).foldlM
        (fun s (ci : Change × ℕ) => step a s ci.1 (choices ci.2)) s₂ = .ok s' := by
  rw [run, List.zipIdx_append, List.foldlM_append, List.zipIdx_cons, Nat.zero_add] at h
  obtain ⟨s₁, h₁, h⟩ := exists_of_bind_eq_ok h
  rw [List.foldlM_cons] at h
  obtain ⟨s₂, h₂, h⟩ := exists_of_bind_eq_ok h
  exact ⟨s₁, s₂, h₁, h₂, h⟩

/-- **What a batch applies last of an address** is what the view holds and what is
pending, whatever was pending before. -/
theorem run_applied (P : String → Option PChange)
    (hrun : run a choices V changes = .ok (V', applied)) :
    ∀ x ∈ applied.map Change.address, ∃ c, c.address = x ∧
      Disseminator.recorded P applied x = some ⟨c, 0⟩ ∧ V' x = some c.member := by
  refine run_invariant (I := fun s => ∀ x ∈ s.2.map Change.address, ∃ c, c.address = x ∧
    Disseminator.recorded P s.2 x = some ⟨c, 0⟩ ∧ s.1 x = some c.member) (by simp) hrun ?_
  intro s c i c' _ hs _ x hx
  simp only [take, Disseminator.recorded_append]
  by_cases hxc : x = c'.address
  · subst hxc
    exact ⟨c', rfl, by simp, by simp⟩
  · obtain ⟨d, hd, hrec, hview⟩ := hs x (by simpa [take, hxc] using hx)
    exact ⟨d, hd, by rw [Function.update_of_ne hxc, hrec], by rw [Function.update_of_ne hxc, hview]⟩

/-- A known address stays known. -/
theorem run_known {member : Member} (hentry : V a = some member) (haddr : member.address = a)
    (hrun : run a choices V changes = .ok s') :
    ∃ member', s'.1 a = some member' ∧ member'.address = a := by
  refine run_invariant (I := fun s => ∃ member', s.1 a = some member' ∧ member'.address = a)
    ⟨member, hentry, haddr⟩ hrun ?_
  rintro s c i c' - ⟨member', hm', haddr'⟩ -
  by_cases hc' : a = c'.address
  · subst hc'
    exact ⟨c'.member, by simp [take], rfl⟩
  · exact ⟨member', by simpa [take, hc'] using hm', haddr'⟩

/-- **A batch with an accusation** applies something about the node. -/
theorem mem_applied_of_accusation {member : Member} (hentry : V a = some member)
    (haddr : member.address = a) (hc : c ∈ changes) (haccuses : c.Accuses a)
    (hrun : run a choices V changes = .ok (V', applied)) : a ∈ applied.map Change.address := by
  obtain ⟨pre, post, rfl⟩ := List.append_of_mem hc
  obtain ⟨s₁, s₂, hpre, hstep, hpost⟩ := exists_of_run_append hrun
  obtain ⟨member', hm', haddr'⟩ := run_known hentry haddr hpre
  rw [step_accusation haccuses hm' haddr'] at hstep
  obtain rfl := Except.ok.inj hstep
  refine foldlM_invariant (I := fun s : View × List Change => a ∈ s.2.map Change.address)
    (fun s ci s' hs h => ?_) ?_ hpost
  · rcases step_cases h with rfl | ⟨c', -, -, -, rfl⟩
    · exact hs
    · simp [take, hs]
  · simp [take, haccuses.1]

/-- **An accusation that no change of the batch follows up** leaves its refutation, in the
view and pending. -/
theorem run_accusation {P : String → Option PChange} {member : Member}
    (haccuses : c.Accuses a) (hpost : ∀ d ∈ post, d.address ≠ a)
    (hpre : run a choices V pre = .ok s) (hentry : s.1 a = some member) (haddr : member.address = a)
    (hrun : run a choices V (pre ++ c :: post) = .ok (V', applied)) :
    V' a = some ⟨a, alive, (choices pre.length).now⟩ ∧ Disseminator.recorded P applied a =
      some ⟨{ c with incarnation := (choices pre.length).now, status := alive }, 0⟩ := by
  obtain ⟨s₁, s₂, hpre', hstep, hrest⟩ := exists_of_run_append hrun
  obtain rfl : s = s₁ := Except.ok.inj (hpre.symm.trans hpre')
  rw [step_accusation haccuses hentry haddr] at hstep
  obtain rfl := Except.ok.inj hstep
  obtain ⟨hc, -⟩ := haccuses
  subst hc
  refine Along.invariant (P := fun _ ci => ci.1 ∈ post) (I := fun s : View × List Change =>
    s.1 c.address = some ⟨c.address, alive, (choices pre.length).now⟩ ∧
    Disseminator.recorded P s.2 c.address =
      some ⟨{ c with incarnation := (choices pre.length).now, status := alive }, 0⟩)
    (fun s ci s' hs hci h => ?_) ?_
    (along_of_forall_mem (fun _ ci hci => List.fst_mem_of_mem_zipIdx hci) _) hrest
  · rcases step_cases h with rfl | ⟨c', -, haddr', -, rfl⟩
    · exact hs
    · have hne : c.address ≠ c'.address := fun heq => hpost _ hci (haddr'.symm.trans heq.symm)
      simpa [take, Disseminator.recorded_append, hne] using hs
  · simp [take, Disseminator.recorded_append, Change.member]

end View

namespace Node

variable {pr : Primitives} {n n' : Node} {choices : ℕ → Choice} {c : Change} {member : Member}

/-! ### Above the accusation -/

/-- The node's own entry is alive, above the incarnation `i` and above the accusation,
and what it disseminates overrides the accusation. -/
def Asserts (n : Node) (i : ℤ) (accusation : Change) : Prop :=
  ∃ own pc, n.memberlist.entry n.address = some own ∧ own.status = alive ∧
    i < own.incarnation ∧ accusation.incarnation < own.incarnation ∧
    n.disseminator.entry n.address = some pc ∧ pc.member = own ∧
    accusation.member.nonLocalOverride pc.toChange = .ok true

/-- A node with an entry of its own has a local member. -/
theorem Sound.hasLocal (hn : n.Sound) (hentry : n.memberlist.entry n.address = some member) :
    n.memberlist.localMember.isSome :=
  hn.localMember.hasLocal (by rw [hentry]; rfl)

theorem Sound.of_reincarnate {applied : List Change} {now t : ℤ} (hn : n.Sound)
    (h : n.reincarnate pr now t choices = .ok (applied, n')) : n'.Sound := by
  obtain ⟨-, i, he⟩ := effect_makeStatus hn h
  exact he.sound

/-- **`Update` with an accusation** returns. -/
theorem Sound.exists_update_accusation (hn : n.Sound) (hstopped : n.stopped = false)
    (hentry : n.memberlist.entry n.address = some member) (hc : c.Accuses n.address)
    (pr : Primitives) (choices : ℕ → Choice) :
    ∃ applied n', n.update pr ⟨[c], choices⟩ = .ok (applied, n') := by
  refine hn.exists_update (hn.hasLocal hentry) pr (s := View.take (n.memberlist.entry, [])
    (some { c with incarnation := (choices 0).now, status := alive })) ?_
  rw [hstopped]
  exact foldlM_cons_ok (View.step_accusation hc hentry (hn.memberlist.address_eq hentry))

/-- **`Reincarnate`** stores that the node is alive where the clock is above its own
entry, and nothing otherwise. -/
theorem Sound.reincarnate_spec (hn : n.Sound) (hstopped : n.stopped = false)
    (hentry : n.memberlist.entry n.address = some member) (pr : Primitives) (now t : ℤ)
    (choices : ℕ → Choice) :
    (member.incarnation < now → ∃ applied n', n.reincarnate pr now t choices = .ok (applied, n') ∧
        n'.memberlist.entry n.address = some ⟨n.address, alive, now⟩) ∧
      (now ≤ member.incarnation → ∀ applied n', n.reincarnate pr now t choices =
        .ok (applied, n') → n'.memberlist.entry n.address = some member) := by
  have hstep (i : ℤ) := View.step_alive (s := (n.memberlist.entry, []))
    (c := ⟨n.address, i, n.address, now, alive⟩) n.address (choices 0) rfl hentry
  refine ⟨fun hlt => ?_, fun hle applied n' h => ?_⟩
  · have hrun (i : ℤ) : View.run n.address choices n.memberlist.entry
        (if n.stopped then [] else [⟨n.address, i, n.address, now, alive⟩]) =
          .ok (View.take (n.memberlist.entry, [])
            (some ⟨n.address, i, n.address, now, alive⟩)) := by
      rw [hstopped]
      exact foldlM_cons_ok ((hstep i).1 hlt)
    obtain ⟨applied, n', hn'⟩ := hn.exists_makeStatus_of_run (fun i => ⟨_, hrun i⟩) pr t
    obtain ⟨-, i, he⟩ := effect_makeStatus hn hn'
    obtain ⟨hview, -⟩ := Prod.mk.inj (Except.ok.inj (he.run.symm.trans (hrun i)))
    refine ⟨applied, n', hn', ?_⟩
    rw [hview]
    exact Function.update_self ..
  · obtain ⟨-, i, he⟩ := effect_makeStatus hn h
    have hrun := he.run
    rw [hstopped] at hrun
    obtain ⟨s₁, h₁, hrest⟩ := exists_of_bind_eq_ok hrun
    obtain rfl := (hstep i).2 hle s₁ h₁
    obtain ⟨hview, -⟩ := Prod.mk.inj (Except.ok.inj hrest)
    rw [← hview]
    exact hentry

/-- **The node asserts itself** against the last accusation of a batch if the clock was above its
own entry and above the accusation. -/
theorem Sound.asserts_iff (hn : n.Sound) (hstopped : n.stopped = false) {pr : Primitives}
    {choices : ℕ → Choice} {pre post applied : List Change} {st : UpdateState} {n' : Node}
    (hc : c.Accuses n.address) (hpost : ∀ d ∈ post, d.address ≠ n.address)
    (hst : n.memberlist.applyChanges n.address choices pre = .ok st)
    (hentry : st.memberlist.entry n.address = some member)
    (hup : n.update pr ⟨pre ++ c :: post, choices⟩ = .ok (applied, n')) :
    n'.Asserts member.incarnation c ↔ member.incarnation < (choices pre.length).now ∧
      c.incarnation < (choices pre.length).now := by
  obtain ⟨hview, hsound⟩ := hn.memberlist.applyChanges n.address choices pre
  have hpre : View.run n.address choices n.memberlist.entry pre =
      .ok (st.memberlist.entry, st.applied) := by rw [← hview, hst]; rfl
  have he := Node.effect_update hn hup
  have hrun := he.run
  rw [hstopped] at hrun
  obtain ⟨hown, hrec⟩ := View.run_accusation (P := n.disseminator.entry) hc hpost hpre hentry
    ((hsound st hst).address_eq hentry) hrun
  rw [← he.entry] at hrec
  rw [Node.Asserts, he.address, hown, hrec]
  constructor
  · rintro ⟨own, pc, h, -, hi, hj, -⟩
    obtain rfl := Option.some.inj h
    exact ⟨hi, hj⟩
  · rintro ⟨hi, hj⟩
    refine ⟨_, _, rfl, rfl, hi, hj, rfl, by rw [Change.member, hc.1], ?_⟩
    rw [Member.nonLocalOverride]
    exact if_pos hj

end Node

/-- **When self-assertion wins.**  On a sound node that is not stopped: after `Update` has
processed an accusation of incarnation `j` when the node's own entry was at `i`, the
node asserts itself above `i` and `j` exactly if the clock was above both; with the
accusation alone `Update` returns.  After `Reincarnate` the node's entry is alive above
`i` exactly if the clock was above `i`. -/
theorem self_assertion_iff (pr : Primitives) (n : Node) (hn : n.Sound)
    (hstopped : n.stopped = false) :
    (∀ choices pre c post st member applied n', c.Accuses n.address →
      (∀ d ∈ post, d.address ≠ n.address) →
      n.memberlist.applyChanges n.address choices pre = .ok st →
      st.memberlist.entry n.address = some member →
      n.update pr ⟨pre ++ c :: post, choices⟩ = .ok (applied, n') →
        (n'.Asserts member.incarnation c ↔ member.incarnation < (choices pre.length).now ∧
          c.incarnation < (choices pre.length).now)) ∧
    (∀ choices c member, c.Accuses n.address → n.memberlist.entry n.address = some member →
      ∃ applied n', n.update pr ⟨[c], choices⟩ = .ok (applied, n')) ∧
    (∀ choices now t member, n.memberlist.entry n.address = some member →
      ((∃ applied n' own, n.reincarnate pr now t choices = .ok (applied, n') ∧
        n'.memberlist.entry n.address = some own ∧ own.status = alive ∧
        member.incarnation < own.incarnation) ↔ member.incarnation < now)) := by
  refine ⟨fun choices pre c post st member applied n' hc hpost hst hentry hup =>
      hn.asserts_iff hstopped hc hpost hst hentry hup,
    fun choices c member hc hentry => hn.exists_update_accusation hstopped hentry hc pr choices,
    fun choices now t member hentry => ?_⟩
  obtain ⟨hlt, hle⟩ := hn.reincarnate_spec hstopped hentry pr now t choices
  constructor
  · rintro ⟨applied, n', own, h, hown, -, hi⟩
    by_contra hnot
    rw [hle (not_lt.1 hnot) applied n' h] at hown
    obtain rfl := Option.some.inj hown
    exact lt_irrefl _ hi
  · intro hi
    obtain ⟨applied, n', h, hown⟩ := hlt hi
    exact ⟨applied, n', _, h, hown, rfl, hi⟩

/-- An accusation of the node's own incarnation, refuted a moment later. -/
theorem self_assertion_iff_later :
    ∃ applied n, (Node.new "app" "a").reincarnate ⟨fun _ => 0, fun _ => 1⟩ 5 5
        (fun _ => ⟨5, 0⟩) = .ok (applied, n) ∧
      ∃ applied' n', n.update ⟨fun _ => 0, fun _ => 1⟩
          ⟨[⟨"s", 1, "a", 5, suspect⟩], fun _ => ⟨6, 0⟩⟩ = .ok (applied', n') ∧
        n'.Asserts 5 ⟨"s", 1, "a", 5, suspect⟩ := by
  obtain ⟨⟨applied, n⟩, hboot, hn⟩ := exists_of_map_eq_ok
    (x := (Node.new "app" "a").reincarnate ⟨fun _ => 0, fun _ => 1⟩ 5 5 fun _ => ⟨5, 0⟩)
    (F := fun r => (r.2.stopped, r.2.address, r.2.memberlist.entry "a"))
    (b := (false, "a", some ⟨"a", alive, 5⟩)) (by decide +kernel)
  obtain ⟨hstopped, haddr, hentry⟩ : n.stopped = false ∧ n.address = "a" ∧
      n.memberlist.entry "a" = some ⟨"a", alive, 5⟩ := by simpa using hn
  obtain ⟨hassert, hreturns, -⟩ := self_assertion_iff ⟨fun _ => 0, fun _ => 1⟩ n
    ((Node.sound_new "app" "a").of_reincarnate hboot) hstopped
  rw [haddr] at hassert hreturns
  have hc : (⟨"s", 1, "a", 5, suspect⟩ : Change).Accuses "a" := by decide
  obtain ⟨applied', n', hup⟩ := hreturns (fun _ => ⟨6, 0⟩) _ _ hc hentry
  exact ⟨applied, n, hboot, applied', n', hup,
    (hassert _ [] _ [] ⟨n.memberlist, [], []⟩ _ _ _ hc (by simp) rfl hentry hup).2 (by decide)⟩

/-- The clock still shows the incarnation of the accusation: the node is alive at that
incarnation, which does not override the accusation, and `Reincarnate` changes
nothing. -/
theorem self_assertion_fails :
    ∃ applied n, (Node.new "app" "a").reincarnate ⟨fun _ => 0, fun _ => 1⟩ 5 5
        (fun _ => ⟨5, 0⟩) = .ok (applied, n) ∧
      n.stopped = false ∧ n.memberlist.entry "a" = some ⟨"a", alive, 5⟩ ∧
      (∃ applied' n', n.update ⟨fun _ => 0, fun _ => 1⟩
          ⟨[⟨"s", 1, "a", 5, suspect⟩], fun _ => ⟨5, 0⟩⟩ = .ok (applied', n') ∧
        n'.memberlist.entry "a" = some ⟨"a", alive, 5⟩ ∧
        n'.disseminator.entry "a" = some ⟨⟨"s", 1, "a", 5, alive⟩, 0⟩ ∧
        (⟨"a", suspect, 5⟩ : Member).nonLocalOverride ⟨"s", 1, "a", 5, alive⟩ = .ok false) ∧
      ∃ applied' n', n.reincarnate ⟨fun _ => 0, fun _ => 1⟩ 5 5 (fun _ => ⟨5, 0⟩) =
          .ok (applied', n') ∧
        n'.memberlist.entry "a" = some ⟨"a", alive, 5⟩ := by
  refine ⟨_, _, rfl, rfl, by decide +kernel, ⟨_, _, rfl, by decide +kernel, by decide +kernel, rfl⟩,
    _, _, rfl, by decide +kernel⟩

/-! ### Reaching the accuser -/

namespace Node

/-- The response to the ping tells that the node is alive, at the incarnation that the
node then holds. -/
def AnswersAlive (pr : Primitives) (n : Node) (choices : ℕ → Choice) (o : Arrangement Change)
    (req : Ping) : Prop :=
  ∃ res n' own, n.handlePing pr choices o req = .ok (.ok res, n') ∧
    n'.memberlist.entry n.address = some own ∧
    ∃ d ∈ res.changes, d.address = n.address ∧ d.status = alive ∧ d.incarnation = own.incarnation

/-- The changes of the ping are merged without a panic and leave the node alive.  Of what
then waits to be sent, the change about the node itself did not come from the sender,
or else everything did and the checksum differs from the sender's. -/
def RefutationPasses (pr : Primitives) (n : Node) (choices : ℕ → Choice) (req : Ping) : Prop :=
  ∃ st own, n.memberlist.applyChanges n.address choices req.changes = .ok st ∧
    st.memberlist.entry n.address = some own ∧ own.status = alive ∧
    let pending := Disseminator.recorded n.disseminator.entry st.applied
    ((∃ pc, pending n.address = some pc ∧
        Change.isFrom req.source req.sourceIncarnation pc.toChange = false) ∨
      (∀ x pc, pending x = some pc →
        Change.isFrom req.source req.sourceIncarnation pc.toChange = true) ∧
      pr.fingerprint32 st.memberlist.genChecksumString ≠ req.checksum)

variable {n n' : Node} {o : Arrangement Change} {source : String} {incarnation : ℤ}
  {checksum : UInt32} {kept changes : List Change} {full : Bool} {x : String}

/-- **When `IssueAsReceiver` tells the sender about an address** that it has a pending
change for. -/
theorem Issues.tells_alive_iff {pc : PChange}
    (h : n.Issues o source incarnation checksum kept changes full n') (hn : n.Sound)
    (hpc : n.disseminator.entry x = some pc) (hentry : n.memberlist.entry x = some pc.member) :
    (∃ d ∈ changes, d.address = x ∧ d.status = alive ∧ d.incarnation = pc.incarnation) ↔
      pc.status = alive ∧ (Change.isFrom source incarnation pc.toChange = false ∨
        (∀ x pc, n.disseminator.entry x = some pc →
          Change.isFrom source incarnation pc.toChange = true) ∧
        n.memberlist.checksum ≠ checksum) := by
  have haddr : pc.address = x := Disseminator.address_of_entry hpc
  rw [← h.kept_eq_nil_iff]
  rcases h.changes with ⟨-, rfl, hor⟩ | ⟨-, rfl, hkept, hne⟩
  · constructor
    · rintro ⟨d, hd, rfl, halive, -⟩
      obtain ⟨⟨pc', hpc', rfl⟩, hfrom⟩ := h.mem_kept.1 hd
      obtain rfl := Option.some.inj (hpc.symm.trans hpc')
      exact ⟨halive, .inl hfrom⟩
    · rintro ⟨halive, hfrom | ⟨hnil, hne⟩⟩
      · refine ⟨pc.toChange, h.mem_kept.2 ⟨⟨pc, ?_, rfl⟩, hfrom⟩, haddr, halive, rfl⟩
        rw [haddr]
        exact hpc
      · exact absurd hor (not_or.2 ⟨not_not_intro hnil, hne⟩)
  · constructor
    · rintro ⟨d, hd, rfl, halive, -⟩
      have hmember := Option.some.inj (hentry.symm.trans (mem_fullSync hn hd))
      exact ⟨(congrArg Member.status hmember).trans halive, .inr ⟨hkept, hne⟩⟩
    · rintro ⟨halive, -⟩
      obtain ⟨d, hd, hmember⟩ := mem_fullSync_of_entry hn hentry
      exact ⟨d, hd, (congrArg Member.address hmember).trans haddr,
        (congrArg Member.status hmember).trans halive, congrArg Member.incarnation hmember⟩

/-- **After an `Update` with an accusation** the change about the node that was applied last is
what the member list holds, and it was never sent. -/
theorem Sound.exists_pending_of_accusation {pr : Primitives} {b : Batch} {c : Change}
    {member : Member} {applied : List Change} {n₁ : Node} (hn : n.Sound)
    (hstopped : n.stopped = false) (hentry : n.memberlist.entry n.address = some member)
    (hc : c ∈ b.changes) (haccuses : c.Accuses n.address)
    (hup : n.update pr b = .ok (applied, n₁)) :
    ∃ st c', n.memberlist.applyChanges n.address b.choices b.changes = .ok st ∧
      st.memberlist.entry n.address = some c'.member ∧
      n₁.memberlist = st.memberlist.computeChecksum pr.fingerprint32 ∧
      n₁.disseminator.entry = Disseminator.recorded n.disseminator.entry st.applied ∧
      Disseminator.recorded n.disseminator.entry st.applied n.address = some ⟨c', 0⟩ := by
  obtain ⟨st, hst, rfl, hm⟩ := exists_of_update hstopped hup
  have he := effect_update hn hup
  have hrun := he.run
  rw [hstopped] at hrun
  have happlied := View.mem_applied_of_accusation hentry (hn.memberlist.address_eq hentry) hc
    haccuses hrun
  obtain ⟨c', -, hpending, hview⟩ := View.run_applied n.disseminator.entry hrun _ happlied
  have hne : st.applied ≠ [] := by
    intro hnil
    rw [hnil] at happlied
    cases happlied
  rw [if_neg hne] at hm
  rw [hm] at hview
  exact ⟨st, c', hst, hview, hm, he.entry, hpending⟩

/-- **A ping with an accusation that `Update` takes**: what is pending of the node itself
after it decides the answer. -/
theorem answersAlive_iff_of_update {pr : Primitives} {choices : ℕ → Choice} {req : Ping}
    {c : Change} {member : Member} {applied : List Change} {n₁ : Node} (hn : n.Sound)
    (hready : n.ready = true) (hstopped : n.stopped = false)
    (hentry : n.memberlist.entry n.address = some member) (hc : c ∈ req.changes)
    (haccuses : c.Accuses n.address)
    (hup : (n.emit [.pingReceive n.address req.source req.changes]).update pr
      ⟨req.changes, choices⟩ = .ok (applied, n₁)) :
    n.AnswersAlive pr choices o req ↔ n.RefutationPasses pr choices req := by
  have hn₀ : (n.emit [.pingReceive n.address req.source req.changes]).Sound :=
    hn.congr rfl rfl
  obtain ⟨kept, changes, full, n', hping, hi⟩ := handlePing_spec (o := o) hready hup
  obtain ⟨st, c', hst, hstentry, hm, hrecorded, hpending⟩ :=
    hn₀.exists_pending_of_accusation hstopped hentry hc haccuses hup
  have hpending₁ : n₁.disseminator.entry n.address = some ⟨c', 0⟩ := by
    rw [hrecorded]
    exact hpending
  have hview : n₁.memberlist.entry n.address = some c'.member := by
    rw [hm]
    exact hstentry
  have hiff := hi.tells_alive_iff (effect_update hn₀ hup).sound hpending₁ hview
  rw [hrecorded, hm] at hiff
  constructor
  · rintro ⟨res, n'', own, h, hown', d, hd, haddr, halive, hinc⟩
    obtain ⟨hres, rfl⟩ := Prod.mk.inj (Except.ok.inj (hping.symm.trans h))
    obtain rfl := Except.ok.inj hres
    rw [hi.only.memberlist, hview] at hown'
    obtain rfl := Option.some.inj hown'
    obtain ⟨hown, hpasses⟩ := hiff.1 ⟨d, hd, haddr, halive, hinc⟩
    exact ⟨st, c'.member, hst, hstentry, hown, hpasses.imp_left fun h => ⟨_, hpending, h⟩⟩
  · rintro ⟨st', own, hst', hown', halive, hpasses⟩
    obtain rfl := Except.ok.inj (hst.symm.trans hst')
    obtain rfl := Option.some.inj (hstentry.symm.trans hown')
    obtain ⟨d, hd, haddr, hd'⟩ := hiff.2 ⟨halive, hpasses.imp_left (by
      rintro ⟨pc, hpc, hfrom⟩
      obtain rfl := Option.some.inj (hpending.symm.trans hpc)
      exact hfrom)⟩
    exact ⟨_, n', c'.member, hping, by rw [hi.only.memberlist, hview], d, hd, haddr, hd'⟩

end Node

/-- **When a refutation reaches the accuser.**  For every sound node that is ready and not
stopped, with an entry of its own and whatever is pending, and for every ping with an
accusation: the response tells that the node is alive at the incarnation it holds after
the ping, exactly if `RefutationPasses`. -/
theorem refutation_reaches_sender_iff (pr : Primitives) (n : Node) (choices : ℕ → Choice)
    (o : Arrangement Change) (req : Ping) (hn : n.Sound) (hready : n.ready = true)
    (hstopped : n.stopped = false) (hown : (n.memberlist.entry n.address).isSome)
    (haccused : ∃ c ∈ req.changes, c.Accuses n.address) :
    n.AnswersAlive pr choices o req ↔ n.RefutationPasses pr choices req := by
  obtain ⟨member, hentry⟩ := Option.isSome_iff_exists.1 hown
  obtain ⟨c, hc, haccuses⟩ := haccused
  -- both sides speak of one call of `Update`, which returns where either of them holds
  constructor
  · rintro ⟨res, n', own, h, hrest⟩
    obtain ⟨applied, n₁, hup⟩ := Node.exists_of_handlePing hready h
    exact (Node.answersAlive_iff_of_update hn hready hstopped hentry hc haccuses hup).1
      ⟨res, n', own, h, hrest⟩
  · rintro ⟨st, own, hst, hrest⟩
    have hn₀ : (n.emit [.pingReceive n.address req.source req.changes]).Sound :=
      hn.congr rfl rfl
    have hview := (hn.memberlist.applyChanges n.address choices req.changes).1
    rw [hst] at hview
    have hstopped₀ : (n.emit [.pingReceive n.address req.source req.changes]).stopped = false :=
      hstopped
    obtain ⟨applied, n₁, hup⟩ := hn₀.exists_update (b := ⟨req.changes, choices⟩)
      (hn₀.hasLocal hentry) pr (s := st.view) (by rw [hstopped₀]; exact hview.symm)
    exact (Node.answersAlive_iff_of_update hn hready hstopped hentry hc haccuses hup).2
      ⟨st, own, hst, hrest⟩

/-- An accusation that the sender has from somebody else. -/
theorem refutation_reaches_sender_iff_relayed :
    ∃ applied n, (Node.new "app" "a").reincarnate ⟨fun _ => 0, fun _ => 1⟩ 5 5
        (fun _ => ⟨5, 0⟩) = .ok (applied, n) ∧
      Node.AnswersAlive ⟨fun _ => 0, fun _ => 1⟩ { n with ready := true } (fun _ => ⟨9, 0⟩) .asIs
        ⟨[⟨"t", 2, "a", 5, suspect⟩], 0, "s", 1⟩ := by
  have hsound := (Node.sound_new "app" "a").of_reincarnate (rfl : (Node.new "app" "a").reincarnate
    ⟨fun _ => 0, fun _ => 1⟩ 5 5 (fun _ => ⟨5, 0⟩) = .ok (_, _))
  refine ⟨_, _, rfl, (refutation_reaches_sender_iff _ _ _ _ _ ?_ ?_ ?_ ?_ ?_).2 ?_⟩
  · exact hsound.congr rfl rfl
  · rfl
  · rfl
  · decide +kernel
  · exact ⟨_, .head _, rfl, .inl rfl⟩
  · exact ⟨_, ⟨"a", alive, 9⟩, rfl, by decide +kernel, rfl,
      .inl ⟨⟨⟨"t", 2, "a", 9, alive⟩, 0⟩, by decide +kernel, by decide +kernel⟩⟩

/-- The sender is the accuser, and another change waits to be sent: the response has that
change only. -/
theorem refutation_misses_sender :
    ∃ applied n, (Node.new "app" "a").reincarnate ⟨fun _ => 0, fun _ => 1⟩ 5 5
        (fun _ => ⟨5, 0⟩) = .ok (applied, n) ∧
      ∃ applied' n', n.update ⟨fun _ => 0, fun _ => 1⟩
          ⟨[⟨"y", 2, "x", 1, alive⟩], fun _ => ⟨6, 0⟩⟩ = .ok (applied', n') ∧
        n'.stopped = false ∧ (n'.memberlist.entry n'.address).isSome ∧
        (⟨"s", 1, "a", 5, suspect⟩ : Change).Accuses n'.address ∧
        ¬ Node.AnswersAlive ⟨fun _ => 0, fun _ => 1⟩ { n' with ready := true } (fun _ => ⟨9, 0⟩)
          .asIs ⟨[⟨"s", 1, "a", 5, suspect⟩], 0, "s", 1⟩ := by
  refine ⟨_, _, rfl, _, _, rfl, rfl, by decide +kernel, by decide +kernel, ?_⟩
  rintro ⟨res, n'', own, hping, -, d, hd, haddr, -⟩
  have hchanges : res.changes = [⟨"y", 2, "x", 1, alive⟩] := by
    have hres := congrArg (Except.map fun r => r.1.map Ping.changes) hping
    exact (Except.ok.inj (Except.ok.inj hres)).symm
  rw [hchanges, List.mem_singleton] at hd
  subst hd
  exact absurd haddr (by decide +kernel)

end Swim
end Ringpop
