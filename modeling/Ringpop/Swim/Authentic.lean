/-
# Incarnations are authentic

Only the node itself makes new incarnations: in `Reincarnate`, and when it refutes an
accusation.  All other changes, those of a suspicion, of a timer and of a full sync,
copy the incarnation of an entry.  `Authentic` says of a member that its incarnation is
in the ledger of its address, and that a member that left was told to.

`Node.Good` is what holds of every process of a cluster, and `Cluster.Inv` of the
cluster with its messages.  The lemmas about `Good` go through the functions of a node,
those about `Inv` through the actions.
-/

import Ringpop.Swim.Cluster
import Ringpop.Swim.Refutation

namespace Ringpop
namespace Swim

open CellStore Runs Reorder

/-! ### What a batch leaves -/

namespace View

variable {a : String} {choices : ℕ → Choice} {V V' : View} {changes applied : List Change}

/-- **Where an applied change comes from**: from the batch, or it refutes an accusation of
the batch. -/
theorem run_origin (hV : ∀ y member, V y = some member → member.address = y)
    (hrun : run a choices V changes = .ok (V', applied)) :
    ∀ c' ∈ applied, c' ∈ changes ∨
      (∃ c ∈ changes, c.Accuses a) ∧ c'.address = a ∧ c'.status = alive := by
  refine (run_invariant (I := fun s => (∀ y member, s.1 y = some member → member.address = y) ∧
    ∀ c' ∈ s.2, c' ∈ changes ∨ (∃ c ∈ changes, c.Accuses a) ∧ c'.address = a ∧ c'.status = alive)
    ⟨hV, by simp⟩ hrun ?_).2
  rintro s c i c' hc ⟨haddr, horigin⟩ hout
  refine ⟨fun y member hy => ?_, fun d hd => ?_⟩
  · rcases take_cases hy with ⟨rfl, rfl⟩ | ⟨-, hy'⟩
    · rfl
    · exact haddr y member hy'
  · rcases List.mem_append.1 hd with hd | hd
    · exact horigin d hd
    · obtain rfl := List.mem_singleton.1 hd
      rcases outcome_eq_some hout with rfl | ⟨⟨member, hentry, hloc⟩, rfl⟩
      · exact .inl hc
      · rw [Member.localOverride, haddr _ member hentry] at hloc
        split_ifs at hloc with hne
        have hca : c.address = a := not_not.1 hne
        rw [Bool.or_eq_true, decide_eq_true_eq, decide_eq_true_eq] at hloc
        exact .inr ⟨⟨c, hc, hca, hloc.symm⟩, hca, rfl⟩

/-- **An entry after a batch** was there before, or is what was applied. -/
theorem run_entry (hrun : run a choices V changes = .ok (V', applied)) :
    ∀ y member, V' y = some member → V y = some member ∨ ∃ c ∈ applied, c.member = member := by
  refine run_invariant (I := fun s => ∀ y member, s.1 y = some member →
    V y = some member ∨ ∃ c ∈ s.2, c.member = member) (fun y member h => .inl h) hrun ?_
  intro s c i c' _ hs _ y member hy
  rcases take_cases hy with ⟨-, hmember⟩ | ⟨-, hy'⟩
  · exact .inr ⟨c', by simp [take], hmember⟩
  · rcases hs y member hy' with h | ⟨d, hd, hmember⟩
    · exact .inl h
    · exact .inr ⟨d, List.mem_append_left _ hd, hmember⟩

/-- A valid change that does not accuse its own address. -/
theorem status_of_not_accuses {c : Change} (hvalid : ValidStatus c.status)
    (hc : ¬ c.Accuses c.address) : c.status = alive ∨ c.status = leave := by
  obtain ⟨t, ht⟩ := hvalid.exists_name
  rw [ht]
  cases t with
  | alive => exact .inl rfl
  | leave => exact .inr rfl
  | suspect => exact absurd ⟨rfl, .inl ht⟩ hc
  | faulty => exact absurd ⟨rfl, .inr ht⟩ hc

/-- **A node does not see itself suspect or faulty.** -/
theorem run_own {own : Member} (hown : V a = some own) (haddr : own.address = a)
    (hstatus : own.status = alive ∨ own.status = leave)
    (hvalid : ∀ c ∈ changes, ValidStatus c.status)
    (hrun : run a choices V changes = .ok (V', applied)) :
    ∃ own', V' a = some own' ∧ (own'.status = alive ∨ own'.status = leave) := by
  obtain ⟨own', hown', -, hstatus'⟩ := run_invariant (I := fun s => ∃ own', s.1 a = some own' ∧
    own'.address = a ∧ (own'.status = alive ∨ own'.status = leave)) ⟨own, hown, haddr, hstatus⟩ hrun
    (by
      rintro s c i c' hc ⟨own', hown', haddr', hstatus'⟩ hout
      by_cases hc' : a = c'.address
      · subst hc'
        refine ⟨c'.member, by simp [take], rfl, ?_⟩
        by_cases haccuses : c.Accuses c'.address
        · rw [haccuses.1, hown', outcome_accusation _ haccuses haddr'] at hout
          obtain rfl := Option.some.inj (Except.ok.inj hout)
          exact .inl rfl
        · rcases outcome_eq_some hout with rfl | ⟨-, rfl⟩
          · exact status_of_not_accuses (hvalid _ hc) haccuses
          · exact .inl rfl
      · exact ⟨own', by simpa [take, hc'] using hown', haddr', hstatus'⟩)
  exact ⟨own', hown', hstatus'⟩

end View

/-- **A timer after a batch** was there before, or was started by a suspicion of another
node. -/
theorem Suspicion.timers_of_foldl_track {a x : String} {s : Suspicion} {applied : List Change}
    {t : Timer} (h : (applied.foldl (track a) s).timers x = some t) :
    s.timers x = some t ∨ ∃ c ∈ applied, c.address = x ∧ x ≠ a ∧ c.status = suspect ∧
      t.incarnation = c.incarnation := by
  induction applied generalizing s with
  | nil => exact .inl h
  | cons c applied ih =>
    rcases ih h with h | ⟨d, hd, hrest⟩
    · rcases timers_of_track h with h | hc
      · exact .inl h
      · exact .inr ⟨c, .head _, hc⟩
    · exact .inr ⟨d, .tail _ hd, hrest⟩

/-! ### Authentic members -/

namespace Ledger

/-- More was noted. -/
structure Extends (l l' : Ledger) : Prop where
  generated : l.generated ⊆ l'.generated
  left : l.left ⊆ l'.left

theorem Extends.refl (l : Ledger) : l.Extends l := ⟨fun _ h => h, fun _ h => h⟩

/-- The node of the member's address has generated the incarnation; and if the member
left, that node was told to leave at this incarnation. -/
structure Authentic (l : Ledger) (m : Member) : Prop where
  generated : (m.address, m.incarnation) ∈ l.generated
  left : m.status = leave → (m.address, m.incarnation) ∈ l.left
  valid : ValidStatus m.status

variable {l l' : Ledger} {m : Member}

theorem Authentic.mono (h : l.Authentic m) (hl : l.Extends l') : l'.Authentic m :=
  ⟨hl.generated h.generated, fun hm => hl.left (h.left hm), h.valid⟩

/-- A status other than to leave may be copied onto an incarnation. -/
theorem authentic_copy {x : String} {i : ℤ} (h : (x, i) ∈ l.generated) (t : Status)
    (ht : t ≠ .leave) : l.Authentic ⟨x, t.name, i⟩ := by
  refine ⟨h, fun hleave => ?_, validStatus_name t⟩
  have heq : some t = some .leave := by
    rw [← Status.ofName_name t, show t.name = Status.leave.name from hleave, Status.ofName_name]
  exact absurd (Option.some.inj heq) ht

end Ledger

/-! ### The processes -/

namespace Node

/-- A process that has not bootstrapped. -/
structure Fresh (n : Node) : Prop where
  entry : ∀ y, n.memberlist.entry y = none
  localMember : n.memberlist.localMember = none
  timers : ∀ y, n.suspicion.timers y = none

/-- The checksum is that of the member list. -/
def Summed (pr : Primitives) (n : Node) : Prop :=
  n.memberlist.checksum = pr.fingerprint32 n.memberlist.genChecksumString

/-- A process that has an entry for itself. -/
structure Joined (pr : Primitives) (n : Node) : Prop where
  own : ∃ own, n.memberlist.entry n.address = some own ∧
    (own.status = alive ∨ own.status = leave)
  summed : n.Summed pr

/-- What holds of the process at `x`. -/
structure Good (pr : Primitives) (l : Ledger) (x : String) (n : Node) : Prop where
  address : n.address = x
  stopped : n.stopped = false
  believes : n.Believes
  state : n.Fresh ∨ n.Joined pr
  ready : n.ready = true → n.Joined pr
  entry : ∀ y member, n.memberlist.entry y = some member → l.Authentic member
  timer : ∀ y t, n.suspicion.timers y = some t → y ≠ x ∧ (y, t.incarnation) ∈ l.generated

variable {pr : Primitives} {l l' : Ledger} {x : String} {n n' : Node} {choices : ℕ → Choice}
  {changes applied : List Change}

theorem good_new (pr : Primitives) (l : Ledger) (app x : String) : Good pr l x (new app x) where
  address := rfl
  stopped := rfl
  believes := believes_new app x
  state := .inl ⟨fun _ => rfl, rfl, fun _ => rfl⟩
  ready h := by cases h
  entry y member h := by cases h
  timer y t h := by cases h

theorem Good.mono (h : n.Good pr l x) (hl : l.Extends l') : n.Good pr l' x :=
  { h with
    entry := fun y member hy => (h.entry y member hy).mono hl
    timer := fun y t ht => (h.timer y t ht).imp_right fun hg => hl.generated hg }

/-- What a node does to its disseminator alone. -/
theorem Good.quiet (h : n.Good pr l x) (ho : n.OnlyDisseminates n')
    (hd : ∀ y pc, n'.disseminator.entry y = some pc →
      ∃ pc₀, n.disseminator.entry y = some pc₀ ∧ pc.toChange = pc₀.toChange) :
    n'.Good pr l x ∧ (n.Joined pr → n'.Joined pr) := by
  have hjoined (hj : n.Joined pr) : n'.Joined pr := by
    refine ⟨?_, ?_⟩
    · rw [ho.memberlist, ho.address]
      exact hj.own
    · rw [Summed, ho.memberlist]
      exact hj.summed
  refine ⟨⟨ho.address.trans h.address, ho.stopped.trans h.stopped,
    h.believes.of_entry (ho.sound h.believes.sound) ho.memberlist hd, ?_,
    fun hready => hjoined (h.ready (ho.ready.symm.trans hready)), ?_, ?_⟩, hjoined⟩
  · refine h.state.imp (fun hf => ⟨?_, ?_, ?_⟩) hjoined
    · rw [ho.memberlist]
      exact hf.entry
    · rw [ho.memberlist]
      exact hf.localMember
    · rw [ho.suspicion]
      exact hf.timers
  · rw [ho.memberlist]
    exact h.entry
  · rw [ho.suspicion]
    exact h.timer

theorem Good.emit (h : n.Good pr l x) (events : List NodeEvent) :
    (n.emit events).Good pr l x ∧ (n.Joined pr → (n.emit events).Joined pr) :=
  h.quiet ⟨rfl, rfl, rfl, rfl, rfl, rfl⟩ fun _ pc hpc => ⟨pc, hpc, rfl⟩

theorem Good.bumpPiggybackCounters (h : n.Good pr l x) (cs : List Change) :
    (n.bumpPiggybackCounters cs).Good pr l x ∧
      (n.Joined pr → (n.bumpPiggybackCounters cs).Joined pr) :=
  h.quiet ⟨rfl, rfl, rfl, rfl, rfl, rfl⟩ fun _ _ => Disseminator.of_entry_bumpPiggybackCounters

theorem Good.pingReturned (h : n.Good pr l x) (target : String) (req : Ping) (failed : Bool) :
    (n.pingReturned target req failed).Good pr l x ∧
      (n.Joined pr → (n.pingReturned target req failed).Joined pr) := by
  cases failed with
  | true => exact ⟨h, id⟩
  | false =>
    exact h.quiet ⟨rfl, rfl, rfl, rfl, rfl, rfl⟩
      fun _ _ => Disseminator.of_entry_bumpPiggybackCounters

theorem Good.pingRequestReturned (h : n.Good pr l x) (req : PingRequest) (failed : Bool) :
    (n.pingRequestReturned req failed).Good pr l x ∧
      (n.Joined pr → (n.pingRequestReturned req failed).Joined pr) := by
  cases failed with
  | true => exact h.bumpPiggybackCounters req.changes
  | false => exact ⟨h, id⟩

theorem Good.sendPing (h : n.Good pr l x) (o : Arrangement Change) (target : String) :
    (n.sendPing o target).2.Good pr l x ∧
      (n.Joined pr → (n.sendPing o target).2.Joined pr) :=
  h.quiet ⟨rfl, rfl, rfl, rfl, rfl, rfl⟩ fun _ pc hpc => ⟨pc, hpc, rfl⟩

theorem Good.sendPingRequest (h : n.Good pr l x) (o : Arrangement Change) (target : String) :
    (n.sendPingRequest o target).2.Good pr l x ∧
      (n.Joined pr → (n.sendPingRequest o target).2.Joined pr) :=
  h.quiet ⟨rfl, rfl, rfl, rfl, rfl, rfl⟩ fun _ pc hpc => ⟨pc, hpc, rfl⟩

/-- The local member of a process that has joined. -/
theorem Joined.getLocal (hj : n.Joined pr) (hn : n.Sound) : ∃ own, n.memberlist.getLocal = .ok own ∧
    n.memberlist.entry n.address = some own ∧ n.incarnation = own.incarnation := by
  obtain ⟨own, hown, -⟩ := hj.own
  obtain ⟨p, hp, hcell⟩ := Option.bind_eq_some_iff.1 hown
  refine ⟨own, hn.localMember.getLocal_eq hown, hown, ?_⟩
  rw [incarnation, hn.localMember.own p hp, Option.bind_some, hcell]
  rfl

/-- The incarnation that a process puts into its messages is its own. -/
theorem Good.incarnation (h : n.Good pr l x) (hj : n.Joined pr) :
    (x, n.incarnation) ∈ l.generated := by
  obtain ⟨own, -, hown, hinc⟩ := hj.getLocal h.believes.sound
  have haddr : own.address = x := (h.believes.sound.memberlist.address_eq hown).trans h.address
  rw [hinc, ← haddr]
  exact (h.entry _ own hown).generated

theorem Good.sender (h : n.Good pr l x) (hj : n.Joined pr) :
    (n.address, n.incarnation) ∈ l.generated := by
  rw [h.address]
  exact h.incarnation hj

/-- The end of `Bootstrap`. -/
theorem Good.setReady (h : n.Good pr l x) (hj : n.Joined pr) :
    Good pr l x { n with ready := true } ∧ Joined pr { n with ready := true } := by
  have hready : Joined pr { n with ready := true } := ⟨hj.own, hj.summed⟩
  exact ⟨⟨h.address, h.stopped, ⟨h.believes.sound.congr rfl rfl,
    h.believes.entry⟩, .inr hready, fun _ => hready, h.entry, h.timer⟩, hready⟩

/-- What is pending is authentic. -/
theorem Good.pending (h : n.Good pr l x) {y : String} {pc : PChange}
    (hpc : n.disseminator.entry y = some pc) : l.Authentic pc.member :=
  h.entry y _ (h.believes.entry y pc hpc)

theorem Good.issueChanges (h : n.Good pr l x) {o : Arrangement Change} :
    ∀ c ∈ n.disseminator.issueChanges o, l.Authentic c.member := by
  intro _ hc
  obtain ⟨pc, hpc, rfl⟩ := Disseminator.mem_issueChanges.1 hc
  exact h.pending hpc

theorem Good.fullSync (h : n.Good pr l x) : ∀ c ∈ n.fullSync, l.Authentic c.member :=
  fun _ hc => h.entry _ _ (mem_fullSync h.believes.sound hc)

/-- What is issued to a sender is authentic. -/
theorem Good.issues {o : Arrangement Change} {source : String} {incarnation : ℤ}
    {checksum : UInt32} {kept : List Change} {full : Bool} (h : n.Good pr l x)
    (hi : n.Issues o source incarnation checksum kept changes full n') :
    n'.Good pr l x ∧ (n.Joined pr → n'.Joined pr) ∧ ∀ c ∈ changes, l.Authentic c.member := by
  obtain ⟨hgood, hjoined⟩ := h.quiet hi.only fun y pc hpc => by
    rw [hi.disseminator] at hpc
    exact Disseminator.of_entry_bumpPiggybackCounters hpc
  refine ⟨hgood, hjoined, fun c hc => ?_⟩
  rcases hi.changes with ⟨-, rfl, -⟩ | ⟨-, rfl, -⟩
  · obtain ⟨⟨pc, hpc, rfl⟩, -⟩ := hi.mem_kept.1 hc
    exact h.pending hpc
  · exact h.fullSync c hc

/-! ### The functions that change the member list -/

theorem summed_of_update {b : Batch} (h : n.update pr b = .ok (applied, n'))
    (hstopped : n.stopped = false) (hn : applied = [] → n.Summed pr) : n'.Summed pr := by
  obtain ⟨st, hst, rfl, hm⟩ := exists_of_update hstopped h
  rw [Summed, hm]
  split_ifs with hnil
  · rw [Memberlist.eq_of_applyChanges hst hnil]
    exact hn hnil
  · rfl

theorem summed_of_makeStatus {status address : String} {incarnation t : ℤ}
    (h : n.makeStatus status pr t choices address incarnation = .ok (applied, n'))
    (hstopped : n.stopped = false)
    (hn : applied = [] → n.memberlist.localMember.isSome ∧ n.Summed pr) : n'.Summed pr := by
  rw [makeStatus, makeChange] at h
  obtain ⟨own, -, h⟩ := exists_of_bind_eq_ok h
  refine summed_of_update h hstopped fun hnil => ?_
  obtain ⟨hl, hsum⟩ := hn hnil
  obtain ⟨p, hp⟩ := Option.isSome_iff_exists.1 hl
  simpa [Summed, Memberlist.ensureLocal, hp, Node.emit] using hsum

/-- **What is given to the member list**: authentic changes leave authentic entries, if the
refutations are noted. -/
theorem Good.effect (h : n.Good pr l x) (hl : l.Extends l')
    (he : n.Effect choices changes applied n') (hchanges : ∀ c ∈ changes, l'.Authentic c.member)
    (hown : ∀ c ∈ applied, c ∉ changes → (x, c.incarnation) ∈ l'.generated)
    (hjoined : n'.Joined pr) : n'.Good pr l' x := by
  have hrun := he.run
  rw [h.stopped] at hrun
  have happlied : ∀ c ∈ applied, l'.Authentic c.member := by
    intro c hc
    by_cases hmem : c ∈ changes
    · exact hchanges c hmem
    · have horigin := View.run_origin (fun y member => h.believes.sound.memberlist.address_eq)
        hrun c hc
      obtain ⟨-, haddr, halive⟩ := horigin.resolve_left hmem
      rw [Change.member, haddr, h.address, halive]
      exact Ledger.authentic_copy (hown c hc hmem) .alive (by decide)
  refine ⟨he.address.trans h.address, he.stopped.trans h.stopped, he.believes h.believes,
    .inr hjoined, fun _ => hjoined, fun y member hy => ?_, fun y t ht => ?_⟩
  · rcases View.run_entry hrun y member hy with hy | ⟨c, hc, rfl⟩
    · exact (h.entry y member hy).mono hl
    · exact happlied c hc
  · rw [he.suspicion] at ht
    rcases Suspicion.timers_of_foldl_track ht with ht | ⟨c, hc, rfl, hne, -, hinc⟩
    · exact (h.timer y t ht).imp_right fun hg => hl.generated hg
    · rw [hinc]
      exact ⟨h.address ▸ hne, (happlied c hc).generated⟩

/-- A process stays joined. -/
theorem Joined.effect (hj : n.Joined pr) (hn : n.Sound) (hstopped : n.stopped = false)
    (he : n.Effect choices changes applied n') (hvalid : ∀ c ∈ changes, ValidStatus c.status)
    (hsum : n'.Summed pr) : n'.Joined pr := by
  have hrun := he.run
  rw [hstopped] at hrun
  obtain ⟨own, hown, hstatus⟩ := hj.own
  obtain ⟨own', hown', hstatus'⟩ := View.run_own hown (hn.memberlist.address_eq hown) hstatus hvalid
    hrun
  exact ⟨⟨own', by rw [he.address]; exact hown', hstatus'⟩, hsum⟩

theorem mem_refutations {b : Batch} (hstopped : n.stopped = false)
    (h : n.update pr b = .ok (applied, n')) : n.refutations b = applied.filter (· ∉ b.changes) := by
  obtain ⟨st, hst, rfl, -⟩ := exists_of_update hstopped h
  rw [refutations, hst]

/-- Changes that do not accuse the process make it state nothing of its own. -/
theorem Good.mem_of_applied (h : n.Good pr l x) (he : n.Effect choices changes applied n')
    (hchanges : ∀ c ∈ changes, ¬ c.Accuses n.address) : ∀ c ∈ applied, c ∈ changes := by
  intro c hc
  have hrun := he.run
  rw [h.stopped] at hrun
  have horigin := View.run_origin (fun y member => h.believes.sound.memberlist.address_eq)
    hrun c hc
  exact horigin.resolve_right fun ⟨⟨d, hd, haccuses⟩, _⟩ => hchanges d hd haccuses

/-- **`Update`.** -/
theorem Good.update {b : Batch} (h : n.Good pr l x) (hj : n.Joined pr) (hl : l.Extends l')
    (hb : ∀ c ∈ b.changes, l.Authentic c.member)
    (hnote : ∀ c ∈ n.refutations b, (x, c.incarnation) ∈ l'.generated)
    (hup : n.update pr b = .ok (applied, n')) : n'.Good pr l' x ∧ n'.Joined pr := by
  have he := effect_update h.believes.sound hup
  have hjoined : n'.Joined pr := hj.effect h.believes.sound h.stopped he
    (fun c hc => (hb c hc).valid) (summed_of_update hup h.stopped fun _ => hj.summed)
  refine ⟨h.effect hl he (fun c hc => (hb c hc).mono hl) (fun c hc hmem => hnote c ?_) hjoined,
    hjoined⟩
  rw [mem_refutations h.stopped hup]
  exact List.mem_filter.2 ⟨hc, decide_eq_true hmem⟩

/-- **`Reincarnate`**, on a process that has joined or not. -/
theorem Good.reincarnate {now t : ℤ} (h : n.Good pr l x) (hl : l.Extends l')
    (hnow : (x, now) ∈ l'.generated)
    (hup : n.reincarnate pr now t choices = .ok (applied, n')) :
    n'.Good pr l' x ∧ n'.Joined pr := by
  obtain ⟨-, i, he⟩ := effect_makeStatus h.believes.sound hup
  have hrun := he.run
  rw [h.stopped] at hrun
  have hauth : ∀ c ∈ [(⟨n.address, i, n.address, now, alive⟩ : Change)],
      l'.Authentic c.member := by
    rw [List.forall_mem_singleton, Change.member, h.address]
    exact Ledger.authentic_copy hnow .alive (by decide)
  have hjoined : n'.Joined pr := by
    rcases h.state with hf | hj
    · -- the first entry of a new process
      have hstep : View.step n.address (n.memberlist.entry, [])
          ⟨n.address, i, n.address, now, alive⟩ (choices 0) = .ok (View.take
            (n.memberlist.entry, []) (some ⟨n.address, i, n.address, now, alive⟩)) := by
        simp only [View.step, hf.entry]
        rfl
      obtain ⟨hview, rfl⟩ := Prod.mk.inj (Except.ok.inj (hrun.symm.trans (foldlM_cons_ok hstep)))
      refine ⟨⟨⟨n.address, alive, now⟩, ?_, .inl rfl⟩, summed_of_makeStatus hup h.stopped
        fun hnil => by simp at hnil⟩
      rw [he.address, hview]
      exact Function.update_self ..
    · refine hj.effect h.believes.sound h.stopped he (fun c hc => (hauth c hc).valid)
        (summed_of_makeStatus hup h.stopped fun _ => ⟨?_, hj.summed⟩)
      obtain ⟨own, hown, -⟩ := hj.own
      exact h.believes.sound.hasLocal hown
  refine ⟨h.effect hl he hauth (fun c hc hmem => ?_) hjoined, hjoined⟩
  refine absurd (h.mem_of_applied he ?_ c hc) hmem
  rintro d hd ⟨-, hstatus⟩
  obtain rfl := List.mem_singleton.1 hd
  rcases hstatus with hstatus | hstatus
  · exact absurd (show alive = suspect from hstatus) (by decide)
  · exact absurd (show alive = faulty from hstatus) (by decide)

/-- **The functions that make a change** of authentic content, which is not an
accusation of the process itself. -/
theorem Good.makeStatus {status address : String} {incarnation t : ℤ} (h : n.Good pr l x)
    (hj : n.Joined pr) (hl : l.Extends l') (hauth : l'.Authentic ⟨address, status, incarnation⟩)
    (hself : address = x → status = leave)
    (hup : n.makeStatus status pr t choices address incarnation = .ok (applied, n')) :
    n'.Good pr l' x ∧ n'.Joined pr := by
  obtain ⟨-, i, he⟩ := effect_makeStatus h.believes.sound hup
  have hchanges : ∀ c ∈ [(⟨n.address, i, address, incarnation, status⟩ : Change)],
      l'.Authentic c.member := by
    rw [List.forall_mem_singleton]
    exact hauth
  obtain ⟨own, hown, -⟩ := hj.own
  have hjoined : n'.Joined pr := hj.effect h.believes.sound h.stopped he
    (fun c hc => (hchanges c hc).valid) (summed_of_makeStatus hup h.stopped
      fun _ => ⟨h.believes.sound.hasLocal hown, hj.summed⟩)
  refine ⟨h.effect hl he hchanges (fun c hc hmem => ?_) hjoined, hjoined⟩
  refine absurd (h.mem_of_applied he ?_ c hc) hmem
  rintro d hd ⟨haddr, hstatus⟩
  obtain rfl := List.mem_singleton.1 hd
  have hleave := hself (haddr.trans h.address)
  rcases hstatus with hstatus | hstatus <;>
    exact absurd (hleave.symm.trans hstatus) (by decide)

/-- **A timer that goes off.** -/
theorem Good.fire {address : String} {t : ℤ} (h : n.Good pr l x)
    (hup : n.fire pr t choices address = .ok (applied, n')) :
    n'.Good pr l x ∧ (n.Joined pr → n'.Joined pr) := by
  rw [Node.fire] at hup
  split at hup
  · rename_i i htimer
    have hj : n.Joined pr := by
      refine h.state.resolve_left fun hf => ?_
      rw [hf.timers] at htimer
      cases htimer
    obtain ⟨hne, hgen⟩ := h.timer _ _ htimer
    have hfired : Good pr l x { n with suspicion := n.suspicion.fire address } := by
      refine ⟨h.address, h.stopped, ⟨h.believes.sound.congr rfl rfl,
        h.believes.entry⟩, .inr ⟨hj.own, hj.summed⟩, fun _ => ⟨hj.own, hj.summed⟩, h.entry, ?_⟩
      intro y t' ht'
      by_cases hy : y = address
      · subst hy
        obtain rfl : (⟨i, true⟩ : Timer) = t' := by simpa [Suspicion.fire, htimer] using ht'
        exact ⟨hne, hgen⟩
      · exact h.timer y t' (by simpa [Suspicion.fire, hy] using ht')
    obtain ⟨hgood, hjoined⟩ := hfired.makeStatus ⟨hj.own, hj.summed⟩ (.refl l)
      (Ledger.authentic_copy hgen .faulty (by decide)) (fun heq => absurd heq hne) hup
    exact ⟨hgood, fun _ => hjoined⟩
  · obtain ⟨-, rfl⟩ := Prod.mk.inj (Except.ok.inj hup)
    exact ⟨h, id⟩

/-- **`adminLeaveHandler`**: a process that has not joined does not come to its end. -/
theorem Good.adminLeave {t : ℤ} (h : n.Good pr l x) (hl : l.Extends l')
    (hleft : (x, n.incarnation) ∈ l'.left)
    (hup : n.adminLeave pr t choices = .ok (applied, n')) : n'.Good pr l' x ∧ n'.Joined pr := by
  obtain ⟨own, hown, hup⟩ := exists_of_bind_eq_ok hup
  have hj : n.Joined pr := by
    refine h.state.resolve_left fun hf => ?_
    rw [Memberlist.getLocal, hf.localMember] at hown
    cases hown
  obtain ⟨own', hown', -, hinc⟩ := hj.getLocal h.believes.sound
  obtain rfl := Except.ok.inj (hown.symm.trans hown')
  rw [← hinc, h.address] at hup
  exact h.makeStatus hj hl ⟨hl.generated (h.incarnation hj), fun _ => hleft,
    validStatus_name .leave⟩ (fun _ => rfl) hup

/-- **`AddJoinList`.** -/
theorem Good.addJoinList {b : Batch} (h : n.Good pr l x) (hj : n.Joined pr) (hl : l.Extends l')
    (hb : ∀ c ∈ b.changes, l.Authentic c.member)
    (hnote : ∀ c ∈ n.refutations b, (x, c.incarnation) ∈ l'.generated)
    (hup : n.addJoinList pr b = .ok n') : n'.Good pr l' x ∧ n'.Joined pr := by
  obtain ⟨⟨applied, n₁⟩, hone, hup⟩ := exists_of_bind_eq_ok hup
  obtain rfl := Except.ok.inj hup
  obtain ⟨hgood, hjoined⟩ := h.update hj hl hb hnote hone
  refine And.imp_right (fun hkeep => hkeep hjoined) (hgood.quiet ⟨rfl, rfl, rfl, rfl, rfl, rfl⟩ ?_)
  exact fun y pc hpc => ⟨pc, entry_of_clear hpc, rfl⟩

theorem Good.shuffle (h : n.Good pr l x) (o : Arrangement ℕ) :
    Good pr l x { n with memberlist := n.memberlist.shuffle o } ∧
      (n.Joined pr → Joined pr { n with memberlist := n.memberlist.shuffle o }) := by
  have hsound : Sound { n with memberlist := n.memberlist.shuffle o } :=
    ⟨h.believes.sound.memberlist.shuffle o,
      h.believes.sound.localMember.own, h.believes.sound.localMember.cell⟩
  have hjoined (hj : n.Joined pr) : Joined pr { n with memberlist := n.memberlist.shuffle o } := by
    refine ⟨hj.own, hj.summed.trans (congrArg _ ?_)⟩
    exact h.believes.sound.memberlist.genChecksumString_eq hsound.memberlist rfl
  exact ⟨⟨h.address, h.stopped, ⟨hsound, h.believes.entry⟩,
    h.state.imp (fun hf => ⟨hf.entry, hf.localMember, hf.timers⟩) hjoined,
    fun hready => hjoined (h.ready hready), h.entry, h.timer⟩, hjoined⟩

/-! ### The handlers -/

section handlers

variable {o : Arrangement Change}

/-- **`handlePing`** that answers. -/
theorem Good.handlePing {req res : Ping} (h : n.Good pr l x) (hl : l.Extends l')
    (hreq : ∀ c ∈ req.changes, l.Authentic c.member)
    (hnote : ∀ c ∈ n.refutations ⟨req.changes, choices⟩, (x, c.incarnation) ∈ l'.generated)
    (hping : n.handlePing pr choices o req = .ok (.ok res, n')) :
    n'.Good pr l' x ∧ n'.Joined pr ∧ (∀ c ∈ res.changes, l'.Authentic c.member) ∧
      (res.source, res.sourceIncarnation) ∈ l'.generated := by
  have hready : n.ready = true := by
    by_contra hnot
    rw [Node.handlePing, if_pos (eq_false_of_ne_true hnot)] at hping
    cases hping
  obtain ⟨hemit, hkeep⟩ := h.emit [.pingReceive n.address req.source req.changes]
  obtain ⟨applied, n₁, hup⟩ := exists_of_handlePing hready hping
  obtain ⟨kept, changes, full, n₂, hping', hi⟩ := handlePing_spec (o := o) hready hup
  obtain ⟨hres, rfl⟩ := Prod.mk.inj (Except.ok.inj (hping'.symm.trans hping))
  obtain rfl := Except.ok.inj hres
  obtain ⟨hgood, hjoined⟩ := hemit.update (hkeep (h.ready hready)) hl hreq hnote hup
  obtain ⟨hgood', hkeep', hchanges⟩ := hgood.issues hi
  exact ⟨hgood', hkeep' hjoined, hchanges, hgood'.sender (hkeep' hjoined)⟩

/-- `handlePing` that refuses. -/
theorem Good.handlePing_refused {req : Ping} {e : String} (h : n.Good pr l x)
    (hping : n.handlePing pr choices o req = .ok (.error e, n')) :
    n'.Good pr l x ∧ (n.Joined pr → n'.Joined pr) := by
  rw [Node.handlePing] at hping
  split_ifs at hping
  · obtain ⟨-, rfl⟩ := Prod.mk.inj (Except.ok.inj hping)
    exact h.emit _
  · obtain ⟨⟨applied, n₁⟩, -, hping⟩ := exists_of_bind_eq_ok hping
    obtain ⟨⟨⟨changes, full⟩, n₂⟩, -, hping⟩ := exists_of_bind_eq_ok hping
    cases hping

/-- **`handlePingRequest`** until it pings the target. -/
theorem Good.receivePingRequest {req : PingRequest} {u : Unit} (h : n.Good pr l x)
    (hl : l.Extends l') (hreq : ∀ c ∈ req.changes, l.Authentic c.member)
    (hnote : ∀ c ∈ n.refutations ⟨req.changes, choices⟩, (x, c.incarnation) ∈ l'.generated)
    (hreceive : n.receivePingRequest pr choices req = .ok (.ok u, n')) :
    n'.Good pr l' x ∧ n'.Joined pr := by
  rw [Node.receivePingRequest] at hreceive
  split_ifs at hreceive with hready
  · cases hreceive
  · obtain ⟨⟨applied, n₁⟩, hup, hret⟩ := exists_of_bind_eq_ok hreceive
    obtain ⟨-, rfl⟩ := Prod.mk.inj (Except.ok.inj hret)
    obtain ⟨hemit, hkeep⟩ := h.emit
      [.pingRequestReceive n.address req.source req.target req.changes]
    exact hemit.update (hkeep (h.ready (eq_true_of_ne_false hready))) hl hreq hnote hup

/-- `handlePingRequest` that refuses. -/
theorem Good.receivePingRequest_refused {req : PingRequest} {e : String} (h : n.Good pr l x)
    (hreceive : n.receivePingRequest pr choices req = .ok (.error e, n')) :
    n'.Good pr l x ∧ (n.Joined pr → n'.Joined pr) := by
  rw [Node.receivePingRequest] at hreceive
  split_ifs at hreceive
  · obtain ⟨-, rfl⟩ := Prod.mk.inj (Except.ok.inj hreceive)
    exact h.emit _
  · obtain ⟨⟨applied, n₁⟩, -, hret⟩ := exists_of_bind_eq_ok hreceive
    cases hret

theorem Good.respondPingRequest {req : PingRequest} {pingOk : Bool} {out : PingResponse}
    (h : n.Good pr l x) (hj : n.Joined pr)
    (hrespond : n.respondPingRequest o req pingOk = .ok (out, n')) :
    n'.Good pr l x ∧ n'.Joined pr ∧ ∀ c ∈ out.changes, l.Authentic c.member := by
  obtain ⟨kept, changes, full, n₂, hissue, hi⟩ :=
    n.issueAsReceiver_spec o req.source req.sourceIncarnation req.checksum
  rw [Node.respondPingRequest, hissue] at hrespond
  obtain ⟨rfl, rfl⟩ := Prod.mk.inj (Except.ok.inj hrespond)
  obtain ⟨hgood, hkeep, hchanges⟩ := h.issues hi
  exact ⟨hgood, hkeep hj, hchanges⟩

/-- **`handlePingRequest`** with the response of the target, or without one. -/
theorem Good.answerPingRequest {req : PingRequest} {res : Option Ping} {out : PingResponse}
    (h : n.Good pr l x) (hj : n.Joined pr) (hl : l.Extends l')
    (hres : ∀ r ∈ res, ∀ c ∈ r.changes, l.Authentic c.member)
    (hnote : ∀ r ∈ res, ∀ c ∈ n.refutations ⟨r.changes, choices⟩,
      (x, c.incarnation) ∈ l'.generated)
    (hanswer : n.answerPingRequest pr choices o req res = .ok (out, n')) :
    n'.Good pr l' x ∧ n'.Joined pr ∧ ∀ c ∈ out.changes, l'.Authentic c.member := by
  cases res with
  | none => exact (h.mono hl).respondPingRequest hj hanswer
  | some r =>
    obtain ⟨⟨applied, n₁⟩, hup, hrespond⟩ := exists_of_bind_eq_ok hanswer
    obtain ⟨hemit, hkeep⟩ := h.emit [.pingRequestPing n.address req.source req.target]
    obtain ⟨hgood, hjoined⟩ := hemit.update (hkeep hj) hl (hres r rfl) (hnote r rfl) hup
    exact hgood.respondPingRequest hjoined hrespond

end handlers

end Node

end Swim
end Ringpop
