/-
# What an action does

One lemma says what an action of a cluster can do (`Cluster.Inv.step_cases`): nothing, or end
a process, or move one process on.  A process that moves takes the changes that the action
offers it (`Cluster.Offers`), and before and after that it only sends, counts and forgets
(`Node.Rests`).  What it sends, it knows, or it passes on the call that it answers.

Two results about whole runs follow.  No process comes to a fault but one that is told to
leave before it has bootstrapped (`no_process_crashes`): whatever is delivered, how often and
in what order, no function panics or runs into a nil pointer.  And as long as a process lives,
what it holds about others only goes up in the order of the ranks (`views_only_grow`).
-/

import Ringpop.Swim.ClusterInvariant
import Ringpop.Swim.Structure

namespace Ringpop
namespace Swim

open CellStore Runs Reorder

/-- **Bumping** raises counters, and does not lower any. -/
theorem Disseminator.le_of_entry_bumpPiggybackCounters {d : Disseminator} {cs : List Change}
    {x : String} {pc : PChange} (h : (d.bumpPiggybackCounters cs).entry x = some pc) :
    ∃ pc₀, d.entry x = some pc₀ ∧ pc.toChange = pc₀.toChange ∧ pc₀.p ≤ pc.p := by
  induction cs generalizing d with
  | nil => exact ⟨pc, h, rfl, le_rfl⟩
  | cons c cs ih =>
    rw [bumpPiggybackCounters_cons] at h
    obtain ⟨pc₁, hpc₁, heq, hle⟩ := ih h
    rw [entry_bump] at hpc₁
    split_ifs at hpc₁
    · obtain ⟨pc₀, hpc₀, hraise⟩ := Option.bind_eq_some_iff.1 hpc₁
      refine ⟨pc₀, hpc₀, heq.trans (raise_toChange hraise), le_trans ?_ hle⟩
      rw [raise] at hraise
      split_ifs at hraise
      obtain rfl := Option.some.inj hraise
      exact Nat.le_succ _
    · exact ⟨pc₁, hpc₁, heq, hle⟩

theorem Disseminator.maxP_bumpPiggybackCounters (d : Disseminator) (cs : List Change) :
    (d.bumpPiggybackCounters cs).maxP = d.maxP := by
  induction cs generalizing d with
  | nil => rfl
  | cons c cs ih => rw [bumpPiggybackCounters_cons, ih, bump_maxP]

/-! ### What a node has applied -/

/-- The changes of an event of applied changes. -/
def NodeEvent.applied : NodeEvent → Option (List Change)
  | .memberlist (.changesApplied changes _ _ _) => some changes
  | _ => none

/-- The event of what `Update` applied, if it is emitted. -/
theorem Memberlist.applied_update {m : Memberlist} {fp : String → UInt32} {localAddress : String}
    {stopped : Bool} {choices : ℕ → Choice} {changes : List Change} {st : UpdateState}
    (h : m.update fp localAddress stopped choices changes = .ok st) :
    (st.emitted.map NodeEvent.memberlist).filterMap NodeEvent.applied =
      if st.applied = [] then [] else [st.applied] := by
  rw [Memberlist.update] at h
  split_ifs at h
  · obtain rfl := Except.ok.inj h
    rfl
  · obtain ⟨st₁, hst₁, h⟩ := exists_of_bind_eq_ok h
    have hquiet : (st₁.emitted.map NodeEvent.memberlist).filterMap NodeEvent.applied = [] := by
      rw [List.filterMap_eq_nil_iff, List.forall_mem_map]
      intro event hevent
      rw [emitted_applyChanges hst₁ event hevent]
      rfl
    split_ifs at h with happlied
    · obtain rfl := Except.ok.inj h
      rw [if_neg (List.ne_nil_of_length_pos happlied), List.map_append, List.filterMap_append,
        List.cons_append, List.nil_append, List.map_cons, List.filterMap_cons_none rfl, hquiet]
      rfl
    · obtain rfl := Except.ok.inj h
      have hnil : st₁.applied = [] := List.eq_nil_of_length_eq_zero (by omega)
      rw [if_pos hnil, List.cons_append, List.nil_append, List.map_cons,
        List.filterMap_cons_none rfl, hquiet]

namespace Node

/-- The changes that the node has applied, batch by batch, as its events tell. -/
def history (n : Node) : List (List Change) := n.emitted.filterMap NodeEvent.applied

theorem history_emit (n : Node) (events : List NodeEvent) :
    (n.emit events).history = n.history ++ events.filterMap NodeEvent.applied :=
  List.filterMap_append ..

/-- Events that tell of no changes. -/
theorem history_of_emitted {n n' : Node} {events : List NodeEvent}
    (h : n'.emitted = n.emitted ++ events) (hevents : ∀ e ∈ events, e.applied = none) :
    n'.history = n.history := by
  rw [history, h, List.filterMap_append, List.filterMap_eq_nil_iff.2 hevents, List.append_nil]
  rfl

/-- `handleChanges` tells of no changes. -/
theorem history_handleChanges {pr : Primitives} {n n' : Node} {changes : List Change}
    (h : n.handleChanges pr changes = .ok n') : n'.history = n.history := by
  have hadjust {n n' : Node} (h : n.adjustMaxPropagations pr = .ok n') :
      n'.history = n.history := by
    rw [adjustMaxPropagations] at h
    obtain ⟨numPingable, -, h⟩ := exists_of_bind_eq_ok h
    dsimp only at h
    split_ifs at h
    · obtain rfl := Except.ok.inj h
      exact history_of_emitted rfl (by simp [NodeEvent.applied])
    · obtain rfl := Except.ok.inj h
      rfl
  refine foldlM_invariant (I := fun n₁ => n₁.history = n.history)
    (fun n₁ c n₂ hn₁ hn₂ => ?_) rfl h
  simp only [handleChange] at hn₂
  split_ifs at hn₂
  · exact (hadjust hn₂).trans hn₁
  · obtain rfl := Except.ok.inj hn₂
    exact hn₁
  · exact (hadjust hn₂).trans hn₁
  · exact (hadjust hn₂).trans hn₁
  · obtain rfl := Except.ok.inj hn₂
    exact hn₁

/-- **`Update`** tells of what it applied. -/
theorem history_update {pr : Primitives} {n n' : Node} {b : Batch} {applied : List Change}
    (h : n.update pr b = .ok (applied, n')) :
    n'.history = n.history ++ if applied = [] then [] else [applied] := by
  obtain ⟨st, hst, rfl, hhandle⟩ := exists_handled_of_update h
  rw [history_handleChanges hhandle, history_emit, Memberlist.applied_update hst]
  rfl

end Node

/-! ### Moves of a process -/

namespace Node

variable {pr : Primitives} {l : Ledger} {x : String} {n n₁ n₂ n' : Node} {choices : ℕ → Choice}
  {changes applied : List Change} {o : Arrangement Change}

/-- Nothing is learnt: the entries stay, and what is pending was pending. -/
structure Rests (n n' : Node) : Prop where
  address : n'.address = n.address
  stopped : n'.stopped = n.stopped
  ready : n.ready = true → n'.ready = true
  history : n'.history = n.history
  entry : n'.memberlist.entry = n.memberlist.entry
  maxP : n'.disseminator.maxP = n.disseminator.maxP
  pending : ∀ y pc, n'.disseminator.entry y = some pc → ∃ pc₀,
    n.disseminator.entry y = some pc₀ ∧ pc.toChange = pc₀.toChange ∧ pc₀.p ≤ pc.p

theorem Rests.refl (n : Node) : n.Rests n :=
  ⟨rfl, rfl, id, rfl, rfl, rfl, fun _ pc hpc => ⟨pc, hpc, rfl, le_rfl⟩⟩

theorem Rests.trans (h : n.Rests n₁) (h' : n₁.Rests n') : n.Rests n' where
  address := h'.address.trans h.address
  stopped := h'.stopped.trans h.stopped
  ready hn := h'.ready (h.ready hn)
  history := h'.history.trans h.history
  entry := h'.entry.trans h.entry
  maxP := h'.maxP.trans h.maxP
  pending y pc hpc := by
    obtain ⟨pc₁, hpc₁, heq₁, hle₁⟩ := h'.pending y pc hpc
    obtain ⟨pc₀, hpc₀, heq₀, hle₀⟩ := h.pending y pc₁ hpc₁
    exact ⟨pc₀, hpc₀, heq₁.trans heq₀, hle₀.trans hle₁⟩

/-- A node with the same member list and disseminator. -/
theorem rests_of_eq (haddress : n'.address = n.address) (hstopped : n'.stopped = n.stopped)
    (hready : n.ready = true → n'.ready = true) (hhistory : n'.history = n.history)
    (hm : n'.memberlist.entry = n.memberlist.entry) (hd : n'.disseminator = n.disseminator) :
    n.Rests n' := by
  refine ⟨haddress, hstopped, hready, hhistory, hm, by rw [hd],
    fun y pc hpc => ⟨pc, ?_, rfl, le_rfl⟩⟩
  rw [← hd]
  exact hpc

theorem rests_emit (n : Node) {events : List NodeEvent}
    (hevents : ∀ e ∈ events, e.applied = none) : n.Rests (n.emit events) :=
  rests_of_eq rfl rfl id (history_of_emitted rfl hevents) rfl rfl

theorem rests_bumpPiggybackCounters (n : Node) (cs : List Change) :
    n.Rests (n.bumpPiggybackCounters cs) :=
  ⟨rfl, rfl, id, rfl, rfl, n.disseminator.maxP_bumpPiggybackCounters cs,
    fun _ _ => Disseminator.le_of_entry_bumpPiggybackCounters⟩

theorem rests_pingReturned (n : Node) (target : String) (req : Ping) (failed : Bool) :
    n.Rests (n.pingReturned target req failed) := by
  cases failed with
  | true => exact .refl n
  | false =>
    exact (n.rests_bumpPiggybackCounters req.changes).trans
      (rests_emit _ (by simp [NodeEvent.applied]))

theorem rests_pingRequestReturned (n : Node) (req : PingRequest) (failed : Bool) :
    n.Rests (n.pingRequestReturned req failed) := by
  cases failed with
  | true => exact n.rests_bumpPiggybackCounters req.changes
  | false => exact .refl n

theorem rests_sendPing (n : Node) (o : Arrangement Change) (target : String) :
    n.Rests (n.sendPing o target).2 :=
  rests_of_eq rfl rfl id (history_of_emitted (List.append_assoc ..) (by simp [NodeEvent.applied]))
    rfl rfl

theorem rests_sendPingRequest (n : Node) (o : Arrangement Change) (target : String) :
    n.Rests (n.sendPingRequest o target).2 :=
  rests_emit n (by simp [NodeEvent.applied])

theorem Issues.rests {source : String} {incarnation : ℤ} {checksum : UInt32}
    {kept : List Change} {full : Bool}
    (h : n.Issues o source incarnation checksum kept changes full n') : n.Rests n' := by
  obtain ⟨events, hemitted, hevents⟩ := h.emitted
  refine ⟨h.only.address, h.only.stopped, fun hr => h.only.ready.trans hr,
    history_of_emitted hemitted fun e he => ?_, by rw [h.only.memberlist], ?_, fun y pc hpc => ?_⟩
  · obtain ⟨cs, rfl⟩ | ⟨c, rfl⟩ | ⟨-, rfl⟩ := hevents e he <;> rfl
  · rw [h.disseminator, Disseminator.maxP_bumpPiggybackCounters]
  · rw [h.disseminator] at hpc
    exact Disseminator.le_of_entry_bumpPiggybackCounters hpc

/-- What `IssueAsReceiver` returns, the node knows. -/
theorem Issues.known {source : String} {incarnation : ℤ} {checksum : UInt32}
    {kept : List Change} {full : Bool}
    (h : n.Issues o source incarnation checksum kept changes full n') (hn : n.Believes) :
    ∀ c ∈ changes, n'.memberlist.entry c.address = some c.member := by
  intro c hc
  rw [h.only.memberlist]
  rcases h.changes with ⟨-, rfl, -⟩ | ⟨-, rfl, -⟩
  · obtain ⟨⟨pc, hpc, rfl⟩, -⟩ := h.mem_kept.1 hc
    exact hn.entry _ pc hpc
  · exact mem_fullSync hn.sound hc

theorem nodup_fullSync (hn : n.Sound) : (n.fullSync.map Change.address).Nodup := by
  rw [fullSync, List.map_map]
  exact hn.memberlist.nodup_addresses

theorem Issues.nodup_kept {source : String} {incarnation : ℤ} {checksum : UInt32}
    {kept : List Change} {full : Bool}
    (h : n.Issues o source incarnation checksum kept changes full n') :
    (kept.map Change.address).Nodup := by
  rw [(h.perm.map Change.address).nodup_iff]
  exact (n.disseminator.nodup_issueChanges o).sublist (List.filter_sublist.map _)

/-- **What is issued has at most one change for each address.** -/
theorem Issues.nodup {source : String} {incarnation : ℤ} {checksum : UInt32}
    {kept : List Change} {full : Bool}
    (h : n.Issues o source incarnation checksum kept changes full n') (hn : n.Sound) :
    (changes.map Change.address).Nodup := by
  rcases h.changes with ⟨-, rfl, -⟩ | ⟨-, rfl, -⟩
  · exact h.nodup_kept
  · exact nodup_fullSync hn

/-- The changes are given to the member list, and an event tells what comes of them; if it is
nothing, the disseminator stays as it is. -/
structure Takes (n : Node) (choices : ℕ → Choice) (changes applied : List Change) (n' : Node) :
    Prop extends n.Effect choices changes applied n' where
  history : n'.history = n.history ++ if applied = [] then [] else [applied]
  idle : applied = [] → n'.disseminator = n.disseminator

/-- The changes are taken, and what happens before and after teaches the node nothing. -/
def Moves (n : Node) (choices : ℕ → Choice) (changes applied : List Change) (n' : Node) : Prop :=
  ∃ n₁ n₂, n.Rests n₁ ∧ n₁.Takes choices changes applied n₂ ∧ n₂.Rests n'

theorem takes_nil (hn : n.Sound) (choices : ℕ → Choice) : n.Takes choices [] [] n where
  app := rfl
  address := rfl
  ready := rfl
  stopped := rfl
  sound := hn
  hasLocal := id
  run := by rw [ite_self]; rfl
  entry := rfl
  suspicion := rfl
  history := by rw [if_pos rfl, List.append_nil]
  idle _ := rfl

/-- Nothing is taken. -/
theorem Rests.moves (h : n.Rests n') (hn : n.Sound) (choices : ℕ → Choice) :
    n.Moves choices [] [] n' :=
  ⟨n, n, .refl n, takes_nil hn choices, h⟩

theorem Takes.moves (h : n₁.Takes choices changes applied n₂) (hbefore : n.Rests n₁)
    (hafter : n₂.Rests n') : n.Moves choices changes applied n' :=
  ⟨n₁, n₂, hbefore, h, hafter⟩

theorem Moves.address (h : n.Moves choices changes applied n') : n'.address = n.address := by
  obtain ⟨n₁, n₂, h₁, h₂, h₃⟩ := h
  exact h₃.address.trans (h₂.address.trans h₁.address)

theorem Moves.ready (h : n.Moves choices changes applied n') (hn : n.ready = true) :
    n'.ready = true := by
  obtain ⟨n₁, n₂, h₁, h₂, h₃⟩ := h
  exact h₃.ready (h₂.ready.trans (h₁.ready hn))

/-- **The entries after a move** are what the changes make of those before. -/
theorem Moves.run (h : n.Moves choices changes applied n') (hstopped : n.stopped = false) :
    View.run n.address choices n.memberlist.entry changes =
      .ok (n'.memberlist.entry, applied) := by
  obtain ⟨n₁, n₂, h₁, h₂, h₃⟩ := h
  have hrun := h₂.run
  rw [h₁.stopped, hstopped, h₁.address, h₁.entry, ← h₃.entry] at hrun
  exact hrun

/-- **The history after a move** is what was applied more. -/
theorem Moves.history (h : n.Moves choices changes applied n') :
    n'.history = n.history ++ if applied = [] then [] else [applied] := by
  obtain ⟨n₁, n₂, h₁, h₂, h₃⟩ := h
  rw [h₃.history, h₂.history, h₁.history]

/-- An `Update` that applies nothing records nothing. -/
theorem disseminator_of_update {b : Batch} (h : n.update pr b = .ok (applied, n'))
    (hnil : applied = []) : n'.disseminator = n.disseminator := by
  obtain ⟨st, -, -, hhandle⟩ := exists_handled_of_update h
  rw [hnil] at hhandle
  rw [← Except.ok.inj hhandle]
  rfl

/-- **`Update`** that returns. -/
theorem takes_update {b : Batch} (hn : n.Sound) (h : n.update pr b = .ok (applied, n')) :
    n.Takes b.choices b.changes applied n' :=
  ⟨effect_update hn h, history_update h, disseminator_of_update h⟩

/-- **The functions that make a change** of one status. -/
theorem takes_makeStatus {status address : String} {t incarnation : ℤ} (hn : n.Sound)
    (h : n.makeStatus status pr t choices address incarnation = .ok (applied, n')) :
    ∃ i, n.Takes choices [⟨n.address, i, address, incarnation, status⟩] applied n' := by
  obtain ⟨-, i, he⟩ := effect_makeStatus hn h
  rw [makeStatus, makeChange] at h
  obtain ⟨own, -, h⟩ := exists_of_bind_eq_ok h
  have hidle := disseminator_of_update h
  refine ⟨i, he, (history_update h).trans (congrArg (· ++ _) ?_), hidle⟩
  exact history_of_emitted rfl (by simp [NodeEvent.applied])

/-! ### The functions return -/

/-- A process that has joined goes on. -/
theorem Good.live (h : n.Good pr l x) (hj : n.Joined pr) : n.Live := by
  obtain ⟨own, hown, -⟩ := hj.own
  exact ⟨h.believes.sound, h.believes.sound.hasLocal hown,
    fun y member hy => (h.entry y member hy).valid⟩

/-- **`Update`** returns. -/
theorem Good.exists_update {b : Batch} (h : n.Good pr l x) (hj : n.Joined pr)
    (hb : ∀ c ∈ b.changes, l.Authentic c.member) :
    ∃ applied n', n.update pr b = .ok (applied, n') ∧
      n.Takes b.choices b.changes applied n' ∧
      n.refutations b = applied.filter (· ∉ b.changes) := by
  obtain ⟨applied, n', hup, -⟩ := (h.live hj).update pr fun c hc => (hb c hc).valid
  exact ⟨applied, n', hup, takes_update h.believes.sound hup, mem_refutations h.stopped hup⟩

/-- **`AddJoinList`** returns. -/
theorem Good.exists_addJoinList {b : Batch} (h : n.Good pr l x) (hj : n.Joined pr)
    (hb : ∀ c ∈ b.changes, l.Authentic c.member) :
    ∃ applied n', n.addJoinList pr b = .ok n' ∧ n.Moves b.choices b.changes applied n' ∧
      n.refutations b = applied.filter (· ∉ b.changes) := by
  obtain ⟨applied, n₁, hup, htakes, hrefutes⟩ := h.exists_update hj hb
  refine ⟨applied, _, by rw [Node.addJoinList, hup]; rfl, htakes.moves (.refl n) ?_, hrefutes⟩
  refine ⟨rfl, rfl, id, rfl, rfl, ?_, fun y pc hpc => ⟨pc, entry_of_clear hpc, rfl, le_rfl⟩⟩
  -- what is forgotten leaves the limit as it was
  have hmaxP (d : Disseminator) (cs : List Change) : (cs.foldl (fun (d : Disseminator) c =>
      if c.address = n₁.address then d else d.clearChange c.address) d).maxP = d.maxP := by
    induction cs generalizing d with
    | nil => rfl
    | cons c cs ih =>
      rw [List.foldl_cons, ih]
      split_ifs
      · rfl
      · rfl
  exact hmaxP _ _

/-- **`handlePing`** on a process that is ready returns. -/
theorem Good.exists_handlePing {req : Ping} (h : n.Good pr l x) (hready : n.ready = true)
    (hreq : ∀ c ∈ req.changes, l.Authentic c.member) (choices : ℕ → Choice)
    (o : Arrangement Change) :
    ∃ applied res n', n.handlePing pr choices o req = .ok (.ok res, n') ∧
      n.Moves choices req.changes applied n' ∧
      (∀ c ∈ res.changes, n'.memberlist.entry c.address = some c.member) ∧
      (res.changes.map Change.address).Nodup ∧
      n.refutations ⟨req.changes, choices⟩ = applied.filter (· ∉ req.changes) := by
  obtain ⟨hemit, hkeep⟩ := h.emit [.pingReceive n.address req.source req.changes]
  obtain ⟨applied, n₁, hup, htakes, hrefutes⟩ := hemit.exists_update
    (b := ⟨req.changes, choices⟩) (hkeep (h.ready hready)) hreq
  obtain ⟨kept, changes, full, n', hping, hi⟩ := handlePing_spec (o := o) hready hup
  have hbelieves := htakes.toEffect.believes hemit.believes
  exact ⟨applied, _, n', hping, htakes.moves (rests_emit _ (by simp [NodeEvent.applied])) hi.rests,
    hi.known hbelieves, hi.nodup hbelieves.sound, hrefutes⟩

theorem handlePing_of_not_ready {req : Ping} (hready : n.ready = false) (choices : ℕ → Choice)
    (o : Arrangement Change) : n.handlePing pr choices o req =
      .ok (.error errNodeNotReady, n.emit [.requestBeforeReady "ping"]) := by
  rw [handlePing, if_pos hready]
  rfl

/-- **`handlePingRequest`** on a process that is ready returns, until it pings the target. -/
theorem Good.exists_receivePingRequest {req : PingRequest} (h : n.Good pr l x)
    (hready : n.ready = true) (hreq : ∀ c ∈ req.changes, l.Authentic c.member)
    (choices : ℕ → Choice) :
    ∃ applied n', n.receivePingRequest pr choices req = .ok (.ok (), n') ∧
      n.Moves choices req.changes applied n' ∧ n'.Believes ∧
      n.refutations ⟨req.changes, choices⟩ = applied.filter (· ∉ req.changes) := by
  obtain ⟨hemit, hkeep⟩ := h.emit
    [.pingRequestReceive n.address req.source req.target req.changes]
  obtain ⟨applied, n₁, hup, htakes, hrefutes⟩ := hemit.exists_update
    (b := ⟨req.changes, choices⟩) (hkeep (h.ready hready)) hreq
  refine ⟨applied, n₁, ?_, htakes.moves (rests_emit _ (by simp [NodeEvent.applied])) (.refl n₁),
    htakes.toEffect.believes hemit.believes, hrefutes⟩
  rw [Node.receivePingRequest, hready, if_neg (by decide), hup]
  rfl

theorem receivePingRequest_of_not_ready {req : PingRequest} (hready : n.ready = false)
    (choices : ℕ → Choice) : n.receivePingRequest pr choices req =
      .ok (.error errNodeNotReady, n.emit [.requestBeforeReady "ping-req"]) := by
  rw [receivePingRequest, if_pos hready]
  rfl

/-- The end of `handlePingRequest` returns. -/
theorem exists_respondPingRequest (hn : n.Believes) (o : Arrangement Change) (req : PingRequest)
    (pingOk : Bool) : ∃ out n', n.respondPingRequest o req pingOk = .ok (out, n') ∧ n.Rests n' ∧
      (∀ c ∈ out.changes, n'.memberlist.entry c.address = some c.member) ∧
      (out.changes.map Change.address).Nodup := by
  obtain ⟨kept, changes, full, n', hissue, hi⟩ :=
    n.issueAsReceiver_spec o req.source req.sourceIncarnation req.checksum
  refine ⟨⟨pingOk, req.target, changes⟩, n', ?_, hi.rests, hi.known hn, hi.nodup hn.sound⟩
  rw [respondPingRequest, hissue]
  rfl

/-- **`handlePingRequest`** with the response of the target returns. -/
theorem Good.exists_answerPingRequest {res : Ping} (h : n.Good pr l x) (hj : n.Joined pr)
    (hres : ∀ c ∈ res.changes, l.Authentic c.member) (choices : ℕ → Choice)
    (o : Arrangement Change) (req : PingRequest) :
    ∃ applied out n', n.answerPingRequest pr choices o req (some res) = .ok (out, n') ∧
      n.Moves choices res.changes applied n' ∧
      (∀ c ∈ out.changes, n'.memberlist.entry c.address = some c.member) ∧
      (out.changes.map Change.address).Nodup ∧
      n.refutations ⟨res.changes, choices⟩ = applied.filter (· ∉ res.changes) := by
  obtain ⟨hemit, hkeep⟩ := h.emit [.pingRequestPing n.address req.source req.target]
  obtain ⟨applied, n₁, hup, htakes, hrefutes⟩ := hemit.exists_update
    (b := ⟨res.changes, choices⟩) (hkeep hj) hres
  obtain ⟨out, n', hrespond, hrests, hknown, hnodup⟩ := exists_respondPingRequest
    (htakes.toEffect.believes hemit.believes) o req true
  refine ⟨applied, out, n', ?_, htakes.moves (rests_emit _ (by simp [NodeEvent.applied])) hrests,
    hknown, hnodup, hrefutes⟩
  rw [Node.answerPingRequest, hup]
  exact hrespond

/-- **The functions that make a change** of one status return, and apply that change or
nothing, if it does not accuse the node. -/
theorem Sound.exists_takes {status address : String} (hn : n.Sound)
    (hvalid : View.Valid n.memberlist.entry) (hstopped : n.stopped = false)
    (hx : n.address = x) (hstatus : ValidStatus status)
    (hself : address = x → status = alive ∨ status = leave) (pr : Primitives) (t : ℤ)
    (choices : ℕ → Choice) (incarnation : ℤ) :
    ∃ i applied n', n.makeStatus status pr t choices address incarnation = .ok (applied, n') ∧
      n.Takes choices [⟨x, i, address, incarnation, status⟩] applied n' ∧
      ∀ c ∈ applied, c ∈ [(⟨x, i, address, incarnation, status⟩ : Change)] := by
  obtain ⟨applied, n', hmake, -⟩ := hn.exists_makeStatus hvalid hstatus pr t choices address
    incarnation
  obtain ⟨i, htakes⟩ := takes_makeStatus hn hmake
  have hrun := htakes.run
  rw [hstopped] at hrun
  rw [hx] at htakes
  refine ⟨i, applied, n', hmake, htakes, fun c hc => ?_⟩
  rw [← hx]
  refine (View.run_origin (fun y member => hn.memberlist.address_eq) hrun c hc).resolve_right ?_
  rintro ⟨⟨d, hd, haddr, haccuses⟩, -⟩
  obtain rfl := List.mem_singleton.1 hd
  rcases hself (haddr.trans hx) with hs | hs <;> rcases haccuses with ha | ha <;>
    exact absurd (hs.symm.trans ha) (by decide)

theorem Good.exists_takes {status address : String} (h : n.Good pr l x)
    (hstatus : ValidStatus status) (hself : address = x → status = alive ∨ status = leave)
    (t : ℤ) (choices : ℕ → Choice) (incarnation : ℤ) :
    ∃ i applied n', n.makeStatus status pr t choices address incarnation = .ok (applied, n') ∧
      n.Takes choices [⟨x, i, address, incarnation, status⟩] applied n' ∧
      ∀ c ∈ applied, c ∈ [(⟨x, i, address, incarnation, status⟩ : Change)] :=
  h.believes.sound.exists_takes (fun y member hy => (h.entry y member hy).valid) h.stopped
    h.address hstatus hself pr t choices incarnation

end Node

/-! ### Moves of a cluster -/

namespace Message

/-- Who the message is delivered to. -/
def receiver : Message → String
  | joinRequest _ target _ => target
  | joinResponse _ req _ => req.source
  | ping _ target _ _ => target
  | pingResponse _ _ req _ _ => req.source
  | pingRequest _ peer _ => peer
  | pingRequestResponse _ req _ => req.source

/-- Who waits for the answer. -/
def caller : Message → String
  | joinRequest _ _ req => req.source
  | joinResponse _ req _ => req.source
  | ping _ _ req _ => req.source
  | pingResponse _ _ req _ _ => req.source
  | pingRequest _ _ req => req.source
  | pingRequestResponse _ req _ => req.source

/-- The changes that the receiver gives to its member list. -/
def news : Message → List Change
  | joinRequest _ _ _ => []
  | joinResponse _ _ res => res.membership
  | ping _ _ req _ => req.changes
  | pingResponse _ _ _ _ res => res.changes
  | pingRequest _ _ req => req.changes
  | pingRequestResponse _ _ res => res.changes

theorem news_subset (m : Message) : m.news ⊆ m.changes := by
  cases m with
  | joinRequest life target req => exact fun c hc => hc
  | joinResponse life req res => exact fun c hc => hc
  | ping life target req helped => exact fun c hc => List.mem_append_left _ hc
  | pingResponse life target req helped res => exact fun c hc => List.mem_append_left _ hc
  | pingRequest life peer req => exact fun c hc => hc
  | pingRequestResponse life req res => exact fun c hc => List.mem_append_left _ hc

end Message

namespace Cluster

/-- The message that an action is about. -/
def message (s : Cluster) : Action → Option Message
  | .deliver i _ _ => s.network[i]?
  | .fail i _ _ => s.network[i]?
  | _ => none

/-- The process that an action is about. -/
def actor (s : Cluster) : Action → Option String
  | .restart x => some x
  | .reincarnate x _ _ _ => some x
  | .ready x => some x
  | .sendJoin x _ => some x
  | .sendPing x _ _ => some x
  | .sendPingRequest x _ _ _ => some x
  | .deliver i _ _ => s.network[i]?.map Message.receiver
  | .fail i _ _ => s.network[i]?.map Message.caller
  | .suspect x _ _ _ => some x
  | .fire x _ _ _ => some x
  | .adminLeave x _ _ => some x
  | .shuffle x _ => some x

/-- The changes that an action gives to the member list of the process `x`, if any. -/
inductive Offers (s : Cluster) (x : String) : Action → (ℕ → Choice) → List Change → Prop
  | nothing {a : Action} (ha : ∀ y now t choices, a ≠ .reincarnate y now t choices)
      (choices : ℕ → Choice) : Offers s x a choices []
  | reincarnate (now t : ℤ) (choices : ℕ → Choice) (i : ℤ) :
      Offers s x (.reincarnate x now t choices) choices [⟨x, i, x, now, alive⟩]
  | news {i : ℕ} {m : Message} (hm : s.network[i]? = some m) (hx : m.receiver = x)
      (hjoined : s.joined x = true) (choices : ℕ → Choice) (o : Arrangement Change) :
      Offers s x (.deliver i choices o) choices m.news
  | suspect {target : String} {member : Member}
      (hentry : (s.node x).memberlist.entry target = some member) (hne : target ≠ x)
      (t : ℤ) (choices : ℕ → Choice) (i : ℤ) : Offers s x (.suspect x t choices target) choices
        [⟨x, i, target, member.incarnation, suspect⟩]
  | fire {address : String} {i : ℤ}
      (htimer : (s.node x).suspicion.timers address = some ⟨i, false⟩)
      (t : ℤ) (choices : ℕ → Choice) (j : ℤ) :
      Offers s x (.fire x t choices address) choices [⟨x, j, address, i, faulty⟩]
  | leave (hjoined : s.joined x = true) (t : ℤ) (choices : ℕ → Choice) (i : ℤ) :
      Offers s x (.adminLeave x t choices) choices [⟨x, i, x, (s.node x).incarnation, leave⟩]

/-- What the process `x` sends in an action: it knows the changes, or passes on those of the call
that it answers or helps with; and it waits for the answer itself, or passes on the callers.
It tells the receiver one change for each address at most. -/
structure Sends (s : Cluster) (a : Action) (x : String) (n : Node) (m : Message) : Prop where
  news : (m.news.map Change.address).Nodup
  changes : ∀ c ∈ m.changes, n.memberlist.entry c.address = some c.member ∨
    ∃ m₀ ∈ s.message a, c ∈ m₀.changes
  callers : ∀ p ∈ m.callers, p = (x, s.life x) ∨ ∃ m₀ ∈ s.message a, p ∈ m₀.callers

/-- The process `x` takes the changes that the action offers it, and all else stays. -/
structure Moves (s : Cluster) (a : Action) (x : String) (choices : ℕ → Choice)
    (changes applied : List Change) (s' : Cluster) : Prop where
  actor : s.actor a = some x
  offers : s.Offers x a choices changes
  node : s'.node = Function.update s.node x (s'.node x)
  moves : (s.node x).Moves choices changes applied (s'.node x)
  life : s'.life = s.life
  network : ∃ sent, s'.network = s.network ++ sent ∧ ∀ m ∈ sent, s.Sends a x (s'.node x) m
  generated : ∀ p, p ∈ s'.generated ↔ p ∈ s.generated ∨
    (∃ now t choices, a = .reincarnate x now t choices ∧ p = (x, now)) ∨
      ∃ c ∈ applied, c ∉ changes ∧ p = (x, c.incarnation)

variable {pr : Primitives} {s s' : Cluster} {x : String} {n : Node} {m : Message} {a : Action}
  {choices : ℕ → Choice} {o : Arrangement Change} {changes applied : List Change} {i : ℕ}

/-- The process `x` moves, and perhaps sends something. -/
theorem moves_set (sent : List Message) (hactor : s.actor a = some x)
    (hoffers : s.Offers x a choices changes)
    (hmoves : (s.node x).Moves choices changes applied n)
    (hnode : s'.node = Function.update s.node x n) (hlife : s'.life = s.life)
    (hnetwork : s'.network = s.network ++ sent) (hsent : ∀ m ∈ sent, s.Sends a x n m)
    (hgenerated : s'.generated = s.generated) (hreincarnate : ∀ y now t choices,
      a ≠ .reincarnate y now t choices) (happlied : ∀ c ∈ applied, c ∈ changes) :
    s.Moves a x choices changes applied s' := by
  have hself : s'.node x = n := by rw [hnode, Function.update_self]
  refine ⟨hactor, hoffers, by rw [hself]; exact hnode, by rw [hself]; exact hmoves, hlife,
    ⟨sent, hnetwork, by rw [hself]; exact hsent⟩, fun p => ?_⟩
  rw [hgenerated]
  refine ⟨.inl, ?_⟩
  rintro (hp | ⟨now, t, choices, rfl, -⟩ | ⟨c, hc, hmem, -⟩)
  · exact hp
  · exact absurd rfl (hreincarnate _ _ _ _)
  · exact absurd (happlied c hc) hmem

theorem Inv.isJoined (h : s.Inv pr) (hj : (s.node x).Joined pr) : s.joined x = true := by
  obtain ⟨own, hown, -⟩ := hj.own
  rw [(h.node x).address] at hown
  rw [Cluster.joined, hown]
  rfl

/-- The process `x` takes the changes of a message, and its refutations are noted. -/
theorem Inv.moves_note (h : s.Inv pr) (sent : List Message) (hm : s.network[i]? = some m)
    (hx : m.receiver = x) (hj : (s.node x).Joined pr)
    (hmoves : (s.node x).Moves choices m.news applied n)
    (hrefutes : (s.node x).refutations ⟨m.news, choices⟩ = applied.filter (· ∉ m.news))
    (hnode : s'.node = Function.update s.node x n) (hlife : s'.life = s.life)
    (hnetwork : s'.network = s.network ++ sent)
    (hsent : ∀ m' ∈ sent, s.Sends (.deliver i choices o) x n m')
    (hgenerated : s'.generated = (s.note x ⟨m.news, choices⟩).generated) :
    s.Moves (.deliver i choices o) x choices m.news applied s' := by
  have hself : s'.node x = n := by rw [hnode, Function.update_self]
  refine ⟨by rw [actor, hm, Option.map_some, hx], .news hm hx (h.isJoined hj) choices o,
    by rw [hself]; exact hnode, by rw [hself]; exact hmoves, hlife,
    ⟨sent, hnetwork, by rw [hself]; exact hsent⟩, fun p => ?_⟩
  rw [hgenerated, Cluster.note, hrefutes, List.mem_append]
  simp only [reduceCtorEq, false_and, exists_false, false_or, List.mem_map, List.mem_filter,
    decide_eq_true_eq, and_assoc, eq_comm (b := p)]

/-! ### Messages that arrive -/

theorem Inv.moves_joinRequest {life : ℕ} {target : String} {req : JoinRequest} (h : s.Inv pr)
    (hm : s.network[i]? = some (.joinRequest life target req)) :
    ∃ x choices' changes applied, s.Moves (.deliver i choices o) x choices' changes applied
      (s.deliver pr choices o (.joinRequest life target req)) := by
  have hactor : s.actor (.deliver i choices o) = some target := by
    rw [actor, hm]
    rfl
  have hmoves : (s.node target).Moves choices [] [] ((s.node target).handleJoin req).2 :=
    ((s.node target).rests_emit (by simp [NodeEvent.applied])).moves
      (h.node target).believes.sound choices
  refine ⟨target, choices, [], [], ?_⟩
  rw [Cluster.deliver]
  dsimp only
  split
  · rename_i res hres
    refine moves_set [.joinResponse life req res] hactor (.nothing (by simp) _) hmoves rfl rfl rfl
      ?_ rfl (by simp) (by simp)
    rw [List.forall_mem_singleton]
    have hsound := (h.node target).believes.sound
    refine ⟨?_, fun c hc => .inl ?_, fun p hp => .inr ⟨_, hm, hp⟩⟩
    · rw [Message.news, Node.membership_of_handleJoin hres]
      exact Node.nodup_fullSync hsound
    · rw [Message.changes, Node.membership_of_handleJoin hres] at hc
      have hknown := Node.mem_fullSync hsound hc
      exact hknown
  · exact moves_set [] hactor (.nothing (by simp) _) hmoves rfl rfl (List.append_nil _).symm
      (by simp) rfl (by simp) (by simp)

theorem Inv.moves_joinResponse {life : ℕ} {req : JoinRequest} {res : JoinResponse} (h : s.Inv pr)
    (hm : s.network[i]? = some (.joinResponse life req res)) (hlife : s.life req.source = life) :
    ∃ applied, s.Moves (.deliver i choices o) req.source choices res.membership applied
      (s.deliver pr choices o (.joinResponse life req res)) := by
  have hp := h.network _ (List.mem_of_getElem? hm)
  have hj := hp.joined (.head _) hlife
  obtain ⟨applied, n, hup, hmoves, hrefutes⟩ := (h.node req.source).exists_addJoinList
    (b := ⟨res.membership, choices⟩) hj hp.changes
  refine ⟨applied, ?_⟩
  rw [Cluster.deliver, if_pos hlife, hup]
  exact h.moves_note [] hm rfl hj hmoves hrefutes rfl rfl (List.append_nil _).symm (by simp) rfl

theorem Inv.moves_ping {life : ℕ} {target : String} {req : Ping}
    {helped : Option (ℕ × PingRequest)} (h : s.Inv pr)
    (hm : s.network[i]? = some (.ping life target req helped)) :
    ∃ changes applied, s.Moves (.deliver i choices o) target choices changes applied
      (s.deliver pr choices o (.ping life target req helped)) := by
  have hp := h.network _ (List.mem_of_getElem? hm)
  cases hready : (s.node target).ready with
  | false =>
    refine ⟨[], [], ?_⟩
    rw [Cluster.deliver, Node.handlePing_of_not_ready hready]
    exact moves_set [] (by rw [actor, hm]; rfl) (.nothing (by simp) _)
      (((s.node target).rests_emit (by simp [NodeEvent.applied])).moves
        (h.node target).believes.sound choices) rfl rfl
      (List.append_nil _).symm (by simp) rfl (by simp) (by simp)
  | true =>
    obtain ⟨applied, res, n, hping, hmoves, hknown, hnodup, hrefutes⟩ :=
      (h.node target).exists_handlePing hready
        (fun c hc => hp.changes c (List.mem_append_left _ hc)) choices o
    refine ⟨req.changes, applied, ?_⟩
    rw [Cluster.deliver, hping]
    refine h.moves_note [.pingResponse life target req helped res] hm rfl
      ((h.node target).ready hready) hmoves hrefutes rfl rfl rfl ?_ rfl
    rw [List.forall_mem_singleton]
    refine ⟨hnodup, fun c hc => ?_, fun p hp => .inr ⟨_, hm, hp⟩⟩
    rcases List.mem_append.1 hc with hc | hc
    · exact .inl (hknown c hc)
    · exact .inr ⟨_, hm, hc⟩

theorem Inv.moves_pingResponse {life : ℕ} {target : String} {req res : Ping}
    {helped : Option (ℕ × PingRequest)} (h : s.Inv pr)
    (hm : s.network[i]? = some (.pingResponse life target req helped res))
    (hlife : s.life req.source = life) :
    ∃ applied, s.Moves (.deliver i choices o) req.source choices res.changes applied
      (s.deliver pr choices o (.pingResponse life target req helped res)) := by
  have hp := h.network _ (List.mem_of_getElem? hm)
  obtain ⟨hgood, hkeep⟩ := (h.node req.source).pingReturned target req false
  have hcaller := hp.joined (.head _) hlife
  have hj := hkeep hcaller
  have hres : ∀ c ∈ res.changes, s.Authentic c.member :=
    fun c hc => hp.changes c (List.mem_append_left _ hc)
  have hback := (s.node req.source).rests_pingReturned target req false
  rw [Cluster.deliver.eq_def]
  dsimp only
  rw [if_pos hlife]
  cases helped with
  | none =>
    obtain ⟨applied, n, hup, htakes, hrefutes⟩ := hgood.exists_update
      (b := ⟨res.changes, choices⟩) hj hres
    refine ⟨applied, ?_⟩
    dsimp only
    rw [hup]
    exact h.moves_note [] hm rfl hcaller (htakes.moves hback (.refl n)) hrefutes rfl rfl
      (List.append_nil _).symm (by simp) rfl
  | some helped =>
    obtain ⟨life', req'⟩ := helped
    obtain ⟨applied, out, n, hanswer, ⟨n₁, n₂, h₁, h₂, h₃⟩, hknown, hnodup, hrefutes⟩ :=
      hgood.exists_answerPingRequest hj hres choices o req'
    refine ⟨applied, ?_⟩
    dsimp only
    rw [hanswer]
    refine h.moves_note [.pingRequestResponse life' req' out] hm rfl hcaller
      (h₂.moves (hback.trans h₁) h₃) hrefutes rfl rfl rfl ?_ rfl
    rw [List.forall_mem_singleton]
    refine ⟨hnodup, fun c hc => ?_, fun p hp => .inr ⟨_, hm, .tail _ hp⟩⟩
    rcases List.mem_append.1 hc with hc | hc
    · exact .inl (hknown c hc)
    · exact .inr ⟨_, hm, List.mem_append_right _ (List.mem_append_right _ hc)⟩

theorem Inv.moves_pingRequest {life : ℕ} {peer : String} {req : PingRequest} (h : s.Inv pr)
    (hm : s.network[i]? = some (.pingRequest life peer req)) :
    ∃ changes applied, s.Moves (.deliver i choices o) peer choices changes applied
      (s.deliver pr choices o (.pingRequest life peer req)) := by
  have hp := h.network _ (List.mem_of_getElem? hm)
  cases hready : (s.node peer).ready with
  | false =>
    refine ⟨[], [], ?_⟩
    rw [Cluster.deliver, Node.receivePingRequest_of_not_ready hready]
    exact moves_set [] (by rw [actor, hm]; rfl) (.nothing (by simp) _)
      (((s.node peer).rests_emit (by simp [NodeEvent.applied])).moves
        (h.node peer).believes.sound choices) rfl rfl
      (List.append_nil _).symm (by simp) rfl (by simp) (by simp)
  | true =>
    obtain ⟨applied, n, hreceive, ⟨n₁, n₂, h₁, h₂, h₃⟩, hbelieves, hrefutes⟩ :=
      (h.node peer).exists_receivePingRequest hready hp.changes choices
    have hsend := n.rests_sendPing o req.target
    refine ⟨req.changes, applied, ?_⟩
    rw [Cluster.deliver, hreceive]
    refine h.moves_note [.ping (s.life peer) req.target (n.sendPing o req.target).1
      (some (life, req))] hm rfl ((h.node peer).ready hready) (h₂.moves h₁ (h₃.trans hsend))
      hrefutes rfl rfl rfl ?_ rfl
    rw [List.forall_mem_singleton]
    refine ⟨n.disseminator.nodup_issueChanges o, fun c hc => ?_, fun p hp => ?_⟩
    · rcases List.mem_append.1 hc with hc | hc
      · obtain ⟨pc, hpc, rfl⟩ := Disseminator.mem_issueChanges.1 hc
        exact .inl (hbelieves.entry _ pc hpc)
      · exact .inr ⟨_, hm, hc⟩
    · rcases List.mem_cons.1 hp with rfl | hp
      · refine .inl (congrArg (·, s.life peer) ?_)
        exact (h₃.address.trans (h₂.address.trans h₁.address)).trans (h.node peer).address
      · exact .inr ⟨_, hm, hp⟩

theorem Inv.moves_pingRequestResponse {life : ℕ} {req : PingRequest} {res : PingResponse}
    (h : s.Inv pr) (hm : s.network[i]? = some (.pingRequestResponse life req res))
    (hlife : s.life req.source = life) :
    ∃ applied, s.Moves (.deliver i choices o) req.source choices res.changes applied
      (s.deliver pr choices o (.pingRequestResponse life req res)) := by
  have hp := h.network _ (List.mem_of_getElem? hm)
  have hj := hp.joined (.head _) hlife
  obtain ⟨hgood, hkeep⟩ := (h.node req.source).pingRequestReturned req false
  obtain ⟨applied, n, hup, htakes, hrefutes⟩ := hgood.exists_update
    (b := ⟨res.changes, choices⟩) (hkeep hj)
    fun c hc => hp.changes c (List.mem_append_left _ hc)
  refine ⟨applied, ?_⟩
  rw [Cluster.deliver, if_pos hlife, hup]
  exact h.moves_note [] hm rfl hj
    (htakes.moves ((s.node req.source).rests_pingRequestReturned req false) (.refl n)) hrefutes
    rfl rfl (List.append_nil _).symm (by simp) rfl

/-- **A message arrives**: nothing comes of it, or its receiver moves. -/
theorem Inv.deliver_cases (h : s.Inv pr) (hm : s.network[i]? = some m) :
    s.deliver pr choices o m = s ∨ ∃ x choices' changes applied,
      s.Moves (.deliver i choices o) x choices' changes applied (s.deliver pr choices o m) := by
  cases m with
  | joinRequest life target req => exact .inr (h.moves_joinRequest hm)
  | joinResponse life req res =>
    by_cases hlife : s.life req.source = life
    · exact .inr ⟨_, _, _, h.moves_joinResponse hm hlife⟩
    · rw [Cluster.deliver, if_neg hlife]
      exact .inl rfl
  | ping life target req helped => exact .inr ⟨_, _, h.moves_ping hm⟩
  | pingResponse life target req helped res =>
    by_cases hlife : s.life req.source = life
    · exact .inr ⟨_, _, _, h.moves_pingResponse hm hlife⟩
    · rw [Cluster.deliver.eq_def]
      dsimp only
      rw [if_neg hlife]
      exact .inl rfl
  | pingRequest life peer req => exact .inr ⟨_, _, h.moves_pingRequest hm⟩
  | pingRequestResponse life req res =>
    by_cases hlife : s.life req.source = life
    · exact .inr ⟨_, _, _, h.moves_pingRequestResponse hm hlife⟩
    · rw [Cluster.deliver, if_neg hlife]
      exact .inl rfl

/-- **A call fails**: nothing comes of it, or its caller moves. -/
theorem Inv.fail_cases (h : s.Inv pr) (hm : s.network[i]? = some m) :
    s.fail pr choices o m = s ∨ ∃ x choices' changes applied,
      s.Moves (.fail i choices o) x choices' changes applied (s.fail pr choices o m) := by
  cases m with
  | ping life target req helped =>
    cases helped with
    | none => exact .inl rfl
    | some helped =>
      obtain ⟨life', req'⟩ := helped
      rw [Cluster.fail]
      by_cases hlife : s.life req.source = life
      · obtain ⟨hgood, -⟩ := (h.node req.source).pingReturned target req true
        obtain ⟨out, n, hrespond, hrests, hknown, hnodup⟩ := Node.exists_respondPingRequest
          hgood.believes o req' false
        refine .inr ⟨req.source, choices, [], [], ?_⟩
        rw [if_pos hlife, Node.answerPingRequest, hrespond]
        refine moves_set [.pingRequestResponse life' req' out] (by rw [actor, hm]; rfl)
          (.nothing (by simp) _) (hrests.moves hgood.believes.sound choices) rfl rfl rfl ?_ rfl
          (by simp) (by simp)
        rw [List.forall_mem_singleton]
        refine ⟨hnodup, fun c hc => ?_, fun p hp => .inr ⟨_, hm, .tail _ hp⟩⟩
        rcases List.mem_append.1 hc with hc | hc
        · exact .inl (hknown c hc)
        · exact .inr ⟨_, hm, List.mem_append_right _ hc⟩
      · rw [if_neg hlife]
        exact .inl rfl
  | pingRequest life peer req =>
    rw [Cluster.fail]
    by_cases hlife : s.life req.source = life
    · rw [if_pos hlife]
      exact .inr ⟨req.source, choices, [], [],
        moves_set [] (by rw [actor, hm]; rfl) (.nothing (by simp) _)
          (((s.node req.source).rests_pingRequestReturned req true).moves
            (h.node req.source).believes.sound choices) rfl rfl (List.append_nil _).symm (by simp)
          rfl (by simp) (by simp)⟩
    · rw [if_neg hlife]
      exact .inl rfl
  | joinRequest life target req => exact .inl rfl
  | joinResponse life req res => exact .inl rfl
  | pingResponse life target req helped res => exact .inl rfl
  | pingRequestResponse life req res => exact .inl rfl

/-! ### Actions -/

/-- A process that makes a change which does not accuse itself. -/
theorem moves_make {status address : String} {incarnation j : ℤ} (hactor : s.actor a = some x)
    (hoffers : s.Offers x a choices [⟨x, j, address, incarnation, status⟩])
    (hmoves : (s.node x).Moves choices [⟨x, j, address, incarnation, status⟩] applied n)
    (happlied : ∀ c ∈ applied, c ∈ [(⟨x, j, address, incarnation, status⟩ : Change)])
    (hreincarnate : ∀ y now t choices, a ≠ .reincarnate y now t choices) :
    s.Moves a x choices [⟨x, j, address, incarnation, status⟩] applied (s.set x n) :=
  moves_set [] hactor hoffers hmoves rfl rfl (List.append_nil _).symm (by simp) rfl hreincarnate
    happlied

/-- **A new incarnation** is taken and noted. -/
theorem Inv.moves_reincarnate {now t : ℤ} (h : s.Inv pr) : ∃ changes applied,
    s.Moves (.reincarnate x now t choices) x choices changes applied
      (s.step pr (.reincarnate x now t choices)) := by
  obtain ⟨j, applied, n, hmake, htakes, happlied⟩ := (h.node x).exists_takes
    (validStatus_name .alive) (fun _ => .inl rfl) t choices now
  have hstep : s.step pr (.reincarnate x now t choices) =
      { s.set x n with generated := s.generated ++ [(x, now)] } := by
    rw [Cluster.step, Node.reincarnate, (h.node x).address]
    rw [show (s.node x).makeAlive pr t choices x now = .ok (applied, n) from hmake]
    rfl
  rw [hstep]
  have hself : (s.set x n).node x = n := s.set_node_self x n
  refine ⟨[⟨x, j, x, now, alive⟩], applied, rfl, .reincarnate now t choices j, ?_, ?_, rfl,
    ⟨[], (List.append_nil _).symm, by simp⟩, fun p => ?_⟩
  · rw [hself]
    rfl
  · rw [hself]
    exact htakes.moves (.refl _) (.refl n)
  · rw [List.mem_append, List.mem_singleton]
    refine or_congr_right ⟨fun hp => .inl ⟨now, t, choices, rfl, hp⟩, ?_⟩
    rintro (⟨now', t', choices', heq, hp⟩ | ⟨c, hc, hmem, -⟩)
    · obtain ⟨-, rfl, -, -⟩ := Action.reincarnate.inj heq
      exact hp
    · exact absurd (happlied c hc) hmem

/-- **A suspicion** of another member. -/
theorem Inv.suspect_cases {t : ℤ} {target : String} (h : s.Inv pr) :
    s.step pr (.suspect x t choices target) = s ∨ ∃ changes applied,
      s.Moves (.suspect x t choices target) x choices changes applied
        (s.step pr (.suspect x t choices target)) := by
  rw [Cluster.step]
  cases hentry : (s.node x).memberlist.entry target with
  | none => exact .inl rfl
  | some member =>
    dsimp only
    split_ifs with hself
    · exact .inl rfl
    · obtain ⟨j, applied, n, hmake, htakes, happlied⟩ := (h.node x).exists_takes
        (validStatus_name .suspect) (fun heq => absurd heq hself) t choices member.incarnation
      refine .inr ⟨[⟨x, j, target, member.incarnation, Swim.suspect⟩], applied, ?_⟩
      rw [show (s.node x).makeSuspect pr t choices target member.incarnation = .ok (applied, n)
        from hmake]
      exact moves_make rfl (.suspect hentry hself t choices j)
        (htakes.moves (.refl _) (.refl n)) happlied (by simp)

/-- **A timer that goes off**, or one that has gone off or is not there. -/
theorem Inv.moves_fire {t : ℤ} {address : String} (h : s.Inv pr) : ∃ changes applied,
    s.Moves (.fire x t choices address) x choices changes applied
      (s.step pr (.fire x t choices address)) := by
  have hg := h.node x
  rw [Cluster.step, Node.fire]
  split
  · rename_i incarnation htimer
    have hsound : Node.Sound
        { s.node x with suspicion := (s.node x).suspicion.fire address } :=
      hg.believes.sound.congr rfl rfl
    obtain ⟨j, applied, n, hmake, htakes, happlied⟩ :=
      hsound.exists_takes (fun y member hy => (hg.entry y member hy).valid)
        hg.stopped hg.address (validStatus_name .faulty)
        (fun heq : address = x => absurd heq (hg.timer _ _ htimer).1) pr t choices incarnation
    refine ⟨[⟨x, j, address, incarnation, faulty⟩], applied, ?_⟩
    rw [show Node.makeFaulty pr { s.node x with suspicion := (s.node x).suspicion.fire address }
      t choices address incarnation = .ok (applied, n) from hmake]
    exact moves_make rfl (.fire htimer t choices j)
      (htakes.moves (Node.rests_of_eq rfl rfl id rfl rfl rfl) (.refl n)) happlied (by simp)
  · refine ⟨[], [], ?_⟩
    exact moves_set [] rfl (.nothing (by simp) _)
      ((Node.Rests.refl _).moves hg.believes.sound choices) rfl rfl (List.append_nil _).symm
      (by simp) rfl (by simp) (by simp)

/-- **`adminLeaveHandler`** on a process that has joined. -/
theorem Inv.moves_adminLeave {t : ℤ} (h : s.Inv pr) (hx : s.joined x = true) :
    ∃ changes applied, s.Moves (.adminLeave x t choices) x choices changes applied
      (s.step pr (.adminLeave x t choices)) := by
  have hg := h.node x
  obtain ⟨own, hown, -, hinc⟩ := (h.joined hx).getLocal hg.believes.sound
  obtain ⟨j, applied, n, hmake, htakes, happlied⟩ := hg.exists_takes
    (validStatus_name .leave) (fun _ => .inr rfl) t choices (s.node x).incarnation
  have hstep : s.step pr (.adminLeave x t choices) =
      { s.set x n with left := s.left ++ [(x, (s.node x).incarnation)] } := by
    rw [Cluster.step, Node.adminLeave, hown, hg.address]
    simp only [Bind.bind, Except.bind]
    rw [← hinc, show (s.node x).makeLeave pr t choices x (s.node x).incarnation =
      .ok (applied, n) from hmake]
    rfl
  rw [hstep]
  exact ⟨[⟨x, j, x, (s.node x).incarnation, leave⟩], applied,
    moves_set [] rfl (.leave hx t choices j) (htakes.moves (.refl _) (.refl n)) rfl rfl
      (List.append_nil _).symm (by simp) rfl (by simp) happlied⟩

/-- A call of a process that has joined. -/
theorem Inv.moves_call (h : s.Inv pr) (hactor : s.actor a = some x)
    (hreincarnate : ∀ y now t choices, a ≠ .reincarnate y now t choices)
    (hrests : (s.node x).Rests n) (hchanges : ∀ c ∈ m.changes,
      ∃ o, c ∈ (s.node x).disseminator.issueChanges o)
    (hnews : (m.news.map Change.address).Nodup)
    (hcallers : m.callers = [((s.node x).address, s.life x)]) :
    ∃ choices changes applied, s.Moves a x choices changes applied ((s.set x n).send m) := by
  have hg := h.node x
  refine ⟨fun _ => ⟨0, 0⟩, [], [], moves_set [m] hactor (.nothing hreincarnate _)
    (hrests.moves hg.believes.sound _) rfl rfl rfl ?_ rfl hreincarnate (by simp)⟩
  rw [List.forall_mem_singleton]
  refine ⟨hnews, fun c hc => .inl ?_, ?_⟩
  · obtain ⟨o, hc⟩ := hchanges c hc
    obtain ⟨pc, hpc, rfl⟩ := Disseminator.mem_issueChanges.1 hc
    rw [hrests.entry]
    exact hg.believes.entry _ pc hpc
  · rw [hcallers, List.forall_mem_singleton, hg.address]
    exact .inl rfl

/-- A process that has not joined has not begun. -/
theorem Inv.fresh (h : s.Inv pr) (hx : s.joined x = false) : (s.node x).Fresh := by
  refine (h.node x).state.resolve_right fun hj => ?_
  obtain ⟨own, hown, -⟩ := hj.own
  rw [(h.node x).address] at hown
  rw [Cluster.joined, hown] at hx
  cases hx

/-- **What an action can do**: nothing, or it ends a process that was told to end, or to leave
before it had bootstrapped, or one process moves. -/
theorem Inv.step_cases (h : s.Inv pr) (a : Action) :
    s.step pr a = s ∨
    (∃ x, s.step pr a = s.restart x ∧
      (a = .restart x ∨ ∃ t choices, a = .adminLeave x t choices ∧ s.joined x = false)) ∨
    ∃ x choices changes applied, s.Moves a x choices changes applied (s.step pr a) := by
  cases a with
  | restart x => exact .inr (.inl ⟨x, rfl, .inl rfl⟩)
  | reincarnate x now t choices => exact .inr (.inr ⟨x, choices, h.moves_reincarnate⟩)
  | ready x =>
    rw [Cluster.step]
    split_ifs with hx
    · have hrests : (s.node x).Rests { s.node x with ready := true } :=
        Node.rests_of_eq rfl rfl (fun _ => rfl) rfl rfl rfl
      exact .inr (.inr ⟨x, fun _ => ⟨0, 0⟩, [], [], moves_set [] rfl (.nothing (by simp) _)
        (hrests.moves (h.node x).believes.sound _) rfl rfl (List.append_nil _).symm (by simp) rfl
        (by simp) (by simp)⟩)
    · exact .inl rfl
  | sendJoin x target =>
    rw [Cluster.step]
    split_ifs with hx
    · have hsame : s.set x (s.node x) = s := by rw [Cluster.set, Function.update_eq_self]
      have hmoves := h.moves_call (m := .joinRequest (s.life x) target (s.node x).sendJoin)
        (a := .sendJoin x target) rfl (by simp) (.refl (s.node x)) (by simp [Message.changes])
        List.nodup_nil rfl
      rw [hsame] at hmoves
      exact .inr (.inr ⟨x, hmoves⟩)
    · exact .inl rfl
  | sendPing x o target =>
    rw [Cluster.step]
    split_ifs with hx
    · refine .inr (.inr ⟨x, h.moves_call rfl (by simp) ((s.node x).rests_sendPing o target)
        (fun c hc => ⟨o, ?_⟩) ((s.node x).disseminator.nodup_issueChanges o) rfl⟩)
      exact (List.mem_append.1 hc).resolve_right (by simp [Message.helpedChanges])
    · exact .inl rfl
  | sendPingRequest x o peer target =>
    rw [Cluster.step]
    split_ifs with hx
    · exact .inr (.inr ⟨x, h.moves_call rfl (by simp) ((s.node x).rests_sendPingRequest o target)
        (fun c hc => ⟨o, hc⟩) ((s.node x).disseminator.nodup_issueChanges o) rfl⟩)
    · exact .inl rfl
  | deliver i choices o =>
    rw [Cluster.step]
    cases hm : s.network[i]? with
    | none => exact .inl rfl
    | some m => exact (h.deliver_cases hm).imp_right .inr
  | fail i choices o =>
    rw [Cluster.step]
    cases hm : s.network[i]? with
    | none => exact .inl rfl
    | some m => exact (h.fail_cases hm).imp_right .inr
  | suspect x t choices target =>
    exact h.suspect_cases.imp_right fun hmoves => .inr ⟨x, choices, hmoves⟩
  | fire x t choices address => exact .inr (.inr ⟨x, choices, h.moves_fire⟩)
  | adminLeave x t choices =>
    cases hx : s.joined x with
    | true => exact .inr (.inr ⟨x, choices, h.moves_adminLeave hx⟩)
    | false =>
      refine .inr (.inl ⟨x, ?_, .inr ⟨t, choices, rfl, hx⟩⟩)
      rw [Cluster.step, Node.adminLeave, Memberlist.getLocal, (h.fresh hx).localMember]
      rfl
  | shuffle x o =>
    have hrests : (s.node x).Rests
        { s.node x with memberlist := (s.node x).memberlist.shuffle o } :=
      Node.rests_of_eq rfl rfl id rfl rfl rfl
    exact .inr (.inr ⟨x, fun _ => ⟨0, 0⟩, [], [], moves_set [] rfl (.nothing (by simp) _)
      (hrests.moves (h.node x).believes.sound _) rfl rfl (List.append_nil _).symm (by simp) rfl
      (by simp) (by simp)⟩)

/-! ### Runs -/

/-- The changes that an action offers have valid statuses. -/
theorem Inv.valid_of_offers (h : s.Inv pr) (hoffers : s.Offers x a choices changes) :
    ∀ c ∈ changes, ValidStatus c.status := by
  cases hoffers with
  | nothing => simp
  | reincarnate now t choices i => exact List.forall_mem_singleton.2 (validStatus_name .alive)
  | news hm hx hjoined choices o =>
    exact fun c hc => ((h.network _ (List.mem_of_getElem? hm)).changes c
      (Message.news_subset _ hc)).valid
  | suspect hentry hne t choices i =>
    exact List.forall_mem_singleton.2 (validStatus_name .suspect)
  | fire htimer t choices j => exact List.forall_mem_singleton.2 (validStatus_name .faulty)
  | leave hjoined t choices i => exact List.forall_mem_singleton.2 (validStatus_name .leave)

/-- **A process ends** only if it is told to end, or to leave before it has bootstrapped. -/
theorem Inv.life_step (h : s.Inv pr) (a : Action) (x : String) :
    (s.step pr a).life x = s.life x ∨ (s.step pr a).life x = s.life x + 1 ∧
      (a = .restart x ∨ ∃ t choices, a = .adminLeave x t choices ∧ s.joined x = false) := by
  rcases h.step_cases a with hsame | ⟨y, hrestart, ha⟩ | ⟨y, choices, changes, applied, hmoves⟩
  · rw [hsame]
    exact .inl rfl
  · rw [hrestart]
    by_cases hy : x = y
    · subst hy
      exact .inr ⟨Function.update_self .., ha⟩
    · exact .inl (Function.update_of_ne hy ..)
  · rw [hmoves.life]
    exact .inl rfl

/-- **No process crashes.**  In every state that a cluster can reach, an action ends the process
at `x` exactly if it tells it to end, or to leave when it has not bootstrapped.  No other
call, and no message in whatever order and however often it is delivered, panics or runs into
a nil pointer. -/
theorem no_process_crashes (pr : Primitives) (app : String → String) (actions : List Action)
    (a : Action) (x : String) :
    (((new app).run pr actions).step pr a).life x ≠ ((new app).run pr actions).life x ↔
      a = .restart x ∨ ∃ t choices, a = .adminLeave x t choices ∧
        ((new app).run pr actions).joined x = false := by
  have h := (inv_new pr app).run actions
  generalize (new app).run pr actions = s at h ⊢
  refine ⟨fun hne => ?_, ?_⟩
  · exact ((h.life_step a x).resolve_left hne).2
  · rintro (rfl | ⟨t, choices, rfl, hx⟩)
    · simp [step, restart]
    · have hf : (s.node x).Fresh := h.fresh hx
      have hleave : (s.node x).adminLeave pr t choices = .error .nilDereference := by
        rw [Node.adminLeave, Memberlist.getLocal, hf.localMember]
        rfl
      simp [step, hleave, attempt, restart]

/-- **One action** does not lower what a process holds about others, if it goes on. -/
theorem Inv.rank_step (h : s.Inv pr) (a : Action) {x y : String} (hy : y ≠ x)
    (hlife : (s.step pr a).life x = s.life x) :
    View.rank (s.node x).memberlist.entry y ≤
      View.rank ((s.step pr a).node x).memberlist.entry y := by
  rcases h.step_cases a with hsame | ⟨z, hrestart, -⟩ | ⟨z, choices, changes, applied, hmoves⟩
  · rw [hsame]
  · have hz : x ≠ z := by
      rintro rfl
      rw [hrestart] at hlife
      simp [Cluster.restart] at hlife
    have hnode : (s.restart z).node x = s.node x := Function.update_of_ne hz ..
    rw [hrestart, hnode]
  · by_cases hz : x = z
    · subst hz
      have hg := h.node x
      obtain ⟨r, hrun, -, hrank⟩ := View.rank_run
        (hg.believes.sound.memberlist.view fun y member hy => (hg.entry y member hy).valid)
        (s.node x).address choices (h.valid_of_offers hmoves.offers)
      have hr : r.1 = ((s.step pr a).node x).memberlist.entry :=
        congrArg Prod.fst (Except.ok.inj (hrun.symm.trans (hmoves.moves.run hg.stopped)))
      rw [← hr, hrank y (by rwa [hg.address])]
      exact le_sup_left
    · rw [hmoves.node, Function.update_of_ne hz]

/-- The life of a process goes up. -/
theorem Inv.life_le_run (h : s.Inv pr) (actions : List Action) (x : String) :
    s.life x ≤ (s.run pr actions).life x := by
  induction actions generalizing s with
  | nil => exact le_rfl
  | cons a actions ih =>
    refine le_trans ?_ (ih (h.step a))
    rcases h.life_step a x with hlife | ⟨hlife, -⟩ <;> omega

/-- **Views only grow.**  However a cluster runs on from a state that it can reach: as long as
the process at `x` lives, it does not forget a member, and what it holds about a member
other than itself only goes up in the order of the incarnations and statuses. -/
theorem views_only_grow (pr : Primitives) (app : String → String) (actions more : List Action)
    (x y : String) (hy : y ≠ x)
    (hlife : (((new app).run pr actions).run pr more).life x =
      ((new app).run pr actions).life x) :
    View.rank (((new app).run pr actions).node x).memberlist.entry y ≤
      View.rank ((((new app).run pr actions).run pr more).node x).memberlist.entry y := by
  have h := (inv_new pr app).run actions
  generalize (new app).run pr actions = s at h hlife ⊢
  induction more generalizing s with
  | nil => exact le_rfl
  | cons a more ih =>
    have hrest := (h.step a).life_le_run more x
    have hone : (s.step pr a).life x = s.life x := by
      have hlife' : ((s.step pr a).run pr more).life x = s.life x := hlife
      rcases h.life_step a x with hstay | ⟨hstay, -⟩ <;> omega
    exact (h.rank_step a hy hone).trans (ih (s.step pr a) (h.step a) (hlife.trans hone.symm))

/-- A node that has just begun hears of another one. -/
theorem views_only_grow_heard : ∃ s s' : Cluster, s'.life "a" = s.life "a" ∧
    (s.node "a").memberlist.entry "b" = none ∧
    (s'.node "a").memberlist.entry "b" = some ⟨"b", alive, 2⟩ ∧
    View.rank (s.node "a").memberlist.entry "b" ≤
      View.rank (s'.node "a").memberlist.entry "b" := by
  refine ⟨(new fun _ => "app").run ⟨fun _ => 0, id⟩
      [.reincarnate "a" 1 1 fun _ => ⟨1, 0⟩, .reincarnate "b" 2 2 fun _ => ⟨2, 0⟩, .ready "b",
        .sendPing "a" .asIs "b"],
    ((new fun _ => "app").run ⟨fun _ => 0, id⟩
      [.reincarnate "a" 1 1 fun _ => ⟨1, 0⟩, .reincarnate "b" 2 2 fun _ => ⟨2, 0⟩, .ready "b",
        .sendPing "a" .asIs "b"]).run ⟨fun _ => 0, id⟩
      [.deliver 0 (fun _ => ⟨3, 0⟩) .asIs, .deliver 1 (fun _ => ⟨3, 0⟩) .asIs],
    by decide +kernel, by decide +kernel, by decide +kernel, ?_⟩
  exact views_only_grow _ _ _ _ "a" "b" (by decide) (by decide +kernel)

end Cluster

end Swim
end Ringpop
