/-
# Authenticity in every run

`Cluster.Inv` holds of a new cluster and is kept by every action, whatever messages are
delivered: each process is `Good`, and each message carries authentic changes, comes from
a process that had joined, and waits for nobody who has not.  An action replaces one
process and may add a message and a note to the ledger, which is all that has to be
looked at (`Inv.progress`).
-/

import Ringpop.Swim.Authentic

namespace Ringpop
namespace Swim

open CellStore Runs Reorder

namespace Message

/-- The ping request that a ping helps with. -/
def helpedChanges (helped : Option (ℕ × PingRequest)) : List Change :=
  helped.elim [] fun h => h.2.changes

/-- All changes of a message, with those of the calls that it answers or helps with. -/
def changes : Message → List Change
  | joinRequest _ _ _ => []
  | joinResponse _ _ res => res.membership
  | ping _ _ req helped => req.changes ++ helpedChanges helped
  | pingResponse _ _ req helped res => res.changes ++ (req.changes ++ helpedChanges helped)
  | pingRequest _ _ req => req.changes
  | pingRequestResponse _ req res => res.changes ++ req.changes

/-- The senders of a message and of those calls, with their incarnations. -/
def senders : Message → List (String × ℤ)
  | joinRequest _ _ req => [(req.source, req.incarnation)]
  | joinResponse _ req _ => [(req.source, req.incarnation)]
  | ping _ _ req helped => (req.source, req.sourceIncarnation) ::
      helped.toList.map fun h => (h.2.source, h.2.sourceIncarnation)
  | pingResponse _ _ req helped res => (res.source, res.sourceIncarnation) ::
      (req.source, req.sourceIncarnation) ::
        helped.toList.map fun h => (h.2.source, h.2.sourceIncarnation)
  | pingRequest _ _ req => [(req.source, req.sourceIncarnation)]
  | pingRequestResponse _ req _ => [(req.source, req.sourceIncarnation)]

/-- The processes that wait for the answer. -/
def callers : Message → List (String × ℕ)
  | joinRequest life _ req => [(req.source, life)]
  | joinResponse life req _ => [(req.source, life)]
  | ping life _ req helped => (req.source, life) ::
      helped.toList.map fun h => (h.2.source, h.1)
  | pingResponse life _ req helped _ => (req.source, life) ::
      helped.toList.map fun h => (h.2.source, h.1)
  | pingRequest life _ req => [(req.source, life)]
  | pingRequestResponse life req _ => [(req.source, life)]

end Message

namespace Cluster

/-- What holds of a message: its changes are authentic, its senders give their own
incarnations, and a caller that is still there has joined. -/
structure Proper (pr : Primitives) (s : Cluster) (m : Message) : Prop where
  changes : ∀ c ∈ m.changes, s.Authentic c.member
  senders : ∀ p ∈ m.senders, p ∈ s.generated
  callers : ∀ p ∈ m.callers, p.2 ≤ s.life p.1 ∧ (p.2 = s.life p.1 → (s.node p.1).Joined pr)

/-- What holds of a cluster. -/
structure Inv (pr : Primitives) (s : Cluster) : Prop where
  node : ∀ x, (s.node x).Good pr s.toLedger x
  network : ∀ m ∈ s.network, s.Proper pr m

variable {pr : Primitives} {s s' : Cluster} {x : String} {n : Node} {m : Message}
  {choices : ℕ → Choice} {o : Arrangement Change}

theorem inv_new (pr : Primitives) (app : String → String) : (new app).Inv pr :=
  ⟨fun x => Node.good_new pr _ (app x) x, fun m hm => by cases hm⟩

/-- A message stays proper while processes stay joined. -/
theorem Proper.mono (h : s.Proper pr m) (hl : s.Extends s'.toLedger) (hlife : s'.life = s.life)
    (hjoined : ∀ x, (s.node x).Joined pr → (s'.node x).Joined pr) : s'.Proper pr m where
  changes c hc := (h.changes c hc).mono hl
  senders p hp := hl.generated (h.senders p hp)
  callers p hp := by
    rw [hlife]
    exact (h.callers p hp).imp_right fun hj heq => hjoined _ (hj heq)

/-- **One process goes on**, and something may be noted. -/
theorem Inv.progress (h : s.Inv pr) (hl : s.Extends s'.toLedger)
    (hnode : s'.node = Function.update s.node x n) (hlife : s'.life = s.life)
    (hnetwork : s'.network = s.network) (hgood : n.Good pr s'.toLedger x)
    (hjoined : (s.node x).Joined pr → n.Joined pr) :
    s'.Inv pr ∧ ∀ m, s.Proper pr m → s'.Proper pr m := by
  have hkeep : ∀ y, (s.node y).Joined pr → (s'.node y).Joined pr := by
    rw [hnode]
    exact (Function.forall_update_iff s.node fun y n => (s.node y).Joined pr → n.Joined pr).2
      ⟨hjoined, fun y _ hj => hj⟩
  have hmono (m : Message) (hm : s.Proper pr m) : s'.Proper pr m := hm.mono hl hlife hkeep
  refine ⟨⟨?_, fun m hm => ?_⟩, hmono⟩
  · rw [hnode]
    exact (Function.forall_update_iff s.node fun y n => n.Good pr s'.toLedger y).2
      ⟨hgood, fun y _ => (h.node y).mono hl⟩
  · rw [hnetwork] at hm
    exact hmono m (h.network m hm)

/-- **A new process.**  The callers of the old one are too old for it. -/
theorem Inv.restart (h : s.Inv pr) (x : String) : (s.restart x).Inv pr := by
  refine ⟨?_, fun m hm => ⟨(h.network m hm).changes, (h.network m hm).senders, fun p hp => ?_⟩⟩
  · exact (Function.forall_update_iff s.node fun y n => n.Good pr s.toLedger y).2
      ⟨Node.good_new pr _ _ x, fun y _ => h.node y⟩
  · obtain ⟨hle, hj⟩ := (h.network m hm).callers p hp
    by_cases hp' : p.1 = x
    · simp only [Cluster.restart, hp', Function.update_self]
      rw [hp'] at hle
      exact ⟨by omega, fun heq => by omega⟩
    · simp only [Cluster.restart, Function.update_of_ne hp']
      exact ⟨hle, hj⟩

/-- A function that does not return ends the process. -/
theorem Inv.attempt {α : Type} {r : Except Fault α} {f : α → Cluster} (h : s.Inv pr) (x : String)
    (hok : ∀ a, r = .ok a → (f a).Inv pr) : (s.attempt x r f).Inv pr := by
  cases r with
  | error e => exact h.restart x
  | ok a => exact hok a rfl

/-- One process goes on, and nothing else happens. -/
theorem Inv.set (h : s.Inv pr)
    (hn : n.Good pr s.toLedger x ∧ ((s.node x).Joined pr → n.Joined pr)) :
    (s.set x n).Inv pr ∧ ∀ m, s.Proper pr m → (s.set x n).Proper pr m :=
  h.progress (.refl _) rfl rfl rfl hn.1 hn.2

/-- A message is sent. -/
theorem Inv.send (h : s.Inv pr) (hm : s.Proper pr m) : (s.send m).Inv pr := by
  refine ⟨h.node, fun m' hm' => ?_⟩
  rcases List.mem_append.1 hm' with hm' | hm'
  · exact ⟨(h.network m' hm').changes, (h.network m' hm').senders, (h.network m' hm').callers⟩
  · obtain rfl := List.mem_singleton.1 hm'
    exact ⟨hm.changes, hm.senders, hm.callers⟩

/-- A caller that is still there has joined. -/
theorem Proper.joined {x : String} {life : ℕ} (h : s.Proper pr m) (hm : (x, life) ∈ m.callers)
    (hlife : s.life x = life) : (s.node x).Joined pr :=
  (h.callers _ hm).2 hlife.symm

theorem set_node_self (s : Cluster) (x : String) (n : Node) : (s.set x n).node x = n :=
  Function.update_self ..

/-- The process at `x` that has joined may wait for an answer. -/
theorem caller_self {y : String} (hj : (s.node x).Joined pr) (hy : y = x) :
    s.life x ≤ s.life y ∧ (s.life x = s.life y → (s.node y).Joined pr) := by
  subst hy
  exact ⟨le_rfl, fun _ => hj⟩

/-- **An `Update`** of the process at `x`: the refutations are noted. -/
theorem Inv.note {b : Batch} (h : s.Inv pr) (hgood : n.Good pr (s.note x b).toLedger x)
    (hjoined : n.Joined pr) : ((s.note x b).set x n).Inv pr ∧
      ∀ m, s.Proper pr m → ((s.note x b).set x n).Proper pr m :=
  h.progress ⟨fun _ hp => List.mem_append_left _ hp, fun _ hp => hp⟩ rfl rfl rfl hgood
    fun _ => hjoined

theorem extends_note (s : Cluster) (x : String) (b : Batch) : s.Extends (s.note x b).toLedger :=
  ⟨fun _ hp => List.mem_append_left _ hp, fun _ hp => hp⟩

theorem mem_note (s : Cluster) (x : String) (b : Batch) :
    ∀ c ∈ (s.node x).refutations b, (x, c.incarnation) ∈ (s.note x b).generated :=
  fun c hc => List.mem_append_right _ (List.mem_map.2 ⟨c, hc, rfl⟩)

/-! ### Messages that arrive -/

theorem Inv.deliver_joinRequest {life : ℕ} {target : String} {req : JoinRequest} (h : s.Inv pr)
    (hm : s.Proper pr (.joinRequest life target req)) :
    (s.deliver pr choices o (.joinRequest life target req)).Inv pr := by
  obtain ⟨hset, hmono⟩ := h.set ((h.node target).emit
    [.joinReceive (s.node target).address req.source])
  rw [Cluster.deliver]
  dsimp only
  split
  · rename_i res hres
    refine hset.send ⟨fun c hc => ?_, (hmono _ hm).senders, (hmono _ hm).callers⟩
    rw [Message.changes, Node.membership_of_handleJoin hres] at hc
    exact (h.node target).fullSync c hc
  · exact hset

theorem Inv.deliver_joinResponse {life : ℕ} {req : JoinRequest} {res : JoinResponse} (h : s.Inv pr)
    (hm : s.Proper pr (.joinResponse life req res)) :
    (s.deliver pr choices o (.joinResponse life req res)).Inv pr := by
  rw [Cluster.deliver]
  split_ifs with hlife
  · refine h.attempt _ fun n hup => ?_
    obtain ⟨hgood, hjoined⟩ := (h.node req.source).addJoinList (hm.joined (.head _) hlife)
      (s.extends_note _ _) hm.changes (s.mem_note _ _) hup
    exact (h.note hgood hjoined).1
  · exact h

theorem Inv.deliver_ping {life : ℕ} {target : String} {req : Ping}
    {helped : Option (ℕ × PingRequest)} (h : s.Inv pr)
    (hm : s.Proper pr (.ping life target req helped)) :
    (s.deliver pr choices o (.ping life target req helped)).Inv pr := by
  rw [Cluster.deliver]
  refine h.attempt _ fun r hr => ?_
  obtain ⟨res, n⟩ := r
  cases res with
  | error e => exact (h.set ((h.node target).handlePing_refused hr)).1
  | ok res =>
    obtain ⟨hgood, hjoined, hchanges, hsender⟩ := (h.node target).handlePing
      (s.extends_note target ⟨req.changes, choices⟩)
      (fun c hc => hm.changes c (List.mem_append_left _ hc)) (s.mem_note _ _) hr
    obtain ⟨hset, hmono⟩ := h.note hgood hjoined
    refine hset.send ⟨?_, ?_, (hmono _ hm).callers⟩
    · exact List.forall_mem_append.2 ⟨hchanges, (hmono _ hm).changes⟩
    · exact List.forall_mem_cons.2 ⟨hsender, (hmono _ hm).senders⟩

theorem Inv.deliver_pingResponse {life : ℕ} {target : String} {req res : Ping}
    {helped : Option (ℕ × PingRequest)} (h : s.Inv pr)
    (hm : s.Proper pr (.pingResponse life target req helped res)) :
    (s.deliver pr choices o (.pingResponse life target req helped res)).Inv pr := by
  rw [Cluster.deliver.eq_def]
  dsimp only
  split_ifs with hlife
  · obtain ⟨hreturned, hkeep⟩ := (h.node req.source).pingReturned target req false
    have hj := hkeep (hm.joined (.head _) hlife)
    have hres : ∀ c ∈ res.changes, s.Authentic c.member :=
      fun c hc => hm.changes c (List.mem_append_left _ hc)
    cases helped with
    | none =>
      refine h.attempt _ fun r hr => ?_
      obtain ⟨applied, n⟩ := r
      obtain ⟨hgood, hjoined⟩ := hreturned.update hj (s.extends_note req.source
        ⟨res.changes, choices⟩) hres (s.mem_note _ _) hr
      exact (h.note hgood hjoined).1
    | some helped =>
      obtain ⟨life', req'⟩ := helped
      refine h.attempt _ fun r hr => ?_
      obtain ⟨out, n⟩ := r
      obtain ⟨hgood, hjoined, hchanges⟩ := hreturned.answerPingRequest hj
        (s.extends_note req.source ⟨res.changes, choices⟩)
        (fun r' hr' => by obtain rfl := Option.some.inj hr'; exact hres)
        (fun r' hr' => by obtain rfl := Option.some.inj hr'; exact s.mem_note _ _) hr
      obtain ⟨hset, hmono⟩ := h.note hgood hjoined
      have hm' := hmono _ hm
      refine hset.send ⟨List.forall_mem_append.2 ⟨hchanges, fun c hc => hm'.changes c ?_⟩,
        fun p hp => hm'.senders p ?_, fun p hp => hm'.callers p ?_⟩
      · exact List.mem_append_right _ (List.mem_append_right _ hc)
      · exact .tail _ (.tail _ hp)
      · exact .tail _ hp
  · exact h

theorem Inv.deliver_pingRequest {life : ℕ} {peer : String} {req : PingRequest} (h : s.Inv pr)
    (hm : s.Proper pr (.pingRequest life peer req)) :
    (s.deliver pr choices o (.pingRequest life peer req)).Inv pr := by
  rw [Cluster.deliver]
  refine h.attempt _ fun r hr => ?_
  obtain ⟨res, n⟩ := r
  cases res with
  | error e => exact (h.set ((h.node peer).receivePingRequest_refused hr)).1
  | ok u =>
    obtain ⟨hgood, hjoined⟩ := (h.node peer).receivePingRequest
      (s.extends_note peer ⟨req.changes, choices⟩) hm.changes (s.mem_note _ _) hr
    obtain ⟨hsent, hkeep⟩ := hgood.sendPing o req.target
    obtain ⟨hset, hmono⟩ := h.note hsent (hkeep hjoined)
    have hm' := hmono _ hm
    refine hset.send ⟨List.forall_mem_append.2 ⟨hgood.issueChanges, hm'.changes⟩,
      List.forall_mem_cons.2 ⟨hgood.sender hjoined, hm'.senders⟩,
      List.forall_mem_cons.2 ⟨caller_self (s := (s.note peer ⟨req.changes, choices⟩).set peer _) ?_
        hgood.address, hm'.callers⟩⟩
    rw [set_node_self]
    exact hkeep hjoined

theorem Inv.deliver_pingRequestResponse {life : ℕ} {req : PingRequest} {res : PingResponse}
    (h : s.Inv pr) (hm : s.Proper pr (.pingRequestResponse life req res)) :
    (s.deliver pr choices o (.pingRequestResponse life req res)).Inv pr := by
  rw [Cluster.deliver]
  split_ifs with hlife
  · obtain ⟨hreturned, hkeep⟩ := (h.node req.source).pingRequestReturned req false
    refine h.attempt _ fun r hr => ?_
    obtain ⟨applied, n⟩ := r
    obtain ⟨hgood, hjoined⟩ := hreturned.update (hkeep (hm.joined (.head _) hlife))
      (s.extends_note req.source ⟨res.changes, choices⟩)
      (fun c hc => hm.changes c (List.mem_append_left _ hc)) (s.mem_note _ _) hr
    exact (h.note hgood hjoined).1
  · exact h

/-- **A message arrives.** -/
theorem Inv.deliver (h : s.Inv pr) (hm : s.Proper pr m) : (s.deliver pr choices o m).Inv pr := by
  cases m with
  | joinRequest life target req => exact h.deliver_joinRequest hm
  | joinResponse life req res => exact h.deliver_joinResponse hm
  | ping life target req helped => exact h.deliver_ping hm
  | pingResponse life target req helped res => exact h.deliver_pingResponse hm
  | pingRequest life peer req => exact h.deliver_pingRequest hm
  | pingRequestResponse life req res => exact h.deliver_pingRequestResponse hm

/-- **A call fails.** -/
theorem Inv.fail (h : s.Inv pr) (hm : s.Proper pr m) : (s.fail pr choices o m).Inv pr := by
  cases m with
  | ping life target req helped =>
    cases helped with
    | none => exact h
    | some helped =>
      obtain ⟨life', req'⟩ := helped
      rw [Cluster.fail]
      split_ifs with hlife
      · obtain ⟨hreturned, hkeep⟩ := (h.node req.source).pingReturned target req true
        refine h.attempt _ fun r hr => ?_
        obtain ⟨out, n⟩ := r
        obtain ⟨hgood, hjoined, hchanges⟩ := hreturned.answerPingRequest
          (hkeep (hm.joined (.head _) hlife)) (.refl _) (fun r hr => by cases hr)
          (fun r hr => by cases hr) hr
        obtain ⟨hset, hmono⟩ := h.set ⟨hgood, fun _ => hjoined⟩
        have hm' := hmono _ hm
        exact hset.send ⟨List.forall_mem_append.2 ⟨hchanges, fun c hc =>
            hm'.changes c (List.mem_append_right _ hc)⟩,
          fun p hp => hm'.senders p (.tail _ hp), fun p hp => hm'.callers p (.tail _ hp)⟩
      · exact h
  | pingRequest life peer req =>
    rw [Cluster.fail]
    split_ifs
    · exact (h.set ((h.node req.source).pingRequestReturned req true)).1
    · exact h
  | joinRequest life target req => exact h
  | joinResponse life req res => exact h
  | pingResponse life target req helped res => exact h
  | pingRequestResponse life req res => exact h

/-! ### Actions -/

/-- A process that may send has joined. -/
theorem Inv.joined (h : s.Inv pr) (hx : s.joined x = true) : (s.node x).Joined pr := by
  refine (h.node x).state.resolve_left fun hf => ?_
  rw [Cluster.joined, hf.entry] at hx
  cases hx

/-- **A call of a process that has joined.** -/
theorem Inv.call (h : s.Inv pr) (hx : s.joined x)
    (hn : n.Good pr s.toLedger x ∧ ((s.node x).Joined pr → n.Joined pr))
    (hchanges : ∀ c ∈ m.changes, s.Authentic c.member)
    (hsenders : m.senders = [((s.node x).address, (s.node x).incarnation)])
    (hcallers : m.callers = [((s.node x).address, s.life x)]) : ((s.set x n).send m).Inv pr := by
  have hj := h.joined hx
  have hg := h.node x
  refine (h.set hn).1.send ⟨hchanges, ?_, ?_⟩
  · rw [hsenders, List.forall_mem_singleton]
    exact hg.sender hj
  · rw [hcallers, List.forall_mem_singleton]
    refine caller_self (s := s.set x n) ?_ hg.address
    rw [set_node_self]
    exact hn.2 hj

/-- **A new incarnation** is noted. -/
theorem Inv.reincarnate {now t : ℤ} (h : s.Inv pr) :
    (s.step pr (.reincarnate x now t choices)).Inv pr := by
  refine h.attempt _ fun r hr => ?_
  obtain ⟨applied, n⟩ := r
  have hl : s.Extends ⟨s.generated ++ [(x, now)], s.left⟩ :=
    ⟨fun _ hp => List.mem_append_left _ hp, fun _ hp => hp⟩
  obtain ⟨hgood, hjoined⟩ := (h.node x).reincarnate hl (List.mem_append_right _ (.head _)) hr
  exact And.left (h.progress hl rfl rfl rfl hgood fun _ => hjoined)

/-- **A leave** is noted. -/
theorem Inv.adminLeave {t : ℤ} (h : s.Inv pr) :
    (s.step pr (.adminLeave x t choices)).Inv pr := by
  refine h.attempt _ fun r hr => ?_
  obtain ⟨applied, n⟩ := r
  have hl : s.Extends ⟨s.generated, s.left ++ [(x, (s.node x).incarnation)]⟩ :=
    ⟨fun _ hp => hp, fun _ hp => List.mem_append_left _ hp⟩
  obtain ⟨hgood, hjoined⟩ := (h.node x).adminLeave hl (List.mem_append_right _ (.head _)) hr
  exact And.left (h.progress hl rfl rfl rfl hgood fun _ => hjoined)

/-- **A suspicion** copies the incarnation of an entry. -/
theorem Inv.suspect {t : ℤ} {target : String} (h : s.Inv pr) :
    (s.step pr (.suspect x t choices target)).Inv pr := by
  rw [Cluster.step]
  cases hentry : (s.node x).memberlist.entry target with
  | none => exact h
  | some member =>
    dsimp only
    split_ifs with hself
    · exact h
    refine h.attempt _ fun r hr => ?_
    obtain ⟨applied, n⟩ := r
    have hg := h.node x
    have hj : (s.node x).Joined pr := by
      refine hg.state.resolve_left fun hf => ?_
      rw [hf.entry] at hentry
      cases hentry
    have hgen := (hg.entry target member hentry).generated
    rw [hg.believes.sound.memberlist.address_eq hentry] at hgen
    obtain ⟨hgood, hjoined⟩ := hg.makeStatus hj (.refl _)
      (Ledger.authentic_copy hgen .suspect (by decide)) (fun heq => absurd heq hself) hr
    exact (h.set ⟨hgood, fun _ => hjoined⟩).1

/-- **One action.** -/
theorem Inv.step (h : s.Inv pr) (action : Action) : (s.step pr action).Inv pr := by
  cases action with
  | restart x => exact h.restart x
  | reincarnate x now t choices => exact h.reincarnate
  | ready x =>
    rw [Cluster.step]
    split_ifs with hx
    · obtain ⟨hgood, hready⟩ := (h.node x).setReady (h.joined hx)
      exact (h.set ⟨hgood, fun _ => hready⟩).1
    · exact h
  | sendJoin x target =>
    rw [Cluster.step]
    split_ifs with hx
    · have hj := h.joined hx
      have hg := h.node x
      exact h.send ⟨by simp [Message.changes], List.forall_mem_singleton.2 (hg.sender hj),
        List.forall_mem_singleton.2 (caller_self hj hg.address)⟩
    · exact h
  | sendPing x o target =>
    rw [Cluster.step]
    split_ifs with hx
    · have hg := h.node x
      exact h.call hx (hg.sendPing o target)
        (List.forall_mem_append.2 ⟨hg.issueChanges, by simp [Message.helpedChanges]⟩) rfl rfl
    · exact h
  | sendPingRequest x o peer target =>
    rw [Cluster.step]
    split_ifs with hx
    · exact h.call hx ((h.node x).sendPingRequest o target) (h.node x).issueChanges rfl rfl
    · exact h
  | deliver i choices o =>
    rw [Cluster.step]
    cases hm : s.network[i]? with
    | none => exact h
    | some m => exact h.deliver (h.network m (List.mem_of_getElem? hm))
  | fail i choices o =>
    rw [Cluster.step]
    cases hm : s.network[i]? with
    | none => exact h
    | some m => exact h.fail (h.network m (List.mem_of_getElem? hm))
  | suspect x t choices target => exact h.suspect
  | fire x t choices address =>
    refine h.attempt _ fun r hr => ?_
    obtain ⟨applied, n⟩ := r
    exact (h.set ((h.node x).fire hr)).1
  | adminLeave x t choices => exact h.adminLeave
  | shuffle x o => exact (h.set ((h.node x).shuffle o)).1

/-- **Every run** keeps the invariant. -/
theorem Inv.run (h : s.Inv pr) (actions : List Action) : (s.run pr actions).Inv pr := by
  induction actions generalizing s with
  | nil => exact h
  | cons action actions ih => exact ih (h.step action)

/-- **Incarnations are authentic**, in every run.  Each member in a member list, in a
disseminator or in a message has an incarnation that the process at its address
generated, and left only if that process was told to leave at this incarnation.  The
senders of messages give incarnations of their own. -/
theorem incarnations_authentic (pr : Primitives) (app : String → String) (actions : List Action) :
    (∀ x y member, (((new app).run pr actions).node x).memberlist.entry y = some member →
      member.address = y ∧ ((new app).run pr actions).Authentic member) ∧
    (∀ x y pc, (((new app).run pr actions).node x).disseminator.entry y = some pc →
      pc.address = y ∧ ((new app).run pr actions).Authentic pc.member) ∧
    ∀ m ∈ ((new app).run pr actions).network,
      (∀ c ∈ m.changes, ((new app).run pr actions).Authentic c.member) ∧
        ∀ p ∈ m.senders, p ∈ ((new app).run pr actions).generated := by
  have h := (inv_new pr app).run actions
  refine ⟨fun x y member hy => ?_, fun x y pc hpc => ?_, fun m hm => ?_⟩
  · exact ⟨(h.node x).believes.sound.memberlist.address_eq hy, (h.node x).entry y member hy⟩
  · exact ⟨Disseminator.address_of_entry hpc, (h.node x).pending hpc⟩
  · exact ⟨(h.network m hm).changes, (h.network m hm).senders⟩

end Cluster

end Swim
end Ringpop
