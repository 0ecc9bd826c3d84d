/-
# The stages of a member

What a node holds of one other member, together with its suspicion timer, while nothing newer
of the member is heard: it is alive and has no timer, then suspect with its timer running,
then faulty or gone (`Stage`).  It only goes on, with whatever changes arrive
(`Node.Hears.stage`), and when the timer goes off the member is gone
(`Node.Detecting.fire_failing`).
-/

import Ringpop.Swim.Iterator
import Ringpop.Swim.Timers

namespace Ringpop
namespace Swim

open CellStore Runs Reorder

/-! ### A member at one incarnation -/

/-- A member is being given up: it is suspect and its timer is running, or it is faulty, or it
has left. -/
inductive Failing (x : String) (i : ℤ) : Option Member → Option Timer → Prop where
  | suspect : Failing x i (some ⟨x, Swim.suspect, i⟩) (some ⟨i, false⟩)
  | gone (status : String) (t : Option Timer) (h : status = faulty ∨ status = leave) :
      Failing x i (some ⟨x, status, i⟩) t

/-- A member that stays at its incarnation is alive and has no timer, or is being given up. -/
def Stage (x : String) (i : ℤ) (e : Option Member) (t : Option Timer) : Prop :=
  (e = some ⟨x, alive, i⟩ ∧ t = none) ∨ Failing x i e t

section stage

variable {x a : String} {i : ℤ} {e : Option Member} {t : Option Timer} {c c' : Change}
  {choice : Choice} {susp : Suspicion}

/-- What is held of the member. -/
theorem Stage.exists_member (h : Stage x i e t) :
    ∃ s : Status, e = some ⟨x, s.name, i⟩ ∧ (s = .alive → t = none) := by
  rcases h with ⟨rfl, rfl⟩ | h
  · exact ⟨.alive, rfl, fun _ => rfl⟩
  · cases h with
    | suspect => exact ⟨.suspect, rfl, fun h => by cases h⟩
    | gone status t h =>
      rcases h with rfl | rfl
      · exact ⟨.faulty, rfl, fun h => by cases h⟩
      · exact ⟨.leave, rfl, fun h => by cases h⟩

/-- What is taken of a change about another member is the change, where it overrides. -/
theorem lt_of_outcome {m : Member} (hx : m.address ≠ a)
    (hm : ValidStatus m.status) (hc : ValidStatus c.status)
    (h : View.outcome a choice (some m) c = .ok (some c')) :
    c' = c ∧ m.rank < c.rank := by
  have hlocal : m.localOverride a c = false := by
    rw [Member.localOverride, if_pos hx]
  rw [View.outcome, hlocal, nonLocalOverride_eq hm hc] at h
  by_cases hlt : m.rank < c.rank
  · rw [decide_eq_true hlt] at h
    exact ⟨(Option.some.inj (Except.ok.inj h)).symm, hlt⟩
  · rw [decide_eq_false hlt] at h
    cases Except.ok.inj h

/-- **A change that is taken**, of no larger incarnation, gives the member up. -/
theorem Stage.failing (h : Stage x i e (susp.timers x)) (hx : x ≠ a)
    (henabled : susp.enabled = true) (haddress : c.address = x) (hc : ValidStatus c.status)
    (hi : c.incarnation ≤ i) (hout : View.outcome a choice e c = .ok (some c')) :
    c' = c ∧ Failing x i (some c.member) ((susp.track a c).timers x) := by
  obtain ⟨s, rfl, hnone⟩ := h.exists_member
  obtain ⟨s', hs'⟩ := hc.exists_name
  obtain ⟨rfl, hlt⟩ := lt_of_outcome (m := ⟨x, s.name, i⟩) hx (validStatus_name s) hc hout
  refine ⟨rfl, ?_⟩
  have hmember : c'.member = ⟨x, s'.name, c'.incarnation⟩ := by
    rw [Change.member, haddress, hs']
  rw [Member.rank, Change.rank, hs', rankOf_name, rankOf_name, WithBot.coe_lt_coe,
    Rank.lt_iff] at hlt
  obtain ⟨hinc, hstatus⟩ := hlt.resolve_left hi.not_gt
  change i = c'.incarnation at hinc
  rw [hmember, ← hinc]
  rw [Status.lt_iff_precedence] at hstatus
  cases s' with
  | alive => exact absurd hstatus (Nat.not_lt_zero _)
  | suspect =>
    -- only an alive member can become suspect, and it has no timer
    have halive : s = .alive := Status.precedence_injective (Nat.lt_one_iff.1 hstatus)
    have htimer : (susp.track a c').timers c'.address = some ⟨c'.incarnation, false⟩ :=
      Suspicion.track_timers_of_suspect hs' henabled (by rwa [haddress])
        (by rw [haddress]; exact hnone halive)
    rw [← haddress, htimer, ← hinc]
    exact .suspect
  | faulty => exact .gone faulty _ (.inl rfl)
  | leave => exact .gone leave _ (.inr rfl)

/-- A member that is held suspect at least is being given up. -/
theorem Stage.failing_of_rank_le {V : View} {s : Status} (h : Stage x i (V x) t) (hs : s ≠ .alive)
    (hle : rankOf i s.name ≤ V.rank x) : Failing x i (V x) t := by
  refine h.resolve_left fun halive => hs ?_
  rw [View.rank, halive.1] at hle
  have hle : rankOf i s.name ≤ rankOf i Status.alive.name := hle
  rw [rankOf_name, rankOf_name, WithBot.coe_le_coe, ← not_lt, Rank.lt_iff] at hle
  have hprecedence : ¬ Status.alive < s := fun hlt => hle (.inr ⟨rfl, hlt⟩)
  rw [Status.lt_iff_precedence, not_lt] at hprecedence
  exact Status.precedence_injective (Nat.le_zero.1 hprecedence)

end stage

theorem Suspicion.after_enabled (susp : Suspicion) (a : String) (applied : List Change) :
    (susp.after a applied).enabled = susp.enabled := by
  induction applied generalizing susp with
  | nil => rfl
  | cons c applied ih => exact (ih (susp.track a c)).trans (track_enabled a susp c)

namespace Node

variable {pr : Primitives} {n n' n₁ : Node} {choices : ℕ → Choice} {changes applied : List Change}
  {x : String} {i : ℤ}

/-- **Changes of no larger incarnation** keep the stage of a member, and what they take gives it
up. -/
theorem Effect.stage {Q : Option Member → Option Timer → Prop}
    (hQ : ∀ e t, Failing x i e t → Q e t) (hstage : ∀ e t, Q e t → Stage x i e t)
    (he : n.Effect choices changes applied n') (hx : x ≠ n.address)
    (henabled : n.suspicion.enabled = true) (hvalid : ∀ c ∈ changes, ValidStatus c.status)
    (hold : ∀ c ∈ changes, c.address = x → c.incarnation ≤ i)
    (h : Q (n.memberlist.entry x) (n.suspicion.timers x)) :
    Q (n'.memberlist.entry x) (n'.suspicion.timers x) := by
  rw [he.suspicion]
  refine View.run_invariant (I := fun s => Q (s.1 x) ((n.suspicion.after n.address s.2).timers x))
    h he.run fun s c k c' hc hs hout => ?_
  have hc : c ∈ changes := by
    split_ifs at hc
    · cases hc
    · exact hc
  have hafter : n.suspicion.after n.address (View.take s (some c')).2 =
      (n.suspicion.after n.address s.2).track n.address c' := by
    rw [View.take, Suspicion.after, List.foldl_append]
    rfl
  rw [hafter]
  by_cases hcx : c.address = x
  · rw [hcx] at hout
    obtain ⟨rfl, hfailing⟩ := (hstage _ _ hs).failing hx
      ((Suspicion.after_enabled _ _ _).trans henabled) hcx (hvalid c hc) (hold c hc hcx) hout
    have hentry : (View.take s (some c')).1 x = some c'.member := by
      rw [View.take, ← hcx]
      exact Function.update_self _ _ _
    rw [hentry]
    exact hQ _ _ hfailing
  · have haddress : c'.address ≠ x := (View.outcome_cases hout).1.trans_ne hcx
    have hentry : (View.take s (some c')).1 x = s.1 x := Function.update_of_ne haddress.symm _ _
    rw [hentry, Suspicion.track_timers_of_ne haddress.symm]
    exact hs

/-- **Changes that do not accuse a member** leave it alive. -/
theorem Effect.stays_alive (he : n.Effect choices changes applied n') (hx : x ≠ n.address)
    (hvalid : ∀ c ∈ changes, ValidStatus c.status)
    (halive : ∀ c ∈ changes, c.address = x → c.status = alive)
    (h : ∃ j, n.memberlist.entry x = some ⟨x, alive, j⟩ ∧ i ≤ j) :
    ∃ j, n'.memberlist.entry x = some ⟨x, alive, j⟩ ∧ i ≤ j := by
  refine View.run_invariant (I := fun s => ∃ j, s.1 x = some ⟨x, alive, j⟩ ∧ i ≤ j) h he.run
    fun s c k c' hc hs hout => ?_
  have hc : c ∈ changes := by
    split_ifs at hc
    · cases hc
    · exact hc
  by_cases hcx : c.address = x
  · obtain ⟨j, hj, hij⟩ := hs
    rw [hcx, hj] at hout
    have hstatus := halive c hc hcx
    obtain ⟨rfl, hlt⟩ := lt_of_outcome (m := ⟨x, alive, j⟩) hx (validStatus_name .alive)
      (hvalid c hc) hout
    have hlt : rankOf j Status.alive.name < rankOf c'.incarnation c'.status := hlt
    rw [show c'.status = Status.alive.name from hstatus, rankOf_name, rankOf_name,
      WithBot.coe_lt_coe, Rank.lt_iff] at hlt
    refine ⟨c'.incarnation, ?_, hij.trans (hlt.resolve_right fun h => lt_irrefl _ h.2).le⟩
    rw [View.take, ← hcx, ← hstatus]
    exact Function.update_self _ _ _
  · have haddress : c'.address ≠ x := (View.outcome_cases hout).1.trans_ne hcx
    obtain ⟨j, hj, hij⟩ := hs
    exact ⟨j, (Function.update_of_ne haddress.symm _ _).trans hj, hij⟩

/-! ### Nodes that run -/

/-- A node that runs: calls with valid statuses do not stop it, and its timers are switched on
and those of suspects. -/
structure Detecting (n : Node) : Prop extends Live n where
  running : n.stopped = false
  enabled : n.suspicion.enabled = true
  tidy : n.suspicion.Tidy n.address n.memberlist.entry

/-- Whatever valid changes are given to the member list, the node goes on. -/
theorem Effect.live (he : n.Effect choices changes applied n') (hn : n.Live)
    (hvalid : ∀ c ∈ changes, ValidStatus c.status) : n'.Live := by
  have hgiven : ∀ c ∈ (if n.stopped then [] else changes), ValidStatus c.status := by
    intro c hc
    split_ifs at hc
    · cases hc
    · exact hvalid c hc
  obtain ⟨s, hrun, hs, -⟩ := View.rank_run (hn.sound.memberlist.view hn.valid) n.address choices
    hgiven
  rw [he.run] at hrun
  obtain rfl := Except.ok.inj hrun
  exact ⟨he.sound, he.hasLocal hn.hasLocal, hs.valid⟩

theorem Effect.detecting (he : n.Effect choices changes applied n') (hn : n.Detecting)
    (hvalid : ∀ c ∈ changes, ValidStatus c.status) : n'.Detecting where
  toLive := he.live hn.toLive hvalid
  running := he.stopped.trans hn.running
  enabled := by
    rw [he.suspicion]
    exact (Suspicion.after_enabled _ _ _).trans hn.enabled
  tidy := he.tidy hn.tidy hvalid

/-- A node that disseminates is as it was, otherwise. -/
theorem Detecting.only (hn : n.Detecting) (h : n.OnlyDisseminates n') : n'.Detecting where
  toLive := hn.toLive.congr h.memberlist h.address
  running := h.stopped.trans hn.running
  enabled := by
    rw [h.suspicion]
    exact hn.enabled
  tidy := by
    rw [h.suspicion, h.address, h.memberlist]
    exact hn.tidy

/-- With a local member, the functions that make a change of one status are an `Update`. -/
theorem exists_update_of_makeStatus {status address : String} {t incarnation : ℤ} (hn : n.Live)
    (h : n.makeStatus status pr t choices address incarnation = .ok (applied, n')) :
    ∃ source sourceIncarnation, (n.emit [.makeNodeStatus status]).update pr
      ⟨[⟨source, sourceIncarnation, address, incarnation, status⟩], choices⟩ =
        .ok (applied, n') := by
  obtain ⟨q, hq⟩ := Option.isSome_iff_exists.1 hn.hasLocal
  have hensure : (n.emit [.makeNodeStatus status]).memberlist.ensureLocal n.address t =
      n.memberlist := by
    rw [Memberlist.ensureLocal, show (n.emit [.makeNodeStatus status]).memberlist.localMember =
      some q from hq]
    rfl
  rw [makeStatus, makeChange] at h
  obtain ⟨localMember, -, h⟩ := exists_of_bind_eq_ok h
  refine ⟨localMember.address, localMember.incarnation, ?_⟩
  rw [show (n.emit [.makeNodeStatus status]).address = n.address from rfl, hensure] at h
  exact h

/-- `n'` is the node `n` after `Update`s with changes that meet `P`, and with changes sent. -/
inductive Hears (pr : Primitives) (P : Change → Prop) (n : Node) : Node → Prop where
  | refl : Hears pr P n n
  | only {n₁ n₂ : Node} (h : Hears pr P n n₁) (hn : n₁.OnlyDisseminates n₂) : Hears pr P n n₂
  | update {n₁ n₂ : Node} {b : Batch} {applied : List Change} (h : Hears pr P n n₁)
      (hb : ∀ c ∈ b.changes, P c) (hup : n₁.update pr b = .ok (applied, n₂)) : Hears pr P n n₂

variable {P : Change → Prop}

theorem Hears.trans {n₂ : Node} (h : Hears pr P n n₁) (h' : Hears pr P n₁ n₂) :
    Hears pr P n n₂ := by
  induction h' with
  | refl => exact h
  | only _ hn ih => exact ih.only hn
  | update _ hb hup ih => exact ih.update hb hup

/-- **A node that hears valid changes** goes on, and loses no member. -/
theorem Hears.detecting (h : Hears pr P n n') (hn : n.Detecting)
    (hP : ∀ c, P c → ValidStatus c.status) :
    n'.Detecting ∧ n'.address = n.address ∧ n.memberlist.list.Sublist n'.memberlist.list ∧
      ∀ x p, n.memberlist.byAddress x = some p → n'.memberlist.byAddress x = some p := by
  induction h with
  | refl => exact ⟨hn, rfl, .refl _, fun x p => id⟩
  | only _ ho ih =>
    obtain ⟨hn₁, ha, hsub, hby⟩ := ih
    rw [ho.memberlist, ho.address]
    exact ⟨hn₁.only ho, ha, hsub, hby⟩
  | update _ hb hup ih =>
    obtain ⟨hn₁, ha, hsub, hby⟩ := ih
    have he := effect_update hn₁.sound hup
    exact ⟨he.detecting hn₁ fun c hc => hP c (hb c hc), he.address.trans ha,
      hsub.trans (list_sublist_of_update hup), fun x p hp => byAddress_of_update (hby x p hp) hup⟩

/-- **What every such change keeps.** -/
theorem Hears.keeps {I : Node → Prop} (h : Hears pr P n n') (hn : n.Detecting) (hI : I n)
    (hP : ∀ c, P c → ValidStatus c.status)
    (honly : ∀ n n', n.OnlyDisseminates n' → I n → I n')
    (heffect : ∀ n n' choices changes applied, n.Detecting → (∀ c ∈ changes, P c) →
      n.Effect choices changes applied n' → I n → I n') : I n' := by
  induction h with
  | refl => exact hI
  | only _ ho ih => exact honly _ _ ho ih
  | update h₁ hb hup ih =>
    have hn₁ := (h₁.detecting hn hP).1
    exact heffect _ _ _ _ _ hn₁ hb (effect_update hn₁.sound hup) ih

/-- **Hearing changes of no larger incarnation** keeps the stage of a member. -/
theorem Hears.stage {Q : Option Member → Option Timer → Prop}
    (hQ : ∀ e t, Failing x i e t → Q e t) (hstage : ∀ e t, Q e t → Stage x i e t)
    (h : Hears pr P n n') (hn : n.Detecting) (hx : x ≠ n.address)
    (hP : ∀ c, P c → ValidStatus c.status) (hold : ∀ c, P c → c.address = x → c.incarnation ≤ i)
    (hq : Q (n.memberlist.entry x) (n.suspicion.timers x)) :
    Q (n'.memberlist.entry x) (n'.suspicion.timers x) := by
  refine (h.keeps (I := fun n => x ≠ n.address ∧ Q (n.memberlist.entry x) (n.suspicion.timers x))
    hn ⟨hx, hq⟩ hP (fun n n' ho hI => ?_) fun n n' choices changes applied hn hb he hI => ?_).2
  · rw [ho.address, ho.memberlist, ho.suspicion]
    exact hI
  · rw [he.address]
    exact ⟨hI.1, he.stage hQ hstage hI.1 hn.enabled (fun c hc => hP c (hb c hc))
      (fun c hc => hold c (hb c hc)) hI.2⟩

/-- **Hearing nothing bad** about a member leaves it alive. -/
theorem Hears.stays_alive (h : Hears pr P n n') (hn : n.Detecting) (hx : x ≠ n.address)
    (hP : ∀ c, P c → ValidStatus c.status) (halive : ∀ c, P c → c.address = x → c.status = alive)
    (hentry : ∃ j, n.memberlist.entry x = some ⟨x, alive, j⟩ ∧ i ≤ j) :
    ∃ j, n'.memberlist.entry x = some ⟨x, alive, j⟩ ∧ i ≤ j := by
  refine (h.keeps (I := fun n => x ≠ n.address ∧
      ∃ j, n.memberlist.entry x = some ⟨x, alive, j⟩ ∧ i ≤ j)
    hn ⟨hx, hentry⟩ hP (fun n n' ho hI => ?_) fun n n' choices changes applied hn hb he hI => ?_).2
  · rw [ho.address, ho.memberlist]
    exact hI
  · rw [he.address]
    exact ⟨hI.1, he.stays_alive hI.1 (fun c hc => hP c (hb c hc))
      (fun c hc => halive c (hb c hc)) hI.2⟩

/-- **A change that the node makes** itself. -/
theorem Detecting.makeStatus {status address : String} {t incarnation : ℤ} (hn : n.Detecting)
    (hstatus : ValidStatus status)
    (h : n.makeStatus status pr t choices address incarnation = .ok (applied, n')) :
    (∃ sourceIncarnation, n.Effect choices
      [⟨n.address, sourceIncarnation, address, incarnation, status⟩] applied n') ∧
    n'.Detecting ∧ n.memberlist.list.Sublist n'.memberlist.list ∧
      ∀ y q, n.memberlist.byAddress y = some q → n'.memberlist.byAddress y = some q := by
  obtain ⟨source, sourceIncarnation, hup⟩ := exists_update_of_makeStatus hn.toLive h
  have honly : n.OnlyDisseminates (n.emit [.makeNodeStatus status]) :=
    ⟨rfl, rfl, rfl, rfl, rfl, rfl⟩
  have hhears : Hears pr (fun c => c.status = status) n n' :=
    .update (.only .refl honly) (fun c hc => by rw [List.mem_singleton.1 hc]) hup
  obtain ⟨hn', -, hsub, hby⟩ := hhears.detecting hn fun c hc => by rwa [hc]
  exact ⟨(effect_makeStatus hn.sound h).2, hn', hsub, hby⟩

/-- **What is held after one change** is the larger of the entry and the change. -/
theorem Effect.rank_eq {c : Change} (he : n.Effect choices [c] applied n') (hn : n.Detecting)
    (hc : ValidStatus c.status) (hx : c.address ≠ n.address) :
    View.rank n'.memberlist.entry c.address =
      View.rank n.memberlist.entry c.address ⊔ c.rank := by
  have hrun := he.run
  rw [hn.running, if_neg (by decide)] at hrun
  obtain ⟨s, hs, -, hrank⟩ := View.rank_run (hn.sound.memberlist.view hn.valid) n.address choices
    fun c' (hc' : c' ∈ [c]) => by rwa [List.mem_singleton.1 hc']
  rw [hrun] at hs
  obtain rfl := Except.ok.inj hs
  rw [hrank _ hx]
  simp [Change.rankFor]

/-- A timer that goes off is the start of a `MakeFaulty`. -/
theorem fire_cases {t : ℤ} {y : String} (h : n.fire pr t choices y = .ok (applied, n')) :
    n' = n ∨ ∃ j, n.suspicion.timers y = some ⟨j, false⟩ ∧
      makeFaulty pr { n with suspicion := n.suspicion.fire y } t choices y j =
        .ok (applied, n') := by
  rw [fire] at h
  split at h
  · rename_i j hj
    exact .inr ⟨j, hj, h⟩
  · exact .inl (Prod.mk.inj (Except.ok.inj h)).2.symm

theorem Detecting.fired (hn : n.Detecting) (y : String) :
    Detecting { n with suspicion := n.suspicion.fire y } :=
  ⟨hn.toLive.congr rfl rfl, hn.running, hn.enabled, hn.tidy.fire y⟩

/-- **A timer that goes off** keeps the node running, and loses no member. -/
theorem Detecting.fire {t : ℤ} {y : String} (hn : n.Detecting)
    (h : n.fire pr t choices y = .ok (applied, n')) :
    n'.Detecting ∧ n'.address = n.address ∧ n.memberlist.list.Sublist n'.memberlist.list ∧
      ∀ x p, n.memberlist.byAddress x = some p → n'.memberlist.byAddress x = some p := by
  rcases fire_cases h with rfl | ⟨j, -, hmake⟩
  · exact ⟨hn, rfl, .refl _, fun x p => id⟩
  · obtain ⟨⟨k, he⟩, hn', hsub, hby⟩ := (hn.fired y).makeStatus (validStatus_name .faulty) hmake
    exact ⟨hn', he.address, hsub, hby⟩

/-- The timer of a member that is not suspect does nothing. -/
theorem Detecting.timers_eq_none {member : Member} (hn : n.Detecting)
    (hentry : n.memberlist.entry x = some member) (hne : member.status ≠ suspect) :
    n.suspicion.timers x = none := by
  refine Option.eq_none_iff_forall_ne_some.2 fun t ht => hne ?_
  obtain ⟨-, member', hentry', hsuspect⟩ := hn.tidy.ofSuspect x t ht
  obtain rfl := Option.some.inj (hentry.symm.trans hentry')
  exact hsuspect

/-- **The timer of a member that is being given up**: after it has gone off, the member is
gone. -/
theorem Detecting.fire_failing {t : ℤ} (hn : n.Detecting) (hx : x ≠ n.address)
    (hfailing : Failing x i (n.memberlist.entry x) (n.suspicion.timers x))
    (h : n.fire pr t choices x = .ok (applied, n')) :
    ∃ status, n'.memberlist.entry x = some ⟨x, status, i⟩ ∧
      (status = faulty ∨ status = leave) := by
  generalize hentry : n.memberlist.entry x = e at hfailing
  generalize htimer : n.suspicion.timers x = timer at hfailing
  cases hfailing with
  | suspect =>
    rw [Node.fire, htimer] at h
    obtain ⟨⟨k, he⟩, hn', -⟩ := (hn.fired x).makeStatus (validStatus_name .faulty) h
    have hrank : View.rank n'.memberlist.entry x =
        View.rank n.memberlist.entry x ⊔ rankOf i Status.faulty.name :=
      he.rank_eq (hn.fired x) (validStatus_name .faulty) hx
    have hle : View.rank n.memberlist.entry x ≤ rankOf i Status.faulty.name := by
      rw [View.rank, hentry]
      have hlt : (⟨i, .suspect⟩ : Rank) < ⟨i, .faulty⟩ :=
        Rank.lt_iff.2 (.inr ⟨rfl, show Status.suspect < .faulty by decide⟩)
      exact WithBot.coe_le_coe.2 hlt.le
    rw [sup_eq_right.2 hle, rankOf_name] at hrank
    refine ⟨faulty, ?_, .inl rfl⟩
    rw [(hn'.sound.memberlist.view hn'.valid).eq_memberOf x, hrank]
    rfl
  | gone status t hstatus =>
    have hne : status ≠ suspect := by rcases hstatus with rfl | rfl <;> decide
    have hnone := hn.timers_eq_none hentry hne
    rcases fire_cases h with rfl | ⟨j, hj, -⟩
    · exact ⟨status, hentry, hstatus⟩
    · rw [hnone] at hj
      cases hj

/-- **A timer that goes off** keeps the stage of a member. -/
theorem Detecting.fire_stage {Q : Option Member → Option Timer → Prop} {t : ℤ} {y : String}
    (hQ : ∀ e t, Failing x i e t → Q e t) (hstage : ∀ e t, Q e t → Stage x i e t)
    (hn : n.Detecting) (hx : x ≠ n.address) (h : n.fire pr t choices y = .ok (applied, n'))
    (hq : Q (n.memberlist.entry x) (n.suspicion.timers x)) :
    Q (n'.memberlist.entry x) (n'.suspicion.timers x) := by
  by_cases hyx : y = x
  · subst hyx
    rcases hstage _ _ hq with halive | hfailing
    · -- there is no timer
      rcases fire_cases h with rfl | ⟨j, hj, -⟩
      · exact hq
      · rw [halive.2] at hj
        cases hj
    · obtain ⟨status, hentry, hstatus⟩ := hn.fire_failing hx hfailing h
      rw [hentry]
      exact hQ _ _ (.gone status _ hstatus)
  · rcases fire_cases h with rfl | ⟨j, -, hmake⟩
    · exact hq
    · obtain ⟨⟨source, he⟩, -⟩ := (hn.fired y).makeStatus (validStatus_name .faulty) hmake
      refine he.stage hQ hstage hx hn.enabled (fun c hc => ?_) (fun c hc hcx => ?_) ?_
      · rw [List.mem_singleton.1 hc]
        exact validStatus_name .faulty
      · rw [List.mem_singleton.1 hc] at hcx
        exact absurd hcx hyx
      · have htimers : (n.suspicion.fire y).timers x = n.suspicion.timers x :=
          Function.update_of_ne (Ne.symm hyx) _ _
        rw [show ({ n with suspicion := n.suspicion.fire y } : Node).suspicion.timers x =
          n.suspicion.timers x from htimers]
        exact hq

end Node

end Swim
end Ringpop
