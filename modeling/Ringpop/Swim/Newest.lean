/-
# The owner is the newest

An incarnation is a reading of a clock.  Nothing in the protocol keeps a reading above the
incarnations that an address has used before: where a clock goes back, others know a newer
incarnation of a process than the process itself, and ignore what it says.  If no clock goes
back (`Cluster.Forward`), every copy of a member, in whatever list, disseminator or message,
is at most as new as the entry that the process at its address holds of itself
(`owner_is_newest`).

Where a copy is an incarnation that the process has generated (`Ledger.Authentic`), it is
enough that a process that has joined holds its newest one (`Cluster.Newest`).  A batch with
several accusations is refuted several times, each time at a reading of its own
(`View.le_own_of_foldlM`).
-/

import Ringpop.Swim.ClusterSteps

namespace Ringpop
namespace Swim

open CellStore Runs Reorder

theorem le_of_nonLocalOverride {m : Member} {c : Change}
    (h : m.nonLocalOverride c = .ok true) : m.incarnation ≤ c.incarnation := by
  by_contra hlt
  have hlt' : c.incarnation < m.incarnation := not_le.1 hlt
  rw [Member.nonLocalOverride, if_neg (not_lt.2 hlt'.le), if_pos hlt'] at h
  exact absurd (Except.ok.inj h) (by decide)

theorem le_of_not_nonLocalOverride {m : Member} {c : Change}
    (h : m.nonLocalOverride c = .ok false) : c.incarnation ≤ m.incarnation := by
  by_contra hlt
  rw [Member.nonLocalOverride, if_pos (not_le.1 hlt)] at h
  exact absurd (Except.ok.inj h) (by decide)

namespace View

variable {a : String} {choice : Choice} {own : Member} {c c' : Change} {changes : List Change}

/-- **What is applied to a known entry** is not older than the entry, or it is a
refutation. -/
theorem le_of_outcome (h : outcome a choice (some own) c = .ok (some c')) :
    c' = c ∧ own.incarnation ≤ c.incarnation ∨ c'.incarnation = choice.now := by
  simp only [outcome] at h
  split_ifs at h
  · exact .inr (congrArg Change.incarnation (Option.some.inj (Except.ok.inj h)).symm)
  · cases hover : own.nonLocalOverride c with
    | error e =>
      rw [hover] at h
      cases h
    | ok override =>
      rw [hover] at h
      cases override with
      | false => cases h
      | true =>
        exact .inl ⟨(Option.some.inj (Except.ok.inj h)).symm, le_of_nonLocalOverride hover⟩

/-- **The own entry after a batch** is at least as new as the one before and as everything
that was applied to it, if the changes about the node are not ahead of its clock and the
clock does not go back.  The induction is over the batch, with the place `k` from which it
is left. -/
theorem le_own_of_foldlM {choices : ℕ → Choice}
    (hmono : ∀ k l, k ≤ l → (choices k).now ≤ (choices l).now)
    (hchanges : ∀ c ∈ changes, c.address = a → ∀ k, c.incarnation ≤ (choices k).now)
    {k : ℕ} {s s' : View × List Change} (hown : s.1 a = some own)
    (hclock : ∀ l, k ≤ l → own.incarnation ≤ (choices l).now)
    (happlied : ∀ d ∈ s.2, d.address = a → d.incarnation ≤ own.incarnation)
    (hrun : (changes.zipIdx k).foldlM
      (fun s (ci : Change × ℕ) => step a s ci.1 (choices ci.2)) s = .ok s') :
    ∃ own', s'.1 a = some own' ∧ own.incarnation ≤ own'.incarnation ∧
      ∀ d ∈ s'.2, d.address = a → d.incarnation ≤ own'.incarnation := by
  induction changes generalizing k s own with
  | nil =>
    obtain rfl : s = s' := Except.ok.inj hrun
    exact ⟨own, hown, le_rfl, happlied⟩
  | cons c changes ih =>
    have hrest : ∀ c ∈ changes, c.address = a → ∀ k, c.incarnation ≤ (choices k).now :=
      fun c hc => hchanges c (.tail _ hc)
    rw [List.zipIdx_cons, List.foldlM_cons] at hrun
    obtain ⟨s₁, hstep, hleft⟩ := exists_of_bind_eq_ok hrun
    rcases step_cases hstep with heq | ⟨c', hout, haddr, -, heq⟩ <;> rw [heq] at hleft
    · exact ih hrest hown (fun l hl => hclock l (by omega)) happlied hleft
    by_cases hc : c.address = a
    · -- the entry of the node itself changes
      have hc' : c'.address = a := haddr.trans hc
      rw [hc, hown] at hout
      have hnew : own.incarnation ≤ c'.incarnation ∧
          ∀ l, k + 1 ≤ l → c'.incarnation ≤ (choices l).now := by
        rcases le_of_outcome hout with ⟨rfl, hle⟩ | hnow
        · exact ⟨hle, fun l _ => hchanges c' (.head _) hc l⟩
        · rw [hnow]
          exact ⟨hclock k le_rfl, fun l hl => hmono k l (by omega)⟩
      have hself : Function.update s.1 c'.address (some c'.member) a = some c'.member := by
        rw [hc']
        exact Function.update_self ..
      obtain ⟨own', hown', hle', happlied'⟩ := ih hrest hself hnew.2
        (fun d hd hda => by
          rcases List.mem_append.1 hd with hd | hd
          · exact (happlied d hd hda).trans hnew.1
          · rw [List.mem_singleton.1 hd]
            exact le_rfl) hleft
      exact ⟨own', hown', hnew.1.trans hle', happlied'⟩
    · have hc' : a ≠ c'.address := fun h => hc (haddr.symm.trans h.symm)
      refine ih hrest ((Function.update_of_ne hc' ..).trans hown)
        (fun l hl => hclock l (by omega)) (fun d hd hda => ?_) hleft
      rcases List.mem_append.1 hd with hd | hd
      · exact happlied d hd hda
      · rw [List.mem_singleton.1 hd] at hda
        exact absurd hda.symm hc'

/-- A change about the node itself that does not accuse it is compared with the entry. -/
theorem outcome_own (choice : Choice) (haddr : own.address = a) (haccuses : ¬ c.Accuses a)
    (hc : c.address = a) : outcome a choice (some own) c =
      (own.nonLocalOverride c).map fun override => if override then some c else none := by
  have hloc : own.localOverride a c = false := by
    rw [Member.localOverride, if_neg (not_not.2 haddr)]
    rw [Bool.or_eq_false_iff, decide_eq_false_iff_not, decide_eq_false_iff_not]
    exact ⟨fun hs => haccuses ⟨hc, .inr hs⟩, fun hs => haccuses ⟨hc, .inl hs⟩⟩
  simp only [outcome, hloc, Bool.false_eq_true, if_false]

/-- **One change about the node itself** that does not accuse it leaves an entry that is at
least as new as the change, and as the entry before. -/
theorem le_own_of_run_singleton {choices : ℕ → Choice} {V V' : View} {applied : List Change}
    (hc : c.address = a) (haccuses : ¬ c.Accuses a)
    (haddr : ∀ member, V a = some member → member.address = a)
    (hrun : run a choices V [c] = .ok (V', applied)) :
    ∃ own, V' a = some own ∧ c.incarnation ≤ own.incarnation ∧
      ∀ member, V a = some member → member.incarnation ≤ own.incarnation := by
  obtain ⟨s₁, hstep, hnil⟩ := exists_of_bind_eq_ok hrun
  obtain rfl : s₁ = (V', applied) := Except.ok.inj hnil
  have htaken : (take (V, []) (some c)).1 a = some c.member := by
    rw [← hc]
    exact Function.update_self ..
  simp only [step, hc] at hstep
  cases hV : V a with
  | none =>
    rw [hV] at hstep
    have heq := congrArg Prod.fst (Except.ok.inj hstep)
    exact ⟨c.member, (congrFun heq a).symm.trans htaken, le_rfl, by simp⟩
  | some member =>
    rw [hV, outcome_own _ (haddr member hV) haccuses hc] at hstep
    cases hover : member.nonLocalOverride c with
    | error e =>
      rw [hover] at hstep
      cases hstep
    | ok override =>
      rw [hover] at hstep
      have heq := congrArg Prod.fst (Except.ok.inj hstep)
      cases override with
      | false =>
        refine ⟨member, (congrFun heq a).symm.trans hV, le_of_not_nonLocalOverride hover, ?_⟩
        exact fun m hm => by rw [Option.some.inj hm]
      | true =>
        refine ⟨c.member, (congrFun heq a).symm.trans htaken, le_rfl, fun m hm => ?_⟩
        rw [← Option.some.inj hm]
        exact le_of_nonLocalOverride hover

end View

namespace Cluster

/-- No clock goes back: a reading for a new incarnation, or for a refutation, is not below an
incarnation that the address has used, and the readings of one `Update` do not go
down. -/
def Forward (s : Cluster) : Action → Prop
  | .reincarnate x now _ _ => ∀ p ∈ s.generated, p.1 = x → p.2 ≤ now
  | .deliver i choices _ => (∀ k l, k ≤ l → (choices k).now ≤ (choices l).now) ∧
      ∀ m ∈ s.network[i]?, ∀ p ∈ s.generated, p.1 = m.receiver → ∀ k, p.2 ≤ (choices k).now
  | _ => True

/-- A process that has joined holds the newest incarnation of its address. -/
def Newest (s : Cluster) : Prop :=
  ∀ x own, (s.node x).memberlist.entry x = some own → ∀ i, (x, i) ∈ s.generated →
    i ≤ own.incarnation

variable {pr : Primitives} {s s' : Cluster} {x : String} {a : Action} {choices : ℕ → Choice}
  {changes applied : List Change} {own : Member}

/-- What an action that is no `Reincarnate` generates was applied. -/
theorem Moves.generated_cases (h : s.Moves a x choices changes applied s')
    (ha : ∀ now t choices, a ≠ .reincarnate x now t choices) {y : String} {i : ℤ}
    (hi : (y, i) ∈ s'.generated) :
    (y, i) ∈ s.generated ∨ y = x ∧ ∃ c ∈ applied, c ∉ changes ∧ i = c.incarnation := by
  rcases (h.generated _).1 hi with hi | ⟨now, t, choices, heq, -⟩ | ⟨c, hc, hmem, heq⟩
  · exact .inl hi
  · exact absurd heq (ha _ _ _)
  · obtain ⟨rfl, rfl⟩ := Prod.mk.inj heq
    exact .inr ⟨rfl, c, hc, hmem, rfl⟩

/-- The process takes only changes about others, and states nothing new. -/
theorem Inv.newest_other (h : s.Inv pr) (hs : s.Newest)
    (hmoves : s.Moves a x choices changes applied s')
    (ha : ∀ now t choices, a ≠ .reincarnate x now t choices)
    (hchanges : ∀ c ∈ changes, c.address ≠ x)
    (hown : (s'.node x).memberlist.entry x = some own) :
    ∀ i, (x, i) ∈ s'.generated → i ≤ own.incarnation := by
  have hg := h.node x
  have hrun := hmoves.moves.run hg.stopped
  rw [hg.address] at hrun
  intro i hi
  rcases hmoves.generated_cases ha hi with hi | ⟨-, c, hc, hmem, -⟩
  · exact hs x own ((View.run_of_address_ne hrun hchanges).1.symm.trans hown) i hi
  · -- a refutation would answer a change about the process itself
    have horigin := View.run_origin (fun y member => hg.believes.sound.memberlist.address_eq) hrun
      c hc
    obtain ⟨⟨d, hd, haccuses, -⟩, -⟩ := horigin.resolve_left hmem
    exact absurd haccuses (hchanges d hd)

/-- The process takes changes that are not ahead of its clock. -/
theorem Inv.newest_own (h : s.Inv pr) (hs : s.Newest)
    (hmoves : s.Moves a x choices changes applied s')
    (ha : ∀ now t choices, a ≠ .reincarnate x now t choices) (hjoined : s.joined x = true)
    (hmono : ∀ k l, k ≤ l → (choices k).now ≤ (choices l).now)
    (hclock : ∀ j, (x, j) ∈ s.generated → ∀ k, j ≤ (choices k).now)
    (hchanges : ∀ c ∈ changes, c.address = x → (x, c.incarnation) ∈ s.generated)
    (hown : (s'.node x).memberlist.entry x = some own) :
    ∀ i, (x, i) ∈ s'.generated → i ≤ own.incarnation := by
  have hg := h.node x
  have hrun := hmoves.moves.run hg.stopped
  rw [hg.address] at hrun
  obtain ⟨before, hbefore⟩ := Option.isSome_iff_exists.1 hjoined
  have hgen : (x, before.incarnation) ∈ s.generated := by
    have hauth := (hg.entry x before hbefore).generated
    rwa [hg.believes.sound.memberlist.address_eq hbefore] at hauth
  obtain ⟨own', hown', hle, happlied⟩ := View.le_own_of_foldlM (k := 0) hmono
    (fun c hc hcx k => hclock _ (hchanges c hc hcx) k) hbefore (fun l _ => hclock _ hgen l)
    (by simp) hrun
  obtain rfl : own' = own := Option.some.inj (hown'.symm.trans hown)
  intro i hi
  rcases hmoves.generated_cases ha hi with hi | ⟨-, c, hc, hmem, rfl⟩
  · exact (hs x before hbefore i hi).trans hle
  · have horigin := View.run_origin (fun y member => hg.believes.sound.memberlist.address_eq) hrun
      c hc
    exact happlied c hc (horigin.resolve_left hmem).2.1

/-- **A process states something about itself**: its entry is at least as new, and at least as
new as before, and nothing else is generated. -/
theorem Inv.moves_single (h : s.Inv pr) {c : Change}
    (hmoves : s.Moves a x choices [c] applied s') (hc : c.address = x)
    (haccuses : ¬ c.Accuses x) (hown : (s'.node x).memberlist.entry x = some own) :
    c.incarnation ≤ own.incarnation ∧
      (∀ member, (s.node x).memberlist.entry x = some member →
        member.incarnation ≤ own.incarnation) ∧ ∀ d ∈ applied, d ∈ [c] := by
  have hg := h.node x
  have hrun := hmoves.moves.run hg.stopped
  rw [hg.address] at hrun
  obtain ⟨own', hown', hle, hbefore⟩ := View.le_own_of_run_singleton hc haccuses
    (fun member hm => hg.believes.sound.memberlist.address_eq hm) hrun
  obtain rfl : own' = own := Option.some.inj (hown'.symm.trans hown)
  refine ⟨hle, hbefore, fun d hd => ?_⟩
  have horigin := View.run_origin (fun y member => hg.believes.sound.memberlist.address_eq) hrun
    d hd
  refine horigin.resolve_right ?_
  rintro ⟨⟨e, he, hacc⟩, -⟩
  obtain rfl := List.mem_singleton.1 he
  exact haccuses hacc

/-- **The process that moves** holds its newest incarnation afterwards. -/
theorem Inv.newest_moves (h : s.Inv pr) (hs : s.Newest) (ha : s.Forward a)
    (hmoves : s.Moves a x choices changes applied s')
    (hown : (s'.node x).memberlist.entry x = some own) :
    ∀ i, (x, i) ∈ s'.generated → i ≤ own.incarnation := by
  cases hmoves.offers with
  | nothing hne => exact h.newest_other hs hmoves (fun now t c => hne x now t c) (by simp) hown
  | reincarnate now t choices j =>
    obtain ⟨hle, -, happlied⟩ := h.moves_single hmoves rfl (by simp [Change.Accuses]; decide) hown
    intro i hi
    rcases (hmoves.generated _).1 hi with hi | ⟨now', t', choices', heq, hp⟩ | ⟨d, hd, hmem, -⟩
    · exact (ha _ hi rfl).trans hle
    · obtain ⟨-, rfl, -, -⟩ := Action.reincarnate.inj heq
      obtain ⟨-, rfl⟩ := Prod.mk.inj hp
      exact hle
    · exact absurd (happlied d hd) hmem
  | news hm hx hjoined choices o =>
    refine h.newest_own hs hmoves (by simp) hjoined ha.1 (fun j hj => ?_) (fun c hc hcx => ?_) hown
    · exact ha.2 _ hm _ hj hx.symm
    · rw [← hcx]
      exact ((h.network _ (List.mem_of_getElem? hm)).changes c
        (Message.news_subset _ hc)).generated
  | suspect hentry hne t choices i =>
    exact h.newest_other hs hmoves (by simp) (List.forall_mem_singleton.2 hne) hown
  | fire htimer t choices j =>
    exact h.newest_other hs hmoves (by simp)
      (List.forall_mem_singleton.2 ((h.node x).timer _ _ htimer).1) hown
  | leave hjoined t choices j =>
    obtain ⟨-, hbefore, happlied⟩ := h.moves_single hmoves rfl (by simp [Change.Accuses]; decide)
      hown
    obtain ⟨before, hentry⟩ := Option.isSome_iff_exists.1 hjoined
    intro i hi
    rcases hmoves.generated_cases (by simp) hi with hi | ⟨-, d, hd, hmem, -⟩
    · exact (hs x before hentry i hi).trans (hbefore before hentry)
    · exact absurd (happlied d hd) hmem

/-- **One action** with clocks that do not go back. -/
theorem Inv.newest_step (h : s.Inv pr) (hs : s.Newest) (ha : s.Forward a) :
    (s.step pr a).Newest := by
  rcases h.step_cases a with hsame | ⟨z, hrestart, -⟩ | ⟨z, choices, changes, applied, hmoves⟩
  · rw [hsame]
    exact hs
  · rw [hrestart]
    intro x own hown i hi
    by_cases hx : x = z
    · -- a new process has no entry
      subst hx
      have hnode : (s.restart x).node x = .new (s.app x) x := Function.update_self ..
      rw [hnode] at hown
      cases hown
    · have hnode : (s.restart z).node x = s.node x := Function.update_of_ne hx ..
      rw [hnode] at hown
      exact hs x own hown i hi
  · intro x own hown i hi
    by_cases hx : x = z
    · subst hx
      exact h.newest_moves hs ha hmoves hown i hi
    · rw [hmoves.node, Function.update_of_ne hx] at hown
      refine hs x own hown i ?_
      rcases (hmoves.generated _).1 hi with hi | ⟨now, t, choices', -, hp⟩ | ⟨c, -, -, hp⟩
      · exact hi
      · exact absurd (Prod.mk.inj hp).1 hx
      · exact absurd (Prod.mk.inj hp).1 hx

/-- **Every run** with clocks that do not go back. -/
theorem newest_run (pr : Primitives) (app : String → String) (actions : List Action)
    (hforward : ∀ pre a post, actions = pre ++ a :: post → ((new app).run pr pre).Forward a) :
    ((new app).run pr actions).Newest := by
  induction actions using List.reverseRecOn with
  | nil =>
    intro x own hown
    cases hown
  | append_singleton actions a ih =>
    have hpre := ih fun pre b post heq => hforward pre b (post ++ [a]) (by simp [heq])
    rw [run, List.foldl_append]
    exact ((inv_new pr app).run actions).newest_step hpre (hforward actions a [] rfl)

/-- **The owner is the newest.**  In every run in which no clock goes back: what a process that
has joined holds of itself is at least as new as every other copy, in the member list or
the disseminator of any process, or in any message that was ever sent. -/
theorem owner_is_newest (pr : Primitives) (app : String → String) (actions : List Action)
    (hforward : ∀ pre a post, actions = pre ++ a :: post → ((new app).run pr pre).Forward a)
    (x : String) (own : Member)
    (hown : (((new app).run pr actions).node x).memberlist.entry x = some own) :
    (∀ y member, (((new app).run pr actions).node y).memberlist.entry x = some member →
      member.incarnation ≤ own.incarnation) ∧
    (∀ y pc, (((new app).run pr actions).node y).disseminator.entry x = some pc →
      pc.incarnation ≤ own.incarnation) ∧
    ∀ m ∈ ((new app).run pr actions).network, ∀ c ∈ m.changes, c.address = x →
      c.incarnation ≤ own.incarnation := by
  have h := (inv_new pr app).run actions
  have hs := newest_run pr app actions hforward x own hown
  generalize (new app).run pr actions = s at h hs hown
  have hentry (y : String) (member : Member)
      (hm : (s.node y).memberlist.entry x = some member) :
      member.incarnation ≤ own.incarnation := by
    refine hs _ ?_
    rw [← (h.node y).believes.sound.memberlist.address_eq hm]
    exact ((h.node y).entry x member hm).generated
  refine ⟨hentry, fun y pc hpc => hentry y _ ((h.node y).believes.entry x pc hpc), ?_⟩
  rintro m hm c hc rfl
  exact hs _ ((h.network m hm).changes c hc).generated

/-- A node is suspected, refutes that at a later reading of its clock, and tells the other
one. -/
theorem owner_is_newest_refuted : ∃ s : Cluster,
    (s.node "a").memberlist.entry "a" = some ⟨"a", alive, 7⟩ ∧
    (s.node "b").memberlist.entry "a" = some ⟨"a", suspect, 1⟩ ∧
    ∀ y member, (s.node y).memberlist.entry "a" = some member → member.incarnation ≤ 7 := by
  refine ⟨(new fun _ => "app").run ⟨fun _ => 0, id⟩
      [.reincarnate "a" 1 1 fun _ => ⟨1, 0⟩, .reincarnate "b" 2 2 fun _ => ⟨2, 0⟩, .ready "a",
        .ready "b", .sendPing "a" .asIs "b", .deliver 0 (fun _ => ⟨3, 0⟩) .asIs,
        .suspect "b" 4 (fun _ => ⟨4, 0⟩) "a", .sendPing "b" .asIs "a",
        .deliver 2 (fun _ => ⟨7, 0⟩) .asIs],
    by decide +kernel, by decide +kernel, ?_⟩
  refine (owner_is_newest _ _ _ ?_ "a" ⟨"a", alive, 7⟩ (by decide +kernel)).1
  simp only [forall_split_cons]
  refine ⟨by rw [Forward]; decide +kernel, by rw [Forward]; decide +kernel, trivial, trivial,
    trivial, ⟨fun _ _ _ => le_rfl, ?_⟩,
    trivial, trivial, ⟨fun _ _ _ => le_rfl, ?_⟩, by simp⟩
  · have hle : ∀ p ∈ ((new fun _ => "app").run ⟨fun _ => 0, id⟩
        [.reincarnate "a" 1 1 fun _ => ⟨1, 0⟩, .reincarnate "b" 2 2 fun _ => ⟨2, 0⟩, .ready "a",
          .ready "b", .sendPing "a" .asIs "b"]).generated, p.2 ≤ 3 := by decide +kernel
    exact fun m _ p hp _ _ => hle p hp
  · have hle : ∀ p ∈ ((new fun _ => "app").run ⟨fun _ => 0, id⟩
        [.reincarnate "a" 1 1 fun _ => ⟨1, 0⟩, .reincarnate "b" 2 2 fun _ => ⟨2, 0⟩, .ready "a",
          .ready "b", .sendPing "a" .asIs "b", .deliver 0 (fun _ => ⟨3, 0⟩) .asIs,
          .suspect "b" 4 (fun _ => ⟨4, 0⟩) "a", .sendPing "b" .asIs "a"]).generated,
        p.2 ≤ 7 := by decide +kernel
    exact fun m _ p hp _ _ => hle p hp

end Cluster

end Swim
end Ringpop
