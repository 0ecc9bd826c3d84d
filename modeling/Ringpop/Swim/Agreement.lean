/-
# Gossip brings nodes to agree

Take a set of nodes that are ready and do not suspect each other, in any state that a cluster
can reach.  From then on they gossip among themselves (`Cluster.Gossips`): pings, ping
requests and joins are sent at any time, messages arrive late, several times, out of order or
not at all, calls fail, and nodes outside the set are suspected and declared faulty.  If each
node of the set pings each other one again and again, and both messages arrive, there is a
time from which on all of them hold the same members (`gossip_agrees`).

As long as nobody in the set is accused, what a node holds about any address, itself
included, is the largest of what it held and of what it was told (`View.rank_run_of_calm`),
and there are finitely many ranks to go to, so the views come to rest; nothing is recorded
any more, and what is still pending is sent until it is dropped (`Node.remaining`).  A ping
between two nodes is then answered with a full sync or finds the same checksum.
-/

import Ringpop.Collections.AntiEntropy
import Ringpop.Swim.ClusterSteps
import Ringpop.Swim.Convergence
import Mathlib.Algebra.Order.BigOperators.Group.Finset

namespace Ringpop
namespace Swim

open CellStore Runs Reorder

/-! ### Changes that do not accuse the node -/

/-- A change that does not accuse the node is not refuted. -/
theorem localOverride_eq_false {a : String} {member : Member} {c : Change}
    (haddr : member.address = c.address) (haccuses : ¬ c.Accuses a) :
    member.localOverride a c = false := by
  rw [Member.localOverride, haddr]
  split_ifs with hne
  · rfl
  · rw [Bool.or_eq_false_iff, decide_eq_false_iff_not, decide_eq_false_iff_not]
    exact ⟨fun hs => haccuses ⟨not_not.1 hne, .inr hs⟩, fun hs => haccuses ⟨not_not.1 hne, .inl hs⟩⟩

namespace View

/-- Sound views with the same ranks are the same. -/
theorem Sound.eq_of_rank_eq {V V' : View} (hV : V.Sound) (hV' : V'.Sound)
    (h : V.rank = V'.rank) : V = V' := by
  funext y
  rw [hV.eq_memberOf, hV'.eq_memberOf, h]

variable {a : String} {choice : Choice} {choices : ℕ → Choice} {V V' : View} {c c' : Change}
  {changes applied : List Change}

/-- It does not matter which node takes a change that accuses neither. -/
theorem Sound.outcome_congr {a' : String} (hV : V.Sound) (h : ¬ c.Accuses a)
    (h' : ¬ c.Accuses a') :
    outcome a choice (V c.address) c = outcome a' choice (V c.address) c := by
  cases hm : V c.address with
  | none => rfl
  | some member =>
    have haddr := hV.address_eq _ _ hm
    simp only [outcome, localOverride_eq_false haddr h, localOverride_eq_false haddr h']

/-- **What is applied of a change** that does not accuse the node is the change itself, and it
is above the entry. -/
theorem Sound.lt_of_outcome (hV : V.Sound) (hc : ValidStatus c.status) (haccuses : ¬ c.Accuses a)
    (hout : outcome a choice (V c.address) c = .ok (some c')) :
    c' = c ∧ V.rank c.address < c.rank := by
  cases hm : V c.address with
  | none =>
    rw [hm] at hout
    refine ⟨(Option.some.inj (Except.ok.inj hout)).symm, ?_⟩
    obtain ⟨t, ht⟩ := hc.exists_name
    rw [rank, hm, Change.rank, ht, rankOf_name]
    exact WithBot.bot_lt_coe _
  | some member =>
    rw [hm, hV.outcome_eq hc hm, localOverride_eq_false (hV.address_eq _ _ hm) haccuses] at hout
    have hout' := Except.ok.inj hout
    rw [if_neg Bool.false_ne_true] at hout'
    split_ifs at hout' with hlt
    · rw [rank, hm]
      exact ⟨(Option.some.inj hout').symm, hlt⟩

/-- **One change** that does not accuse the node leaves the larger of the entry and the change,
for every address. -/
theorem rank_step_of_calm {s' : View × List Change} (hV : V.Sound) (hc : ValidStatus c.status)
    (haccuses : ¬ c.Accuses a) (hs' : step a (V, applied) c choice = .ok s') (x : String) :
    s'.1.rank x = V.rank x ⊔ c.rankFor x := by
  -- a node that is neither of the two would do the same
  obtain ⟨a', ha'⟩ := Infinite.exists_notMem_finset {x, c.address}
  rw [Finset.mem_insert, Finset.mem_singleton, not_or] at ha'
  rw [step, hV.outcome_congr haccuses fun h => ha'.2 h.1.symm] at hs'
  exact rank_step hV hc hs' (Ne.symm ha'.1)

/-- **A batch of changes** that do not accuse the node leaves the largest of the entry and the
changes, for every address. -/
theorem rank_run_of_calm (hV : V.Sound) (hchanges : ∀ c ∈ changes, ValidStatus c.status)
    (haccuses : ∀ c ∈ changes, ¬ c.Accuses a)
    (hrun : run a choices V changes = .ok (V', applied)) :
    V'.Sound ∧ ∀ x, V'.rank x = V.rank x ⊔ changes.toFinset.sup (Change.rankFor x) := by
  obtain ⟨s', hrun', hs', hrank⟩ := foldlM_refines (l := changes.zipIdx) (s := (V, []))
    (f := fun s ci => step a s ci.1 (choices ci.2))
    (R := fun s r => s.1.Sound ∧ ∀ x, s.1.rank x = r x)
    (g := fun r ci x => r x ⊔ ci.1.rankFor x) (t := V.rank)
    (by
      rintro ⟨W, applied⟩ r ci hci ⟨hW, hr⟩
      have hmem := List.fst_mem_of_mem_zipIdx hci
      obtain ⟨s', hs', hsound⟩ := hW.step a (choices ci.2) applied (hchanges _ hmem)
      exact ⟨s', hs', hsound, fun x => by
        rw [rank_step_of_calm hW (hchanges _ hmem) (haccuses _ hmem) hs', hr]⟩)
    ⟨hV, fun x => rfl⟩
  obtain rfl : s' = (V', applied) := Except.ok.inj (hrun'.symm.trans hrun)
  refine ⟨hs', fun x => ?_⟩
  rw [hrank x, foldl_sup, List.zipIdx_map_fst]

/-- **A batch that changes no entry** has applied nothing. -/
theorem applied_eq_nil_of_calm (hV : V.Sound) (hchanges : ∀ c ∈ changes, ValidStatus c.status)
    (haccuses : ∀ c ∈ changes, ¬ c.Accuses a)
    (hrun : run a choices V changes = .ok (V, applied)) : applied = [] := by
  -- whatever is applied is above what was there at first
  have hrises := run_invariant (I := fun s => s.1.Sound ∧ (∀ x, V.rank x ≤ s.1.rank x) ∧
    ∀ c ∈ s.2, V.rank c.address < s.1.rank c.address) ⟨hV, fun _ => le_rfl, by simp⟩ hrun
    (by
      rintro s c i c' hc ⟨hs, hle, hlt⟩ hout
      obtain ⟨rfl, hrank⟩ := hs.lt_of_outcome (hchanges c hc) (haccuses c hc) hout
      have hstep (x : String) : s.1.rank x ≤ (take s (some c')).1.rank x ∧
          (x = c'.address → (take s (some c')).1.rank x = c'.rank) := by
        by_cases hx : x = c'.address
        · subst hx
          have heq : (take s (some c')).1.rank c'.address = c'.rank := by simp [take, rank]
          exact ⟨heq ▸ hrank.le, fun _ => heq⟩
        · refine ⟨le_of_eq ?_, fun h => absurd h hx⟩
          simp [take, rank, hx]
      refine ⟨hs.take (hchanges _ hc), fun x => (hle x).trans (hstep x).1, fun d hd => ?_⟩
      rcases List.mem_append.1 hd with hd | hd
      · exact (hlt d hd).trans_le (hstep _).1
      · rw [List.mem_singleton.1 hd, (hstep _).2 rfl]
        exact (hle _).trans_lt hrank)
  refine List.eq_nil_iff_forall_not_mem.2 fun c hc => ?_
  exact absurd (hrises.2.2 c hc) (lt_irrefl _)

end View

/-! ### What is still to be sent -/

namespace Node

/-- How often a pending change may still be sent, and one more for the change itself. -/
def weight (maxP : ℕ) : Option PChange → ℕ
  | none => 0
  | some pc => maxP - pc.p + 1

/-- What is still to be sent about the addresses of `T`. -/
def remaining (T : Finset String) (n : Node) : ℕ :=
  ∑ y ∈ T, weight n.disseminator.maxP (n.disseminator.entry y)

variable {pr : Primitives} {l : Ledger} {x : String} {n n' n₁ n₂ : Node} {choices : ℕ → Choice}
  {changes applied kept : List Change} {o : Arrangement Change} {T : Finset String}

/-- As long as nothing is recorded, it does not get more. -/
theorem Rests.weight_le (h : n.Rests n') (y : String) :
    weight n'.disseminator.maxP (n'.disseminator.entry y) ≤
      weight n.disseminator.maxP (n.disseminator.entry y) := by
  cases hpc : n'.disseminator.entry y with
  | none => exact Nat.zero_le _
  | some pc =>
    obtain ⟨pc₀, hpc₀, -, hle⟩ := h.pending y pc hpc
    rw [hpc₀, h.maxP]
    simp only [weight]
    omega

theorem Rests.remaining_le (h : n.Rests n') (T : Finset String) :
    n'.remaining T ≤ n.remaining T :=
  Finset.sum_le_sum fun y _ => h.weight_le y

theorem Moves.remaining_le (h : n.Moves choices changes [] n') (T : Finset String) :
    n'.remaining T ≤ n.remaining T := by
  obtain ⟨n₁, n₂, h₁, h₂, h₃⟩ := h
  have hidle : n₂.remaining T = n₁.remaining T := by rw [remaining, h₂.idle rfl, remaining]
  exact (h₃.remaining_le T).trans (hidle.le.trans (h₁.remaining_le T))

/-- **A response with pending changes** leaves less to be sent. -/
theorem Issues.remaining_lt {source : String} {incarnation : ℤ} {checksum : UInt32} {full : Bool}
    (h : n.Issues o source incarnation checksum kept changes full n') (hkept : kept ≠ [])
    (hT : ∀ y pc, n.disseminator.entry y = some pc → y ∈ T) :
    n'.remaining T < n.remaining T := by
  obtain ⟨c, hc⟩ := List.exists_mem_of_ne_nil kept hkept
  obtain ⟨⟨pc, hpc, -⟩, -⟩ := h.mem_kept.1 hc
  refine Finset.sum_lt_sum (fun y _ => h.rests.weight_le y) ⟨c.address, hT _ pc hpc, ?_⟩
  rw [h.disseminator, Disseminator.entry_bumpPiggybackCounters h.nodup_kept,
    if_pos (List.mem_map_of_mem hc), hpc, Disseminator.maxP_bumpPiggybackCounters,
    Option.bind_some, Disseminator.raise]
  split_ifs
  · simp only [weight]
    omega
  · simp only [weight]
    omega

/-- **A ping that changes nothing any more**: the node sends all that it holds, or has the checksum
of the sender. -/
theorem Good.handlePing_at_rest {req : Ping} (h : n.Good pr l x) (hready : n.ready = true)
    (hreq : ∀ c ∈ req.changes, l.Authentic c.member)
    (haccuses : ∀ c ∈ req.changes, ¬ c.Accuses x)
    (hT : ∀ y pc, n.disseminator.entry y = some pc → y ∈ T) (choices : ℕ → Choice)
    (o : Arrangement Change) :
    ∃ res n', n.handlePing pr choices o req = .ok (.ok res, n') ∧
      (n'.memberlist.entry = n.memberlist.entry → n'.remaining T = n.remaining T →
        n.memberlist.checksum = req.checksum ∨ ∀ y member, n.memberlist.entry y = some member →
          ∃ c ∈ res.changes, c.member = member) := by
  obtain ⟨hemit, hkeep⟩ := h.emit [.pingReceive n.address req.source req.changes]
  obtain ⟨applied, n₁, hup, htakes, -⟩ := hemit.exists_update
    (b := ⟨req.changes, choices⟩) (hkeep (h.ready hready)) hreq
  obtain ⟨kept, changes, full, n', hping, hi⟩ := handlePing_spec (o := o) hready hup
  refine ⟨_, n', hping, fun hentry hremaining => ?_⟩
  -- nothing was applied,
  have hmoves : n.Moves choices req.changes applied n' :=
    htakes.moves (rests_emit _ (by simp [NodeEvent.applied])) hi.rests
  have hrun := hmoves.run h.stopped
  rw [h.address, hentry] at hrun
  obtain rfl : applied = [] := View.applied_eq_nil_of_calm
    (h.believes.sound.memberlist.view fun y member hy => (h.entry y member hy).valid)
    (fun c hc => (hreq c hc).valid) haccuses hrun
  obtain ⟨st, hst, hnil, hm⟩ := exists_of_update (n := n.emit _) h.stopped hup
  have hm₁ : n₁.memberlist = n.memberlist := by
    rw [hm, if_pos rfl]
    exact Memberlist.eq_of_applyChanges hst hnil.symm
  -- and nothing that was pending is sent
  have hidle : n₁.disseminator = n.disseminator := htakes.idle rfl
  have hkept : kept = [] := by
    by_contra hne
    have hlt := hi.remaining_lt hne fun y pc hpc => hT y pc (by rw [← hidle]; exact hpc)
    have heq : n₁.remaining T = n.remaining T := by rw [remaining, hidle, remaining]
    omega
  rcases hi.changes with ⟨-, -, hne | hsum⟩ | ⟨-, rfl, -⟩
  · exact absurd hkept hne
  · rw [hm₁] at hsum
    exact .inl hsum
  · refine .inr fun y member hy => mem_fullSync_of_entry (x := y) htakes.sound ?_
    rw [hm₁]
    exact hy

end Node

/-! ### Gossip among the nodes of a set -/

namespace Cluster

variable {pr : Primitives} {S : Finset String} {A : Member → Prop} {k : ℕ} {s s' t : Cluster}
  {a : Action} {x : String} {m : Message} {choices : ℕ → Choice} {changes applied : List Change}

/-- A node of the set does something, or a message that is not among the first `k` arrives at a
node of the set, or such a call fails.  Nobody restarts, reincarnates or leaves, and only
others are suspected. -/
def Gossips (S : Finset String) (k : ℕ) (s : Cluster) : Action → Prop
  | .ready x => x ∈ S
  | .sendJoin x _ => x ∈ S
  | .sendPing x _ _ => x ∈ S
  | .sendPingRequest x _ _ _ => x ∈ S
  | .deliver i _ _ => k ≤ i ∧ ∀ m ∈ s.network[i]?, m.receiver ∈ S
  | .fail i _ _ => k ≤ i
  | .suspect x _ _ target => x ∈ S ∧ target ∉ S
  | .fire x _ _ address => x ∈ S ∧ address ∉ S
  | .shuffle x _ => x ∈ S
  | .restart _ => False
  | .reincarnate _ _ _ _ => False
  | .adminLeave _ _ _ => False

instance (S : Finset String) (k : ℕ) (s : Cluster) : DecidablePred (s.Gossips S k)
  | .ready x => inferInstanceAs (Decidable (x ∈ S))
  | .sendJoin x _ => inferInstanceAs (Decidable (x ∈ S))
  | .sendPing x _ _ => inferInstanceAs (Decidable (x ∈ S))
  | .sendPingRequest x _ _ _ => inferInstanceAs (Decidable (x ∈ S))
  | .deliver i _ _ => inferInstanceAs (Decidable (k ≤ i ∧ ∀ m ∈ s.network[i]?, m.receiver ∈ S))
  | .fail i _ _ => inferInstanceAs (Decidable (k ≤ i))
  | .suspect x _ _ target => inferInstanceAs (Decidable (x ∈ S ∧ target ∉ S))
  | .fire x _ _ address => inferInstanceAs (Decidable (x ∈ S ∧ address ∉ S))
  | .shuffle x _ => inferInstanceAs (Decidable (x ∈ S))
  | .restart _ => inferInstanceAs (Decidable False)
  | .reincarnate _ _ _ _ => inferInstanceAs (Decidable False)
  | .adminLeave _ _ _ => inferInstanceAs (Decidable False)

/-- The nodes of the set are ready.  What they hold about each other, and what messages say
about them, is `A`; and only they wait for answers.  Of the messages all but the first `k`
count. -/
structure Calm (pr : Primitives) (S : Finset String) (A : Member → Prop) (k : ℕ) (s : Cluster) :
    Prop where
  inv : s.Inv pr
  ready : ∀ x ∈ S, (s.node x).ready = true
  entry : ∀ x ∈ S, ∀ y ∈ S, ∀ member, (s.node x).memberlist.entry y = some member → A member
  callers : ∀ i m, k ≤ i → s.network[i]? = some m → ∀ p ∈ m.callers, p.1 ∈ S
  changes : ∀ i m, k ≤ i → s.network[i]? = some m → ∀ c ∈ m.changes, c.address ∈ S → A c.member

/-- What the nodes of the set hold goes up; while it stays, there is less to be sent about the
addresses of `T`.  No process ends, and nothing is generated. -/
structure Advances (S T : Finset String) (s s' : Cluster) : Prop where
  life : s'.life = s.life
  generated : ∀ p, p ∈ s'.generated ↔ p ∈ s.generated
  network : s.network <+: s'.network
  rank : ∀ x ∈ S, View.rank (s.node x).memberlist.entry ≤ View.rank (s'.node x).memberlist.entry
  remaining : ∀ x ∈ S, (s'.node x).memberlist.entry = (s.node x).memberlist.entry →
    (s'.node x).remaining T ≤ (s.node x).remaining T

theorem Advances.refl (S T : Finset String) (s : Cluster) : s.Advances S T s :=
  ⟨rfl, fun _ => .rfl, List.prefix_rfl, fun _ _ => le_rfl, fun _ _ _ => le_rfl⟩

theorem Inv.sound (h : s.Inv pr) (x : String) : View.Sound (s.node x).memberlist.entry :=
  (h.node x).believes.sound.memberlist.view fun y member hy => ((h.node x).entry y member hy).valid

/-- The process that acts is one of the set. -/
theorem Calm.mem_of_actor (h : s.Calm pr S A k) (ha : s.Gossips S k a)
    (hx : s.actor a = some x) : x ∈ S := by
  cases a with
  | deliver i choices o =>
    obtain ⟨m, hm, rfl⟩ := Option.map_eq_some_iff.1 hx
    exact ha.2 m hm
  | fail i choices o =>
    obtain ⟨m, hm, rfl⟩ := Option.map_eq_some_iff.1 hx
    have hcaller : ∃ life, (m.caller, life) ∈ m.callers := by cases m <;> exact ⟨_, .head _⟩
    obtain ⟨life, hlife⟩ := hcaller
    exact h.callers i m ha hm _ hlife
  | ready y => exact Option.some.inj hx ▸ ha
  | sendJoin y target => exact Option.some.inj hx ▸ ha
  | sendPing y o target => exact Option.some.inj hx ▸ ha
  | sendPingRequest y o peer target => exact Option.some.inj hx ▸ ha
  | suspect y t choices target => exact Option.some.inj hx ▸ ha.1
  | fire y t choices address => exact Option.some.inj hx ▸ ha.1
  | shuffle y o => exact Option.some.inj hx ▸ ha
  | restart y => exact ha.elim
  | reincarnate y now t choices => exact ha.elim
  | adminLeave y t choices => exact ha.elim

/-- The message that an action is about is one of those that count. -/
theorem Gossips.exists_message (ha : s.Gossips S k a) (hm : m ∈ s.message a) :
    ∃ i, k ≤ i ∧ s.network[i]? = some m := by
  cases a with
  | deliver i choices o => exact ⟨i, ha.1, hm⟩
  | fail i choices o => exact ⟨i, ha, hm⟩
  | _ => cases hm

/-- What a node of the set is offered about the set is `A`. -/
theorem Calm.offers (h : s.Calm pr S A k) (ha : s.Gossips S k a)
    (hoffers : s.Offers x a choices changes) : ∀ c ∈ changes, c.address ∈ S → A c.member := by
  cases hoffers with
  | nothing => simp
  | reincarnate now t choices i => exact ha.elim
  | news hm hx hjoined choices o =>
    exact fun c hc => h.changes _ _ ha.1 hm c (Message.news_subset _ hc)
  | suspect hentry hne t choices i =>
    exact List.forall_mem_singleton.2 fun hmem => absurd hmem ha.2
  | fire htimer t choices j => exact List.forall_mem_singleton.2 fun hmem => absurd hmem ha.2
  | leave hjoined t choices i => exact ha.elim

/-- What a move makes of the view. -/
theorem Calm.view_run (h : s.Calm pr S A k) (hmoves : s.Moves a x choices changes applied s') :
    View.Sound (s.node x).memberlist.entry ∧
      View.run x choices (s.node x).memberlist.entry changes =
        .ok ((s'.node x).memberlist.entry, applied) := by
  have hrun := hmoves.moves.run (h.inv.node x).stopped
  rw [(h.inv.node x).address] at hrun
  exact ⟨h.inv.sound x, hrun⟩

section moves

variable (h : s.Calm pr S A k)
  (hA : ∀ member, A member → member.status = alive ∨ member.status = leave)
  (ha : s.Gossips S k a) (hmoves : s.Moves a x choices changes applied s')

include h hA ha hmoves

/-- The node that moves is not accused, -/
theorem Calm.not_accuses : ∀ c ∈ changes, ¬ c.Accuses x := by
  rintro c hc ⟨rfl, hstatus⟩
  have hx := h.mem_of_actor ha hmoves.actor
  rcases hA _ (h.offers ha hmoves.offers c hc hx) with hs | hs <;> rcases hstatus with ht | ht <;>
    exact absurd (hs.symm.trans ht) (by decide)

/-- so it refutes nothing. -/
theorem Calm.mem_of_applied : ∀ c ∈ applied, c ∈ changes := by
  intro c hc
  obtain ⟨hview, hrun⟩ := h.view_run hmoves
  refine (View.run_origin hview.address_eq hrun c hc).resolve_right ?_
  rintro ⟨⟨d, hd, hacc⟩, -⟩
  exact h.not_accuses hA ha hmoves d hd hacc

/-- What it holds about the set is `A` afterwards. -/
theorem Calm.entry_moves (hinv : s'.Inv pr) {y : String} (hy : y ∈ S) {member : Member}
    (hm : (s'.node x).memberlist.entry y = some member) : A member := by
  rcases View.run_entry (h.view_run hmoves).2 y member hm with hold | ⟨c, hc, rfl⟩
  · exact h.entry x (h.mem_of_actor ha hmoves.actor) y hy member hold
  · have haddr : c.address = y := (hinv.node x).believes.sound.memberlist.address_eq hm
    refine h.offers ha hmoves.offers c (h.mem_of_applied hA ha hmoves c hc) ?_
    rw [haddr]
    exact hy

/-- **A move** keeps the set calm. -/
theorem Calm.of_moves (hinv : s'.Inv pr) : s'.Calm pr S A k := by
  have hx : x ∈ S := h.mem_of_actor ha hmoves.actor
  have hother (y : String) (hy : y ≠ x) : s'.node y = s.node y := by
    rw [hmoves.node, Function.update_of_ne hy]
  obtain ⟨sent, hnetwork, hsent⟩ := hmoves.network
  -- a message of those that count was there, or was sent now
  have hcases (i : ℕ) (m : Message) (hm : s'.network[i]? = some m) :
      s.network[i]? = some m ∨ s.Sends a x (s'.node x) m := by
    rw [hnetwork] at hm
    rcases lt_or_ge i s.network.length with hlt | hge
    · exact .inl (by rwa [List.getElem?_append_left hlt] at hm)
    · rw [List.getElem?_append_right hge] at hm
      exact .inr (hsent m (List.mem_of_getElem? hm))
  refine ⟨hinv, fun y hy => ?_, fun y hy z hz member hm => ?_, fun i m hi hm p hp => ?_,
    fun i m hi hm c hc hcS => ?_⟩
  · by_cases hyx : y = x
    · subst hyx
      exact hmoves.moves.ready (h.ready y hy)
    · rw [hother y hyx]
      exact h.ready y hy
  · by_cases hyx : y = x
    · subst hyx
      exact h.entry_moves hA ha hmoves hinv hz hm
    · rw [hother y hyx] at hm
      exact h.entry y hy z hz member hm
  · rcases hcases i m hm with hold | hnew
    · exact h.callers i m hi hold p hp
    · rcases hnew.callers p hp with rfl | ⟨m₀, hm₀, hp⟩
      · exact hx
      · obtain ⟨j, hj, hmj⟩ := ha.exists_message hm₀
        exact h.callers j m₀ hj hmj p hp
  · rcases hcases i m hm with hold | hnew
    · exact h.changes i m hi hold c hc hcS
    · rcases hnew.changes c hc with hknown | ⟨m₀, hm₀, hc⟩
      · exact h.entry_moves hA ha hmoves hinv hcS hknown
      · obtain ⟨j, hj, hmj⟩ := ha.exists_message hm₀
        exact h.changes j m₀ hj hmj c hc hcS

/-- **A move** advances the set. -/
theorem Calm.advances_of_moves (T : Finset String) : s.Advances S T s' := by
  obtain ⟨hview, hrun⟩ := h.view_run hmoves
  have hvalid := h.inv.valid_of_offers hmoves.offers
  have haccuses := h.not_accuses hA ha hmoves
  have hother (y : String) (hy : y ≠ x) : s'.node y = s.node y := by
    rw [hmoves.node, Function.update_of_ne hy]
  obtain ⟨sent, hnetwork, -⟩ := hmoves.network
  refine ⟨hmoves.life, fun p => ⟨fun hp => ?_, fun hp => (hmoves.generated p).2 (.inl hp)⟩,
    hnetwork ▸ List.prefix_append _ _, fun y hy => ?_, fun y hy heq => ?_⟩
  · rcases (hmoves.generated p).1 hp with hp | ⟨now, t, choices, rfl, -⟩ | ⟨c, hc, hmem, -⟩
    · exact hp
    · exact ha.elim
    · exact absurd (h.mem_of_applied hA ha hmoves c hc) hmem
  · by_cases hyx : y = x
    · subst hyx
      intro z
      rw [(View.rank_run_of_calm hview hvalid haccuses hrun).2 z]
      exact le_sup_left
    · rw [hother y hyx]
  · by_cases hyx : y = x
    · subst hyx
      rw [heq] at hrun
      obtain rfl := View.applied_eq_nil_of_calm hview hvalid haccuses hrun
      exact hmoves.moves.remaining_le T
    · rw [hother y hyx]

end moves

/-- **One action** of the gossip. -/
theorem Calm.step (h : s.Calm pr S A k)
    (hA : ∀ member, A member → member.status = alive ∨ member.status = leave)
    (ha : s.Gossips S k a) (T : Finset String) :
    (s.step pr a).Calm pr S A k ∧ s.Advances S T (s.step pr a) := by
  rcases h.inv.step_cases a with hsame | ⟨z, -, hrestart⟩ | ⟨x, choices, changes, applied, hmoves⟩
  · rw [hsame]
    exact ⟨h, .refl S T s⟩
  · rcases hrestart with rfl | ⟨t, choices, rfl, -⟩ <;> exact ha.elim
  · exact ⟨h.of_moves hA ha hmoves (h.inv.step a), h.advances_of_moves hA ha hmoves T⟩

/-! ### A schedule -/

/-- The states of a run that goes on for ever. -/
def follow (pr : Primitives) (s : Cluster) (sched : ℕ → Action) : ℕ → Cluster
  | 0 => s
  | n + 1 => (follow pr s sched n).step pr (sched n)

/-- At some time from `n` on, `x` sends a ping to `y`, and later it arrives, and later the
response. -/
def Pings (pr : Primitives) (s : Cluster) (sched : ℕ → Action) (x y : String) (n : ℕ) : Prop :=
  ∃ n₁ n₂ n₃, n ≤ n₁ ∧ n₁ < n₂ ∧ n₂ < n₃ ∧ (∃ o, sched n₁ = .sendPing x o y) ∧
    (∃ choices o, sched n₂ = .deliver (s.follow pr sched n₁).network.length choices o) ∧
    ∃ choices o, sched n₃ = .deliver (s.follow pr sched n₂).network.length choices o

section schedule

variable {sched : ℕ → Action} (h : s.Calm pr S A k)
  (hA : ∀ member, A member → member.status = alive ∨ member.status = leave)
  (hsched : ∀ n, (s.follow pr sched n).Gossips S k (sched n))

include h hA hsched

theorem Calm.follow (n : ℕ) : (s.follow pr sched n).Calm pr S A k := by
  induction n with
  | zero => exact h
  | succ n ih => exact (ih.step hA (hsched n) ∅).1

theorem Calm.advances (T : Finset String) (n : ℕ) :
    (s.follow pr sched n).Advances S T (s.follow pr sched (n + 1)) :=
  ((h.follow hA hsched n).step hA (hsched n) T).2

theorem Calm.life_follow (n : ℕ) : (s.follow pr sched n).life = s.life := by
  induction n with
  | zero => rfl
  | succ n ih => rw [(h.advances hA hsched ∅ n).life, ih]

theorem Calm.mem_generated (n : ℕ) (p : String × ℤ) :
    p ∈ (s.follow pr sched n).generated ↔ p ∈ s.generated := by
  induction n with
  | zero => exact .rfl
  | succ n ih => exact ((h.advances hA hsched ∅ n).generated p).trans ih

/-- A message stays where it is. -/
theorem Calm.network_follow {n n' : ℕ} (hn : n ≤ n') :
    (s.follow pr sched n).network <+: (s.follow pr sched n').network := by
  induction n', hn using Nat.le_induction with
  | base => exact List.prefix_rfl
  | succ n' hn ih => exact ih.trans (h.advances hA hsched ∅ n').network

/-- **A ping is sent**, with the checksum of the sender. -/
theorem Calm.follow_sendPing {n : ℕ} {o : Arrangement Change} {y : String} (hx : x ∈ S)
    (hn : sched n = .sendPing x o y) : ∃ req, req.source = x ∧
      req.checksum = ((s.follow pr sched n).node x).memberlist.checksum ∧
      (s.follow pr sched (n + 1)).network =
        (s.follow pr sched n).network ++ [.ping (s.life x) y req none] := by
  have hcalm := h.follow hA hsched n
  have hjoined := hcalm.inv.isJoined ((hcalm.inv.node x).ready (hcalm.ready x hx))
  refine ⟨(((s.follow pr sched n).node x).sendPing o y).1, (hcalm.inv.node x).address, rfl, ?_⟩
  rw [Cluster.follow, hn, Cluster.step, if_pos hjoined, ← h.life_follow hA hsched n]
  rfl

/-- The message that was sent at the time `n` is delivered at the time `n'`. -/
theorem Calm.follow_deliver {n n' : ℕ} {o : Arrangement Change}
    (hsent : (s.follow pr sched (n + 1)).network = (s.follow pr sched n).network ++ [m])
    (hn : n < n') (hn' : sched n' = .deliver (s.follow pr sched n).network.length choices o) :
    (s.follow pr sched n').network[(s.follow pr sched n).network.length]? = some m ∧
      s.follow pr sched (n' + 1) = (s.follow pr sched n').deliver pr choices o m := by
  have hm : (s.follow pr sched n').network[(s.follow pr sched n).network.length]? = some m := by
    obtain ⟨more, hmore⟩ := h.network_follow hA hsched (Nat.succ_le_of_lt hn)
    rw [← hmore, Nat.succ_eq_add_one, hsent, List.getElem?_append_left (by simp),
      List.getElem?_concat_length]
  refine ⟨hm, ?_⟩
  rw [Cluster.follow, hn', Cluster.step, hm]

/-- **A ping arrives when nothing changes any more**: the response tells all that the receiver
holds, or the checksums are the same. -/
theorem Calm.follow_ping {T : Finset String} {n i life : ℕ} {y : String} {req : Ping}
    {o : Arrangement Change} (hT : ∀ p ∈ s.generated, p.1 ∈ T) (hy : y ∈ S) (hi : k ≤ i)
    (hm : (s.follow pr sched n).network[i]? = some (.ping life y req none))
    (hstep : s.follow pr sched (n + 1) =
      (s.follow pr sched n).deliver pr choices o (.ping life y req none))
    (hentry : ((s.follow pr sched (n + 1)).node y).memberlist.entry =
      ((s.follow pr sched n).node y).memberlist.entry)
    (hremaining : ((s.follow pr sched (n + 1)).node y).remaining T =
      ((s.follow pr sched n).node y).remaining T) :
    ∃ res, (s.follow pr sched (n + 1)).network =
        (s.follow pr sched n).network ++ [.pingResponse life y req none res] ∧
      (((s.follow pr sched n).node y).memberlist.checksum = req.checksum ∨
        ∀ z member, ((s.follow pr sched n).node y).memberlist.entry z = some member →
          ∃ c ∈ res.changes, c.member = member) := by
  have hcalm := h.follow hA hsched n
  have hg := hcalm.inv.node y
  have hreq : ∀ c ∈ req.changes, (s.follow pr sched n).Authentic c.member := fun c hc =>
    (hcalm.inv.network _ (List.mem_of_getElem? hm)).changes c (List.mem_append_left _ hc)
  have haccuses : ∀ c ∈ req.changes, ¬ c.Accuses y := by
    rintro c hc ⟨rfl, hstatus⟩
    rcases hA _ (hcalm.changes i _ hi hm c (List.mem_append_left _ hc) hy) with hs | hs <;>
      rcases hstatus with ht | ht <;> exact absurd (hs.symm.trans ht) (by decide)
  have hpending : ∀ z pc, ((s.follow pr sched n).node y).disseminator.entry z = some pc →
      z ∈ T := by
    intro z pc hpc
    have haddr : pc.address = z := Disseminator.address_of_entry hpc
    rw [← haddr]
    exact hT _ ((h.mem_generated hA hsched n _).1 (hg.pending hpc).generated)
  obtain ⟨res, n', hping, hrest⟩ := hg.handlePing_at_rest (hcalm.ready y hy) hreq haccuses
    hpending choices o
  have hnode : s.follow pr sched (n + 1) = (((s.follow pr sched n).note y
      ⟨req.changes, choices⟩).set y n').send (.pingResponse life y req none res) := by
    rw [hstep, Cluster.deliver, hping]
    rfl
  have hself : (s.follow pr sched (n + 1)).node y = n' := by
    rw [hnode]
    exact set_node_self ..
  rw [hself] at hentry hremaining
  exact ⟨res, by rw [hnode]; rfl, hrest hentry hremaining⟩

/-- **The response arrives**: what it tells is known then. -/
theorem Calm.follow_pingResponse {n i : ℕ} {y : String} {req res : Ping}
    {o : Arrangement Change} (hm : (s.follow pr sched n).network[i]? =
      some (.pingResponse (s.life req.source) y req none res))
    (hn : sched n = .deliver i choices o) (c : Change) (hc : c ∈ res.changes) :
    c.rank ≤
      View.rank ((s.follow pr sched (n + 1)).node req.source).memberlist.entry c.address := by
  have hcalm := h.follow hA hsched n
  have hgossips := hsched n
  rw [hn] at hgossips
  have hstep : (s.follow pr sched n).deliver pr choices o
      (.pingResponse (s.life req.source) y req none res) = s.follow pr sched (n + 1) := by
    rw [Cluster.follow, hn, Cluster.step, hm]
  obtain ⟨applied, hmoves⟩ : ∃ applied, (s.follow pr sched n).Moves (.deliver i choices o)
      req.source choices res.changes applied (s.follow pr sched (n + 1)) := by
    rw [← hstep]
    exact hcalm.inv.moves_pingResponse hm (congrFun (h.life_follow hA hsched n) _)
  obtain ⟨hview, hrun⟩ := hcalm.view_run hmoves
  rw [(View.rank_run_of_calm hview (hcalm.inv.valid_of_offers hmoves.offers)
    (hcalm.not_accuses hA hgossips hmoves) hrun).2]
  have hle := Finset.le_sup (f := Change.rankFor c.address) (List.mem_toFinset.2 hc)
  rw [Change.rankFor, if_pos rfl] at hle
  exact hle.trans le_sup_right

/-- **A ping from `x` to `y` when nothing changes any more** shows that `x` holds all that `y`
holds. -/
theorem Calm.rank_le_of_pings {T : Finset String} {N : ℕ} {y : String}
    (hk : k ≤ s.network.length) (hT : ∀ p ∈ s.generated, p.1 ∈ T)
    (hrest : ∀ z ∈ S, ∀ n, N ≤ n →
      ((s.follow pr sched n).node z).memberlist.entry =
          ((s.follow pr sched N).node z).memberlist.entry ∧
        ((s.follow pr sched n).node z).remaining T = ((s.follow pr sched N).node z).remaining T)
    (hsum : ∀ n, ((s.follow pr sched n).node x).memberlist.checksum =
        ((s.follow pr sched n).node y).memberlist.checksum →
      ((s.follow pr sched n).node x).memberlist.entry =
        ((s.follow pr sched n).node y).memberlist.entry)
    (hx : x ∈ S) (hy : y ∈ S) (hpings : s.Pings pr sched x y N) :
    View.rank ((s.follow pr sched N).node y).memberlist.entry ≤
      View.rank ((s.follow pr sched N).node x).memberlist.entry := by
  obtain ⟨n₁, n₂, n₃, hN, h₁₂, h₂₃, ⟨o₁, hn₁⟩, ⟨choices₂, o₂, hn₂⟩, choices₃, o₃, hn₃⟩ := hpings
  have hlength (n : ℕ) : k ≤ (s.follow pr sched n).network.length :=
    hk.trans (h.network_follow hA hsched (Nat.zero_le n)).length_le
  obtain ⟨req, rfl, hreqsum, hsent⟩ := h.follow_sendPing hA hsched hx hn₁
  obtain ⟨hping, hstep₂⟩ := h.follow_deliver hA hsched hsent h₁₂ hn₂
  have hstay (z : String) (hz : z ∈ S) (n n' : ℕ) (hn : N ≤ n) (hn' : N ≤ n') :
      ((s.follow pr sched n').node z).memberlist.entry =
        ((s.follow pr sched n).node z).memberlist.entry :=
    (hrest z hz n' hn').1.trans (hrest z hz n hn).1.symm
  obtain ⟨res, hanswered, hall⟩ := h.follow_ping hA hsched hT hy (hlength n₁) hping hstep₂
    (hstay y hy n₂ (n₂ + 1) (by omega) (by omega))
    ((hrest y hy (n₂ + 1) (by omega)).2.trans (hrest y hy n₂ (by omega)).2.symm)
  rw [← (hrest y hy n₂ (by omega)).1, ← (hrest req.source hx (n₃ + 1) (by omega)).1]
  rcases hall with hsame | hall
  · -- the checksum of the sender is still the same
    have hcalm₁ := (h.follow hA hsched n₁).inv.node req.source
    have hcalm₂ := (h.follow hA hsched n₂).inv.node req.source
    have hentry := hstay req.source hx n₁ n₂ hN (by omega)
    have hkept : ((s.follow pr sched n₂).node req.source).memberlist.checksum =
        ((s.follow pr sched n₁).node req.source).memberlist.checksum := by
      rw [(hcalm₂.ready ((h.follow hA hsched n₂).ready _ hx)).summed,
        (hcalm₁.ready ((h.follow hA hsched n₁).ready _ hx)).summed,
        hcalm₂.believes.sound.memberlist.genChecksumString_eq
          hcalm₁.believes.sound.memberlist hentry]
    rw [← hsum n₂ (hkept.trans (hreqsum.symm.trans hsame.symm)),
      hstay req.source hx (n₃ + 1) n₂ (by omega) (by omega)]
  · obtain ⟨hresponse, -⟩ := h.follow_deliver hA hsched hanswered h₂₃ hn₃
    intro z
    cases hz : ((s.follow pr sched n₂).node y).memberlist.entry z with
    | none =>
      rw [View.rank, hz]
      exact bot_le
    | some member =>
      obtain ⟨c, hc, rfl⟩ := hall z member hz
      have haddr : c.address = z := ((h.follow hA hsched n₂).inv.sound y).address_eq z _ hz
      rw [View.rank, hz, ← haddr]
      exact h.follow_pingResponse hA hsched hresponse hn₃ c hc

/-- There are finitely many views that a node of the set can come to. -/
theorem Calm.finite_range (x : String) :
    (Set.range fun n => View.rank ((s.follow pr sched n).node x).memberlist.entry).Finite := by
  -- of each address the ranks with an incarnation that it has generated
  have hF (y : String) : {r : WithBot Rank | r = ⊥ ∨
      ∃ i t, (y, i) ∈ s.generated ∧ r = (⟨i, t⟩ : Rank)}.Finite := by
    refine ((Set.finite_singleton ⊥).union (((s.generated.map Prod.snd).toFinset ×ˢ
      ({.alive, .suspect, .faulty, .leave} : Finset Status)).finite_toSet.image
        fun p : ℤ × Status => ((⟨p.1, p.2⟩ : Rank) : WithBot Rank))).subset ?_
    rintro r (rfl | ⟨i, t, hi, rfl⟩)
    · exact .inl rfl
    · refine .inr ⟨(i, t), ?_, rfl⟩
      rw [Finset.mem_coe, Finset.mem_product, List.mem_toFinset]
      exact ⟨List.mem_map.2 ⟨_, hi, rfl⟩, by cases t <;> simp⟩
  refine (AntiEntropy.finite_of_forall_mem (T := (s.generated.map Prod.fst).toFinset) hF).subset ?_
  rintro _ ⟨n, rfl⟩
  have hinv := (h.follow hA hsched n).inv
  have hentry (y : String) (member : Member)
      (hm : ((s.follow pr sched n).node x).memberlist.entry y = some member) :
      (y, member.incarnation) ∈ s.generated ∧ ValidStatus member.status := by
    have hauth := (hinv.node x).entry y member hm
    have hgen := hauth.generated
    rw [(hinv.sound x).address_eq y member hm] at hgen
    exact ⟨(h.mem_generated hA hsched n _).1 hgen, hauth.valid⟩
  refine ⟨fun y => ?_, fun y hy => ?_⟩
  · cases hm : ((s.follow pr sched n).node x).memberlist.entry y with
    | none => exact .inl (by simp [View.rank, hm])
    | some member =>
      obtain ⟨hgen, hvalid⟩ := hentry y member hm
      obtain ⟨t, ht⟩ := hvalid.exists_name
      refine .inr ⟨member.incarnation, t, hgen, ?_⟩
      simp [View.rank, hm, Member.rank, ht, rankOf_name]
  · cases hm : ((s.follow pr sched n).node x).memberlist.entry y with
    | none => simp [View.rank, hm]
    | some member =>
      refine absurd ?_ hy
      exact List.mem_toFinset.2 (List.mem_map.2 ⟨_, (hentry y member hm).1, rfl⟩)

end schedule

/-- Some node of the set holds this of a node of the set. -/
def Held (S : Finset String) (s : Cluster) (member : Member) : Prop :=
  member.address ∈ S ∧ ∃ z ∈ S, (s.node z).memberlist.entry member.address = some member

/-- Nodes that are ready are calm, and none of the messages so far counts. -/
theorem Inv.calm (h : s.Inv pr) (hready : ∀ x ∈ S, (s.node x).ready = true) :
    s.Calm pr S (s.Held S) s.network.length := by
  refine ⟨h, hready, fun x hx y hy member hm => ?_, fun i m hi hm => ?_, fun i m hi hm => ?_⟩
  · rw [Held, (h.sound x).address_eq y member hm]
    exact ⟨hy, x, hx, hm⟩
  · rw [List.getElem?_eq_none hi] at hm
    cases hm
  · rw [List.getElem?_eq_none hi] at hm
    cases hm

theorem Held.alive_or_leave (hcalm : ∀ x ∈ S, ∀ y ∈ S, ∀ member,
      (s.node x).memberlist.entry y = some member →
        member.status = alive ∨ member.status = leave) :
    ∀ member, s.Held S member → member.status = alive ∨ member.status = leave := by
  rintro member ⟨hS, z, hz, hm⟩
  exact hcalm z hz _ hS member hm

/-- **The views come to be the same**, and stay so. -/
theorem Inv.exists_agreement {sched : ℕ → Action} (hinv : s.Inv pr)
    (hready : ∀ x ∈ S, (s.node x).ready = true)
    (hcalm : ∀ x ∈ S, ∀ y ∈ S, ∀ member, (s.node x).memberlist.entry y = some member →
      member.status = alive ∨ member.status = leave)
    (hsched : ∀ n, (s.follow pr sched n).Gossips S s.network.length (sched n))
    (hfair : ∀ x ∈ S, ∀ y ∈ S, x ≠ y → ∀ n, s.Pings pr sched x y n)
    (hsum : ∀ n, ∀ x ∈ S, ∀ y ∈ S,
      ((s.follow pr sched n).node x).memberlist.checksum =
        ((s.follow pr sched n).node y).memberlist.checksum →
      ((s.follow pr sched n).node x).memberlist.entry =
        ((s.follow pr sched n).node y).memberlist.entry) :
    ∃ N, ∀ n, N ≤ n → ∀ x ∈ S, ∀ y ∈ S, ((s.follow pr sched n).node x).memberlist.entry =
      ((s.follow pr sched N).node y).memberlist.entry := by
  have hA := Held.alive_or_leave hcalm
  have h := hinv.calm hready
  have hT : ∀ p ∈ s.generated, p.1 ∈ (s.generated.map Prod.fst).toFinset :=
    fun p hp => List.mem_toFinset.2 (List.mem_map_of_mem hp)
  have hsound (n : ℕ) (x : String) := (h.follow hA hsched n).inv.sound x
  obtain ⟨N, hN⟩ := AntiEntropy.eventually_agree (S := S)
    (fun x n => View.rank ((s.follow pr sched n).node x).memberlist.entry)
    (fun x n =>
      ((s.follow pr sched n).node x).remaining (s.generated.map Prod.fst).toFinset)
    (fun x hx n => (h.advances hA hsched ∅ n).rank x hx)
    (fun x _ => h.finite_range hA hsched x)
    (fun x hx n heq => (h.advances hA hsched _ n).remaining x hx
      ((hsound _ x).eq_of_rank_eq (hsound _ x) heq))
    (fun N hrest x hx y hy hxy => h.rank_le_of_pings hA hsched le_rfl hT
      (fun z hz n hn => (hrest z hz n hn).imp_left ((hsound n z).eq_of_rank_eq (hsound N z)))
      (fun n => hsum n x hx y hy) hx hy (hfair x hx y hy hxy N))
  exact ⟨N, fun n hn x hx y hy => (hsound n x).eq_of_rank_eq (hsound N y) (hN n hn x hx y hy)⟩

/-- **Gossip brings nodes to agree.**  Take any state that a cluster can reach, and any finite
set of nodes that are ready and hold each other alive or gone.  From then on let them gossip, with
messages lost, delayed, repeated and out of order, and nodes outside the set suspected and declared
faulty.  If each of them pings each other one again and again with both messages arriving,
and no two of them ever have the same checksum for different members, then from some time on
all of them hold the same members, for ever; about an address of the set that is the newest
that any of them held at first, and about others at least that. -/
theorem gossip_agrees (pr : Primitives) (app : String → String) (actions : List Action)
    (S : Finset String) (sched : ℕ → Action)
    (hready : ∀ x ∈ S, (((new app).run pr actions).node x).ready = true)
    (hcalm : ∀ x ∈ S, ∀ y ∈ S, ∀ member,
      (((new app).run pr actions).node x).memberlist.entry y = some member →
        member.status = alive ∨ member.status = leave)
    (hsched : ∀ n, (((new app).run pr actions).follow pr sched n).Gossips S
      ((new app).run pr actions).network.length (sched n))
    (hfair : ∀ x ∈ S, ∀ y ∈ S, x ≠ y → ∀ n, ((new app).run pr actions).Pings pr sched x y n)
    (hsum : ∀ n, ∀ x ∈ S, ∀ y ∈ S,
      ((((new app).run pr actions).follow pr sched n).node x).memberlist.checksum =
        ((((new app).run pr actions).follow pr sched n).node y).memberlist.checksum →
      ((((new app).run pr actions).follow pr sched n).node x).memberlist.entry =
        ((((new app).run pr actions).follow pr sched n).node y).memberlist.entry) :
    ∃ (N : ℕ) (V : View),
      (∀ n, N ≤ n → ∀ x ∈ S,
        ((((new app).run pr actions).follow pr sched n).node x).memberlist.entry = V) ∧
      (∀ y ∈ S, V.rank y =
        S.sup fun z => View.rank (((new app).run pr actions).node z).memberlist.entry y) ∧
      ∀ y, (S.sup fun z => View.rank (((new app).run pr actions).node z).memberlist.entry y) ≤
        V.rank y := by
  have hinv := (inv_new pr app).run actions
  generalize (new app).run pr actions = s at *
  obtain ⟨N, hN⟩ := hinv.exists_agreement hready hcalm hsched hfair hsum
  have hA := Held.alive_or_leave hcalm
  have h := hinv.calm hready
  have hsound (n : ℕ) (x : String) := (h.follow hA hsched n).inv.sound x
  -- the views only go up from what they were at first
  have hfirst : ∀ x ∈ S, View.rank (s.node x).memberlist.entry ≤
      View.rank ((s.follow pr sched N).node x).memberlist.entry := fun x hx =>
    AntiEntropy.le_of_le_succ (N := 0)
      (f := fun n => View.rank ((s.follow pr sched n).node x).memberlist.entry)
      (fun n _ => (h.advances hA hsched ∅ n).rank x hx) N (Nat.zero_le N)
  rcases S.eq_empty_or_nonempty with rfl | ⟨w, hw⟩
  · exact ⟨0, fun _ => none, by simp, by simp, by simp⟩
  have hle (y : String) : (S.sup fun z => View.rank (s.node z).memberlist.entry y) ≤
      View.rank ((s.follow pr sched N).node w).memberlist.entry y := by
    refine Finset.sup_le fun z hz => (hfirst z hz y).trans ?_
    rw [hN N le_rfl z hz w hw]
  refine ⟨N, ((s.follow pr sched N).node w).memberlist.entry, fun n hn x hx => hN n hn x hx w hw,
    fun y hy => le_antisymm ?_ (hle y), hle⟩
  · -- about the set nothing was said but what some of its nodes held at first
    cases hm : ((s.follow pr sched N).node w).memberlist.entry y with
    | none =>
      rw [View.rank, hm]
      exact bot_le
    | some member =>
      obtain ⟨-, z, hz, hheld⟩ := (h.follow hA hsched N).entry w hw y hy member hm
      rw [(hsound N w).address_eq y member hm] at hheld
      have hrank : View.rank ((s.follow pr sched N).node w).memberlist.entry y =
          View.rank (s.node z).memberlist.entry y := by rw [View.rank, View.rank, hm, hheld]
      rw [hrank]
      exact Finset.le_sup (f := fun z => View.rank (s.node z).memberlist.entry y) hz

/-! ### Two nodes that ping each other in turn -/

/-- Two nodes ping each other in turn, and each message arrives when it was sent. -/
def turns (x y : String) (n : ℕ) : Action :=
  if n % 3 = 0 then if n % 2 = 0 then .sendPing x .asIs y else .sendPing y .asIs x
  else .deliver (2 * (n / 3) + (n % 3 - 1)) (fun _ => ⟨9, 0⟩) .asIs

theorem turns_send (x y : String) (j : ℕ) : turns x y (3 * j) =
    if j % 2 = 0 then .sendPing x .asIs y else .sendPing y .asIs x := by
  rw [turns, if_pos (by omega)]
  congr 1
  rw [eq_iff_iff]
  omega

theorem turns_deliver (x y : String) (j : ℕ) :
    turns x y (3 * j + 1) = .deliver (2 * j) (fun _ => ⟨9, 0⟩) .asIs ∧
      turns x y (3 * j + 2) = .deliver (2 * j + 1) (fun _ => ⟨9, 0⟩) .asIs := by
  refine ⟨?_, ?_⟩
  · rw [turns, if_neg (by omega),
      show 2 * ((3 * j + 1) / 3) + ((3 * j + 1) % 3 - 1) = 2 * j by omega]
  · rw [turns, if_neg (by omega),
      show 2 * ((3 * j + 2) / 3) + ((3 * j + 2) % 3 - 1) = 2 * j + 1 by omega]

/-- **One turn** of nodes that agree. -/
theorem Agrees.turn {R : Set String} {V : View} {sum : UInt32} {y : String} {j : ℕ}
    (h : s.Agrees pr R V sum) (hlength : s.network.length = 2 * j) (hx : x ∈ R) (hy : y ∈ R)
    (choices : ℕ → Choice) (o : Arrangement Change) :
    ∃ s₁ s₂ s₃, s₁ = s.step pr (.sendPing x o y) ∧ s₂ = s₁.step pr (.deliver (2 * j) choices o) ∧
      s₃ = s₂.step pr (.deliver (2 * j + 1) choices o) ∧
      s₁.Agrees pr R V sum ∧ s₂.Agrees pr R V sum ∧ s₃.Agrees pr R V sum ∧
      (∀ m ∈ s₁.network[2 * j]?, m.receiver = y) ∧ (∀ m ∈ s₂.network[2 * j + 1]?, m.receiver = x) ∧
      s₁.network.length = 2 * j + 1 ∧ s₃.network.length = 2 * (j + 1) := by
  obtain ⟨req, hreq, hsum, rfl, hnet₁, hs₁⟩ := h.sendPing hx o y
  have h₁ := h.of_settles hs₁ (h.inv.step _)
  obtain ⟨res, hres, hnet₂, hs₂⟩ := h₁.deliver_ping hy hreq hsum (s.life req.source) none choices o
  rw [← step_deliver_last (i := 2 * j) hnet₁ hlength.symm] at hnet₂ hs₂
  have h₂ := h₁.of_settles hs₂ (h₁.inv.step _)
  obtain ⟨hnet₃, hs₃⟩ := h₂.deliver_pingResponse y hx
    (congrFun (hs₁.trans hs₂).life req.source) hres choices o
  rw [← step_deliver_last (i := 2 * j + 1) hnet₂ (by simp [hnet₁, hlength])] at hnet₃ hs₃
  refine ⟨_, _, _, rfl, rfl, rfl, h₁, h₂, h₂.of_settles hs₃ (h₂.inv.step _), ?_, ?_, ?_, ?_⟩
  · rw [hnet₁, ← hlength, List.getElem?_concat_length]
    simp [Message.receiver]
  · rw [hnet₂, show 2 * j + 1 = (s.step pr (.sendPing req.source o y)).network.length by
      simp [hnet₁, hlength], List.getElem?_concat_length]
    simp [Message.receiver]
  · simp [hnet₁, hlength]
  · simp [hnet₃, hnet₂, hnet₁, hlength]
    omega

/-- The same in a run of turns. -/
theorem Agrees.follow_turn {V : View} {sum : UInt32} {y : String} {j : ℕ}
    (h : (s.follow pr (turns x y) (3 * j)).Agrees pr {x, y} V sum)
    (hlength : (s.follow pr (turns x y) (3 * j)).network.length = 2 * j) :
    (∀ r < 3, (s.follow pr (turns x y) (3 * j + r)).Agrees pr {x, y} V sum ∧
      (s.follow pr (turns x y) (3 * j + r)).Gossips {x, y} 0 (turns x y (3 * j + r))) ∧
    (s.follow pr (turns x y) (3 * j + 1)).network.length = 2 * j + 1 ∧
    (s.follow pr (turns x y) (3 * (j + 1))).Agrees pr {x, y} V sum ∧
    (s.follow pr (turns x y) (3 * (j + 1))).network.length = 2 * (j + 1) := by
  obtain ⟨z, w, hz, hw, hsend⟩ : ∃ z w, z ∈ ({x, y} : Finset String) ∧
      w ∈ ({x, y} : Finset String) ∧ turns x y (3 * j) = .sendPing z .asIs w := by
    rw [turns_send]
    split
    · exact ⟨x, y, by simp, by simp, rfl⟩
    · exact ⟨y, x, by simp, by simp, rfl⟩
  obtain ⟨hfirst, hsecond⟩ := turns_deliver x y j
  obtain ⟨s₁, s₂, s₃, h₁, h₂, h₃, ha₁, ha₂, ha₃, hr₁, hr₂, hl₁, hl₃⟩ :=
    h.turn hlength (by simpa using hz) (by simpa using hw) (fun _ => ⟨9, 0⟩) .asIs
  rw [← hsend] at h₁
  rw [← hfirst] at h₂
  rw [← hsecond] at h₃
  have hs₁ : s.follow pr (turns x y) (3 * j + 1) = s₁ := h₁.symm
  have hs₂ : s.follow pr (turns x y) (3 * j + 2) = s₂ := by rw [h₂, ← hs₁]; rfl
  have hs₃ : s.follow pr (turns x y) (3 * (j + 1)) = s₃ := by rw [h₃, ← hs₂]; rfl
  rw [hs₁, hs₃]
  refine ⟨fun r hr => ?_, hl₁, ha₃, hl₃⟩
  obtain rfl | rfl | rfl : r = 0 ∨ r = 1 ∨ r = 2 := by omega
  · exact ⟨h, by rw [Nat.add_zero, hsend]; exact hz⟩
  · rw [hs₁, hfirst]
    exact ⟨ha₁, Nat.zero_le _, fun m hm => by rw [hr₁ m hm]; exact hw⟩
  · rw [hs₂, hsecond]
    exact ⟨ha₂, Nat.zero_le _, fun m hm => by rw [hr₂ m hm]; exact hz⟩

/-- The nodes that agree after a turn do so in all later turns. -/
theorem Agrees.follow_turns {V : View} {sum : UInt32} {y : String}
    (h : (s.follow pr (turns x y) 3).Agrees pr {x, y} V sum)
    (hlength : (s.follow pr (turns x y) 3).network.length = 2) (j : ℕ) :
    (s.follow pr (turns x y) (3 * (j + 1))).Agrees pr {x, y} V sum ∧
      (s.follow pr (turns x y) (3 * (j + 1))).network.length = 2 * (j + 1) := by
  induction j with
  | zero => exact ⟨h, hlength⟩
  | succ j ih => exact (ih.1.follow_turn ih.2).2.2

/-- Each of the nodes pings the other one again and again. -/
theorem Agrees.pings_turns {V : View} {sum : UInt32} {y : String}
    (h : (s.follow pr (turns x y) 3).Agrees pr {x, y} V sum)
    (hlength : (s.follow pr (turns x y) 3).network.length = 2) (n : ℕ) :
    s.Pings pr (turns x y) x y n ∧ s.Pings pr (turns x y) y x n := by
  have hturn (j : ℕ) {z w : String} (hj : n ≤ 3 * (j + 1))
      (hsend : turns x y (3 * (j + 1)) = .sendPing z .asIs w) : s.Pings pr (turns x y) z w n := by
    obtain ⟨ha, hl⟩ := h.follow_turns hlength j
    obtain ⟨hfirst, hsecond⟩ := turns_deliver x y (j + 1)
    refine ⟨3 * (j + 1), 3 * (j + 1) + 1, 3 * (j + 1) + 2, hj, by omega, by omega, ⟨_, hsend⟩,
      ⟨_, _, by rw [hl, hfirst]⟩, _, _, by rw [(ha.follow_turn hl).2.1, hsecond]⟩
  refine ⟨hturn (2 * n + 1) (by omega) ?_, hturn (2 * n) (by omega) ?_⟩
  · rw [turns_send, if_pos (by omega)]
  · rw [turns_send, if_neg (by omega)]

/-- Two nodes that agree after their first turn gossip fairly, and agree where their checksums
do. -/
theorem Inv.turns {y : String} (h : s.Inv pr) (members : Finset Member)
    (hgossips : ∀ n < 3, (s.follow pr (turns x y) n).Gossips {x, y} 0 (turns x y n))
    (hapart : ∀ n < 3, ((s.follow pr (Cluster.turns x y) n).node x).memberlist.checksum ≠
      ((s.follow pr (Cluster.turns x y) n).node y).memberlist.checksum)
    (hmembers : ∀ z ∈ ({x, y} : Set String),
      ((s.follow pr (Cluster.turns x y) 3).node z).ready = true ∧
        ((s.follow pr (Cluster.turns x y) 3).node z).memberlist.getMembers.toFinset = members)
    (hlength : (s.follow pr (Cluster.turns x y) 3).network.length = 2) :
    (∀ n, (s.follow pr (Cluster.turns x y) n).Gossips {x, y} 0 (Cluster.turns x y n)) ∧
    (∀ z ∈ ({x, y} : Finset String), ∀ w ∈ ({x, y} : Finset String), z ≠ w →
      ∀ n, s.Pings pr (Cluster.turns x y) z w n) ∧
    ∀ n, ∀ z ∈ ({x, y} : Finset String), ∀ w ∈ ({x, y} : Finset String),
      ((s.follow pr (Cluster.turns x y) n).node z).memberlist.checksum =
        ((s.follow pr (Cluster.turns x y) n).node w).memberlist.checksum →
      ((s.follow pr (Cluster.turns x y) n).node z).memberlist.entry =
        ((s.follow pr (Cluster.turns x y) n).node w).memberlist.entry := by
  obtain ⟨V, sum, hagrees⟩ :=
    (((h.step (Cluster.turns x y 0)).step (Cluster.turns x y 1)).step
      (Cluster.turns x y 2)).exists_agrees hmembers
  have hlater (n : ℕ) (hn : 3 ≤ n) : (s.follow pr (Cluster.turns x y) n).Agrees pr {x, y} V sum ∧
      (s.follow pr (Cluster.turns x y) n).Gossips {x, y} 0 (Cluster.turns x y n) := by
    obtain ⟨j, r, hr, rfl⟩ : ∃ j r, r < 3 ∧ n = 3 * (j + 1) + r :=
      ⟨n / 3 - 1, n % 3, Nat.mod_lt _ (by decide), by omega⟩
    obtain ⟨ha, hl⟩ := hagrees.follow_turns hlength j
    exact (ha.follow_turn hl).1 r hr
  refine ⟨fun n => ?_, fun z hz w hw hzw n => ?_, fun n z hz w hw hsum => ?_⟩
  · rcases lt_or_ge n 3 with hn | hn
    · exact hgossips n hn
    · exact (hlater n hn).2
  · obtain ⟨hxy, hyx⟩ := hagrees.pings_turns hlength n
    simp only [Finset.mem_insert, Finset.mem_singleton] at hz hw
    rcases hz with rfl | rfl <;> rcases hw with rfl | rfl
    · exact absurd rfl hzw
    · exact hxy
    · exact hyx
    · exact absurd rfl hzw
  · rcases lt_or_ge n 3 with hn | hn
    · simp only [Finset.mem_insert, Finset.mem_singleton] at hz hw
      rcases hz with rfl | rfl <;> rcases hw with rfl | rfl
      · rfl
      · exact absurd hsum (hapart n hn)
      · exact absurd hsum.symm (hapart n hn)
      · rfl
    · have ha := (hlater n hn).1
      rw [ha.entry z (by simpa using hz), ha.entry w (by simpa using hw)]

/-- Two nodes become ready, and know only themselves. -/
def alone (x y : String) : List Action :=
  [.reincarnate x 1 0 fun _ => ⟨9, 0⟩, .reincarnate y 2 0 fun _ => ⟨9, 0⟩, .ready x, .ready y]

/-- Two nodes that know only themselves at first, and ping each other in turn. -/
theorem gossip_agrees_two : ∃ s : Cluster,
    (s.node "a").memberlist.checksum ≠ (s.node "bb").memberlist.checksum ∧
      ∃ (N : ℕ) (V : View),
        (∀ n, N ≤ n → ∀ x ∈ ({"a", "bb"} : Finset String),
          ((s.follow ⟨fun t => t.utf8ByteSize.toUInt32, id⟩ (turns "a" "bb") n).node
            x).memberlist.entry = V) ∧
        (∀ y ∈ ({"a", "bb"} : Finset String), V.rank y = ({"a", "bb"} : Finset String).sup
          fun z => View.rank (s.node z).memberlist.entry y) ∧
        ∀ y, (({"a", "bb"} : Finset String).sup fun z => View.rank (s.node z).memberlist.entry y) ≤
          V.rank y := by
  refine ⟨(new fun _ => "app").run ⟨fun t => t.utf8ByteSize.toUInt32, id⟩ (alone "a" "bb"),
    by decide +kernel, ?_⟩
  obtain ⟨hsched, hfair, hsum⟩ := ((inv_new ⟨fun t => t.utf8ByteSize.toUInt32, id⟩
    fun _ => "app").run (alone "a" "bb")).turns (x := "a") (y := "bb")
    {⟨"a", alive, 1⟩, ⟨"bb", alive, 2⟩}
    (by decide +kernel) (by decide +kernel) (by simp; decide +kernel) (by decide +kernel)
  exact gossip_agrees _ _ _ {"a", "bb"} (turns "a" "bb") (by decide +kernel)
    (by simp only [← Option.mem_def]; decide +kernel) hsched hfair hsum

end Cluster

end Swim
end Ringpop
