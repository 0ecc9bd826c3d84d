/-
# The rings of a cluster

Every node of a cluster belongs to an instance, whose ring follows the events of the node
(`Ringpop.Facade.Instance`).  A node calls its listeners while it emits, so the ring of an
instance is what `HandleEvent` makes of a new ring with the events of the node, one after
the other (`ringOf`).

Given arbitrary batches, a ring gets out of step with the member list.  In a cluster one of
the two reasons is ruled out: what a node sends has at most one change for each address, so
no member goes down and comes back in one batch (`Mirrors.foldlM`).  In every state that a
cluster can reach, the ring of every process holds all members that are alive, and nobody
who is not reachable (`rings_hold_alive`).  About a suspect that is all there is to say:
it is on the ring if it was alive before.
-/

import Ringpop.Facade.Instance
import Ringpop.Hashring.RingContent
import Ringpop.Swim.ClusterSteps

namespace Ringpop
namespace Facade

open CellStore Runs Hashring Swim

/-! ### The ring of a node -/

/-- `HandleEvent`, for the events of a node. -/
def handleNodeEvent (pf : Platform) (o : MapOrder) (ring : HashRing) :
    NodeEvent → Except Fault HashRing
  | .memberlist event => handleEvent pf o ring event
  | _ => return ring

/-- The ring of the instance of a node: all events of the node handled, each with its own
order of the servers. -/
def ringOf (pf : Platform) (hash : String → UInt32) (R : ℤ) (o : ℕ → MapOrder) (n : Node) :
    Except Fault HashRing :=
  n.emitted.zipIdx.foldlM (fun ring event => handleNodeEvent pf (o event.2) ring event.1)
    (.new pf.intSize hash R)

/-- The call of the ring that `handleChanges` makes. -/
def ringOp (changes : List Change) : RingOp :=
  .addRemoveServers (serversToChange changes).1 (serversToChange changes).2

/-- The servers that the batches of a node leave on its ring. -/
def servers (n : Node) : Finset String := n.history.foldl ringAfter ∅

theorem servers_apply_ringOp (points : String → List ℤ) (A : Ownership) (changes : List Change) :
    ((ringOp changes).apply points A).servers = ringAfter A.servers changes := by
  rw [ringOp, RingOp.apply, Ownership.foldl_remove_servers, Ownership.foldl_add_servers, ringAfter]

section ringOf

variable {pf : Platform} {hashfunc : String → ℤ} {R : ℤ} {ring : HashRing} {A : Ownership}

/-- An event that tells of no changes leaves the ring alone. -/
theorem handleNodeEvent_of_none {e : NodeEvent} (h : e.applied = none) (o : MapOrder) :
    handleNodeEvent pf o ring e = .ok ring := by
  cases e with
  | memberlist event =>
    cases event with
    | changesApplied changes oldChecksum newChecksum numMembers => cases h
    | _ => rfl
  | _ => rfl

/-- An event of applied changes is handled as a call of the ring. -/
theorem Owns.handleNodeEvent_of_some (h : Owns pf hashfunc R Set.univ ring A) {e : NodeEvent}
    {changes : List Change} (he : e.applied = some changes) (o : MapOrder) :
    ∃ ring', handleNodeEvent pf o ring e = .ok ring' ∧
      Owns pf hashfunc R Set.univ ring' ((ringOp changes).apply (ringPoints hashfunc R) A) := by
  have hevent : handleNodeEvent pf o ring e = handleChanges pf o ring changes := by
    cases e with
    | memberlist event =>
      cases event with
      | changesApplied changes' oldChecksum newChecksum numMembers =>
        obtain rfl := Option.some.inj he
        rfl
      | _ => cases he
    | _ => cases he
  obtain ⟨b, ring', hcall, h'⟩ :=
    h.addRemoveServers o (serversToChange changes).1 (fun s _ => Set.mem_univ s)
      (serversToChange changes).2
  exact ⟨ring', by rw [hevent]; simp only [handleChanges, hcall]; rfl, h'⟩

/-- **Handling events** is a sequence of calls of the ring, one for each batch. -/
theorem Owns.foldlM_handleNodeEvent (h : Owns pf hashfunc R Set.univ ring A) (o : ℕ → MapOrder)
    (events : List NodeEvent) (k : ℕ) :
    ∃ ring', (events.zipIdx k).foldlM
        (fun ring event => handleNodeEvent pf (o event.2) ring event.1) ring = .ok ring' ∧
      Owns pf hashfunc R Set.univ ring' (((events.filterMap NodeEvent.applied).map ringOp).foldl
        (RingOp.apply (ringPoints hashfunc R)) A) := by
  induction events generalizing ring A k with
  | nil => exact ⟨ring, rfl, h⟩
  | cons e events ih =>
    rw [List.zipIdx_cons, List.foldlM_cons]
    dsimp only
    cases he : e.applied with
    | none =>
      rw [List.filterMap_cons_none he, handleNodeEvent_of_none he]
      exact ih h (k + 1)
    | some changes =>
      obtain ⟨ring₁, hring₁, h₁⟩ := Owns.handleNodeEvent_of_some h he (o k)
      rw [List.filterMap_cons_some he, hring₁]
      exact ih h₁ (k + 1)

/-- **The ring of a node** is built by the calls for its batches. -/
theorem exists_ringOf (fp hash : String → UInt32) (R : ℤ) (o : ℕ → MapOrder) (n : Node) :
    ∃ ring, ringOf (.bits64 fp) hash R o n = .ok ring ∧
      Owns (.bits64 fp) (fun s => intOfUInt32 64 (hash s)) R Set.univ ring
        ((n.history.map ringOp).foldl
          (RingOp.apply (ringPoints (fun s => intOfUInt32 64 (hash s)) R)) .empty) :=
  Owns.foldlM_handleNodeEvent (owns_new_of_fits fp R fun s => intOfUInt32_fits (hash s)) o
    n.emitted 0

theorem servers_eq (points : String → List ℤ) (n : Node) :
    ((n.history.map ringOp).foldl (RingOp.apply points) .empty).servers = servers n := by
  have hfold (batches : List (List Change)) (A : Ownership) :
      ((batches.map ringOp).foldl (RingOp.apply points) A).servers =
        batches.foldl ringAfter A.servers := by
    induction batches generalizing A with
    | nil => rfl
    | cons changes batches ih =>
      rw [List.map_cons, List.foldl_cons, ih, servers_apply_ringOp, List.foldl_cons]
  exact hfold n.history .empty

end ringOf

/-! ### Batches with one change for each address -/

/-- With what was applied so far, the ring would hold the members that are alive, and no
others but suspects. -/
def Mirrors (servers : Finset String) (s : View × List Change) : Prop :=
  ∀ x, (∀ member, s.1 x = some member → member.status = alive → x ∈ ringAfter servers s.2) ∧
    (x ∈ ringAfter servers s.2 → ∃ member, s.1 x = some member ∧ isDown member.status = false)

section mirrors

variable {servers : Finset String} {s s' : View × List Change} {c : Change}

/-- **The first change of an address** in a batch. -/
theorem Mirrors.take (h : Mirrors servers s) (hfirst : ∀ d ∈ s.2, d.address ≠ c.address) :
    Mirrors servers (View.take s (some c)) := by
  intro x
  by_cases hx : c.address = x
  · subst hx
    have hentry : (View.take s (some c)).1 c.address = some c.member := Function.update_self ..
    rw [hentry]
    constructor
    · intro member hmember hstatus
      obtain rfl := Option.some.inj hmember
      exact (mem_ringAfter_append_of_alive hstatus).2 fun d hd hda => absurd hda (hfirst d hd)
    · intro hon
      refine ⟨c.member, rfl, ?_⟩
      cases hdown : isDown c.member.status with
      | false => rfl
      | true => exact absurd hon (notMem_ringAfter_of_isDown hdown)
  · have hentry : (View.take s (some c)).1 x = s.1 x := Function.update_of_ne (Ne.symm hx) ..
    have hon : x ∈ ringAfter servers (View.take s (some c)).2 ↔ x ∈ ringAfter servers s.2 :=
      mem_ringAfter_append_of_ne hx
    rw [hentry, hon]
    exact h x

/-- **A batch with one change for each address.**  The induction is over the batch, with what was
applied of the part that is done. -/
theorem Mirrors.foldlM {localAddress : String} {choices : ℕ → Choice} {changes : List Change}
    {k : ℕ} (h : Mirrors servers s) (hnodup : (changes.map Change.address).Nodup)
    (hfresh : ∀ d ∈ s.2, d.address ∉ changes.map Change.address)
    (hrun : (changes.zipIdx k).foldlM
      (fun s (ci : Change × ℕ) => View.step localAddress s ci.1 (choices ci.2)) s = .ok s') :
    Mirrors servers s' := by
  induction changes generalizing k s with
  | nil =>
    obtain rfl : s = s' := Except.ok.inj hrun
    exact h
  | cons c changes ih =>
    rw [List.map_cons, List.nodup_cons] at hnodup
    rw [List.zipIdx_cons, List.foldlM_cons] at hrun
    obtain ⟨s₁, hstep, hleft⟩ := exists_of_bind_eq_ok hrun
    have hrest : ∀ d ∈ s.2, d.address ∉ changes.map Change.address := fun d hd hmem =>
      hfresh d hd (List.mem_cons_of_mem _ hmem)
    rcases View.step_cases hstep with rfl | ⟨c', -, haddr, -, rfl⟩
    · exact ih h hnodup.2 hrest hleft
    · have hfirst : ∀ d ∈ s.2, d.address ≠ c'.address := fun d hd heq =>
        hfresh d hd (List.mem_cons.2 (.inl (heq.trans haddr)))
      refine ih (h.take hfirst) hnodup.2 (fun d hd => ?_) hleft
      rcases List.mem_append.1 hd with hd | hd
      · exact hrest d hd
      · rw [List.mem_singleton.1 hd, haddr]
        exact hnodup.1

end mirrors

/-- A member that is neither faulty nor gone is reachable. -/
theorem isReachable_of_not_isDown {member : Member} (hvalid : ValidStatus member.status)
    (hdown : isDown member.status = false) : member.isReachable = true := by
  obtain ⟨status, hstatus⟩ := hvalid.exists_name
  rw [Member.isReachable, hstatus]
  rw [hstatus] at hdown
  cases status with
  | alive => rfl
  | suspect => rfl
  | faulty => exact absurd hdown (by decide)
  | leave => exact absurd hdown (by decide)

/-- The members of a view stay, and what is applied to it is one of them. -/
theorem isSome_run {localAddress : String} {choices : ℕ → Choice} {V : View}
    {changes : List Change} {s' : View × List Change}
    (hrun : View.run localAddress choices V changes = .ok s') :
    (∀ x, (V x).isSome → (s'.1 x).isSome) ∧ ∀ c ∈ s'.2, (s'.1 c.address).isSome := by
  refine View.run_invariant (I := fun s : View × List Change =>
    (∀ x, (V x).isSome → (s.1 x).isSome) ∧ ∀ c ∈ s.2, (s.1 c.address).isSome)
    ⟨fun _ => id, by simp⟩ hrun ?_
  rintro s c i c' - ⟨hV, happlied⟩ -
  have hself : (View.take s (some c')).1 c'.address = some c'.member := Function.update_self ..
  have hkeep (x : String) (hx : (s.1 x).isSome) : ((View.take s (some c')).1 x).isSome := by
    by_cases hxc : x = c'.address
    · rw [hxc, hself]
      rfl
    · have hentry : (View.take s (some c')).1 x = s.1 x := Function.update_of_ne hxc ..
      rwa [hentry]
  refine ⟨fun x hx => hkeep x (hV x hx), fun d hd => ?_⟩
  rcases List.mem_append.1 hd with hd | hd
  · exact hkeep _ (happlied d hd)
  · rw [List.mem_singleton.1 hd, hself]
    rfl

/-! ### Runs of a cluster -/

/-- Every ring mirrors the member list of its node and was only told of members, and every
message tells one change for each address at most. -/
structure Mirrored (s : Cluster) : Prop where
  node : ∀ x, Mirrors (servers (s.node x)) ((s.node x).memberlist.entry, [])
  known : ∀ x, ∀ batch ∈ (s.node x).history, ∀ c ∈ batch,
    ((s.node x).memberlist.entry c.address).isSome
  news : ∀ m ∈ s.network, (m.news.map Change.address).Nodup

section cluster

variable {pr : Primitives} {s s' : Cluster} {a : Swim.Action} {x : String} {choices : ℕ → Choice}
  {changes applied : List Change}

theorem Mirrored.nodup_of_offers (h : Mirrored s) (ho : s.Offers x a choices changes) :
    (changes.map Change.address).Nodup := by
  cases ho with
  | nothing ha choices => exact List.nodup_nil
  | reincarnate now t choices i => exact List.nodup_singleton _
  | news hm hx hjoined choices o => exact h.news _ (List.mem_of_getElem? hm)
  | suspect hentry hne t choices i => exact List.nodup_singleton _
  | fire htimer t choices j => exact List.nodup_singleton _
  | leave hjoined t choices i => exact List.nodup_singleton _

/-- A process that has just been started. -/
theorem mirrors_new (app address : String) :
    Mirrors (servers (Node.new app address)) ((Node.new app address).memberlist.entry, []) := by
  intro x
  refine ⟨fun member hmember => absurd hmember (by simp [Node.new, Memberlist.entry,
    Memberlist.new]), fun hon => absurd hon (by simp [servers, Node.history, Node.new])⟩

/-- **A process that moves** keeps its ring in step. -/
theorem Mirrored.moves (h : Mirrored s) (hinv : s.Inv pr)
    (hmoves : s.Moves a x choices changes applied s') : Mirrored s' := by
  refine ⟨fun y => ?_, fun y => ?_, fun m hm => ?_⟩
  · by_cases hy : y = x
    · subst hy
      have hrun := hmoves.moves.run (hinv.node y).stopped
      have hmirrors := (h.node y).foldlM (h.nodup_of_offers hmoves.offers) (by simp) hrun
      have hservers : servers (s'.node y) = ringAfter (servers (s.node y)) applied := by
        rw [servers, hmoves.moves.history, List.foldl_append]
        split_ifs with hnil
        · rw [hnil, ringAfter_nil]
          rfl
        · rfl
      intro z
      rw [hservers, ringAfter_nil]
      exact hmirrors z
    · have hnode : s'.node y = s.node y := by rw [hmoves.node, Function.update_of_ne hy]
      rw [hnode]
      exact h.node y
  · by_cases hy : y = x
    · subst hy
      obtain ⟨hkeep, happlied⟩ := isSome_run (hmoves.moves.run (hinv.node y).stopped)
      intro batch hbatch
      rw [hmoves.moves.history, List.mem_append] at hbatch
      rcases hbatch with hbatch | hbatch
      · exact fun c hc => hkeep _ (h.known y batch hbatch c hc)
      · split_ifs at hbatch
        · cases hbatch
        · rw [List.mem_singleton.1 hbatch]
          exact happlied
    · have hnode : s'.node y = s.node y := by rw [hmoves.node, Function.update_of_ne hy]
      rw [hnode]
      exact h.known y
  · obtain ⟨sent, hsent, hsends⟩ := hmoves.network
    rw [hsent, List.mem_append] at hm
    rcases hm with hm | hm
    · exact h.news m hm
    · exact (hsends m hm).news

/-- **An action** keeps all rings in step. -/
theorem Mirrored.step (h : Mirrored s) (hinv : s.Inv pr) (a : Swim.Action) :
    Mirrored (s.step pr a) := by
  rcases hinv.step_cases a with hsame | ⟨x, hrestart, -⟩ | ⟨x, choices, changes, applied, hmoves⟩
  · rw [hsame]
    exact h
  · rw [hrestart]
    have hnode (y : String) : (s.restart x).node y = .new (s.app x) x ∨
        (s.restart x).node y = s.node y := by
      by_cases hy : y = x
      · rw [hy]
        exact .inl (Function.update_self ..)
      · exact .inr (Function.update_of_ne hy ..)
    refine ⟨fun y => ?_, fun y => ?_, h.news⟩
    · rcases hnode y with hy | hy <;> rw [hy]
      · exact mirrors_new _ _
      · exact h.node y
    · rcases hnode y with hy | hy <;> rw [hy]
      · simp [Node.history, Node.new]
      · exact h.known y
  · exact h.moves hinv hmoves

/-- **A run** of the cluster. -/
theorem mirrored_run (pr : Primitives) (app : String → String) (actions : List Swim.Action) :
    Mirrored ((Cluster.new app).run pr actions) := by
  induction actions using List.reverseRecOn with
  | nil =>
    exact ⟨fun x => mirrors_new _ _, by simp [Cluster.run, Cluster.new, Node.history, Node.new],
      by simp [Cluster.run, Cluster.new]⟩
  | append_singleton actions a ih =>
    rw [Cluster.run, List.foldl_append]
    exact ih.step ((Cluster.inv_new pr app).run actions) a

/-- A member that is alive is on the ring. -/
theorem Mirrored.mem_of_alive (h : Mirrored s) {y : String} {member : Member}
    (hmember : (s.node x).memberlist.entry y = some member) (hstatus : member.status = alive) :
    y ∈ servers (s.node x) := by
  have hon := (h.node x y).1 member hmember hstatus
  rwa [ringAfter_nil] at hon

/-- A server of the ring is reachable. -/
theorem Mirrored.reachable_of_mem (h : Mirrored s) (hinv : s.Inv pr) {y : String}
    (hy : y ∈ servers (s.node x)) : ∃ member,
      (s.node x).memberlist.entry y = some member ∧ member.isReachable = true := by
  rw [← ringAfter_nil (servers (s.node x))] at hy
  obtain ⟨member, hmember, hdown⟩ := (h.node x y).2 hy
  exact ⟨member, hmember,
    isReachable_of_not_isDown ((hinv.node x).entry y member hmember).valid hdown⟩

end cluster

/-- **The rings hold who is alive.**  In every state that a cluster can reach, the ring of every
process holds all members that are alive in its member list, and nobody whom
`GetReachableMembers` does not return. -/
theorem rings_hold_alive (pr : Primitives) (app : String → String) (actions : List Swim.Action)
    (hash : String → UInt32) (R : ℤ) (o : ℕ → MapOrder) (x : String) :
    ∃ ring, ringOf (.bits64 pr.fingerprint32) hash R o
        (((Cluster.new app).run pr actions).node x) = .ok ring ∧
      (∀ y member, (((Cluster.new app).run pr actions).node x).memberlist.entry y = some member →
        member.status = alive → y ∈ ring.serverSet) ∧
      ∀ y ∈ ring.serverSet,
        y ∈ (((Cluster.new app).run pr actions).node x).memberlist.getReachableMembers := by
  have hinv := (Cluster.inv_new pr app).run actions
  have hmirrored := mirrored_run pr app actions
  generalize (Cluster.new app).run pr actions = s at *
  obtain ⟨ring, hring, howns⟩ := exists_ringOf pr.fingerprint32 hash R o (s.node x)
  have hservers : ring.serverSet = servers (s.node x) := by rw [howns.servers, servers_eq]
  refine ⟨ring, hring, fun y member hmember hstatus => ?_, fun y hy => ?_⟩
  · rw [hservers]
    exact hmirrored.mem_of_alive hmember hstatus
  rw [hservers] at hy
  obtain ⟨member, hmember, hreachable⟩ := hmirrored.reachable_of_mem hinv hy
  rw [(hinv.node x).believes.sound.memberlist.mem_getReachableMembers, View.Reachable, hmember]
  exact hreachable

end Facade
end Ringpop
