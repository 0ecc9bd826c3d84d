/-
# A round of joins

`SelectGroup` fills the two pools when both are empty, and draws the nodes of a group from
them: from the pool of the other machines as long as it lasts, then from that of the own
machine.  From one filling of the pools to the next (`JoinSender.Continues`) the groups hand
out each node of the pools once, so that everybody is tried before anybody is tried again
(`join_round_tries_everybody`).
-/

import Ringpop.Swim.JoinDistinct

namespace Ringpop
namespace Swim

open CellStore Reorder

/-- A call of `SelectGroup`: the node as it is by then, what the code leaves open, and the nodes
that were joined. -/
structure Selection where
  node : Node
  orders : HostOrders
  random : ℕ → ℕ
  nodesJoined : List String

namespace JoinSender

/-- The sender when the call is made: meanwhile the node may have changed. -/
def atCall (j : JoinSender) (c : Selection) : JoinSender := { j with node := c.node }

/-- `SelectGroup`, several times: the groups, and the sender that is left. -/
def selectGroups : JoinSender → List Selection → List (List String) × JoinSender
  | j, [] => ([], j)
  | j, c :: cs =>
      let first := (j.atCall c).selectGroup c.orders c.random c.nodesJoined
      let rest := selectGroups first.2 cs
      (first.1 :: rest.1, rest.2)

/-- No call finds the pools empty, and so none fills them. -/
def Continues : JoinSender → List Selection → Prop
  | _, [] => True
  | j, c :: cs => j.pool ≠ [] ∧
      Continues ((j.atCall c).selectGroup c.orders c.random c.nodesJoined).2 cs

instance decidableContinues :
    (j : JoinSender) → (cs : List Selection) → Decidable (j.Continues cs)
  | _, [] => .isTrue trivial
  | j, c :: cs =>
      have := decidableContinues ((j.atCall c).selectGroup c.orders c.random c.nodesJoined).2 cs
      inferInstanceAs (Decidable (_ ∧ _))

/-- The calls are a round: the first fills the pools, no other does, and they empty them. -/
def IsRound (j : JoinSender) (first : Selection) (rest : List Selection) : Prop :=
  j.pool = [] ∧
    Continues ((j.atCall first).selectGroup first.orders first.random first.nodesJoined).2 rest ∧
    (j.selectGroups (first :: rest)).2.pool = []

instance (j : JoinSender) (first : Selection) (rest : List Selection) :
    Decidable (j.IsRound first rest) :=
  inferInstanceAs (Decidable (_ ∧ _))

/-- A group is not larger than there are nodes left to join, times the parallelism. -/
def Fits (j : JoinSender) (c : Selection) (group : List String) : Prop :=
  group.length ≤ (j.size - c.nodesJoined.length) * j.parallelismFactor

variable {localAddress : String} {hosts : List String} {size : ℤ} {j : JoinSender}

/-- **`Init` parts the machines**: the preferred nodes are on others, the rest on the own one. -/
theorem Carries.machine_of_init (h : j.Carries localAddress hosts size) (o : HostOrders)
    (nodesJoined : List String) (hpool : j.pool = []) :
    (∀ x ∈ (j.init o nodesJoined).roundPreferredNodes,
        captureHost x ≠ captureHost localAddress) ∧
      ∀ x ∈ (j.init o nodesJoined).roundNonPreferredNodes,
        captureHost x = captureHost localAddress := by
  obtain ⟨hpreferred, hnonPreferred⟩ := List.append_eq_nil_iff.1 hpool
  have hnodes : (j.init o nodesJoined).roundPreferredNodes =
        j.roundPreferredNodes ++ j.collectPreferredNodes o ∧
      (j.init o nodesJoined).roundNonPreferredNodes = j.roundNonPreferredNodes ++
        if (j.collectPreferredNodes o).length = 0 then j.collectPotentialNodes o nodesJoined
        else (j.bootstrapHostsMap.get (captureHost j.node.address)).filter fun host =>
          host ≠ j.node.address := ⟨rfl, rfl⟩
  rw [hnodes.1, hnodes.2, hpreferred, hnonPreferred, List.nil_append, List.nil_append]
  refine ⟨fun x hx => ?_, fun x hx => ?_⟩
  · rw [(h.collectPreferredNodes o).mem_iff] at hx
    exact of_decide_eq_true (List.mem_filter.1 hx).2
  · split_ifs at hx with hlength
    · -- no host is on another machine
      rw [(h.collectPotentialNodes o nodesJoined).mem_iff] at hx
      have hjoinable := List.mem_of_mem_filter (List.mem_of_mem_filter hx)
      by_contra hmachine
      exact (h.collectPreferredNodes_eq_nil_iff o).1 hlength ⟨x, hjoinable, hmachine⟩
    · rw [h.grouped.get_eq, h.address] at hx
      exact of_decide_eq_true (List.mem_filter.1 (List.mem_of_mem_filter hx)).2

theorem atCall_drawn {c : Selection} (haddress : c.node.address = j.node.address) :
    j.Drawn [] (j.atCall c) :=
  ⟨⟨haddress, rfl, rfl⟩, rfl, [], [], rfl, .refl _, .refl _, .inl rfl⟩

theorem Fits.of_eq {j' : JoinSender} {c : Selection} {group : List String}
    (hfits : j'.Fits c group) (hsize : j'.size = j.size)
    (hfactor : j'.parallelismFactor = j.parallelismFactor) : j.Fits c group := by
  rw [Fits, hsize, hfactor] at hfits
  exact hfits

theorem selectGroup_fits {c : Selection} (hjoined : c.nodesJoined.length < j.size)
    (hfactor : 1 ≤ j.parallelismFactor) :
    j.Fits c ((j.atCall c).selectGroup c.orders c.random c.nodesJoined).1 := by
  have hroom : 0 ≤ (j.size - c.nodesJoined.length) * j.parallelismFactor :=
    Int.mul_nonneg (by omega) (by omega)
  exact ((j.atCall c).selectGroup_spec c.orders c.random c.nodesJoined).2 hroom

/-- **The calls of a round** draw from the pools that are there, and none takes more than fits. -/
theorem Continues.drawn {cs : List Selection} (h : j.Continues cs)
    (haddress : ∀ c ∈ cs, c.node.address = j.node.address)
    (hjoined : ∀ c ∈ cs, c.nodesJoined.length < j.size) (hfactor : 1 ≤ j.parallelismFactor) :
    j.Drawn (j.selectGroups cs).1.flatten (j.selectGroups cs).2 ∧
      List.Forall₂ j.Fits cs (j.selectGroups cs).1 := by
  induction cs generalizing j with
  | nil => exact ⟨.refl j, .nil⟩
  | cons c cs ih =>
    obtain ⟨hpool, hrest⟩ := h
    rw [List.forall_mem_cons] at haddress hjoined
    have hdrawn := ((j.atCall c).selectGroup_spec c.orders c.random c.nodesJoined).1
    have hpool' : (j.atCall c).pool ≠ [] := hpool
    rw [refilled, if_neg hpool'] at hdrawn
    have hfirst := (atCall_drawn haddress.1).trans hdrawn
    obtain ⟨hnodes, hfits⟩ := ih hrest
      (fun c' hc' => (haddress.2 c' hc').trans hfirst.same.1.symm)
      (fun c' hc' => (hjoined.2 c' hc').trans_eq hfirst.same.2.2.symm)
      (hfactor.trans_eq hfirst.factor.symm)
    refine ⟨hfirst.trans hnodes, .cons (selectGroup_fits hjoined.1 hfactor) ?_⟩
    exact hfits.imp fun c' group hgroup => hgroup.of_eq hfirst.same.2.2 hfirst.factor

/-- Whatever the calls, the sender is for the same hosts and draws as many nodes. -/
theorem selectGroups_same {cs : List Selection}
    (haddress : ∀ c ∈ cs, c.node.address = j.node.address) :
    j.Same (j.selectGroups cs).2 ∧
      (j.selectGroups cs).2.parallelismFactor = j.parallelismFactor := by
  induction cs generalizing j with
  | nil => exact ⟨⟨rfl, rfl, rfl⟩, rfl⟩
  | cons c cs ih =>
    rw [List.forall_mem_cons] at haddress
    have hdrawn := ((j.atCall c).selectGroup_spec c.orders c.random c.nodesJoined).1
    have hfirst : j.Same ((j.atCall c).refilled c.orders c.nodesJoined) ∧
        ((j.atCall c).refilled c.orders c.nodesJoined).parallelismFactor =
          j.parallelismFactor := by
      rw [refilled]
      split_ifs
      · exact ⟨⟨haddress.1, rfl, rfl⟩, rfl⟩
      · exact ⟨⟨haddress.1, rfl, rfl⟩, rfl⟩
    have hsame := hfirst.1.trans hdrawn.same
    obtain ⟨hrest, hfactor⟩ := ih fun c' hc' => (haddress.2 c' hc').trans hsame.1.symm
    exact ⟨hsame.trans hrest, hfactor.trans (hdrawn.factor.trans hfirst.2)⟩

/-- **A round** draws all that its first call fills the pools with. -/
theorem IsRound.drawn {first : Selection} {rest : List Selection} (h : j.IsRound first rest)
    (haddress : ∀ c ∈ rest, c.node.address = first.node.address)
    (hjoined : ∀ c ∈ first :: rest, c.nodesJoined.length < j.size)
    (hfactor : 1 ≤ j.parallelismFactor) :
    ((j.atCall first).init first.orders first.nodesJoined).Drawn
        (j.selectGroups (first :: rest)).1.flatten (j.selectGroups (first :: rest)).2 ∧
      List.Forall₂ j.Fits (first :: rest) (j.selectGroups (first :: rest)).1 := by
  obtain ⟨hempty, hrest, -⟩ := h
  rw [List.forall_mem_cons] at hjoined
  have hfirst :=
    ((j.atCall first).selectGroup_spec first.orders first.random first.nodesJoined).1
  have hempty' : (j.atCall first).pool = [] := hempty
  rw [refilled, if_pos hempty'] at hfirst
  obtain ⟨hnodes, hfits⟩ := hrest.drawn
    (fun c hc => (haddress c hc).trans hfirst.same.1.symm)
    (fun c hc => (hjoined.2 c hc).trans_eq hfirst.same.2.2.symm)
    (hfactor.trans_eq hfirst.factor.symm)
  refine ⟨hfirst.trans hnodes, .cons (selectGroup_fits hjoined.1 hfactor) ?_⟩
  exact hfits.imp fun c group hgroup => hgroup.of_eq hfirst.same.2.2 hfirst.factor

end JoinSender

/-- **A round of joins tries everybody once**: its groups together are the pools that the first
call fills, other machines first, and each fits; with nothing joined yet they are the
bootstrap hosts that can be joined. -/
theorem join_round_tries_everybody (node : Node) (opts : JoinOpts) (o : HostOrders)
    (hosts : List String) (j₀ : JoinSender) (earlier : List Selection) (j : JoinSender)
    (first : Selection) (rest : List Selection)
    (hhosts : opts.discoverProvider = some (.ok hosts))
    (hnew : JoinSender.new node opts o = .ok j₀) (hfactor : 1 ≤ j₀.parallelismFactor)
    (haddress : ∀ c ∈ earlier ++ first :: rest, c.node.address = node.address)
    (hjoined : ∀ c ∈ first :: rest, c.nodesJoined.length < j₀.size)
    (hearlier : (j₀.selectGroups earlier).2 = j) (hround : j.IsRound first rest) :
    (j.selectGroups (first :: rest)).1.flatten.Perm
        ((j.atCall first).init first.orders first.nodesJoined).pool ∧
      (∃ others own, (j.selectGroups (first :: rest)).1.flatten = others ++ own ∧
        (∀ x ∈ others, captureHost x ≠ captureHost node.address) ∧
        ∀ x ∈ own, captureHost x = captureHost node.address) ∧
      List.Forall₂ j₀.Fits (first :: rest) (j.selectGroups (first :: rest)).1 ∧
      (first.nodesJoined = [] →
        (j.selectGroups (first :: rest)).1.flatten.Perm (joinable node.address hosts)) := by
  rw [List.forall_mem_append, List.forall_mem_cons] at haddress
  have hcarries := (new_spec hhosts hnew).1.carries
  obtain ⟨hsame, hfactor'⟩ := JoinSender.selectGroups_same fun c hc =>
    (haddress.1 c hc).trans hcarries.address.symm
  rw [hearlier] at hsame hfactor'
  have hcall : (j.atCall first).Carries node.address hosts j₀.size :=
    (hcarries.of_same hsame).of_same ⟨haddress.2.1.trans (hcarries.of_same hsame).address.symm,
      rfl, rfl⟩
  obtain ⟨hempty, -, hend⟩ := id hround
  obtain ⟨hdrawn, hfits⟩ := hround.drawn
    (fun c hc => (haddress.2.2 c hc).trans haddress.2.1.symm)
    (fun c hc => (hjoined c hc).trans_eq hsame.2.2.symm) (hfactor.trans_eq hfactor'.symm)
  have hperm := hdrawn.pool_perm
  rw [hend, List.append_nil] at hperm
  have hfits' : List.Forall₂ j₀.Fits (first :: rest) (j.selectGroups (first :: rest)).1 :=
    hfits.imp fun c group hgroup => hgroup.of_eq hsame.2.2 hfactor'
  refine ⟨hperm, ?_, hfits', fun hnone => ?_⟩
  · obtain ⟨others, own, hnodes, hothers, hown, -⟩ := hdrawn.split
    obtain ⟨hpreferred, hnonPreferred⟩ :=
      hcall.machine_of_init first.orders first.nodesJoined hempty
    exact ⟨others, own, hnodes,
      fun x hx => hpreferred x (hothers.subset (List.mem_append_left _ hx)),
      fun x hx => hnonPreferred x (hown.subset (List.mem_append_left _ hx))⟩
  · obtain ⟨hpreferred, hnonPreferred⟩ := List.append_eq_nil_iff.1 hempty
    have hinit := hcall.pool_init first.orders first.nodesJoined hpreferred hnonPreferred
    simp only [hnone, List.not_mem_nil, not_false_eq_true, decide_true, List.filter_true,
      ite_self] at hinit hperm
    exact hperm.trans hinit

/-- Hosts on the own machine and on two others, of which one is listed twice, and one that is
not an address. -/
def JoinOpts.mixed : JoinOpts :=
  ⟨2, 0, 1, some (.ok ["h1:1", "h1:2", "h2:1", "h4", "h3:1", "h2:1"])⟩

/-- A call that draws the node at the front each time. -/
def Selection.front (node : Node) (nodesJoined : List String) : Selection :=
  ⟨node, ⟨.asIs, .asIs⟩, fun _ => 0, nodesJoined⟩

/-- Two groups try the other machines, and the third the own one. -/
theorem join_round_tries_everybody_mixed :
    ∃ node j, JoinSender.new node .mixed ⟨.asIs, .asIs⟩ = .ok j ∧
      (j.selectGroups [.front node [], .front node ["h3:1"], .front node ["h3:1"]]).1 =
        [["h2:1", "h2:1"], ["h3:1"], ["h1:2"]] ∧
      (j.selectGroups [.front node [], .front node ["h3:1"], .front node ["h3:1"]]).1.flatten.Perm
        (joinable node.address ["h1:1", "h1:2", "h2:1", "h4", "h3:1", "h2:1"]) := by
  have heval : (do
      let node ← newNode
      let j ← (JoinSender.new node .mixed ⟨.asIs, .asIs⟩).toOption
      return decide (j.parallelismFactor = 1 ∧ j.size = 2 ∧
        j.IsRound (.front node []) [.front node ["h3:1"], .front node ["h3:1"]] ∧
        (j.selectGroups [.front node [], .front node ["h3:1"], .front node ["h3:1"]]).1 =
          [["h2:1", "h2:1"], ["h3:1"], ["h1:2"]])) = some true := by
    decide +kernel
  obtain ⟨node, -, heval⟩ := Option.bind_eq_some_iff.1 heval
  obtain ⟨j, hnew, heval⟩ := Option.bind_eq_some_iff.1 heval
  obtain ⟨hfactor, hsize, hround, hgroups⟩ := of_decide_eq_true (Option.some.inj heval)
  have hnew' := toOption_eq_some_iff.1 hnew
  refine ⟨node, j, hnew', hgroups, ?_⟩
  exact (join_round_tries_everybody node .mixed ⟨.asIs, .asIs⟩ _ j [] j _ _ rfl hnew'
    hfactor.ge (by simp [Selection.front]) (by simp [Selection.front, hsize]) rfl
    hround).2.2.2 rfl

end Swim
end Ringpop
