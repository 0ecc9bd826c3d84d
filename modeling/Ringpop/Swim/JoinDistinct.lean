/-
# Joining distinct nodes

`JoinCluster` returns without an error when it has joined `size` nodes.  It should have
joined that many different ones: `SelectGroup` is given the nodes that were joined, and
hands out others.  It does as long as the pools last.  When they are empty they are filled
again, and only `CollectPotentialNodes`, from which the pools are filled if no bootstrap
host is on another machine, looks at the nodes that were joined; so a node may be joined
twice (`joined_twice`).  Nor is a host left out that is listed twice.  What `SelectGroup`
takes from the pools and what it leaves is `JoinSender.Drawn`.

`RefillsFresh` says when filling the pools is harmless, of the bootstrap hosts and of what
has been joined; this is exact (`JoinSender.Carries.init_fresh_iff`).  If it is harmless each time,
the nodes that are returned are all different (`join_cluster_distinct`).  The local node is
never among them.
-/

import Ringpop.Collections.Runs
import Ringpop.Swim.JoinSender
import Ringpop.Swim.NodeEffect

namespace Ringpop
namespace Swim

open CellStore Runs Reorder

/-- The bootstrap hosts that are in the map of hosts. -/
def wellFormed (hosts : List String) : List String := hosts.filter fun host => captureHost host ≠ ""

/-- The bootstrap hosts that can be joined. -/
def joinable (localAddress : String) (hosts : List String) : List String :=
  (wellFormed hosts).filter fun host => host ≠ localAddress

/-- Some bootstrap host is on another machine. -/
def Elsewhere (localAddress : String) (hosts : List String) : Prop :=
  ∃ host ∈ wellFormed hosts, captureHost host ≠ captureHost localAddress

instance (localAddress : String) (hosts : List String) : Decidable (Elsewhere localAddress hosts) :=
  inferInstanceAs (Decidable (∃ host ∈ _, _))

/-- The pools may be filled: no host that can be joined and was not yet is listed twice, and if
some host is on another machine, none of them was joined. -/
def FreshHosts (localAddress : String) (hosts nodesJoined : List String) : Prop :=
  ((joinable localAddress hosts).filter fun host => host ∉ nodesJoined).Nodup ∧
    (Elsewhere localAddress hosts → ∀ host ∈ joinable localAddress hosts, host ∉ nodesJoined)

instance (localAddress : String) (hosts nodesJoined : List String) :
    Decidable (FreshHosts localAddress hosts nodesJoined) :=
  inferInstanceAs (Decidable (_ ∧ _))

/-- The pools are filled only when they may be. -/
def RefillsFresh (localAddress : String) (hosts : List String) (s : Joining) (a : JoinAttempt) :
    Prop :=
  a.destroyed = false → s.sender.roundPreferredNodes = [] → s.sender.roundNonPreferredNodes = [] →
    FreshHosts localAddress hosts s.nodesJoined

instance (localAddress : String) (hosts : List String) (s : Joining) (a : JoinAttempt) :
    Decidable (RefillsFresh localAddress hosts s a) :=
  inferInstanceAs (Decidable (_ → _))

/-! ### The map of hosts -/

/-- **The map of hosts** has the hosts, each under its own machine. -/
theorem hostPortsByHost_spec (hosts : List String) :
    (hostPortsByHost hosts).GroupedBy captureHost ∧
      (hostPortsByHost hosts).values.Perm (wellFormed hosts) := by
  have hfold (hosts : List String) (g : Groups String String) (hg : g.GroupedBy captureHost) :
      Groups.GroupedBy captureHost (hosts.foldl (fun hostMap hostport =>
        if captureHost hostport ≠ "" then hostMap.add (captureHost hostport) hostport
        else hostMap) g) ∧
      (Groups.values (hosts.foldl (fun hostMap hostport =>
        if captureHost hostport ≠ "" then hostMap.add (captureHost hostport) hostport
        else hostMap) g)).Perm (g.values ++ wellFormed hosts) := by
    induction hosts generalizing g with
    | nil => exact ⟨hg, by simp [wellFormed]⟩
    | cons host hosts ih =>
      rw [List.foldl_cons]
      split_ifs with hhost
      · obtain ⟨hgroup, hvalues⟩ := ih _ (hg.add host)
        refine ⟨hgroup, hvalues.trans ?_⟩
        rw [wellFormed, wellFormed, List.filter_cons_of_pos (by simpa using hhost)]
        exact ((Groups.values_add _ host g).append_right _).trans List.perm_middle.symm
      · obtain ⟨hgroup, hvalues⟩ := ih _ hg
        refine ⟨hgroup, hvalues.trans ?_⟩
        rw [wellFormed, wellFormed, List.filter_cons_of_neg (by simpa using hhost)]
  exact hfold hosts [] (Groups.groupedBy_nil _)

namespace JoinSender

/-- What stays the same while a node joins: its address, the map of its bootstrap hosts, and
how many it has to join. -/
structure Carries (localAddress : String) (hosts : List String) (size : ℤ) (j : JoinSender) :
    Prop where
  address : j.node.address = localAddress
  grouped : j.bootstrapHostsMap.GroupedBy captureHost
  values : j.bootstrapHostsMap.values.Perm (wellFormed hosts)
  size : j.size = size

/-- The nodes of both pools. -/
def pool (j : JoinSender) : List String := j.roundPreferredNodes ++ j.roundNonPreferredNodes

variable {localAddress : String} {hosts nodesJoined : List String} {size : ℤ} {j j' : JoinSender}

/-! ### Filling the pools -/

/-- The nodes that are collected first are those of other machines. -/
theorem Carries.collectPreferredNodes (h : j.Carries localAddress hosts size) (o : HostOrders) :
    (j.collectPreferredNodes o).Perm
      ((wellFormed hosts).filter fun host => captureHost host ≠ captureHost localAddress) := by
  have hperm := ((o.preferred.perm j.bootstrapHostsMap).filter fun e =>
    e.1 ≠ captureHost j.node.address).flatMap_right Prod.snd
  refine hperm.trans ?_
  rw [h.grouped.flatMap_filter fun host => host ≠ captureHost j.node.address, h.address]
  exact h.values.filter _

theorem Carries.collectPotentialNodes (h : j.Carries localAddress hosts size) (o : HostOrders)
    (nodesJoined : List String) : (j.collectPotentialNodes o nodesJoined).Perm
      ((joinable localAddress hosts).filter fun host => host ∉ nodesJoined) := by
  have hperm := ((o.potential.perm j.bootstrapHostsMap).flatMap_right Prod.snd).trans h.values
  refine (hperm.filter _).trans ?_
  rw [joinable, List.filter_filter, h.address]
  refine List.Perm.of_eq (List.filter_congr fun host _ => ?_)
  simp [Bool.and_comm, eq_comm]

theorem Carries.collectPreferredNodes_eq_nil_iff (h : j.Carries localAddress hosts size)
    (o : HostOrders) :
    (j.collectPreferredNodes o).length = 0 ↔ ¬ Elsewhere localAddress hosts := by
  rw [(h.collectPreferredNodes o).length_eq, List.length_eq_zero_iff, List.filter_eq_nil_iff]
  simp [Elsewhere]

/-- **The pools after `Init`**: all hosts that can be joined, or those that were not yet if no
host is on another machine. -/
theorem Carries.pool_init (h : j.Carries localAddress hosts size) (o : HostOrders)
    (nodesJoined : List String) (hpreferred : j.roundPreferredNodes = [])
    (hnonPreferred : j.roundNonPreferredNodes = []) :
    (j.init o nodesJoined).pool.Perm (if Elsewhere localAddress hosts then
      joinable localAddress hosts
      else (joinable localAddress hosts).filter fun host => host ∉ nodesJoined) := by
  have hpool : (j.init o nodesJoined).pool = (j.roundPreferredNodes ++ j.collectPreferredNodes o) ++
      (j.roundNonPreferredNodes ++ if (j.collectPreferredNodes o).length = 0 then
        j.collectPotentialNodes o nodesJoined
        else (j.bootstrapHostsMap.get (captureHost j.node.address)).filter fun host =>
          host ≠ j.node.address) := rfl
  rw [hpool, hpreferred, hnonPreferred, List.nil_append, List.nil_append]
  split_ifs with hlength helse helse
  · exact absurd helse ((h.collectPreferredNodes_eq_nil_iff o).1 hlength)
  · rw [List.eq_nil_of_length_eq_zero hlength, List.nil_append]
    exact h.collectPotentialNodes o nodesJoined
  · -- the hosts of other machines, and those of this one
    have hother : ((joinable localAddress hosts).filter fun host =>
        captureHost host ≠ captureHost localAddress) =
          (wellFormed hosts).filter fun host => captureHost host ≠ captureHost localAddress := by
      rw [joinable, List.filter_filter]
      refine List.filter_congr fun host _ => ?_
      by_cases hhost : host = localAddress
      · simp [hhost]
      · simp [hhost]
    have hown : ((j.bootstrapHostsMap.get (captureHost j.node.address)).filter fun host =>
        host ≠ j.node.address).Perm ((joinable localAddress hosts).filter fun host =>
          !decide (captureHost host ≠ captureHost localAddress)) := by
      rw [h.grouped.get_eq, h.address, joinable, List.filter_filter, List.filter_filter]
      refine (h.values.filter _).trans (List.Perm.of_eq (List.filter_congr fun host _ => ?_))
      simp [Bool.and_comm]
    have hpreferred' := h.collectPreferredNodes o
    rw [← hother] at hpreferred'
    exact (hpreferred'.append hown).trans (List.filter_append_perm _ _)
  · exact absurd ((h.collectPreferredNodes_eq_nil_iff o).2 helse) hlength

/-- **Filling the pools is harmless**, no address twice in them and none that was joined,
exactly when the hosts are fresh. -/
theorem Carries.init_fresh_iff (h : j.Carries localAddress hosts size) (o : HostOrders)
    (nodesJoined : List String) (hpreferred : j.roundPreferredNodes = [])
    (hnonPreferred : j.roundNonPreferredNodes = []) :
    ((j.init o nodesJoined).pool.Nodup ∧ ∀ x ∈ (j.init o nodesJoined).pool, x ∉ nodesJoined) ↔
      FreshHosts localAddress hosts nodesJoined := by
  have hperm := h.pool_init o nodesJoined hpreferred hnonPreferred
  rw [hperm.nodup_iff, FreshHosts]
  simp only [hperm.mem_iff]
  split_ifs with helse
  · simp only [helse, true_imp_iff]
    refine and_congr_left fun hnew => ?_
    rw [List.filter_eq_self.2 fun host hhost => by simpa using hnew host hhost]
  · simp only [helse, false_imp_iff, and_true]
    refine and_iff_left_of_imp fun _ x hx => ?_
    simpa using (List.mem_filter.1 hx).2

/-- The pools hold only what can be joined. -/
theorem Carries.mem_pool_init (h : j.Carries localAddress hosts size) (o : HostOrders)
    (hpreferred : j.roundPreferredNodes = []) (hnonPreferred : j.roundNonPreferredNodes = [])
    {x : String} (hx : x ∈ (j.init o nodesJoined).pool) : x ∈ joinable localAddress hosts := by
  rw [(h.pool_init o nodesJoined hpreferred hnonPreferred).mem_iff] at hx
  split_ifs at hx
  · exact hx
  · exact List.mem_of_mem_filter hx

/-! ### Taking from the pools -/

/-- A node that is taken is one of the nodes, and the others stay. -/
theorem takeNode_perm {nodes : List String} (hnodes : nodes.length > 0) (random : ℕ) :
    ((takeNode nodes (-1) random).1 :: (takeNode nodes (-1) random).2).Perm nodes := by
  have hlt : random % nodes.length < nodes.length := Nat.mod_lt _ hnodes
  have htake : takeNode nodes (-1) random =
      (nodes[random % nodes.length], nodes.eraseIdx (random % nodes.length)) := by
    rw [takeNode, if_neg (by omega), if_neg (by omega)]
    simp [List.getElem?_eq_getElem hlt]
  rw [htake]
  exact List.getElem_cons_eraseIdx_perm hlt

/-- What `Carries` is about is the same in both. -/
def Same (j j' : JoinSender) : Prop :=
  j'.node.address = j.node.address ∧ j'.bootstrapHostsMap = j.bootstrapHostsMap ∧ j'.size = j.size

theorem Same.trans {j'' : JoinSender} (h : j.Same j') (h' : j'.Same j'') : j.Same j'' :=
  ⟨h'.1.trans h.1, h'.2.1.trans h.2.1, h'.2.2.trans h.2.2⟩

theorem Carries.of_same (h : j.Carries localAddress hosts size) (hsame : j.Same j') :
    j'.Carries localAddress hosts size := by
  obtain ⟨haddress, hmap, hsize⟩ := hsame
  refine ⟨?_, ?_, ?_, ?_⟩
  · rw [haddress, h.address]
  · rw [hmap]
    exact h.grouped
  · rw [hmap]
    exact h.values
  · rw [hsize, h.size]

/-- The nodes were drawn from the pools of `j`, and those of `j'` are left: preferred nodes, and
others only when no preferred node was left. -/
structure Drawn (j : JoinSender) (nodes : List String) (j' : JoinSender) : Prop where
  same : j.Same j'
  factor : j'.parallelismFactor = j.parallelismFactor
  split : ∃ preferred nonPreferred, nodes = preferred ++ nonPreferred ∧
    (preferred ++ j'.roundPreferredNodes).Perm j.roundPreferredNodes ∧
    (nonPreferred ++ j'.roundNonPreferredNodes).Perm j.roundNonPreferredNodes ∧
    (nonPreferred = [] ∨ j'.roundPreferredNodes = [])

theorem Drawn.refl (j : JoinSender) : j.Drawn [] j :=
  ⟨⟨rfl, rfl, rfl⟩, rfl, [], [], rfl, .refl _, .refl _, .inl rfl⟩

/-- **Drawing goes on** where it stopped. -/
theorem Drawn.trans {j₁ : JoinSender} {nodes nodes' : List String} (h : j.Drawn nodes j₁)
    (h' : j₁.Drawn nodes' j') : j.Drawn (nodes ++ nodes') j' := by
  obtain ⟨p, q, rfl, hp, hq, hpq⟩ := h.split
  obtain ⟨p', q', rfl, hp', hq', hpq'⟩ := h'.split
  refine ⟨h.same.trans h'.same, h'.factor.trans h.factor, ?_⟩
  rcases hpq with rfl | hnil
  · refine ⟨p ++ p', q', by simp, ?_, hq'.trans hq, hpq'⟩
    rw [List.append_assoc]
    exact (hp'.append_left p).trans hp
  · -- no preferred node is left to be drawn
    rw [hnil] at hp'
    obtain ⟨rfl, hnil'⟩ := List.append_eq_nil_iff.1 hp'.eq_nil
    refine ⟨p, q ++ q', by simp, ?_, ?_, .inr hnil'⟩
    · rw [hnil', ← hnil]
      exact hp
    · rw [List.append_assoc]
      exact (hq'.append_left q).trans hq

/-- What was drawn and what is left is what was there. -/
theorem Drawn.pool_perm {nodes : List String} (h : j.Drawn nodes j') :
    (nodes ++ j'.pool).Perm j.pool := by
  obtain ⟨p, q, rfl, hp, hq, -⟩ := h.split
  refine List.Perm.trans ?_ (hp.append hq)
  rw [pool, List.append_assoc, List.append_assoc]
  refine List.Perm.append_left p ?_
  rw [← List.append_assoc, ← List.append_assoc]
  exact List.perm_append_comm.append_right _

theorem drawn_preferred (h : j.roundPreferredNodes.length > 0) (random : ℕ) :
    j.Drawn [(takeNode j.roundPreferredNodes (-1) random).1]
      { j with roundPreferredNodes := (takeNode j.roundPreferredNodes (-1) random).2 } :=
  ⟨⟨rfl, rfl, rfl⟩, rfl, [_], [], rfl, takeNode_perm h random, .refl _, .inl rfl⟩

theorem drawn_nonPreferred (hnil : j.roundPreferredNodes = [])
    (h : j.roundNonPreferredNodes.length > 0) (random : ℕ) :
    j.Drawn [(takeNode j.roundNonPreferredNodes (-1) random).1]
      { j with roundNonPreferredNodes := (takeNode j.roundNonPreferredNodes (-1) random).2 } :=
  ⟨⟨rfl, rfl, rfl⟩, rfl, [], [_], rfl, .refl _, takeNode_perm h random, .inr hnil⟩

/-- **The loop of `SelectGroup`** draws nodes, not more than there is room for in the group. -/
theorem selectLoop_spec (random : ℕ → ℕ) (numNodesLeft : ℤ) (fuel : ℕ) (j : JoinSender)
    (group : List String) :
    ∃ nodes, (selectLoop random numNodesLeft fuel j group).1 = group ++ nodes ∧
      j.Drawn nodes (selectLoop random numNodesLeft fuel j group).2 ∧
      (group.length ≤ numNodesLeft * j.parallelismFactor →
        (group ++ nodes).length ≤ numNodesLeft * j.parallelismFactor) := by
  induction fuel generalizing j group with
  | zero => exact ⟨[], by simp [selectLoop], .refl j, by simp⟩
  | succ fuel ih =>
    have hroom (node : String) (hfull : ¬ group.length = numNodesLeft * j.parallelismFactor)
        (hle : group.length ≤ numNodesLeft * j.parallelismFactor) :
        (group ++ [node]).length ≤ numNodesLeft * j.parallelismFactor := by
      rw [List.length_append, List.length_singleton]
      omega
    rw [selectLoop]
    split_ifs with hfull hpreferred hnonPreferred
    · exact ⟨[], by simp, .refl j, by simp⟩
    · obtain ⟨nodes, hgroup, hdrawn, hlength⟩ := ih { j with roundPreferredNodes :=
        (takeNode j.roundPreferredNodes (-1) (random group.length)).2 }
          (group ++ [(takeNode j.roundPreferredNodes (-1) (random group.length)).1])
      rw [List.append_assoc] at hgroup hlength
      exact ⟨_, hgroup, (drawn_preferred hpreferred _).trans hdrawn,
        fun hle => hlength (hroom _ hfull hle)⟩
    · have hnil : j.roundPreferredNodes = [] := List.eq_nil_of_length_eq_zero (by omega)
      obtain ⟨nodes, hgroup, hdrawn, hlength⟩ := ih { j with roundNonPreferredNodes :=
        (takeNode j.roundNonPreferredNodes (-1) (random group.length)).2 }
          (group ++ [(takeNode j.roundNonPreferredNodes (-1) (random group.length)).1])
      rw [List.append_assoc] at hgroup hlength
      exact ⟨_, hgroup, (drawn_nonPreferred hnil hnonPreferred _).trans hdrawn,
        fun hle => hlength (hroom _ hfull hle)⟩
    · exact ⟨[], by simp, .refl j, by simp⟩

/-- The sender that `SelectGroup` draws from: the pools are filled if both are empty. -/
def refilled (j : JoinSender) (o : HostOrders) (nodesJoined : List String) : JoinSender :=
  if j.pool = [] then j.init o nodesJoined else j

/-- **`SelectGroup`** draws a group, of as many nodes as are asked for at most. -/
theorem selectGroup_spec (j : JoinSender) (o : HostOrders) (random : ℕ → ℕ)
    (nodesJoined : List String) :
    (j.refilled o nodesJoined).Drawn (j.selectGroup o random nodesJoined).1
        (j.selectGroup o random nodesJoined).2 ∧
      (0 ≤ (j.size - nodesJoined.length) * j.parallelismFactor →
        (j.selectGroup o random nodesJoined).1.length ≤
          (j.size - nodesJoined.length) * j.parallelismFactor) := by
  have hrefilled : (if j.roundPreferredNodes.length = 0 && j.roundNonPreferredNodes.length = 0 then
      j.init o nodesJoined else j) = j.refilled o nodesJoined := by
    rw [refilled, pool]
    simp
  have hkept : (j.refilled o nodesJoined).size = j.size ∧
      (j.refilled o nodesJoined).parallelismFactor = j.parallelismFactor := by
    rw [refilled]
    split_ifs
    · exact ⟨rfl, rfl⟩
    · exact ⟨rfl, rfl⟩
  obtain ⟨nodes, hgroup, hdrawn, hlength⟩ := selectLoop_spec random
    ((j.refilled o nodesJoined).size - nodesJoined.length)
    ((j.refilled o nodesJoined).roundPreferredNodes.length +
      (j.refilled o nodesJoined).roundNonPreferredNodes.length) (j.refilled o nodesJoined) []
  rw [JoinSender.selectGroup, hrefilled]
  rw [List.nil_append] at hgroup hlength
  rw [hkept.1, hkept.2] at hlength
  rw [hgroup]
  exact ⟨hdrawn, by simpa using hlength⟩

/-- **`SelectGroup`** hands out nodes that are different from each other, from those that are
left in the pools and from those that were joined. -/
theorem Carries.selectGroup (h : j.Carries localAddress hosts size)
    (hpool : (j.pool ++ nodesJoined).Nodup) (hlocal : localAddress ∉ j.pool) (o : HostOrders)
    (random : ℕ → ℕ)
    (hfresh : j.roundPreferredNodes = [] → j.roundNonPreferredNodes = [] →
      FreshHosts localAddress hosts nodesJoined) :
    ((j.selectGroup o random nodesJoined).1 ++ (j.selectGroup o random nodesJoined).2.pool ++
        nodesJoined).Nodup ∧
      localAddress ∉ (j.selectGroup o random nodesJoined).1 ++
        (j.selectGroup o random nodesJoined).2.pool ∧
      j.Same (j.selectGroup o random nodesJoined).2 := by
  have hdrawn := (j.selectGroup_spec o random nodesJoined).1
  rw [refilled] at hdrawn
  have hperm := hdrawn.pool_perm
  split_ifs at hdrawn hperm with hempty
  · obtain ⟨hpreferred, hnonPreferred⟩ := List.append_eq_nil_iff.1 hempty
    obtain ⟨hnodup, hnew⟩ := (h.init_fresh_iff o nodesJoined hpreferred hnonPreferred).2
      (hfresh hpreferred hnonPreferred)
    refine ⟨(hperm.append_right nodesJoined).nodup_iff.2 ?_, fun hmem => ?_, hdrawn.same⟩
    · exact hnodup.append (List.Nodup.of_append_right hpool) fun x hx hx' => hnew x hx hx'
    · have hmem' := h.mem_pool_init o hpreferred hnonPreferred (hperm.mem_iff.1 hmem)
      simp [joinable] at hmem'
  · exact ⟨(hperm.append_right nodesJoined).nodup_iff.2 hpool,
      fun hmem => hlocal (hperm.mem_iff.1 hmem), hdrawn.same⟩

/-! ### Joining a group -/

theorem address_of_addJoinList {pr : Primitives} {n n' : Node} {b : Batch}
    (h : n.addJoinList pr b = .ok n') : n'.address = n.address := by
  obtain ⟨⟨applied, n₁⟩, hup, h⟩ := exists_of_bind_eq_ok h
  obtain rfl := Except.ok.inj h
  obtain ⟨st, -, -, hn₁⟩ := Node.exists_handled_of_update hup
  exact (Node.handled_handleChanges hn₁).address

/-- **The requests of a group**: each of its nodes was joined or has failed. -/
theorem joinNodes_spec {pr : Primitives} {response : ℕ → Option Batch} {l : List (String × ℕ)}
    {s s' : (List String × List String) × JoinSender}
    (h : l.foldlM (joinNode pr response) s = .ok s') :
    (s'.1.1 ++ s'.1.2).Perm (s.1.1 ++ s.1.2 ++ l.map Prod.fst) ∧ s.2.Same s'.2 ∧
      s'.2.pool = s.2.pool := by
  induction l generalizing s with
  | nil =>
    obtain rfl : s = s' := Except.ok.inj h
    exact ⟨by simp, ⟨rfl, rfl, rfl⟩, rfl⟩
  | cons e l ih =>
    rw [List.foldlM_cons] at h
    obtain ⟨s₁, hone, h⟩ := exists_of_bind_eq_ok h
    obtain ⟨hperm, hsame, hpool⟩ := ih h
    rw [joinNode] at hone
    cases hresponse : response e.2 with
    | none =>
      rw [hresponse] at hone
      obtain rfl := Except.ok.inj hone
      refine ⟨hperm.trans ?_, hsame, hpool⟩
      simp
    | some membership =>
      rw [hresponse] at hone
      obtain ⟨node, hnode, hone⟩ := exists_of_bind_eq_ok hone
      obtain rfl := Except.ok.inj hone
      have haddress : s.2.Same { s.2 with node := node } :=
        ⟨address_of_addJoinList hnode, rfl, rfl⟩
      refine ⟨hperm.trans ?_, haddress.trans hsame, hpool⟩
      simp only [List.append_assoc, List.map_cons, List.singleton_append]
      exact List.perm_middle.symm.append_left s.1.1

/-- **`JoinGroup`**: the nodes that were joined are different from each other, from those that
are left in the pools and from those that were joined before. -/
theorem Carries.joinGroup (h : j.Carries localAddress hosts size) {pr : Primitives}
    {a : JoinAttempt} {r : List String × List String}
    (hpool : (j.pool ++ nodesJoined).Nodup) (hlocal : localAddress ∉ j.pool)
    (hfresh : j.roundPreferredNodes = [] → j.roundNonPreferredNodes = [] →
      FreshHosts localAddress hosts nodesJoined)
    (hgroup : j.joinGroup pr a nodesJoined = .ok (r, j')) :
    (j'.pool ++ (nodesJoined ++ r.1)).Nodup ∧ localAddress ∉ j'.pool ++ r.1 ∧ j.Same j' := by
  obtain ⟨hnodup, hlocal', hsame⟩ := h.selectGroup hpool hlocal a.orders a.random hfresh
  rw [JoinSender.joinGroup] at hgroup
  generalize j.selectGroup a.orders a.random nodesJoined = selected at hnodup hlocal' hsame hgroup
  obtain ⟨group, j₁⟩ := selected
  obtain ⟨hperm, hsame', hpool'⟩ := joinNodes_spec hgroup
  rw [List.zipIdx_map_fst] at hperm
  have hgroup' : (r.1 ++ r.2).Perm group := hperm.trans (a.finish.perm group)
  have hpool'' : j'.pool = j₁.pool := hpool'
  rw [hpool'']
  refine ⟨?_, fun hmem => ?_, hsame.trans hsame'⟩
  · have hall := ((hgroup'.append_right j₁.pool).append_right nodesJoined).nodup_iff.2 hnodup
    have hsub : (r.1 ++ (j₁.pool ++ nodesJoined)).Sublist
        (r.1 ++ r.2 ++ j₁.pool ++ nodesJoined) := by
      rw [List.append_assoc, List.append_assoc]
      exact (List.sublist_append_right r.2 _).append_left r.1
    rw [← List.append_assoc]
    exact List.perm_append_comm.nodup_iff.1 (hall.sublist hsub)
  · refine hlocal' ?_
    rcases List.mem_append.1 hmem with hmem | hmem
    · exact List.mem_append_right _ hmem
    · exact List.mem_append_left _ (hgroup'.mem_iff.1 (List.mem_append_left _ hmem))

end JoinSender

/-! ### The loop -/

/-- What holds each time round the loop: the nodes in the pools and those that were joined are
all different, and the local node is not among them. -/
structure Joining.Distinct (localAddress : String) (hosts : List String) (size : ℤ) (s : Joining) :
    Prop where
  carries : s.sender.Carries localAddress hosts size
  nodup : (s.sender.pool ++ s.nodesJoined).Nodup
  localAddress : localAddress ∉ s.sender.pool ++ s.nodesJoined
  numJoined : s.numJoined = s.nodesJoined.length

section loop

variable {pr : Primitives} {localAddress : String} {hosts : List String} {size : ℤ}
  {s s' : Joining} {a : JoinAttempt}

/-- **A group more**, when the pools were filled only with what is fresh. -/
theorem Joining.Distinct.joinGroup (h : s.Distinct localAddress hosts size)
    (hfresh : RefillsFresh localAddress hosts s a) (ha : a.destroyed = false)
    {r : List String × List String} {j : JoinSender}
    (hgroup : s.sender.joinGroup pr a s.nodesJoined = .ok (r, j)) :
    Joining.Distinct localAddress hosts size
      ⟨j, s.nodesJoined ++ r.1, s.numJoined + r.1.length⟩ := by
  have hlocal := h.localAddress
  rw [List.mem_append, not_or] at hlocal
  obtain ⟨hnodup, hlocal', hsame⟩ := h.carries.joinGroup h.nodup hlocal.1 (hfresh ha) hgroup
  refine ⟨h.carries.of_same hsame, hnodup, ?_, ?_⟩
  · rw [List.mem_append, not_or] at hlocal'
    simp [hlocal'.1, hlocal'.2, hlocal.2]
  · rw [List.length_append, h.numJoined]

/-- **One time round the loop**: it goes on, or it returns nodes that are different. -/
theorem Joining.Distinct.step (h : s.Distinct localAddress hosts size)
    (hfresh : RefillsFresh localAddress hosts s a) :
    (∀ s', s.step pr a = .ok s' → s'.Distinct localAddress hosts size) ∧
      ∀ nodesJoined sender, s.step pr a = .error (.returned nodesJoined none sender) →
        nodesJoined.Nodup ∧ size ≤ nodesJoined.length ∧ localAddress ∉ nodesJoined := by
  have hspec := s.step_spec pr a
  refine ⟨fun s' hs' => ?_, fun nodesJoined sender hret => ?_⟩
  · rw [hs'] at hspec
    cases hspec with
    | again ha hgroup => exact h.joinGroup hfresh ha hgroup
  · rw [hret] at hspec
    cases hspec with
    | complete ha hgroup hsize =>
      have hnext := h.joinGroup hfresh ha hgroup
      have hlocal := hnext.localAddress
      rw [List.mem_append, not_or] at hlocal
      refine ⟨List.Nodup.of_append_right hnext.nodup, ?_, hlocal.2⟩
      have hcount := hnext.numJoined
      rw [← hnext.carries.size, ← hcount]
      exact hsize

/-- A new join sender has empty pools, and joins not more nodes than there are. -/
theorem new_spec {node : Node} {opts : JoinOpts} {o : HostOrders} {j : JoinSender}
    (hhosts : opts.discoverProvider = some (.ok hosts))
    (hnew : JoinSender.new node opts o = .ok j) :
    Joining.Distinct node.address hosts j.size ⟨j, [], 0⟩ ∧
      j.size ≤ (j.collectPotentialNodes o []).length := by
  rw [JoinSender.new, hhosts] at hnew
  dsimp only at hnew
  split_ifs at hnew with hempty
  obtain rfl := Except.ok.inj hnew
  obtain ⟨hgrouped, hvalues⟩ := hostPortsByHost_spec hosts
  exact ⟨⟨⟨rfl, hgrouped, hvalues, rfl⟩, List.nodup_nil, List.not_mem_nil, rfl⟩, min_le_right _ _⟩

/-- A cluster of a single node has the local node in its map. -/
theorem values_of_singleNodeCluster {hostMap : Groups String String}
    (h : singleNodeCluster localAddress hostMap = true) : hostMap.values = [localAddress] := by
  rw [singleNodeCluster] at h
  split_ifs at h with hlength
  cases hostMap with
  | nil => cases h
  | cons e rest =>
    obtain rfl : rest = [] := List.eq_nil_of_length_eq_zero (by simpa using hlength)
    obtain ⟨host, hostports⟩ := e
    by_cases hhost : host = captureHost localAddress
    · rw [List.find?_cons_of_pos (by simpa using hhost)] at h
      dsimp only at h
      split_ifs at h with hports
      cases hostports with
      | nil => cases h
      | cons hostport rest =>
        obtain rfl : rest = [] := List.eq_nil_of_length_eq_zero (by simpa using hports)
        simpa [Groups.values] using h
    · rw [List.find?_cons_of_neg (by simpa using hhost)] at h
      cases h

/-- There is nobody to join in a cluster of a single node. -/
theorem joinable_of_singleNodeCluster {j : JoinSender} (h : j.Carries localAddress hosts size)
    (hsingle : singleNodeCluster j.node.address j.bootstrapHostsMap = true) :
    joinable localAddress hosts = [] := by
  have hvalues := h.values
  rw [values_of_singleNodeCluster hsingle, h.address] at hvalues
  rw [joinable, List.perm_singleton.1 hvalues.symm]
  simp

end loop

/-- **The nodes that are joined are distinct.**  For all bootstrap hosts and options, and
however the attempts of the join turn out: if each time that the pools are filled the hosts
are fresh, `JoinCluster` returns without an error only when it has joined at least `size`
nodes, which are all different, and none of them the local node; and no `SelectGroup` hands
out a node twice, or one that was joined. -/
theorem join_cluster_distinct (pr : Primitives) (node : Node) (opts : JoinOpts) (o : HostOrders)
    (hosts : List String) (j : JoinSender) (attempts : List JoinAttempt)
    (hhosts : opts.discoverProvider = some (.ok hosts)) (hnew : JoinSender.new node opts o = .ok j)
    (hfresh : Along (Joining.step pr) (RefillsFresh node.address hosts) ⟨j, [], 0⟩ attempts) :
    (∀ nodesJoined sender,
      j.joinCluster pr attempts = .error (.returned nodesJoined none sender) →
        nodesJoined.Nodup ∧ j.size ≤ nodesJoined.length ∧ node.address ∉ nodesJoined) ∧
    ∀ pre a post s, attempts = pre ++ a :: post → pre.foldlM (Joining.step pr) ⟨j, [], 0⟩ = .ok s →
      a.destroyed = false →
        (s.sender.selectGroup a.orders a.random s.nodesJoined).1.Nodup ∧
        ∀ x ∈ (s.sender.selectGroup a.orders a.random s.nodesJoined).1,
          x ∉ s.nodesJoined ∧ x ≠ node.address := by
  obtain ⟨hstart, hpotential⟩ := new_spec hhosts hnew
  have hstep (s : Joining) (a : JoinAttempt) (s' : Joining)
      (hs : s.Distinct node.address hosts j.size) (ha : RefillsFresh node.address hosts s a)
      (hs' : s.step pr a = .ok s') : s'.Distinct node.address hosts j.size :=
    (hs.step ha).1 s' hs'
  constructor
  · intro nodesJoined sender hret
    rw [JoinSender.joinCluster] at hret
    split_ifs at hret with hsingle
    · obtain ⟨rfl, -, -⟩ := JoinEnd.returned.inj (Except.error.inj hret)
      have hnobody := (hstart.carries.collectPotentialNodes o []).length_eq
      rw [joinable_of_singleNodeCluster hstart.carries hsingle] at hnobody
      rw [hnobody] at hpotential
      exact ⟨List.nodup_nil, hpotential, List.not_mem_nil⟩
    · obtain ⟨s, a, -, hs, ha, herror⟩ := hfresh.exists_of_error hstep hstart hret
      exact (hs.step ha).2 nodesJoined sender herror
  · rintro pre a post s rfl hpre ha
    have hs := hfresh.append_left.invariant hstep hstart hpre
    have hlocal := hs.localAddress
    rw [List.mem_append, not_or] at hlocal
    obtain ⟨hnodup, hlocal', -⟩ := hs.carries.selectGroup hs.nodup hlocal.1 a.orders a.random
      ((hfresh.append_right hpre).head ha)
    rw [List.append_assoc] at hnodup
    obtain ⟨hgroup, -, hdisjoint⟩ := List.nodup_append.1 hnodup
    refine ⟨hgroup, fun x hx => ⟨fun hx' => ?_, ?_⟩⟩
    · exact hdisjoint x hx x (List.mem_append_right _ hx') rfl
    · rintro rfl
      exact hlocal' (List.mem_append_left _ hx)

/-- The nodes with which `JoinCluster` returns without an error. -/
def joinedBy : Except JoinEnd Joining → Option (List String)
  | .error (.returned nodesJoined none _) => some nodesJoined
  | _ => none

theorem exists_of_joinedBy {r : Except JoinEnd Joining} {nodesJoined : List String}
    (h : joinedBy r = some nodesJoined) :
    ∃ sender, r = .error (.returned nodesJoined none sender) := by
  rw [joinedBy.eq_def] at h
  split at h
  · obtain rfl := Option.some.inj h
    exact ⟨_, rfl⟩
  · cases h

/-- An attempt in which the requests end in the order of the hosts, with the given
responses. -/
def JoinAttempt.responding (response : ℕ → Option Batch) : JoinAttempt :=
  ⟨false, ⟨.asIs, .asIs⟩, fun _ => 0, .asIs, response, 0⟩

/-- Three bootstrap hosts, each on a machine of its own, of which two are to be joined. -/
def JoinOpts.two : JoinOpts := ⟨2, 0, 0, some (.ok ["h1:1", "h2:1", "h3:1"])⟩

/-- The node that is bootstrapped. -/
def newNode : Option Node :=
  ((Node.new "app" "h1:1").reincarnate ⟨fun _ => 0, fun _ => 1⟩ 5 5
    fun _ => ⟨5, 0⟩).toOption.map Prod.snd

/-- Both of the others are joined. -/
theorem join_cluster_distinct_two :
    ∃ node j nodesJoined sender, JoinSender.new node .two ⟨.asIs, .asIs⟩ = .ok j ∧
      j.joinCluster ⟨fun _ => 0, fun _ => 1⟩ [.responding fun i =>
        some (.single (if i = 0 then "h2:1" else "h3:1") alive)] =
          .error (.returned nodesJoined none sender) ∧
      2 ≤ (nodesJoined.length : ℤ) ∧ nodesJoined.Nodup := by
  have heval : (do
      let node ← newNode
      let j ← (JoinSender.new node .two ⟨.asIs, .asIs⟩).toOption
      let nodesJoined ← joinedBy (j.joinCluster ⟨fun _ => 0, fun _ => 1⟩ [.responding fun i =>
        some (.single (if i = 0 then "h2:1" else "h3:1") alive)])
      return decide (j.size = 2 ∧ Along (Joining.step ⟨fun _ => 0, fun _ => 1⟩)
        (RefillsFresh node.address ["h1:1", "h2:1", "h3:1"]) ⟨j, [], 0⟩ [.responding fun i =>
          some (.single (if i = 0 then "h2:1" else "h3:1") alive)])) = some true := by
    decide +kernel
  obtain ⟨node, -, heval⟩ := Option.bind_eq_some_iff.1 heval
  obtain ⟨j, hnew, heval⟩ := Option.bind_eq_some_iff.1 heval
  obtain ⟨nodesJoined, hjoined, heval⟩ := Option.bind_eq_some_iff.1 heval
  obtain ⟨hsize, hfresh⟩ := of_decide_eq_true (Option.some.inj heval)
  obtain ⟨sender, hret⟩ := exists_of_joinedBy hjoined
  have hnew' := toOption_eq_some_iff.1 hnew
  obtain ⟨hnodup, hlength, -⟩ := (join_cluster_distinct _ _ _ _ _ _ _ rfl hnew' hfresh).1
    nodesJoined sender hret
  rw [hsize] at hlength
  exact ⟨node, j, nodesJoined, sender, hnew', hret, hlength, hnodup⟩

/-- **A node is joined twice**: one of the two requests of each attempt fails, and the pools are
filled in between. -/
theorem joined_twice :
    ∃ node j sender, node.address = "h1:1" ∧
      JoinSender.new node .two ⟨.asIs, .asIs⟩ = .ok j ∧ j.size = 2 ∧
      j.joinCluster ⟨fun _ => 0, fun _ => 1⟩
        [.responding fun i => if i = 0 then some (.single "h2:1" alive) else none,
          .responding fun i => if i = 0 then some (.single "h2:1" alive) else none] =
        .error (.returned ["h2:1", "h2:1"] none sender) := by
  have heval : (do
      let node ← newNode
      let j ← (JoinSender.new node .two ⟨.asIs, .asIs⟩).toOption
      let nodesJoined ← joinedBy (j.joinCluster ⟨fun _ => 0, fun _ => 1⟩
        [.responding fun i => if i = 0 then some (.single "h2:1" alive) else none,
          .responding fun i => if i = 0 then some (.single "h2:1" alive) else none])
      return decide (node.address = "h1:1" ∧ j.size = 2 ∧ nodesJoined = ["h2:1", "h2:1"])) =
        some true := by
    decide +kernel
  obtain ⟨node, -, heval⟩ := Option.bind_eq_some_iff.1 heval
  obtain ⟨j, hnew, heval⟩ := Option.bind_eq_some_iff.1 heval
  obtain ⟨nodesJoined, hjoined, heval⟩ := Option.bind_eq_some_iff.1 heval
  obtain ⟨haddress, hsize, rfl⟩ := of_decide_eq_true (Option.some.inj heval)
  obtain ⟨sender, hret⟩ := exists_of_joinedBy hjoined
  exact ⟨node, j, sender, haddress, toOption_eq_some_iff.1 hnew, hsize, hret⟩

end Swim
end Ringpop
