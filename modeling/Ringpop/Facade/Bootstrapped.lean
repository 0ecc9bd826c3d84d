/-
# What a node knows when it is bootstrapped

`Node.Bootstrap` makes the node alive in its own list, joins the cluster through some of its
seeds, and takes their member lists.  The lists arrive in any order, over any number of
attempts, and may differ from each other.

What comes out is the least upper bound: of each address but its own, the node holds the
largest of what it held before and of what the seeds that it joined held
(`bootstrap_learns`).  Nothing of it is gossiped further, the node only becomes ready if it
has joined, and it goes on joining only as long as `maxJoinDuration` allows.

Which requests were answered, and with what, is read off the attempts (`GossipNode.answers`),
not off what `JoinGroup` makes of them, so that each seed is paired with its own answer.  The
seeds answer as `handleJoin` does.  Of the own address nothing is said: a seed may have other
news of it (`Ringpop.Swim.Leaving`, `Ringpop.Swim.Refutation`).
-/

import Ringpop.Facade.Lifecycle
import Ringpop.Swim.Stages

namespace Ringpop
namespace Swim

/-! ### Answers -/

/-- The requests to the nodes of a group that were answered, each with its own response. -/
def JoinAttempt.answers (a : JoinAttempt) (group : List String) : List (String × Batch) :=
  (a.finish.arrange group).zipIdx.filterMap fun e => (a.response e.2).map (e.1, ·)

namespace Joining

/-- The answers that the next attempt gets. -/
def answered (s : Joining) (a : JoinAttempt) : List (String × Batch) :=
  if a.destroyed then []
  else a.answers (s.sender.selectGroup a.orders a.random s.nodesJoined).1

/-- The answers that the attempts get, up to the one with which the loop ends. -/
def answers (pr : Primitives) (s : Joining) : List JoinAttempt → List (String × Batch)
  | [] => []
  | a :: attempts => s.answered a ++
      match s.step pr a with
      | .ok s' => s'.answers pr attempts
      | .error _ => []

end Joining
end Swim

namespace Facade

open CellStore Runs Swim

/-! ### Seeds -/

/-- The list is what the node has answered to a join request. -/
structure AnsweredBy (m : Node) (b : Batch) : Prop where
  sound : m.Sound
  valid : View.Valid m.memberlist.entry
  accepted : ∃ req res, (m.handleJoin req).1 = .ok res ∧ b.changes = res.membership

/-- The largest of what the seeds hold of an address. -/
def known (seeds : List (String × Node)) (x : String) : WithBot Rank :=
  seeds.foldr (fun e r => View.rank e.2.memberlist.entry x ⊔ r) ⊥

theorem known_append (seeds seeds' : List (String × Node)) (x : String) :
    known (seeds ++ seeds') x = known seeds x ⊔ known seeds' x := by
  induction seeds with
  | nil => exact (bot_sup_eq _).symm
  | cons e seeds ih =>
    rw [List.cons_append, known, List.foldr_cons]
    exact (congrArg _ ih).trans (sup_assoc _ _ _).symm

/-- The changes of a full sync amount to the member list it is made from. -/
theorem sup_fullSync {m : Node} (hm : m.Sound) (x : String) :
    m.fullSync.toFinset.sup (Change.rankFor x) = View.rank m.memberlist.entry x := by
  apply le_antisymm
  · refine Finset.sup_le fun c hc => ?_
    rw [Change.rankFor]
    split_ifs with hcx
    · rw [View.rank, ← hcx, Node.mem_fullSync hm (List.mem_toFinset.1 hc)]
      exact le_rfl
    · exact bot_le
  · cases hx : m.memberlist.entry x with
    | none =>
      rw [View.rank, hx]
      exact bot_le
    | some member =>
      obtain ⟨c, hc, rfl⟩ := Node.mem_fullSync_of_entry hm hx
      have haddress : c.address = x := hm.memberlist.address_eq hx
      have hle := Finset.le_sup (f := Change.rankFor x) (List.mem_toFinset.2 hc)
      rw [Change.rankFor, if_pos haddress] at hle
      rw [View.rank, hx]
      exact hle

namespace AnsweredBy

variable {m : Node} {b : Batch}

theorem changes_eq (h : AnsweredBy m b) : b.changes = m.fullSync := by
  obtain ⟨req, res, hres, hb⟩ := h.accepted
  rw [hb, Node.membership_of_handleJoin hres]

theorem validStatus (h : AnsweredBy m b) : ∀ c ∈ b.changes, ValidStatus c.status := by
  intro c hc
  rw [h.changes_eq] at hc
  exact h.valid _ _ (Node.mem_fullSync h.sound hc)

end AnsweredBy

/-! ### What is learned -/

/-- `n'` is the node `n` with the member lists of the seeds. -/
structure Learned (n : Node) (seeds : List (String × Node)) (n' : Node) : Prop where
  address : n'.address = n.address
  stopped : n'.stopped = n.stopped
  ready : n'.ready = n.ready
  rank : ∀ x ≠ n.address,
    View.rank n'.memberlist.entry x = View.rank n.memberlist.entry x ⊔ known seeds x
  pending : ∀ x ≠ n.address,
    n'.disseminator.entry x = none ∨ n'.disseminator.entry x = n.disseminator.entry x

section learned

variable {pr : Primitives} {n n₁ n' : Node} {seeds seeds' : List (String × Node)}

theorem Learned.refl (n : Node) : Learned n [] n where
  address := rfl
  stopped := rfl
  ready := rfl
  rank := fun _ _ => (sup_bot_eq _).symm
  pending := fun _ _ => .inr rfl

theorem Learned.trans (h : Learned n seeds n₁) (h' : Learned n₁ seeds' n') :
    Learned n (seeds ++ seeds') n' where
  address := h'.address.trans h.address
  stopped := h'.stopped.trans h.stopped
  ready := h'.ready.trans h.ready
  rank := fun x hx => by
    rw [h'.rank x (by rwa [h.address]), h.rank x hx, known_append, sup_assoc]
  pending := fun x hx => by
    rcases h'.pending x (by rwa [h.address]) with hnone | hsame
    · exact .inl hnone
    · rw [hsame]
      exact h.pending x hx

/-- **A join list** of a seed. -/
theorem exists_addJoinList {m : Node} {b : Batch} (hn : n.Live) (hrunning : n.stopped = false)
    (hb : AnsweredBy m b) (pr : Primitives) (address : String) :
    ∃ n', n.addJoinList pr b = .ok n' ∧ n'.Live ∧ Learned n [(address, m)] n' := by
  obtain ⟨applied, n₁, hup, hlive⟩ := hn.update pr hb.validStatus
  have he := Node.effect_update hn.sound hup
  obtain ⟨s, hrun, -, hrank⟩ := View.rank_run (hn.sound.memberlist.view hn.valid) n.address
    b.choices hb.validStatus
  have hview := he.run
  rw [hrunning, if_neg Bool.false_ne_true, hrun] at hview
  obtain rfl := Except.ok.inj hview
  have hjoin : n.addJoinList pr b = .ok { n₁ with
      disseminator := applied.foldl (fun (d : Disseminator) member =>
        if member.address = n₁.address then d else d.clearChange member.address)
          n₁.disseminator } := by
    rw [Node.addJoinList, hup]
    rfl
  refine ⟨_, hjoin, hlive.congr rfl rfl, he.address, he.stopped, he.ready, ?_, ?_⟩
  · intro x hx
    have hknown : known [(address, m)] x = View.rank m.memberlist.entry x := sup_bot_eq _
    rw [hknown, ← sup_fullSync hb.sound, ← hb.changes_eq]
    exact hrank x hx
  · intro x hx
    dsimp only
    rw [Disseminator.entry_foldl_clearChange, he.address]
    by_cases happlied : ∃ c ∈ applied, c.address = x
    · exact .inl (if_pos ⟨hx, happlied⟩)
    · rw [if_neg (fun h => happlied h.2), he.entry]
      exact .inr (Disseminator.recorded_of_address_ne (fun c hc hcx => happlied ⟨c, hc, hcx⟩) _)

/-- **`Reincarnate`** only has news of the node itself. -/
theorem exists_reincarnate (hn : n.Sound) (hvalid : View.Valid n.memberlist.entry)
    (pr : Primitives) (now timeNowMS : ℤ) (choices : ℕ → Choice) :
    ∃ applied n', n.reincarnate pr now timeNowMS choices = .ok (applied, n') ∧ n'.Live ∧
      Learned n [] n' := by
  obtain ⟨applied, n', hmake, hlive⟩ := hn.exists_makeStatus hvalid (validStatus_name .alive) pr
    timeNowMS choices n.address now
  obtain ⟨-, i, he⟩ := Node.effect_makeStatus hn hmake
  have hother (x : String) (hx : x ≠ n.address) :
      n'.memberlist.entry x = n.memberlist.entry x ∧ ∀ c ∈ applied, c.address ≠ x := by
    refine View.run_of_address_ne he.run fun c hc => ?_
    split_ifs at hc
    · cases hc
    · rw [List.mem_singleton.1 hc]
      exact hx.symm
  refine ⟨applied, n', hmake, hlive, he.address, he.stopped, he.ready, fun x hx => ?_,
    fun x hx => .inr ?_⟩
  · rw [View.rank, (hother x hx).1]
    exact (sup_bot_eq _).symm
  · rw [he.entry]
    exact Disseminator.recorded_of_address_ne (hother x hx).2 _

end learned

/-- Each of the answers has been given by the seed at its address. -/
def Gave (seeds : List (String × Node)) (answers : List (String × Batch)) : Prop :=
  List.Forall₂ (fun e r => e.1 = r.1 ∧ AnsweredBy e.2 r.2) seeds answers

theorem Gave.exists_append {seeds : List (String × Node)} {answers answers' : List (String × Batch)}
    (h : Gave seeds (answers ++ answers')) :
    ∃ seeds₁ seeds₂, seeds = seeds₁ ++ seeds₂ ∧ Gave seeds₁ answers ∧ Gave seeds₂ answers' :=
  ⟨_, _, (List.take_append_drop answers.length seeds).symm, List.forall₂_take_append _ _ _ h,
    List.forall₂_drop_append _ _ _ h⟩

/-! ### Joining -/

section join

variable {pr : Primitives} {n : Node} {a : JoinAttempt} {seeds seeds₀ : List (String × Node)}

theorem selectLoop_maxJoinDuration (random : ℕ → ℕ) (numNodesLeft : ℤ) (fuel : ℕ) (j : JoinSender)
    (group : List String) :
    (JoinSender.selectLoop random numNodesLeft fuel j group).2.maxJoinDuration =
      j.maxJoinDuration := by
  induction fuel generalizing j group with
  | zero => rfl
  | succ fuel ih =>
    rw [JoinSender.selectLoop]
    split_ifs
    · rfl
    · rw [ih]
    · rw [ih]
    · rfl

theorem selectGroup_maxJoinDuration (j : JoinSender) (o : HostOrders) (random : ℕ → ℕ)
    (nodesJoined : List String) :
    (j.selectGroup o random nodesJoined).2.maxJoinDuration = j.maxJoinDuration := by
  rw [JoinSender.selectGroup, selectLoop_maxJoinDuration]
  split_ifs <;> rfl

theorem maxJoinDuration_of_new {opts : JoinOpts} {o : HostOrders} {j : JoinSender}
    (h : JoinSender.new n opts o = .ok j) :
    j.maxJoinDuration = selectInt opts.maxJoinDuration 120000000000 := by
  rw [JoinSender.new] at h
  split at h
  · cases h
  · cases h
  · split_ifs at h
    obtain rfl := Except.ok.inj h
    rfl

/-- **The requests end** one after the other: the node takes the list of each seed that
answers. -/
theorem exists_joinNode (pr : Primitives) {response : ℕ → Option Batch} {l : List (String × ℕ)}
    {s : (List String × List String) × JoinSender} (hlive : s.2.node.Live)
    (hrunning : s.2.node.stopped = false)
    (hseeds : Gave seeds (l.filterMap fun e => (response e.2).map (e.1, ·))) :
    ∃ failures j, l.foldlM (JoinSender.joinNode pr response) s =
        .ok ((s.1.1 ++ seeds.map Prod.fst, failures), j) ∧
      j.maxJoinDuration = s.2.maxJoinDuration ∧ j.node.Live ∧ Learned s.2.node seeds j.node := by
  induction l generalizing s seeds with
  | nil =>
    obtain rfl := List.forall₂_nil_right_iff.1 hseeds
    exact ⟨s.1.2, s.2, by rw [List.map_nil, List.append_nil]; rfl, rfl, hlive, .refl _⟩
  | cons e l ih =>
    cases hresponse : response e.2 with
    | none =>
      rw [List.filterMap_cons, hresponse] at hseeds
      have hone : JoinSender.joinNode pr response s e = .ok ((s.1.1, s.1.2 ++ [e.1]), s.2) := by
        rw [JoinSender.joinNode, hresponse]
        rfl
      rw [foldlM_cons_ok hone]
      exact ih hlive hrunning hseeds
    | some b =>
      rw [List.filterMap_cons, hresponse] at hseeds
      obtain ⟨⟨address, m⟩, seeds, ⟨haddress, hm⟩, hrest, rfl⟩ :=
        List.forall₂_cons_right_iff.1 hseeds
      obtain ⟨node, hnode, hlive', hlearned⟩ := exists_addJoinList hlive hrunning hm pr address
      have hone : JoinSender.joinNode pr response s e =
          .ok ((s.1.1 ++ [e.1], s.1.2), { s.2 with node := node }) := by
        rw [JoinSender.joinNode, hresponse]
        dsimp only
        rw [hnode]
        rfl
      obtain ⟨failures, j, hrun, hmax, hj, hlearned'⟩ := ih
        (s := ((s.1.1 ++ [e.1], s.1.2), { s.2 with node := node })) hlive'
        (hlearned.stopped.trans hrunning) hrest
      refine ⟨failures, j, ?_, hmax, hj, hlearned.trans hlearned'⟩
      rw [foldlM_cons_ok hone, hrun, List.append_assoc]
      dsimp only at haddress
      rw [List.map_cons, haddress]
      rfl

/-- What holds each time round the loop: the node has the lists of the seeds it has joined. -/
structure Learning (n : Node) (maxJoinDuration : ℤ) (seeds : List (String × Node)) (s : Joining) :
    Prop where
  live : s.sender.node.Live
  learned : Learned n seeds s.sender.node
  joined : s.nodesJoined = seeds.map Prod.fst
  maxJoinDuration : s.sender.maxJoinDuration = maxJoinDuration

/-- The loop has returned, and the node has the lists of the seeds. -/
def Returned (n : Node) (seeds : List (String × Node)) (e : JoinEnd) : Prop :=
  ∃ nodes err sender, e = .returned nodes err sender ∧ (err = none → nodes = seeds.map Prod.fst) ∧
    Learned n seeds sender.node

/-- **A group is joined.** -/
theorem Learning.exists_joinGroup {maxJoinDuration : ℤ} {s : Joining}
    (hs : Learning n maxJoinDuration seeds₀ s) (hrunning : n.stopped = false)
    (ha : a.destroyed = false) (hseeds : Gave seeds (s.answered a)) (pr : Primitives) :
    ∃ failures j, s.sender.joinGroup pr a s.nodesJoined = .ok ((seeds.map Prod.fst, failures), j) ∧
      j.maxJoinDuration = maxJoinDuration ∧ j.node.Live ∧ Learned n (seeds₀ ++ seeds) j.node := by
  have hnode := selectGroup_node s.sender a.orders a.random s.nodesJoined
  have hmax := selectGroup_maxJoinDuration s.sender a.orders a.random s.nodesJoined
  rw [Joining.answered, ha, if_neg Bool.false_ne_true] at hseeds
  rw [JoinSender.joinGroup]
  generalize s.sender.selectGroup a.orders a.random s.nodesJoined = selected at hnode hmax hseeds ⊢
  obtain ⟨group, j₁⟩ := selected
  dsimp only at hnode hmax hseeds ⊢
  obtain ⟨failures, j, hrun, hmax', hlive, hlearned⟩ := exists_joinNode pr
    (s := (([], []), { j₁ with
      numTries := j₁.numTries + 1, emitted := j₁.emitted ++ [.triesUpdate (j₁.numTries + 1)] }))
    (hnode ▸ hs.live) (hnode ▸ hs.learned.stopped.trans hrunning) hseeds
  rw [hnode] at hlearned
  exact ⟨failures, j, hrun, hmax'.trans (hmax.trans hs.maxJoinDuration), hlive,
    hs.learned.trans hlearned⟩

/-- **One attempt**: the loop goes on if there is time left, and it does not end in a fault. -/
theorem Learning.step {maxJoinDuration : ℤ} {s : Joining}
    (hs : Learning n maxJoinDuration seeds₀ s) (hrunning : n.stopped = false)
    (hseeds : Gave seeds (s.answered a)) (pr : Primitives) :
    (∀ s', s.step pr a = .ok s' →
      Learning n maxJoinDuration (seeds₀ ++ seeds) s' ∧ a.joinDuration ≤ maxJoinDuration) ∧
    ∀ e, s.step pr a = .error e → Returned n (seeds₀ ++ seeds) e := by
  rw [Joining.step]
  cases ha : a.destroyed with
  | true =>
    rw [Joining.answered, ha, if_pos rfl] at hseeds
    obtain rfl := List.forall₂_nil_right_iff.1 hseeds
    refine ⟨(fun s' hs' => by cases hs'), fun e he => ?_⟩
    obtain rfl := Except.error.inj he
    rw [List.append_nil]
    exact ⟨_, _, _, rfl, (fun herr => by cases herr), hs.learned⟩
  | false =>
    obtain ⟨failures, j, hgroup, hmax, hlive, hlearned⟩ := hs.exists_joinGroup hrunning ha hseeds pr
    have hjoined : s.nodesJoined ++ seeds.map Prod.fst = (seeds₀ ++ seeds).map Prod.fst := by
      rw [hs.joined, List.map_append]
    rw [hgroup]
    simp only [Bool.false_eq_true, if_false, Except.mapError, Bind.bind, Except.bind]
    split_ifs with hsize hduration
    · refine ⟨(fun s' hs' => by cases hs'), fun e he => ?_⟩
      obtain rfl := Except.error.inj he
      exact ⟨_, _, _, rfl, fun _ => hjoined, hlearned⟩
    · refine ⟨(fun s' hs' => by cases hs'), fun e he => ?_⟩
      obtain rfl := Except.error.inj he
      exact ⟨_, _, _, rfl, fun _ => hjoined, hlearned⟩
    · refine ⟨fun s' hs' => ?_, fun e he => by cases he⟩
      obtain rfl := Except.ok.inj hs'
      rw [hmax, not_lt] at hduration
      exact ⟨⟨hlive, hlearned, hjoined, hmax⟩, hduration⟩

/-- **The attempts**, one after the other. -/
theorem Learning.run {maxJoinDuration : ℤ} {s : Joining} {attempts : List JoinAttempt}
    (hs : Learning n maxJoinDuration seeds₀ s) (hrunning : n.stopped = false)
    (hseeds : Gave seeds (s.answers pr attempts)) :
    (∀ s', attempts.foldlM (Joining.step pr) s = .ok s' →
      ∀ a ∈ attempts, a.joinDuration ≤ maxJoinDuration) ∧
    ∀ e, attempts.foldlM (Joining.step pr) s = .error e → Returned n (seeds₀ ++ seeds) e := by
  induction attempts generalizing s seeds₀ seeds with
  | nil => exact ⟨(fun s' _ a ha => by cases ha), fun e he => by cases he⟩
  | cons a attempts ih =>
    rw [Joining.answers] at hseeds
    obtain ⟨seeds₁, seeds₂, rfl, hseeds₁, hseeds₂⟩ := hseeds.exists_append
    obtain ⟨hok, herror⟩ := hs.step hrunning hseeds₁ pr
    cases hstep : s.step pr a with
    | error e =>
      rw [hstep] at hseeds₂
      obtain rfl := List.forall₂_nil_right_iff.1 hseeds₂
      rw [List.foldlM_cons, hstep, List.append_nil]
      refine ⟨(fun s' hs' => by cases hs'), fun e' he => ?_⟩
      obtain rfl := Except.error.inj he
      exact herror _ hstep
    | ok s₁ =>
      rw [hstep] at hseeds₂
      obtain ⟨hs₁, htime⟩ := hok s₁ hstep
      obtain ⟨hok', herror'⟩ := ih hs₁ hseeds₂
      rw [foldlM_cons_ok hstep]
      refine ⟨fun s' hs' => List.forall_mem_cons.2 ⟨htime, hok' s' hs'⟩, fun e he => ?_⟩
      rw [← List.append_assoc]
      exact herror' e he

/-- The answers to a join. -/
def joinAnswers (pr : Primitives) (n : Node) (opts : JoinOpts) (o : HostOrders)
    (attempts : List JoinAttempt) : List (String × Batch) :=
  match JoinSender.new n opts o with
  | .error _ => []
  | .ok joiner =>
      if singleNodeCluster joiner.node.address joiner.bootstrapHostsMap then []
      else Joining.answers pr ⟨joiner, [], 0⟩ attempts

/-- **The join** of a node that is running is still going on, with time left after each attempt,
or the node has the lists of the seeds, and they are those it has joined. -/
theorem sendJoin_learns (hn : n.Live) (hrunning : n.stopped = false) (opts : JoinOpts)
    (o : HostOrders) {attempts : List JoinAttempt}
    (hseeds : Gave seeds (joinAnswers pr n opts o attempts)) :
    (sendJoin pr n opts o attempts = .error .outOfFuel ∧
      ∀ a ∈ attempts, a.joinDuration ≤ selectInt opts.maxJoinDuration 120000000000) ∨
    ∃ result n', sendJoin pr n opts o attempts = .ok (result, n') ∧
      (∀ joined, result = .ok joined → joined = seeds.map Prod.fst) ∧ Learned n seeds n' := by
  rw [joinAnswers] at hseeds
  rw [sendJoin]
  cases hnew : JoinSender.new n opts o with
  | error err =>
    rw [hnew] at hseeds
    obtain rfl := List.forall₂_nil_right_iff.1 hseeds
    exact .inr ⟨_, n, rfl, (fun joined h => by cases h), .refl n⟩
  | ok joiner =>
    rw [hnew] at hseeds
    dsimp only at hseeds ⊢
    rw [JoinSender.joinCluster]
    have hnode : joiner.node = n := node_of_new hnew
    split_ifs at hseeds ⊢ with hsingle
    · obtain rfl := List.forall₂_nil_right_iff.1 hseeds
      refine .inr ⟨_, _, rfl, fun joined h => (Except.ok.inj h).symm, ?_⟩
      rw [hnode]
      exact .refl n
    · have hstart : Learning n (selectInt opts.maxJoinDuration 120000000000) [] ⟨joiner, [], 0⟩ :=
        ⟨hnode ▸ hn, hnode ▸ .refl n, rfl, maxJoinDuration_of_new hnew⟩
      obtain ⟨hok, herror⟩ := hstart.run hrunning hseeds
      cases hrun : attempts.foldlM (Joining.step pr) ⟨joiner, [], 0⟩ with
      | ok s => exact .inl ⟨rfl, hok s hrun⟩
      | error e =>
        obtain ⟨nodes, err, sender, rfl, hjoined, hlearned⟩ := herror e hrun
        cases err with
        | some err => exact .inr ⟨_, _, rfl, (fun joined h => by cases h), hlearned⟩
        | none =>
          exact .inr ⟨_, _, rfl, fun joined h => (Except.ok.inj h).symm.trans (hjoined rfl),
            hlearned⟩

end join

/-! ### Bootstrapping -/

/-- The answers to the join requests of `Bootstrap`. -/
def GossipNode.answers (pr : Primitives) (n : GossipNode) (opts : Option BootstrapOptions)
    (call : BootstrapCall) : List (String × Batch) :=
  if n.channel = false then []
  else
    let opts := opts.getD .zero
    match resolveDiscoverProvider opts call.fileHosts,
        n.toNode.reincarnate pr call.now call.timeNowMS call.choices with
    | .ok discoverProvider, .ok (_, node) => joinAnswers pr node
        ⟨opts.joinSize, opts.maxJoinDuration, opts.parallelismFactor, some discoverProvider⟩
        call.orders
        ((call.attempt :: call.attempts).map fun a => { a with destroyed := n.destroyed })
    | _, _ => []

section bootstrap

variable {pr : Primitives} {n : GossipNode} {opts : Option BootstrapOptions} {call : BootstrapCall}
  {seeds : List (String × Node)}

/-- **`Bootstrap`** leaves the member list and the pending changes as the join does. -/
theorem exists_bootstrap (hn : n.toNode.Sound) (hvalid : View.Valid n.memberlist.entry)
    (hrunning : n.stopped = false) (hseeds : Gave seeds (n.answers pr opts call)) :
    (n.bootstrap pr opts call = .error .outOfFuel ∧ ∀ a ∈ call.attempt :: call.attempts,
      a.joinDuration ≤ selectInt (opts.getD .zero).maxJoinDuration 120000000000) ∨
    ∃ result n' node, n.bootstrap pr opts call = .ok (result, n') ∧
      (∀ joined, result = .ok joined → joined = seeds.map Prod.fst) ∧
      Learned n.toNode seeds node ∧ n'.memberlist = node.memberlist ∧
      n'.disseminator = node.disseminator ∧
      (n'.ready = true ↔ n.ready = true ∨ ∃ joined, result = .ok joined) := by
  rw [GossipNode.answers] at hseeds
  rw [GossipNode.bootstrap]
  split_ifs at hseeds ⊢ with hchannel
  · obtain rfl := List.forall₂_nil_right_iff.1 hseeds
    exact .inr ⟨_, n, n.toNode, rfl, (fun joined h => by cases h), .refl _, rfl, rfl, by simp⟩
  obtain ⟨applied, n₁, hreincarnate, hlive, hlearned₁⟩ := exists_reincarnate hn hvalid pr call.now
    call.timeNowMS call.choices
  dsimp only at hseeds ⊢
  rw [hreincarnate] at hseeds
  cases hprovider : resolveDiscoverProvider (opts.getD .zero) call.fileHosts with
  | error err =>
    rw [hprovider] at hseeds
    obtain rfl := List.forall₂_nil_right_iff.1 hseeds
    exact .inr ⟨_, n, n.toNode, rfl, (fun joined h => by cases h), .refl _, rfl, rfl, by simp⟩
  | ok discoverProvider =>
    rw [hprovider] at hseeds
    rw [hreincarnate]
    simp only [Bind.bind, Except.bind]
    rcases sendJoin_learns hlive (hlearned₁.stopped.trans hrunning) _ call.orders hseeds with
      ⟨hjoin, htime⟩ | ⟨result, node, hjoin, hjoined, hlearned⟩
    · rw [hjoin]
      exact .inl ⟨rfl, fun a ha =>
        htime { a with destroyed := n.destroyed } (List.mem_map_of_mem ha)⟩
    · rw [hjoin]
      have hlearned' : Learned n.toNode seeds node := hlearned₁.trans hlearned
      cases result with
      | error err =>
        exact .inr ⟨_, _, node, rfl, hjoined, hlearned', rfl, rfl, by simp [hlearned'.ready]⟩
      | ok joined => exact .inr ⟨_, _, node, rfl, hjoined, hlearned', rfl, rfl, by simp⟩

end bootstrap

/-- **A node that is bootstrapped knows what its seeds know.**  Let the node be running, and let
the seeds be the nodes that answer its requests, each at its address and with its own member
list, having accepted it.  Then `Bootstrap` is still going on, with time left after each
attempt, or it returns; if it returns the nodes that it has joined, they are the seeds, in the
order of their answers.  Of each address but its own the node holds the largest of what it held
before and of what the seeds held.  Of the other nodes nothing becomes pending.  The node
becomes ready exactly if it has joined. -/
theorem bootstrap_learns (pr : Primitives) (n : GossipNode) (opts : Option BootstrapOptions)
    (call : BootstrapCall) (seeds : List (String × Node)) (hn : n.toNode.Sound)
    (hvalid : View.Valid n.memberlist.entry) (hrunning : n.stopped = false)
    (hseeds : Gave seeds (n.answers pr opts call)) :
    (n.bootstrap pr opts call = .error .outOfFuel ∧ ∀ a ∈ call.attempt :: call.attempts,
      a.joinDuration ≤ selectInt (opts.getD .zero).maxJoinDuration 120000000000) ∨
    ∃ result n', n.bootstrap pr opts call = .ok (result, n') ∧
      (∀ joined, result = .ok joined → joined = seeds.map Prod.fst) ∧
      (∀ x ≠ n.address, View.rank n'.memberlist.entry x =
        View.rank n.memberlist.entry x ⊔ known seeds x) ∧
      (∀ x ≠ n.address, n'.disseminator.entry x = none ∨
        n'.disseminator.entry x = n.disseminator.entry x) ∧
      (n'.ready = true ↔ n.ready = true ∨ ∃ joined, result = .ok joined) := by
  refine (exists_bootstrap hn hvalid hrunning hseeds).imp_right ?_
  rintro ⟨result, n', node, hboot, hjoined, hlearned, hmemberlist, hdisseminator, hready⟩
  refine ⟨result, n', hboot, hjoined, fun x hx => ?_, fun x hx => ?_, hready⟩
  · rw [hmemberlist]
    exact hlearned.rank x hx
  · rw [hdisseminator]
    exact hlearned.pending x hx

/-- A call in which the requests are answered with the lists of the nodes, one after the other. -/
def answeredWith (nodes : List Node) : BootstrapCall :=
  ⟨none, .ok "h1:1", .ok "h1:1", .ok [], 5, 5, fun _ => ⟨5, 0⟩, ⟨.asIs, .asIs⟩,
    ⟨false, ⟨.asIs, .asIs⟩, fun _ => 0, .asIs,
      fun i => nodes[i]?.map fun m => ⟨m.fullSync, fun _ => ⟨9, 0⟩⟩, 0⟩, []⟩

/-- The options with three hosts, of which two are to be joined. -/
def joinTwo : BootstrapOptions := ⟨none, ["h1:1", "h2:1", "h3:1"], "", false, 2, 0, 0⟩

/-- The request of the node. -/
def joinRequest : JoinRequest := ⟨"app", "h1:1", 5⟩

/-- A seed at the address, that knows of nobody else. -/
def seedAt (address : String) : Except Fault Node :=
  ((Node.new "app" address).reincarnate ⟨fun _ => 0, fun _ => 1⟩ 7 7 fun _ => ⟨7, 0⟩).map Prod.snd

/-- The node that has accepted the request answers with its list. -/
theorem answeredBy_of_seedAt {address : String} {m : Node} {b : Batch}
    (hm : seedAt address = .ok m) (haccepts : (m.handleJoin joinRequest).1.toOption.isSome)
    (hb : b.changes = m.fullSync) : AnsweredBy m b := by
  obtain ⟨applied, seed, hreincarnate, hlive, -⟩ := exists_reincarnate
    (Node.sound_new "app" address) View.valid_new ⟨fun _ => 0, fun _ => 1⟩ 7 7 fun _ => ⟨7, 0⟩
  rw [seedAt, hreincarnate] at hm
  obtain rfl := Except.ok.inj hm
  obtain ⟨res, hres⟩ := Option.isSome_iff_exists.1 haccepts
  have hres := toOption_eq_some_iff.1 hres
  exact ⟨hlive.sound, hlive.valid, joinRequest, res, hres,
    hb.trans (Node.membership_of_handleJoin hres).symm⟩

/-- A node with two seeds, which it joins: each of them knows of itself alone, and the node holds
of each of them what that one held, and is ready. -/
theorem bootstrap_learns_two :
    ∃ m₂ m₃ n', seedAt "h2:1" = .ok m₂ ∧ seedAt "h3:1" = .ok m₃ ∧
      m₂.memberlist.entry "h2:1" ≠ none ∧ m₂.memberlist.entry "h3:1" = none ∧
      m₃.memberlist.entry "h2:1" = none ∧ m₃.memberlist.entry "h3:1" ≠ none ∧
      (GossipNode.new "app" "h1:1" true).bootstrap ⟨fun _ => 0, fun _ => 1⟩ (some joinTwo)
        (answeredWith [m₂, m₃]) =
          .ok (.ok ["h2:1", "h3:1"], n') ∧
      View.rank n'.memberlist.entry "h2:1" = View.rank m₂.memberlist.entry "h2:1" ∧
      View.rank n'.memberlist.entry "h3:1" = View.rank m₃.memberlist.entry "h3:1" ∧
      n'.ready = true := by
  have heval : ((seedAt "h2:1").bind fun m₂ => (seedAt "h3:1").bind fun m₃ =>
      ((GossipNode.new "app" "h1:1" true).bootstrap ⟨fun _ => 0, fun _ => 1⟩ (some joinTwo)
        (answeredWith [m₂, m₃])).map fun s =>
          decide (s.1.toOption = some ["h2:1", "h3:1"] ∧
            (m₂.handleJoin joinRequest).1.toOption.isSome ∧
            (m₃.handleJoin joinRequest).1.toOption.isSome ∧
            m₂.memberlist.entry "h2:1" ≠ none ∧ m₂.memberlist.entry "h3:1" = none ∧
            m₃.memberlist.entry "h2:1" = none ∧ m₃.memberlist.entry "h3:1" ≠ none ∧
            ((GossipNode.new "app" "h1:1" true).answers ⟨fun _ => 0, fun _ => 1⟩ (some joinTwo)
              (answeredWith [m₂, m₃])).map (fun r => (r.1, r.2.changes)) =
                [("h2:1", m₂.fullSync), ("h3:1", m₃.fullSync)])) = .ok true := by
    decide +kernel
  obtain ⟨m₂, hm₂, heval⟩ := exists_of_bind_eq_ok heval
  obtain ⟨m₃, hm₃, heval⟩ := exists_of_bind_eq_ok heval
  obtain ⟨⟨result, n'⟩, hboot, heval⟩ := exists_of_map_eq_ok heval
  obtain ⟨hresult, haccepts₂, haccepts₃, hknows₂, hnone₂, hnone₃, hknows₃, hanswers⟩ :=
    of_decide_eq_true heval
  obtain rfl := toOption_eq_some_iff.1 hresult
  have hseeds : Gave [("h2:1", m₂), ("h3:1", m₃)]
      ((GossipNode.new "app" "h1:1" true).answers ⟨fun _ => 0, fun _ => 1⟩ (some joinTwo)
        (answeredWith [m₂, m₃])) := by
    obtain ⟨r₂, rest, hrest, hr₂, htail⟩ := List.map_eq_cons_iff.1 hanswers
    obtain ⟨r₃, rest', rfl, hr₃, hnil⟩ := List.map_eq_cons_iff.1 htail
    rw [hrest, List.map_eq_nil_iff.1 hnil]
    obtain ⟨haddress₂, hchanges₂⟩ := Prod.mk.inj hr₂
    obtain ⟨haddress₃, hchanges₃⟩ := Prod.mk.inj hr₃
    exact .cons ⟨haddress₂.symm, answeredBy_of_seedAt hm₂ haccepts₂ hchanges₂⟩
      (.cons ⟨haddress₃.symm, answeredBy_of_seedAt hm₃ haccepts₃ hchanges₃⟩ .nil)
  rcases bootstrap_learns ⟨fun _ => 0, fun _ => 1⟩ (GossipNode.new "app" "h1:1" true)
      (some joinTwo) _ _ (Node.sound_new _ _) View.valid_new rfl hseeds with
    ⟨herror, -⟩ | ⟨_, _, hok, -, hrank, -, hready⟩
  · rw [hboot] at herror
    cases herror
  · obtain ⟨rfl, rfl⟩ := Prod.mk.inj (Except.ok.inj (hboot.symm.trans hok))
    refine ⟨m₂, m₃, n', hm₂, hm₃, hknows₂, hnone₂, hnone₃, hknows₃, hboot, ?_, ?_,
      hready.2 (.inr ⟨_, rfl⟩)⟩
    · refine (hrank "h2:1" (by decide)).trans ((bot_sup_eq _).trans ?_)
      simp [known, View.rank, hnone₃]
    · refine (hrank "h3:1" (by decide)).trans ((bot_sup_eq _).trans ?_)
      simp [known, View.rank, hnone₂]

end Facade
end Ringpop
