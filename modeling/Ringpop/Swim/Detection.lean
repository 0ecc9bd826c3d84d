/-
# Members that do not answer

A node finds out about a member that is gone in protocol periods: `pingNextMember` takes the
next member, pings it and has others ping it; who is not reached is suspected, and becomes
faulty when its suspicion timer goes off.  Here all of this runs together, with changes that
arrive at any time and timers that go off at any time (`Pinger.run`).

A member that is not reached any more is found out (`failure_detected`): after twice as many
periods as the list has members, it is suspect with its timer running, or faulty, or has
left, and when the timer goes off it is not suspect any more.  What is needed is that
nobody brings a newer incarnation of it, and that not all helpers fail when its turn comes.
The other way round, a member that is reached whenever its turn comes, and that nobody else
accuses, stays alive (`answering_stays_alive`).

Periods do not overlap here, as they do not in the protocol loop of one node.
-/

import Ringpop.Swim.IndirectPing
import Ringpop.Swim.Stages

namespace Ringpop
namespace Swim

open CellStore Runs Reorder
open Rounds (Scan)

/-- What happens to a node: a protocol period, changes that arrive, and a suspicion timer that
goes off. -/
inductive DetectorCall where
  | period (env : PingSurroundings)
  | update (b : Batch)
  | fire (timeNowMS : ℤ) (choices : ℕ → Choice) (address : String)

/-- The change is in the response of the member, or in that of a helper. -/
def PingSurroundings.Brings (env : PingSurroundings) (c : Change) : Prop :=
  (∃ res, env.ping = some res ∧ c ∈ res.changes) ∨
    ∃ helper res, env.outcome helper = .response res ∧ c ∈ res.changes

namespace DetectorCall

/-- The change is one that others bring. -/
def Brings : DetectorCall → Change → Prop
  | period env => env.Brings
  | update b => fun c => c ∈ b.changes
  | fire _ _ _ => fun _ => False

/-- A protocol period. -/
def isPeriod : DetectorCall → Bool
  | period _ => true
  | _ => false

end DetectorCall

namespace Pinger

/-- A new node, after its first `Reincarnate`. -/
def start (pr : Primitives) (app address : String) (o : Arrangement ℕ) (now t : ℤ)
    (choices : ℕ → Choice) (pingRequestSize : ℤ) : Except Fault Pinger := do
  let s ← IterState.start pr app address o now t choices
  return ⟨s.node, s.iter, false, pingRequestSize, []⟩

/-- One call. -/
def step (pr : Primitives) (s : Pinger) : DetectorCall → Except Fault Pinger
  | .period env => Prod.snd <$> s.pingNextMember pr env
  | .update b => do
      let (_, n) ← s.node.update pr b
      return { s with node := n }
  | .fire t choices address => do
      let (_, n) ← s.node.fire pr t choices address
      return { s with node := n }

/-- A sequence of calls. -/
def run (pr : Primitives) (s : Pinger) (calls : List DetectorCall) : Except Fault Pinger :=
  calls.foldlM (step pr) s

/-- If the member is the next to be pinged, it does not answer, no helper reaches it, and not as
many helpers fail as should be asked. -/
def Unreached (x : String) (s : Pinger) : DetectorCall → Prop
  | .period env => ∀ p m iter,
      s.iter.next env.shuffles s.node.memberlist = .ok (some p, m, iter) → m.addressOf p = x →
        env.ping = none ∧ ∀ helpers,
          m.randomPingableMembers env.helpers s.pingRequestSize [x] = .ok helpers →
            (∀ h ∈ helpers, (env.outcome h.address).reaches = false) ∧
            ((helpers.countP fun h => (env.outcome h.address).fails : ℕ) : ℤ) ≠ s.pingRequestSize
  | _ => True

/-- If the member is the next to be pinged, it answers, or a helper reaches it. -/
def Reached (x : String) (s : Pinger) : DetectorCall → Prop
  | .period env => ∀ p m iter,
      s.iter.next env.shuffles s.node.memberlist = .ok (some p, m, iter) → m.addressOf p = x →
        env.ping ≠ none ∨ ∀ helpers,
          m.randomPingableMembers env.helpers s.pingRequestSize [x] = .ok helpers →
            ∃ h ∈ helpers, (env.outcome h.address).reaches = true
  | _ => True

end Pinger

/-! ### One period -/

namespace Pinger

variable {pr : Primitives} {env : PingSurroundings} {s s' : Pinger} {v : PingVerdict}

theorem hears_sendPingRequests (env : PingSurroundings) (target : String) (members : List Member)
    (s : Pinger) : Node.Hears pr env.Brings s.node (sendPingRequests env target members s).2.node ∧
      (sendPingRequests env target members s).2.iter = s.iter := by
  induction members generalizing s with
  | nil => exact ⟨.refl, rfl⟩
  | cons peer members ih =>
    obtain ⟨hhears, hiter⟩ := ih { s with
      node := (s.node.sendPingRequest (env.issue peer.address) target).2 }
    have hsend : Node.Hears pr env.Brings s.node
        (s.node.sendPingRequest (env.issue peer.address) target).2 :=
      .only .refl ⟨rfl, rfl, rfl, rfl, rfl, rfl⟩
    exact ⟨hsend.trans hhears, hiter⟩

/-- One result brings what is in the response. -/
theorem hears_pingRequestResult {target : String} {peers : List String} {peer : Member}
    {req : PingRequest} {result : Except String PingResponse}
    (h : s.pingRequestResult pr env target peers peer req = .ok (result, s')) :
    Node.Hears pr env.Brings s.node s'.node ∧ s'.iter = s.iter := by
  rw [pingRequestResult] at h
  cases hout : env.outcome peer.address with
  | failed err =>
    rw [hout] at h
    obtain ⟨-, rfl⟩ := Prod.mk.inj (Except.ok.inj h)
    exact ⟨.only .refl ⟨rfl, rfl, rfl, rfl, rfl, rfl⟩, rfl⟩
  | timedOut =>
    rw [hout] at h
    obtain ⟨-, rfl⟩ := Prod.mk.inj (Except.ok.inj h)
    exact ⟨.only .refl ⟨rfl, rfl, rfl, rfl, rfl, rfl⟩, rfl⟩
  | response res =>
    rw [hout] at h
    obtain ⟨⟨applied, n⟩, hup, h⟩ := exists_of_bind_eq_ok h
    obtain ⟨-, rfl⟩ := Prod.mk.inj (Except.ok.inj h)
    exact ⟨.update .refl (fun c hc => .inr ⟨_, res, hout, hc⟩) hup, rfl⟩

theorem hears_indirectPingLoop {target : String} {peers errs : List String}
    {reqs : List (Member × PingRequest)} {r : Bool × List String}
    (h : indirectPingLoop pr env target peers reqs errs s = .ok (r, s')) :
    Node.Hears pr env.Brings s.node s'.node ∧ s'.iter = s.iter := by
  induction reqs generalizing errs s with
  | nil =>
    obtain ⟨-, rfl⟩ := Prod.mk.inj (Except.ok.inj h)
    exact ⟨.refl, rfl⟩
  | cons q reqs ih =>
    obtain ⟨peer, req⟩ := q
    obtain ⟨⟨result, s₁⟩, hone, h⟩ := exists_of_bind_eq_ok h
    obtain ⟨hhears, hiter⟩ := hears_pingRequestResult hone
    have hgo {errs : List String}
        (h : indirectPingLoop pr env target peers reqs errs s₁ = .ok (r, s')) :
        Node.Hears pr env.Brings s.node s'.node ∧ s'.iter = s.iter :=
      ⟨hhears.trans (ih h).1, (ih h).2.trans hiter⟩
    cases result with
    | error err => exact hgo h
    | ok res =>
      dsimp only at h
      split_ifs at h
      · obtain ⟨-, rfl⟩ := Prod.mk.inj (Except.ok.inj h)
        exact ⟨hhears, hiter⟩
      · exact hgo h

theorem hears_indirectPing {target : String} {amount : ℤ} {r : Bool × List String}
    (h : s.indirectPing pr env target amount = .ok (r, s')) :
    Node.Hears pr env.Brings s.node s'.node ∧ s'.iter = s.iter := by
  obtain ⟨peers, -, h⟩ := exists_of_bind_eq_ok h
  obtain ⟨hsend, hiter⟩ : Node.Hears pr _ _ _ ∧ _ := hears_sendPingRequests env target peers
    { s with emitted :=
      s.emitted ++ [.requestsSend s.node.address target (peers.map Member.address)] }
  obtain ⟨hloop, hiter'⟩ := hears_indirectPingLoop h
  exact ⟨hsend.trans hloop, hiter'.trans hiter⟩

/-- **What a period does**: it moves the iterator, hears what the responses bring, and then
may suspect the member that it has pinged. -/
theorem period_cases (hidle : s.pinging = false) (h : s.pingNextMember pr env = .ok (v, s')) :
    s'.pinging = false ∧ s'.pingRequestSize = s.pingRequestSize ∧ ∃ found m n,
      s.iter.next env.shuffles s.node.memberlist = .ok (found, m, s'.iter) ∧
      Node.Hears pr env.Brings { s.node with memberlist := m } n ∧
      (v ≠ .suspected ∧ s'.node = n ∨ v = .suspected ∧ env.ping = none ∧
        ∃ p member t choices applied, found = some p ∧ n.memberlist.read p = .ok member ∧
          n.makeSuspect pr t choices member.address member.incarnation =
            .ok (applied, s'.node)) := by
  obtain ⟨⟨found, m, iter⟩, hnext, hrest⟩ := exists_of_bind_eq_ok h
  cases found with
  | none =>
    obtain ⟨rfl, rfl⟩ := Prod.mk.inj (Except.ok.inj hrest)
    exact ⟨hidle, rfl, none, m, _, hnext, .refl, .inl ⟨by decide, rfl⟩⟩
  | some p =>
    dsimp only at hrest
    rw [hidle, if_neg (by decide)] at hrest
    obtain ⟨member, hmember, hrest⟩ := exists_of_bind_eq_ok hrest
    cases hping : env.ping with
    | some res =>
      rw [hping] at hrest
      obtain ⟨⟨applied, n⟩, hup, hrest⟩ := exists_of_bind_eq_ok hrest
      obtain ⟨rfl, rfl⟩ := Prod.mk.inj (Except.ok.inj hrest)
      have hsent : Node.Hears pr env.Brings { s.node with memberlist := m }
          ((Node.sendPing { s.node with memberlist := m } (env.issue member.address)
            member.address).2.pingReturned member.address (Node.sendPing { s.node with
              memberlist := m } (env.issue member.address) member.address).1 false) :=
        .only .refl ⟨rfl, rfl, rfl, rfl, rfl, rfl⟩
      exact ⟨rfl, rfl, some p, m, n, hnext,
        hsent.update (fun c hc => .inl ⟨res, hping, hc⟩) hup, .inl ⟨by decide, rfl⟩⟩
    | none =>
      rw [pingNextMember_eq hidle hping hnext hmember] at h
      obtain ⟨⟨⟨reached, errs⟩, s₁⟩, hind, h⟩ := exists_of_bind_eq_ok h
      obtain ⟨hsize, -⟩ := indirectPing_spec hind
      obtain ⟨hhears, hiter⟩ := hears_indirectPing hind
      obtain ⟨hpinging, hsize', hiter', hcase⟩ := conclude_cases h
      have hsent : Node.Hears pr env.Brings { s.node with memberlist := m }
          (s.pinged env m iter member.address).node :=
        .only .refl ⟨rfl, rfl, rfl, rfl, rfl, rfl⟩
      have hiter : s'.iter = iter := hiter'.trans hiter
      refine ⟨hpinging, hsize'.trans hsize, some p, m, s₁.node, by rw [hiter]; exact hnext,
        hsent.trans hhears, hcase.imp id fun hsuspected => ?_⟩
      obtain ⟨hv, member', applied, hread, hmake⟩ := hsuspected
      exact ⟨hv, rfl, p, member', _, _, applied, rfl, hread, hmake⟩

/-! ### Nodes with their iterator -/

/-- A node that runs, between two periods. -/
structure Running (s : Pinger) : Prop where
  detecting : s.node.Detecting
  good : IterState.Good ⟨s.node, s.iter, []⟩
  idle : s.pinging = false
  size : 1 ≤ s.pingRequestSize

/-- The iterator of a node whose list has grown. -/
theorem good_of_sublist {n n' : Node} {iter : MemberlistIter} {returned : List (ℕ × ℕ)}
    (h : IterState.Good ⟨n, iter, returned⟩) (hn' : n'.Live)
    (hsub : n.memberlist.list.Sublist n'.memberlist.list) :
    IterState.Good ⟨n', iter, returned⟩ := by
  obtain ⟨seen, hiter, hseen⟩ := h.iter
  exact ⟨hn'.sound, hn'.hasLocal, h.length_pos.trans_le hsub.length_le,
    ⟨seen, hiter, hseen.trans hsub.length_le⟩, h.returned⟩

/-- **`Next`**, on the iterator of a node that runs. -/
theorem exists_next {n : Node} {iter : MemberlistIter} {returned : List (ℕ × ℕ)}
    (h : IterState.Good ⟨n, iter, returned⟩) (hn : n.Detecting) (shuffles : ℕ → Arrangement ℕ) :
    ∃ found m iter', iter.next shuffles n.memberlist = .ok (found, m, iter') ∧
      IterState.Good ⟨{ n with memberlist := m }, iter',
        returned ++ found.toList.map (iter'.currentRound, ·)⟩ ∧
      Node.Detecting { n with memberlist := m } ∧ m.entry = n.memberlist.entry ∧
      (∀ p ∈ found, p ∈ m.list) ∧
      (found = none → ∀ p ∈ n.memberlist.list, ¬ n.memberlist.Pingable p) ∧
      ∀ p, n.memberlist.Pingable p → Scan.Step p (IterState.scan ⟨n, iter, returned⟩)
        (IterState.scan ⟨{ n with memberlist := m }, iter',
          returned ++ found.toList.map (iter'.currentRound, ·)⟩) := by
  obtain ⟨found, i, hnext, hi, hentry, hfound, hnone, hscan⟩ := h.next shuffles
  obtain ⟨⟨found', m, iter'⟩, hiter, hi'⟩ := exists_of_bind_eq_ok hnext
  obtain ⟨rfl, rfl⟩ := Prod.mk.inj (Except.ok.inj hi')
  have hvalid : View.Valid m.entry := by
    rw [show m.entry = n.memberlist.entry from hentry]
    exact hn.valid
  have htidy : n.suspicion.Tidy n.address m.entry := by
    rw [show m.entry = n.memberlist.entry from hentry]
    exact hn.tidy
  exact ⟨found', m, iter', hiter, hi, ⟨⟨hi.sound, hi.hasLocal, hvalid⟩, hn.running, hn.enabled,
    htidy⟩, hentry, hfound, hnone, hscan⟩

/-- `Next` changes the order of the list, and nothing else. -/
theorem next_byAddress {n : Node} {iter iter' : MemberlistIter} {returned : List (ℕ × ℕ)}
    {shuffles : ℕ → Arrangement ℕ} {found : Option ℕ} {m : Memberlist}
    (h : IterState.Good ⟨n, iter, returned⟩)
    (hnext : iter.next shuffles n.memberlist = .ok (found, m, iter')) :
    m.byAddress = n.memberlist.byAddress := by
  obtain ⟨seen, hiter, hseen⟩ := h.iter
  have hspec := MemberlistIter.next_spec shuffles iter.currentRound h.scannable h.length_pos hseen
  rw [← hiter] at hspec
  rcases hspec with ⟨found', seen', hnext', -⟩ | ⟨-, found', seen', hnext', -⟩
  · obtain ⟨-, rfl, -⟩ := Except.ok.inj (hnext.symm.trans hnext')
    rfl
  · obtain ⟨-, rfl, -⟩ := Except.ok.inj (hnext.symm.trans hnext')
    rfl

/-- A pointer of the list points to a member. -/
theorem exists_read {m : Memberlist} {p : ℕ} (h : m.Sound) (hp : p ∈ m.list) :
    ∃ member, m.read p = .ok member ∧ m.entry member.address = some member ∧
      m.byAddress member.address = some p := by
  obtain ⟨x, hx⟩ := (h.mem_list p).1 hp
  obtain ⟨member, hcell, rfl⟩ := h.cell x p hx
  refine ⟨member, ?_, ?_, hx⟩
  · rw [Memberlist.read, hcell]
    rfl
  · rw [Memberlist.entry, hx]
    exact hcell

theorem addressOf_of_read {m : Memberlist} {p : ℕ} {member : Member}
    (h : m.read p = .ok member) : m.addressOf p = member.address := by
  rw [Memberlist.read] at h
  rw [Memberlist.addressOf]
  split at h
  · cases h
  · rename_i hcell
    rw [hcell, Except.ok.inj h]
    rfl

/-- **A period returns.** -/
theorem Running.exists_period (h : s.Running) (pr : Primitives)
    (henv : ∀ c, env.Brings c → ValidStatus c.status) :
    ∃ v s', s.pingNextMember pr env = .ok (v, s') := by
  obtain ⟨found, m, iter, hnext, -, hn, -, hfound, -, -⟩ :=
    exists_next h.good h.detecting env.shuffles
  cases found with
  | none =>
    rw [pingNextMember, hnext]
    exact ⟨_, _, rfl⟩
  | some p =>
    obtain ⟨member, hread, -⟩ := exists_read hn.sound.memberlist (hfound p rfl)
    cases hping : env.ping with
    | none =>
      exact exists_pingNextMember h.idle h.size hping hnext hread h.good h.detecting.toLive
        (fun helper res hout c hc => henv c (.inr ⟨helper, res, hout, hc⟩)) pr
    | some res =>
      have hsent : ((Node.sendPing { s.node with memberlist := m } (env.issue member.address)
          member.address).2.pingReturned member.address (Node.sendPing { s.node with
            memberlist := m } (env.issue member.address) member.address).1 false).Live :=
        hn.toLive.congr rfl rfl
      obtain ⟨applied, n, hup, -⟩ := hsent.update (b := ⟨res.changes, env.choices
        member.address⟩) pr fun c hc => henv c (.inl ⟨res, hping, hc⟩)
      refine ⟨.answered, { s with node := n, iter := iter }, ?_⟩
      simp only [pingNextMember, hnext, Bind.bind, Except.bind, h.idle, hread, hping,
        Option.isNone_some, Bool.false_eq_true, if_false, hup]
      rfl

/-- **A period of a node that runs**: `Next`, what the responses bring, and a suspicion, if the
member that was pinged is suspected. -/
theorem Running.period (h : s.Running) (henv : ∀ c, env.Brings c → ValidStatus c.status)
    (hp : s.pingNextMember pr env = .ok (v, s')) :
    s'.Running ∧ s'.node.address = s.node.address ∧
      (∀ y q, s.node.memberlist.byAddress y = some q →
        s'.node.memberlist.byAddress y = some q) ∧
      ∃ found m n, s.iter.next env.shuffles s.node.memberlist = .ok (found, m, s'.iter) ∧
        m.list.Sublist s'.node.memberlist.list ∧ Node.Detecting { s.node with memberlist := m } ∧
        m.entry = s.node.memberlist.entry ∧
        Node.Hears pr env.Brings { s.node with memberlist := m } n ∧ n.Detecting ∧
        n.address = s.node.address ∧
        (v ≠ .suspected ∧ s'.node = n ∨ v = .suspected ∧ env.ping = none ∧
          ∃ p pinged member choices sourceIncarnation applied, found = some p ∧
            m.read p = .ok pinged ∧ pinged.address = member.address ∧
            n.memberlist.entry member.address = some member ∧
            n.memberlist.byAddress member.address = some p ∧
            n.Effect choices [⟨n.address, sourceIncarnation, member.address, member.incarnation,
              suspect⟩] applied s'.node) := by
  obtain ⟨hidle, hsize, found, m, n, hnext, hhears, hcase⟩ := period_cases h.idle hp
  obtain ⟨found', m', iter, hnext', hgood, hn₀, hentry, hfound, -, -⟩ :=
    exists_next h.good h.detecting env.shuffles
  obtain ⟨rfl, rfl, hiter⟩ : found = found' ∧ m = m' ∧ s'.iter = iter := by
    simpa using Except.ok.inj (hnext.symm.trans hnext')
  have hby₀ := next_byAddress h.good hnext
  obtain ⟨hn, ha, hsub, hby₁⟩ := hhears.detecting hn₀ henv
  have hby (y : String) (q : ℕ) (hq : s.node.memberlist.byAddress y = some q) :
      n.memberlist.byAddress y = some q := hby₁ y q (by rw [← hby₀] at hq; exact hq)
  have hgood' (n' : Node) (hn' : n'.Detecting) (hsub' : m.list.Sublist n'.memberlist.list) :
      IterState.Good ⟨n', s'.iter, []⟩ := by
    rw [hiter]
    have hlast := good_of_sublist hgood hn'.toLive hsub'
    exact ⟨hlast.sound, hlast.hasLocal, hlast.length_pos, hlast.iter, by simp⟩
  have hsize : 1 ≤ s'.pingRequestSize := hsize.symm ▸ h.size
  rcases hcase with ⟨hv, hnode⟩ | ⟨hv, hping, p, member, t, choices, applied, rfl, hread, hmake⟩
  · refine ⟨⟨hnode ▸ hn, hnode ▸ hgood' n hn hsub, hidle, hsize⟩, by rw [hnode, ha], ?_,
      found, m, n, hnext, by rw [hnode]; exact hsub, hn₀, hentry, hhears, hn, ha,
      .inl ⟨hv, hnode⟩⟩
    rw [hnode]
    exact hby
  · obtain ⟨⟨sourceIncarnation, he⟩, hn', hsub', hby'⟩ :=
      hn.makeStatus (validStatus_name .suspect) hmake
    obtain ⟨member', hread', hmember, hp'⟩ := exists_read hn.sound.memberlist
      (hsub.subset (hfound p rfl))
    obtain rfl : member' = member := Except.ok.inj (hread'.symm.trans hread)
    -- the pointer is still that of the member that was pinged
    obtain ⟨pinged, hpinged, -, hp₀⟩ := exists_read hn₀.sound.memberlist (hfound p rfl)
    have haddress : pinged.address = member'.address :=
      hn.sound.memberlist.byAddress_injective (hby₁ _ _ hp₀) hp'
    exact ⟨⟨hn', hgood' _ hn' (hsub.trans hsub'), hidle, hsize⟩, he.address.trans ha,
      fun y q hq => hby' y q (hby y q hq), some p, m, n, hnext, hsub.trans hsub', hn₀, hentry,
      hhears, hn, ha, .inr ⟨hv, hping, p, pinged, member', choices, sourceIncarnation, applied,
        rfl, hpinged, haddress, hmember, hp', he⟩⟩

section

variable {x : String} {i : ℤ}

/-- **A period keeps the stage** of a member, where nothing newer of it is heard. -/
theorem Running.period_stage {Q : Option Member → Option Timer → Prop}
    (hQ : ∀ e t, Failing x i e t → Q e t) (hstage : ∀ e t, Q e t → Stage x i e t)
    (h : s.Running) (henv : ∀ c, env.Brings c → ValidStatus c.status)
    (hold : ∀ c, env.Brings c → c.address = x → c.incarnation ≤ i) (hx : x ≠ s.node.address)
    (hp : s.pingNextMember pr env = .ok (v, s'))
    (hq : Q (s.node.memberlist.entry x) (s.node.suspicion.timers x)) :
    Q (s'.node.memberlist.entry x) (s'.node.suspicion.timers x) := by
  obtain ⟨-, -, -, found, m, n, -, -, hn₀, hentry, hhears, hn, ha, hcase⟩ := h.period henv hp
  have hq₁ : Q (n.memberlist.entry x) (n.suspicion.timers x) := by
    refine hhears.stage hQ hstage hn₀ hx henv hold ?_
    rw [hentry]
    exact hq
  rcases hcase with ⟨-, hnode⟩ |
    ⟨-, -, p, pinged, member, choices, j, applied, -, -, -, hmember, -, he⟩
  · rw [hnode]
    exact hq₁
  · refine he.stage hQ hstage (by rwa [ha]) hn.enabled (fun c hc => ?_) (fun c hc hcx => ?_) hq₁
    · rw [List.mem_singleton.1 hc]
      exact validStatus_name .suspect
    · -- the suspicion is about the incarnation that is held
      rw [List.mem_singleton.1 hc] at hcx ⊢
      obtain ⟨st, hst, -⟩ := (hstage _ _ hq₁).exists_member
      rw [← show member.address = x from hcx, hmember] at hst
      rw [Option.some.inj hst]

/-- **A member that is suspected** is being given up. -/
theorem Running.period_suspected {p : ℕ} {m : Memberlist} {iter : MemberlistIter} (h : s.Running)
    (henv : ∀ c, env.Brings c → ValidStatus c.status)
    (hold : ∀ c, env.Brings c → c.address = x → c.incarnation ≤ i) (hx : x ≠ s.node.address)
    (hp : s.pingNextMember pr env = .ok (.suspected, s'))
    (hnext : s.iter.next env.shuffles s.node.memberlist = .ok (some p, m, iter))
    (hby : s.node.memberlist.byAddress x = some p)
    (hq : Stage x i (s.node.memberlist.entry x) (s.node.suspicion.timers x)) :
    Failing x i (s'.node.memberlist.entry x) (s'.node.suspicion.timers x) := by
  have hstage' := h.period_stage (Q := Stage x i) (fun e t => .inr) (fun e t => id) henv hold hx hp
    hq
  obtain ⟨-, -, -, found, m', n, hnext', -, hn₀, hentry, hhears, hn, ha, hcase⟩ :=
    h.period henv hp
  obtain ⟨-, -, p', pinged, member, choices, j, applied, rfl, -, -, hmember, hp', he⟩ :=
    hcase.resolve_left fun hv => hv.1 rfl
  obtain ⟨rfl, -⟩ : p = p' ∧ _ := by simpa using Except.ok.inj (hnext.symm.trans hnext')
  have hq₁ : Stage x i (n.memberlist.entry x) (n.suspicion.timers x) := by
    refine hhears.stage (fun e t => .inr) (fun e t => id) hn₀ hx henv hold ?_
    rw [hentry]
    exact hq
  -- the member that was pinged is still the one of the address
  have hbyn : n.memberlist.byAddress x = some p := by
    refine (hhears.detecting hn₀ henv).2.2.2 x p ?_
    rw [show ({ s.node with memberlist := m' } : Node).memberlist = m' from rfl,
      next_byAddress h.good hnext']
    exact hby
  have haddress : member.address = x := hn.sound.memberlist.byAddress_injective hp' hbyn
  obtain ⟨st, hst, -⟩ := hq₁.exists_member
  rw [← haddress, hmember] at hst
  have hincarnation : member.incarnation = i := by rw [Option.some.inj hst]
  have hrank := he.rank_eq hn (validStatus_name .suspect) (by rw [haddress, ha]; exact hx)
  have hle : rankOf i suspect ≤ View.rank s'.node.memberlist.entry x := by
    rw [← haddress, hrank, Change.rank, ← hincarnation]
    exact le_sup_right
  exact hstage'.failing_of_rank_le (s := .suspect) (by decide) hle

end

/-! ### One call -/

/-- **A call with valid statuses** returns; the node goes on, and loses no member. -/
theorem Running.exists_step {call : DetectorCall} (h : s.Running) (pr : Primitives)
    (hcall : ∀ c, call.Brings c → ValidStatus c.status) :
    ∃ s', s.step pr call = .ok s' ∧ s'.Running ∧ s'.node.address = s.node.address ∧
      ∀ y q, s.node.memberlist.byAddress y = some q →
        s'.node.memberlist.byAddress y = some q := by
  have hgood (n : Node) (hn : n.Detecting)
      (hsub : s.node.memberlist.list.Sublist n.memberlist.list) :
      Running { s with node := n } :=
    ⟨hn, good_of_sublist h.good hn.toLive hsub, h.idle, h.size⟩
  cases call with
  | period env =>
    obtain ⟨v, s', hp⟩ := h.exists_period pr hcall
    obtain ⟨hs', ha, hby, -⟩ := h.period hcall hp
    exact ⟨s', by rw [step, hp]; rfl, hs', ha, hby⟩
  | update b =>
    obtain ⟨applied, n, hup, -⟩ := h.detecting.toLive.update pr hcall
    obtain ⟨hn, ha, hsub, hby⟩ := (Node.Hears.update .refl (fun c hc => hc) hup :
      Node.Hears pr (· ∈ b.changes) s.node n).detecting h.detecting hcall
    exact ⟨{ s with node := n }, by rw [step, hup]; rfl, hgood n hn hsub, ha, hby⟩
  | fire t choices y =>
    obtain ⟨applied, n, hfire, -⟩ := h.detecting.toLive.fire pr t choices y
    obtain ⟨hn, ha, hsub, hby⟩ := h.detecting.fire hfire
    exact ⟨{ s with node := n }, by rw [step, hfire]; rfl, hgood n hn hsub, ha, hby⟩

/-- **Calls with valid statuses**, one after the other, return. -/
theorem Running.exists_run {calls : List DetectorCall} (h : s.Running) (pr : Primitives)
    (hcalls : ∀ call ∈ calls, ∀ c, call.Brings c → ValidStatus c.status) :
    ∃ s', s.run pr calls = .ok s' ∧ s'.Running ∧ s'.node.address = s.node.address :=
  exists_foldlM (I := fun s' : Pinger => s'.Running ∧ s'.node.address = s.node.address)
    (fun s₁ call hcall hs₁ => by
      obtain ⟨s', hstep, hs', ha, -⟩ := hs₁.1.exists_step pr (hcalls call hcall)
      exact ⟨s', hstep, hs', ha.trans hs₁.2⟩)
    ⟨h, rfl⟩

/-- **After the first `Reincarnate`.** -/
theorem exists_start (pr : Primitives) (app address : String) (o : Arrangement ℕ) (now t : ℤ)
    (choices : ℕ → Choice) {pingRequestSize : ℤ} (hsize : 1 ≤ pingRequestSize) :
    ∃ s, start pr app address o now t choices pingRequestSize = .ok s ∧ s.Running ∧
      s.node.address = address := by
  obtain ⟨i, hstart, hgood, hlive⟩ := IterState.exists_start pr app address o now t choices
  refine ⟨⟨i.node, i.iter, false, pingRequestSize, []⟩, by rw [start, hstart]; rfl, ?_⟩
  obtain ⟨⟨applied, n⟩, hboot, hi⟩ := exists_of_bind_eq_ok hstart
  obtain rfl := Except.ok.inj hi
  have hsound : Node.Sound { Node.new app address with memberlist := Memberlist.new.shuffle o } :=
    ⟨Memberlist.sound_new.shuffle o, (Memberlist.local_new address).own,
      (Memberlist.local_new address).cell⟩
  obtain ⟨-, j, he⟩ := Node.effect_makeStatus hsound hboot
  have htidy := he.tidy (Suspicion.tidy_new _ _) fun c hc => by
    rw [List.mem_singleton.1 hc]
    exact validStatus_name .alive
  have henabled : n.suspicion.enabled = true := by
    rw [he.suspicion]
    exact Suspicion.after_enabled _ _ _
  exact ⟨⟨⟨hlive, he.stopped, henabled, htidy⟩, hgood, rfl, hsize⟩, he.address⟩

/-! ### A member that is not reached -/

section

variable {x : String} {i : ℤ} {p k : ℕ}

/-- The member at `p`, alive at incarnation `i` when the count of periods began: it is being
given up, or is still alive and was not pinged in the `k` periods since. -/
structure Watched (x : String) (i : ℤ) (p k : ℕ) (s : Pinger) : Prop where
  running : s.Running
  other : x ≠ s.node.address
  pointer : s.node.memberlist.byAddress x = some p
  stage : Failing x i (s.node.memberlist.entry x) (s.node.suspicion.timers x) ∨
    (s.node.memberlist.entry x = some ⟨x, alive, i⟩ ∧ s.node.suspicion.timers x = none) ∧
      ∃ returned, IterState.Good ⟨s.node, s.iter, returned⟩ ∧ (∀ r, (r, p) ∉ returned) ∧
        Scan.Awaits p (IterState.scan ⟨s.node, s.iter, returned⟩) ∧ returned.length = k

theorem seen_le {i : IterState} (h : i.Good) : i.scan.seen ≤ i.scan.list.length := by
  obtain ⟨n, iter, returned⟩ := i
  obtain ⟨seen, hiter, hseen⟩ := h.iter
  rw [show iter = .after seen iter.currentRound from hiter, IterState.scan_after]
  exact hseen

/-- A member that is alive is pingable. -/
theorem pingable_of_alive {n : Node} (hn : n.Live) (hx : x ≠ n.address)
    (hp : n.memberlist.byAddress x = some p)
    (hentry : n.memberlist.entry x = some ⟨x, alive, i⟩) : n.memberlist.Pingable p := by
  rw [Memberlist.entry, hp] at hentry
  obtain ⟨l, hl, hla⟩ := hn.sound.localMember.exists_getLocal hn.hasLocal
  refine ⟨_, hentry, ?_⟩
  rw [Memberlist.pingable, hl]
  simp [Bind.bind, Except.bind, pure, Except.pure, hla, hx]

/-- Members are put into the list, and the member is as it was. -/
theorem Watched.grow {n : Node} (h : Watched x i p k s) (hn : n.Detecting)
    (ha : n.address = s.node.address) (hsub : s.node.memberlist.list.Sublist n.memberlist.list)
    (hby : n.memberlist.byAddress x = some p)
    (hfailing : Failing x i (s.node.memberlist.entry x) (s.node.suspicion.timers x) →
      Failing x i (n.memberlist.entry x) (n.suspicion.timers x))
    (hstage : Stage x i (s.node.memberlist.entry x) (s.node.suspicion.timers x) →
      Stage x i (n.memberlist.entry x) (n.suspicion.timers x)) :
    Watched x i p k { s with node := n } := by
  refine ⟨⟨hn, good_of_sublist h.running.good hn.toLive hsub, h.running.idle, h.running.size⟩,
    by rw [ha]; exact h.other, hby, ?_⟩
  rcases h.stage with hf | ⟨halive, returned, hgood, hp, hawaits, hk⟩
  · exact .inl (hfailing hf)
  · refine (hstage (.inl halive)).symm.imp id fun halive' => ⟨halive', returned,
      good_of_sublist hgood hn.toLive hsub, hp, ?_, hk⟩
    exact hawaits.step (seen_le hgood) (.grow _ _ hsub) hp

/-- **A period** in which the member is not reached. -/
theorem Watched.period (h : Watched x i p k s) (henv : ∀ c, env.Brings c → ValidStatus c.status)
    (hold : ∀ c, env.Brings c → c.address = x → c.incarnation ≤ i)
    (hunreached : s.Unreached x (.period env)) (hp : s.pingNextMember pr env = .ok (v, s')) :
    Watched x i p (k + 1) s' := by
  obtain ⟨hs', ha, hby, found, m, n, hnext, hsub, -, -, -⟩ := h.running.period henv hp
  refine ⟨hs', by rw [ha]; exact h.other, hby x p h.pointer, ?_⟩
  rcases h.stage with hfailing | ⟨halive, returned, hgood, hreturned, hawaits, hk⟩
  · exact .inl (h.running.period_stage (fun e t => id) (fun e t => .inr) henv hold h.other hp
      hfailing)
  · obtain ⟨found', m', iter, hnext', hgood', hn₀, -, -, hnone, hscan⟩ :=
      exists_next hgood h.running.detecting env.shuffles
    obtain ⟨rfl, rfl, hiter⟩ : found = found' ∧ m = m' ∧ s'.iter = iter := by
      simpa using Except.ok.inj (hnext.symm.trans hnext')
    have hmem : p ∈ s.node.memberlist.list :=
      (h.running.detecting.sound.memberlist.mem_list p).2 ⟨x, h.pointer⟩
    have hpingable := pingable_of_alive h.running.detecting.toLive h.other h.pointer halive.1
    obtain ⟨q, rfl⟩ : ∃ q, found = some q :=
      Option.ne_none_iff_exists'.1 fun hf => hnone hf p hmem hpingable
    by_cases hqp : q = p
    · -- it is the turn of the member
      subst hqp
      have hbym : m.byAddress x = some q := by
        rw [next_byAddress hgood hnext']
        exact h.pointer
      obtain ⟨member, hread, -, hby'⟩ := exists_read hn₀.sound.memberlist
        ((hn₀.sound.memberlist.mem_list q).2 ⟨x, hbym⟩)
      have haddress : member.address = x := hn₀.sound.memberlist.byAddress_injective hby' hbym
      obtain ⟨hping, hhelpers⟩ := hunreached q m s'.iter hnext
        ((addressOf_of_read hread).trans haddress)
      obtain ⟨helpers, -, -, hasked, -, -, hverdict⟩ :=
        suspected_iff h.running.idle hping hnext hread hp
      rw [haddress] at hasked
      obtain ⟨hreaches, hcount⟩ := hhelpers helpers hasked
      obtain rfl : v = .suspected := hverdict.2 ⟨by simpa using hreaches, hcount⟩
      exact .inl (h.running.period_suspected henv hold h.other hp hnext h.pointer (.inl halive))
    · have hstage' := h.running.period_stage (Q := Stage x i) (fun e t => .inr) (fun e t => id)
        henv hold h.other hp (.inl halive)
      have hnew : ∀ r, (r, p) ∉ returned ++ [(iter.currentRound, q)] := by
        intro r hr
        rcases List.mem_append.1 hr with hr | hr
        · exact hreturned r hr
        · exact hqp (Prod.mk.inj (List.mem_singleton.1 hr)).2.symm
      have hlooked := hawaits.step (seen_le hgood) (hscan p hpingable) hnew
      refine hstage'.symm.imp id fun halive' => ⟨halive', returned ++ [(iter.currentRound, q)], ?_,
        hnew, ?_, by simp [hk]⟩
      · rw [hiter]
        exact good_of_sublist hgood' hs'.detecting.toLive hsub
      · rw [hiter]
        exact hlooked.step (seen_le hgood') (.grow _ _ hsub) hnew

/-- **One call**, with a count of the periods. -/
theorem Watched.exists_step {call : DetectorCall} (h : Watched x i p k s) (pr : Primitives)
    (hvalid : ∀ c, call.Brings c → ValidStatus c.status)
    (hold : ∀ c, call.Brings c → c.address = x → c.incarnation ≤ i)
    (hunreached : s.Unreached x call) :
    ∃ s', s.step pr call = .ok s' ∧ Watched x i p (k + call.isPeriod.toNat) s' := by
  have hn := h.running.detecting
  cases call with
  | period env =>
    obtain ⟨v, s', hp⟩ := h.running.exists_period pr hvalid
    exact ⟨s', by rw [step, hp]; rfl, h.period hvalid hold hunreached hp⟩
  | update b =>
    obtain ⟨applied, n, hup, -⟩ := hn.toLive.update pr hvalid
    have hhears : Node.Hears pr (· ∈ b.changes) s.node n := .update .refl (fun c hc => hc) hup
    obtain ⟨hn', ha, hsub, hby⟩ := hhears.detecting hn hvalid
    exact ⟨{ s with node := n }, by rw [step, hup]; rfl, h.grow hn' ha hsub (hby x p h.pointer)
      (hhears.stage (fun e t => id) (fun e t => .inr) hn h.other hvalid hold)
      (hhears.stage (fun e t => .inr) (fun e t => id) hn h.other hvalid hold)⟩
  | fire t choices y =>
    obtain ⟨applied, n, hfire, -⟩ := hn.toLive.fire pr t choices y
    obtain ⟨hn', ha, hsub, hby⟩ := hn.fire hfire
    exact ⟨{ s with node := n }, by rw [step, hfire]; rfl, h.grow hn' ha hsub (hby x p h.pointer)
      (hn.fire_stage (fun e t => id) (fun e t => .inr) h.other hfire)
      (hn.fire_stage (fun e t => .inr) (fun e t => id) h.other hfire)⟩

/-- **A sequence of calls**, with a count of the periods. -/
theorem Watched.exists_run {calls : List DetectorCall} (h : Watched x i p k s)
    (hvalid : ∀ call ∈ calls, ∀ c, call.Brings c → ValidStatus c.status)
    (hold : ∀ call ∈ calls, ∀ c, call.Brings c → c.address = x → c.incarnation ≤ i)
    (hunreached : Along (step pr) (Unreached x) s calls) :
    ∃ s', s.run pr calls = .ok s' ∧
      Watched x i p (k + calls.countP DetectorCall.isPeriod) s' := by
  induction calls generalizing s k with
  | nil => exact ⟨s, rfl, h⟩
  | cons call calls ih =>
    obtain ⟨s₁, hstep, hs₁⟩ := h.exists_step pr (hvalid call List.mem_cons_self)
      (hold call List.mem_cons_self) hunreached.head
    obtain ⟨s', hrun, hs'⟩ := ih hs₁ (fun c hc => hvalid c (List.mem_cons_of_mem _ hc))
      (fun c hc => hold c (List.mem_cons_of_mem _ hc)) (hunreached.tail hstep)
    refine ⟨s', by rw [run, foldlM_cons_ok hstep]; exact hrun, ?_⟩
    have hcount : k + (call :: calls).countP DetectorCall.isPeriod =
        k + call.isPeriod.toNat + calls.countP DetectorCall.isPeriod := by
      rw [List.countP_cons]
      cases call.isPeriod
      · simp
      · simp
        omega
    rw [hcount]
    exact hs'

/-- **Enough periods** give the member up. -/
theorem Watched.failing (h : Watched x i p k s) (hk : 2 * s.node.memberlist.list.length ≤ k) :
    Failing x i (s.node.memberlist.entry x) (s.node.suspicion.timers x) := by
  refine h.stage.resolve_right ?_
  rintro ⟨-, returned, hgood, -, hawaits, hlength⟩
  have hlt := hawaits.length_lt (seen_le hgood)
  have hlt : returned.length < 2 * s.node.memberlist.list.length := hlt
  omega

/-- Counting begins with a member that is alive. -/
theorem watched_of_alive (h : s.Running) (hx : x ≠ s.node.address)
    (hentry : s.node.memberlist.entry x = some ⟨x, alive, i⟩) : ∃ p, Watched x i p 0 s := by
  obtain ⟨p, hp, -⟩ := Option.bind_eq_some_iff.1 hentry
  have htimer := h.detecting.timers_eq_none hentry (show alive ≠ suspect by decide)
  refine ⟨p, h, hx, hp, .inr ⟨⟨hentry, htimer⟩, [], h.good, by simp, ⟨?_, .inr ?_⟩, rfl⟩⟩
  · exact (h.detecting.sound.memberlist.mem_list p).2 ⟨x, hp⟩
  · exact Nat.zero_le _

end

/-! ### A member that is reached -/

section

variable {x : String} {i : ℤ}

/-- The member is alive, at incarnation `i` or a later one. -/
structure Thriving (x : String) (i : ℤ) (s : Pinger) : Prop where
  running : s.Running
  other : x ≠ s.node.address
  entry : ∃ j, s.node.memberlist.entry x = some ⟨x, alive, j⟩ ∧ i ≤ j

/-- **A period** in which the member is reached, if it is its turn. -/
theorem Thriving.period (h : Thriving x i s) (henv : ∀ c, env.Brings c → ValidStatus c.status)
    (halive : ∀ c, env.Brings c → c.address = x → c.status = alive)
    (hreached : s.Reached x (.period env)) (hp : s.pingNextMember pr env = .ok (v, s')) :
    Thriving x i s' := by
  obtain ⟨hs', ha, -, found, m, n, hnext, -, hn₀, hentry, hhears, hn, hna, hcase⟩ :=
    h.running.period henv hp
  have hentry₁ : ∃ j, n.memberlist.entry x = some ⟨x, alive, j⟩ ∧ i ≤ j := by
    refine hhears.stays_alive hn₀ h.other henv halive ?_
    rw [hentry]
    exact h.entry
  refine ⟨hs', by rw [ha]; exact h.other, ?_⟩
  rcases hcase with ⟨-, hnode⟩ | ⟨rfl, hping, p, pinged, member, choices, j, applied, rfl,
    hread, haddress, -, -, he⟩
  · rw [hnode]
    exact hentry₁
  · refine he.stays_alive (by rw [hna]; exact h.other) (fun c hc => ?_) (fun c hc hcx => ?_) hentry₁
    · rw [List.mem_singleton.1 hc]
      exact validStatus_name .suspect
    · -- it was not the turn of the member, since it would have been reached
      exfalso
      rw [List.mem_singleton.1 hc] at hcx
      have hpinged : pinged.address = x := haddress.trans hcx
      obtain ⟨helpers, -, -, hasked, -, -, hverdict⟩ :=
        suspected_iff h.running.idle hping hnext hread hp
      rw [hpinged] at hasked
      rcases hreached p m s'.iter hnext ((addressOf_of_read hread).trans hpinged) with
        hanswered | hhelped
      · exact hanswered hping
      · obtain ⟨helper, hhelper, hreaches⟩ := hhelped helpers hasked
        have hnone := List.any_eq_false.1 (hverdict.1 rfl).1 helper hhelper
        exact hnone hreaches

/-- **One call.** -/
theorem Thriving.exists_step {call : DetectorCall} (h : Thriving x i s) (pr : Primitives)
    (hvalid : ∀ c, call.Brings c → ValidStatus c.status)
    (halive : ∀ c, call.Brings c → c.address = x → c.status = alive)
    (hreached : s.Reached x call) : ∃ s', s.step pr call = .ok s' ∧ Thriving x i s' := by
  have hn := h.running.detecting
  obtain ⟨s', hstep, hs', ha, -⟩ := h.running.exists_step pr hvalid
  have hother : x ≠ s'.node.address := by rw [ha]; exact h.other
  refine ⟨s', hstep, ?_⟩
  cases call with
  | period env =>
    obtain ⟨⟨v, s₁⟩, hp, rfl⟩ := exists_of_map_eq_ok hstep
    exact h.period hvalid halive hreached hp
  | update b =>
    obtain ⟨⟨applied, n⟩, hup, hn'⟩ := exists_of_bind_eq_ok hstep
    obtain rfl := Except.ok.inj hn'
    have hhears : Node.Hears pr (· ∈ b.changes) s.node n := .update .refl (fun c hc => hc) hup
    exact ⟨hs', hother, hhears.stays_alive hn h.other hvalid halive h.entry⟩
  | fire t choices y =>
    obtain ⟨⟨applied, n⟩, hfire, hn'⟩ := exists_of_bind_eq_ok hstep
    obtain rfl := Except.ok.inj hn'
    refine ⟨hs', hother, ?_⟩
    rcases Node.fire_cases hfire with hsame | ⟨j, hj, hmake⟩
    · have hsame : n = s.node := hsame
      rw [hsame]
      exact h.entry
    · obtain ⟨⟨source, he⟩, -⟩ := (hn.fired y).makeStatus (validStatus_name .faulty) hmake
      refine he.stays_alive h.other (fun c hc => ?_) (fun c hc hcx => ?_) h.entry
      · rw [List.mem_singleton.1 hc]
        exact validStatus_name .faulty
      · -- a member that is alive has no timer
        exfalso
        rw [List.mem_singleton.1 hc] at hcx
        obtain ⟨j', hentry, -⟩ := h.entry
        have hnone := hn.timers_eq_none hentry (show alive ≠ suspect by decide)
        rw [show y = x from hcx, hnone] at hj
        cases hj

end

end Pinger

/-- **A failure is detected.**  Take a node after its first `Reincarnate` and any sequence of
calls with valid statuses, and a member that it then holds alive at incarnation `i`.  From
there on let the member be reached by nobody when it is its turn to be pinged, with not all
helpers failing, and let nobody bring a larger incarnation of it; everything else is open.
After twice as many protocol periods as there are members in the end, the member is suspect
with its timer running, or faulty, or has left; and when the timer goes off, it is faulty or
has left. -/
theorem failure_detected (pr : Primitives) (app address : String) (o : Arrangement ℕ) (now t : ℤ)
    (choices : ℕ → Choice) (pingRequestSize : ℤ) (pre mid : List DetectorCall) (x : String)
    (i : ℤ) (hsize : 1 ≤ pingRequestSize)
    (hvalid : ∀ call ∈ pre ++ mid, ∀ c, call.Brings c → ValidStatus c.status)
    (hx : x ≠ address) :
    ∃ s₀ s₁, Pinger.start pr app address o now t choices pingRequestSize = .ok s₀ ∧
      s₀.run pr pre = .ok s₁ ∧
      (s₁.node.memberlist.entry x = some ⟨x, alive, i⟩ →
        (∀ call ∈ mid, ∀ c, call.Brings c → c.address = x → c.incarnation ≤ i) →
        Along (Pinger.step pr) (Pinger.Unreached x) s₁ mid →
        ∃ s₂, s₁.run pr mid = .ok s₂ ∧
          (2 * s₂.node.memberlist.numMembers ≤ mid.countP DetectorCall.isPeriod →
            Failing x i (s₂.node.memberlist.entry x) (s₂.node.suspicion.timers x) ∧
            ∀ t' choices', ∃ s₃ status, s₂.step pr (.fire t' choices' x) = .ok s₃ ∧
              s₃.node.memberlist.entry x = some ⟨x, status, i⟩ ∧
              (status = faulty ∨ status = leave))) := by
  obtain ⟨s₀, hstart, hs₀, ha₀⟩ := Pinger.exists_start pr app address o now t choices hsize
  obtain ⟨s₁, hpre, hs₁, ha₁⟩ := hs₀.exists_run pr fun call hcall =>
    hvalid call (List.mem_append_left _ hcall)
  refine ⟨s₀, s₁, hstart, hpre, fun hentry hold hunreached => ?_⟩
  obtain ⟨p, hwatched⟩ := Pinger.watched_of_alive hs₁ (by rwa [ha₁, ha₀]) hentry
  obtain ⟨s₂, hmid, hs₂⟩ := hwatched.exists_run
    (fun call hcall => hvalid call (List.mem_append_right _ hcall)) hold hunreached
  refine ⟨s₂, hmid, fun hperiods => ?_⟩
  have hfailing := hs₂.failing (by rw [Nat.zero_add]; exact hperiods)
  refine ⟨hfailing, fun t' choices' => ?_⟩
  obtain ⟨applied, n, hfire, -⟩ := hs₂.running.detecting.toLive.fire pr t' choices' x
  obtain ⟨status, hgone, hstatus⟩ := hs₂.running.detecting.fire_failing hs₂.other hfailing hfire
  exact ⟨{ s₂ with node := n }, status, by rw [Pinger.step, hfire]; rfl, hgone, hstatus⟩

/-- Nobody answers, and helpers say that they did not reach the member. -/
def PingSurroundings.unreached : PingSurroundings :=
  { silent with outcome := fun _ => .response ⟨false, "b", []⟩ }

/-- A node that knows one other member, which does not answer: it is found out in four
periods. -/
theorem failure_detected_four : ∃ s₀ s₁ s₂,
    Pinger.start ⟨fun _ => 0, fun _ => 1⟩ "app" "a" .asIs 5 5 (fun _ => ⟨5, 0⟩) 3 = .ok s₀ ∧
    s₀.run ⟨fun _ => 0, fun _ => 1⟩ [.update (.single "b" alive)] = .ok s₁ ∧
    s₁.run ⟨fun _ => 0, fun _ => 1⟩ (List.replicate 4 (.period .unreached)) = .ok s₂ ∧
    Failing "b" 1 (s₂.node.memberlist.entry "b") (s₂.node.suspicion.timers "b") := by
  have hbrings (c : Change) (h : PingSurroundings.unreached.Brings c) : False := by
    rcases h with ⟨res, h, -⟩ | ⟨helper, res, h, hc⟩
    · cases h
    · cases h
      cases hc
  have hvalid : ∀ call ∈ [DetectorCall.update (.single "b" alive)] ++
      List.replicate 4 (.period .unreached), ∀ c, call.Brings c → ValidStatus c.status := by
    intro call hcall c hc
    rcases List.mem_append.1 hcall with hcall | hcall
    · rw [List.mem_singleton.1 hcall] at hc
      rw [List.mem_singleton.1 hc]
      exact validStatus_name .alive
    · rw [List.eq_of_mem_replicate hcall] at hc
      exact (hbrings c hc).elim
  obtain ⟨s₀, s₁, hstart, hpre, hdetected⟩ := failure_detected ⟨fun _ => 0, fun _ => 1⟩ "app" "a"
    .asIs 5 5 (fun _ => ⟨5, 0⟩) 3 _ _ "b" 1 (by decide) hvalid (by decide)
  have heval : (do
      let s₀ ← Pinger.start ⟨fun _ => 0, fun _ => 1⟩ "app" "a" .asIs 5 5 (fun _ => ⟨5, 0⟩) 3
      let s₁ ← s₀.run ⟨fun _ => 0, fun _ => 1⟩ [.update (.single "b" alive)]
      let s₂ ← s₁.run ⟨fun _ => 0, fun _ => 1⟩ (List.replicate 4 (.period .unreached))
      return decide (s₁.node.memberlist.entry "b" = some (⟨"b", alive, 1⟩ : Member) ∧
        s₂.node.memberlist.numMembers = 2)) = .ok true := by
    decide +kernel
  obtain ⟨s₀', hstart', heval⟩ := exists_of_bind_eq_ok heval
  obtain rfl : s₀ = s₀' := Except.ok.inj (hstart.symm.trans hstart')
  obtain ⟨s₁', hpre', heval⟩ := exists_of_bind_eq_ok heval
  obtain rfl : s₁ = s₁' := Except.ok.inj (hpre.symm.trans hpre')
  obtain ⟨s₂, hmid, heval⟩ := exists_of_bind_eq_ok heval
  obtain ⟨hentry, hnum⟩ := of_decide_eq_true (Except.ok.inj heval)
  obtain ⟨s₀', hs₀, hrunning₀, -⟩ := Pinger.exists_start ⟨fun _ => 0, fun _ => 1⟩ "app" "a" .asIs
    5 5 (fun _ => ⟨5, 0⟩) (show (1 : ℤ) ≤ 3 by decide)
  obtain rfl : s₀ = s₀' := Except.ok.inj (hstart.symm.trans hs₀)
  obtain ⟨s₁', hpre', hrunning, -⟩ := hrunning₀.exists_run ⟨fun _ => 0, fun _ => 1⟩
    fun call hcall => hvalid call (List.mem_append_left _ hcall)
  obtain rfl : s₁ = s₁' := Except.ok.inj (hpre.symm.trans hpre')
  have hquiet (call : DetectorCall) (hcall : call ∈ List.replicate 4 (.period .unreached)) :
      ∀ c, ¬ call.Brings c := by
    rw [List.eq_of_mem_replicate hcall]
    exact hbrings
  have hunreached : Along (Pinger.step ⟨fun _ => 0, fun _ => 1⟩) (Pinger.Unreached "b") s₁
      (List.replicate 4 (.period .unreached)) := by
    refine along_of_invariant (I := Pinger.Running) hrunning (fun s call hcall hs => ?_)
      fun s s' call hcall hs hstep => ?_
    · rw [List.eq_of_mem_replicate hcall]
      refine fun p m iter _ _ => ⟨rfl, fun helpers _ => ⟨fun h _ => rfl, ?_⟩⟩
      have hcount : helpers.countP (fun h =>
          (PingSurroundings.unreached.outcome h.address).fails) = 0 :=
        List.countP_eq_zero.2 fun h _ => Bool.false_ne_true
      have hsize := hs.size
      rw [hcount]
      omega
    · obtain ⟨s₁, hstep₁, hs₁, -⟩ := hs.exists_step ⟨fun _ => 0, fun _ => 1⟩
        fun c hc => (hquiet call hcall c hc).elim
      obtain rfl := Except.ok.inj (hstep.symm.trans hstep₁)
      exact hs₁
  obtain ⟨s₂', hmid', hfailing⟩ := hdetected hentry
    (fun call hcall c hc => (hquiet call hcall c hc).elim) hunreached
  obtain rfl : s₂ = s₂' := Except.ok.inj (hmid.symm.trans hmid')
  exact ⟨s₀, s₁, s₂, hstart, hpre, hmid, (hfailing (by rw [hnum]; decide)).1⟩

/-- **A member that answers stays alive.**  Take a node as before and a member that it holds
alive.  As long as the member answers or a helper reaches it when it is its turn to be
pinged, and nobody brings anything about it but that it is alive, it stays alive, and its
incarnation does not go down. -/
theorem answering_stays_alive (pr : Primitives) (app address : String) (o : Arrangement ℕ)
    (now t : ℤ) (choices : ℕ → Choice) (pingRequestSize : ℤ) (pre mid : List DetectorCall)
    (x : String) (i : ℤ) (hsize : 1 ≤ pingRequestSize)
    (hvalid : ∀ call ∈ pre ++ mid, ∀ c, call.Brings c → ValidStatus c.status)
    (hx : x ≠ address) :
    ∃ s₀ s₁, Pinger.start pr app address o now t choices pingRequestSize = .ok s₀ ∧
      s₀.run pr pre = .ok s₁ ∧
      (s₁.node.memberlist.entry x = some ⟨x, alive, i⟩ →
        (∀ call ∈ mid, ∀ c, call.Brings c → c.address = x → c.status = alive) →
        Along (Pinger.step pr) (Pinger.Reached x) s₁ mid →
        ∃ s₂ j, s₁.run pr mid = .ok s₂ ∧
          s₂.node.memberlist.entry x = some ⟨x, alive, j⟩ ∧ i ≤ j) := by
  obtain ⟨s₀, hstart, hs₀, ha₀⟩ := Pinger.exists_start pr app address o now t choices hsize
  obtain ⟨s₁, hpre, hs₁, ha₁⟩ := hs₀.exists_run pr fun call hcall =>
    hvalid call (List.mem_append_left _ hcall)
  refine ⟨s₀, s₁, hstart, hpre, fun hentry halive hreached => ?_⟩
  have hgood : Along (Pinger.step pr) (fun _ call => (∀ c, call.Brings c → ValidStatus c.status) ∧
      ∀ c, call.Brings c → c.address = x → c.status = alive) s₁ mid :=
    along_of_forall_mem (fun s call hcall =>
      ⟨hvalid call (List.mem_append_right _ hcall), halive call hcall⟩) s₁
  obtain ⟨s₂, hmid, hs₂⟩ := Along.exists_foldlM (I := Pinger.Thriving x i)
    (fun s call hs hcall => hs.exists_step pr hcall.1.1 hcall.1.2 hcall.2)
    ⟨hs₁, by rwa [ha₁, ha₀], i, hentry, le_rfl⟩ (hgood.and hreached)
  obtain ⟨j, hj, hij⟩ := hs₂.entry
  exact ⟨s₂, j, hmid, hj, hij⟩

/-- The member answers that it is alive at incarnation `2`. -/
def PingSurroundings.answered : PingSurroundings :=
  { silent with ping := some ⟨[⟨"b", 2, "b", 2, alive⟩], 0, "b", 2⟩ }

/-- Four periods in which the member answers. -/
theorem answering_stays_alive_four : ∃ s₀ s₁ s₂ j,
    Pinger.start ⟨fun _ => 0, fun _ => 1⟩ "app" "a" .asIs 5 5 (fun _ => ⟨5, 0⟩) 3 = .ok s₀ ∧
    s₀.run ⟨fun _ => 0, fun _ => 1⟩ [.update (.single "b" alive)] = .ok s₁ ∧
    s₁.run ⟨fun _ => 0, fun _ => 1⟩ (List.replicate 4 (.period .answered)) = .ok s₂ ∧
    s₂.node.memberlist.entry "b" = some ⟨"b", alive, j⟩ ∧ 1 ≤ j := by
  have hbrings (c : Change) (h : PingSurroundings.answered.Brings c) : c.status = alive := by
    rcases h with ⟨res, h, hc⟩ | ⟨helper, res, h, -⟩
    · obtain rfl := Option.some.inj h
      rw [List.mem_singleton.1 hc]
    · cases h
  have hvalid : ∀ call ∈ [DetectorCall.update (.single "b" alive)] ++
      List.replicate 4 (.period .answered), ∀ c, call.Brings c → ValidStatus c.status := by
    intro call hcall c hc
    rcases List.mem_append.1 hcall with hcall | hcall
    · rw [List.mem_singleton.1 hcall] at hc
      rw [List.mem_singleton.1 hc]
      exact validStatus_name .alive
    · rw [List.eq_of_mem_replicate hcall] at hc
      rw [hbrings c hc]
      exact validStatus_name .alive
  obtain ⟨s₀, s₁, hstart, hpre, halive⟩ := answering_stays_alive ⟨fun _ => 0, fun _ => 1⟩ "app" "a"
    .asIs 5 5 (fun _ => ⟨5, 0⟩) 3 _ _ "b" 1 (by decide) hvalid (by decide)
  have heval : (do
      let s₀ ← Pinger.start ⟨fun _ => 0, fun _ => 1⟩ "app" "a" .asIs 5 5 (fun _ => ⟨5, 0⟩) 3
      let s₁ ← s₀.run ⟨fun _ => 0, fun _ => 1⟩ [.update (.single "b" alive)]
      return decide (s₁.node.memberlist.entry "b" = some (⟨"b", alive, 1⟩ : Member))) =
        .ok true := by
    decide +kernel
  obtain ⟨s₀', hstart', heval⟩ := exists_of_bind_eq_ok heval
  obtain rfl : s₀ = s₀' := Except.ok.inj (hstart.symm.trans hstart')
  obtain ⟨s₁', hpre', heval⟩ := exists_of_bind_eq_ok heval
  obtain rfl : s₁ = s₁' := Except.ok.inj (hpre.symm.trans hpre')
  have hreached : Along (Pinger.step ⟨fun _ => 0, fun _ => 1⟩) (Pinger.Reached "b") s₁
      (List.replicate 4 (.period .answered)) := by
    refine along_of_forall_mem (fun s call hcall => ?_) s₁
    rw [List.eq_of_mem_replicate hcall]
    exact fun p m iter _ _ => .inl (Option.some_ne_none _)
  obtain ⟨s₂, j, hmid, hj, hle⟩ := halive (of_decide_eq_true (Except.ok.inj heval))
    (fun call hcall c hc _ => by
      rw [List.eq_of_mem_replicate hcall] at hc
      exact hbrings c hc) hreached
  exact ⟨s₀, s₁, s₂, j, hstart, hpre, hmid, hj, hle⟩

end Swim
end Ringpop
