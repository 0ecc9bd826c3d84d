/-
# The verdict of an indirect ping

`pingNextMember` in `swim/node.go`, with `swim/ping_request_sender.go`: a member that does
not answer a ping is pinged by others, the helpers, on behalf of the node.  It is suspected
if none of them reached it, unless none of the helpers could be asked.  The code tells the
latter from the number of errors, which it compares with the number of helpers that it is
configured to ask, `pingRequestSize`.  With fewer members than that to ask, it never finds
as many errors, and suspects the member (`indirect_ping_verdict_iff`).

A goroutine sends the ping request to a helper and hands over its result; the results are
taken in the order in which they arrive.  Helpers whose result arrives when the verdict is
made are left out: they go on by themselves.  `PingVerdict` says how `pingNextMember` ended,
which the code only logs.
-/

import Ringpop.Swim.Iterator

namespace Ringpop
namespace Swim

open CellStore Runs Reorder

namespace Memberlist

/-- `RandomPingableMembers`. -/
def randomPingableMembers (o : Arrangement Member) (m : Memberlist) (n : ℤ)
    (excluding : List String) : Except Fault (List Member) := do
  let members ← m.getMembers.foldlM (fun members member => do
    if (← m.pingable member) && member.address ∉ excluding then return members ++ [member]
    return members) []
  -- shuffle members and take first n
  let members := o.arrange members
  if n > members.length then return members
  if n < 0 then throw (.panic "slice bounds out of range")
  return members.take n.toNat

end Memberlist

/-- What becomes of a ping request. -/
inductive PingRequestOutcome where
  | response (res : PingResponse)
  | failed (err : String)
  | timedOut

/-- The events of ping requests: `PingRequestsSendEvent`, `PingRequestSendErrorEvent` and
`PingRequestsSendCompleteEvent`. -/
inductive PingRequestEvent where
  | requestsSend (localAddress target : String) (peers : List String)
  | sendError (localAddress target : String) (peers : List String) (peer : String)
  | sendComplete (localAddress target : String) (peers : List String) (peer : String)
deriving DecidableEq, Repr

/-- How `pingNextMember` ends. -/
inductive PingVerdict where
  | noPingableMembers
  | alreadyPinging
  | answered
  | inconclusive
  | suspected
  | reachable
deriving DecidableEq, Repr

/-- A node with what `pingNextMember` uses besides. -/
structure Pinger where
  node : Node
  iter : MemberlistIter
  pinging : Bool
  pingRequestSize : ℤ
  emitted : List PingRequestEvent

/-- What `pingNextMember` meets, and what the code leaves open: the shuffles of the
iterator and of the helpers, the orders in which changes are enumerated and results arrive,
the response to the ping, if there is one, what becomes of the ping request to each helper,
and what is asked for by the updates. -/
structure PingSurroundings where
  shuffles : ℕ → Arrangement ℕ
  helpers : Arrangement Member
  issue : String → Arrangement Change
  arrival : Arrangement (Member × PingRequest)
  ping : Option Ping
  outcome : String → PingRequestOutcome
  choices : String → ℕ → Choice
  timeNowMS : ℤ

namespace Pinger

/-- The goroutines of `sendPingRequests`, until the call: the request to each peer. -/
def sendPingRequests (env : PingSurroundings) (target : String) :
    List Member → Pinger → List (Member × PingRequest) × Pinger
  | [], s => ([], s)
  | peer :: peers, s =>
      let (req, n) := s.node.sendPingRequest (env.issue peer.address) target
      let (reqs, s) := sendPingRequests env target peers { s with node := n }
      ((peer, req) :: reqs, s)

/-- `SendPingRequest`, when the call has returned or timed out, and the rest of the
goroutine. -/
def pingRequestResult (pr : Primitives) (env : PingSurroundings) (target : String)
    (peers : List String) (s : Pinger) (peer : Member) (req : PingRequest) :
    Except Fault (Except String PingResponse × Pinger) :=
  let error := PingRequestEvent.sendError s.node.address target peers peer.address
  let complete := PingRequestEvent.sendComplete s.node.address target peers peer.address
  match env.outcome peer.address with
  | .failed err =>
      return (.error err, { s with
        node := s.node.pingRequestReturned req true, emitted := s.emitted ++ [error] })
  | .timedOut =>
      -- the call ends with its context, and bumps the counters as well
      return (.error "ping request timed out", { s with
        node := s.node.pingRequestReturned req true, emitted := s.emitted ++ [error] })
  | .response res => do
      let n := s.node.pingRequestReturned req false
      let (_, n) ← n.update pr ⟨res.changes, env.choices peer.address⟩
      return (.ok res, { s with node := n, emitted := s.emitted ++ [complete] })

/-- The loop of `indirectPing`. -/
def indirectPingLoop (pr : Primitives) (env : PingSurroundings) (target : String)
    (peers : List String) : List (Member × PingRequest) → List String → Pinger →
      Except Fault ((Bool × List String) × Pinger)
  | [], errs, s => return ((false, errs), s)
  | (peer, req) :: reqs, errs, s => do
      let (result, s) ← s.pingRequestResult pr env target peers peer req
      match result with
      | .ok res =>
          if res.ok then return ((true, errs), s)
          -- if the ping to the target was not-ok we want to wait for more results
          indirectPingLoop pr env target peers reqs errs s
      | .error err => indirectPingLoop pr env target peers reqs (errs ++ [err]) s

/-- `indirectPing`. -/
def indirectPing (pr : Primitives) (env : PingSurroundings) (s : Pinger) (target : String)
    (amount : ℤ) : Except Fault ((Bool × List String) × Pinger) := do
  let peers ← s.node.memberlist.randomPingableMembers env.helpers amount [target]
  let peerAddresses := peers.map Member.address
  let event := PingRequestEvent.requestsSend s.node.address target peerAddresses
  let (reqs, s) := sendPingRequests env target peers { s with emitted := s.emitted ++ [event] }
  indirectPingLoop pr env target peerAddresses (env.arrival.arrange reqs) [] s

/-- The end of `pingNextMember`, when the helpers were asked about the member at `p`. -/
def conclude (pr : Primitives) (env : PingSurroundings) (s : Pinger) (p : ℕ) (target : String)
    (targetReached : Bool) (errs : List String) : Except Fault (PingVerdict × Pinger) := do
  let s := { s with pinging := false }
  -- if all helper nodes are unreachable, the indirectPing is inconclusive
  if (errs.length : ℤ) = s.pingRequestSize then return (.inconclusive, s)
  if targetReached = false then
    -- the incarnation is read now
    let member ← s.node.memberlist.read p
    let (_, n) ← s.node.makeSuspect pr env.timeNowMS (env.choices target) member.address
      member.incarnation
    return (.suspected, { s with node := n })
  return (.reachable, s)

/-- `pingNextMember`. -/
def pingNextMember (pr : Primitives) (env : PingSurroundings) (s : Pinger) :
    Except Fault (PingVerdict × Pinger) := do
  let (found, m, iter) ← s.iter.next env.shuffles s.node.memberlist
  let s := { s with node := { s.node with memberlist := m }, iter := iter }
  match found with
  | none => return (.noPingableMembers, s)
  | some p =>
      if s.pinging then return (.alreadyPinging, s)
      let member ← s.node.memberlist.read p
      let target := member.address
      let (req, n) := s.node.sendPing (env.issue target) target
      let n := n.pingReturned target req env.ping.isNone
      match env.ping with
      | some res =>
          let (_, n) ← n.update pr ⟨res.changes, env.choices target⟩
          return (.answered, { s with node := n })
      | none =>
          -- ping failed, send ping requests
          let ((targetReached, errs), s) ←
            indirectPing pr env { s with node := n, pinging := true } target s.pingRequestSize
          s.conclude pr env p target targetReached errs

end Pinger

/-! ### The helpers -/

namespace Memberlist

variable {m : Memberlist} {excluding : List String} {members : List Member}

/-- The members that can be asked. -/
def eligible (m : Memberlist) (excluding : List String) : List Member :=
  m.getMembers.filter fun member =>
    (m.pingable member).toOption = some true && member.address ∉ excluding

theorem filter_of_foldlM {l acc : List Member}
    (h : l.foldlM (fun members member => do
      if (← m.pingable member) && member.address ∉ excluding then return members ++ [member]
      return members) acc = .ok members) :
    members = acc ++ l.filter fun member =>
      (m.pingable member).toOption = some true && member.address ∉ excluding := by
  induction l generalizing acc with
  | nil =>
    obtain rfl : acc = members := Except.ok.inj h
    simp
  | cons member l ih =>
    rw [List.foldlM_cons] at h
    obtain ⟨acc', hstep, h⟩ := exists_of_bind_eq_ok h
    obtain ⟨b, hb, hstep⟩ := exists_of_bind_eq_ok hstep
    have hb' : (m.pingable member).toOption = some b := toOption_eq_some_iff.2 hb
    split_ifs at hstep with hcond
    · obtain rfl := Except.ok.inj hstep
      rw [ih h, List.filter_cons_of_pos (by simpa [hb'] using hcond), List.append_assoc,
        List.singleton_append]
    · obtain rfl := Except.ok.inj hstep
      rw [ih h, List.filter_cons_of_neg (by simpa [hb'] using hcond)]

/-- **`RandomPingableMembers`** returns the first of the members that can be asked, in some
order. -/
theorem eq_of_randomPingableMembers {o : Arrangement Member} {n : ℤ}
    (h : m.randomPingableMembers o n excluding = .ok members) :
    0 ≤ n ∧ members = (o.arrange (m.eligible excluding)).take n.toNat := by
  obtain ⟨all, hall, h⟩ := exists_of_bind_eq_ok h
  obtain rfl : all = m.eligible excluding := filter_of_foldlM hall
  dsimp only at h
  split_ifs at h with hn hneg
  · obtain rfl := Except.ok.inj h
    exact ⟨by omega, (List.take_of_length_le (by omega)).symm⟩
  · cases h
  · exact ⟨by omega, (Except.ok.inj h).symm⟩

/-- With a local member, members can be selected. -/
theorem Local.exists_randomPingableMembers {a : String} (h : m.Local a)
    (hl : m.localMember.isSome) (o : Arrangement Member) {n : ℤ} (hn : 0 ≤ n)
    (excluding : List String) : ∃ members, m.randomPingableMembers o n excluding = .ok members := by
  obtain ⟨l, hget, -⟩ := h.exists_getLocal hl
  obtain ⟨all, hall⟩ := exists_foldlM_of_forall (l := m.getMembers)
    (f := fun members member => do
      if (← m.pingable member) && member.address ∉ excluding then return members ++ [member]
      return members)
    (fun members member _ => by
      obtain ⟨b, hb⟩ := exists_pingable hget member
      simp only [hb, Bind.bind, Except.bind]
      split_ifs
      · exact ⟨_, rfl⟩
      · exact ⟨_, rfl⟩) []
  simp only [randomPingableMembers, Bind.bind, Except.bind] at hall ⊢
  rw [hall]
  dsimp only
  split_ifs with hlength hneg
  · exact ⟨_, rfl⟩
  · omega
  · exact ⟨_, rfl⟩

end Memberlist

namespace PingRequestOutcome

/-- The helper could not be asked. -/
def fails : PingRequestOutcome → Bool
  | response _ => false
  | failed _ => true
  | timedOut => true

/-- The helper has reached the target. -/
def reaches : PingRequestOutcome → Bool
  | response res => res.ok
  | failed _ => false
  | timedOut => false

theorem reaches_of_fails {out : PingRequestOutcome} (h : out.fails = true) :
    out.reaches = false := by
  cases out with
  | response res => cases h
  | failed err => rfl
  | timedOut => rfl

end PingRequestOutcome

namespace Pinger

variable {pr : Primitives} {env : PingSurroundings} {s s' : Pinger} {target : String}
  {peers : List String} {errs errs' : List String} {reached : Bool}

theorem sendPingRequests_spec (env : PingSurroundings) (target : String) (members : List Member)
    (s : Pinger) : (sendPingRequests env target members s).1.map Prod.fst = members ∧
      (sendPingRequests env target members s).2.pingRequestSize = s.pingRequestSize ∧
      (sendPingRequests env target members s).2.node.address = s.node.address ∧
      (sendPingRequests env target members s).2.node.memberlist = s.node.memberlist := by
  induction members generalizing s with
  | nil => exact ⟨rfl, rfl, rfl, rfl⟩
  | cons peer members ih =>
    obtain ⟨hmap, hsame⟩ := ih { s with
      node := (s.node.sendPingRequest (env.issue peer.address) target).2 }
    exact ⟨congrArg (peer :: ·) hmap, hsame⟩

/-- **One result**: an error if the helper could not be asked, and its response otherwise. -/
theorem pingRequestResult_spec {peer : Member} {req : PingRequest}
    {result : Except String PingResponse}
    (h : s.pingRequestResult pr env target peers peer req = .ok (result, s')) :
    s'.pingRequestSize = s.pingRequestSize ∧
      ((∃ err, result = .error err ∧ (env.outcome peer.address).fails = true ∧
          (env.outcome peer.address).reaches = false) ∨
        ∃ res, result = .ok res ∧ (env.outcome peer.address).fails = false ∧
          (env.outcome peer.address).reaches = res.ok) := by
  rw [pingRequestResult] at h
  cases hout : env.outcome peer.address with
  | failed err =>
    rw [hout] at h
    obtain ⟨rfl, rfl⟩ := Prod.mk.inj (Except.ok.inj h)
    exact ⟨rfl, .inl ⟨err, rfl, rfl, rfl⟩⟩
  | timedOut =>
    rw [hout] at h
    obtain ⟨rfl, rfl⟩ := Prod.mk.inj (Except.ok.inj h)
    exact ⟨rfl, .inl ⟨_, rfl, rfl, rfl⟩⟩
  | response res =>
    rw [hout] at h
    obtain ⟨⟨applied, n⟩, -, h⟩ := exists_of_bind_eq_ok h
    obtain ⟨rfl, rfl⟩ := Prod.mk.inj (Except.ok.inj h)
    exact ⟨rfl, .inr ⟨res, rfl, rfl, rfl⟩⟩

/-- **The loop over the results** tells whether the target was reached; if it was not, all
errors were counted. -/
theorem indirectPingLoop_spec {reqs : List (Member × PingRequest)}
    (h : indirectPingLoop pr env target peers reqs errs s = .ok ((reached, errs'), s')) :
    s'.pingRequestSize = s.pingRequestSize ∧
      reached = reqs.any (fun x => (env.outcome x.1.address).reaches) ∧
      (reached = false →
        errs'.length = errs.length + reqs.countP fun x => (env.outcome x.1.address).fails) ∧
      (reached = true → errs'.length < errs.length + reqs.length) := by
  induction reqs generalizing errs s with
  | nil =>
    obtain ⟨hres, rfl⟩ := Prod.mk.inj (Except.ok.inj h)
    obtain ⟨rfl, rfl⟩ := Prod.mk.inj hres
    exact ⟨rfl, rfl, fun _ => rfl, by simp⟩
  | cons x reqs ih =>
    obtain ⟨⟨result, s₁⟩, hone, h⟩ := exists_of_bind_eq_ok h
    obtain ⟨hsize, ⟨err, rfl, hfails, hreaches⟩ | ⟨res, rfl, hfails, hreaches⟩⟩ :=
      pingRequestResult_spec hone
    · obtain ⟨hsize', hany, hcount, hlt⟩ := ih h
      refine ⟨hsize'.trans hsize, ?_, fun hr => ?_, fun hr => ?_⟩
      · rw [List.any_cons, hreaches, Bool.false_or, hany]
      · rw [hcount hr, List.countP_cons, if_pos hfails, List.length_append, List.length_singleton]
        omega
      · have := hlt hr
        rw [List.length_append, List.length_singleton] at this
        rw [List.length_cons]
        omega
    · dsimp only at h
      split_ifs at h with hok
      · obtain ⟨hres, rfl⟩ := Prod.mk.inj (Except.ok.inj h)
        obtain ⟨rfl, rfl⟩ := Prod.mk.inj hres
        refine ⟨hsize, ?_, by simp, fun _ => ?_⟩
        · rw [List.any_cons, hreaches, hok, Bool.true_or]
        · rw [List.length_cons]
          omega
      · obtain ⟨hsize', hany, hcount, hlt⟩ := ih h
        rw [Bool.not_eq_true] at hok
        refine ⟨hsize'.trans hsize, ?_, fun hr => ?_, fun hr => ?_⟩
        · rw [List.any_cons, hreaches, hok, Bool.false_or, hany]
        · rw [hcount hr, List.countP_cons, if_neg (by simp [hfails]), Nat.add_zero]
        · have := hlt hr
          rw [List.length_cons]
          omega

/-- **The indirect ping** asks the helpers. -/
theorem indirectPing_spec {amount : ℤ}
    (h : s.indirectPing pr env target amount = .ok ((reached, errs), s')) :
    s'.pingRequestSize = s.pingRequestSize ∧ ∃ helpers,
      s.node.memberlist.randomPingableMembers env.helpers amount [target] = .ok helpers ∧
      reached = helpers.any (fun h => (env.outcome h.address).reaches) ∧
      (reached = false → errs.length = helpers.countP fun h => (env.outcome h.address).fails) ∧
      (reached = true → errs.length < helpers.length) := by
  obtain ⟨helpers, hhelpers, h⟩ := exists_of_bind_eq_ok h
  obtain ⟨hmap, hsize, -⟩ := sendPingRequests_spec env target helpers { s with emitted :=
    s.emitted ++ [.requestsSend s.node.address target (helpers.map Member.address)] }
  obtain ⟨hsize', hany, hcount, hlt⟩ := indirectPingLoop_spec h
  generalize sendPingRequests env target helpers _ = sent at hmap hsize hsize' hany hcount hlt
  have hperm := env.arrival.perm sent.1
  rw [hperm.any_eq] at hany
  rw [hperm.countP_eq] at hcount
  rw [hperm.length_eq] at hlt
  refine ⟨hsize'.trans hsize, helpers, hhelpers, ?_, fun hr => ?_, fun hr => ?_⟩
  · rw [hany, ← hmap, List.any_map]
    rfl
  · rw [hcount hr, ← hmap, List.countP_map, List.length_nil, Nat.zero_add]
    rfl
  · rw [← hmap, List.length_map]
    simpa using hlt hr

/-- The member is suspected if the target was not reached, and not all helpers that were to
be asked have failed. -/
theorem suspected_iff_of_conclude {p : ℕ} {v : PingVerdict}
    (h : s.conclude pr env p target reached errs = .ok (v, s')) :
    v = .suspected ↔ reached = false ∧ (errs.length : ℤ) ≠ s.pingRequestSize := by
  rw [conclude] at h
  dsimp only at h
  split_ifs at h with herrs hreached
  · obtain ⟨rfl, -⟩ := Prod.mk.inj (Except.ok.inj h)
    simp [herrs]
  · obtain ⟨member, -, h⟩ := exists_of_bind_eq_ok h
    obtain ⟨⟨applied, n⟩, -, h⟩ := exists_of_bind_eq_ok h
    obtain ⟨rfl, -⟩ := Prod.mk.inj (Except.ok.inj h)
    simp [herrs, hreached]
  · obtain ⟨rfl, -⟩ := Prod.mk.inj (Except.ok.inj h)
    simp [hreached]

/-- `MakeSuspect` has made the node of `s'` from that of `s`, for the member at `p` as it was in
`s`. -/
def Suspects (pr : Primitives) (env : PingSurroundings) (s : Pinger) (p : ℕ) (target : String)
    (s' : Pinger) : Prop :=
  ∃ member applied, s.node.memberlist.read p = .ok member ∧
    s.node.makeSuspect pr env.timeNowMS (env.choices target) member.address
      member.incarnation = .ok (applied, s'.node)

/-- **The end of `pingNextMember`**: the member at `p` is suspected, or nothing happens. -/
theorem conclude_cases {p : ℕ} {v : PingVerdict}
    (h : s.conclude pr env p target reached errs = .ok (v, s')) :
    s'.pinging = false ∧ s'.pingRequestSize = s.pingRequestSize ∧ s'.iter = s.iter ∧
      (v ≠ .suspected ∧ s'.node = s.node ∨ v = .suspected ∧ s.Suspects pr env p target s') := by
  rw [conclude] at h
  dsimp only at h
  split_ifs at h
  · obtain ⟨rfl, rfl⟩ := Prod.mk.inj (Except.ok.inj h)
    exact ⟨rfl, rfl, rfl, .inl ⟨by decide, rfl⟩⟩
  · obtain ⟨member, hmember, h⟩ := exists_of_bind_eq_ok h
    obtain ⟨⟨applied, n⟩, hsuspect, h⟩ := exists_of_bind_eq_ok h
    obtain ⟨rfl, rfl⟩ := Prod.mk.inj (Except.ok.inj h)
    exact ⟨rfl, rfl, rfl, .inr ⟨rfl, member, applied, hmember, hsuspect⟩⟩
  · obtain ⟨rfl, rfl⟩ := Prod.mk.inj (Except.ok.inj h)
    exact ⟨rfl, rfl, rfl, .inl ⟨by decide, rfl⟩⟩

/-- The node when the ping to the target has failed, before the helpers are asked. -/
def pinged (env : PingSurroundings) (s : Pinger) (m : Memberlist) (iter : MemberlistIter)
    (target : String) : Pinger :=
  { s with
    node := (Node.sendPing { s.node with memberlist := m } (env.issue target) target).2
    iter := iter
    pinging := true }

/-- `pingNextMember` when the ping to the next member fails. -/
theorem pingNextMember_eq {p : ℕ} {m : Memberlist} {iter : MemberlistIter} {member : Member}
    (hidle : s.pinging = false) (hping : env.ping = none)
    (hnext : s.iter.next env.shuffles s.node.memberlist = .ok (some p, m, iter))
    (hmember : m.read p = .ok member) :
    s.pingNextMember pr env =
      ((s.pinged env m iter member.address).indirectPing pr env member.address
        s.pingRequestSize >>= fun r => r.2.conclude pr env p member.address r.1.1 r.1.2) := by
  rw [pingNextMember, hnext]
  simp only [Bind.bind, Except.bind, hidle, hmember, hping, Bool.false_eq_true, if_false]
  rfl

/-- **The verdict** after a failed ping: who was asked, what is done to the node that their
responses leave, and whether the member is suspected. -/
theorem suspected_iff {p : ℕ} {m : Memberlist} {iter : MemberlistIter} {member : Member}
    {v : PingVerdict} (hidle : s.pinging = false) (hping : env.ping = none)
    (hnext : s.iter.next env.shuffles s.node.memberlist = .ok (some p, m, iter))
    (hmember : m.read p = .ok member) (hrun : s.pingNextMember pr env = .ok (v, s')) :
    ∃ helpers res s₁,
      m.randomPingableMembers env.helpers s.pingRequestSize [member.address] = .ok helpers ∧
      (s.pinged env m iter member.address).indirectPing pr env member.address
        s.pingRequestSize = .ok (res, s₁) ∧
      (v ≠ .suspected ∧ s'.node = s₁.node ∨
        v = .suspected ∧ s₁.Suspects pr env p member.address s') ∧
      (v = .suspected ↔ helpers.any (fun h => (env.outcome h.address).reaches) = false ∧
        ((helpers.countP fun h => (env.outcome h.address).fails : ℕ) : ℤ) ≠
          s.pingRequestSize) := by
  rw [pingNextMember_eq hidle hping hnext hmember] at hrun
  obtain ⟨⟨⟨reached, errs⟩, s₁⟩, hind, hrun⟩ := exists_of_bind_eq_ok hrun
  obtain ⟨hsize, helpers, hhelpers, hreached, hcount, -⟩ := indirectPing_spec hind
  obtain ⟨-, -, -, hcases⟩ := conclude_cases hrun
  refine ⟨helpers, _, s₁, hhelpers, hind, hcases, (suspected_iff_of_conclude hrun).trans ?_⟩
  rw [← hreached, hsize]
  refine and_congr_right fun hr => ?_
  rw [hcount hr]
  exact Iff.rfl

/-! ### The ping returns -/

/-- The node goes on, and has the member at `p` in its list. -/
structure Holds (p : ℕ) (s : Pinger) : Prop where
  live : s.node.Live
  mem : p ∈ s.node.memberlist.list

section returns

variable {p : ℕ}

theorem Holds.congr (h : s.Holds p) (ha : s'.node.address = s.node.address)
    (hm : s'.node.memberlist = s.node.memberlist) : s'.Holds p := by
  refine ⟨⟨⟨?_, ?_⟩, ?_, ?_⟩, ?_⟩ <;> rw [hm]
  · exact h.live.sound.memberlist
  · rw [ha]
    exact h.live.sound.localMember
  · exact h.live.hasLocal
  · exact h.live.valid
  · exact h.mem

/-- The responses of the helpers have valid statuses. -/
def Answerable (env : PingSurroundings) : Prop :=
  ∀ helper res, env.outcome helper = .response res → ∀ c ∈ res.changes, ValidStatus c.status

/-- **One result** is handled. -/
theorem Holds.exists_pingRequestResult (h : s.Holds p) (henv : Answerable env) (pr : Primitives)
    (target : String) (peers : List String) (peer : Member) (req : PingRequest) :
    ∃ result s', s.pingRequestResult pr env target peers peer req = .ok (result, s') ∧
      s'.Holds p := by
  rw [pingRequestResult]
  cases hout : env.outcome peer.address with
  | failed err => exact ⟨_, _, rfl, h.congr rfl rfl⟩
  | timedOut => exact ⟨_, _, rfl, h.congr rfl rfl⟩
  | response res =>
    obtain ⟨applied, n, hup, hn⟩ := h.live.update pr (b := ⟨res.changes, env.choices peer.address⟩)
      (henv _ res hout)
    refine ⟨.ok res, { s with node := n, emitted := s.emitted ++
      [.sendComplete s.node.address target peers peer.address] }, ?_, hn, ?_⟩
    · simp only [Node.pingRequestReturned, Bool.false_eq_true, if_false, hup]
      rfl
    · exact (Node.list_sublist_of_update hup).subset h.mem

/-- **The loop over the results** ends. -/
theorem Holds.exists_indirectPingLoop (h : s.Holds p) (henv : Answerable env) (pr : Primitives)
    (target : String) (peers : List String) (reqs : List (Member × PingRequest))
    (errs : List String) :
    ∃ r s', indirectPingLoop pr env target peers reqs errs s = .ok (r, s') ∧ s'.Holds p := by
  induction reqs generalizing errs s with
  | nil => exact ⟨_, s, rfl, h⟩
  | cons x reqs ih =>
    obtain ⟨result, s₁, hone, hs₁⟩ := h.exists_pingRequestResult henv pr target peers x.1 x.2
    obtain ⟨peer, req⟩ := x
    simp only [indirectPingLoop, Bind.bind, Except.bind, hone]
    cases result with
    | error err => exact ih hs₁ _
    | ok res =>
      dsimp only
      split_ifs
      · exact ⟨_, s₁, rfl, hs₁⟩
      · exact ih hs₁ _

/-- **The indirect ping** ends. -/
theorem Holds.exists_indirectPing (h : s.Holds p) (henv : Answerable env) (pr : Primitives)
    (target : String) {amount : ℤ} (hamount : 0 ≤ amount) :
    ∃ r s', s.indirectPing pr env target amount = .ok (r, s') ∧ s'.Holds p := by
  obtain ⟨helpers, hhelpers⟩ := h.live.sound.localMember.exists_randomPingableMembers
    h.live.hasLocal env.helpers hamount [target]
  obtain ⟨-, -, ha, hm⟩ := sendPingRequests_spec env target helpers { s with emitted :=
    s.emitted ++ [.requestsSend s.node.address target (helpers.map Member.address)] }
  rw [indirectPing, hhelpers]
  exact Holds.exists_indirectPingLoop (h.congr ha hm) henv pr target _ _ _

/-- **The member is suspected**, if it has to be. -/
theorem Holds.exists_conclude (h : s.Holds p) (pr : Primitives) (env : PingSurroundings)
    (target : String) (reached : Bool) (errs : List String) :
    ∃ v s', s.conclude pr env p target reached errs = .ok (v, s') := by
  obtain ⟨x, hx⟩ := (h.live.sound.memberlist.mem_list p).1 h.mem
  obtain ⟨member, hcell, -⟩ := h.live.sound.memberlist.cell x p hx
  obtain ⟨applied, n, hsuspect, -⟩ := h.live.sound.exists_makeStatus h.live.valid
    (validStatus_name .suspect) pr env.timeNowMS (env.choices target) member.address
    member.incarnation
  rw [conclude]
  dsimp only
  split_ifs
  · exact ⟨_, _, rfl⟩
  · have hread : s.node.memberlist.read p = .ok member := by
      rw [Memberlist.read, hcell]
      rfl
    rw [hread]
    refine ⟨.suspected, ⟨n, s.iter, false, s.pingRequestSize, s.emitted⟩, ?_⟩
    exact congrArg (fun r => r >>= fun r => .ok (PingVerdict.suspected,
      (⟨r.2, s.iter, false, s.pingRequestSize, s.emitted⟩ : Pinger))) hsuspect
  · exact ⟨_, _, rfl⟩

/-- **`pingNextMember`** returns when the ping fails. -/
theorem exists_pingNextMember {m : Memberlist} {iter : MemberlistIter} {member : Member}
    (hidle : s.pinging = false) (hsize : 1 ≤ s.pingRequestSize) (hping : env.ping = none)
    (hnext : s.iter.next env.shuffles s.node.memberlist = .ok (some p, m, iter))
    (hmember : m.read p = .ok member) (hgood : IterState.Good ⟨s.node, s.iter, []⟩)
    (hlive : s.node.Live) (henv : Answerable env) (pr : Primitives) :
    ∃ v s', s.pingNextMember pr env = .ok (v, s') := by
  obtain ⟨found, i, hnext', hi, hentry, hfound, -, -⟩ := hgood.next env.shuffles
  rw [IterState.next, hnext] at hnext'
  obtain ⟨rfl, rfl⟩ := Prod.mk.inj (Except.ok.inj hnext')
  have hholds : (s.pinged env m iter member.address).Holds p := by
    refine Holds.congr (s := { s with node := { s.node with memberlist := m } })
      ⟨⟨hi.sound, hi.hasLocal, ?_⟩, hfound p rfl⟩ rfl rfl
    rw [hentry]
    exact hlive.valid
  obtain ⟨r, s₁, hind, hs₁⟩ := hholds.exists_indirectPing henv pr member.address
    (by omega : 0 ≤ s.pingRequestSize)
  obtain ⟨v, s', hconclude⟩ := hs₁.exists_conclude pr env member.address r.1 r.2
  refine ⟨v, s', ?_⟩
  rw [pingNextMember_eq hidle hping hnext hmember, hind]
  exact hconclude

end returns

/-- None of the members that can be asked answers, and there are fewer of them than should be
asked. -/
def FewAllFail (env : PingSurroundings) (size : ℤ) (eligible : List Member) : Prop :=
  (eligible.length : ℤ) < size ∧ eligible ≠ [] ∧
    ∀ h ∈ eligible, (env.outcome h.address).fails = true

/-- Where there are as many errors as helpers to ask, all were asked and have failed. -/
theorem all_fail_of_countP (env : PingSurroundings) {size : ℤ} {helpers : List Member}
    (hlength : helpers.length ≤ size)
    (h : ((helpers.countP fun h => (env.outcome h.address).fails : ℕ) : ℤ) = size) :
    ∀ h ∈ helpers, (env.outcome h.address).fails = true := by
  have hcount := List.countP_le_length (p := fun h : Member => (env.outcome h.address).fails)
    (l := helpers)
  exact List.countP_eq_length.1 (by omega)

/-- **Counting errors**: there are as many errors as helpers to ask exactly if there are
helpers and all have failed, unless these are too few. -/
theorem countP_fails_iff (env : PingSurroundings) {size : ℤ} {o : Arrangement Member}
    {eligible helpers : List Member} (hsize : 1 ≤ size)
    (hhelpers : helpers = (o.arrange eligible).take size.toNat) :
    ((((helpers.countP fun h => (env.outcome h.address).fails : ℕ) : ℤ) = size ↔
        helpers ≠ [] ∧ ∀ h ∈ helpers, (env.outcome h.address).fails = true) ↔
      ¬ FewAllFail env size eligible) := by
  have hperm := o.perm eligible
  have hlength : helpers.length = min size.toNat eligible.length := by
    rw [hhelpers, List.length_take, hperm.length_eq]
  have hcount := List.countP_le_length (p := fun h : Member => (env.outcome h.address).fails)
    (l := helpers)
  by_cases hfew : (eligible.length : ℤ) < size
  · -- all are asked, and their errors are too few
    have htake : helpers = o.arrange eligible := by
      rw [hhelpers, List.take_of_length_le]
      rw [hperm.length_eq]
      omega
    have hfails : FewAllFail env size eligible ↔ helpers ≠ [] ∧
        ∀ h ∈ helpers, (env.outcome h.address).fails = true := by
      simp only [FewAllFail, htake, hfew, true_and, hperm.mem_iff, ← List.length_pos_iff,
        hperm.length_eq]
    rw [hfails]
    have hlt : ((helpers.countP fun h => (env.outcome h.address).fails : ℕ) : ℤ) ≠ size := by
      omega
    simp only [hlt, false_iff, not_and]
  · have hnot : ¬ FewAllFail env size eligible := fun h => hfew h.1
    rw [← List.countP_eq_length, ← List.length_pos_iff]
    simp only [hnot, not_false_eq_true, iff_true]
    omega

end Pinger

/-- **The verdict of an indirect ping.**  When the ping to the next member fails,
`pingNextMember` returns; and it suspects the member exactly if no helper has reached it and it
is not so that there were helpers and all have failed, unless the helpers were fewer than
`pingRequestSize` and all have failed.  That it suspects the member means that the node is what
`MakeSuspect` makes of the one that the responses of the helpers have left; otherwise it is
that one. -/
theorem indirect_ping_verdict_iff (pr : Primitives) (env : PingSurroundings) (s : Pinger) (p : ℕ)
    (m : Memberlist) (iter : MemberlistIter) (member : Member) (hidle : s.pinging = false)
    (hsize : 1 ≤ s.pingRequestSize) (hping : env.ping = none)
    (hnext : s.iter.next env.shuffles s.node.memberlist = .ok (some p, m, iter))
    (hmember : m.read p = .ok member) :
    (IterState.Good ⟨s.node, s.iter, []⟩ → s.node.Live → Pinger.Answerable env →
      ∃ v s', s.pingNextMember pr env = .ok (v, s')) ∧
    ∀ v s', s.pingNextMember pr env = .ok (v, s') →
      ∃ helpers res s₁,
        m.randomPingableMembers env.helpers s.pingRequestSize [member.address] = .ok helpers ∧
        (s.pinged env m iter member.address).indirectPing pr env member.address
          s.pingRequestSize = .ok (res, s₁) ∧
        (v ≠ .suspected ∧ s'.node = s₁.node ∨
          v = .suspected ∧ s₁.Suspects pr env p member.address s') ∧
        ((v = .suspected ↔ (∀ h ∈ helpers, (env.outcome h.address).reaches = false) ∧
            ¬ (helpers ≠ [] ∧ ∀ h ∈ helpers, (env.outcome h.address).fails = true)) ↔
          ¬ Pinger.FewAllFail env s.pingRequestSize (m.eligible [member.address])) := by
  refine ⟨fun hgood hlive henv => Pinger.exists_pingNextMember hidle hsize hping hnext hmember
    hgood hlive henv pr, fun v s' hrun => ?_⟩
  obtain ⟨helpers, res, s₁, hhelpers, hind, hcases, hverdict⟩ :=
    Pinger.suspected_iff hidle hping hnext hmember hrun
  obtain ⟨-, htake⟩ := Memberlist.eq_of_randomPingableMembers hhelpers
  refine ⟨helpers, res, s₁, hhelpers, hind, hcases, ?_⟩
  have hcount := Pinger.countP_fails_iff env hsize htake
  have hany : helpers.any (fun h => (env.outcome h.address).reaches) = false ↔
      ∀ h ∈ helpers, (env.outcome h.address).reaches = false := by
    simp
  have hlength : (helpers.length : ℤ) ≤ s.pingRequestSize := by
    rw [htake, List.length_take]
    omega
  rw [hverdict, hany, ← hcount, and_congr_right_iff, not_iff_not]
  -- either way the helpers have failed, so that none has reached the member
  have hfull := Pinger.all_fail_of_countP env hlength
  have hreaches (hfails : ∀ h ∈ helpers, (env.outcome h.address).fails = true) :
      ∀ h ∈ helpers, (env.outcome h.address).reaches = false :=
    fun h hh => PingRequestOutcome.reaches_of_fails (hfails h hh)
  refine ⟨fun h => ⟨fun hcounted => ?_, fun hall => ?_⟩, fun h _ => h⟩
  · exact (h (hreaches (hfull hcounted))).1 hcounted
  · exact (h (hreaches hall.2)).2 hall

/-- A node that knows two others, before its first ping. -/
def Pinger.ofThree (pingRequestSize : ℤ) : Except Fault Pinger := do
  let i ← IterState.start ⟨fun _ => 0, fun _ => 1⟩ "app" "a" .asIs 5 5 (fun _ => ⟨5, 0⟩)
  let i ← i.run ⟨fun _ => 0, fun _ => 1⟩ (fun _ => .asIs)
    [.update (.single "b" alive), .update (.single "c" alive)]
  return ⟨i.node, i.iter, false, pingRequestSize, []⟩

/-- Nobody answers. -/
def PingSurroundings.silent : PingSurroundings :=
  ⟨fun _ => .asIs, .asIs, fun _ => .asIs, .asIs, none, fun _ => .timedOut, fun _ _ => ⟨5, 0⟩, 5⟩

/-- Each helper that is asked answers that it has not reached the target. -/
def PingSurroundings.denying : PingSurroundings :=
  { silent with outcome := fun _ => .response ⟨false, "c", []⟩ }

theorem Pinger.exists_ofThree (pingRequestSize : ℤ) :
    ∃ s, Pinger.ofThree pingRequestSize = .ok s ∧ s.pinging = false ∧
      s.pingRequestSize = pingRequestSize ∧ IterState.Good ⟨s.node, s.iter, []⟩ ∧
      s.node.Live := by
  obtain ⟨i₀, hstart, hgood₀, hlive₀⟩ := IterState.exists_start ⟨fun _ => 0, fun _ => 1⟩ "app" "a"
    .asIs 5 5 fun _ => ⟨5, 0⟩
  have hvalid : ∀ action ∈ [IterAction.update (.single "b" alive), .update (.single "c" alive)],
      action.Valid := by
    have halive : ValidStatus alive := validStatus_name .alive
    simp [IterAction.Valid, Batch.single, halive]
  obtain ⟨i, hrun, hgood, hlive⟩ := hgood₀.exists_run hlive₀ ⟨fun _ => 0, fun _ => 1⟩
    (fun _ => .asIs) hvalid
  refine ⟨⟨i.node, i.iter, false, pingRequestSize, []⟩, ?_, rfl, rfl,
    ⟨hgood.sound, hgood.hasLocal, hgood.length_pos, hgood.iter, by simp⟩, hlive⟩
  simp only [Pinger.ofThree, hstart, Bind.bind, Except.bind, hrun]
  rfl

/-- With one helper to ask: if the helper fails the node is left as it was, and if it has not
reached the member, `MakeSuspect` is called. -/
theorem indirect_ping_verdict_iff_one :
    ∃ s m iter, Pinger.ofThree 1 = .ok s ∧
      s.iter.next PingSurroundings.silent.shuffles s.node.memberlist = .ok (some 3, m, iter) ∧
      (∃ v s' res s₁, s.pingNextMember ⟨fun _ => 0, fun _ => 1⟩ .silent = .ok (v, s') ∧
        v ≠ .suspected ∧
        (s.pinged .silent m iter "c").indirectPing ⟨fun _ => 0, fun _ => 1⟩ .silent "c" 1 =
          .ok (res, s₁) ∧ s'.node = s₁.node) ∧
      ∃ v s', ∃ s₁ : Pinger, s.pingNextMember ⟨fun _ => 0, fun _ => 1⟩ .denying = .ok (v, s') ∧
        v = .suspected ∧ s₁.Suspects ⟨fun _ => 0, fun _ => 1⟩ .denying 3 "c" s' ∧
        s'.node.memberlist.entry "c" = some ⟨"c", suspect, 1⟩ := by
  obtain ⟨s, hs, hidle, hsize, hgood, hlive⟩ := Pinger.exists_ofThree 1
  have heval : (do
      let s ← Pinger.ofThree 1
      let (found, m, _) ← s.iter.next PingSurroundings.silent.shuffles s.node.memberlist
      let member ← m.read (found.getD 0)
      let helpers ← m.randomPingableMembers PingSurroundings.silent.helpers s.pingRequestSize
        [member.address]
      return decide (found = some 3 ∧ member.address = "c" ∧
        helpers.map Member.address = ["b"] ∧ (m.eligible [member.address]).length = 1)) =
      .ok true := by
    decide +kernel
  obtain ⟨s₀, hs₀, heval⟩ := exists_of_bind_eq_ok heval
  obtain rfl := Except.ok.inj (hs.symm.trans hs₀)
  obtain ⟨⟨found, m, iter⟩, hnext, heval⟩ := exists_of_bind_eq_ok heval
  obtain ⟨member, hmember, heval⟩ := exists_of_bind_eq_ok heval
  obtain ⟨helpers, hhelpers, heval⟩ := exists_of_bind_eq_ok heval
  obtain ⟨rfl, hc, hb, hone⟩ := of_decide_eq_true (Except.ok.inj heval)
  -- one helper is as many as should be asked
  have hfew (env : PingSurroundings) :
      ¬ Pinger.FewAllFail env s.pingRequestSize (m.eligible [member.address]) := fun hfew => by
    simpa [hone, hsize] using hfew.1
  have hne : helpers ≠ [] := by
    rintro rfl
    simp at hb
  refine ⟨s, m, iter, hs, hnext, ?_, ?_⟩
  · obtain ⟨hreturns, hverdict⟩ := indirect_ping_verdict_iff ⟨fun _ => 0, fun _ => 1⟩ .silent
      s 3 m iter member hidle hsize.ge rfl hnext hmember
    obtain ⟨v, s', hping⟩ := hreturns hgood hlive (by rintro helper res h; cases h)
    obtain ⟨helpers', res, s₁, hhelpers', hind, hcases, hiff⟩ := hverdict v s' hping
    obtain rfl : helpers = helpers' := Except.ok.inj (hhelpers.symm.trans hhelpers')
    have hv : v ≠ .suspected := fun hv =>
      (((hiff.2 (hfew _)).1 hv).2 ⟨hne, fun h _ => rfl⟩).elim
    rw [hc, hsize] at hind
    exact ⟨v, s', res, s₁, hping, hv, hind, (hcases.resolve_right fun h => hv h.1).2⟩
  · obtain ⟨hreturns, hverdict⟩ := indirect_ping_verdict_iff ⟨fun _ => 0, fun _ => 1⟩ .denying
      s 3 m iter member hidle hsize.ge rfl hnext hmember
    obtain ⟨v, s', hping⟩ := hreturns hgood hlive (by
      rintro helper res h c hc
      cases h
      cases hc)
    obtain ⟨helpers', res, s₁, hhelpers', hind, hcases, hiff⟩ := hverdict v s' hping
    obtain rfl : helpers = helpers' := Except.ok.inj (hhelpers.symm.trans hhelpers')
    have hv : v = .suspected := (hiff.2 (hfew _)).2 ⟨fun h _ => rfl, fun hall => by
      obtain ⟨h, hh⟩ := List.exists_mem_of_ne_nil _ hall.1
      cases hall.2 h hh⟩
    have hentry : (do
        let s ← Pinger.ofThree 1
        let (_, s') ← s.pingNextMember ⟨fun _ => 0, fun _ => 1⟩ .denying
        return s'.node.memberlist.entry "c") = .ok (some ⟨"c", suspect, 1⟩) := by
      decide +kernel
    simp only [hs, Bind.bind, Except.bind, hping] at hentry
    rw [hc] at hcases
    exact ⟨v, s', s₁, hping, hv, (hcases.resolve_left fun h => h.1 hv).2, Except.ok.inj hentry⟩

/-- With the same helper the member is suspected when three helpers are to be asked, though
nobody could be asked about it. -/
theorem suspected_by_failed_helper :
    ∃ s found m iter member helpers v s', Pinger.ofThree 3 = .ok s ∧
      s.iter.next PingSurroundings.silent.shuffles s.node.memberlist = .ok (found, m, iter) ∧
      m.read (found.getD 0) = .ok member ∧
      m.randomPingableMembers PingSurroundings.silent.helpers s.pingRequestSize
        [member.address] = .ok helpers ∧ helpers.map Member.address = ["b"] ∧
      (∀ h ∈ helpers, (PingSurroundings.silent.outcome h.address).fails = true) ∧
      s.pingNextMember ⟨fun _ => 0, fun _ => 1⟩ .silent = .ok (v, s') ∧ v = .suspected ∧
      (s'.node.memberlist.entry "c").map Member.status = some suspect := by
  have heval : (do
      let s ← Pinger.ofThree 3
      let (found, m, _) ← s.iter.next PingSurroundings.silent.shuffles s.node.memberlist
      let member ← m.read (found.getD 0)
      let helpers ← m.randomPingableMembers PingSurroundings.silent.helpers s.pingRequestSize
        [member.address]
      let (v, s') ← s.pingNextMember ⟨fun _ => 0, fun _ => 1⟩ .silent
      return decide (helpers.map Member.address = ["b"] ∧ v = PingVerdict.suspected ∧
        (s'.node.memberlist.entry "c").map Member.status = some suspect)) = .ok true := by
    decide +kernel
  obtain ⟨s, hs, heval⟩ := exists_of_bind_eq_ok heval
  obtain ⟨⟨found, m, iter⟩, hnext, heval⟩ := exists_of_bind_eq_ok heval
  obtain ⟨member, hmember, heval⟩ := exists_of_bind_eq_ok heval
  obtain ⟨helpers, hhelpers, heval⟩ := exists_of_bind_eq_ok heval
  obtain ⟨⟨v, s'⟩, hping, heval⟩ := exists_of_bind_eq_ok heval
  obtain ⟨hb, hv, hc⟩ := of_decide_eq_true (Except.ok.inj heval)
  exact ⟨s, found, m, iter, member, helpers, v, s', hs, hnext, hmember, hhelpers, hb,
    fun h _ => rfl, hping, hv, hc⟩

end Swim
end Ringpop
