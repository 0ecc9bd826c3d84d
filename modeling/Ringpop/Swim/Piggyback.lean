/-
# Counting how often a change was sent

A pending change is dropped after it was sent `maxP` times.  The counter is kept by
address.  `IssueAsSender` returns the changes of a message with a callback that raises
their counters; the callback runs when the call has returned and raises whatever is
then pending for the addresses of the message.  `Issuer` is a node with the callbacks
that it may still run: they raise their own changes if nothing else was recorded for
their addresses meanwhile (`callbacks_raise_own_changes`).

`pingSender` runs its callback when the call succeeded, `pingRequestSender` when it
failed.  `Sender` is a node with its calls, and `tally` counts the messages that were
delivered: the counters agree with it as long as no ping request carries a change
(`counters_tally`).
-/

import Ringpop.Swim.NodeEffect

namespace Ringpop
namespace Swim

open CellStore Runs Reorder

namespace Disseminator

/-- What is pending for the addresses of the list is what the list says. -/
def Current (d : Disseminator) (cs : List Change) : Prop :=
  ∀ c ∈ cs, ∀ pc, d.entry c.address = some pc → pc.member = c.member

variable {d d' : Disseminator} {cs : List Change} {c : Change} {x : String} {pc : PChange}

theorem current_issueChanges (d : Disseminator) (o : Arrangement Change) :
    d.Current (d.issueChanges o) := by
  intro c hc pc hpc
  obtain ⟨pc', hpc', rfl⟩ := mem_issueChanges.1 hc
  obtain rfl := Option.some.inj (hpc.symm.trans hpc')
  rfl

/-- Dropping entries and raising counters keeps a list current. -/
theorem Current.of_entry (h : d.Current cs) (hd : ∀ x pc, d'.entry x = some pc →
    ∃ pc₀, d.entry x = some pc₀ ∧ pc.toChange = pc₀.toChange) : d'.Current cs := by
  intro c hc pc hpc
  obtain ⟨pc₀, hpc₀, heq⟩ := hd _ pc hpc
  rw [heq]
  exact h c hc pc₀ hpc₀

/-- Recording a change keeps a list current that says the same of its address, or
nothing. -/
theorem Current.recordChange (h : d.Current cs)
    (hc : ∀ c' ∈ cs, c'.address = c.address → c'.member = c.member) :
    (d.recordChange c).Current cs := by
  intro c' hc' pc hpc
  rw [entry_recordChange] at hpc
  by_cases haddr : c'.address = c.address
  · obtain rfl : (⟨c, 0⟩ : PChange) = pc := by simpa [recorded, haddr] using hpc
    exact (hc c' hc' haddr).symm
  · exact h c' hc' pc (by simpa [recorded, haddr] using hpc)

/-- **An entry that a callback changes** is listed in it. -/
theorem Current.mem_of_raised (h : d.Current cs) (hpc : d.entry x = some pc)
    (hraised : (d.bumpPiggybackCounters cs).entry x ≠ some pc) :
    ∃ c ∈ cs, c.member = pc.member := by
  have hx : x ∈ cs.map Change.address := by
    by_contra hx
    exact hraised ((entry_bumpPiggybackCounters_of_notMem hx).trans hpc)
  obtain ⟨c, hc, rfl⟩ := List.mem_map.1 hx
  exact ⟨c, hc, (h c hc pc hpc).symm⟩

end Disseminator

/-! ### Callbacks -/

/-- A node, and the callbacks of `IssueAsSender` that may still be called: the list of
each. -/
structure Issuer where
  node : Node
  callbacks : List (List Change)

/-- What happens to an issuer.  A callback may be called several times, until it is
dropped. -/
inductive IssuerCall where
  | issueAsSender (o : Arrangement Change)
  | recordChange (change : Change)
  | clearChange (address : String)
  | issueAsReceiver (o : Arrangement Change) (senderAddress : String) (senderIncarnation : ℤ)
      (senderChecksum : UInt32)
  | bump (i : ℕ)
  | drop (i : ℕ)

namespace Issuer

/-- One call. -/
def step (s : Issuer) : IssuerCall → Except Fault Issuer
  | .issueAsSender o =>
      let (changes, n) := s.node.issueChanges o
      return ⟨n, s.callbacks ++ [changes]⟩
  | .recordChange c =>
      return { s with node.disseminator := s.node.disseminator.recordChange c }
  | .clearChange address =>
      return { s with node.disseminator := s.node.disseminator.clearChange address }
  | .issueAsReceiver o address incarnation checksum => do
      let (_, n) ← s.node.issueAsReceiver o address incarnation checksum
      return { s with node := n }
  | .bump i =>
      match s.callbacks[i]? with
      | some changes => return { s with node := s.node.bumpPiggybackCounters changes }
      | none => return s
  | .drop i => return { s with callbacks := s.callbacks.eraseIdx i }

/-- A sequence of calls. -/
def run (s : Issuer) (calls : List IssuerCall) : Except Fault Issuer := calls.foldlM step s

/-- What is recorded for an address is what every callback lists for it. -/
def Undisturbed (s : Issuer) : IssuerCall → Prop
  | .recordChange c => ∀ cs ∈ s.callbacks, ∀ c' ∈ cs, c'.address = c.address →
      c'.status = c.status ∧ c'.incarnation = c.incarnation
  | _ => True

instance (s : Issuer) (call : IssuerCall) : Decidable (s.Undisturbed call) := by
  cases call with
  | recordChange c => exact inferInstanceAs (Decidable (∀ cs ∈ s.callbacks, _))
  | _ => exact .isTrue trivial

variable {s s' : Issuer} {call : IssuerCall}

/-- **One call** keeps every callback current. -/
theorem exists_step (h : ∀ cs ∈ s.callbacks, s.node.disseminator.Current cs)
    (hcall : s.Undisturbed call) :
    ∃ s', s.step call = .ok s' ∧ ∀ cs ∈ s'.callbacks, s'.node.disseminator.Current cs := by
  cases call with
  | issueAsSender o =>
    refine ⟨_, rfl, fun cs hcs => ?_⟩
    rcases List.mem_append.1 hcs with hcs | hcs
    · exact h cs hcs
    · obtain rfl := List.mem_singleton.1 hcs
      exact Disseminator.current_issueChanges _ o
  | recordChange c =>
    refine ⟨_, rfl, fun cs hcs => (h cs hcs).recordChange fun c' hc' haddr => ?_⟩
    obtain ⟨hstatus, hinc⟩ := hcall cs hcs c' hc' haddr
    rw [Change.member, Change.member, haddr, hstatus, hinc]
  | clearChange address =>
    refine ⟨_, rfl, fun cs hcs => (h cs hcs).of_entry fun x pc hpc => ?_⟩
    rw [Disseminator.entry_clearChange] at hpc
    split_ifs at hpc
    exact ⟨pc, hpc, rfl⟩
  | issueAsReceiver o address incarnation checksum =>
    obtain ⟨kept, changes, full, n', hissue, hi⟩ :=
      s.node.issueAsReceiver_spec o address incarnation checksum
    refine ⟨⟨n', s.callbacks⟩, by rw [step, hissue]; rfl, fun cs hcs => ?_⟩
    rw [hi.disseminator]
    exact (h cs hcs).of_entry fun x pc => Disseminator.of_entry_bumpPiggybackCounters
  | bump i =>
    rw [step]
    cases s.callbacks[i]? with
    | none => exact ⟨s, rfl, h⟩
    | some changes =>
      exact ⟨_, rfl, fun cs hcs =>
        (h cs hcs).of_entry fun x pc => Disseminator.of_entry_bumpPiggybackCounters⟩
  | drop i =>
    exact ⟨_, rfl, fun cs hcs => h cs (List.mem_of_mem_eraseIdx hcs)⟩

end Issuer

/-- **A callback raises its own changes.**  In a run in which no change is recorded for an
address of a callback that may still be called, but for the change that the callback
lists: an entry that a callback raises or drops has the address, status and incarnation of
a change of its list.  No call of the run fails. -/
theorem callbacks_raise_own_changes (n : Node) (calls : List IssuerCall)
    (hcalls : Along Issuer.step Issuer.Undisturbed ⟨n, []⟩ calls) :
    ∃ s, Issuer.run ⟨n, []⟩ calls = .ok s ∧ ∀ cs ∈ s.callbacks, ∀ x pc,
      s.node.disseminator.entry x = some pc →
      (s.node.bumpPiggybackCounters cs).disseminator.entry x ≠ some pc →
        ∃ c ∈ cs, c.address = x ∧ c.status = pc.status ∧ c.incarnation = pc.incarnation := by
  obtain ⟨s, hrun, hs⟩ := hcalls.exists_foldlM
    (I := fun s => ∀ cs ∈ s.callbacks, s.node.disseminator.Current cs)
    (fun s call => Issuer.exists_step) (by simp)
  refine ⟨s, hrun, fun cs hcs x pc hpc hraised => ?_⟩
  obtain ⟨c, hc, hmember⟩ := (hs cs hcs).mem_of_raised hpc hraised
  exact ⟨c, hc, (congrArg Member.address hmember).trans (Disseminator.address_of_entry hpc),
    congrArg Member.status hmember, congrArg Member.incarnation hmember⟩

/-- A callback that is called after a change of another address was recorded. -/
theorem callbacks_raise_own_changes_other :
    ∃ s cs pc, Issuer.run ⟨.new "app" "a", []⟩ [.recordChange ⟨"s", 1, "x", 1, alive⟩,
        .issueAsSender .asIs, .recordChange ⟨"s", 1, "y", 1, alive⟩] = .ok s ∧
      cs ∈ s.callbacks ∧ s.node.disseminator.entry "x" = some pc ∧
      (s.node.bumpPiggybackCounters cs).disseminator.entry "x" ≠ some pc ∧
      ∃ c ∈ cs, c.address = "x" ∧ c.status = pc.status ∧ c.incarnation = pc.incarnation := by
  obtain ⟨s, hrun, hs⟩ := callbacks_raise_own_changes (.new "app" "a")
    [.recordChange ⟨"s", 1, "x", 1, alive⟩, .issueAsSender .asIs,
      .recordChange ⟨"s", 1, "y", 1, alive⟩] (by decide +kernel)
  obtain ⟨s', hrun', heval⟩ := exists_of_map_eq_ok
    (x := Issuer.run ⟨.new "app" "a", []⟩ [.recordChange ⟨"s", 1, "x", 1, alive⟩,
      .issueAsSender .asIs, .recordChange ⟨"s", 1, "y", 1, alive⟩])
    (F := fun s => (s.callbacks, s.node.disseminator.entry "x",
      (s.node.bumpPiggybackCounters [⟨"s", 1, "x", 1, alive⟩]).disseminator.entry "x"))
    (b := ([[⟨"s", 1, "x", 1, alive⟩]], some ⟨⟨"s", 1, "x", 1, alive⟩, 0⟩,
      some ⟨⟨"s", 1, "x", 1, alive⟩, 1⟩)) (by decide +kernel)
  obtain rfl := Except.ok.inj (hrun.symm.trans hrun')
  obtain ⟨hcallbacks, hentry⟩ := Prod.mk.inj heval
  obtain ⟨hentry, hraised⟩ := Prod.mk.inj hentry
  have hmem : [⟨"s", 1, "x", 1, alive⟩] ∈ s.callbacks := by
    rw [hcallbacks]
    exact .head _
  have hne : (s.node.bumpPiggybackCounters [⟨"s", 1, "x", 1, alive⟩]).disseminator.entry "x" ≠
      some ⟨⟨"s", 1, "x", 1, alive⟩, 0⟩ := by
    rw [hraised]
    decide
  exact ⟨s, _, _, hrun, hmem, hentry, hne, hs _ hmem "x" _ hentry hne⟩

/-- The change of `x` is replaced while a message with the old one is on its way: the
callback of the message raises the counter of the new change. -/
theorem callback_raises_newer_change :
    ∃ s pc pc', Issuer.run ⟨.new "app" "a", []⟩ [.recordChange ⟨"s", 1, "x", 1, alive⟩,
        .issueAsSender .asIs, .recordChange ⟨"s", 1, "x", 1, suspect⟩] = .ok s ∧
      s.callbacks = [[⟨"s", 1, "x", 1, alive⟩]] ∧
      s.node.disseminator.entry "x" = some pc ∧ pc.status = suspect ∧ pc.p = 0 ∧
      (s.node.bumpPiggybackCounters [⟨"s", 1, "x", 1, alive⟩]).disseminator.entry "x" =
        some pc' ∧ pc'.status = suspect ∧ pc'.p = 1 :=
  ⟨_, ⟨⟨"s", 1, "x", 1, suspect⟩, 0⟩, ⟨⟨"s", 1, "x", 1, suspect⟩, 1⟩, rfl, by decide +kernel,
    by decide +kernel, rfl, rfl, by decide +kernel, rfl, rfl⟩

/-! ### Calls -/

/-- A call that has not returned: a ping with its target, or a ping request. -/
inductive Flight where
  | ping (target : String) (req : Ping)
  | pingRequest (req : PingRequest)

/-- The changes that the call carries. -/
def Flight.changes : Flight → List Change
  | ping _ req => req.changes
  | pingRequest req => req.changes

/-- A node and its calls.  `tally` counts for each address the messages that were
delivered with the change that is pending for it, since that change was recorded: calls
that succeeded, and responses. -/
structure Sender where
  node : Node
  flights : List Flight
  tally : String → ℕ

/-- What happens to a sender. -/
inductive SenderCall where
  | record (change : Change)
  | adjust (maxP : ℕ)
  | sendPing (o : Arrangement Change) (target : String)
  | sendPingRequest (o : Arrangement Change) (target : String)
  | returned (i : ℕ) (failed : Bool)
  | respond (o : Arrangement Change) (senderAddress : String) (senderIncarnation : ℤ)
      (senderChecksum : UInt32)

namespace Sender

/-- The message carries the change that is pending for the address. -/
def carries (d : Disseminator) (cs : List Change) (x : String) : Bool :=
  (d.entry x).any fun pc => cs.any fun c => c.member = pc.member

/-- Count a message that was delivered, among what is pending before its callback. -/
def delivered (s : Sender) (cs : List Change) : String → ℕ := fun x =>
  if carries s.node.disseminator cs x then s.tally x + 1 else s.tally x

/-- A call has returned. -/
def flightReturned (n : Node) (failed : Bool) : Flight → Node
  | .ping target req => n.pingReturned target req failed
  | .pingRequest req => n.pingRequestReturned req failed

/-- One call. -/
def step (s : Sender) : SenderCall → Except Fault Sender
  | .record c =>
      return { s with
        node.disseminator := s.node.disseminator.recordChange c
        tally := Function.update s.tally c.address 0 }
  | .adjust maxP => return { s with node.disseminator.maxP := maxP }
  | .sendPing o target =>
      let (req, n) := s.node.sendPing o target
      return { s with node := n, flights := s.flights ++ [.ping target req] }
  | .sendPingRequest o target =>
      let (req, n) := s.node.sendPingRequest o target
      return { s with node := n, flights := s.flights ++ [.pingRequest req] }
  | .returned i failed =>
      match s.flights[i]? with
      | none => return s
      | some f => return {
          node := flightReturned s.node failed f
          flights := s.flights.eraseIdx i
          tally := if failed then s.tally else s.delivered f.changes }
  | .respond o address incarnation checksum => do
      let ((changes, full), n) ← s.node.issueAsReceiver o address incarnation checksum
      return { s with node := n, tally := if full then s.tally else s.delivered changes }

/-- A sequence of calls. -/
def run (s : Sender) (calls : List SenderCall) : Except Fault Sender := calls.foldlM step s

/-- No change is recorded while a message carries one of its address. -/
def Undisturbed (s : Sender) : SenderCall → Prop
  | .record c => ∀ f ∈ s.flights, ∀ c' ∈ f.changes, c'.address ≠ c.address
  | _ => True

/-- A ping request is sent only while nothing is pending. -/
def RequestsEmpty (s : Sender) : SenderCall → Prop
  | .sendPingRequest _ _ => s.node.disseminator.changes.entries.isEmpty = true
  | _ => True

instance (s : Sender) (call : SenderCall) : Decidable (s.Undisturbed call) := by
  cases call with
  | record c => exact inferInstanceAs (Decidable (∀ f ∈ s.flights, _))
  | _ => exact .isTrue trivial

instance (s : Sender) (call : SenderCall) : Decidable (s.RequestsEmpty call) := by
  cases call with
  | sendPingRequest o target => exact inferInstanceAs (Decidable (_ = true))
  | _ => exact .isTrue trivial

/-- The counters agree with the tally.  The calls list what is pending, each address
once, and the ping requests list nothing. -/
structure Tallied (s : Sender) : Prop where
  counter : ∀ x pc, s.node.disseminator.entry x = some pc → pc.p = s.tally x
  current : ∀ f ∈ s.flights, s.node.disseminator.Current f.changes
  nodup : ∀ f ∈ s.flights, (f.changes.map Change.address).Nodup
  empty : ∀ req, .pingRequest req ∈ s.flights → req.changes = []

variable {s s' : Sender} {cs : List Change} {call : SenderCall}

/-- **Raising the counters of a message** counts the message. -/
theorem counter_delivered (hcounter : ∀ x pc, s.node.disseminator.entry x = some pc →
      pc.p = s.tally x)
    (hcurrent : s.node.disseminator.Current cs) (hnodup : (cs.map Change.address).Nodup)
    {x : String} {pc : PChange}
    (hpc : (s.node.disseminator.bumpPiggybackCounters cs).entry x = some pc) :
    pc.p = s.delivered cs x := by
  rw [Disseminator.entry_bumpPiggybackCounters hnodup] at hpc
  split_ifs at hpc with hx
  · obtain ⟨pc₀, hpc₀, hraise⟩ := Option.bind_eq_some_iff.1 hpc
    obtain ⟨c, hc, rfl⟩ := List.mem_map.1 hx
    have hcarries : carries s.node.disseminator cs c.address = true := by
      rw [carries, hpc₀, Option.any_some, List.any_eq_true]
      exact ⟨c, hc, decide_eq_true (hcurrent c hc pc₀ hpc₀).symm⟩
    rw [delivered, if_pos hcarries, ← hcounter _ pc₀ hpc₀]
    rw [Disseminator.raise] at hraise
    split_ifs at hraise
    obtain rfl := Option.some.inj hraise
    rfl
  · have hcarries : carries s.node.disseminator cs x = false := by
      rw [carries, hpc, Option.any_some, List.any_eq_false]
      intro c hc hmember
      have haddr : c.address = pc.address := congrArg Member.address (of_decide_eq_true hmember)
      refine hx (List.mem_map.2 ⟨c, hc, haddr.trans (Disseminator.address_of_entry hpc)⟩)
    rw [delivered, hcarries, if_neg (by decide)]
    exact hcounter x pc hpc

/-- Raising counters keeps the calls current. -/
theorem Tallied.bump {n : Node} {fs : List Flight} {tally : String → ℕ} (h : s.Tallied)
    (cs : List Change) (hfs : fs ⊆ s.flights)
    (hd : n.disseminator = s.node.disseminator.bumpPiggybackCounters cs)
    (hcounter : ∀ x pc, (s.node.disseminator.bumpPiggybackCounters cs).entry x = some pc →
      pc.p = tally x) : Tallied ⟨n, fs, tally⟩ where
  counter := by rwa [hd]
  current f hf := by
    rw [hd]
    exact (h.current f (hfs hf)).of_entry fun x pc => Disseminator.of_entry_bumpPiggybackCounters
  nodup f hf := h.nodup f (hfs hf)
  empty req hreq := h.empty req (hfs hreq)

/-- A message that carries nothing is counted nowhere. -/
theorem delivered_nil (s : Sender) : s.delivered [] = s.tally := by
  funext x
  rw [delivered, carries]
  cases s.node.disseminator.entry x <;> rfl

/-- **A call that returns**: a ping is counted if it succeeded, and a ping request had
nothing to count. -/
theorem Tallied.returned {i : ℕ} {f : Flight} (h : s.Tallied) (hf : s.flights[i]? = some f)
    (failed : Bool) : Tallied {
      node := flightReturned s.node failed f
      flights := s.flights.eraseIdx i
      tally := if failed then s.tally else s.delivered f.changes } := by
  have hmem : f ∈ s.flights := List.mem_of_getElem? hf
  have hsub : s.flights.eraseIdx i ⊆ s.flights := List.eraseIdx_subset ..
  cases f with
  | pingRequest req =>
    have hnil : req.changes = [] := h.empty req hmem
    refine h.bump [] hsub ?_ fun x pc hpc => ?_
    · cases failed with
      | true => simp only [flightReturned, Node.pingRequestReturned, hnil]; rfl
      | false => rfl
    · rw [Flight.changes, hnil, delivered_nil, ite_self]
      exact h.counter x pc hpc
  | ping target req =>
    cases failed with
    | true => exact h.bump [] hsub rfl h.counter
    | false =>
      exact h.bump req.changes hsub rfl fun x pc =>
        counter_delivered h.counter (h.current _ hmem) (h.nodup _ hmem)

/-- **A change recorded** starts its counter and its tally again. -/
theorem Tallied.record {c : Change} (h : s.Tallied) (hcall : s.Undisturbed (.record c)) :
    ∃ s', s.step (.record c) = .ok s' ∧ s'.Tallied := by
  refine ⟨_, rfl, fun x pc hpc => ?_, fun f hf => ?_, h.nodup, h.empty⟩
  · rw [Disseminator.entry_recordChange, Disseminator.recorded, List.foldl_cons] at hpc
    by_cases hx : x = c.address
    · subst hx
      obtain rfl : (⟨c, 0⟩ : PChange) = pc := by simpa using hpc
      simp
    · exact (h.counter x pc (by simpa [hx] using hpc)).trans (Function.update_of_ne hx ..).symm
  · exact (h.current f hf).recordChange fun c' hc' haddr => absurd haddr (hcall f hf c' hc')

/-- **A message sent** lists what is pending. -/
theorem Tallied.send {n : Node} {o : Arrangement Change} {f : Flight} (h : s.Tallied)
    (hn : n.disseminator = s.node.disseminator)
    (hf : f.changes = s.node.disseminator.issueChanges o)
    (hempty : ∀ req, f = .pingRequest req → req.changes = []) :
    Tallied ⟨n, s.flights ++ [f], s.tally⟩ := by
  refine ⟨by rw [hn]; exact h.counter, ?_, ?_, ?_⟩
  · simp only [hn, List.forall_mem_append, List.forall_mem_singleton, hf]
    exact ⟨h.current, Disseminator.current_issueChanges _ o⟩
  · simp only [List.forall_mem_append, List.forall_mem_singleton, hf]
    exact ⟨h.nodup, Disseminator.nodup_issueChanges ..⟩
  · intro req hreq
    rcases List.mem_append.1 hreq with hreq | hreq
    · exact h.empty req hreq
    · exact hempty req (List.mem_singleton.1 hreq).symm

/-- **A response** is counted if it lists changes; a full sync is not. -/
theorem Tallied.respond (h : s.Tallied) (o : Arrangement Change) (address : String)
    (incarnation : ℤ) (checksum : UInt32) :
    ∃ s', s.step (.respond o address incarnation checksum) = .ok s' ∧ s'.Tallied := by
  obtain ⟨kept, changes, full, n', hissue, hi⟩ :=
    s.node.issueAsReceiver_spec o address incarnation checksum
  refine ⟨⟨n', s.flights, if full then s.tally else s.delivered changes⟩,
    by rw [step, hissue]; rfl, h.bump kept (fun _ hf => hf) hi.disseminator fun x pc hpc => ?_⟩
  have hmem (c : Change) (hc : c ∈ kept) : c ∈ s.node.disseminator.issueChanges o :=
    Disseminator.mem_issueChanges.2 (hi.mem_kept.1 hc).1
  rcases hi.changes with ⟨rfl, rfl, -⟩ | ⟨rfl, -, rfl, -⟩
  · refine counter_delivered h.counter
      (fun c hc => Disseminator.current_issueChanges _ o c (hmem c hc)) ?_ hpc
    refine (hi.perm.map _).nodup_iff.2 ?_
    exact (List.filter_sublist.map _).nodup (Disseminator.nodup_issueChanges _ o)
  · exact h.counter x pc hpc

/-- **One call** keeps the counters in agreement with the tally. -/
theorem Tallied.exists_step (h : s.Tallied) (hcall : s.Undisturbed call ∧ s.RequestsEmpty call) :
    ∃ s', s.step call = .ok s' ∧ s'.Tallied := by
  cases call with
  | record c => exact h.record hcall.1
  | adjust maxP => exact ⟨_, rfl, h.counter, h.current, h.nodup, h.empty⟩
  | sendPing o target => exact ⟨_, rfl, h.send (o := o) rfl rfl fun req hreq => by cases hreq⟩
  | sendPingRequest o target =>
    refine ⟨_, rfl, h.send (o := o) rfl rfl fun req hreq => ?_⟩
    obtain rfl := Flight.pingRequest.inj hreq
    have hnil : s.node.disseminator.changes.entries = [] := List.isEmpty_iff.1 hcall.2
    refine List.eq_nil_iff_forall_not_mem.2 fun c hc => ?_
    rw [show c ∈ _ ↔ c ∈ s.node.disseminator.issueChanges o from Iff.rfl,
      Disseminator.issueChanges, Arrangement.mem_arrange, hnil] at hc
    cases hc
  | returned i failed =>
    rw [step]
    cases hf : s.flights[i]? with
    | none => exact ⟨s, rfl, h⟩
    | some f => exact ⟨_, rfl, h.returned hf failed⟩
  | respond o address incarnation checksum => exact h.respond o address incarnation checksum

end Sender

/-- **The counters tell how often a change was delivered.**  In a run from a node without
pending changes in which no change is recorded while a message carries one of its
address, and in which a ping request is sent only while nothing is pending: the counter of
every pending change is the number of calls that succeeded and of responses, full syncs
apart, that carried it since it was recorded.  A call that fails leaves the disseminator
as it is. -/
theorem counters_tally (n : Node) (calls : List SenderCall)
    (hn : n.disseminator.changes.entries = [])
    (hundisturbed : Along Sender.step Sender.Undisturbed ⟨n, [], fun _ => 0⟩ calls)
    (hrequests : Along Sender.step Sender.RequestsEmpty ⟨n, [], fun _ => 0⟩ calls) :
    ∃ s, Sender.run ⟨n, [], fun _ => 0⟩ calls = .ok s ∧
      (∀ x pc, s.node.disseminator.entry x = some pc → pc.p = s.tally x) ∧
      ∀ i, ∃ s', s.step (.returned i true) = .ok s' ∧
        s'.node.disseminator = s.node.disseminator := by
  have hstart : Sender.Tallied ⟨n, [], fun _ => 0⟩ := by
    refine ⟨fun x pc hpc => ?_, by simp, by simp, by simp⟩
    rw [Disseminator.entry, AList.lookup, hn] at hpc
    cases hpc
  obtain ⟨s, hrun, hs⟩ := (hundisturbed.and hrequests).exists_foldlM
    (fun s call hs => hs.exists_step) hstart
  refine ⟨s, hrun, hs.counter, fun i => ?_⟩
  rw [Sender.step]
  cases hf : s.flights[i]? with
  | none => exact ⟨s, rfl, rfl⟩
  | some f =>
    refine ⟨_, rfl, ?_⟩
    cases f with
    | ping target req => rfl
    | pingRequest req =>
      simp only [Sender.flightReturned, Node.pingRequestReturned,
        hs.empty req (List.mem_of_getElem? hf)]
      rfl

/-- Two pings with a change, one of which fails, and a ping request before. -/
theorem counters_tally_pings :
    ∃ s, Sender.run ⟨.new "app" "a", [], fun _ => 0⟩ [.sendPingRequest .asIs "y",
        .record ⟨"s", 1, "x", 1, alive⟩, .sendPing .asIs "y", .sendPing .asIs "z",
        .returned 1 true, .returned 1 false] = .ok s ∧
      ∀ x pc, s.node.disseminator.entry x = some pc → pc.p = s.tally x := by
  obtain ⟨s, hrun, hcounter, -⟩ := counters_tally (.new "app" "a") [.sendPingRequest .asIs "y",
    .record ⟨"s", 1, "x", 1, alive⟩, .sendPing .asIs "y", .sendPing .asIs "z",
    .returned 1 true, .returned 1 false] rfl (by decide +kernel) (by decide +kernel)
  exact ⟨s, hrun, hcounter⟩

/-- A ping request with a change: the counter goes up if the call fails and not if it
succeeds, and failed calls alone drop the change. -/
theorem counters_miscount :
    (∃ s pc, Sender.run ⟨.new "app" "a", [], fun _ => 0⟩ [.record ⟨"s", 1, "x", 1, alive⟩,
        .sendPingRequest .asIs "y", .returned 0 true] = .ok s ∧
      s.node.disseminator.entry "x" = some pc ∧ pc.p = 1 ∧ s.tally "x" = 0) ∧
    (∃ s pc, Sender.run ⟨.new "app" "a", [], fun _ => 0⟩ [.record ⟨"s", 1, "x", 1, alive⟩,
        .sendPingRequest .asIs "y", .returned 0 false] = .ok s ∧
      s.node.disseminator.entry "x" = some pc ∧ pc.p = 0 ∧ s.tally "x" = 1) ∧
    ∃ s, Sender.run ⟨.new "app" "a", [], fun _ => 0⟩ [.adjust 1, .record ⟨"s", 1, "x", 1, alive⟩,
        .sendPingRequest .asIs "y", .returned 0 true] = .ok s ∧
      s.node.disseminator.entry "x" = none :=
  ⟨⟨_, ⟨⟨"s", 1, "x", 1, alive⟩, 1⟩, rfl, by decide +kernel, rfl, by decide +kernel⟩,
    ⟨_, ⟨⟨"s", 1, "x", 1, alive⟩, 0⟩, rfl, by decide +kernel, rfl, by decide +kernel⟩,
    _, rfl, by decide +kernel⟩

end Swim
end Ringpop
