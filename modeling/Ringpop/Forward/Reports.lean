/-
# What the events of a request tell

A forwarder emits events while it sends a request; the trace of the request has them beside
its calls and what they come to.  Whoever hears the events of one request can say where it
went: `servers` reads the servers off the events, and every event has one cause
(`events_tell_calls`).
-/

import Ringpop.Forward.Attempts

namespace Ringpop
namespace Forward

open CellStore

/-- The servers that a request was sent to, the last one first, after one more event: a retry
goes where the attempt before went, unless it is rerouted or aborted. -/
def Event.route : List String → Event → List String
  | x :: servers, .retryAttempt => x :: x :: servers
  | _ :: servers, .reroute _ newDestination => newDestination :: servers
  | _ :: servers, .retryAbort _ => servers
  | servers, _ => servers

/-- The servers that a request to a destination was sent to, as its events tell. -/
def servers (destination : String) (events : List Event) : List String :=
  (events.foldl Event.route [destination]).reverse

variable {env : Surroundings} {q : Request} {k : ℕ} {x : String} {calls : List (String × Reply)}
  {events : List Event} {e : Except Fault (Except String Bytes)}

/-! ### What the events tell -/

namespace Trace

/-- The next attempt goes where the events say. -/
theorem route_reroutes (q : Request) (x dest : String) (before : List String) :
    (.retryAttempt :: q.reroutes x dest).foldl Event.route (x :: before) =
      (if q.rerouteRetries then dest else x) :: x :: before := by
  rw [List.foldl_cons, Event.route, Request.reroutes]
  by_cases hmove : q.rerouteRetries = true ∧ dest ≠ x
  · rw [if_pos hmove, if_pos hmove.1]
    rfl
  · rw [if_neg hmove]
    split_ifs with hreroute
    · obtain rfl : dest = x := by
        by_contra hne
        exact hmove ⟨hreroute, hne⟩
      rfl
    · rfl

/-- **The events tell the servers** of the calls. -/
theorem route_eq (h : Trace env q k x calls events e) (before : List String) :
    events.foldl Event.route (x :: before) = (calls.map Prod.fst).reverse ++ before := by
  induction h generalizing before with
  | @result k x b h =>
    by_cases hk : 0 < k
    · rw [if_pos hk]
      rfl
    · rw [if_neg hk]
      rfl
  | retry h hk hlen hdest hrest ih =>
    rw [← List.cons_append, List.foldl_append, route_reroutes, ih, List.map_cons,
      List.reverse_cons, List.append_assoc]
    rfl
  | _ => rfl

/-- **One event for each retry**, and no more than that when a retry is made. -/
theorem count_retry (q : Request) (k : ℕ) (x dest : String) (events : List Event) :
    k + List.count .retryAttempt (.retryAttempt :: (q.reroutes x dest ++ events)) =
      k + 1 + events.count .retryAttempt := by
  rw [List.count_cons_self, List.count_append, Request.count_reroutes]
  omega

/-- **A retry that succeeds** is reported with its number. -/
theorem retrySuccess_mem_iff (h : Trace env q k x calls events e) (n : ℕ) :
    .retrySuccess n ∈ events ↔
      (∃ b, e = .ok (.ok b)) ∧ n = k + events.count .retryAttempt ∧ 0 < n := by
  induction h with
  | @result k x b h =>
    split_ifs with hk
    · simp only [List.mem_singleton, Event.retrySuccess.injEq, Except.ok.injEq, exists_eq',
        true_and, List.count_singleton, reduceCtorEq, if_false, beq_iff_eq, Nat.add_zero]
      exact ⟨fun h => ⟨h, h ▸ hk⟩, And.left⟩
    · simp only [List.not_mem_nil, Except.ok.injEq, exists_eq', true_and, false_iff, not_and,
        List.count_nil]
      omega
  | retry h hk hlen hdest hrest ih =>
    rw [count_retry, ← ih]
    simp [Request.mem_reroutes]
  | _ => simp

/-- **An abort** is reported where the keys of the last retry belong to more than one server, or
to none. -/
theorem retryAbort_mem_iff (h : Trace env q k x calls events e) (reason : String) :
    .retryAbort reason ∈ events ↔ reason = errDestinationsDiverged ∧
      0 < events.count .retryAttempt ∧
      env.resolve (k + events.count .retryAttempt) q.keys = none := by
  induction h with
  | @result k x b h => split_ifs <;> simp
  | diverged h hk hlen hkeys => simp [hkeys]
  | @retry k x err dest calls events e h hk hlen hdest hrest ih =>
    rw [count_retry]
    have hmem : .retryAbort reason ∈ .retryAttempt :: (q.reroutes x dest ++ events) ↔
        .retryAbort reason ∈ events := by simp [Request.mem_reroutes]
    rw [hmem, ih]
    refine and_congr_right fun _ => ⟨fun hlast => ⟨?_, hlast.2⟩, fun hlast => ⟨?_, hlast.2⟩⟩
    · rw [List.count_cons_self]
      exact Nat.succ_pos _
    · -- the keys belong to one server at this retry
      refine Nat.pos_of_ne_zero fun hzero => ?_
      rw [hzero, Nat.add_zero] at hlast
      cases hdest.symm.trans hlast.2
  | _ => simp

/-- **The last retry** is reported where all calls failed that could be made. -/
theorem maxRetries_mem_iff (h : Trace env q k x calls events e)
    (hk : k ≤ q.maxRetries.toNat) (n : ℤ) :
    .maxRetries n ∈ events ↔ n = q.maxRetries ∧ k + calls.length = q.maxRetries.toNat + 1 ∧
      ∀ c ∈ calls, ∃ err, env.read q.format c.2 = .forwardError err := by
  induction h with
  | @result k x b h =>
    have hres : env.read q.format (q.callMade env k x).2 = .result b := h
    split_ifs <;> simp [hres]
  | @rejected k x err h =>
    have hres : env.read q.format (q.callMade env k x).2 = .applicationError err := h
    simp [hres]
  | @timedOut k x h =>
    have hres : env.read q.format (q.callMade env k x).2 = .timedOut := h
    simp [hres]
  | @exhausted k x err h hmax =>
    have hres : env.read q.format (q.callMade env k x).2 = .forwardError err := h
    simp only [List.mem_singleton, Event.maxRetries.injEq, List.length_singleton, forall_eq, hres]
    simp
    omega
  | @outrun k x err h hmax hlen =>
    simp only [List.not_mem_nil, List.length_singleton, false_iff, not_and]
    omega
  | @diverged k x err h hmax hlen hkeys =>
    simp only [List.mem_cons, reduceCtorEq, List.not_mem_nil, or_false, List.length_singleton,
      false_iff, not_and]
    omega
  | @retry k x err dest calls events e h hmax hlen hdest hrest ih =>
    have hres : ∃ err, env.read q.format (q.callMade env k x).2 = .forwardError err := ⟨err, h⟩
    have hmem : .maxRetries n ∈ .retryAttempt :: (q.reroutes x dest ++ events) ↔
        .maxRetries n ∈ events := by simp [Request.mem_reroutes]
    rw [hmem, ih (by omega), List.forall_mem_cons, and_iff_right hres, List.length_cons,
      Nat.add_right_comm, Nat.add_assoc]

/-- **The other events.** -/
theorem mem_cases {event : Event} (h : Trace env q k x calls events e)
    (hevent : event ∈ events) :
    event = .retryAttempt ∨ (∃ reason, event = .retryAbort reason) ∨
      (∃ old new, event = .reroute old new ∧ q.rerouteRetries = true ∧ old ≠ new) ∨
      (∃ n, event = .retrySuccess n) ∨ ∃ n, event = .maxRetries n := by
  induction h with
  | result h =>
    split_ifs at hevent
    · exact .inr (.inr (.inr (.inl ⟨_, List.mem_singleton.1 hevent⟩)))
    · cases hevent
  | rejected | timedOut | outrun => cases hevent
  | exhausted h hk => exact .inr (.inr (.inr (.inr ⟨_, List.mem_singleton.1 hevent⟩)))
  | diverged h hk hlen hkeys =>
    rcases List.mem_cons.1 hevent with rfl | hevent
    · exact .inl rfl
    · exact .inr (.inl ⟨_, List.mem_singleton.1 hevent⟩)
  | retry h hk hlen hdest hrest ih =>
    rcases List.mem_cons.1 hevent with rfl | hevent
    · exact .inl rfl
    rcases List.mem_append.1 hevent with hevent | hevent
    · obtain ⟨rfl, hreroute, hne⟩ := Request.mem_reroutes.1 hevent
      exact .inr (.inr (.inl ⟨_, _, rfl, hreroute, hne.symm⟩))
    · exact ih hevent

end Trace

/-! ### The events of a request -/

section forwardRequest

variable {request : Bytes} {dest service endpoint : String} {keys : List String}
  {format : Format} {opts : Option Options} {r : Except String Bytes} {rs : RequestSender}

/-- **The events of a request** tell its calls.  They begin with one `requestForwarded` and end
with one `success` or `failed`, as the request does.  Between them, they name the server of each
call, and there is one `retryAttempt` for each retry; `retrySuccess`, `retryAbort` and
`maxRetries` are there exactly if a retry succeeded, if the keys diverged before the last retry,
and if all calls that could be made failed. -/
theorem events_tell_calls
    (h : forwardRequest env request dest service endpoint keys format opts = .ok (r, rs)) :
    ∃ events, rs.emitted = .requestForwarded :: (events ++ [if r.isOk then .success else .failed]) ∧
      .requestForwarded ∉ events ∧ .success ∉ events ∧ .failed ∉ events ∧
      rs.calls.map Prod.fst = servers dest events ∧
      events.count .retryAttempt = rs.retries ∧
      (∀ n, .retrySuccess n ∈ events ↔ (∃ b, r = .ok b) ∧ n = rs.retries ∧ 0 < n) ∧
      (∀ reason, .retryAbort reason ∈ events ↔ reason = errDestinationsDiverged ∧
        0 < rs.retries ∧ env.resolve rs.retries keys = none) ∧
      (∀ n, .maxRetries n ∈ events ↔ n = rs.maxRetries ∧
        rs.calls.length = rs.maxRetries.toNat + 1 ∧
        ∀ c ∈ rs.calls, ∃ err, env.read format c.2 = .forwardError err) ∧
      ∀ old new, .reroute old new ∈ events → rs.rerouteRetries = true ∧ old ≠ new := by
  obtain ⟨calls, events, e, htrace, hreturn⟩ :=
    forwardRequest_trace env request dest service endpoint keys format opts
  rw [h] at hreturn
  obtain ⟨r', rfl, heq⟩ := exists_of_map_eq_ok hreturn.symm
  simp only [RequestSender.record, Prod.mk.injEq] at heq
  obtain ⟨rfl, rfl, hreq, hretries, hemitted⟩ := heq
  have hother : ∀ event ∈ events, event ≠ .requestForwarded ∧ event ≠ .success ∧
      event ≠ .failed := by
    intro event hevent
    rcases htrace.mem_cases hevent with rfl | ⟨_, rfl⟩ | ⟨_, _, rfl, -⟩ | ⟨_, rfl⟩ | ⟨_, rfl⟩ <;>
      simp
  have hsuccess := htrace.retrySuccess_mem_iff
  have habort := htrace.retryAbort_mem_iff
  have hmax := htrace.maxRetries_mem_iff (Nat.zero_le _)
  simp only [Nat.zero_add, Except.ok.injEq, hretries] at hsuccess habort hmax
  rw [← hreq]
  refine ⟨events, hemitted.symm, fun h => (hother _ h).1 rfl, fun h => (hother _ h).2.1 rfl,
    fun h => (hother _ h).2.2 rfl, ?_, hretries, hsuccess, habort, hmax, fun old new hevent => ?_⟩
  · rw [servers, htrace.route_eq, List.append_nil, List.reverse_reverse]
  · rcases htrace.mem_cases hevent with h | ⟨_, h⟩ | ⟨old', new', h, hrest⟩ | ⟨_, h⟩ | ⟨_, h⟩
    case inr.inr.inl =>
      obtain ⟨rfl, rfl⟩ := Event.reroute.inj h
      exact hrest
    all_goals cases h

/-- A request that is rerouted to `b` at its second retry, and answered there. -/
theorem events_tell_calls_rerouted :
    let env : Surroundings :=
      { call := fun retry _ => if retry < 2 then .failed "refused" else .answered [7] false
        lookup := fun retry _ _ => .ok (if retry < 2 then "a" else "b")
        unmarshal := .ok ∘ fun _ => "" }
    ∃ r rs, forwardRequest env [1] "a" "service" "endpoint" ["key"] (.other "json")
        (some ⟨0, true, none, 0⟩) = .ok (r, rs) ∧
      rs.emitted = [.requestForwarded, .retryAttempt, .retryAttempt, .reroute "a" "b",
        .retrySuccess 2, .success] ∧
      ∃ events, rs.emitted =
        .requestForwarded :: (events ++ [if r.isOk then .success else .failed]) ∧
        rs.calls.map Prod.fst = servers "a" events := by
  intro env
  obtain ⟨r, rs, hrun, hemitted⟩ : ∃ r rs, forwardRequest env [1] "a" "service" "endpoint"
      ["key"] (.other "json") (some ⟨0, true, none, 0⟩) = .ok (r, rs) ∧
      rs.emitted = [.requestForwarded, .retryAttempt, .retryAttempt, .reroute "a" "b",
        .retrySuccess 2, .success] := ⟨_, _, rfl, rfl⟩
  obtain ⟨events, htell, -, -, -, hcalls, -⟩ := events_tell_calls hrun
  exact ⟨r, rs, hrun, hemitted, events, htell, hcalls⟩

end forwardRequest

end Forward
end Ringpop
