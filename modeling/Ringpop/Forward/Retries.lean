/-
# Retries and their schedule

A request is tried again after a forward error, and only then: a call that succeeded, that
returned an application error or that timed out is the last one, and there are not more
calls than retries, and one (`forward_request_stops`).

Before each retry `ScheduleRetry` reads how long it has to wait from the schedule, at the
number of retries made so far.  `mergeDefaultOptions` takes the number of retries and the
schedule each from the options or from the defaults, so there may be more retries than
entries; `Request.Outruns` is when a request comes to the end of its schedule.
-/

import Ringpop.Forward.Attempts

namespace Ringpop
namespace Forward

open CellStore

variable {env : Surroundings} {q : Request} {k : ℕ} {x dest : String} {b : Bytes}
  {calls : List (String × Reply)} {events : List Event}
  {e : Except Fault (Except String Bytes)}

/-! ### The calls -/

/-- **A call of a trace**: it is the call of its attempt; and where it is not the last one, it
failed and the keys then belonged to one server. -/
theorem Trace.call_spec {i : ℕ} {c : String × Reply} (h : Trace env q k x calls events e)
    (hc : calls[i]? = some c) :
    c.2 = env.call (k + i) (q.callTo c.1) ∧ (i + 1 < calls.length →
      (∃ err, env.read q.format c.2 = .forwardError err) ∧
        ∃ dest, env.resolve (k + i + 1) q.keys = some dest) := by
  induction h generalizing i with
  | @retry k x err dest calls events e h hk hlen hdest hrest ih =>
    cases i with
    | zero =>
      obtain rfl := Option.some.inj hc
      exact ⟨rfl, fun _ => ⟨⟨err, h⟩, dest, hdest⟩⟩
    | succ i =>
      obtain ⟨hcall, hnext⟩ := ih hc
      have hi : k + 1 + i = k + (i + 1) := by omega
      rw [hi] at hcall hnext
      exact ⟨hcall, fun hlt => hnext (Nat.succ_lt_succ_iff.1 hlt)⟩
  | _ =>
    cases i with
    | zero =>
      obtain rfl := Option.some.inj hc
      exact ⟨rfl, fun hlt => absurd hlt (by simp)⟩
    | succ i => cases hc

/-- **The number of calls.** -/
theorem Trace.length_le (h : Trace env q k x calls events e) (hk : k ≤ q.maxRetries) :
    k + calls.length ≤ q.maxRetries + 1 := by
  induction h with
  | retry h hk hlen hdest hrest ih =>
    have := ih (by push_cast; omega)
    rw [List.length_cons]
    push_cast at this ⊢
    omega
  | _ =>
    rw [List.length_singleton]
    push_cast
    omega

/-- **The last call** of a trace that returns decides whether there is a result, and which. -/
theorem Trace.last_spec {r : Except String Bytes} (h : Trace env q k x calls events e)
    (he : e = .ok r) :
    ∃ c, calls.getLast? = some c ∧ ∀ b, r = .ok b ↔ env.read q.format c.2 = .result b := by
  induction h with
  | @result k x b h =>
    obtain rfl := Except.ok.inj he
    refine ⟨_, rfl, fun b' => ?_⟩
    change _ ↔ q.attempt env k x = _
    rw [h, Except.ok.injEq, Outcome.result.injEq]
  | retry h hk hlen hdest hrest ih =>
    rw [List.getLast?_cons_of_ne_nil hrest.calls_ne_nil]
    exact ih he
  | outrun => cases he
  | rejected h | timedOut h | exhausted h | diverged h =>
    obtain rfl := Except.ok.inj he
    refine ⟨_, rfl, fun b' => iff_of_false (by simp) fun h' => ?_⟩
    cases h.symm.trans h'

/-! ### The schedule -/

namespace Request

/-- There are more retries than entries in the schedule, and the attempts fail until all entries
are used, and once more. -/
def Outruns (env : Surroundings) (q : Request) (dest : String) : Prop :=
  q.retrySchedule.length < q.maxRetries ∧
    ∀ k ≤ q.retrySchedule.length, ∃ x, q.target env dest k = some x ∧ q.Fails env k x

end Request

/-- A trace that panics has failed until the end of the schedule. -/
theorem Trace.fails_of_error {fault : Fault} (h : Trace env q k x calls events e) (dest : String)
    (he : e = .error fault) (hx : q.target env dest k = some x)
    (hk : k ≤ q.retrySchedule.length) :
    q.retrySchedule.length < q.maxRetries ∧ ∀ j, k ≤ j → j ≤ q.retrySchedule.length →
      ∃ y, q.target env dest j = some y ∧ q.Fails env j y := by
  induction h with
  | @outrun k x err h hlt hlen =>
    obtain rfl : k = q.retrySchedule.length := le_antisymm hk hlen
    refine ⟨hlt, fun j hle hge => ?_⟩
    obtain rfl := le_antisymm hle hge
    exact ⟨x, hx, err, h⟩
  | @retry k x err newDest calls events e h hlt hlen hdest hrest ih =>
    obtain ⟨hmax, hfails⟩ := ih he (Request.target_succ hx hdest) hlen
    refine ⟨hmax, fun j hle hge => ?_⟩
    rcases hle.eq_or_lt with rfl | hlt
    · exact ⟨x, hx, err, h⟩
    · exact hfails j hlt hge
  | result | rejected | timedOut | exhausted | diverged => cases he

/-- A trace whose attempts fail until the end of the schedule panics. -/
theorem Trace.eq_error_of_fails (h : Trace env q k x calls events e) (dest : String)
    (hx : q.target env dest k = some x) (hk : k ≤ q.retrySchedule.length)
    (hmax : q.retrySchedule.length < q.maxRetries)
    (hfails : ∀ j, k ≤ j → j ≤ q.retrySchedule.length →
      ∃ y, q.target env dest j = some y ∧ q.Fails env j y) :
    e = .error (.panic "index out of range") := by
  have hfail : ∀ {k x}, q.target env dest k = some x → k ≤ q.retrySchedule.length →
      (∀ j, k ≤ j → j ≤ q.retrySchedule.length →
        ∃ y, q.target env dest j = some y ∧ q.Fails env j y) → q.Fails env k x := by
    intro k x hx hk hfails
    obtain ⟨y, hy, hfail⟩ := hfails k le_rfl hk
    obtain rfl := Option.some.inj (hx.symm.trans hy)
    exact hfail
  induction h with
  | outrun => rfl
  | retry h hlt hlen hdest hrest ih =>
    exact ih (Request.target_succ hx hdest) hlen fun j hle => hfails j (by omega)
  | diverged h hlt hlen hkeys =>
    obtain ⟨y, hy, -⟩ := hfails _ (Nat.le_succ _) hlen
    rw [Request.target, hkeys] at hy
    cases hy
  | exhausted h hlt => omega
  | result h | rejected h | timedOut h =>
    obtain ⟨err, herr⟩ := hfail hx hk hfails
    cases h.symm.trans herr

/-- **`ForwardRequest` panics** exactly if the request outruns its schedule. -/
theorem forwardRequest_panics_iff (env : Surroundings) (request : Bytes)
    (dest service endpoint : String) (keys : List String) (format : Format)
    (opts : Option Options) :
    forwardRequest env request dest service endpoint keys format opts =
        .error (.panic "index out of range") ↔
      (Request.of request service endpoint keys format opts).Outruns env dest := by
  obtain ⟨calls, events, e, htrace, hreturn⟩ :=
    forwardRequest_trace env request dest service endpoint keys format opts
  rw [← map_eq_error_iff (F := fun r => (r.1, r.2.record)), hreturn, map_eq_error_iff]
  constructor
  · intro he
    obtain ⟨hmax, hfails⟩ := htrace.fails_of_error dest he rfl (Nat.zero_le _)
    exact ⟨hmax, fun j => hfails j (Nat.zero_le j)⟩
  · rintro ⟨hmax, hfails⟩
    exact htrace.eq_error_of_fails dest rfl (Nat.zero_le _) hmax fun j _ => hfails j

/-- **The retries stay inside the schedule**, whatever a request with these options meets,
exactly if there are not more retries than entries. -/
theorem retries_fit_schedule (opts : Option Options) :
    (∀ env request dest service endpoint keys format,
      forwardRequest env request dest service endpoint keys format opts ≠
        .error (.panic "index out of range")) ↔
      (mergeDefaultOptions opts).maxRetries ≤ (mergeDefaultOptions opts).retrySchedule.length := by
  simp only [ne_eq, forwardRequest_panics_iff]
  constructor
  · intro h
    by_contra hlt
    -- every call fails, and the key always belongs to the same server
    refine h ⟨fun _ _ => .failed "", fun _ _ _ => .ok "", fun _ => .error ""⟩ [] "" "" "" [""]
      .thrift ⟨not_le.1 hlt, fun k _ => ⟨"", ?_, "", rfl⟩⟩
    cases k with
    | zero => rfl
    | succ k => exact (Option.map_some ..).trans (congrArg some (ite_self ..))
  · rintro hle env request dest service endpoint keys format ⟨hlt, -⟩
    exact absurd hle (not_le.2 hlt)

/-- Four retries with the schedule of the defaults, which has three entries. -/
theorem retries_outrun_schedule :
    forwardRequest ⟨fun _ _ => .failed "", fun _ _ _ => .ok "b", fun _ => .error ""⟩ [] "b" "s" "e"
        ["k"] .thrift (some ⟨4, false, none, 0⟩) = .error (.panic "index out of range") :=
  rfl

/-- **A request stops at the first answer.**  With at least as many entries in the schedule as
there are retries, `ForwardRequest` returns after at most one call more than that.  All its
calls but the last one have failed to be forwarded, its result is that of the last call, and if
the keys do not belong to one server before a retry there is no further call. -/
theorem forward_request_stops (env : Surroundings) (request : Bytes)
    (dest service endpoint : String) (keys : List String) (format : Format)
    (opts : Option Options) (hretries : 0 ≤ (mergeDefaultOptions opts).maxRetries)
    (hschedule : (mergeDefaultOptions opts).maxRetries ≤
      (mergeDefaultOptions opts).retrySchedule.length) :
    ∃ r rs, forwardRequest env request dest service endpoint keys format opts = .ok (r, rs) ∧
      rs.calls.length ≤ (mergeDefaultOptions opts).maxRetries + 1 ∧
      (∀ i c, rs.calls[i]? = some c → c.2 = env.call i
        ⟨c.1, service, endpoint, format, (mergeDefaultOptions opts).timeout, request⟩) ∧
      (∀ i c, rs.calls[i]? = some c → i + 1 < rs.calls.length →
        ∃ err, env.read format c.2 = .forwardError err) ∧
      (∃ c, rs.calls.getLast? = some c ∧ ∀ b, r = .ok b ↔ env.read format c.2 = .result b) ∧
      ∀ i, (∀ dest, env.lookupKeys (i + 1) keys ≠ [dest]) → rs.calls.length ≤ i + 1 := by
  obtain ⟨calls, events, e, htrace, hreturn⟩ :=
    forwardRequest_trace env request dest service endpoint keys format opts
  cases e with
  | error fault =>
    obtain ⟨hlt, -⟩ := htrace.fails_of_error dest rfl rfl (Nat.zero_le _)
    exact absurd hschedule (not_le.2 hlt)
  | ok r' =>
    obtain ⟨⟨r, rs⟩, hforward, heq⟩ := exists_of_map_eq_ok hreturn
    simp only [RequestSender.record, Prod.mk.injEq] at heq
    obtain ⟨rfl, rfl, -⟩ := heq
    have hlength := htrace.length_le hretries
    rw [Nat.cast_zero, zero_add] at hlength
    refine ⟨r, rs, hforward, hlength, fun i c hc => ?_, fun i c hc hlt => ?_,
      htrace.last_spec rfl, fun i hkeys => ?_⟩
    · have hcall := (htrace.call_spec hc).1
      rwa [Nat.zero_add] at hcall
    · exact ((htrace.call_spec hc).2 hlt).1
    · by_contra hlt
      have hi : i < rs.calls.length := by omega
      obtain ⟨-, newDest, hdest⟩ := (htrace.call_spec (List.getElem?_eq_getElem hi)).2
        (not_le.1 hlt)
      rw [Nat.zero_add] at hdest
      exact hkeys newDest (Surroundings.resolve_eq_some.1 hdest)

/-- A request with the default options that is answered by the third call, rerouted. -/
theorem forward_request_stops_third :
    ∃ rs, forwardRequest ⟨fun k _ => if k < 2 then .failed "" else .answered [7] false,
        fun _ _ _ => .ok "c", fun _ => .error ""⟩ [] "b" "s" "e" ["k"] .thrift
          (some ⟨0, true, none, 0⟩) = .ok (.ok [7], rs) ∧
      rs.calls.length ≤ (4 : ℤ) := by
  obtain ⟨r, rs, hforward, hlength, -⟩ := forward_request_stops
    ⟨fun k _ => if k < 2 then .failed "" else .answered [7] false, fun _ _ _ => .ok "c",
      fun _ => .error ""⟩ [] "b" "s" "e" ["k"] .thrift (some ⟨0, true, none, 0⟩) (by decide)
      (by decide)
  obtain ⟨a, ha, hr⟩ := exists_of_map_eq_ok
    (x := forwardRequest ⟨fun k _ => if k < 2 then .failed "" else .answered [7] false,
      fun _ _ _ => .ok "c", fun _ => .error ""⟩ [] "b" "s" "e" ["k"] .thrift
        (some ⟨0, true, none, 0⟩)) (F := fun r => r.1.toOption) (b := some [7]) (by decide +kernel)
  obtain rfl := Except.ok.inj (hforward.symm.trans ha)
  obtain rfl := toOption_eq_some_iff.1 hr
  exact ⟨rs, hforward, hlength⟩

end Forward
end Ringpop
