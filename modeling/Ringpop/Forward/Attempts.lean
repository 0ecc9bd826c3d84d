/-
# The attempts of a request

A request is attempted once, and again as long as the call fails, there are retries left
and its keys belong to one server.  `Answered` says which server comes to answer it, in
terms of what the request meets.  `Trace` lists the calls and the events and says what they
come to, and `RequestSender.send_trace` that this is what `Send` does; with an answer the last
call went to the server that answers (`Trace.answered_iff`).

With `RerouteRetries` an attempt goes to the server that the keys belong to at that
retry, which need not be the destination that was asked for: `Request.Strays` is when
such a server answers.
-/

import Ringpop.Forward.Forwarder

namespace Ringpop
namespace Forward

open CellStore

/-- The one server that all keys belong to at a retry. -/
def Surroundings.resolve (env : Surroundings) (retry : ℕ) (keys : List String) : Option String :=
  match env.lookupKeys retry keys with
  | [dest] => some dest
  | _ => none

theorem Surroundings.resolve_eq_some {env : Surroundings} {retry : ℕ} {keys : List String}
    {dest : String} : env.resolve retry keys = some dest ↔ env.lookupKeys retry keys = [dest] := by
  rw [resolve]
  split
  · rename_i dest' heq
    rw [heq, Option.some.injEq, List.cons.injEq, and_iff_left rfl]
  · rename_i hne
    exact iff_of_false (fun h => by cases h) (hne dest)

/-- What comes of a call to a server. -/
def Request.attempt (env : Surroundings) (q : Request) (retry : ℕ) (server : String) : Outcome :=
  env.read q.format (env.call retry (q.callTo server))

/-- The attempt after `k` retries, to the server `x`, leads to an answer of `y`. -/
inductive Answered (env : Surroundings) (q : Request) : ℕ → String → String → Bytes → Prop where
  | answer {k : ℕ} {x : String} {b : Bytes} (h : q.attempt env k x = .result b) :
      Answered env q k x x b
  | retry {k : ℕ} {x y dest err : String} {b : Bytes} (h : q.attempt env k x = .forwardError err)
      (hk : k < q.maxRetries) (hdest : env.resolve (k + 1) q.keys = some dest)
      (hrest : Answered env q (k + 1) (if q.rerouteRetries then dest else x) y b) :
      Answered env q k x y b

variable {env : Surroundings} {q : Request} {k : ℕ} {x y dest err : String} {b : Bytes}

/-! ### One attempt -/

theorem answered_of_result {res : Bytes} (h : q.attempt env k x = .result res) :
    Answered env q k x y b ↔ y = x ∧ b = res := by
  constructor
  · intro ha
    cases ha with
    | answer h' => exact ⟨rfl, Outcome.result.inj (h'.symm.trans h)⟩
    | retry h' => cases h'.symm.trans h
  · rintro ⟨rfl, rfl⟩
    exact .answer h

theorem answered_of_forwardError (h : q.attempt env k x = .forwardError err) :
    Answered env q k x y b ↔ k < q.maxRetries ∧ ∃ dest, env.resolve (k + 1) q.keys = some dest ∧
      Answered env q (k + 1) (if q.rerouteRetries then dest else x) y b := by
  constructor
  · intro ha
    cases ha with
    | answer h' => cases h'.symm.trans h
    | retry h' hk hdest hrest => exact ⟨hk, _, hdest, hrest⟩
  · rintro ⟨hk, dest, hdest, hrest⟩
    exact .retry h hk hdest hrest

/-- An attempt that is not tried again ends in an answer only with a result. -/
theorem not_answered (hresult : ∀ res, q.attempt env k x ≠ .result res)
    (herror : ∀ err, q.attempt env k x = .forwardError err → ¬ k < q.maxRetries) :
    ¬ Answered env q k x y b := by
  intro ha
  cases ha with
  | answer h => exact hresult _ h
  | retry h hk => exact herror _ h hk

/-! ### `Send` -/

/-- The call of an attempt, with its reply. -/
def Request.callMade (env : Surroundings) (q : Request) (retry : ℕ) (server : String) :
    String × Reply :=
  (server, env.call retry (q.callTo server))

/-- What is emitted when the keys are with `dest` before a retry, and the attempt went to `x`. -/
def Request.reroutes (q : Request) (x dest : String) : List Event :=
  if q.rerouteRetries ∧ dest ≠ x then [.reroute x dest] else []

theorem Request.mem_reroutes {q : Request} {x dest : String} {event : Event} :
    event ∈ q.reroutes x dest ↔
      event = .reroute x dest ∧ q.rerouteRetries = true ∧ dest ≠ x := by
  rw [reroutes]
  split_ifs with hmove
  · simp [hmove]
  · simpa using fun _ => hmove

theorem Request.count_reroutes (q : Request) (x dest : String) :
    (q.reroutes x dest).count .retryAttempt = 0 :=
  List.count_eq_zero.2 fun h => by cases (mem_reroutes.1 h).1

/-- What happens from the attempt after `k` retries on, which goes to the server `x`: the calls
that are made, the events that `Send` emits, and what it comes to. -/
inductive Trace (env : Surroundings) (q : Request) : ℕ → String → List (String × Reply) →
    List Event → Except Fault (Except String Bytes) → Prop where
  | result {k : ℕ} {x : String} {b : Bytes} (h : q.attempt env k x = .result b) :
      Trace env q k x [q.callMade env k x] (if 0 < k then [.retrySuccess k] else []) (.ok (.ok b))
  | rejected {k : ℕ} {x err : String} (h : q.attempt env k x = .applicationError err) :
      Trace env q k x [q.callMade env k x] [] (.ok (.error err))
  | timedOut {k : ℕ} {x : String} (h : q.attempt env k x = .timedOut) :
      Trace env q k x [q.callMade env k x] [] (.ok (.error "request timed out"))
  | exhausted {k : ℕ} {x err : String} (h : q.attempt env k x = .forwardError err)
      (hk : ¬ k < q.maxRetries) :
      Trace env q k x [q.callMade env k x] [.maxRetries q.maxRetries]
        (.ok (.error "max retries exceeded"))
  | outrun {k : ℕ} {x err : String} (h : q.attempt env k x = .forwardError err)
      (hk : k < q.maxRetries) (hlen : q.retrySchedule.length ≤ k) :
      Trace env q k x [q.callMade env k x] [] (.error (.panic "index out of range"))
  | diverged {k : ℕ} {x err : String} (h : q.attempt env k x = .forwardError err)
      (hk : k < q.maxRetries) (hlen : k < q.retrySchedule.length)
      (hkeys : env.resolve (k + 1) q.keys = none) :
      Trace env q k x [q.callMade env k x]
        [.retryAttempt, .retryAbort errDestinationsDiverged] (.ok (.error errDestinationsDiverged))
  | retry {k : ℕ} {x err dest : String} {calls : List (String × Reply)} {events : List Event}
      {e : Except Fault (Except String Bytes)} (h : q.attempt env k x = .forwardError err)
      (hk : k < q.maxRetries) (hlen : k < q.retrySchedule.length)
      (hdest : env.resolve (k + 1) q.keys = some dest)
      (hrest : Trace env q (k + 1) (if q.rerouteRetries then dest else x) calls events e) :
      Trace env q k x (q.callMade env k x :: calls)
        (.retryAttempt :: (q.reroutes x dest ++ events)) e

namespace RequestSender

variable {s s' : RequestSender} {fuel : ℕ}

/-- The server of the last call. -/
def lastServer (s : RequestSender) : Option String := s.calls.getLast?.map Prod.fst

/-- What a sender has done for its request. -/
def record (s : RequestSender) : List (String × Reply) × Request × ℕ × List Event :=
  (s.calls, s.toRequest, s.retries, s.emitted)

/-- **`AttemptRetry`** aborts where the keys do not belong to one server. -/
theorem attemptRetry_of_resolve_none (h : env.resolve (s.retries + 1) s.keys = none) :
    s.attemptRetry env = (.error errDestinationsDiverged, { s with
      retries := s.retries + 1
      emitted := s.emitted ++ [.retryAttempt] ++ [.retryAbort errDestinationsDiverged] }) := by
  rw [attemptRetry]
  split
  · rename_i newDest heq
    cases h.symm.trans (Surroundings.resolve_eq_some.2 heq)
  · rfl

/-- **`AttemptRetry`** goes on to the server of the keys, or to the old one. -/
theorem attemptRetry_of_resolve (h : env.resolve (s.retries + 1) s.keys = some dest) :
    s.attemptRetry env = (.ok (), { s with
      retries := s.retries + 1
      destination := if s.rerouteRetries then dest else s.destination
      emitted := s.emitted ++ [.retryAttempt] ++ s.reroutes s.destination dest }) := by
  rw [attemptRetry]
  split
  · rename_i newDest heq
    obtain rfl := Option.some.inj (h.symm.trans (Surroundings.resolve_eq_some.2 heq))
    rw [Request.reroutes]
    by_cases hmove : s.rerouteRetries = true ∧ dest ≠ s.destination
    · rw [if_pos hmove.1, if_pos hmove]
      exact if_pos hmove
    · have hsame : (if s.rerouteRetries then dest else s.destination) = s.destination := by
        split_ifs with hreroute
        · by_contra hne
          exact hmove ⟨hreroute, hne⟩
        · rfl
      rw [hsame, if_neg hmove, List.append_nil]
      exact if_neg hmove
  · rename_i hne
    exact absurd (Surroundings.resolve_eq_some.1 h) (hne dest)

/-- An attempt that fails, and the retry after it. -/
theorem send_of_forwardError (fuel : ℕ)
    (h : s.attempt env s.retries s.destination = .forwardError err)
    (hk : s.retries < s.maxRetries) :
    s.send env (fuel + 1) = do
      let (retry, s) ← (s.makeCall env).2.scheduleRetry env
      match retry with
      | .ok () => s.send env fuel
      | .error err => return (.error err, s) := by
  have hcall : s.makeCall env = (.forwardError err, (s.makeCall env).2) := Prod.ext h rfl
  rw [send, hcall]
  exact if_pos hk

theorem scheduleRetry_of_lt (hlen : s.retries < s.retrySchedule.length) :
    (s.makeCall env).2.scheduleRetry env = .ok ((s.makeCall env).2.attemptRetry env) := by
  have hsome : (s.makeCall env).2.retrySchedule[(s.makeCall env).2.retries]? =
      some s.retrySchedule[s.retries] := List.getElem?_eq_getElem hlen
  rw [scheduleRetry, hsome]
  rfl

section schedule

variable (h : s.attempt env s.retries s.destination = .forwardError err)
  (hk : s.retries < s.maxRetries)

include h hk

/-- A retry that the schedule is too short for. -/
theorem send_of_length_le (fuel : ℕ) (hlen : s.retrySchedule.length ≤ s.retries) :
    s.send env (fuel + 1) = .error (.panic "index out of range") := by
  have hnone : (s.makeCall env).2.retrySchedule[(s.makeCall env).2.retries]? = none :=
    List.getElem?_eq_none hlen
  rw [send_of_forwardError fuel h hk, scheduleRetry, hnone]
  rfl

/-- A retry for which the keys do not belong to one server. -/
theorem send_of_resolve_none (fuel : ℕ) (hlen : s.retries < s.retrySchedule.length)
    (hkeys : env.resolve (s.retries + 1) s.keys = none) :
    s.send env (fuel + 1) = .ok (.error errDestinationsDiverged, { s with
      retries := s.retries + 1
      calls := s.calls ++ [s.callMade env s.retries s.destination]
      emitted := s.emitted ++ [.retryAttempt] ++ [.retryAbort errDestinationsDiverged] }) := by
  rw [send_of_forwardError fuel h hk, scheduleRetry_of_lt hlen,
    attemptRetry_of_resolve_none (s := (s.makeCall env).2) hkeys]
  rfl

/-- A retry that is sent. -/
theorem send_of_resolve (fuel : ℕ) (hlen : s.retries < s.retrySchedule.length)
    (hdest : env.resolve (s.retries + 1) s.keys = some dest) :
    s.send env (fuel + 1) = send env fuel { s with
      retries := s.retries + 1
      destination := if s.rerouteRetries then dest else s.destination
      calls := s.calls ++ [s.callMade env s.retries s.destination]
      emitted := s.emitted ++ [.retryAttempt] ++ s.reroutes s.destination dest } := by
  rw [send_of_forwardError fuel h hk, scheduleRetry_of_lt hlen,
    attemptRetry_of_resolve (s := (s.makeCall env).2) hdest]
  rfl

end schedule

/-- **`Send`** with enough fuel has a trace, and does and returns what the trace says. -/
theorem send_trace (env : Surroundings) (s : RequestSender) (fuel : ℕ)
    (h : s.maxRetries < s.retries + fuel) (hfuel : 0 < fuel) :
    ∃ calls events e, Trace env s.toRequest s.retries s.destination calls events e ∧
      (s.send env fuel).map (fun r => (r.1, r.2.record)) =
        e.map (·, s.calls ++ calls, s.toRequest, s.retries + events.count .retryAttempt,
          s.emitted ++ events) := by
  induction fuel generalizing s with
  | zero => omega
  | succ fuel ih =>
    have hcall : s.makeCall env =
        (s.attempt env s.retries s.destination, (s.makeCall env).2) := rfl
    cases hout : s.attempt env s.retries s.destination with
    | result b =>
      refine ⟨_, _, _, .result hout, ?_⟩
      rw [send, hcall, hout]
      dsimp only
      by_cases hk : 0 < s.retries
      · rw [if_pos hk]
        exact congrArg (Except.map _) (if_pos hk)
      · rw [if_neg hk, List.append_nil]
        exact congrArg (Except.map _) (if_neg hk)
    | applicationError err =>
      refine ⟨_, _, _, .rejected hout, ?_⟩
      rw [send, hcall, hout, List.append_nil]
      rfl
    | timedOut =>
      refine ⟨_, _, _, .timedOut hout, ?_⟩
      rw [send, hcall, hout, List.append_nil]
      rfl
    | forwardError err =>
      by_cases hk : s.retries < s.maxRetries
      · rcases le_or_gt s.retrySchedule.length s.retries with hlen | hlen
        · refine ⟨_, _, _, .outrun hout hk hlen, ?_⟩
          rw [send_of_length_le hout hk fuel hlen]
          rfl
        cases hdest : env.resolve (s.retries + 1) s.keys with
        | none =>
          refine ⟨_, _, _, .diverged hout hk hlen hdest, ?_⟩
          rw [send_of_resolve_none hout hk fuel hlen hdest, List.append_assoc]
          rfl
        | some dest =>
          obtain ⟨calls, events, e, htrace, hrest⟩ := ih { s with
            retries := s.retries + 1
            destination := if s.rerouteRetries then dest else s.destination
            calls := s.calls ++ [s.callMade env s.retries s.destination]
            emitted := s.emitted ++ [.retryAttempt] ++ s.reroutes s.destination dest }
              (by push_cast at h ⊢; omega) (by omega)
          refine ⟨_, _, e, .retry hout hk hlen hdest htrace, ?_⟩
          rw [send_of_resolve hout hk fuel hlen hdest, hrest]
          simp only [List.append_assoc, List.cons_append, List.nil_append,
            List.count_cons_self, List.count_append, Request.count_reroutes, Nat.zero_add,
            Nat.add_assoc, Nat.add_comm 1]
      · refine ⟨_, _, _, .exhausted hout hk, ?_⟩
        rw [send, hcall, hout]
        exact congrArg (Except.map _) (if_neg hk)

end RequestSender

section trace

variable {calls : List (String × Reply)} {events : List Event}
  {e : Except Fault (Except String Bytes)}

/-- The first call goes to the server that the request was sent to. -/
theorem Trace.exists_eq_cons (h : Trace env q k x calls events e) :
    ∃ rest, calls = q.callMade env k x :: rest := by
  cases h <;> exact ⟨_, rfl⟩

theorem Trace.calls_ne_nil (h : Trace env q k x calls events e) : calls ≠ [] := by
  obtain ⟨rest, rfl⟩ := h.exists_eq_cons
  exact List.cons_ne_nil _ _

/-- **A trace** that returns has a result exactly if the request comes to be answered: by the
server of the last call. -/
theorem Trace.answered_iff {r : Except String Bytes} (h : Trace env q k x calls events e)
    (he : e = .ok r) :
    r = .ok b ∧ calls.getLast?.map Prod.fst = some y ↔ Answered env q k x y b := by
  induction h with
  | result h =>
    obtain rfl := Except.ok.inj he
    rw [answered_of_result h]
    simp [Request.callMade, eq_comm, and_comm]
  | rejected h =>
    obtain rfl := Except.ok.inj he
    exact iff_of_false (by simp) (not_answered (by simp [h]) (by simp [h]))
  | timedOut h =>
    obtain rfl := Except.ok.inj he
    exact iff_of_false (by simp) (not_answered (by simp [h]) (by simp [h]))
  | exhausted h hk =>
    obtain rfl := Except.ok.inj he
    exact iff_of_false (by simp) (not_answered (by simp [h]) fun _ _ => hk)
  | outrun => cases he
  | diverged h hk hlen hkeys =>
    obtain rfl := Except.ok.inj he
    rw [answered_of_forwardError h, hkeys]
    simp
  | retry h hk hlen hdest hrest ih =>
    rw [answered_of_forwardError h, hdest, List.getLast?_cons_of_ne_nil hrest.calls_ne_nil, ih he]
    simp [hk]

theorem Trace.ne_outOfFuel (h : Trace env q k x calls events e) : e ≠ .error .outOfFuel := by
  induction h with
  | outrun => simp
  | retry h hk hlen hdest hrest ih => exact ih
  | _ => simp

end trace

section forwardRequest

variable {request : Bytes} {service endpoint : String} {keys : List String} {format : Format}
  {opts : Option Options} {r : Except String Bytes} {rs : RequestSender}

/-- **`ForwardRequest`** has a trace, and does and returns what the trace says. -/
theorem forwardRequest_trace (env : Surroundings) (request : Bytes)
    (dest service endpoint : String) (keys : List String) (format : Format)
    (opts : Option Options) :
    ∃ calls events e,
      Trace env (Request.of request service endpoint keys format opts) 0 dest calls events e ∧
      (forwardRequest env request dest service endpoint keys format opts).map
        (fun r => (r.1, r.2.record)) =
          e.map fun r => (r, calls, .of request service endpoint keys format opts,
            events.count .retryAttempt,
            .requestForwarded :: (events ++ [if r.isOk then .success else .failed])) := by
  have hfuel := Int.self_le_toNat (Request.of request service endpoint keys format opts).maxRetries
  obtain ⟨calls, events, e, htrace, hsend⟩ := RequestSender.send_trace env
    ((RequestSender.new (Request.of request service endpoint keys format opts) dest).emit
      [.requestForwarded])
    ((Request.of request service endpoint keys format opts).maxRetries.toNat + 1)
    (by simp only [RequestSender.emit, RequestSender.new]; push_cast; omega) (Nat.succ_pos _)
  refine ⟨calls, events, e, htrace, ?_⟩
  rw [forwardRequest]
  dsimp only
  cases hs : RequestSender.send env _ _ with
  | error fault =>
    rw [hs] at hsend
    rw [map_eq_error_iff.1 hsend.symm]
    rfl
  | ok r =>
    obtain ⟨b, rs⟩ := r
    rw [hs] at hsend
    obtain ⟨b', rfl, heq⟩ := exists_of_map_eq_ok hsend.symm
    simp only [RequestSender.record, Prod.mk.injEq] at heq
    obtain ⟨rfl, hcalls, hreq, hretries, hemitted⟩ := heq
    have hrecord (event : Event) : (rs.emit [event]).record = (calls,
        .of request service endpoint keys format opts, events.count .retryAttempt,
        .requestForwarded :: (events ++ [event])) := by
      simp only [RequestSender.record, RequestSender.emit, ← hcalls, ← hreq, ← hretries,
        ← hemitted, RequestSender.new, List.nil_append, Nat.zero_add, List.cons_append]
    cases b' with
    | error err =>
      exact congrArg (fun record => Except.ok (Except.error err, record)) (hrecord .failed)
    | ok res =>
      exact congrArg (fun record => Except.ok (Except.ok res, record)) (hrecord .success)

/-- **`ForwardRequest`** that returns: its result is the answer of the server of its last
call. -/
theorem forwardRequest_spec
    (h : forwardRequest env request dest service endpoint keys format opts = .ok (r, rs)) :
    (∀ y b, r = .ok b ∧ rs.lastServer = some y ↔
      Answered env (Request.of request service endpoint keys format opts) 0 dest y b) ∧
    ∀ b, r = .ok b → ∃ y, rs.lastServer = some y := by
  obtain ⟨calls, events, e, htrace, hreturn⟩ :=
    forwardRequest_trace env request dest service endpoint keys format opts
  rw [h] at hreturn
  obtain ⟨r', rfl, heq⟩ := exists_of_map_eq_ok hreturn.symm
  simp only [RequestSender.record, Prod.mk.injEq] at heq
  obtain ⟨rfl, rfl, -⟩ := heq
  refine ⟨fun y b => htrace.answered_iff rfl, fun b hb => ?_⟩
  rw [RequestSender.lastServer, List.getLast?_eq_some_getLast htrace.calls_ne_nil]
  exact ⟨_, rfl⟩

/-- **`ForwardRequest`** comes to an end. -/
theorem forwardRequest_ne_outOfFuel (env : Surroundings) (request : Bytes)
    (dest service endpoint : String) (keys : List String) (format : Format)
    (opts : Option Options) :
    forwardRequest env request dest service endpoint keys format opts ≠ .error .outOfFuel := by
  intro h
  obtain ⟨calls, events, e, htrace, hreturn⟩ :=
    forwardRequest_trace env request dest service endpoint keys format opts
  rw [h] at hreturn
  exact htrace.ne_outOfFuel (map_eq_error_iff.1 hreturn.symm)

end forwardRequest

/-! ### Requests that stray -/

namespace Request

/-- The server of each attempt, as long as the keys belong to one server. -/
def target (env : Surroundings) (q : Request) (dest : String) : ℕ → Option String
  | 0 => some dest
  | k + 1 => (env.resolve (k + 1) q.keys).map fun newDest =>
      if q.rerouteRetries then newDest else dest

theorem target_succ {newDest : String} (hx : q.target env dest k = some x)
    (hdest : env.resolve (k + 1) q.keys = some newDest) :
    q.target env dest (k + 1) = some (if q.rerouteRetries then newDest else x) := by
  rw [target, hdest, Option.map_some]
  split_ifs with hreroute
  · rfl
  · cases k with
    | zero => exact hx
    | succ k =>
      obtain ⟨d, -, hd⟩ := Option.map_eq_some_iff.1 hx
      rw [if_neg hreroute] at hd
      rw [hd]

/-- The attempt fails, so that it may be tried again. -/
def Fails (env : Surroundings) (q : Request) (retry : ℕ) (server : String) : Prop :=
  ∃ err, q.attempt env retry server = .forwardError err

/-- Retries are rerouted, and the first attempt that does not fail is a retry for which
the keys belonged to another server, which answers. -/
def Strays (env : Surroundings) (q : Request) (dest : String) : Prop :=
  q.rerouteRetries = true ∧ ∃ k : ℕ, k < q.maxRetries ∧
    (∀ j ≤ k, ∃ x, q.target env dest j = some x ∧ q.Fails env j x) ∧
    ∃ y b, env.resolve (k + 1) q.keys = some y ∧ q.attempt env (k + 1) y = .result b ∧ y ≠ dest

end Request

/-- Without rerouting, nobody else answers. -/
theorem Answered.eq_of_not_reroute (h : Answered env q k x y b)
    (hreroute : q.rerouteRetries = false) : y = x := by
  induction h with
  | answer => rfl
  | retry h hk hdest hrest ih =>
    rw [hreroute] at ih
    exact ih

/-- The attempts go to their targets, until the first that does not fail. -/
theorem Answered.exists_target (h : Answered env q k x y b) (dest : String)
    (hx : q.target env dest k = some x) :
    ∃ n, (∀ j, k ≤ j → j < k + n → j < q.maxRetries ∧
        ∃ x, q.target env dest j = some x ∧ q.Fails env j x) ∧
      q.target env dest (k + n) = some y ∧ q.attempt env (k + n) y = .result b := by
  induction h with
  | answer h => exact ⟨0, fun j hle hlt => by omega, hx, h⟩
  | @retry k x y dest' err b h hk hdest hrest ih =>
    obtain ⟨n, hfails, htarget, hout⟩ := ih (Request.target_succ hx hdest)
    have hn : k + 1 + n = k + (n + 1) := by omega
    rw [hn] at htarget hout
    refine ⟨n + 1, fun j hle hlt => ?_, htarget, hout⟩
    rcases Nat.eq_or_lt_of_le hle with rfl | hlt'
    · exact ⟨hk, x, hx, err, h⟩
    · exact hfails j hlt' (by omega)

theorem answered_of_target {n : ℕ} (dest : String) (hx : q.target env dest k = some x)
    (hfails : ∀ j, k ≤ j → j < k + n → j < q.maxRetries ∧
      ∃ x, q.target env dest j = some x ∧ q.Fails env j x)
    (htarget : q.target env dest (k + n) = some y) (hout : q.attempt env (k + n) y = .result b) :
    Answered env q k x y b := by
  induction n generalizing k x with
  | zero =>
    obtain rfl := Option.some.inj (hx.symm.trans htarget)
    exact .answer hout
  | succ n ih =>
    obtain ⟨hk, x', hx', err, herr⟩ := hfails k le_rfl (by omega)
    obtain rfl := Option.some.inj (hx.symm.trans hx')
    have hn : k + (n + 1) = k + 1 + n := by omega
    rw [hn] at htarget hout
    obtain ⟨z, hz⟩ : ∃ z, q.target env dest (k + 1) = some z := by
      cases n with
      | zero => exact ⟨y, htarget⟩
      | succ n =>
        obtain ⟨-, z, hz, -⟩ := hfails (k + 1) (by omega) (by omega)
        exact ⟨z, hz⟩
    obtain ⟨newDest, hdest, -⟩ := Option.map_eq_some_iff.1 hz
    refine .retry herr hk hdest (ih (Request.target_succ hx hdest) (fun j hle hlt => ?_)
      htarget hout)
    exact hfails j (by omega) (by omega)

/-- **A request strays** exactly if another server comes to answer it. -/
theorem Request.strays_iff :
    q.Strays env dest ↔ ∃ y b, Answered env q 0 dest y b ∧ y ≠ dest := by
  constructor
  · rintro ⟨hreroute, k, hk, hfails, y, b, hdest, hout, hne⟩
    have htarget : q.target env dest (k + 1) = some y := by
      rw [Request.target, hdest, Option.map_some, if_pos hreroute]
    refine ⟨y, b, answered_of_target (n := k + 1) dest rfl (fun j _ hlt => ?_)
      (by rw [Nat.zero_add]; exact htarget) (by rw [Nat.zero_add]; exact hout), hne⟩
    exact ⟨by omega, hfails j (by omega)⟩
  · rintro ⟨y, b, ha, hne⟩
    have hreroute : q.rerouteRetries = true := by
      by_contra hnot
      exact hne (ha.eq_of_not_reroute (eq_false_of_ne_true hnot))
    obtain ⟨n, hfails, htarget, hout⟩ := ha.exists_target dest rfl
    rw [Nat.zero_add] at htarget hout
    cases n with
    | zero => exact absurd (Option.some.inj htarget).symm hne
    | succ k =>
      obtain ⟨newDest, hdest, hy⟩ := Option.map_eq_some_iff.1 htarget
      rw [if_pos hreroute] at hy
      exact ⟨hreroute, k, (hfails k (by omega) (by omega)).1,
        fun j hj => (hfails j (by omega) (by omega)).2, y, b, hy ▸ hdest, hout, hne⟩

end Forward
end Ringpop
