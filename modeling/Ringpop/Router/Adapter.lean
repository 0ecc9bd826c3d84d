/-
# Calls through adapters

`ringpop.thrift-gen` generates an adapter for each service, as
`examples/pingpong/gen-go/pingpong/ringpop-pingpong.go` for one with the endpoint `Ping`.  A
call that reaches an adapter goes to the client that the router has for its key, and the
header that `SetForwardedHeader` of `forward/forwarder.go` sets on the way keeps the adapter
there from sending it on.  The types of requests and answers stay open here.

A context holds its headers by reference, and `SetForwardedHeader` writes to those of its
argument unless there are none; `ping` returns what they are afterwards.  A `Network` has an
adapter at some of its addresses, and says how often a call to a host is delivered there.

Whatever rings and clients the nodes have, a call is run where it came in or where the ring of
that node says, and it goes no further (`adapters_forward_once`).  But a context with headers
can be used for one such call only: the next one is taken for a forwarded call
(`contexts_forward_once`).
-/

import Ringpop.Router.ClientCache
import Mathlib.Data.List.AList

namespace Ringpop
namespace Router

open CellStore

/-! ### The header -/

/-- The headers of a context. -/
abbrev Headers := AList fun _ : String => String

/-- `forwardedHeaderName`. -/
def forwardedHeaderName : String := "ringpop-forwarded"

/-- `staticForwardHeaders`. -/
def staticForwardHeaders : Headers := AList.singleton forwardedHeaderName "true"

/-- `SetForwardedHeader`: the headers of the context that it returns, and those of its argument
afterwards. -/
def setForwardedHeader (headers : Headers) : Headers × Headers :=
  if headers.keys.length = 0 then (staticForwardHeaders, headers)
  else
    let headers := headers.insert forwardedHeaderName "true"
    (headers, headers)

/-- `HasForwardedHeader`. -/
def hasForwardedHeader (headers : Headers) : Bool := (headers.lookup forwardedHeaderName).isSome

variable {headers : Headers}

theorem setForwardedHeader_of_isEmpty (h : headers.keys.length = 0) :
    setForwardedHeader headers = (staticForwardHeaders, headers) := if_pos h

theorem setForwardedHeader_of_not_isEmpty (h : headers.keys.length ≠ 0) :
    setForwardedHeader headers = (headers.insert forwardedHeaderName "true",
      headers.insert forwardedHeaderName "true") := if_neg h

/-- **The header is set.** -/
theorem lookup_setForwardedHeader (headers : Headers) :
    (setForwardedHeader headers).1.lookup forwardedHeaderName = some "true" := by
  by_cases h : headers.keys.length = 0
  · rw [setForwardedHeader_of_isEmpty h]
    rfl
  · rw [setForwardedHeader_of_not_isEmpty h]
    exact AList.lookup_insert headers

/-- **The other headers** are kept. -/
theorem lookup_setForwardedHeader_of_ne {name : String} (hne : name ≠ forwardedHeaderName) :
    (setForwardedHeader headers).1.lookup name = headers.lookup name := by
  by_cases h : headers.keys.length = 0
  · have hnone : name ∉ headers := by
      rw [AList.mem_keys, List.eq_nil_of_length_eq_zero h]
      exact List.not_mem_nil
    have hstatic : name ∉ staticForwardHeaders := by
      rw [staticForwardHeaders, AList.mem_keys, AList.keys_singleton]
      exact fun hmem => hne (List.mem_singleton.1 hmem)
    rw [setForwardedHeader_of_isEmpty h, AList.lookup_eq_none.2 hnone]
    exact AList.lookup_eq_none.2 hstatic
  · rw [setForwardedHeader_of_not_isEmpty h]
    exact AList.lookup_insert_ne hne

theorem hasForwardedHeader_insert (headers : Headers) :
    hasForwardedHeader (headers.insert forwardedHeaderName "true") = true := by
  rw [hasForwardedHeader, AList.lookup_insert]
  rfl

/-! ### The adapter -/

/-- What `GetClient` returned for the server of a key: a client for it, on the host `me`. -/
structure Got (me : String) where
  dest : Except String String
  client : Except String Client
  serves : ∀ c, client = .ok c → ∃ x, dest = .ok x ∧ c.Serves me x

/-- **What a call of `GetClient` returned**, in whatever state of the router. -/
def Reachable.got {me dest : String} {client : Except String Client} {s : RouterState} {i : ℕ}
    (h : Reachable me (Threads.RWProgram.start .new) s)
    (hi : s.threads[i]? = some (.returned (.ok dest) client)) : Got me where
  dest := .ok dest
  client := client
  serves c hc := ⟨dest, rfl, h.outlined.2.at_place i _ hi dest c rfl hc⟩

/-- `PingPongPingConfiguration`, where the function may be missing. -/
structure PingPongPingConfiguration (Ping : Type) where
  key : Option (Headers → Ping → Except String String)

/-- `PingPongConfiguration`. -/
structure PingPongConfiguration (Ping : Type) where
  ping : Option (PingPongPingConfiguration Ping)

/-- `validate`. -/
def PingPongConfiguration.validate {Ping : Type} (c : PingPongConfiguration Ping) :
    Except String Unit :=
  match c.ping with
  | some ⟨none⟩ => .error "configuration for endpoint Ping is missing a Key function"
  | _ => .ok ()

/-- `RingpopPingPongAdapter`, as `NewRingpopPingPongAdapter` makes it, on the host with this
address.  `getClient` is what `GetClient` of its router returns. -/
structure RingpopPingPongAdapter (Ping Pong : Type) where
  address : String
  impl : Headers → Ping → Except String Pong
  config : PingPongConfiguration Ping
  getClient : String → Got address
  valid : config.validate = .ok ()

/-- `NewRingpopPingPongAdapter`. -/
def newRingpopPingPongAdapter {Ping Pong : Type} (address : String)
    (impl : Headers → Ping → Except String Pong) (config : PingPongConfiguration Ping)
    (getClient : String → Got address) : Except String (RingpopPingPongAdapter Ping Pong) :=
  match h : config.validate with
  | .ok () => .ok ⟨address, impl, config, getClient, h⟩
  | .error err => .error err

/-- An error of a call: that of the `Key` function, which is quoted, or any other. -/
inductive CallError where
  | couldNotGetKey (err : String)
  | other (err : String)
deriving DecidableEq, Repr

/-- A run of the implementation of a node, with the headers that it gets. -/
structure Visit where
  node : String
  headers : Headers
deriving DecidableEq

/-- What a call comes to: the runs of implementations, and what is returned. -/
structure Outcome (Pong : Type) where
  visits : List Visit
  result : Except CallError Pong

variable {Ping Pong : Type}

namespace RingpopPingPongAdapter

/-- The implementation is called. -/
def visit (a : RingpopPingPongAdapter Ping Pong) (headers : Headers) (request : Ping) :
    Outcome Pong :=
  ⟨[⟨a.address, headers⟩], (a.impl headers request).mapError .other⟩

/-- `Ping`, where `remote` is what becomes of a call to another host.  Returns the headers of
the context as well, as they are afterwards. -/
def ping (a : RingpopPingPongAdapter Ping Pong)
    (remote : String → Headers → Ping → Except Fault (Outcome Pong)) (headers : Headers)
    (request : Ping) : Except Fault (Outcome Pong × Headers) :=
  match a.config.ping with
  | none => return (a.visit headers request, headers)
  | some cfg =>
      -- check if the function should be called locally
      if hasForwardedHeader headers then return (a.visit headers request, headers)
      else
        -- find the key to shard on
        match cfg.key with
        | none => throw .nilDereference
        | some key =>
            match key headers request with
            | .error err => return (⟨[], .error (.couldNotGetKey err)⟩, headers)
            | .ok ringpopKey =>
                match (a.getClient ringpopKey).client with
                | .error err => return (⟨[], .error (.other err)⟩, headers)
                | .ok client => do
                    let (forwarded, headers) := setForwardedHeader headers
                    match client with
                    | .localClient => return (a.visit forwarded request, headers)
                    | .remoteClient hostPort _ =>
                        return (← remote hostPort forwarded request, headers)

/-- The key of a call. -/
def keyOf (a : RingpopPingPongAdapter Ping Pong) (headers : Headers) (request : Ping) :
    Option String := do
  let cfg ← a.config.ping
  let key ← cfg.key
  (key headers request).toOption

/-- The client for a call. -/
def clientOf (a : RingpopPingPongAdapter Ping Pong) (headers : Headers) (request : Ping) :
    Option Client := do
  let ringpopKey ← a.keyOf headers request
  (a.getClient ringpopKey).client.toOption

variable {a : RingpopPingPongAdapter Ping Pong} {request : Ping}
  {remote : String → Headers → Ping → Except Fault (Outcome Pong)}

/-- The `Key` function is there if the endpoint is configured. -/
theorem exists_key {cfg : PingPongPingConfiguration Ping} (h : a.config.ping = some cfg) :
    ∃ key, cfg.key = some key := by
  have hvalid := a.valid
  obtain ⟨key⟩ := cfg
  cases key with
  | some key => exact ⟨key, rfl⟩
  | none =>
    rw [PingPongConfiguration.validate, h] at hvalid
    cases hvalid

/-- **A forwarded call** stays where it is. -/
theorem ping_of_forwarded (h : hasForwardedHeader headers = true) :
    a.ping remote headers request = .ok (a.visit headers request, headers) := by
  rw [ping]
  cases a.config.ping with
  | none => rfl
  | some cfg => exact if_pos h

/-- **A call that is not forwarded** is run here, as the endpoint is not configured; or fails,
as no client is found; or goes to the client. -/
theorem ping_cases (request : Ping) (h : hasForwardedHeader headers = false) :
    a.clientOf headers request = none ∧ (∃ o : Outcome Pong,
      (∀ remote, a.ping remote headers request = .ok (o, headers)) ∧
      (o = a.visit headers request ∨ ∃ err, o = ⟨[], .error err⟩)) ∨
    a.clientOf headers request = some .localClient ∧ (∀ remote, a.ping remote headers request =
      .ok (a.visit (setForwardedHeader headers).1 request, (setForwardedHeader headers).2)) ∨
    ∃ hostPort n, a.clientOf headers request = some (.remoteClient hostPort n) ∧
      ∀ remote, a.ping remote headers request =
        (remote hostPort (setForwardedHeader headers).1 request).map
          (·, (setForwardedHeader headers).2) := by
  cases hcfg : a.config.ping with
  | none =>
    refine .inl ⟨?_, a.visit headers request, fun remote => ?_, .inl rfl⟩
    · rw [clientOf, keyOf, hcfg]
      rfl
    · rw [ping, hcfg]
      rfl
  | some cfg =>
    obtain ⟨key, hkey⟩ := exists_key hcfg
    have hkeyOf : a.keyOf headers request = (key headers request).toOption := by
      simp only [keyOf, hcfg, hkey, Option.bind_eq_bind, Option.bind_some]
    simp only [clientOf, hkeyOf, ping, hcfg, h, hkey, Bool.false_eq_true, if_false]
    cases key headers request with
    | error err => exact .inl ⟨rfl, _, fun _ => rfl, .inr ⟨_, rfl⟩⟩
    | ok ringpopKey =>
      dsimp only [Except.toOption, Option.bind_eq_bind, Option.bind_some]
      cases (a.getClient ringpopKey).client with
      | error err => exact .inl ⟨rfl, _, fun _ => rfl, .inr ⟨_, rfl⟩⟩
      | ok client =>
        cases client with
        | localClient => exact .inr (.inl ⟨rfl, fun _ => rfl⟩)
        | remoteClient hostPort n => exact .inr (.inr ⟨hostPort, n, rfl, fun _ => rfl⟩)

/-- The client is one for the server of the key. -/
theorem exists_serves {client : Client} (h : a.clientOf headers request = some client) :
    ∃ key dest, a.keyOf headers request = some key ∧ (a.getClient key).dest = .ok dest ∧
      client.Serves a.address dest := by
  obtain ⟨key, hkey, hclient⟩ := Option.bind_eq_some_iff.1 h
  have hok : (a.getClient key).client = .ok client := by
    cases hres : (a.getClient key).client with
    | error err =>
      rw [hres] at hclient
      cases hclient
    | ok c =>
      rw [hres] at hclient
      exact congrArg Except.ok (Option.some.inj hclient)
  obtain ⟨dest, hdest, hserves⟩ := (a.getClient key).serves client hok
  exact ⟨key, dest, hkey, hdest, hserves⟩

end RingpopPingPongAdapter

/-! ### The network -/

/-- How a call to a host goes: it fails after it was delivered so many times, or it is answered
after it was delivered so many times and once more. -/
inductive Delivery where
  | failed (times : ℕ) (err : String)
  | answered (times : ℕ)

/-- The adapters of a service, and how the calls to each host go. -/
structure Network (Ping Pong : Type) where
  adapter : String → Option (RingpopPingPongAdapter Ping Pong)
  address : ∀ x a, adapter x = some a → a.address = x
  delivery : String → Delivery

/-- What a call comes to whose delivery has an outcome. -/
def Delivery.apply (o : Outcome Pong) : Delivery → Outcome Pong
  | failed times err => ⟨(List.replicate times o.visits).flatten, .error (.other err)⟩
  | answered times => ⟨(List.replicate (times + 1) o.visits).flatten, o.result⟩

/-- A call reaches a host, with a bound on how often it is sent on. -/
def Network.serve (net : Network Ping Pong) : ℕ → String → Headers → Ping →
    Except Fault (Outcome Pong × Headers)
  | 0, _, _, _ => throw .outOfFuel
  | hops + 1, x, headers, request =>
      match net.adapter x with
      | none => return (⟨[], .error (.other "no handler")⟩, headers)
      | some a => a.ping (fun hostPort forwarded request => do
          let (o, _) ← net.serve hops hostPort forwarded request
          return (net.delivery hostPort).apply o) headers request

variable {net : Network Ping Pong} {x : String} {a : RingpopPingPongAdapter Ping Pong}
  {request : Ping} {hops : ℕ}

/-- The call is run by the node, or it fails without. -/
def Outcome.At (o : Outcome Pong) (net : Network Ping Pong) (x : String) (headers : Headers)
    (request : Ping) : Prop :=
  (∀ v ∈ o.visits, v = ⟨x, headers⟩) ∧ ∀ pong, o.result = .ok pong → ⟨x, headers⟩ ∈ o.visits ∧
    ∃ a, net.adapter x = some a ∧ a.impl headers request = .ok pong

theorem at_visit (ha : net.adapter x = some a) (headers : Headers) (request : Ping) :
    (a.visit headers request).At net x headers request := by
  have haddress := net.address x a ha
  subst haddress
  refine ⟨fun v hv => List.mem_singleton.1 hv, fun pong hpong =>
    ⟨List.mem_singleton.2 rfl, a, ha, ?_⟩⟩
  rw [RingpopPingPongAdapter.visit] at hpong
  dsimp only at hpong
  cases hres : a.impl headers request with
  | error err =>
    rw [hres] at hpong
    cases hpong
  | ok pong' =>
    rw [hres] at hpong
    exact congrArg Except.ok (Except.ok.inj hpong)

theorem at_error (net : Network Ping Pong) (x : String) (headers : Headers) (request : Ping)
    (err : CallError) : (⟨[], .error err⟩ : Outcome Pong).At net x headers request :=
  ⟨(fun _ hv => by cases hv), fun _ h => by cases h⟩

/-- **Deliveries** run a call more often, but nowhere else. -/
theorem Outcome.At.apply {o : Outcome Pong} (h : o.At net x headers request) (d : Delivery) :
    (d.apply o).At net x headers request := by
  cases d with
  | failed times err =>
    refine ⟨fun v hv => ?_, fun pong h => by cases h⟩
    obtain ⟨visits, hvisits, hv⟩ := List.mem_flatten.1 hv
    rw [List.eq_of_mem_replicate hvisits] at hv
    exact h.1 v hv
  | answered times =>
    refine ⟨fun v hv => ?_, fun pong hpong => ?_⟩
    · obtain ⟨visits, hvisits, hv⟩ := List.mem_flatten.1 hv
      rw [List.eq_of_mem_replicate hvisits] at hv
      exact h.1 v hv
    · obtain ⟨hmem, hrest⟩ := h.2 pong hpong
      exact ⟨List.mem_flatten.2 ⟨_, List.mem_replicate.2 ⟨Nat.succ_ne_zero _, rfl⟩, hmem⟩, hrest⟩

/-- **A forwarded call** is sent no further. -/
theorem serve_of_forwarded (net : Network Ping Pong) (x : String) (request : Ping)
    (h : hasForwardedHeader headers = true) :
    ∃ o, (∀ hops, net.serve (hops + 1) x headers request = .ok (o, headers)) ∧
      o.At net x headers request := by
  cases ha : net.adapter x with
  | none =>
    refine ⟨⟨[], .error (.other "no handler")⟩, fun hops => ?_, at_error ..⟩
    rw [Network.serve, ha]
    rfl
  | some a =>
    refine ⟨_, fun hops => ?_, at_visit ha headers request⟩
    rw [Network.serve, ha]
    exact RingpopPingPongAdapter.ping_of_forwarded h

theorem hasForwardedHeader_set (headers : Headers) :
    hasForwardedHeader (setForwardedHeader headers).1 = true := by
  rw [hasForwardedHeader, lookup_setForwardedHeader]
  rfl

/-- **A call that is not forwarded** is run here, or goes to the client that is found: then it
is run there, and the headers of the context are written to. -/
theorem serve_cases (ha : net.adapter x = some a) (request : Ping)
    (h : hasForwardedHeader headers = false) :
    (a.clientOf headers request = none ∧ ∃ o, (∀ hops, net.serve (hops + 2) x headers request =
      .ok (o, headers)) ∧ o.At net x headers request) ∨
    ∃ client key dest o, a.clientOf headers request = some client ∧
      a.keyOf headers request = some key ∧ (a.getClient key).dest = .ok dest ∧
      (∀ hops, net.serve (hops + 2) x headers request = .ok (o, (setForwardedHeader headers).2)) ∧
      o.At net dest (setForwardedHeader headers).1 request := by
  have hserve : ∀ hops, ∃ remote, net.serve (hops + 2) x headers request =
      a.ping remote headers request ∧ ∀ hostPort forwarded request,
        remote hostPort forwarded request =
          (net.serve (hops + 1) hostPort forwarded request).map
            fun r => (net.delivery hostPort).apply r.1 := by
    intro hops
    rw [Network.serve, ha]
    refine ⟨_, rfl, fun hostPort forwarded request => ?_⟩
    cases net.serve (hops + 1) hostPort forwarded request <;> rfl
  choose remote hping hremote using hserve
  rcases a.ping_cases request h with ⟨hnone, o, hall, ho⟩ | ⟨hclient, hall⟩ |
    ⟨hostPort, n, hclient, hall⟩
  · refine .inl ⟨hnone, o, fun hops => (hping hops).trans (hall _), ?_⟩
    rcases ho with rfl | ⟨err, rfl⟩
    · exact at_visit ha headers request
    · exact at_error ..
  · obtain ⟨key, dest, hkey, hdest, hserves⟩ := a.exists_serves hclient
    have hserves : dest = x := Eq.trans hserves (net.address x a ha)
    subst hserves
    exact .inr ⟨_, key, _, _, hclient, hkey, hdest, fun hops => (hping hops).trans (hall _),
      at_visit ha _ request⟩
  · obtain ⟨key, dest, hkey, hdest, rfl, -⟩ := a.exists_serves hclient
    obtain ⟨o, ho, hat⟩ := serve_of_forwarded net hostPort request (hasForwardedHeader_set headers)
    refine .inr ⟨_, key, _, _, hclient, hkey, hdest, fun hops => ?_,
      hat.apply (net.delivery hostPort)⟩
    rw [hping, hall, hremote, ho]
    rfl

/-- **Calls are forwarded once.**  Whatever adapters, rings and clients the nodes of a network
have, and however often calls are delivered: a call that comes in at `x` comes to an end, and
every run of an implementation that it leads to is at `x`, with the headers that the call came
with, or else the call was not forwarded before and `GetClient` of `x` had a client for its key;
then all runs are at the server that the ring of `x` named, with the header set and the others
kept.  What it returns comes from such a run. -/
theorem adapters_forward_once (net : Network Ping Pong) (x : String) (headers : Headers)
    (request : Ping) :
    ∃ o after, (∀ hops, net.serve (hops + 2) x headers request = .ok (o, after)) ∧
      ∃ y forwarded, (∀ v ∈ o.visits, v = ⟨y, forwarded⟩) ∧
        (∀ pong, o.result = .ok pong → ⟨y, forwarded⟩ ∈ o.visits ∧
          ∃ a, net.adapter y = some a ∧ a.impl forwarded request = .ok pong) ∧
        (y = x ∧ forwarded = headers ∨ hasForwardedHeader headers = false ∧
          (∃ a key, net.adapter x = some a ∧ a.keyOf headers request = some key ∧
            (a.getClient key).dest = .ok y) ∧
          forwarded.lookup forwardedHeaderName = some "true" ∧
          ∀ name, name ≠ forwardedHeaderName → forwarded.lookup name = headers.lookup name) := by
  cases hf : hasForwardedHeader headers with
  | true =>
    obtain ⟨o, ho, hat⟩ := serve_of_forwarded net x request hf
    exact ⟨o, headers, fun hops => ho (hops + 1), x, headers, hat.1, hat.2, .inl ⟨rfl, rfl⟩⟩
  | false =>
    cases ha : net.adapter x with
    | none =>
      refine ⟨⟨[], .error (.other "no handler")⟩, headers, fun hops => ?_, x, headers,
        (at_error net x headers request _).1, (at_error net x headers request _).2,
        .inl ⟨rfl, rfl⟩⟩
      rw [Network.serve, ha]
      rfl
    | some a =>
      rcases serve_cases ha request hf with ⟨-, o, ho, hat⟩ |
        ⟨client, key, dest, o, -, hkey, hdest, ho, hat⟩
      · exact ⟨o, headers, ho, x, headers, hat.1, hat.2, .inl ⟨rfl, rfl⟩⟩
      · exact ⟨o, _, ho, dest, _, hat.1, hat.2, .inr ⟨rfl, ⟨a, key, rfl, hkey, hdest⟩,
          lookup_setForwardedHeader headers, fun name => lookup_setForwardedHeader_of_ne⟩⟩

/-! ### One context for several calls -/

/-- Calls with the same context, one after the other. -/
def Network.session (net : Network Ping Pong) (hops : ℕ) (x : String) : Headers → List Ping →
    Except Fault (List (Outcome Pong))
  | _, [] => return []
  | headers, request :: requests => do
      let (o, headers) ← net.serve hops x headers request
      return o :: (← net.session hops x headers requests)

theorem session_cons {requests : List Ping} {o : Outcome Pong} {after : Headers}
    {outcomes : List (Outcome Pong)} (h : net.serve hops x headers request = .ok (o, after))
    (hrest : net.session hops x after requests = .ok outcomes) :
    net.session hops x headers (request :: requests) = .ok (o :: outcomes) := by
  rw [Network.session, h]
  dsimp only [Bind.bind, Except.bind]
  rw [hrest]
  rfl

/-- **A forwarded context** keeps every call where it is. -/
theorem session_of_forwarded (ha : net.adapter x = some a) (hops : ℕ) (requests : List Ping)
    (h : hasForwardedHeader headers = true) :
    net.session (hops + 1) x headers requests = .ok (requests.map (a.visit headers)) := by
  induction requests with
  | nil => rfl
  | cons request requests ih =>
    refine session_cons ?_ ih
    rw [Network.serve, ha]
    exact RingpopPingPongAdapter.ping_of_forwarded h

/-- **A context without headers** stays as it is. -/
theorem session_of_isEmpty (ha : net.adapter x = some a) (hops : ℕ) (requests : List Ping)
    (hf : hasForwardedHeader headers = false) (h : headers.keys.length = 0) :
    ∃ outcomes, net.session (hops + 2) x headers requests = .ok outcomes ∧
      outcomes.map (fun o => .ok (o, headers)) =
        requests.map (net.serve (hops + 2) x headers) := by
  induction requests with
  | nil => exact ⟨[], rfl, rfl⟩
  | cons request requests ih =>
    obtain ⟨outcomes, hrest, heq⟩ := ih
    obtain ⟨o, ho⟩ : ∃ o, net.serve (hops + 2) x headers request = .ok (o, headers) := by
      rcases serve_cases ha request hf with ⟨-, o, ho, -⟩ | ⟨client, key, dest, o, -, -, -, ho, -⟩
      · exact ⟨o, ho hops⟩
      · rw [setForwardedHeader_of_isEmpty h] at ho
        exact ⟨o, ho hops⟩
    refine ⟨o :: outcomes, session_cons ho hrest, ?_⟩
    rw [List.map_cons, List.map_cons, heq, ho]

/-- **A context with headers** is a forwarded one after the first call that has found its
client. -/
theorem session_of_not_isEmpty (ha : net.adapter x = some a) (hops : ℕ) (requests : List Ping)
    (hf : hasForwardedHeader headers = false) (h : headers.keys.length ≠ 0) :
    ∃ outcomes, net.session (hops + 2) x headers requests = .ok outcomes ∧
      ∀ before request after, requests = before ++ request :: after →
        (a.clientOf headers request).isSome → outcomes.drop (before.length + 1) =
          after.map (a.visit (headers.insert forwardedHeaderName "true")) := by
  induction requests with
  | nil => exact ⟨[], rfl, fun before request after heq => by cases before <;> cases heq⟩
  | cons request requests ih =>
    rcases serve_cases ha request hf with ⟨hnone, o, ho, -⟩ |
      ⟨client, key, dest, o, -, -, -, ho, -⟩
    · obtain ⟨outcomes, hrest, hlater⟩ := ih
      refine ⟨o :: outcomes, session_cons (ho hops) hrest, fun before r after heq hfound => ?_⟩
      cases before with
      | nil =>
        obtain ⟨rfl, -⟩ := List.cons.inj heq
        rw [hnone] at hfound
        cases hfound
      | cons b before => exact hlater before r after (List.cons.inj heq).2 hfound
    · rw [setForwardedHeader_of_not_isEmpty h] at ho
      refine ⟨_, session_cons (ho hops) (session_of_forwarded ha (hops + 1) requests
        (hasForwardedHeader_insert headers)), fun before r after heq _ => ?_⟩
      have hafter : requests.drop before.length = after := by
        have hdrop := congrArg (List.drop (before.length + 1)) heq
        rwa [List.drop_succ_cons, ← List.drop_drop, List.drop_left, List.drop_succ_cons,
          List.drop_zero] at hdrop
      rw [List.drop_succ_cons, ← List.map_drop, hafter]

/-- **A context is good for one call.**  Let calls come in at `x` one after the other, all with
the same context, which is not a forwarded one.  If it has no headers, each call comes to what
it comes to alone.  But if it has, then after the first call that has found a client all of them
are run at `x`, whoever their keys belong to. -/
theorem contexts_forward_once (net : Network Ping Pong) (hops : ℕ) (x : String)
    (headers : Headers) (requests : List Ping) (ha : net.adapter x = some a)
    (hf : hasForwardedHeader headers = false) :
    ∃ outcomes, net.session (hops + 2) x headers requests = .ok outcomes ∧
      (headers.keys.length = 0 → outcomes.map (fun o => .ok (o, headers)) =
        requests.map (net.serve (hops + 2) x headers)) ∧
      (headers.keys.length ≠ 0 → ∀ before request after, requests = before ++ request :: after →
        (a.clientOf headers request).isSome → outcomes.drop (before.length + 1) =
          after.map (a.visit (headers.insert forwardedHeaderName "true"))) := by
  by_cases h : headers.keys.length = 0
  · obtain ⟨outcomes, hsession, heq⟩ := session_of_isEmpty ha hops requests hf h
    exact ⟨outcomes, hsession, fun _ => heq, fun hne => absurd h hne⟩
  · obtain ⟨outcomes, hsession, hlater⟩ := session_of_not_isEmpty ha hops requests hf h
    exact ⟨outcomes, hsession, fun hempty => absurd hempty h, fun _ => hlater⟩

/-- Two nodes whose rings say that every key is on `b`. -/
def twoNodes : Network String String where
  adapter x :=
    if x = "a" then some
      { address := "a"
        impl := fun _ request => .ok ("a:" ++ request)
        config := ⟨some ⟨some fun _ request => .ok request⟩⟩
        getClient := fun _ => ⟨.ok "b", .ok (.remoteClient "b" 0), by
          rintro _ ⟨⟩
          exact ⟨"b", rfl, rfl, by decide⟩⟩
        valid := rfl }
    else if x = "b" then some
      { address := "b"
        impl := fun _ request => .ok ("b:" ++ request)
        config := ⟨some ⟨some fun _ request => .ok request⟩⟩
        getClient := fun _ => ⟨.ok "b", .ok .localClient, by
          rintro _ ⟨⟩
          exact ⟨"b", rfl, rfl⟩⟩
        valid := rfl }
    else none
  address x a h := by
    split_ifs at h with ha hb
    · cases h
      exact ha.symm
    · cases h
      exact hb.symm
  delivery _ := .answered 0

/-- Two calls with one context: `b` runs the first one and `a` the second, though its key is on
`b` too. -/
theorem contexts_forward_once_two : ∃ outcomes,
    twoNodes.session 2 "a" (AList.singleton "user" "u") ["first", "second"] = .ok outcomes ∧
      outcomes.map Outcome.result = [.ok "b:first", .ok "a:second"] ∧
      ∃ a, twoNodes.adapter "a" = some a ∧ outcomes.drop 1 = ["second"].map (a.visit
        ((AList.singleton "user" "u" : Headers).insert forwardedHeaderName "true")) := by
  obtain ⟨a, ha⟩ : ∃ a, twoNodes.adapter "a" = some a := ⟨_, rfl⟩
  obtain ⟨outcomes, hsession, -, hlater⟩ := contexts_forward_once twoNodes 0 "a"
    (AList.singleton "user" "u") ["first", "second"] ha (by decide)
  have hresults : (twoNodes.session 2 "a" (AList.singleton "user" "u") ["first", "second"]).map
      (List.map Outcome.result) = .ok [.ok "b:first", .ok "a:second"] := rfl
  rw [hsession] at hresults
  have hfound : ((twoNodes.adapter "a").bind fun a =>
      a.clientOf (AList.singleton "user" "u") "first").isSome = true := rfl
  rw [ha] at hfound
  exact ⟨outcomes, hsession, Except.ok.inj hresults, a, ha,
    hlater (by decide) [] "first" ["second"] rfl hfound⟩

end Router
end Ringpop
