/-
# Forwarding a request

`forward/forwarder.go` and `forward/request_sender.go`: a request is sent to its
destination, and again after a failure, at most as often as the options say.  Before it
is sent again the keys are looked up, and with `RerouteRetries` it then goes to the
server that they belong to now.

A call ends with a `Reply`: it fails, or it is answered, or its context is done first.
`Surroundings` is what one request meets: the reply to each call, the server of a key at
each retry, and `json.Unmarshal`.  The calls that were made are kept in `calls`, which
nothing reads.  `ScheduleRetry`, `AttemptRetry` and `RerouteRetry` all end in `Send`;
they return here the sender that is to send again.  The count of requests in flight is
left out, as are the logs and the times of events.
-/

import Ringpop.Memory.Cells
import Mathlib.Data.List.Dedup

namespace Ringpop
namespace Forward

open CellStore

abbrev Bytes := List UInt8

/-- `tchannel.Format`. -/
inductive Format where
  | thrift
  | other (name : String)
deriving DecidableEq, Repr

/-- The events that a forwarder emits. -/
inductive Event where
  | requestForwarded
  | retryAttempt
  | retryAbort (reason : String)
  | reroute (oldDestination newDestination : String)
  | retrySuccess (numRetries : ℕ)
  | maxRetries (maxRetries : ℤ)
  | failed
  | success
deriving DecidableEq, Repr

/-! ### Options -/

/-- `Options`.  Durations are in nanoseconds. -/
structure Options where
  maxRetries : ℤ
  rerouteRetries : Bool
  retrySchedule : Option (List ℤ)
  timeout : ℤ

/-- `SelectInt` and `SelectDuration`. -/
def selectInt (opt default : ℤ) : ℤ := if opt = 0 then default else opt

/-- The options of a request sender, where the schedule is not nil. -/
structure Settings where
  maxRetries : ℤ
  rerouteRetries : Bool
  retrySchedule : List ℤ
  timeout : ℤ

/-- `defaultOptions`. -/
def defaultOptions : Settings where
  maxRetries := 3
  rerouteRetries := false
  retrySchedule := [3000000000, 6000000000, 12000000000]
  timeout := 3000000000

/-- `mergeDefaultOptions`. -/
def mergeDefaultOptions : Option Options → Settings
  | none => defaultOptions
  | some opts =>
      { maxRetries := selectInt opts.maxRetries defaultOptions.maxRetries
        rerouteRetries := opts.rerouteRetries
        retrySchedule := opts.retrySchedule.getD defaultOptions.retrySchedule
        timeout := selectInt opts.timeout defaultOptions.timeout }

/-! ### The request sender -/

/-- A call, as it is made. -/
structure Call where
  destination : String
  service : String
  endpoint : String
  format : Format
  timeout : ℤ
  request : Bytes
deriving DecidableEq, Repr

/-- How a call ends: an error of `BeginCall` or `WriteArgs`, an answer of the server, or
nothing before the context is done. -/
inductive Reply where
  | failed (err : String)
  | answered (arg3 : Bytes) (applicationError : Bool)
  | timedOut
deriving DecidableEq, Repr

/-- What a request meets.  The calls and the lookups are numbered by the retries that
were made before; a lookup also by the place of its key. -/
structure Surroundings where
  call : ℕ → Call → Reply
  lookup : ℕ → ℕ → String → Except String String
  unmarshal : Bytes → Except String String

/-- What `MakeCall` leaves in its three variables, or that it does not return in time. -/
inductive Outcome where
  | result (res : Bytes)
  | forwardError (err : String)
  | applicationError (err : String)
  | timedOut
deriving DecidableEq, Repr

/-- The fields of `requestSender` that stay as they are. -/
structure Request extends Settings where
  request : Bytes
  service : String
  endpoint : String
  keys : List String
  format : Format

/-- `requestSender`. -/
structure RequestSender extends Request where
  destination : String
  retries : ℕ
  calls : List (String × Reply)
  emitted : List Event

/-- `errDestinationsDiverged`. -/
def errDestinationsDiverged : String := "key destinations have diverged"

/-- How `MakeCall` reads a reply. -/
def Surroundings.read (env : Surroundings) (format : Format) : Reply → Outcome
  | .failed err => .forwardError err
  | .timedOut => .timedOut
  | .answered arg3 applicationError =>
      if format = .thrift then .result arg3
      else if applicationError then
        match env.unmarshal arg3 with
        -- if parsing succeeded return the error as an application error
        | .ok message => .applicationError message
        | .error err => .forwardError err
      else .result arg3

/-- `LookupKeys`, at the retry with this number. -/
def Surroundings.lookupKeys (env : Surroundings) (retry : ℕ) (keys : List String) : List String :=
  (keys.zipIdx.filterMap fun key => (env.lookup retry key.2 key.1).toOption).dedup

/-- The call to a destination. -/
def Request.callTo (q : Request) (destination : String) : Call :=
  ⟨destination, q.service, q.endpoint, q.format, q.timeout, q.request⟩

namespace RequestSender

/-- `newRequestSender`. -/
def new (q : Request) (destination : String) : RequestSender where
  toRequest := q
  destination := destination
  retries := 0
  calls := []
  emitted := []

/-- `emit`. -/
def emit (s : RequestSender) (events : List Event) : RequestSender :=
  { s with emitted := s.emitted ++ events }

/-- `MakeCall`. -/
def makeCall (env : Surroundings) (s : RequestSender) : Outcome × RequestSender :=
  let reply := env.call s.retries (s.callTo s.destination)
  (env.read s.format reply, { s with calls := s.calls ++ [(s.destination, reply)] })

/-- `RerouteRetry`, until it sends. -/
def rerouteRetry (s : RequestSender) (destination : String) : RequestSender :=
  { s.emit [.reroute s.destination destination] with destination := destination }

/-- `AttemptRetry`, until it sends. -/
def attemptRetry (env : Surroundings) (s : RequestSender) : Except String Unit × RequestSender :=
  let s := emit { s with retries := s.retries + 1 } [.retryAttempt]
  match env.lookupKeys s.retries s.keys with
  | [newDest] =>
      if s.rerouteRetries ∧ newDest ≠ s.destination then (.ok (), s.rerouteRetry newDest)
      else (.ok (), s)
  | _ => (.error errDestinationsDiverged, s.emit [.retryAbort errDestinationsDiverged])

/-- `ScheduleRetry`, until it sends. -/
def scheduleRetry (env : Surroundings) (s : RequestSender) :
    Except Fault (Except String Unit × RequestSender) :=
  match s.retrySchedule[s.retries]? with
  | some _ => return s.attemptRetry env
  | none => throw (.panic "index out of range")

/-- `Send`, with a bound on the number of calls. -/
def send (env : Surroundings) :
    ℕ → RequestSender → Except Fault (Except String Bytes × RequestSender)
  | 0, _ => throw .outOfFuel
  | fuel + 1, s => do
      let (outcome, s) := s.makeCall env
      match outcome with
      | .applicationError err => return (.error err, s)
      | .result res =>
          if s.retries > 0 then return (.ok res, s.emit [.retrySuccess s.retries])
          return (.ok res, s)
      | .forwardError _ =>
          if s.retries < s.maxRetries then
            let (retry, s) ← s.scheduleRetry env
            match retry with
            | .ok () => send env fuel s
            | .error err => return (.error err, s)
          else return (.error "max retries exceeded", s.emit [.maxRetries s.maxRetries])
      | .timedOut => return (.error "request timed out", s)

end RequestSender

/-- The fields of the request sender of `ForwardRequest`. -/
def Request.of (request : Bytes) (service endpoint : String) (keys : List String)
    (format : Format) (opts : Option Options) : Request :=
  ⟨mergeDefaultOptions opts, request, service, endpoint, keys, format⟩

/-- `ForwardRequest`.  Returns the sender as well, with what it has done. -/
def forwardRequest (env : Surroundings) (request : Bytes)
    (destination service endpoint : String) (keys : List String) (format : Format)
    (opts : Option Options) : Except Fault (Except String Bytes × RequestSender) := do
  let q := Request.of request service endpoint keys format opts
  let rs := (RequestSender.new q destination).emit [.requestForwarded]
  let (b, rs) ← rs.send env (q.maxRetries.toNat + 1)
  match b with
  | .error _ => return (b, rs.emit [.failed])
  | .ok _ => return (b, rs.emit [.success])

end Forward
end Ringpop
