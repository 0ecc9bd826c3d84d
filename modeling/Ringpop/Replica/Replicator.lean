/-
# The replicator

`replica/replicator.go`: a request is forwarded to all servers that `LookupN` returns for
its keys, and succeeds if enough of the forwards do.

What the code asks of others is in `Surroundings`: `LookupN` for the key at each place,
what the forward to each destination meets, and the name of the service.  What Go leaves
open is in `Orders`: the order in which a map is enumerated, the order in which the
goroutines of a fanout finish, and the numbers of `rand.Perm`.  A forward is kept with
the sender that it had, in the order in which the forwards finish.  The logs are left
out.
-/

import Ringpop.Collections.Reorder
import Ringpop.Forward.Forwarder
import Mathlib.Data.List.AList

namespace Ringpop
namespace Replica

open CellStore Reorder
open Forward (Bytes RequestSender forwardRequest selectInt)

/-- `FanoutMode`, an integer in the source. -/
inductive FanoutMode where
  | parallel
  | serialSequential
  | serialBalanced
  | unknown (mode : ℤ)
deriving DecidableEq, Repr

/-- The constants `read` and `write`. -/
inductive Operation where
  | read
  | write
deriving DecidableEq, Repr

/-- `Response`. -/
structure Response where
  destination : String
  keys : List String
  body : Bytes
deriving DecidableEq, Repr

/-- `Options`. -/
structure Options where
  nValue : ℤ
  rValue : ℤ
  wValue : ℤ
  fanoutMode : FanoutMode
deriving DecidableEq, Repr

/-- A map from strings to lists of strings. -/
abbrev Lists := AList fun _ : String => List String

/-- `callOptions`, without the keys: nothing reads them. -/
structure CallOptions where
  dests : List String
  request : Bytes
  keysByDest : Lists
  operation : String
  format : Forward.Format

/-- What a request meets. -/
structure Surroundings where
  lookupN : ℕ → String → ℤ → List String × Option String
  forward : String → Forward.Surroundings
  serviceName : String

/-- A call of `forwardRequest`: its result, and its request sender. -/
structure Forwarded where
  response : Except String Response
  sender : RequestSender

/-- What the code leaves open. -/
structure Orders where
  enumerate : Arrangement String
  finish : Arrangement Forwarded
  random : RandomPerm

/-- What a request returns, with the forwards that it made. -/
structure Result where
  responses : List Response
  err : Option String
  forwards : List Forwarded

/-- `selectFanoutMode`. -/
def selectFanoutMode : FanoutMode → FanoutMode
  | .unknown _ => .parallel
  | mode => mode

/-- `mergeDefaultOptions`. -/
def mergeDefaultOptions (opts : Option Options) (default : Options) : Options :=
  match opts with
  | none => default
  | some opts =>
      { nValue := selectInt opts.nValue default.nValue
        rValue := selectInt opts.rValue default.rValue
        wValue := selectInt opts.wValue default.wValue
        fanoutMode := selectFanoutMode opts.fanoutMode }

/-- `Replicator`. -/
structure Replicator where
  defaults : Options

/-- `NewReplicator`. -/
def newReplicator (opts : Option Options) : Replicator :=
  ⟨mergeDefaultOptions opts ⟨3, 1, 3, .parallel⟩⟩

/-- `ShuffleStrings`. -/
def shuffleStrings (random : RandomPerm) (strings : List String) : List String :=
  scatter "" (random.draw strings.length) strings

/-- The list under a key, or nil. -/
def Lists.get (m : Lists) (key : String) : List String := (m.lookup key).getD []

/-- The body of the loop of `groupReplicas`, for the key at a place. -/
def groupKey (env : Surroundings) (n : ℤ) (maps : Lists × Lists) (key : String × ℕ) :
    Lists × Lists :=
  let (destsByKey, keysByDest) := maps
  let (dests, _) := env.lookupN key.2 key.1 n
  (destsByKey.insert key.1 dests,
    dests.foldl (fun m dest => m.insert dest (Lists.get m dest ++ [key.1])) keysByDest)

/-- `groupReplicas`. -/
def groupReplicas (env : Surroundings) (keys : List String) (n : ℤ) : Lists × Lists :=
  keys.zipIdx.foldl (groupKey env n) (∅, ∅)

/-- The destinations of `readWrite`. -/
def destinations (orders : Orders) (keys : List String) (destsByKey keysByDest : Lists) :
    List String :=
  match keys with
  -- preserve preference list order
  | [key] => Lists.get destsByKey key
  -- else arbitrary order
  | _ => orders.enumerate.arrange keysByDest.keys

/-- The call options of `readWrite`. -/
def callOptions (env : Surroundings) (orders : Orders) (keys : List String) (request : Bytes)
    (operation : String) (opts : Options) : CallOptions :=
  let (destsByKey, keysByDest) := groupReplicas env keys opts.nValue
  { dests := destinations orders keys destsByKey keysByDest
    request := request
    keysByDest := keysByDest
    operation := operation
    format := .other "" }

/-- `forwardRequest`. -/
def forward (env : Surroundings) (copts : CallOptions) (fopts : Option Forward.Options)
    (dest : String) : Except Fault Forwarded := do
  let keys := Lists.get copts.keysByDest dest
  let (res, rs) ← forwardRequest (env.forward dest) copts.request dest env.serviceName
    copts.operation keys copts.format fopts
  match res with
  | .error err => return ⟨.error err, rs⟩
  | .ok res => return ⟨.ok ⟨dest, keys, res⟩, rs⟩

/-- `parallel`. -/
def parallel (env : Surroundings) (orders : Orders) (copts : CallOptions)
    (fopts : Option Forward.Options) : Except Fault (List Forwarded) := do
  let forwards ← copts.dests.mapM (forward env copts fopts)
  return orders.finish.arrange forwards

/-- `serial`. -/
def serial (env : Surroundings) (orders : Orders) (copts : CallOptions)
    (fopts : Option Forward.Options) (opts : Options) : Except Fault (List Forwarded) :=
  let dests :=
    if opts.fanoutMode = .serialBalanced then shuffleStrings orders.random copts.dests
    else copts.dests
  dests.mapM (forward env copts fopts)

/-- The requests that `readWrite` sends, as its fanout mode says. -/
def fanout (env : Surroundings) (orders : Orders) (copts : CallOptions)
    (fopts : Option Forward.Options) (opts : Options) : Except Fault (List Forwarded) :=
  match opts.fanoutMode with
  | .parallel => parallel env orders copts fopts
  | .serialSequential => serial env orders copts fopts opts
  | .serialBalanced => serial env orders copts fopts opts
  | .unknown _ => return []

/-- The value that an operation has to reach. -/
def Options.rwValue (opts : Options) : Operation → ℤ
  | .read => opts.rValue
  | .write => opts.wValue

/-- `readWrite`. -/
def readWrite (env : Surroundings) (orders : Orders) (rw : Operation) (keys : List String)
    (request : Bytes) (operation : String) (fopts : Option Forward.Options) (opts : Options) :
    Except Fault Result := do
  let rwValue := opts.rwValue rw
  if rwValue > opts.nValue then return ⟨[], some "rw value cannot exceed n value", []⟩
  let copts := callOptions env orders keys request operation opts
  if copts.dests.length < rwValue then
    return ⟨[], some "rw value not satisfied by destination", []⟩
  let forwards ← fanout env orders copts fopts opts
  let responses := forwards.filterMap fun f => f.response.toOption
  if responses.length < rwValue then
    return ⟨responses, some "rw value not satisfied", forwards⟩
  return ⟨responses, none, forwards⟩

namespace Replicator

/-- The two functions that make a request. -/
def call (rw : Operation) (env : Surroundings) (orders : Orders) (r : Replicator)
    (keys : List String) (request : Bytes) (operation : String)
    (fopts : Option Forward.Options) (opts : Option Options) : Except Fault Result :=
  readWrite env orders rw keys request operation fopts (mergeDefaultOptions opts r.defaults)

/-- `Read`. -/
def read := call .read

/-- `Write`. -/
def write := call .write

end Replicator

end Replica
end Ringpop
