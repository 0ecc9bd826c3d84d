/-
# The servers of a quorum

A request that returns without an error has enough responses.  Each comes from a forward
to a destination of its own, and says so.  But a forward that reroutes its retries may
have been answered by another server than its destination, one that may have answered
the forward to itself as well.  `quorum_distinct_iff` says that the responses come from
the servers that they name, and so from different ones, exactly if no forward strays.
-/

import Ringpop.Collections.Runs
import Ringpop.Forward.Attempts
import Ringpop.Replica.Replicator
import Mathlib.Data.Finset.Card

namespace Ringpop
namespace Replica

open CellStore Runs Reorder
open Forward (Bytes Request Answered)

/-- The server whose answer the forward has returned. -/
def Forwarded.server (f : Forwarded) : Option String :=
  f.response.toOption.bind fun _ => f.sender.lastServer

/-- The servers whose answers the request has returned. -/
def Result.servers (res : Result) : List String := res.forwards.filterMap Forwarded.server

/-- The request that is forwarded to a destination. -/
def CallOptions.requestTo (env : Surroundings) (copts : CallOptions)
    (fopts : Option Forward.Options) (dest : String) : Request :=
  .of copts.request env.serviceName copts.operation (copts.keysByDest.get dest) copts.format fopts

/-- No forward strays. -/
def CallOptions.Keeps (env : Surroundings) (copts : CallOptions)
    (fopts : Option Forward.Options) : Prop :=
  ∀ dest ∈ copts.dests, ¬ (copts.requestTo env fopts dest).Strays (env.forward dest) dest

variable {env : Surroundings} {orders : Orders} {copts : CallOptions}
  {fopts : Option Forward.Options} {opts : Options} {dest : String} {f : Forwarded}
  {response : Response} {forwards : List Forwarded}

/-! ### One forward -/

theorem destination_of_forward (h : forward env copts fopts dest = .ok f)
    (hr : f.response = .ok response) : response.destination = dest := by
  obtain ⟨⟨r, rs⟩, -, h⟩ := exists_of_bind_eq_ok h
  cases r with
  | error err =>
    obtain rfl := Except.ok.inj h
    cases hr
  | ok b =>
    obtain rfl := Except.ok.inj h
    obtain rfl := Except.ok.inj hr
    rfl

/-- **A forward** succeeds with the answer of another server exactly if it strays. -/
theorem strays_iff_of_forward (h : forward env copts fopts dest = .ok f) :
    (copts.requestTo env fopts dest).Strays (env.forward dest) dest ↔
      ∃ response, f.response = .ok response ∧ f.server ≠ some dest := by
  rw [Request.strays_iff]
  obtain ⟨⟨r, rs⟩, hforward, h⟩ := exists_of_bind_eq_ok h
  obtain ⟨hiff, hlast⟩ := Forward.forwardRequest_spec hforward
  have hiff' (y : String) (b : Bytes) : r = .ok b ∧ rs.lastServer = some y ↔
      Answered (env.forward dest) (copts.requestTo env fopts dest) 0 dest y b := hiff y b
  cases r with
  | error err =>
    obtain rfl := Except.ok.inj h
    refine iff_of_false ?_ ?_
    · rintro ⟨y, b, ha, -⟩
      cases ((hiff' y b).2 ha).1
    · rintro ⟨response, hr, -⟩
      cases hr
  | ok res =>
    obtain rfl := Except.ok.inj h
    constructor
    · rintro ⟨y, b, ha, hne⟩
      refine ⟨_, rfl, fun hserver => hne ?_⟩
      exact Option.some.inj (((hiff' y b).2 ha).2.symm.trans hserver)
    · rintro ⟨response, -, hne⟩
      obtain ⟨y, hy⟩ := hlast res rfl
      refine ⟨y, res, (hiff' y res).1 ⟨rfl, hy⟩, fun heq => hne ?_⟩
      rw [← heq]
      exact hy

/-! ### All forwards -/

/-- A mode that `fanout` knows. -/
def FanoutMode.Known (mode : FanoutMode) : Prop := ∀ m, mode ≠ .unknown m

theorem known_mergeDefaultOptions {opts : Option Options} {default : Options}
    (h : default.fanoutMode.Known) : (mergeDefaultOptions opts default).fanoutMode.Known := by
  cases opts with
  | none => exact h
  | some opts =>
    intro m
    rw [mergeDefaultOptions]
    cases opts.fanoutMode <;> simp [selectFanoutMode]

/-- **The forwards** are one for each destination, in some order. -/
theorem fanout_spec (hmode : opts.fanoutMode.Known)
    (h : fanout env orders copts fopts opts = .ok forwards) :
    (forwards.map Except.ok).Perm (copts.dests.map (forward env copts fopts)) := by
  have hserial (h : serial env orders copts fopts opts = .ok forwards) :
      (forwards.map Except.ok).Perm (copts.dests.map (forward env copts fopts)) := by
    rw [← map_eq_of_mapM_eq_ok h]
    refine List.Perm.map _ ?_
    split_ifs
    · exact scatter_perm "" (orders.random.perm _)
    · exact .refl _
  rw [fanout] at h
  split at h
  · obtain ⟨forwards', hmap, h⟩ := exists_of_bind_eq_ok h
    obtain rfl := Except.ok.inj h
    rw [map_eq_of_mapM_eq_ok hmap]
    exact (orders.finish.perm _).map _
  · exact hserial h
  · exact hserial h
  · rename_i m hm
    exact absurd hm (hmode m)

/-- The requests return exactly if all of their forwards do. -/
theorem exists_fanout_iff (hmode : opts.fanoutMode.Known) :
    (∃ forwards, fanout env orders copts fopts opts = .ok forwards) ↔
      ∀ dest ∈ copts.dests, ∃ f, forward env copts fopts dest = .ok f := by
  have hserial : (∃ forwards, serial env orders copts fopts opts = .ok forwards) ↔
      ∀ dest ∈ copts.dests, ∃ f, forward env copts fopts dest = .ok f := by
    rw [serial, exists_mapM_eq_ok_iff]
    split_ifs
    · have hperm := scatter_perm "" (orders.random.perm copts.dests.length)
      simp only [shuffleStrings, hperm.mem_iff]
    · rfl
  rw [fanout]
  split
  · rw [← exists_mapM_eq_ok_iff]
    constructor
    · rintro ⟨forwards, h⟩
      obtain ⟨forwards', hmap, -⟩ := exists_of_bind_eq_ok h
      exact ⟨forwards', hmap⟩
    · rintro ⟨forwards, hmap⟩
      refine ⟨orders.finish.arrange forwards, ?_⟩
      rw [parallel, hmap]
      rfl
  · exact hserial
  · exact hserial
  · rename_i m hm
    exact absurd hm (hmode m)

section forwards

variable (hall : (forwards.map Except.ok).Perm (copts.dests.map (forward env copts fopts)))

include hall

theorem mem_forwards_iff : f ∈ forwards ↔
    ∃ dest ∈ copts.dests, forward env copts fopts dest = .ok f := by
  rw [← List.mem_map, ← hall.mem_iff, List.mem_map_of_injective fun _ _ => Except.ok.inj]

/-- A response belongs to the forward to its destination. -/
theorem eq_of_response {f' : Forwarded} (hf : f ∈ forwards) (hf' : f' ∈ forwards)
    (hr : f.response = .ok response) (hr' : f'.response = .ok response) : f = f' := by
  obtain ⟨dest, -, hforward⟩ := (mem_forwards_iff hall).1 hf
  obtain ⟨dest', -, hforward'⟩ := (mem_forwards_iff hall).1 hf'
  obtain rfl := destination_of_forward hforward hr
  obtain rfl := destination_of_forward hforward' hr'
  exact Except.ok.inj (hforward.symm.trans hforward')

/-- **No forward strays** exactly if each response names the server that answered. -/
theorem keeps_iff : copts.Keeps env fopts ↔ ∀ f ∈ forwards, ∀ response,
    f.response = .ok response → f.server = some response.destination := by
  constructor
  · intro hkeeps f hf response hr
    obtain ⟨dest, hdest, hforward⟩ := (mem_forwards_iff hall).1 hf
    obtain rfl := destination_of_forward hforward hr
    by_contra hne
    exact hkeeps _ hdest ((strays_iff_of_forward hforward).2 ⟨response, hr, hne⟩)
  · intro hserver dest hdest hstrays
    obtain ⟨f, -, hf⟩ := List.mem_map.1 (hall.mem_iff.2 (List.mem_map_of_mem hdest))
    obtain ⟨response, hr, hne⟩ := (strays_iff_of_forward hf.symm).1 hstrays
    obtain rfl := destination_of_forward hf.symm hr
    exact hne (hserver f ((mem_forwards_iff hall).2 ⟨_, hdest, hf.symm⟩) response hr)

/-- Different forwards have different destinations in their responses. -/
theorem nodup_destinations (hdests : copts.dests.Nodup) :
    (forwards.filterMap fun f => f.response.toOption.map Response.destination).Nodup := by
  have hperm := hall.filterMap fun r => r.toOption.bind fun f =>
    f.response.toOption.map Response.destination
  rw [List.filterMap_map, List.filterMap_map] at hperm
  refine hperm.nodup_iff.2 (hdests.filterMap fun dest dest' name hname hname' => ?_)
  have hof (dest : String) (hname : name ∈ (forward env copts fopts dest).toOption.bind fun f =>
      f.response.toOption.map Response.destination) : name = dest := by
    obtain ⟨f, hf, hname⟩ := Option.bind_eq_some_iff.1 hname
    obtain ⟨response, hr, rfl⟩ := Option.map_eq_some_iff.1 hname
    exact destination_of_forward (toOption_eq_some_iff.1 hf) (toOption_eq_some_iff.1 hr)
  exact (hof dest hname).symm.trans (hof dest' hname')

end forwards

/-- Where each response names the server that answered, the servers are those named. -/
theorem servers_eq {res : Result} (hserver : ∀ f ∈ res.forwards, ∀ response,
      f.response = .ok response → f.server = some response.destination) :
    res.servers = res.forwards.filterMap fun f =>
      f.response.toOption.map Response.destination := by
  refine List.filterMap_congr fun f hf => ?_
  cases hr : f.response with
  | error err =>
    rw [Forwarded.server, hr]
    rfl
  | ok response => exact hserver f hf response hr

/-! ### The destinations -/

/-- The destinations of a single key are what `LookupN` returns. -/
theorem callOptions_dests_single (env : Surroundings) (orders : Orders) (key : String)
    (request : Bytes) (operation : String) (opts : Options) :
    (callOptions env orders [key] request operation opts).dests =
      (env.lookupN 0 key opts.nValue).1 := by
  have hinsert : (groupReplicas env [key] opts.nValue).1 =
      AList.insert key (env.lookupN 0 key opts.nValue).1 ∅ := rfl
  simp only [callOptions, destinations]
  rw [Lists.get, hinsert, AList.lookup_insert, Option.getD_some]

/-- Those of several keys are the keys of a map. -/
theorem callOptions_dests_of_ne {keys : List String} (hone : keys.length ≠ 1)
    (env : Surroundings) (orders : Orders) (request : Bytes) (operation : String)
    (opts : Options) : (callOptions env orders keys request operation opts).dests =
      orders.enumerate.arrange (groupReplicas env keys opts.nValue).2.keys := by
  simp only [callOptions, destinations]
  split
  · exact absurd rfl hone
  · rfl

/-- **The destinations** are different servers, if there are several keys or those of each key
are. -/
theorem nodup_callOptions_dests {keys : List String}
    (hN : keys.length = 1 → ∀ i key n, (env.lookupN i key n).1.Nodup) (orders : Orders)
    (request : Bytes) (operation : String) (opts : Options) :
    (callOptions env orders keys request operation opts).dests.Nodup := by
  by_cases hone : keys.length = 1
  · obtain ⟨key, rfl⟩ := List.length_eq_one_iff.1 hone
    rw [callOptions_dests_single]
    exact hN rfl _ _ _
  · rw [callOptions_dests_of_ne hone]
    exact (orders.enumerate.perm _).nodup_iff.2 (groupReplicas env _ _).2.keys_nodup

/-- What `readWrite` returns after its forwards. -/
def concluded (rwValue : ℤ) (forwards : List Forwarded) : Result :=
  let responses := forwards.filterMap fun f => f.response.toOption
  ⟨responses, if responses.length < rwValue then some "rw value not satisfied" else none, forwards⟩

/-- **A request that is not refused** forwards, and concludes. -/
theorem readWrite_of_le {keys : List String} {request : Bytes} {operation : String}
    (rw : Operation) (hn : opts.rwValue rw ≤ opts.nValue)
    (hlength : opts.rwValue rw ≤
      (callOptions env orders keys request operation opts).dests.length) :
    readWrite env orders rw keys request operation fopts opts =
      (fanout env orders (callOptions env orders keys request operation opts) fopts opts).map
        (concluded (opts.rwValue rw)) := by
  rw [readWrite]
  refine (if_neg (not_lt.2 hn)).trans ((if_neg (not_lt.2 hlength)).trans ?_)
  cases fanout env orders (callOptions env orders keys request operation opts) fopts opts with
  | error fault => rfl
  | ok forwards =>
    rw [Except.map, concluded]
    split_ifs with hlen
    · exact if_pos hlen
    · exact if_neg hlen

/-- A request that returns no error was not refused. -/
theorem le_of_readWrite {rw : Operation} {keys : List String} {request : Bytes}
    {operation : String} {res : Result}
    (h : readWrite env orders rw keys request operation fopts opts = .ok res)
    (herr : res.err = none) :
    opts.rwValue rw ≤ opts.nValue ∧
      opts.rwValue rw ≤ (callOptions env orders keys request operation opts).dests.length := by
  rw [readWrite] at h
  dsimp only at h
  split_ifs at h with hn hdests
  · obtain rfl := Except.ok.inj h
    cases herr
  · obtain rfl := Except.ok.inj h
    cases herr
  · exact ⟨not_lt.1 hn, not_lt.1 hdests⟩

/-- What `readWrite` has done when it returns no error. -/
theorem exists_of_readWrite {rw : Operation} {keys : List String} {request : Bytes}
    {operation : String} {res : Result}
    (h : readWrite env orders rw keys request operation fopts opts = .ok res)
    (herr : res.err = none) :
    fanout env orders (callOptions env orders keys request operation opts) fopts opts =
        .ok res.forwards ∧
      res.responses = (res.forwards.filterMap fun f => f.response.toOption) ∧
      opts.rwValue rw ≤ res.responses.length := by
  obtain ⟨hn, hdests⟩ := le_of_readWrite h herr
  rw [readWrite_of_le rw hn hdests] at h
  obtain ⟨forwards, hfanout, rfl⟩ := exists_of_map_eq_ok h
  rw [concluded] at herr
  dsimp only at herr
  split_ifs at herr with hlen
  exact ⟨hfanout, rfl, not_lt.1 hlen⟩

/-- **The servers of a quorum.**  A request that returns without an error has enough
answers from different servers, and each response names the server that answered it,
exactly if no forward strays. -/
theorem quorum_distinct_iff (env : Surroundings)
    (hN : ∀ i key n, (env.lookupN i key n).1.Nodup) (orders : Orders) (rw : Operation)
    (defaults opts : Option Options) (keys : List String) (request : Bytes)
    (operation : String) (fopts : Option Forward.Options) (res : Result)
    (hrun : (newReplicator defaults).call rw env orders keys request operation fopts opts =
      .ok res) (herr : res.err = none) :
    (mergeDefaultOptions opts (newReplicator defaults).defaults).rwValue rw ≤
          res.servers.toFinset.card ∧
        (∀ response ∈ res.responses, ∃ f ∈ res.forwards,
          f.response = .ok response ∧ f.server = some response.destination) ↔
      (callOptions env orders keys request operation
        (mergeDefaultOptions opts (newReplicator defaults).defaults)).Keeps env fopts := by
  have hmode : (mergeDefaultOptions opts (newReplicator defaults).defaults).fanoutMode.Known :=
    known_mergeDefaultOptions (known_mergeDefaultOptions fun m hm => by cases hm)
  obtain ⟨hfanout, hresponses, hlen⟩ := exists_of_readWrite hrun herr
  have hall := fanout_spec hmode hfanout
  have hmem (response : Response) : response ∈ res.responses ↔
      ∃ f ∈ res.forwards, f.response = .ok response := by
    rw [hresponses, List.mem_filterMap]
    simp only [toOption_eq_some_iff]
  rw [keeps_iff hall]
  constructor
  · rintro ⟨-, hnamed⟩ f hf response hr
    obtain ⟨f', hf', hr', hserver⟩ := hnamed response ((hmem response).2 ⟨f, hf, hr⟩)
    obtain rfl := eq_of_response hall hf hf' hr hr'
    exact hserver
  · intro hserver
    have hservers := servers_eq hserver
    refine ⟨?_, fun response hresponse => ?_⟩
    · have hnodup : res.servers.Nodup := by
        rw [hservers]
        exact nodup_destinations hall (nodup_callOptions_dests (fun _ => hN) ..)
      rw [List.toFinset_card_of_nodup hnodup, hservers, ← List.map_filterMap, ← hresponses,
        List.length_map]
      exact hlen
    · obtain ⟨f, hf, hr⟩ := (hmem response).1 hresponse
      exact ⟨f, hf, hr, hserver f hf response hr⟩

/-- Two replicas, `a` and `b`.  The key is looked up as `owner` before a retry, and the
calls to `a` that `down` names fail. -/
def twoReplicas (owner : String) (down : ℕ → Bool) : Surroundings where
  lookupN _ _ _ := (["a", "b"], none)
  forward _ :=
    { call := fun k call =>
        if call.destination = "a" ∧ down k then .failed "refused" else .answered [1] false
      lookup := fun _ _ _ => .ok owner
      unmarshal := fun _ => .error "" }
  serviceName := "service"

/-- The retry goes to the same server. -/
theorem quorum_distinct_iff_retried : ∃ res,
    (newReplicator none).write (twoReplicas "a" (· = 0)) ⟨.asIs, .asIs, .inOrder⟩ ["k"] [0]
        "op" (some ⟨1, true, some [0], 0⟩) (some ⟨2, 1, 2, .parallel⟩) = .ok res ∧
      2 ≤ res.servers.toFinset.card ∧
      ∀ response ∈ res.responses, ∃ f ∈ res.forwards,
        f.response = .ok response ∧ f.server = some response.destination := by
  obtain ⟨res, hrun, herr⟩ := exists_of_map_eq_ok (F := Result.err) (b := none)
    (x := (newReplicator none).write (twoReplicas "a" (· = 0)) ⟨.asIs, .asIs, .inOrder⟩
      ["k"] [0] "op" (some ⟨1, true, some [0], 0⟩) (some ⟨2, 1, 2, .parallel⟩))
    (by decide +kernel)
  have hkeeps : (callOptions (twoReplicas "a" (· = 0)) ⟨.asIs, .asIs, .inOrder⟩ ["k"] [0] "op"
      ⟨2, 1, 2, .parallel⟩).Keeps (twoReplicas "a" (· = 0)) (some ⟨1, true, some [0], 0⟩) := by
    intro dest hdest
    have hdest' : dest ∈ ["a", "b"] := hdest
    rintro ⟨-, k, -, hfails, y, b, hroute, -, hne⟩
    rcases List.mem_cons.1 hdest' with rfl | hdest'
    · exact hne (Option.some.inj hroute).symm
    · obtain rfl := List.mem_singleton.1 hdest'
      obtain ⟨x, hx, err, herr⟩ := hfails 0 (Nat.zero_le k)
      obtain rfl := Option.some.inj hx
      cases herr
  obtain ⟨hcard, hnamed⟩ := (quorum_distinct_iff (twoReplicas "a" (· = 0))
    (fun _ _ _ => show ["a", "b"].Nodup by decide) _ _ _ _ _ _ _ _ res hrun herr).2 hkeeps
  have hcard' : (2 : ℤ) ≤ res.servers.toFinset.card := hcard
  exact ⟨res, hrun, by exact_mod_cast hcard', hnamed⟩

/-- Only `b` answers, and is counted twice: the forward to `a` is sent to `b` when it is
tried again. -/
theorem quorum_of_one_server : ∃ res,
    (newReplicator none).write (twoReplicas "b" fun _ => true) ⟨.asIs, .asIs, .inOrder⟩ ["k"]
        [0] "op" (some ⟨1, true, some [0], 0⟩) (some ⟨2, 1, 2, .parallel⟩) = .ok res ∧
      res.err = none ∧ res.responses = [⟨"a", ["k"], [1]⟩, ⟨"b", ["k"], [1]⟩] ∧
      res.servers.toFinset.card = 1 ∧
      ¬ ∀ response ∈ res.responses, ∃ f ∈ res.forwards,
        f.response = .ok response ∧ f.server = some response.destination := by
  obtain ⟨res, hrun, hres⟩ := exists_of_map_eq_ok
    (F := fun res : Result => (res.err, res.responses,
      res.forwards.map fun f => (f.response.toOption, f.server)))
    (b := (none, [⟨"a", ["k"], [1]⟩, ⟨"b", ["k"], [1]⟩],
      [(some ⟨"a", ["k"], [1]⟩, some "b"), (some ⟨"b", ["k"], [1]⟩, some "b")]))
    (x := (newReplicator none).write (twoReplicas "b" fun _ => true) ⟨.asIs, .asIs, .inOrder⟩
      ["k"] [0] "op" (some ⟨1, true, some [0], 0⟩) (some ⟨2, 1, 2, .parallel⟩))
    (by decide +kernel)
  obtain ⟨herr, hresponses, hforwards⟩ := by simpa only [Prod.mk.injEq] using hres
  have hservers : res.servers = ["b", "b"] := by
    have hmap := congrArg (List.filterMap Prod.snd) hforwards
    rw [List.filterMap_map] at hmap
    exact hmap
  refine ⟨res, hrun, herr, hresponses, by rw [hservers]; decide, fun hnamed => ?_⟩
  obtain ⟨f, hf, hr, hserver⟩ := hnamed ⟨"a", ["k"], [1]⟩ (by rw [hresponses]; exact .head _)
  have hmem := List.mem_map_of_mem (f := fun f => (f.response.toOption, f.server)) hf
  rw [hforwards, hr, hserver] at hmem
  revert hmem
  decide

end Replica
end Ringpop
