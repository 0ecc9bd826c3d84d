/-
# The fanout modes

`readWrite` sends its requests all at once, one after the other, or one after the other in
a shuffled order, and the responses come in the order in which the forwards finish.  The
destinations of several keys come in the order of a map.  None of this shows in what comes
back but in its order: the forwards are one for each server that replicates a key, with the
keys that it replicates (`contacts_of_fanout`), and the verdict only counts the responses
(`fanout_modes_agree`).
-/

import Ringpop.Replica.KeyQuorum

namespace Ringpop
namespace Replica

open CellStore Runs Reorder
open Forward (Bytes forwardRequest)

/-- The keys that a server replicates, each as often as it is listed. -/
def Surroundings.replicated (env : Surroundings) (keys : List String) (n : ℤ) (dest : String) :
    List String :=
  (keys.zipIdx.filter fun key => dest ∈ (env.lookupN key.2 key.1 n).1).map Prod.fst

/-- The server that a forward has called first, and its keys. -/
def Forwarded.contact (f : Forwarded) : Option String × List String :=
  (f.sender.calls.head?.map Prod.fst, f.sender.keys)

variable {env : Surroundings} {orders : Orders} {copts : CallOptions}
  {fopts : Option Forward.Options} {opts : Options} {keys : List String} {request : Bytes}
  {operation : String} {dest : String} {f : Forwarded} {forwards : List Forwarded}

/-! ### Destinations and their keys -/

/-- One key put under several destinations, each once. -/
theorem Lists.get_foldl {m : Lists} {dests : List String} (hdests : dests.Nodup)
    (key x : String) :
    Lists.get (dests.foldl (fun m dest => m.insert dest (Lists.get m dest ++ [key])) m) x =
      m.get x ++ if x ∈ dests then [key] else [] := by
  induction dests generalizing m with
  | nil => simp
  | cons dest dests ih =>
    obtain ⟨hnotMem, hdests⟩ := List.nodup_cons.1 hdests
    rw [List.foldl_cons, ih hdests, Lists.get_insert]
    by_cases hx : x = dest
    · subst hx
      simp [hnotMem]
    · simp [hx]

section distinct

variable (hN : ∀ i key n, (env.lookupN i key n).1.Nodup)

include hN

/-- **The keys of a destination**, with their number and in their order. -/
theorem get_groupReplicas (keys : List String) (n : ℤ) (dest : String) :
    Lists.get (groupReplicas env keys n).2 dest = env.replicated keys n dest := by
  have hfold (l : List (String × ℕ)) (maps : Lists × Lists) :
      Lists.get (l.foldl (groupKey env n) maps).2 dest = Lists.get maps.2 dest ++
        (l.filter fun key => dest ∈ (env.lookupN key.2 key.1 n).1).map Prod.fst := by
    induction l generalizing maps with
    | nil => simp
    | cons e l ih =>
      rw [List.foldl_cons, ih, groupKey, Lists.get_foldl (hN ..), List.append_assoc,
        List.filter_cons]
      split_ifs <;> simp_all
  exact (hfold keys.zipIdx (∅, ∅)).trans (List.nil_append _)

end distinct

/-- **A forward** first calls its destination, for the keys of the destination. -/
theorem contact_of_forward (h : forward env copts fopts dest = .ok f) :
    f.contact = (some dest, copts.keysByDest.get dest) := by
  obtain ⟨⟨r, rs⟩, hforward, h⟩ := exists_of_bind_eq_ok h
  obtain ⟨calls, events, e, htrace, hreturn⟩ := Forward.forwardRequest_trace (env.forward dest)
    copts.request dest env.serviceName copts.operation (copts.keysByDest.get dest) copts.format
    fopts
  rw [hforward] at hreturn
  obtain ⟨r', rfl, heq⟩ := exists_of_map_eq_ok hreturn.symm
  simp only [Forward.RequestSender.record, Prod.mk.injEq] at heq
  obtain ⟨-, hcalls, hrequest, -⟩ := heq
  obtain ⟨rest, hcons⟩ := htrace.exists_eq_cons
  have hsender : f.sender = rs := by
    cases r with
    | error err =>
      obtain rfl := Except.ok.inj h
      rfl
    | ok b =>
      obtain rfl := Except.ok.inj h
      rfl
  rw [Forwarded.contact, hsender, ← hcalls, hcons, ← hrequest]
  rfl

theorem map_contact_of_forward {dests : List String}
    (h : ∀ dest ∈ dests, ∃ f, forward env copts fopts dest = .ok f) :
    dests.map (fun dest => (forward env copts fopts dest).toOption.map Forwarded.contact) =
      dests.map fun dest => some (some dest, copts.keysByDest.get dest) := by
  refine List.map_congr_left fun dest hdest => ?_
  obtain ⟨f, hforward⟩ := h dest hdest
  rw [hforward]
  exact congrArg some (contact_of_forward hforward)

/-! ### What comes back -/

theorem concluded_perm {forwards' : List Forwarded} (h : forwards.Perm forwards') (rwValue : ℤ) :
    (concluded rwValue forwards).responses.Perm (concluded rwValue forwards').responses ∧
      (concluded rwValue forwards).err = (concluded rwValue forwards').err := by
  have hperm := h.filterMap fun f => f.response.toOption
  refine ⟨hperm, ?_⟩
  rw [concluded, concluded]
  dsimp only
  rw [hperm.length_eq]

section distinct

variable (hN : ∀ i key n, (env.lookupN i key n).1.Nodup)

include hN

/-- It is not refused with enough servers that replicate a key. -/
theorem readWrite_eq (rw : Operation) (hn : opts.rwValue rw ≤ opts.nValue)
    (hlength : opts.rwValue rw ≤ (env.replicas keys opts.nValue).length) (orders : Orders)
    (mode : FanoutMode) :
    readWrite env orders rw keys request operation fopts { opts with fanoutMode := mode } =
      (fanout env orders (callOptions env orders keys request operation
        { opts with fanoutMode := mode }) fopts { opts with fanoutMode := mode }).map
          (concluded (opts.rwValue rw)) := by
  have hdests := callOptions_dests_perm keys (fun _ => hN) orders request operation
    { opts with fanoutMode := mode }
  rw [← hdests.length_eq] at hlength
  exact readWrite_of_le rw hn hlength

/-- **A request is refused** up front in the same way in all modes. -/
theorem exists_refused (rw : Operation) (keys : List String) (request : Bytes)
    (operation : String) (fopts : Option Forward.Options) (opts : Options)
    (h : ¬ (opts.rwValue rw ≤ opts.nValue ∧
      opts.rwValue rw ≤ (env.replicas keys opts.nValue).length)) :
    ∃ err, ∀ orders mode, readWrite env orders rw keys request operation fopts
      { opts with fanoutMode := mode } = .ok ⟨[], some err, []⟩ := by
  by_cases hn : opts.rwValue rw ≤ opts.nValue
  · refine ⟨"rw value not satisfied by destination", fun orders mode => ?_⟩
    have hlt : (callOptions env orders keys request operation
        { opts with fanoutMode := mode }).dests.length < opts.rwValue rw := by
      rw [(callOptions_dests_perm _ (fun _ => hN) ..).length_eq]
      exact not_le.1 fun hle => h ⟨hn, hle⟩
    rw [readWrite]
    exact (if_neg (not_lt.2 hn)).trans (if_pos hlt)
  · refine ⟨"rw value cannot exceed n value", fun orders mode => ?_⟩
    rw [readWrite]
    exact if_pos (not_le.1 hn)

/-- **The forwards** are one for each server that replicates a key. -/
theorem forwards_perm (hmode : opts.fanoutMode.Known)
    (h : fanout env orders (callOptions env orders keys request operation opts) fopts opts =
      .ok forwards) :
    (forwards.map Except.ok).Perm ((env.replicas keys opts.nValue).map
      (forward env (callOptions env orders keys request operation opts) fopts)) :=
  (fanout_spec hmode h).trans ((callOptions_dests_perm _ (fun _ => hN) ..).map _)

/-- **The contacts**: each server that replicates a key once, for the keys that it replicates. -/
theorem contacts_of_fanout (hmode : opts.fanoutMode.Known)
    (h : fanout env orders (callOptions env orders keys request operation opts) fopts opts =
      .ok forwards) :
    (forwards.map Forwarded.contact).Perm ((env.replicas keys opts.nValue).map fun dest =>
      (some dest, env.replicated keys opts.nValue dest)) := by
  have hall := forwards_perm hN hmode h
  have hreturn : ∀ dest ∈ env.replicas keys opts.nValue, ∃ f,
      forward env (callOptions env orders keys request operation opts) fopts dest = .ok f := by
    intro dest hdest
    obtain ⟨f, -, hforward⟩ := List.mem_map.1 (hall.mem_iff.2 (List.mem_map_of_mem hdest))
    exact ⟨f, hforward.symm⟩
  have hperm := hall.map fun r => r.toOption.map Forwarded.contact
  rw [List.map_map, List.map_map] at hperm
  have hcontacts := hperm.trans (.of_eq (map_contact_of_forward hreturn))
  rw [← List.map_perm_map_iff (Option.some_injective _), List.map_map, List.map_map]
  simp only [← get_groupReplicas hN keys opts.nValue]
  exact hcontacts

/-- The forwards return if `ForwardRequest` returns for each server that replicates a key. -/
theorem exists_fanout_of_forall (orders : Orders) {mode : FanoutMode} (hmode : mode.Known)
    (h : ∀ dest ∈ env.replicas keys opts.nValue, ∃ r, forwardRequest (env.forward dest) request
      dest env.serviceName operation (env.replicated keys opts.nValue dest) (.other "") fopts =
        .ok r) :
    ∃ forwards, fanout env orders (callOptions env orders keys request operation
      { opts with fanoutMode := mode }) fopts { opts with fanoutMode := mode } =
        .ok forwards := by
  refine (exists_fanout_iff hmode).2 fun dest hdest => ?_
  obtain ⟨⟨r, rs⟩, hr⟩ := h dest ((callOptions_dests_perm _ (fun _ => hN) ..).mem_iff.1 hdest)
  rw [← get_groupReplicas hN] at hr
  cases r with
  | error err => exact ⟨⟨.error err, rs⟩, congrArg (· >>= _) hr⟩
  | ok b => exact ⟨⟨.ok ⟨dest, _, b⟩, rs⟩, congrArg (· >>= _) hr⟩

/-- **If the forwards return** in one mode, they return in any other, in some order. -/
theorem exists_fanout_perm (hmode : opts.fanoutMode.Known)
    (h : fanout env orders (callOptions env orders keys request operation opts) fopts opts =
      .ok forwards) {mode : FanoutMode} (hmode' : mode.Known) (orders' : Orders) :
    ∃ forwards', fanout env orders' (callOptions env orders' keys request operation
        { opts with fanoutMode := mode }) fopts { opts with fanoutMode := mode } =
          .ok forwards' ∧ forwards.Perm forwards' := by
  have hdests := (callOptions_dests_perm keys (fun _ => hN) orders request operation opts).trans
    (callOptions_dests_perm keys (fun _ => hN) orders' request operation
      { opts with fanoutMode := mode }).symm
  obtain ⟨forwards', h'⟩ : ∃ forwards', fanout env orders' (callOptions env orders' keys request
      operation { opts with fanoutMode := mode }) fopts { opts with fanoutMode := mode } =
        .ok forwards' := by
    refine (exists_fanout_iff hmode').2 fun dest hdest => ?_
    exact (exists_fanout_iff hmode).1 ⟨forwards, h⟩ dest (hdests.mem_iff.2 hdest)
  have hall := (forwards_perm hN hmode h).trans (forwards_perm hN hmode' h').symm
  exact ⟨forwards', h', (List.map_perm_map_iff fun _ _ => Except.ok.inj).1 hall⟩

end distinct

/-- **The fanout modes agree.**  A request that returns in one mode, with one order of its
forwards, returns in any other with the same responses but for their order and with the same
error; unless it is refused up front, it has contacted each server that replicates a key once,
for the keys that it replicates.  It returns if all of its forwards do. -/
theorem fanout_modes_agree (env : Surroundings)
    (hN : ∀ i key n, (env.lookupN i key n).1.Nodup) (rw : Operation) (keys : List String)
    (request : Bytes) (operation : String) (fopts : Option Forward.Options) (opts : Options)
    (mode mode' : FanoutMode) (hmode : mode.Known) (hmode' : mode'.Known)
    (orders orders' : Orders) :
    (∀ res, readWrite env orders rw keys request operation fopts
        { opts with fanoutMode := mode } = .ok res →
      (∃ res', readWrite env orders' rw keys request operation fopts
          { opts with fanoutMode := mode' } = .ok res' ∧
        res.responses.Perm res'.responses ∧ res.err = res'.err) ∧
      (opts.rwValue rw ≤ opts.nValue →
        opts.rwValue rw ≤ (env.replicas keys opts.nValue).length →
        (res.forwards.map Forwarded.contact).Perm ((env.replicas keys opts.nValue).map fun dest =>
          (some dest, env.replicated keys opts.nValue dest)))) ∧
    ((∀ dest ∈ env.replicas keys opts.nValue, ∃ r, forwardRequest (env.forward dest) request dest
        env.serviceName operation (env.replicated keys opts.nValue dest) (.other "") fopts =
          .ok r) →
      ∃ res, readWrite env orders rw keys request operation fopts
        { opts with fanoutMode := mode } = .ok res) := by
  by_cases haccepted : opts.rwValue rw ≤ opts.nValue ∧
      opts.rwValue rw ≤ (env.replicas keys opts.nValue).length
  · obtain ⟨hn, hlength⟩ := haccepted
    refine ⟨fun res hres => ?_, fun hreturn => ?_⟩
    · rw [readWrite_eq hN rw hn hlength] at hres
      obtain ⟨forwards, hfanout, rfl⟩ := exists_of_map_eq_ok hres
      obtain ⟨forwards', hfanout', hperm⟩ := exists_fanout_perm hN hmode hfanout hmode' orders'
      have hcontacts := contacts_of_fanout hN hmode hfanout
      refine ⟨⟨concluded _ forwards', ?_, concluded_perm hperm _⟩, fun _ _ => hcontacts⟩
      rw [readWrite_eq hN rw hn hlength]
      exact congrArg (Except.map _) hfanout'
    · obtain ⟨forwards, hfanout⟩ := exists_fanout_of_forall hN orders hmode hreturn
      refine ⟨concluded (opts.rwValue rw) forwards, ?_⟩
      rw [readWrite_eq hN rw hn hlength]
      exact congrArg (Except.map _) hfanout
  · -- refused up front
    obtain ⟨err, hrefused⟩ := exists_refused hN rw keys request operation fopts opts haccepted
    refine ⟨fun res hres => ?_, fun _ => ⟨_, hrefused orders mode⟩⟩
    obtain rfl := Except.ok.inj ((hrefused orders mode).symm.trans hres)
    refine ⟨⟨_, hrefused orders' mode', .refl _, rfl⟩, fun hn hlength => ?_⟩
    exact absurd ⟨hn, hlength⟩ haccepted

/-- Key `k` is held by `a` and `b`, other keys by `b` and `c`; the calls to `b` fail. -/
def sharedReplica : Surroundings where
  lookupN _ key _ := (if key = "k" then ["a", "b"] else ["b", "c"], none)
  forward dest :=
    { call := fun _ _ => if dest = "b" then .failed "refused" else .answered [1] false
      lookup := fun _ _ _ => .ok dest
      unmarshal := fun _ => .error "" }
  serviceName := "service"

/-- The shuffle that turns a list round. -/
def Orders.turned : Orders :=
  ⟨.asIs, .asIs, ⟨fun n => (List.range n).reverse, fun _ => List.reverse_perm _⟩⟩

/-- The server that is shared is contacted once, for both keys. -/
theorem fanout_modes_agree_shared : ∃ res res',
    readWrite sharedReplica ⟨.asIs, .asIs, .inOrder⟩ .write ["k", "l", "k"] [0] "op" none
        ⟨2, 1, 2, .parallel⟩ = .ok res ∧
      readWrite sharedReplica .turned .write ["k", "l", "k"] [0] "op" none
        ⟨2, 1, 2, .serialBalanced⟩ = .ok res' ∧
      res.responses.Perm res'.responses ∧ res.err = res'.err ∧
      (res.forwards.map Forwarded.contact).Perm
        [(some "c", ["l"]), (some "a", ["k", "k"]), (some "b", ["k", "l", "k"])] := by
  have hN : ∀ i key n, (sharedReplica.lookupN i key n).1.Nodup := by
    intro i key n
    rw [sharedReplica]
    dsimp only
    split_ifs <;> decide
  have hagree := fanout_modes_agree sharedReplica hN .write ["k", "l", "k"] [0] "op" none
    ⟨2, 1, 2, .parallel⟩ .parallel .serialBalanced (fun m => by simp) (fun m => by simp)
    ⟨.asIs, .asIs, .inOrder⟩ .turned
  obtain ⟨res, hrun, -⟩ := exists_of_map_eq_ok (F := Result.err) (b := none)
    (x := readWrite sharedReplica ⟨.asIs, .asIs, .inOrder⟩ .write ["k", "l", "k"] [0] "op" none
      ⟨2, 1, 2, .parallel⟩) (by decide +kernel)
  obtain ⟨⟨res', hrun', hresponses, herr⟩, hcontacts⟩ := hagree.1 res hrun
  exact ⟨res, res', hrun, hrun', hresponses, herr, hcontacts (by decide) (by decide)⟩

end Replica
end Ringpop
