/-
# The quorum of each key

`readWrite` counts the responses of all its forwards together.  With one key that is the
quorum of the key.  With several keys the destinations of all of them are forwarded to,
and the responses of one key make up for those that another one lacks: the request may
return without an error though nobody of a key's replicas has answered.  A key for which
`LookupN` returns nothing is not even missed, while alone it would have been refused.

`key_quorum_iff` says for which requests each key has its quorum among the responses whatever
the servers answer: apart from those that ask for no response or are refused, for those whose
keys all have the same replicas.
-/

import Ringpop.Replica.Quorum

namespace Ringpop
namespace Replica

open CellStore Runs Reorder
open Forward (Bytes Answered)

/-! ### Keys and destinations -/

namespace Lists

@[simp] theorem get_insert (m : Lists) (dest x : String) (l : List String) :
    Lists.get (m.insert dest l) x = if x = dest then l else m.get x := by
  rw [Lists.get, Lists.get]
  split_ifs with hx
  · rw [hx, AList.lookup_insert, Option.getD_some]
  · rw [AList.lookup_insert_ne hx]

/-- One key put under several destinations. -/
theorem mem_get_foldl {m : Lists} {dests : List String} {key k x : String} :
    k ∈ Lists.get (dests.foldl (fun m dest => m.insert dest (Lists.get m dest ++ [key])) m) x ↔
      k ∈ m.get x ∨ k = key ∧ x ∈ dests := by
  induction dests generalizing m with
  | nil => simp
  | cons dest dests ih =>
    rw [List.foldl_cons, ih, get_insert]
    by_cases hx : x = dest
    · subst hx
      simp only [if_true, List.mem_append, List.mem_singleton, List.mem_cons_self, and_true,
        or_assoc]
      tauto
    · simp [hx]

theorem mem_keys_foldl {m : Lists} {dests : List String} {key x : String} :
    x ∈ AList.keys (dests.foldl (fun m dest => m.insert dest (Lists.get m dest ++ [key])) m) ↔
      x ∈ m.keys ∨ x ∈ dests := by
  induction dests generalizing m with
  | nil => simp
  | cons dest dests ih =>
    rw [List.foldl_cons, ih, ← AList.mem_keys, AList.mem_insert, List.mem_cons]
    rw [AList.mem_keys]
    tauto

end Lists

variable {env : Surroundings} {orders : Orders} {copts : CallOptions}
  {fopts : Option Forward.Options} {opts : Options} {keys : List String} {request : Bytes}
  {operation : String} {dest : String} {f : Forwarded} {forwards : List Forwarded}

/-- **The keys of a destination** are those that it was looked up for, and the
destinations those that were looked up. -/
theorem groupReplicas_spec (env : Surroundings) (keys : List String) (n : ℤ) (dest : String) :
    (∀ key, key ∈ Lists.get (groupReplicas env keys n).2 dest ↔
      ∃ e ∈ keys.zipIdx, e.1 = key ∧ dest ∈ (env.lookupN e.2 e.1 n).1) ∧
    (dest ∈ (groupReplicas env keys n).2.keys ↔
      ∃ e ∈ keys.zipIdx, dest ∈ (env.lookupN e.2 e.1 n).1) := by
  have hfold (l : List (String × ℕ)) (maps : Lists × Lists) :
      (∀ key, key ∈ Lists.get (l.foldl (groupKey env n) maps).2 dest ↔
        key ∈ Lists.get maps.2 dest ∨ ∃ e ∈ l, e.1 = key ∧ dest ∈ (env.lookupN e.2 e.1 n).1) ∧
      (dest ∈ (l.foldl (groupKey env n) maps).2.keys ↔
        dest ∈ maps.2.keys ∨ ∃ e ∈ l, dest ∈ (env.lookupN e.2 e.1 n).1) := by
    induction l generalizing maps with
    | nil => simp
    | cons e l ih =>
      obtain ⟨hget, hkeys⟩ := ih (groupKey env n maps e)
      refine ⟨fun key => ?_, ?_⟩
      · rw [List.foldl_cons, hget, List.exists_mem_cons_iff, groupKey, Lists.mem_get_foldl,
          or_assoc, eq_comm (a := key)]
      · rw [List.foldl_cons, hkeys, List.exists_mem_cons_iff, groupKey, Lists.mem_keys_foldl,
          or_assoc]
  obtain ⟨hget, hkeys⟩ := hfold keys.zipIdx (∅, ∅)
  refine ⟨fun key => (hget key).trans (or_iff_right ?_), hkeys.trans (or_iff_right ?_)⟩
  · simp [Lists.get]
  · simp

/-- The destinations are those that were looked up, whatever the number of keys. -/
theorem mem_callOptions_dests :
    dest ∈ (callOptions env orders keys request operation opts).dests ↔
      ∃ e ∈ keys.zipIdx, dest ∈ (env.lookupN e.2 e.1 opts.nValue).1 := by
  by_cases hone : keys.length = 1
  · obtain ⟨key, rfl⟩ := List.length_eq_one_iff.1 hone
    rw [callOptions_dests_single]
    simp
  · rw [callOptions_dests_of_ne hone, orders.enumerate.mem_arrange, (groupReplicas_spec ..).2]

/-- The servers that replicate one of the keys. -/
def Surroundings.replicas (env : Surroundings) (keys : List String) (n : ℤ) : List String :=
  (keys.zipIdx.flatMap fun key => (env.lookupN key.2 key.1 n).1).dedup

theorem Surroundings.nodup_replicas (env : Surroundings) (keys : List String) (n : ℤ) :
    (env.replicas keys n).Nodup := List.nodup_dedup _

theorem Surroundings.mem_replicas {n : ℤ} : dest ∈ env.replicas keys n ↔
    ∃ e ∈ keys.zipIdx, dest ∈ (env.lookupN e.2 e.1 n).1 := by
  rw [Surroundings.replicas, List.mem_dedup, List.mem_flatMap]

/-- **The destinations** are the servers that replicate a key, in some order. -/
theorem callOptions_dests_perm (keys : List String)
    (hN : keys.length = 1 → ∀ i key n, (env.lookupN i key n).1.Nodup) (orders : Orders)
    (request : Bytes) (operation : String) (opts : Options) :
    (callOptions env orders keys request operation opts).dests.Perm
      (env.replicas keys opts.nValue) := by
  refine (List.perm_ext_iff_of_nodup (nodup_callOptions_dests hN ..)
    (env.nodup_replicas keys opts.nValue)).2 fun dest => ?_
  rw [mem_callOptions_dests, Surroundings.mem_replicas]

/-- `LookupN` returns the same servers for all keys. -/
def Surroundings.SameReplicas (env : Surroundings) (keys : List String) (n : ℤ) : Prop :=
  ∀ e ∈ keys.zipIdx, ∀ e' ∈ keys.zipIdx, ∀ dest,
    dest ∈ (env.lookupN e.2 e.1 n).1 → dest ∈ (env.lookupN e'.2 e'.1 n).1

/-- With one key it does. -/
theorem Surroundings.sameReplicas_of_length_eq_one (h : keys.length = 1) (env : Surroundings)
    (n : ℤ) : env.SameReplicas keys n := by
  obtain ⟨key, rfl⟩ := List.length_eq_one_iff.1 h
  intro e he e' he' dest hdest
  rw [List.zipIdx_singleton, List.mem_singleton] at he he'
  rwa [he', ← he]

/-- Otherwise some server replicates a key, and not another one. -/
theorem Surroundings.exists_of_not_sameReplicas {n : ℤ} (h : ¬ env.SameReplicas keys n) :
    ∃ dest ∈ env.replicas keys n, ∃ e ∈ keys.zipIdx, dest ∉ (env.lookupN e.2 e.1 n).1 := by
  by_contra hall
  push Not at hall
  exact h fun e he e' he' dest hdest => hall dest (mem_replicas.2 ⟨e, he, hdest⟩) e' he'

/-! ### Who answers -/

/-- The forward to the destination comes to be answered. -/
def CallOptions.Answers (env : Surroundings) (copts : CallOptions)
    (fopts : Option Forward.Options) (dest : String) : Prop :=
  ∃ y b, Answered (env.forward dest) (copts.requestTo env fopts dest) 0 dest y b

/-- **A forward** has a response exactly if it is answered, and it is one for the keys of
the destination. -/
theorem response_of_forward (h : forward env copts fopts dest = .ok f) :
    ((∃ response, f.response = .ok response) ↔ copts.Answers env fopts dest) ∧
      ∀ response, f.response = .ok response → response.keys = copts.keysByDest.get dest := by
  obtain ⟨⟨r, rs⟩, hforward, h⟩ := exists_of_bind_eq_ok h
  obtain ⟨hiff, hlast⟩ := Forward.forwardRequest_spec hforward
  cases r with
  | error err =>
    obtain rfl := Except.ok.inj h
    refine ⟨iff_of_false ?_ ?_, fun response hr => by cases hr⟩
    · rintro ⟨response, hr⟩
      cases hr
    · rintro ⟨y, b, ha⟩
      cases ((hiff y b).2 ha).1
  | ok b =>
    obtain rfl := Except.ok.inj h
    obtain ⟨y, hy⟩ := hlast b rfl
    refine ⟨iff_of_true ⟨_, rfl⟩ ⟨y, b, (hiff y b).1 ⟨rfl, hy⟩⟩, fun response hr => ?_⟩
    obtain rfl := Except.ok.inj hr
    rfl

/-- The response is of a replica of the key, and names the key. -/
def Response.Counts (env : Surroundings) (n : ℤ) (key : String × ℕ) (response : Response) : Bool :=
  response.destination ∈ (env.lookupN key.2 key.1 n).1 && key.1 ∈ response.keys

/-- At least `r` replicas of the key are answered. -/
def CallOptions.Reaches (env : Surroundings) (copts : CallOptions)
    (fopts : Option Forward.Options) (n r : ℤ) (key : String × ℕ) : Prop :=
  ∃ servers : Finset String, r ≤ servers.card ∧
    ∀ dest ∈ servers, dest ∈ (env.lookupN key.2 key.1 n).1 ∧ copts.Answers env fopts dest

section forwards

variable {key : String × ℕ} {response : Response}
  (hall : (forwards.map Except.ok).Perm ((callOptions env orders keys request operation
    opts).dests.map (forward env (callOptions env orders keys request operation opts) fopts)))

include hall

/-- **The responses that count for a key** are those of its replicas that are answered. -/
theorem exists_counts_iff (hkey : key ∈ keys.zipIdx) :
    (∃ f ∈ forwards, ∃ response, f.response = .ok response ∧
        response.Counts env opts.nValue key ∧ response.destination = dest) ↔
      dest ∈ (env.lookupN key.2 key.1 opts.nValue).1 ∧
        (callOptions env orders keys request operation opts).Answers env fopts dest := by
  constructor
  · rintro ⟨f, hf, response, hr, hcounts, rfl⟩
    obtain ⟨dest, -, hforward⟩ := (mem_forwards_iff hall).1 hf
    obtain rfl := destination_of_forward hforward hr
    rw [Response.Counts, Bool.and_eq_true, decide_eq_true_eq] at hcounts
    exact ⟨hcounts.1, (response_of_forward hforward).1.1 ⟨response, hr⟩⟩
  · rintro ⟨hdest, hanswers⟩
    have hmem : dest ∈ (callOptions env orders keys request operation opts).dests :=
      mem_callOptions_dests.2 ⟨key, hkey, hdest⟩
    obtain ⟨f, hf, hforward⟩ := List.mem_map.1 (hall.mem_iff.2 (List.mem_map_of_mem hmem))
    obtain ⟨hiff, hkeys⟩ := response_of_forward hforward.symm
    obtain ⟨response, hr⟩ := hiff.2 hanswers
    have hresponse := destination_of_forward hforward.symm hr
    refine ⟨f, hf, response, hr, ?_, hresponse⟩
    rw [Response.Counts, Bool.and_eq_true, decide_eq_true_eq, decide_eq_true_eq, hresponse,
      hkeys response hr]
    exact ⟨hdest, ((groupReplicas_spec ..).1 _).2 ⟨key, hkey, rfl, hdest⟩⟩

/-- **Where all keys have the same replicas**, all responses count for each of them. -/
theorem counts_of_sameReplicas (hsame : env.SameReplicas keys opts.nValue)
    (hkey : key ∈ keys.zipIdx) (hf : f ∈ forwards) (hr : f.response = .ok response) :
    response.Counts env opts.nValue key = true := by
  obtain ⟨dest, hdest, hforward⟩ := (mem_forwards_iff hall).1 hf
  obtain ⟨e, he, hlookup⟩ := mem_callOptions_dests.1 hdest
  have hanswers := (response_of_forward hforward).1.1 ⟨response, hr⟩
  obtain ⟨f', hf', response', hr', hcounts, hresponse⟩ :=
    (exists_counts_iff hall hkey).2 ⟨hsame e he key hkey dest hlookup, hanswers⟩
  obtain ⟨dest', -, hforward'⟩ := (mem_forwards_iff hall).1 hf'
  obtain rfl := destination_of_forward hforward' hr'
  rw [hresponse] at hforward'
  obtain rfl := Except.ok.inj (hforward.symm.trans hforward')
  rwa [Except.ok.inj (hr.symm.trans hr')]

/-- **With several keys**, as many responses count for a key as replicas of it are
answered. -/
theorem le_countP_iff_reaches (hkeys : keys.length ≠ 1) (hkey : key ∈ keys.zipIdx) (r : ℤ) :
    r ≤ (forwards.filterMap fun f => f.response.toOption).countP
        (Response.Counts env opts.nValue key) ↔
      (callOptions env orders keys request operation opts).Reaches env fopts opts.nValue r key := by
  have hnodup : (((forwards.filterMap fun f => f.response.toOption).filter
      (Response.Counts env opts.nValue key)).map Response.destination).Nodup := by
    refine List.Nodup.sublist (List.filter_sublist.map _) ?_
    rw [List.map_filterMap]
    exact nodup_destinations hall (nodup_callOptions_dests (fun hone => absurd hone hkeys) ..)
  have hmem (dest : String) : dest ∈ ((forwards.filterMap fun f => f.response.toOption).filter
      (Response.Counts env opts.nValue key)).map Response.destination ↔
        dest ∈ (env.lookupN key.2 key.1 opts.nValue).1 ∧
          (callOptions env orders keys request operation opts).Answers env fopts dest := by
    rw [← exists_counts_iff hall hkey, List.mem_map]
    simp only [List.mem_filter, List.mem_filterMap, toOption_eq_some_iff]
    constructor
    · rintro ⟨response, ⟨⟨f, hf, hr⟩, hcounts⟩, hdest⟩
      exact ⟨f, hf, response, hr, hcounts, hdest⟩
    · rintro ⟨f, hf, response, hr, hcounts, hdest⟩
      exact ⟨response, ⟨⟨f, hf, hr⟩, hcounts⟩, hdest⟩
  rw [List.countP_eq_length_filter, ← List.length_map Response.destination,
    ← List.toFinset_card_of_nodup hnodup]
  constructor
  · intro hle
    exact ⟨_, hle, fun dest hdest => (hmem dest).1 (List.mem_toFinset.1 hdest)⟩
  · rintro ⟨servers, hle, hservers⟩
    refine hle.trans (Int.ofNat_le.2 (Finset.card_le_card fun dest hdest => ?_))
    exact List.mem_toFinset.2 ((hmem dest).2 (hservers dest hdest))

end forwards

/-! ### Patterns of failures -/

/-- The servers of `S` answer, and the calls to others time out. -/
def answeredBy (S : Finset String) (dest : String) : Forward.Surroundings where
  call _ _ := if dest ∈ S then .answered [] false else .timedOut
  lookup _ _ _ := .ok dest
  unmarshal _ := .error ""

theorem attempt_answeredBy (S : Finset String) (dest : String) (q : Forward.Request) (retry : ℕ)
    (server : String) : q.attempt (answeredBy S dest) retry server =
      if dest ∈ S then .result [] else .timedOut := by
  rw [Forward.Request.attempt, answeredBy]
  split_ifs
  · simp [Forward.Surroundings.read]
  · rfl

/-- **A forward** to a server of `S` comes to be answered, and no other one does. -/
theorem answers_answeredBy_iff {S : Finset String} :
    copts.Answers { env with forward := answeredBy S } fopts dest ↔ dest ∈ S := by
  by_cases hdest : dest ∈ S
  · refine iff_of_true ⟨dest, [], .answer ?_⟩ hdest
    rw [attempt_answeredBy, if_pos hdest]
  · refine iff_of_false ?_ hdest
    rintro ⟨y, b, hanswered⟩
    refine Forward.not_answered (fun res => ?_) (fun err => ?_) hanswered <;>
      simp [attempt_answeredBy, hdest]

/-- All forwards return. -/
theorem exists_forward_answeredBy (S : Finset String) (env : Surroundings) (copts : CallOptions)
    (fopts : Option Forward.Options) (dest : String) :
    ∃ f, forward { env with forward := answeredBy S } copts fopts dest = .ok f := by
  obtain ⟨calls, events, e, htrace, hreturn⟩ := Forward.forwardRequest_trace (answeredBy S dest)
    copts.request dest env.serviceName copts.operation (copts.keysByDest.get dest) copts.format
    fopts
  have herror (q : Forward.Request) (k : ℕ) (x err : String) :
      q.attempt (answeredBy S dest) k x ≠ .forwardError err := by
    rw [attempt_answeredBy]
    split_ifs <;> simp
  obtain ⟨r, rfl⟩ : ∃ r, e = .ok r := by
    cases htrace with
    | outrun h => exact (herror _ _ _ _ h).elim
    | retry h => exact (herror _ _ _ _ h).elim
    | _ => exact ⟨_, rfl⟩
  obtain ⟨⟨r', rs⟩, hforward, -⟩ := exists_of_map_eq_ok hreturn
  rw [forward, hforward]
  cases r' <;> exact ⟨_, rfl⟩

/-- **Where enough destinations answer**, the request returns without an error. -/
theorem exists_readWrite_answeredBy {S : Finset String} {rw : Operation}
    (hmode : opts.fanoutMode.Known) (hn : opts.rwValue rw ≤ opts.nValue)
    (hS : ∀ dest ∈ S, dest ∈ env.replicas keys opts.nValue) (hcard : opts.rwValue rw ≤ S.card)
    (orders : Orders) (request : Bytes) (operation : String) (fopts : Option Forward.Options) :
    ∃ res, readWrite { env with forward := answeredBy S } orders rw keys request operation fopts
      opts = .ok res ∧ res.err = none := by
  obtain ⟨forwards, hfanout⟩ : ∃ forwards, fanout { env with forward := answeredBy S } orders
      (callOptions { env with forward := answeredBy S } orders keys request operation opts) fopts
        opts = .ok forwards :=
    (exists_fanout_iff hmode).2 fun dest _ => exists_forward_answeredBy S env _ fopts dest
  have hall := fanout_spec hmode hfanout
  have hdests (dest : String) (hdest : dest ∈ S) : dest ∈
      (callOptions { env with forward := answeredBy S } orders keys request operation
        opts).dests :=
    mem_callOptions_dests.2 (Surroundings.mem_replicas.1 (hS dest hdest))
  generalize hcopts : callOptions { env with forward := answeredBy S } orders keys request
    operation opts = copts at hfanout hall hdests
  -- each server of `S` is a destination, and its forward has a response
  have hresponses : S.card ≤ (forwards.filterMap fun f => f.response.toOption).length := by
    rw [← List.length_map Response.destination]
    refine (Finset.card_le_card fun dest hdest => ?_).trans (List.toFinset_card_le _)
    obtain ⟨f, hforward⟩ := exists_forward_answeredBy S env copts fopts dest
    obtain ⟨response, hr⟩ := (response_of_forward hforward).1.2 (answers_answeredBy_iff.2 hdest)
    rw [List.mem_toFinset, ← destination_of_forward hforward hr]
    refine List.mem_map_of_mem (List.mem_filterMap.2 ⟨f, ?_, toOption_eq_some_iff.2 hr⟩)
    exact (mem_forwards_iff hall).2 ⟨dest, hdests dest hdest, hforward⟩
  have hlength : S.card ≤ copts.dests.length :=
    (Finset.card_le_card fun dest hdest => List.mem_toFinset.2 (hdests dest hdest)).trans
      (List.toFinset_card_le _)
  refine ⟨concluded (opts.rwValue rw) forwards, ?_, ?_⟩
  · rw [readWrite_of_le rw hn (by rw [hcopts]; omega), hcopts, hfanout]
    rfl
  · exact if_neg (not_lt.2 (by omega))

/-- **Where two keys have different replicas**, one of them may be left without its quorum: as
many servers answer as are asked for, and one of these is no replica of the key. -/
theorem exists_key_without_quorum {rw : Operation} (hpos : 0 < opts.rwValue rw)
    (hn : opts.rwValue rw ≤ opts.nValue) (hmode : opts.fanoutMode.Known)
    (hlength : opts.rwValue rw ≤ (env.replicas keys opts.nValue).length)
    (hdiff : ¬ env.SameReplicas keys opts.nValue) (orders : Orders) (request : Bytes)
    (operation : String) (fopts : Option Forward.Options) :
    ∃ answers res, readWrite { env with forward := answers } orders rw keys request operation fopts
        opts = .ok res ∧ res.err = none ∧ ∃ key ∈ keys.zipIdx,
          res.responses.countP (Response.Counts env opts.nValue key) < opts.rwValue rw := by
  obtain ⟨dest, hdest, key, hkey, hnotMem⟩ := Surroundings.exists_of_not_sameReplicas hdiff
  have hkeys : keys.length ≠ 1 := fun hone =>
    hdiff (Surroundings.sameReplicas_of_length_eq_one hone env _)
  obtain ⟨S, hmem, hS, hcard⟩ := Finset.exists_subsuperset_card_eq (s := {dest})
    (t := (env.replicas keys opts.nValue).toFinset) (n := (opts.rwValue rw).toNat)
    (by simpa using hdest) (by rw [Finset.card_singleton]; omega)
    (by rw [List.toFinset_card_of_nodup (env.nodup_replicas ..)]; omega)
  rw [Finset.singleton_subset_iff] at hmem
  obtain ⟨res, hrun, herr⟩ := exists_readWrite_answeredBy hmode hn
    (fun server hserver => List.mem_toFinset.1 (hS hserver)) (by omega) orders request operation
    fopts
  obtain ⟨hfanout, hresponses, -⟩ := exists_of_readWrite hrun herr
  refine ⟨answeredBy S, res, hrun, herr, key, hkey, lt_of_not_ge fun hcount => ?_⟩
  rw [hresponses] at hcount
  obtain ⟨servers, hle, hservers⟩ :=
    (le_countP_iff_reaches (fanout_spec hmode hfanout) hkeys hkey _).1 hcount
  have hsub : servers ⊆ S.erase dest := by
    intro server hserver
    obtain ⟨hreplica, hanswers⟩ := hservers server hserver
    refine Finset.mem_erase.2 ⟨?_, answers_answeredBy_iff.1 hanswers⟩
    rintro rfl
    exact hnotMem hreplica
  have hless := Finset.card_le_card hsub
  rw [Finset.card_erase_of_mem hmem] at hless
  omega

/-- **Where all keys have the same replicas**, each of them has its quorum. -/
theorem le_countP_of_sameReplicas {rw : Operation} {res : Result} {key : String × ℕ}
    (hrun : readWrite env orders rw keys request operation fopts opts = .ok res)
    (herr : res.err = none) (hmode : opts.fanoutMode.Known)
    (hsame : env.SameReplicas keys opts.nValue) (hkey : key ∈ keys.zipIdx) :
    opts.rwValue rw ≤ res.responses.countP (Response.Counts env opts.nValue key) := by
  obtain ⟨hfanout, hresponses, hlen⟩ := exists_of_readWrite hrun herr
  rw [List.countP_eq_length.2]
  · exact hlen
  · intro response hresponse
    rw [hresponses] at hresponse
    obtain ⟨f, hf, hr⟩ := List.mem_filterMap.1 hresponse
    exact counts_of_sameReplicas (fanout_spec hmode hfanout) hsame hkey hf
      (toOption_eq_some_iff.1 hr)

/-- A request in a mode that is not known has no responses, and succeeds only if it asks for
none. -/
theorem known_of_readWrite {rw : Operation} {res : Result} (hpos : 0 < opts.rwValue rw)
    (hrun : readWrite env orders rw keys request operation fopts opts = .ok res)
    (herr : res.err = none) : opts.fanoutMode.Known := by
  obtain ⟨hfanout, hresponses, hlen⟩ := exists_of_readWrite hrun herr
  intro m hm
  rw [fanout, hm] at hfanout
  rw [hresponses, ← Except.ok.inj hfanout] at hlen
  exact absurd hlen (not_le.2 hpos)

/-- **The quorum of each key.**  For given keys, `LookupN` results and values, and whatever the
destinations answer: if `readWrite` returns without an error, each key has enough responses
from its own replicas.  This is so exactly where no response is asked for, where `readWrite`
never gets that far, or where all keys have the same replicas, as a single key has. -/
theorem key_quorum_iff (env : Surroundings) (orders : Orders) (rw : Operation)
    (keys : List String) (request : Bytes) (operation : String) (fopts : Option Forward.Options)
    (opts : Options) :
    (∀ (answers : String → Forward.Surroundings) (res : Result),
        readWrite { env with forward := answers } orders rw keys request operation fopts opts =
          .ok res → res.err = none → ∀ key ∈ keys.zipIdx,
            opts.rwValue rw ≤ res.responses.countP (Response.Counts env opts.nValue key)) ↔
      opts.rwValue rw ≤ 0 ∨ opts.nValue < opts.rwValue rw ∨ ¬ opts.fanoutMode.Known ∨
        (env.replicas keys opts.nValue).length < opts.rwValue rw ∨
        env.SameReplicas keys opts.nValue := by
  constructor
  · intro h
    by_contra hnot
    simp only [not_or, not_le, not_lt, not_not] at hnot
    obtain ⟨hpos, hn, hmode, hlength, hdiff⟩ := hnot
    obtain ⟨answers, res, hrun, herr, key, hkey, hless⟩ := exists_key_without_quorum hpos hn hmode
      hlength hdiff orders request operation fopts
    exact absurd (h answers res hrun herr key hkey) (not_le.2 hless)
  · intro hcond answers res hrun herr key hkey
    by_cases hpos : opts.rwValue rw ≤ 0
    · exact hpos.trans (Int.natCast_nonneg _)
    obtain ⟨hn, hdests⟩ := le_of_readWrite hrun herr
    have hmode := known_of_readWrite (not_le.1 hpos) hrun herr
    have hsame : env.SameReplicas keys opts.nValue := by
      by_contra hdiff
      have hkeys : keys.length ≠ 1 := fun hone =>
        hdiff (Surroundings.sameReplicas_of_length_eq_one hone env _)
      rw [(callOptions_dests_perm _ (fun hone => absurd hone hkeys) ..).length_eq] at hdests
      rcases hcond with hzero | hlt | hunknown | hlt | hsame
      · exact hpos hzero
      · exact absurd hn (not_le.2 hlt)
      · exact hunknown hmode
      · exact absurd hdests (not_le.2 hlt)
      · exact hdiff hsame
    have hcount := le_countP_of_sameReplicas hrun herr hmode hsame hkey
    exact hcount

/-- Key `k` is held by `a` and `b`, key `l` by `c` and `d`; the calls to `c` and `d`
fail if they are `down`. -/
def twoKeys (down : Bool) : Surroundings where
  lookupN _ key _ := (if key = "k" then ["a", "b"] else ["c", "d"], none)
  forward dest :=
    { call := fun _ _ =>
        if (dest = "c" || dest = "d") && down then .failed "refused" else .answered [1] false
      lookup := fun _ _ _ => .ok dest
      unmarshal := fun _ => .error "" }
  serviceName := "service"

/-- Nobody of the replicas of `l` has answered, and the request returns no error. -/
theorem key_without_quorum : ∃ res,
    readWrite (twoKeys true) ⟨.asIs, .asIs, .inOrder⟩ .write ["k", "l"] [0] "op" none
        ⟨2, 1, 2, .parallel⟩ = .ok res ∧ res.err = none ∧
      res.responses.countP (Response.Counts (twoKeys true) 2 ("k", 0)) = 2 ∧
      res.responses.countP (Response.Counts (twoKeys true) 2 ("l", 1)) = 0 := by
  obtain ⟨res, hrun, hres⟩ := exists_of_map_eq_ok
    (F := fun res : Result => (res.err,
      res.responses.countP (Response.Counts (twoKeys true) 2 ("k", 0)),
      res.responses.countP (Response.Counts (twoKeys true) 2 ("l", 1))))
    (b := (none, 2, 0))
    (x := readWrite (twoKeys true) ⟨.asIs, .asIs, .inOrder⟩ .write ["k", "l"] [0] "op" none
      ⟨2, 1, 2, .parallel⟩) (by decide +kernel)
  exact ⟨res, hrun, by simpa only [Prod.mk.injEq] using hres⟩

end Replica
end Ringpop
