/-
# The preference list

The replicator takes what `LookupN` returns for a preference list: `SerialSequential` goes
through it from its first server on, which is to be the owner of the key.  The walk around
the ring meets the servers in that order.  But `lookupNNoLock` gathers them in a map and
lists its keys, in any order, and another one at the next call.  `preference_list_iff` says
that the order is kept exactly where there is none: where one server is asked for, or the
points of the ring are those of one server (and `int` has 64 bits, or all points are below
`2^31`).
-/

import Ringpop.Hashring.Lookup
import Ringpop.Replica.FanoutModes

namespace Ringpop
namespace Replica

open CellStore Clockwise Runs Reorder
open Forward (Bytes)
open Hashring

/-- The servers are a preference list for the key: `LookupN` returns them in their order each
time, first the one that `Lookup` returns, and `SerialSequential` goes through them. -/
structure IsPreferenceList (r : HashRing) (key : String) (n : ℤ) (preference : List String) :
    Prop where
  list : ∀ o, r.lookupN o key n = .ok preference
  first : ∀ o o' l, r.lookupN o key n = .ok l → r.lookup o' key = .ok (answer l.head?)
  again : ∀ o o', r.lookupN o key n = r.lookupN o' key n
  serial : ∀ (o : MapOrder) (env : Surroundings) (orders : Orders) (rw : Operation)
    (request : Bytes) (operation : String) (fopts : Option Forward.Options) (opts : Options)
    (res : Result), r.lookupN o key n = .ok (env.lookupN 0 key n).1 → opts.nValue = n →
      opts.fanoutMode = .serialSequential → opts.rwValue rw ≤ n →
      opts.rwValue rw ≤ (env.lookupN 0 key n).1.length →
      readWrite env orders rw [key] request operation fopts opts = .ok res →
      res.forwards.map (fun f => f.contact.1) = preference.map some

/-! ### The order of the forwards -/

/-- **`SerialSequential`** contacts the destinations in their order. -/
theorem contacts_of_serial {env : Surroundings} {orders : Orders} {copts : CallOptions}
    {fopts : Option Forward.Options} {opts : Options} {forwards : List Forwarded}
    (hmode : opts.fanoutMode = .serialSequential)
    (h : fanout env orders copts fopts opts = .ok forwards) :
    forwards.map Forwarded.contact =
      copts.dests.map fun dest => (some dest, copts.keysByDest.get dest) := by
  rw [fanout, hmode] at h
  dsimp only at h
  rw [serial, hmode, if_neg (by decide)] at h
  have hmap := congrArg (List.map fun r => r.toOption.map Forwarded.contact)
    (map_eq_of_mapM_eq_ok h)
  rw [List.map_map, List.map_map] at hmap
  refine List.map_injective_iff.2 (Option.some_injective _) ?_
  rw [List.map_map, List.map_map]
  exact hmap.symm.trans (map_contact_of_forward (exists_mapM_eq_ok_iff.1 ⟨forwards, h⟩))

/-- With one key these are what `LookupN` returns for it. -/
theorem contacts_of_single {env : Surroundings} {orders : Orders} {rw : Operation} {key : String}
    {request : Bytes} {operation : String} {fopts : Option Forward.Options} {opts : Options}
    {res : Result} (hmode : opts.fanoutMode = .serialSequential)
    (hn : opts.rwValue rw ≤ opts.nValue)
    (hlength : opts.rwValue rw ≤ (env.lookupN 0 key opts.nValue).1.length)
    (hrun : readWrite env orders rw [key] request operation fopts opts = .ok res) :
    res.forwards.map (fun f => f.contact.1) = (env.lookupN 0 key opts.nValue).1.map some := by
  rw [← callOptions_dests_single env orders key request operation opts] at hlength ⊢
  rw [readWrite_of_le rw hn hlength] at hrun
  obtain ⟨forwards, hfanout, rfl⟩ := exists_of_map_eq_ok hrun
  have hcontacts := congrArg (List.map Prod.fst) (contacts_of_serial hmode hfanout)
  rw [List.map_map, List.map_map] at hcontacts
  exact hcontacts

/-! ### Orders of a map -/

/-- A list of at most one server is the only list of its servers. -/
theorem keys_toFinset_of_length_le {l : List String} (hl : l.Nodup) (hlength : l.length ≤ 1)
    (o : MapOrder) : o.keys l.toFinset = l := by
  have hperm : (o.keys l.toFinset).Perm l :=
    (List.perm_ext_iff_of_nodup (o.nodup _) hl).2 fun s => by
      rw [o.mem_keys, List.mem_toFinset]
  rcases l with _ | ⟨s, _ | ⟨t, l⟩⟩
  · exact hperm.eq_nil
  · exact hperm.eq_singleton
  · rw [List.length_cons, List.length_cons] at hlength
    omega

/-- **All orders of a map agree** only if it has at most one key. -/
theorem length_le_one_of_keys_eq {l : List String} (hl : l.Nodup)
    (h : ∀ o o' : MapOrder, o.keys l.toFinset = o'.keys l.toFinset) : l.length ≤ 1 := by
  have hreverse := MapOrder.keys_startingWith (List.nodup_reverse.2 hl)
  rw [List.toFinset_reverse] at hreverse
  refine length_le_one_of_eq_reverse hl ?_
  rw [← hreverse, ← h (.startingWith l), MapOrder.keys_startingWith hl]

/-! ### What `LookupN` returns for a preference list -/

/-- **The walk around the ring** is a preference list exactly if it meets one server at most. -/
theorem isPreferenceList_iff {pf : Platform} {hashfunc : String → ℤ} {R : ℤ} {U : Set String}
    {r : HashRing} {A : Ownership} {L : List (ℤ × String)} (h : Owns pf hashfunc R U r A)
    (hL : Clockwise.Lists A.owner L) (key : String) {n : ℤ} (hn : 1 ≤ n)
    (hcount : n < A.servers.card) :
    IsPreferenceList r key n (firstDistinct n.toNat (clockwise L (hashfunc key))) ↔
      (firstDistinct n.toNat (clockwise L (hashfunc key))).length ≤ 1 := by
  have hnodup := nodup_firstDistinct n.toNat (clockwise L (hashfunc key))
  have hcall (o : MapOrder) : r.lookupN o key n =
      .ok (o.keys (firstDistinct n.toNat (clockwise L (hashfunc key))).toFinset) := by
    rw [h.lookupN_eq hL, Ownership.firstN, if_pos hcount]
  constructor
  · intro hlist
    refine length_le_one_of_keys_eq hnodup fun o o' => ?_
    exact Except.ok.inj ((hcall o).symm.trans ((hlist.again o o').trans (hcall o')))
  · intro hlength
    have hlist (o : MapOrder) : r.lookupN o key n =
        .ok (firstDistinct n.toNat (clockwise L (hashfunc key))) := by
      rw [hcall, keys_toFinset_of_length_le hnodup hlength]
    refine ⟨hlist, fun o o' l hl => ?_, fun o o' => (hlist o).trans (hlist o').symm, ?_⟩
    · obtain rfl := Except.ok.inj ((hlist o).symm.trans hl)
      rw [h.lookup hL, Ownership.first, if_pos (by omega), head?_firstDistinct (by omega)]
    · intro o env orders rw request operation fopts opts res hlookup hnValue hmode hrw hlen hrun
      subst hnValue
      rw [contacts_of_single hmode hrw hlen hrun, Except.ok.inj (hlookup.symm.trans (hlist o))]

/-- **`LookupN` gives a preference list**, on every ring that a sequence of calls can build,
where `int` has 64 bits or the points of the servers that are added are below `2^31`, and with
fewer servers asked for than there are, exactly where one server is asked for or at most one
server has points on the ring. -/
theorem preference_list_iff (W : IntWidth) (fp hash : String → UInt32) (R : ℤ)
    (calls : List (MapOrder × RingOp)) (hfit : PointsFit W hash R (RingOp.addedBy calls)) :
    ∃ (r : HashRing) (T : Tree),
      RingOp.run ⟨W.bits, fp⟩ (.new W.bits hash R) calls = .ok r ∧
      Represents W.bits r.tree T ∧ ∀ key n, 1 ≤ n → n < r.serverCount →
        (IsPreferenceList r key n
            (firstDistinct n.toNat (clockwise T.bindings (r.hashfunc key))) ↔
          n = 1 ∨ (T.bindings.map Prod.snd).toFinset.card ≤ 1) := by
  obtain ⟨r, A, -, hrun, h, hA, -⟩ := exists_owns fp hfit calls subset_rfl
  obtain ⟨T, hT, hm⟩ := h.tree
  have hL : Clockwise.Lists A.owner T.bindings := ⟨hT.ordered, hm⟩
  refine ⟨r, T, hrun, hT, fun key n hn hcount => ?_⟩
  rw [HashRing.serverCount, h.servers] at hcount
  have howners : (clockwise T.bindings (r.hashfunc key)).toFinset =
      (T.bindings.map Prod.snd).toFinset := by
    ext s
    simp [mem_clockwise]
  have hlength := card_firstDistinct n.toNat (clockwise T.bindings (r.hashfunc key))
  rw [List.toFinset_card_of_nodup (nodup_firstDistinct ..), howners] at hlength
  rw [h.hashfunc_eq] at hlength ⊢
  rw [isPreferenceList_iff h hL key hn hcount, hlength]
  omega

/-- The points of the servers `a`, `b` and `c`, each with one; keys are before them. -/
def threePoints (s : String) : UInt32 :=
  if s = "a0" then 1 else if s = "b0" then 2 else if s = "c0" then 3 else 0

/-- One of three servers is asked for. -/
theorem preference_list_iff_one :
    ∃ r : HashRing, RingOp.run (.bits64 fun _ => 0) (.new 64 threePoints 1)
        [(.sorted, .addRemoveServers ["a", "b", "c"] [])] = .ok r ∧
      r.serverCount = 3 ∧ ∃ preference, IsPreferenceList r "k" 1 preference := by
  obtain ⟨r, hrun, hcount⟩ := exists_of_map_eq_ok (F := HashRing.serverCount) (b := 3)
    (x := RingOp.run (.bits64 fun _ => 0) (.new 64 threePoints 1)
      [(.sorted, .addRemoveServers ["a", "b", "c"] [])]) (by decide +kernel)
  obtain ⟨r₀, T, hrun₀, -, hall⟩ := preference_list_iff .bits64 (fun _ => 0) threePoints 1
    [(.sorted, .addRemoveServers ["a", "b", "c"] [])] (.inl rfl)
  obtain rfl : r₀ = r := Except.ok.inj (hrun₀.symm.trans hrun)
  exact ⟨r₀, hrun, hcount, _, (hall "k" 1 le_rfl (by rw [hcount]; decide)).2 (.inl rfl)⟩

/-- Everybody answers, and `LookupN` has returned the owner of the key last. -/
def ownerLast : Surroundings where
  lookupN _ _ _ := (["b", "a"], none)
  forward dest :=
    { call := fun _ _ => .answered [1] false
      lookup := fun _ _ _ => .ok dest
      unmarshal := fun _ => .error "" }
  serviceName := "service"

/-- **The owner comes last**: the key belongs to `a`, `LookupN` returns `a` and `b` in the one
order or the other, and `SerialSequential` goes to `b` first. -/
theorem preference_list_of_any_order :
    ∃ r : HashRing, RingOp.run (.bits64 fun _ => 0) (.new 64 threePoints 1)
        [(.sorted, .addRemoveServers ["a", "b", "c"] [])] = .ok r ∧ r.serverCount = 3 ∧
      r.lookup .sorted "k" = .ok ("a", true) ∧
      r.lookupN (.startingWith ["a", "b"]) "k" 2 = .ok ["a", "b"] ∧
      r.lookupN (.startingWith ["b", "a"]) "k" 2 = .ok (ownerLast.lookupN 0 "k" 2).1 ∧
      (∀ preference, ¬ IsPreferenceList r "k" 2 preference) ∧
      ∃ res, readWrite ownerLast ⟨.asIs, .asIs, .inOrder⟩ .read ["k"] [0] "op" none
          ⟨2, 1, 1, .serialSequential⟩ = .ok res ∧
        res.forwards.map (fun f => f.contact.1) = [some "b", some "a"] := by
  have heval : (do
      let r ← RingOp.run (.bits64 fun _ => 0) (.new 64 threePoints 1)
        [(.sorted, .addRemoveServers ["a", "b", "c"] [])]
      return decide (r.serverCount = 3 ∧ r.lookup .sorted "k" = Except.ok ("a", true) ∧
        r.lookupN (.startingWith ["a", "b"]) "k" 2 = Except.ok ["a", "b"] ∧
        r.lookupN (.startingWith ["b", "a"]) "k" 2 = Except.ok ["b", "a"])) = .ok true := by
    decide +kernel
  obtain ⟨r, hrun, heval⟩ := exists_of_bind_eq_ok heval
  obtain ⟨hcount, hlookup, hlist, hlist'⟩ := of_decide_eq_true (Except.ok.inj heval)
  obtain ⟨res, hres, hcontacts⟩ := exists_of_map_eq_ok
    (F := fun res : Result => res.forwards.map fun f => f.contact.1) (b := [some "b", some "a"])
    (x := readWrite ownerLast ⟨.asIs, .asIs, .inOrder⟩ .read ["k"] [0] "op" none
      ⟨2, 1, 1, .serialSequential⟩) (by decide +kernel)
  refine ⟨r, hrun, hcount, hlookup, hlist, hlist', fun preference hpreference => ?_, res, hres,
    hcontacts⟩
  have hsame := hlist.symm.trans ((hpreference.again _ _).trans hlist')
  exact absurd (Except.ok.inj hsame) (by decide)

end Replica
end Ringpop
