/-
# Lookups answer from the servers of the ring

`LookupN` walks the ring clockwise from the hash of the key and keeps the first
`n` different owners, unless it is asked for as many servers as there are: then it
returns them all without a look at the tree.  Both answers are made of servers of
the ring, because every point is owned by one of them.  That is an invariant of
every sequence of calls (`Ownership.Owned.run`): a server takes only its own
points, and takes them all out when it goes.

With an `int` of 32 bits and points that are negative it is not: the tree loses points,
and a server may go and leave one behind (`lookup_returns_removed_server`).
-/

import Ringpop.Hashring.Ownership

namespace Ringpop
namespace Hashring

open CellStore Clockwise

/-! ### The owners are servers of the ring -/

namespace Ownership

/-- Every owned point is a point of its owner, which is a server of the ring. -/
def Owned (points : String → List ℤ) (A : Ownership) : Prop :=
  ∀ p s, A.owner p = some s → s ∈ A.servers ∧ p ∈ points s

variable {points : String → List ℤ} {A : Ownership}

theorem owned_empty : Owned points empty := by
  intro p s h
  cases h

theorem Owned.add (h : Owned points A) (s : String) : Owned points (A.add points s) := by
  by_cases hs : s ∈ A.servers
  · rwa [add_of_mem hs]
  · rw [add_of_notMem hs]
    intro p t hp
    simp only [] at hp
    split_ifs at hp with hps
    · rcases Option.or_eq_some_iff.1 hp with hp | ⟨-, hst⟩
      · exact ⟨Finset.mem_insert_of_mem (h p t hp).1, (h p t hp).2⟩
      · obtain rfl := Option.some.inj hst
        exact ⟨Finset.mem_insert_self .., hps⟩
    · exact ⟨Finset.mem_insert_of_mem (h p t hp).1, (h p t hp).2⟩

theorem Owned.remove (h : Owned points A) (s : String) : Owned points (A.remove points s) := by
  by_cases hs : s ∈ A.servers
  · rw [remove_of_mem hs]
    intro p t hp
    simp only [] at hp
    split_ifs at hp with hps
    obtain ⟨ht, hpt⟩ := h p t hp
    refine ⟨Finset.mem_erase.2 ⟨?_, ht⟩, hpt⟩
    rintro rfl
    exact hps hpt
  · rwa [remove_of_notMem hs]

/-- **One call** keeps every point with a server of the ring. -/
theorem Owned.apply (h : Owned points A) (op : RingOp) : Owned points (op.apply points A) :=
  op.apply_induction (fun _ s _ hB => hB.add s) (fun _ s hB => hB.remove s) h

/-- **Every sequence of calls** does. -/
theorem Owned.run (h : Owned points A) (ops : List RingOp) :
    Owned points (ops.foldl (RingOp.apply points) A) :=
  List.foldlRecOn ops _ (motive := Owned points) h fun _ hA op _ => hA.apply op

/-- The servers that `LookupN` is to return for a hash `h`: the first `n`
different owners clockwise, or all servers. -/
def firstN (A : Ownership) (L : List (ℤ × String)) (h n : ℤ) : Finset String :=
  if n < A.servers.card then (firstDistinct n.toNat (clockwise L h)).toFinset else A.servers

/-- An owner met on a walk is a server of the ring. -/
theorem Owned.mem_of_clockwise {L : List (ℤ × String)} {h : ℤ} {s : String} (hA : Owned points A)
    (hL : Lists A.owner L) (hs : s ∈ clockwise L h) : s ∈ A.servers := by
  obtain ⟨p, hp⟩ := mem_clockwise.1 hs
  exact (hA p s ((hL.2 p s).1 hp)).1

theorem Owned.firstN_subset {L : List (ℤ × String)} (hA : Owned points A) (hL : Lists A.owner L)
    (h n : ℤ) : A.firstN L h n ⊆ A.servers := by
  rw [firstN]
  split_ifs
  · exact fun s hs => hA.mem_of_clockwise hL (mem_of_mem_firstDistinct (List.mem_toFinset.1 hs))
  · exact subset_rfl

/-- **More servers for a larger `n`**, from the walk or from the whole set. -/
theorem Owned.firstN_mono {L : List (ℤ × String)} (hA : Owned points A) (hL : Lists A.owner L)
    (h : ℤ) {m n : ℤ} (hmn : m ≤ n) : A.firstN L h m ⊆ A.firstN L h n := by
  by_cases hn : n < A.servers.card
  · rw [firstN, firstN, if_pos hn, if_pos (by omega)]
    intro s hs
    rw [List.mem_toFinset] at hs ⊢
    exact firstDistinct_subset (Int.toNat_le_toNat hmn) _ hs
  · have hall : A.firstN L h n = A.servers := by rw [firstN, if_neg hn]
    rw [hall]
    exact hA.firstN_subset hL h m

/-- The server that `Lookup` is to return for a hash `h`, if any: the first one
clockwise, or the only one. -/
noncomputable def first (A : Ownership) (L : List (ℤ × String)) (h : ℤ) : Option String :=
  if 1 < A.servers.card then (clockwise L h).head? else A.servers.toList.head?

/-- With one server at most, it is the first. -/
theorem first_of_card_le {L : List (ℤ × String)} {h : ℤ} (hA : A.servers.card ≤ 1) (s : String) :
    A.first L h = some s ↔ s ∈ A.servers := by
  rw [first, if_neg (by omega)]
  constructor
  · intro hs
    exact Finset.mem_toList.1 (List.mem_of_mem_head? hs)
  · intro hs
    have hone : A.servers = {s} :=
      Finset.eq_singleton_iff_unique_mem.2 ⟨hs, fun t ht => Finset.card_le_one.1 hA t ht s hs⟩
    simp [hone]

end Ownership

/-! ### What `LookupN` and `Lookup` return -/

section lookup

variable {pf : Platform} {hashfunc : String → ℤ} {R : ℤ} {U : Set String} {r : HashRing}
  {A : Ownership} {L : List (ℤ × String)}

/-- From `0` every point is above. -/
theorem above_zero {w : ℕ} (h : ∀ b ∈ L, Fits w b.1) : above L 0 = L.map Prod.snd := by
  rw [above, List.filter_eq_self.2 fun b hb => by simpa using (h b hb).1]

/-- **The two scans of `lookupNNoLock` are one walk** around the ring. -/
theorem collect_twice {w : ℕ} (hL : L.Pairwise fun p q => p.1 < q.1) (h : ∀ b ∈ L, Fits w b.1)
    (n hash : ℤ) : collect n (above L 0) (collect n (above L hash) ∅) =
      (firstDistinct n.toNat (clockwise L hash)).toFinset := by
  have hall : L.map Prod.snd = (L.filter (·.1 < hash)).map Prod.snd ++ above L hash := by
    rw [above, ← List.map_append, filter_lt_append_filter_le hL]
  rw [← collect_append, collect_empty, above_zero h, hall, firstDistinct_wrap, above,
    ← List.map_append, ← walk, ← clockwise]

/-- **`LookupN`** returns the first `n` different owners clockwise, or all servers, in the
order of a map. -/
theorem Owns.lookupN_eq (h : Owns pf hashfunc R U r A) (hL : Lists A.owner L) (o : MapOrder)
    (key : String) (n : ℤ) :
    r.lookupN o key n = .ok (o.keys (A.firstN L (hashfunc key) n)) := by
  obtain ⟨L', hL', hfits, hcall⟩ := h.tree.lookupNUniqueAt
  obtain rfl := hL.unique hL'
  rw [HashRing.lookupN, h.servers, h.hashfunc_eq, Ownership.firstN]
  by_cases hn : (A.servers.card : ℤ) ≤ n
  · rw [if_pos hn, if_neg (not_lt.2 hn), HashRing.copyServersNoLock, h.servers]
    rfl
  · rw [if_neg hn, if_pos (not_le.1 hn), ← collect_twice hL.1 hfits]
    simp only [hcall, Bind.bind, Except.bind]
    split_ifs with hcard
    · rfl
    · rw [collect_of_le (not_lt.1 hcard)]
      rfl

/-- They are different servers. -/
theorem Owns.lookupN (h : Owns pf hashfunc R U r A) (hL : Lists A.owner L) (o : MapOrder)
    (key : String) (n : ℤ) : ∃ l, r.lookupN o key n = .ok l ∧ l.Nodup ∧
      l.toFinset = A.firstN L (hashfunc key) n :=
  ⟨_, h.lookupN_eq hL o key n, o.nodup _, o.toFinset_keys _⟩

/-- A list whose elements are those of an option starts with it. -/
theorem head?_eq_of_mem_iff {l : List String} {x : Option String} (h : ∀ s, s ∈ l ↔ x = some s) :
    l.head? = x := by
  cases l with
  | nil =>
    cases x with
    | none => rfl
    | some s => exact absurd ((h s).2 rfl) List.not_mem_nil
  | cons s l => exact ((h s).1 (.head _)).symm

/-- **`Lookup`**: the first owner clockwise, or the only server. -/
theorem Owns.lookup (h : Owns pf hashfunc R U r A) (hL : Lists A.owner L) (o : MapOrder)
    (key : String) : r.lookup o key = .ok (answer (A.first L (hashfunc key))) := by
  obtain ⟨l, hcall, -, hmem⟩ := h.lookupN hL o key 1
  have hhead : l.head? = A.first L (hashfunc key) := by
    refine head?_eq_of_mem_iff fun s => ?_
    rw [← List.mem_toFinset, hmem, Ownership.firstN]
    by_cases hcard : 1 < A.servers.card
    · rw [if_pos (by omega), Ownership.first, if_pos hcard, Int.toNat_one, firstDistinct_one,
        List.mem_toFinset, Option.mem_toList]
    · rw [if_neg (by omega), Ownership.first_of_card_le (by omega)]
  rw [HashRing.lookup, hcall]
  exact congrArg (fun x => Except.ok (answer x)) hhead

/-- A server that `Lookup` is to return is a server of the ring. -/
theorem Ownership.Owned.mem_of_first {points : String → List ℤ} (hA : A.Owned points)
    (hL : Lists A.owner L) {h : ℤ} {s : String} (hs : A.first L h = some s) : s ∈ A.servers := by
  by_cases hcard : 1 < A.servers.card
  · rw [Ownership.first, if_pos hcard] at hs
    exact hA.mem_of_clockwise hL (List.mem_of_mem_head? hs)
  · exact (Ownership.first_of_card_le (by omega) s).1 hs

/-- **Every ring that calls can build** over servers whose points fit, with its ownership. -/
theorem exists_owns {W : IntWidth} {hash : String → UInt32} {U : Finset String}
    (fp : String → UInt32) (hfit : PointsFit W hash R U) (calls : List (MapOrder × RingOp))
    (hcalls : RingOp.addedBy calls ⊆ U) :
    ∃ r A L, RingOp.run ⟨W.bits, fp⟩ (.new W.bits hash R) calls = .ok r ∧
      Owns ⟨W.bits, fp⟩ (fun s => intOfUInt32 W.bits (hash s)) R U r A ∧
      A.Owned (ringPoints (fun s => intOfUInt32 W.bits (hash s)) R) ∧ Lists A.owner L := by
  obtain ⟨r, hrun, h⟩ := (owns_new fp hfit).run calls hcalls
  obtain ⟨L, hL, -, -⟩ := h.tree.lookupNUniqueAt
  exact ⟨r, _, L, hrun, h, Ownership.owned_empty.run _, hL⟩

end lookup

/-- **No request is routed to a removed server.**  On every ring that a sequence
of calls can build, where `int` has 64 bits or the points of the servers that are added
are below `2^31`, every point of the tree is owned by a server of the ring, and
`LookupN` and `Lookup` return servers of the ring. -/
theorem lookups_return_servers (W : IntWidth) (fp hash : String → UInt32) (R : ℤ)
    (calls : List (MapOrder × RingOp)) (hfit : PointsFit W hash R (RingOp.addedBy calls)) :
    ∃ (r : HashRing) (T : Tree),
      RingOp.run ⟨W.bits, fp⟩ (.new W.bits hash R) calls = .ok r ∧
      Represents W.bits r.tree T ∧ (∀ b ∈ T.bindings, b.2 ∈ r.serverSet) ∧
      ∀ (o : MapOrder) (key : String),
        (∀ n, ∃ l, r.lookupN o key n = .ok l ∧ ∀ s ∈ l, s ∈ r.serverSet) ∧
        ∃ res, r.lookup o key = .ok res ∧ (res.2 = true → res.1 ∈ r.serverSet) := by
  obtain ⟨r, A, L, hrun, h, hA, hL⟩ := exists_owns fp hfit calls subset_rfl
  obtain ⟨T, hT, hm⟩ := h.tree
  refine ⟨r, T, hrun, hT, fun b hb => ?_, fun o key => ⟨fun n => ?_, ?_⟩⟩
  · rw [h.servers]
    exact (hA b.1 b.2 ((hm b.1 b.2).1 hb)).1
  · obtain ⟨l, hcall, -, hmem⟩ := h.lookupN hL o key n
    refine ⟨l, hcall, fun s hs => ?_⟩
    rw [h.servers]
    exact hA.firstN_subset hL _ n (hmem ▸ List.mem_toFinset.2 hs)
  · refine ⟨_, h.lookup hL o key, fun hfound => ?_⟩
    rw [h.servers]
    cases hfirst : A.first L (intOfUInt32 W.bits (hash key)) with
    | none => simp [hfirst, answer] at hfound
    | some s => exact hA.mem_of_first hL hfirst

/-- The points of three servers, below `2^31`, and a key that is not. -/
def lowPoints (s : String) : UInt32 :=
  if s = "a0" then 1 else if s = "b0" then 2 else if s = "c0" then 3 else 0x80000000

/-- With an `int` of 32 bits, a server that has gone. -/
theorem lookups_return_servers_gone :
    PointsFit .bits32 lowPoints 1 {"a", "b", "c"} ∧
    ∃ (r : HashRing) (res : String × Bool), RingOp.run ⟨32, fun _ => 0⟩ (.new 32 lowPoints 1)
        [(.sorted, .addRemoveServers ["a", "b", "c"] []), (.sorted, .removeServer "a")] = .ok r ∧
      r.serverSet = {"b", "c"} ∧ r.lookup .sorted "k" = .ok res ∧
      (res.2 = true → res.1 ∈ ({"b", "c"} : Finset String)) := by
  obtain ⟨r, T, hrun, -, -, hlookup⟩ := lookups_return_servers .bits32 (fun _ => 0) lowPoints 1
    [(.sorted, .addRemoveServers ["a", "b", "c"] []), (.sorted, .removeServer "a")]
    (by decide +kernel)
  have hservers : (RingOp.run ⟨32, fun _ => 0⟩ (.new 32 lowPoints 1)
      [(.sorted, .addRemoveServers ["a", "b", "c"] []), (.sorted, .removeServer "a")]).map
        (fun r => decide (r.serverSet = {"b", "c"})) = .ok true := by
    decide +kernel
  have hset : r.serverSet = {"b", "c"} := by
    obtain ⟨r₁, hrun₁, hset⟩ := exists_of_map_eq_ok hservers
    obtain rfl := Except.ok.inj (hrun.symm.trans hrun₁)
    exact of_decide_eq_true hset
  obtain ⟨res, hcall, hmem⟩ := (hlookup .sorted "k").2
  rw [hset] at hmem
  exact ⟨by decide +kernel, r, res, hrun, hset, hcall, hmem⟩

/-- Points on both sides of `2^31`. -/
def mixedPoints (s : String) : UInt32 :=
  if s = "a0" then 0xb0000000 else if s = "b0" then 0x20000000
  else if s = "c0" then 0x70000000 else if s = "d0" then 0x50000000 else 0x80000000

/-- **With 32 bits** a server may go and leave its point behind: `Delete` does not find it,
and `Lookup` returns the server that is gone. -/
theorem lookup_returns_removed_server :
    ∃ r, RingOp.run ⟨32, fun _ => 0⟩ (.new 32 mixedPoints 1)
        [(.sorted, .addServer "b"), (.sorted, .addServer "a"), (.sorted, .addServer "c"),
          (.sorted, .addServer "d"), (.sorted, .removeServer "b"),
          (.sorted, .removeServer "a")] = .ok r ∧
      r.serverSet = {"c", "d"} ∧ r.lookup .sorted "k" = .ok ("a", true) := by
  have heval : (do
      let r ← RingOp.run ⟨32, fun _ => 0⟩ (.new 32 mixedPoints 1)
        [(.sorted, .addServer "b"), (.sorted, .addServer "a"), (.sorted, .addServer "c"),
          (.sorted, .addServer "d"), (.sorted, .removeServer "b"), (.sorted, .removeServer "a")]
      let res ← r.lookup .sorted "k"
      return (decide (r.serverSet = {"c", "d"}), res)) = .ok (true, "a", true) := by
    decide +kernel
  obtain ⟨r, hrun, heval⟩ := exists_of_bind_eq_ok heval
  obtain ⟨res, hlook, heval⟩ := exists_of_bind_eq_ok heval
  simp only [pure, Except.pure, Except.ok.injEq, Prod.mk.injEq, decide_eq_true_eq] at heval
  obtain ⟨hset, rfl⟩ := heval
  exact ⟨r, hrun, hset, hlook⟩

/-- **`LookupN` is the clockwise walk.**  On every ring that a sequence of calls
can build, `LookupN(key, n)` returns, in some order, the first `n` different
owners met from the hash of the key on, and all servers where `n` is not smaller
than their number.  It returns more for a larger `n`, and what `Lookup`
returns. -/
theorem lookupN_eq_clockwise (fp hash : String → UInt32) (R : ℤ)
    (calls : List (MapOrder × RingOp)) :
    ∃ (r : HashRing) (T : Tree), RingOp.run (.bits64 fp) (.new 64 hash R) calls = .ok r ∧
      Represents 64 r.tree T ∧ ∀ key : String,
        (∀ o n, ∃ l, r.lookupN o key n = .ok l ∧ l.Nodup ∧ l.toFinset =
          if n < r.serverCount then
            (firstDistinct n.toNat (clockwise T.bindings (r.hashfunc key))).toFinset
          else r.serverSet) ∧
        (∀ o o' m n, m ≤ n → ∃ l l', r.lookupN o key m = .ok l ∧ r.lookupN o' key n = .ok l' ∧
          l ⊆ l') ∧
        ∀ o o' n s, 1 ≤ n → r.lookup o key = .ok (s, true) →
          ∃ l, r.lookupN o' key n = .ok l ∧ s ∈ l := by
  obtain ⟨r, A, -, hrun, h, hA, -⟩ := exists_owns (W := .bits64) fp (.inl rfl) calls subset_rfl
  obtain ⟨T, hT, hm⟩ := h.tree
  have hL : Lists A.owner T.bindings := ⟨hT.ordered, hm⟩
  refine ⟨r, T, hrun, hT, fun key => ⟨fun o n => ?_, fun o o' m n hmn => ?_,
    fun o o' n s hn hlookup => ?_⟩⟩
  · obtain ⟨l, hcall, hnd, hmem⟩ := h.lookupN hL o key n
    refine ⟨l, hcall, hnd, ?_⟩
    rw [hmem, Ownership.firstN, HashRing.serverCount, h.servers, h.hashfunc_eq]
  · obtain ⟨l, hcall, -, hmem⟩ := h.lookupN hL o key m
    obtain ⟨l', hcall', -, hmem'⟩ := h.lookupN hL o' key n
    refine ⟨l, l', hcall, hcall', fun s hs => List.mem_toFinset.1 ?_⟩
    rw [hmem']
    exact hA.firstN_mono hL _ hmn (hmem ▸ List.mem_toFinset.2 hs)
  · obtain ⟨l₁, hcall₁, -, hmem₁⟩ := h.lookupN hL o key 1
    obtain ⟨l, hcall, -, hmem⟩ := h.lookupN hL o' key n
    have hs : s ∈ l₁ := by
      rw [HashRing.lookup, hcall₁] at hlookup
      cases l₁ with
      | nil => cases hlookup
      | cons t l₁ =>
        obtain rfl : t = s := congrArg Prod.fst (Except.ok.inj hlookup)
        exact .head _
    refine ⟨l, hcall, List.mem_toFinset.1 ?_⟩
    rw [hmem]
    exact hA.firstN_mono hL _ hn (hmem₁ ▸ List.mem_toFinset.2 hs)

/-- Two servers, one and two of them asked for. -/
theorem lookupN_eq_clockwise_two :
    ∃ r : HashRing, RingOp.run (.bits64 fun _ => 0)
        (.new 64 (fun s => if s = "a0" then 1 else 2) 1)
        [(.sorted, .addRemoveServers ["a", "b"] [])] = .ok r ∧
      (∃ l l', r.lookupN .sorted "k" 1 = .ok l ∧ r.lookupN .sorted "k" 2 = .ok l' ∧ l ⊆ l') ∧
      r.lookup .sorted "k" = .ok ("b", true) ∧ ∃ l, r.lookupN .sorted "k" 2 = .ok l ∧ "b" ∈ l := by
  have heval : (do
      let r ← RingOp.run (.bits64 fun _ => 0) (.new 64 (fun s => if s = "a0" then 1 else 2) 1)
        [(.sorted, .addRemoveServers ["a", "b"] [])]
      r.lookup .sorted "k") = .ok ("b", true) := by
    decide +kernel
  obtain ⟨r, hrun, hlook⟩ := exists_of_bind_eq_ok heval
  obtain ⟨r₀, T, hrun₀, -, hall⟩ := lookupN_eq_clockwise (fun _ => 0)
    (fun s => if s = "a0" then 1 else 2) 1 [(.sorted, .addRemoveServers ["a", "b"] [])]
  obtain rfl : r₀ = r := Except.ok.inj (hrun₀.symm.trans hrun)
  obtain ⟨-, hmono, hfirst⟩ := hall "k"
  exact ⟨r₀, hrun, hmono .sorted .sorted 1 2 (by decide), hlook,
    hfirst .sorted .sorted 2 "b" (by decide) hlook⟩

end Hashring
end Ringpop
