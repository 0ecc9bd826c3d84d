/-
# Who is pinged next

`swim/memberlist_iter.go`.  The iterator is an index into the member list.  `Next` moves
it on to the next pingable member; at the end of the list it shuffles the list and starts
again.  It gives up when it has seen as many addresses as there are members.  The
permutation of each shuffle is given by the round that it ends.

`Next` visits each member once, in the order of the list, so it gives up only when nobody
is pingable (`MemberlistIter.next_spec`).  What it does, and what `Update` does to the
list, are steps of `Rounds.Scan` (`IterState.Good.step`): a member that stays pingable is
not passed over.
-/

import Ringpop.Collections.Rounds
import Ringpop.Swim.Structure

namespace Ringpop
namespace Swim

open CellStore Runs Reorder
open Rounds (Scan)

namespace Memberlist

/-- `MemberAt`. -/
def memberAt (m : Memberlist) (i : ℤ) : Except Fault ℕ :=
  match if i < 0 then none else m.list[i.toNat]? with
  | none => throw (.panic "index out of range")
  | some p => return p

/-- `*member`. -/
def read (m : Memberlist) (p : ℕ) : Except Fault Member :=
  match m.store.cell p with
  | none => throw .nilDereference
  | some member => return member

end Memberlist

/-- `memberlistIter`, without its member list. -/
structure MemberlistIter where
  currentIndex : ℤ
  currentRound : ℕ
deriving DecidableEq, Repr

/-- `newMemberlistIter`. -/
def newMemberlistIter (o : Arrangement ℕ) (m : Memberlist) : MemberlistIter × Memberlist :=
  (⟨-1, 0⟩, m.shuffle o)

namespace MemberlistIter

/-- The start of the body of the loop of `Next`. -/
def advance (shuffles : ℕ → Arrangement ℕ) (iter : MemberlistIter) (m : Memberlist) :
    Memberlist × MemberlistIter :=
  let currentIndex := iter.currentIndex + 1
  if currentIndex ≥ (m.numMembers : ℤ) then
    (m.shuffle (shuffles iter.currentRound), ⟨0, iter.currentRound + 1⟩)
  else (m, ⟨currentIndex, iter.currentRound⟩)

/-- The loop of `Next`. -/
def loop (shuffles : ℕ → Arrangement ℕ) (maxToVisit : ℕ) :
    ℕ → Finset String → Memberlist → MemberlistIter →
      Except Fault (Option ℕ × Memberlist × MemberlistIter)
  | 0, visited, m, iter =>
      if visited.card < maxToVisit then throw .outOfFuel else return (none, m, iter)
  | fuel + 1, visited, m, iter =>
      if visited.card < maxToVisit then do
        let (m, iter) := iter.advance shuffles m
        let p ← m.memberAt iter.currentIndex
        let member ← m.read p
        let visited := insert member.address visited
        if ← m.pingable member then return (some p, m, iter)
        loop shuffles maxToVisit fuel visited m iter
      else return (none, m, iter)

/-- `Next`.  Returns the member, if there is one. -/
def next (shuffles : ℕ → Arrangement ℕ) (iter : MemberlistIter) (m : Memberlist) :
    Except Fault (Option ℕ × Memberlist × MemberlistIter) :=
  loop shuffles m.numMembers (2 * m.numMembers) ∅ m iter

end MemberlistIter

/-! ### One call of `Next` -/

namespace Memberlist

variable {m : Memberlist} {p q : ℕ}

/-- The member at `p` is pingable. -/
def Pingable (m : Memberlist) (p : ℕ) : Prop :=
  ∃ member, m.store.cell p = some member ∧ m.pingable member = .ok true

instance (m : Memberlist) (p : ℕ) : Decidable (m.Pingable p) :=
  decidable_of_iff ((m.store.cell p).any fun member => (m.pingable member).toOption = some true)
    (by simp [Pingable, Option.any_eq_true, toOption_eq_some_iff])

/-- The address of the member at `p`. -/
def addressOf (m : Memberlist) (p : ℕ) : String :=
  ((m.store.cell p).map Member.address).getD ""

/-- The member list is sound, and has a local member to compare with. -/
structure Scannable (m : Memberlist) : Prop where
  sound : m.Sound
  hasLocal : ∃ l, m.getLocal = .ok l

theorem Scannable.shuffle (h : m.Scannable) (o : Arrangement ℕ) : (m.shuffle o).Scannable :=
  ⟨h.sound.shuffle o, h.hasLocal⟩

/-- A member of the list is found under its address, and it can be told whether it is
pingable. -/
theorem Scannable.visit (h : m.Scannable) (hp : p ∈ m.list) :
    ∃ member b, m.store.cell p = some member ∧ member.address = m.addressOf p ∧
      m.byAddress (m.addressOf p) = some p ∧ m.pingable member = .ok b ∧
      (b = true ↔ m.Pingable p) := by
  obtain ⟨a, ha⟩ := (h.sound.mem_list p).1 hp
  obtain ⟨member, hcell, rfl⟩ := h.sound.cell a p ha
  obtain ⟨l, hl⟩ := h.hasLocal
  obtain ⟨b, hb⟩ := exists_pingable hl member
  have haddr : member.address = m.addressOf p := by rw [addressOf, hcell]; rfl
  refine ⟨member, b, hcell, haddr, haddr ▸ ha, hb, ?_⟩
  constructor
  · rintro rfl
    exact ⟨member, hcell, hb⟩
  · rintro ⟨member', hcell', hb'⟩
    obtain rfl := Option.some.inj (hcell.symm.trans hcell')
    exact Except.ok.inj (hb.symm.trans hb')

/-- Different members of the list have different addresses. -/
theorem Scannable.card_image (h : m.Scannable) {W : Finset ℕ} (hW : W ⊆ m.list.toFinset) :
    (W.image m.addressOf).card = W.card := by
  refine Finset.card_image_of_injOn fun p hp q hq heq => ?_
  obtain ⟨-, -, -, -, hbyp, -⟩ := h.visit (List.mem_toFinset.1 (hW hp))
  obtain ⟨-, -, -, -, hbyq, -⟩ := h.visit (List.mem_toFinset.1 (hW hq))
  rw [heq] at hbyp
  exact Option.some.inj (hbyp.symm.trans hbyq)

/-- From place `seen` on the list was looked through up to place `seen'`: all were passed
over, but for the last if it was found. -/
def Looked (m : Memberlist) (seen : ℕ) (found : Option ℕ) (seen' : ℕ) : Prop :=
  seen' ≤ m.list.length ∧
    ∃ passed, m.list.drop seen = passed ++ (found.toList ++ m.list.drop seen') ∧
      ∀ p ∈ passed, ¬ m.Pingable p

theorem mem_of_looked {seen seen' : ℕ} {found : Option ℕ} {passed : List ℕ}
    (h : m.list.drop seen = passed ++ (found.toList ++ m.list.drop seen')) :
    ∀ p ∈ found, p ∈ m.list := by
  intro p hp
  have hmem : p ∈ m.list.drop seen := by
    rw [h]
    exact List.mem_append_right _ (List.mem_append_left _ (Option.mem_toList.2 hp))
  exact List.mem_of_mem_drop hmem

/-- One more was passed over before. -/
theorem Looked.cons {seen seen' : ℕ} {found : Option ℕ} (h : m.Looked (seen + 1) found seen')
    (hseen : m.list[seen]? = some q) (hq : ¬ m.Pingable q) : m.Looked seen found seen' := by
  obtain ⟨hle, passed, hdrop, hpassed⟩ := h
  obtain ⟨hlt, rfl⟩ := List.getElem?_eq_some_iff.1 hseen
  refine ⟨hle, m.list[seen] :: passed, ?_, ?_⟩
  · rw [List.drop_eq_getElem_cons hlt, hdrop, List.cons_append]
  · exact List.forall_mem_cons.2 ⟨hq, hpassed⟩

theorem looked_found {seen : ℕ} (hseen : m.list[seen]? = some q) :
    m.Looked seen (some q) (seen + 1) := by
  obtain ⟨hlt, rfl⟩ := List.getElem?_eq_some_iff.1 hseen
  exact ⟨hlt, [], List.drop_eq_getElem_cons hlt, by simp⟩

end Memberlist

namespace MemberlistIter

variable {shuffles : ℕ → Arrangement ℕ} {m m' : Memberlist} {iter : MemberlistIter}
  {fuel seen r q N : ℕ} {visited : Finset String} {W : Finset ℕ}

/-- The iterator when `seen` members of the round were seen. -/
def after (seen r : ℕ) : MemberlistIter := ⟨seen - 1, r⟩

theorem advance_after (shuffles : ℕ → Arrangement ℕ) (r : ℕ) (hseen : seen < m.list.length) :
    (after seen r).advance shuffles m = (m, after (seen + 1) r) := by
  have hlt : ¬ (seen : ℤ) - 1 + 1 ≥ m.numMembers := by
    rw [Memberlist.numMembers]
    omega
  rw [advance, after, if_neg hlt, after]
  push_cast
  rw [sub_add_cancel, add_sub_cancel_right]

theorem advance_after_length :
    (after m.list.length r).advance shuffles m = (m.shuffle (shuffles r), after 1 (r + 1)) := by
  have hge : (m.list.length : ℤ) - 1 + 1 ≥ m.numMembers := by
    rw [Memberlist.numMembers]
    omega
  rw [advance, after, if_pos hge]
  rfl

/-- **One iteration**: the member is returned if it is pingable, and otherwise the loop
goes on. -/
theorem loop_visit (fuel : ℕ) (h : m'.Scannable) (hcard : visited.card < N)
    (hadvance : iter.advance shuffles m = (m', after (seen + 1) r))
    (hseen : m'.list[seen]? = some q) :
    (m'.Pingable q →
      loop shuffles N (fuel + 1) visited m iter = .ok (some q, m', after (seen + 1) r)) ∧
    (¬ m'.Pingable q → loop shuffles N (fuel + 1) visited m iter =
      loop shuffles N fuel (insert (m'.addressOf q) visited) m' (after (seen + 1) r)) := by
  obtain ⟨member, b, hcell, haddr, -, hb, hiff⟩ := h.visit (List.mem_of_getElem? hseen)
  have hat : m'.memberAt (after (seen + 1) r).currentIndex = .ok q := by
    have hindex : (after (seen + 1) r).currentIndex = seen := by simp [after]
    rw [hindex, Memberlist.memberAt, if_neg (Int.not_lt.2 (Int.natCast_nonneg seen)),
      Int.toNat_natCast, hseen]
    rfl
  have hread : m'.read q = .ok member := by
    rw [Memberlist.read, hcell]
    rfl
  rw [loop, if_pos hcard, hadvance]
  simp only [hat, hread, hb, Bind.bind, Except.bind, haddr]
  refine ⟨fun hq => ?_, fun hq => ?_⟩
  · rw [if_pos (hiff.2 hq)]
    rfl
  · rw [if_neg (fun hb => hq (hiff.1 hb))]

/-- When as many addresses were seen as there are members, the loop gives up. -/
theorem loop_of_card_ge (hcard : N ≤ visited.card) :
    loop shuffles N fuel visited m iter = .ok (none, m, iter) := by
  cases fuel with
  | zero => rw [loop, if_neg hcard.not_gt]; rfl
  | succ fuel => rw [loop, if_neg hcard.not_gt]; rfl

/-- Nobody is pingable when all members were seen and none was. -/
theorem not_pingable_of_card (hW : W ⊆ m.list.toFinset) (hpass : ∀ p ∈ W, ¬ m.Pingable p)
    (hcard : m.list.length ≤ W.card) : ∀ p ∈ m.list, ¬ m.Pingable p := by
  have hall : W = m.list.toFinset :=
    Finset.eq_of_subset_of_card_le hW (m.list.toFinset_card_le.trans hcard)
  intro p hp
  exact hpass p (hall ▸ List.mem_toFinset.2 hp)

/-- The loop has returned: it has looked on from place `seen`, and found nobody only if
nobody is pingable. -/
def Ends (m : Memberlist) (seen r : ℕ)
    (res : Except Fault (Option ℕ × Memberlist × MemberlistIter)) : Prop :=
  ∃ found seen', res = .ok (found, m, after seen' r) ∧ m.Looked seen found seen' ∧
    (found = none → ∀ p ∈ m.list, ¬ m.Pingable p)

theorem ends_of_card (hW : W ⊆ m.list.toFinset) (hpass : ∀ p ∈ W, ¬ m.Pingable p)
    (hcard : m.list.length ≤ W.card) (hseen : seen ≤ m.list.length) :
    Ends m seen r (.ok (none, m, after seen r)) :=
  ⟨none, seen, rfl, ⟨hseen, [], rfl, by simp⟩, fun _ => not_pingable_of_card hW hpass hcard⟩

/-- A loop that goes on past a member that is not pingable. -/
theorem Ends.cons {res : Except Fault (Option ℕ × Memberlist × MemberlistIter)}
    (h : Ends m (seen + 1) r res) (hseen : m.list[seen]? = some q) (hq : ¬ m.Pingable q) :
    Ends m seen r res := by
  obtain ⟨found, seen', hres, hlooked, hnone⟩ := h
  exact ⟨found, seen', hres, hlooked.cons hseen hq, hnone⟩

theorem ends_found (hseen : m.list[seen]? = some q) :
    Ends m seen r (.ok (some q, m, after (seen + 1) r)) :=
  ⟨some q, seen + 1, rfl, Memberlist.looked_found hseen, by simp⟩

/-- A member that was passed over is one more that was seen. -/
theorem subset_insert_of_getElem? (hW : W ⊆ m.list.toFinset) (hpass : ∀ p ∈ W, ¬ m.Pingable p)
    (hseen : m.list[seen]? = some q) (hq : ¬ m.Pingable q) :
    insert q W ⊆ m.list.toFinset ∧ ∀ p ∈ insert q W, ¬ m.Pingable p := by
  refine ⟨Finset.insert_subset (List.mem_toFinset.2 (List.mem_of_getElem? hseen)) hW, ?_⟩
  exact Finset.forall_mem_insert .. |>.2 ⟨hq, hpass⟩

theorem le_card_of_take (h : m.Scannable) (htake : (m.list.take seen).toFinset ⊆ W)
    (hseen : seen ≤ m.list.length) : seen ≤ W.card := by
  have hnodup := h.sound.nodup.sublist (List.take_sublist seen m.list)
  calc seen = (m.list.take seen).length := (List.length_take_of_le hseen).symm
    _ = (m.list.take seen).toFinset.card := (List.toFinset_card_of_nodup hnodup).symm
    _ ≤ W.card := Finset.card_le_card htake

/-- **The loop after the end of the list**: it is through the new list before it comes to
its end again. -/
theorem loop_wrapped (shuffles : ℕ → Arrangement ℕ) (r : ℕ) (h : m.Scannable)
    (hW : W ⊆ m.list.toFinset) (hpass : ∀ p ∈ W, ¬ m.Pingable p)
    (htake : (m.list.take seen).toFinset ⊆ W) (hseen : seen ≤ m.list.length)
    (hfuel : m.list.length ≤ fuel + seen) :
    Ends m seen r (loop shuffles m.list.length fuel (W.image m.addressOf) m (after seen r)) := by
  induction fuel generalizing seen W with
  | zero =>
    have hcard : m.list.length ≤ W.card :=
      (Nat.zero_add seen ▸ hfuel).trans (le_card_of_take h htake hseen)
    rw [loop_of_card_ge (by rwa [h.card_image hW])]
    exact ends_of_card hW hpass hcard hseen
  | succ fuel ih =>
    by_cases hcard : m.list.length ≤ W.card
    · rw [loop_of_card_ge (by rwa [h.card_image hW])]
      exact ends_of_card hW hpass hcard hseen
    · have hlt : seen < m.list.length :=
        (le_card_of_take h htake hseen).trans_lt (not_le.1 hcard)
      have hq : m.list[seen]? = some m.list[seen] := List.getElem?_eq_getElem hlt
      obtain ⟨hfound, hnext⟩ := loop_visit fuel h
        (by rw [h.card_image hW]; exact not_le.1 hcard) (advance_after shuffles r hlt) hq
      by_cases hp : m.Pingable m.list[seen]
      · rw [hfound hp]
        exact ends_found hq
      · rw [hnext hp, ← Finset.image_insert]
        obtain ⟨hW', hpass'⟩ := subset_insert_of_getElem? hW hpass hq hp
        refine (ih hW' hpass' ?_ hlt (by omega)).cons hq hp
        rw [List.take_add_one, hq, List.toFinset_append, Finset.union_comm, Finset.insert_eq]
        exact Finset.union_subset_union subset_rfl htake

/-- **The loop at the end of the list**: it shuffles the list, and goes through it. -/
theorem loop_at_end (h : m.Scannable) (hpos : 0 < m.list.length) (hW : W ⊆ m.list.toFinset)
    (hpass : ∀ p ∈ W, ¬ m.Pingable p) (hvisited : (W.image m.addressOf).card < m.list.length)
    (hfuel : m.list.length ≤ fuel + 1) :
    Ends (m.shuffle (shuffles r)) 0 (r + 1) (loop shuffles m.list.length (fuel + 1)
      (W.image m.addressOf) m (after m.list.length r)) := by
  have hlength : (m.shuffle (shuffles r)).list.length = m.list.length :=
    ((shuffles r).perm m.list).length_eq
  have hWs : W ⊆ (m.shuffle (shuffles r)).list.toFinset := by
    rwa [Memberlist.shuffle, List.toFinset_eq_of_perm _ _ ((shuffles r).perm m.list)]
  rw [← hlength] at hpos hvisited hfuel
  have hq : (m.shuffle (shuffles r)).list[0]? = some (m.shuffle (shuffles r)).list[0] :=
    List.getElem?_eq_getElem hpos
  obtain ⟨hfound, hnext⟩ := loop_visit fuel (h.shuffle _) hvisited advance_after_length hq
  rw [hlength] at hfound hnext
  by_cases hp : (m.shuffle (shuffles r)).Pingable (m.shuffle (shuffles r)).list[0]
  · rw [hfound hp]
    exact ends_found hq
  · obtain ⟨hW', hpass'⟩ := subset_insert_of_getElem? hWs hpass hq hp
    have htake : ((m.shuffle (shuffles r)).list.take (0 + 1)).toFinset ⊆
        insert (m.shuffle (shuffles r)).list[0] W := by
      rw [List.take_add_one, hq]
      simp
    have hends := loop_wrapped shuffles (r + 1) (h.shuffle (shuffles r)) hW' hpass' htake
      hpos hfuel
    rw [hlength, Finset.image_insert] at hends
    rw [hnext hp]
    exact hends.cons hq hp

/-- **The loop**: it ends in this round, or it looks through the rest of the list and
ends in the next one. -/
theorem loop_spec (h : m.Scannable) (hpos : 0 < m.list.length) (hW : W ⊆ m.list.toFinset)
    (hpass : ∀ p ∈ W, ¬ m.Pingable p) (hseen : seen ≤ m.list.length)
    (hfuel : m.list.length + m.list.length ≤ fuel + seen) :
    Ends m seen r (loop shuffles m.list.length fuel (W.image m.addressOf) m (after seen r)) ∨
      (∀ p ∈ m.list.drop seen, ¬ m.Pingable p) ∧ Ends (m.shuffle (shuffles r)) 0 (r + 1)
        (loop shuffles m.list.length fuel (W.image m.addressOf) m (after seen r)) := by
  induction fuel generalizing seen W with
  | zero => omega
  | succ fuel ih =>
    by_cases hcard : m.list.length ≤ W.card
    · rw [loop_of_card_ge (by rwa [h.card_image hW])]
      exact .inl (ends_of_card hW hpass hcard hseen)
    have hvisited : (W.image m.addressOf).card < m.list.length := by
      rw [h.card_image hW]
      exact not_le.1 hcard
    rcases hseen.lt_or_eq with hlt | rfl
    · have hq : m.list[seen]? = some m.list[seen] := List.getElem?_eq_getElem hlt
      obtain ⟨hfound, hnext⟩ := loop_visit fuel h hvisited
        (advance_after shuffles r hlt) hq
      by_cases hp : m.Pingable m.list[seen]
      · rw [hfound hp]
        exact .inl (ends_found hq)
      · rw [hnext hp, ← Finset.image_insert]
        obtain ⟨hW', hpass'⟩ := subset_insert_of_getElem? hW hpass hq hp
        rcases ih hW' hpass' hlt (by omega) with hends | ⟨hrest, hends⟩
        · exact .inl (hends.cons hq hp)
        · refine .inr ⟨?_, hends⟩
          rw [List.drop_eq_getElem_cons hlt]
          exact List.forall_mem_cons.2 ⟨hp, hrest⟩
    · exact .inr ⟨by simp, loop_at_end h hpos hW hpass hvisited (by omega)⟩

/-- **`Next`** returns.  It ends in this round, or it looks through the rest of the list
and ends in the next one; it finds nobody only if nobody is pingable. -/
theorem next_spec (shuffles : ℕ → Arrangement ℕ) (r : ℕ) (h : m.Scannable)
    (hpos : 0 < m.list.length) (hseen : seen ≤ m.list.length) :
    Ends m seen r ((after seen r).next shuffles m) ∨
      (∀ p ∈ m.list.drop seen, ¬ m.Pingable p) ∧
        Ends (m.shuffle (shuffles r)) 0 (r + 1) ((after seen r).next shuffles m) := by
  have hfuel : m.list.length + m.list.length ≤ 2 * m.list.length + seen := by omega
  exact loop_spec (W := ∅) h hpos (Finset.empty_subset _) (by simp) hseen hfuel

end MemberlistIter

/-! ### Rounds -/

/-- A node with its iterator, and the members that `Next` has returned so far, each with
the round. -/
structure IterState where
  node : Node
  iter : MemberlistIter
  returned : List (ℕ × ℕ)

/-- What happens to the member list and to the iterator. -/
inductive IterAction where
  | next
  | update (b : Batch)

/-- The changes of the action have valid statuses. -/
def IterAction.Valid : IterAction → Prop
  | next => True
  | update b => ∀ c ∈ b.changes, ValidStatus c.status

namespace IterState

/-- A new node, after its first `Reincarnate`. -/
def start (pr : Primitives) (app address : String) (o : Arrangement ℕ) (now t : ℤ)
    (choices : ℕ → Choice) : Except Fault IterState := do
  let n := Node.new app address
  let (iter, m) := newMemberlistIter o n.memberlist
  let (_, n) ← Node.reincarnate pr { n with memberlist := m } now t choices
  return ⟨n, iter, []⟩

/-- `Next`, on the iterator of the node. -/
def next (shuffles : ℕ → Arrangement ℕ) (s : IterState) :
    Except Fault (Option ℕ × IterState) := do
  let (found, m, iter) ← s.iter.next shuffles s.node.memberlist
  return (found, ⟨{ s.node with memberlist := m }, iter,
    s.returned ++ found.toList.map (iter.currentRound, ·)⟩)

/-- One action. -/
def step (pr : Primitives) (shuffles : ℕ → Arrangement ℕ) (s : IterState) :
    IterAction → Except Fault IterState
  | .next => Prod.snd <$> s.next shuffles
  | .update b => do
      let (_, n) ← s.node.update pr b
      return { s with node := n }

/-- A sequence of actions. -/
def run (pr : Primitives) (shuffles : ℕ → Arrangement ℕ) (s : IterState)
    (actions : List IterAction) : Except Fault IterState :=
  actions.foldlM (step pr shuffles) s

/-- The state, as one who goes round the list sees it. -/
def scan (s : IterState) : Scan ℕ :=
  ⟨s.node.memberlist.list, (s.iter.currentIndex + 1).toNat, s.iter.currentRound, s.returned⟩

/-- What holds from the first `Reincarnate` on: the index is in the list, or just before
it. -/
structure Good (s : IterState) : Prop where
  sound : s.node.Sound
  hasLocal : s.node.memberlist.localMember.isSome
  length_pos : 0 < s.node.memberlist.list.length
  iter : ∃ seen, s.iter = .after seen s.iter.currentRound ∧ seen ≤ s.node.memberlist.list.length
  returned : ∀ e ∈ s.returned, e.1 ≤ s.iter.currentRound

end IterState

/-- **`Update`** puts members into the list, and leaves the others in their order. -/
theorem Node.list_sublist_of_update {pr : Primitives} {n n' : Node} {b : Batch}
    {applied : List Change} (h : n.update pr b = .ok (applied, n')) :
    n.memberlist.list.Sublist n'.memberlist.list := by
  obtain ⟨st, hst, -, hn'⟩ := exists_handled_of_update h
  rw [(handled_handleChanges hn').memberlist]
  refine Memberlist.update_invariant (I := fun m => n.memberlist.list.Sublist m.list)
    (fun m' choice c hm => ?_) (fun _ hm => hm) (.refl _) hst
  refine hm.trans ?_
  rw [Memberlist.apply]
  cases m'.byAddress c.address with
  | some p => exact .refl _
  | none =>
    simp only [Memberlist.setMember, Memberlist.addMember]
    generalize m'.getJoinPosition choice.random = i
    have hsub := (List.Sublist.refl (m'.list.take i)).append
      (List.sublist_cons_self m'.store.next (m'.list.drop i))
    rwa [List.take_append_drop] at hsub

namespace IterState

variable {pr : Primitives} {shuffles : ℕ → Arrangement ℕ} {s s' : IterState}
  {action : IterAction}

theorem Good.scannable (h : s.Good) : s.node.memberlist.Scannable := by
  obtain ⟨l, hl, -⟩ := h.sound.localMember.exists_getLocal h.hasLocal
  exact ⟨h.sound.memberlist, l, hl⟩

theorem scan_after (n : Node) (seen r : ℕ) (returned : List (ℕ × ℕ)) :
    scan ⟨n, .after seen r, returned⟩ = ⟨n.memberlist.list, seen, r, returned⟩ := by
  simp [scan, MemberlistIter.after]

/-- What `Next` returns is noted under the round in which it is. -/
theorem returned_le {returned : List (ℕ × ℕ)} {r r' : ℕ} (h : ∀ e ∈ returned, e.1 ≤ r)
    (hr : r ≤ r') (found : Option ℕ) : ∀ e ∈ returned ++ found.toList.map (r', ·), e.1 ≤ r' := by
  intro e he
  rcases List.mem_append.1 he with he | he
  · exact (h e he).trans hr
  · obtain ⟨p, -, rfl⟩ := List.mem_map.1 he
    exact le_rfl

/-- **`Next`** returns, passes nobody over who is pingable, and finds nobody only if
nobody is.  It changes no entry. -/
theorem Good.next (h : s.Good) (shuffles : ℕ → Arrangement ℕ) :
    ∃ found s', s.next shuffles = .ok (found, s') ∧ s'.Good ∧
      s'.node.memberlist.entry = s.node.memberlist.entry ∧
      (∀ p ∈ found, p ∈ s'.node.memberlist.list) ∧
      (found = none → ∀ p ∈ s.node.memberlist.list, ¬ s.node.memberlist.Pingable p) ∧
      ∀ p, s.node.memberlist.Pingable p → Scan.Step p s.scan s'.scan := by
  obtain ⟨seen, hiter, hseen⟩ := h.iter
  have hspec := MemberlistIter.next_spec shuffles s.iter.currentRound h.scannable h.length_pos
    hseen
  have hscan : s.scan =
      ⟨s.node.memberlist.list, seen, s.iter.currentRound, s.returned⟩ := by
    rw [← scan_after, ← hiter]
  rw [← hiter] at hspec
  rcases hspec with ⟨found, seen', hnext, ⟨hle, passed, hdrop, hpassed⟩, hnone⟩ |
    ⟨hrest, found, seen', hnext, ⟨hle, passed, hdrop, hpassed⟩, hnone⟩
  · refine ⟨found, ⟨s.node, .after seen' s.iter.currentRound,
      s.returned ++ found.toList.map (s.iter.currentRound, ·)⟩, ?_, ?_, rfl,
      Memberlist.mem_of_looked hdrop, hnone, fun p hp => ?_⟩
    · rw [IterState.next, hnext]
      rfl
    · exact ⟨h.sound, h.hasLocal, h.length_pos, ⟨seen', rfl, hle⟩,
        returned_le h.returned le_rfl found⟩
    · rw [hscan, scan_after]
      exact .look ⟨_, seen, _, s.returned⟩ passed found seen' hdrop
        fun hmem => hpassed p hmem hp
  · have hperm := (shuffles s.iter.currentRound).perm s.node.memberlist.list
    refine ⟨found, ⟨s.node.shuffle (shuffles s.iter.currentRound),
      .after seen' (s.iter.currentRound + 1),
      s.returned ++ found.toList.map (s.iter.currentRound + 1, ·)⟩, ?_, ?_, rfl,
      Memberlist.mem_of_looked hdrop, ?_, fun p hp => ?_⟩
    · rw [IterState.next, hnext]
      rfl
    · exact ⟨⟨h.sound.memberlist.shuffle _, h.sound.localMember.own, h.sound.localMember.cell⟩,
        h.hasLocal, hperm.length_eq ▸ h.length_pos, ⟨seen', rfl, hle⟩,
        returned_le h.returned (Nat.le_succ _) found⟩
    · intro hfound p hp
      exact hnone hfound p (hperm.mem_iff.2 hp)
    · rw [hscan, scan_after]
      exact .wrap ⟨_, seen, _, s.returned⟩ _ passed found seen' (fun hmem => hrest p hmem hp)
        hperm hdrop fun hmem => hpassed p hmem hp

/-- **One action** passes nobody over who is pingable. -/
theorem Good.step (h : s.Good) (hstep : s.step pr shuffles action = .ok s') :
    s'.Good ∧ ∀ p, s.node.memberlist.Pingable p → Scan.Step p s.scan s'.scan := by
  cases action with
  | next =>
    obtain ⟨found, s₁, hnext, hgood, -, -, -, hscan⟩ := h.next shuffles
    rw [IterState.step, hnext] at hstep
    obtain rfl := Except.ok.inj hstep
    exact ⟨hgood, hscan⟩
  | update b =>
    obtain ⟨⟨applied, n⟩, hup, hstep⟩ := exists_of_bind_eq_ok hstep
    obtain rfl := Except.ok.inj hstep
    have hsub := Node.list_sublist_of_update hup
    have he := Node.effect_update h.sound hup
    obtain ⟨seen, hiter, hseen⟩ := h.iter
    exact ⟨⟨he.sound, he.hasLocal h.hasLocal, h.length_pos.trans_le hsub.length_le,
      ⟨seen, hiter, hseen.trans hsub.length_le⟩, h.returned⟩, fun p _ => .grow s.scan _ hsub⟩

/-- **One action** with valid statuses returns. -/
theorem Good.exists_step (h : s.Good) (hlive : s.node.Live) (pr : Primitives)
    (shuffles : ℕ → Arrangement ℕ) (haction : action.Valid) :
    ∃ s', s.step pr shuffles action = .ok s' ∧ s'.node.Live := by
  cases action with
  | next =>
    obtain ⟨found, s', hnext, hgood, hentry, -, -, -⟩ := h.next shuffles
    refine ⟨s', by rw [IterState.step, hnext]; rfl, hgood.sound, hgood.hasLocal, ?_⟩
    rw [hentry]
    exact hlive.valid
  | update b =>
    obtain ⟨applied, n, hup, hn⟩ := hlive.update pr haction
    exact ⟨{ s with node := n }, by rw [IterState.step, hup]; rfl, hn⟩

/-- **A sequence of actions** with valid statuses returns. -/
theorem Good.exists_run {actions : List IterAction} (h : s.Good) (hlive : s.node.Live)
    (pr : Primitives) (shuffles : ℕ → Arrangement ℕ) (hvalid : ∀ action ∈ actions, action.Valid) :
    ∃ s', s.run pr shuffles actions = .ok s' ∧ s'.Good ∧ s'.node.Live :=
  exists_foldlM (I := fun s : IterState => s.Good ∧ s.node.Live)
    (fun s action haction hs => by
      obtain ⟨s', hstep, hlive⟩ := hs.1.exists_step hs.2 pr shuffles (hvalid action haction)
      exact ⟨s', hstep, (hs.1.step hstep).1, hlive⟩)
    ⟨h, hlive⟩

/-- **After the first `Reincarnate`.** -/
theorem exists_start (pr : Primitives) (app address : String) (o : Arrangement ℕ) (now t : ℤ)
    (choices : ℕ → Choice) :
    ∃ s, start pr app address o now t choices = .ok s ∧ s.Good ∧ s.node.Live := by
  have hnew : Memberlist.new.shuffle o = .new := by
    have hnil : o.arrange [] = [] := (o.perm []).eq_nil
    rw [Memberlist.shuffle, Memberlist.new, hnil]
  obtain ⟨applied, n, hboot, hn⟩ := Node.exists_reincarnate_new
    (n := { Node.new app address with memberlist := Memberlist.new.shuffle o }) hnew rfl pr now t
    choices
  obtain ⟨own, hown, -⟩ := hn.own
  obtain ⟨p, hp, -⟩ := Option.bind_eq_some_iff.1 hown
  have hpos : 0 < n.memberlist.list.length :=
    List.length_pos_of_mem ((hn.sound.memberlist.mem_list p).2 ⟨_, hp⟩)
  refine ⟨⟨n, ⟨-1, 0⟩, []⟩, ?_, ?_, hn.toLive⟩
  · simp only [start, newMemberlistIter]
    exact congrArg (fun r => r >>= fun r => .ok (⟨r.2, ⟨-1, 0⟩, []⟩ : IterState)) hboot
  · exact ⟨hn.sound, hn.hasLocal, hpos, ⟨0, rfl, Nat.zero_le _⟩, by simp⟩

/-- **A round**: from one end of the list to the next, a member that is in the list at the
first and stays pingable is returned, and once if nobody was put in. -/
theorem Good.round {s₁ s₂ s₃ s₄ : IterState} {mid : List IterAction} {p : ℕ} (h : s₁.Good)
    (hwrap₁ : s₁.step pr shuffles .next = .ok s₂)
    (hround₁ : s₂.iter.currentRound = s₁.iter.currentRound + 1)
    (hmid : s₂.run pr shuffles mid = .ok s₃)
    (hround : s₃.iter.currentRound = s₂.iter.currentRound)
    (hwrap₂ : s₃.step pr shuffles .next = .ok s₄)
    (hround₂ : s₄.iter.currentRound = s₃.iter.currentRound + 1)
    (hp : p ∈ s₁.node.memberlist.list)
    (hpingable : Along (IterState.step pr shuffles) (fun s _ => s.node.memberlist.Pingable p) s₁
      (.next :: (mid ++ [.next]))) :
    1 ≤ s₄.returned.count (s₂.iter.currentRound, p) ∧
      (s₃.node.memberlist.list.length = s₁.node.memberlist.list.length →
        s₄.returned.count (s₂.iter.currentRound, p) = 1) := by
  obtain ⟨hgood₂, hstep₁⟩ := h.step hwrap₁
  have htracks := Scan.tracks_of_wrap (hstep₁ p hpingable.head) hround₁ hp h.sound.memberlist.nodup
    h.returned
  have hrest := hpingable.tail hwrap₁
  -- while the round lasts, the member was returned or is still to come
  obtain ⟨hgood₃, hcase⟩ := Along.invariant (I := fun s : IterState => s.Good ∧
      (s₂.scan.round < s.scan.round ∨
        Scan.Tracks p s₂.scan.round s₁.scan.list.length s.scan))
    (fun s action s' hs hpg hstep => by
      obtain ⟨hgood, hscan⟩ := hs.1.step hstep
      refine ⟨hgood, hs.2.elim (fun hlt => .inl ?_) fun ht => ht.step (hscan p hpg)⟩
      exact hlt.trans_le (hscan p hpg).round_le)
    ⟨hgood₂, .inr htracks⟩ hrest.append_left hmid
  have htracks₃ := hcase.resolve_left hround.le.not_gt
  obtain ⟨-, hstep₂⟩ := hgood₃.step hwrap₂
  exact htracks₃.count_of_wrap (hstep₂ p (hrest.append_right hmid).head) hround₂

end IterState

/-- **Every member is pinged in every round.**  After the first `Reincarnate`, and
whatever `Update`s there are between the calls of `Next`: each `Next` returns, and finds
nobody only if nobody is pingable; and a member that is in the list at one end of the list
and stays pingable until the next is returned in between, and once if nobody was put into
the list. -/
theorem iterator_rounds (pr : Primitives) (shuffles : ℕ → Arrangement ℕ) (app address : String)
    (o : Arrangement ℕ) (now t : ℤ) (choices : ℕ → Choice) :
    ∃ s₀, IterState.start pr app address o now t choices = .ok s₀ ∧
      (∀ actions : List IterAction, (∀ action ∈ actions, action.Valid) →
        ∃ s, s₀.run pr shuffles actions = .ok s ∧ ∃ found s', s.next shuffles = .ok (found, s') ∧
          (found = none → ∀ p ∈ s.node.memberlist.list, ¬ s.node.memberlist.Pingable p)) ∧
      (∀ (pre mid : List IterAction) (s₁ s₂ s₃ s₄ : IterState) (p : ℕ),
        s₀.run pr shuffles pre = .ok s₁ → s₁.step pr shuffles .next = .ok s₂ →
        s₂.iter.currentRound = s₁.iter.currentRound + 1 →
        s₂.run pr shuffles mid = .ok s₃ → s₃.iter.currentRound = s₂.iter.currentRound →
        s₃.step pr shuffles .next = .ok s₄ →
        s₄.iter.currentRound = s₃.iter.currentRound + 1 →
        p ∈ s₁.node.memberlist.list →
        Along (IterState.step pr shuffles) (fun s _ => s.node.memberlist.Pingable p) s₁
          (.next :: (mid ++ [.next])) →
          1 ≤ s₄.returned.count (s₂.iter.currentRound, p) ∧
          (s₃.node.memberlist.list.length = s₁.node.memberlist.list.length →
            s₄.returned.count (s₂.iter.currentRound, p) = 1)) := by
  obtain ⟨s₀, hstart, hgood, hlive⟩ := IterState.exists_start pr app address o now t choices
  refine ⟨s₀, hstart, fun actions hvalid => ?_, ?_⟩
  · obtain ⟨s, hrun, hs, -⟩ := hgood.exists_run hlive pr shuffles hvalid
    obtain ⟨found, s', hnext, -, -, -, hnone, -⟩ := hs.next shuffles
    exact ⟨s, hrun, found, s', hnext, hnone⟩
  · intro pre mid s₁ s₂ s₃ s₄ p hpre hwrap₁ hround₁ hmid hround hwrap₂ hround₂ hp hpingable
    have hgood₁ : s₁.Good := foldlM_invariant (fun _ _ _ hs hstep => (hs.step hstep).1) hgood hpre
    exact hgood₁.round hwrap₁ hround₁ hmid hround hwrap₂ hround₂ hp hpingable

/-- Two other members, and one who joins in the middle of a round before the place that was
reached: the member at `3` is returned in the round. -/
theorem iterator_rounds_three :
    ∃ s₀ s₁ s₂ s₃ s₄,
      IterState.start ⟨fun _ => 0, fun _ => 1⟩ "app" "a" .asIs 5 5 (fun _ => ⟨5, 0⟩) = .ok s₀ ∧
      s₀.run ⟨fun _ => 0, fun _ => 1⟩ (fun _ => .asIs) [.update (.single "b" alive),
        .update (.single "c" alive), .next, .next] = .ok s₁ ∧
      s₁.step ⟨fun _ => 0, fun _ => 1⟩ (fun _ => .asIs) .next = .ok s₂ ∧
      s₂.run ⟨fun _ => 0, fun _ => 1⟩ (fun _ => .asIs) [.update (.single "d" alive), .next,
        .next] = .ok s₃ ∧
      s₃.step ⟨fun _ => 0, fun _ => 1⟩ (fun _ => .asIs) .next = .ok s₄ ∧
      s₂.iter.currentRound = 1 ∧ s₄.iter.currentRound = 2 ∧ 1 ≤ s₄.returned.count (1, 3) := by
  have heval : (do
      let s₀ ← IterState.start ⟨fun _ => 0, fun _ => 1⟩ "app" "a" .asIs 5 5 (fun _ => ⟨5, 0⟩)
      let s₁ ← s₀.run ⟨fun _ => 0, fun _ => 1⟩ (fun _ => .asIs) [.update (.single "b" alive),
        .update (.single "c" alive), .next, .next]
      let s₂ ← s₁.step ⟨fun _ => 0, fun _ => 1⟩ (fun _ => .asIs) .next
      let s₃ ← s₂.run ⟨fun _ => 0, fun _ => 1⟩ (fun _ => .asIs) [.update (.single "d" alive),
        .next, .next]
      let s₄ ← s₃.step ⟨fun _ => 0, fun _ => 1⟩ (fun _ => .asIs) .next
      return ([s₁.iter.currentRound, s₂.iter.currentRound, s₃.iter.currentRound,
        s₄.iter.currentRound], decide (3 ∈ s₁.node.memberlist.list ∧
          Along (IterState.step ⟨fun _ => 0, fun _ => 1⟩ fun _ => .asIs)
            (fun s _ => s.node.memberlist.Pingable 3) s₁ (IterAction.next ::
              ([IterAction.update (.single "d" alive), .next, .next] ++ [IterAction.next]))))) =
        .ok ([0, 1, 1, 2], true) := by
    decide +kernel
  obtain ⟨s₀, hstart, heval⟩ := exists_of_bind_eq_ok heval
  obtain ⟨s₁, hpre, heval⟩ := exists_of_bind_eq_ok heval
  obtain ⟨s₂, hwrap₁, heval⟩ := exists_of_bind_eq_ok heval
  obtain ⟨s₃, hmid, heval⟩ := exists_of_bind_eq_ok heval
  obtain ⟨s₄, hwrap₂, heval⟩ := exists_of_bind_eq_ok heval
  obtain ⟨hrounds, hcond⟩ := Prod.mk.inj (Except.ok.inj heval)
  obtain ⟨h₁, h₂, h₃, h₄⟩ : s₁.iter.currentRound = 0 ∧ s₂.iter.currentRound = 1 ∧
      s₃.iter.currentRound = 1 ∧ s₄.iter.currentRound = 2 := by simpa using hrounds
  obtain ⟨hp, hpingable⟩ := of_decide_eq_true hcond
  obtain ⟨s₀', hstart', -, hround⟩ := iterator_rounds ⟨fun _ => 0, fun _ => 1⟩ (fun _ => .asIs)
    "app" "a" .asIs 5 5 fun _ => ⟨5, 0⟩
  obtain rfl : s₀ = s₀' := Except.ok.inj (hstart.symm.trans hstart')
  obtain ⟨hone, -⟩ := hround _ _ s₁ s₂ s₃ s₄ 3 hpre hwrap₁ (by rw [h₁, h₂]) hmid (by rw [h₂, h₃])
    hwrap₂ (by rw [h₃, h₄]) hp hpingable
  rw [h₂] at hone
  exact ⟨s₀, s₁, s₂, s₃, s₄, hstart, hpre, hwrap₁, hmid, hwrap₂, h₂, h₄, hone⟩

end Swim
end Ringpop
