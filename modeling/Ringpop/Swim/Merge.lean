/-
# Merging changes is a join

Entries and changes are ordered by their incarnation and then by their status,
`alive < suspect < faulty < leave` (`Rank`), and `nonLocalOverride` is that order
(`nonLocalOverride_eq`).  For an address that is not the node's own, `Update`
keeps the larger of the entry and the change.  Larger-of-two is associative,
commutative and idempotent, so after any number of `Update`s the entry is the
maximum of where it started and of all changes for the address, however they were
ordered, repeated and cut into batches (`View.rank_run`, and for calls of `Update` on a
node `update_is_join` in `Ringpop.Swim.NodeEffect`).

With valid statuses the loop of `Update` does not panic.
-/

import Ringpop.Swim.View
import Mathlib.Data.Finset.Lattice.Fold
import Mathlib.Data.Prod.Lex
import Mathlib.Order.WithBot

namespace Ringpop
namespace Swim

open CellStore Runs

/-! ### The order of the statuses -/

/-- The valid statuses. -/
inductive Status where
  | alive
  | suspect
  | faulty
  | leave
deriving DecidableEq, Repr

namespace Status

/-- The string of a status. -/
def name : Status → String
  | alive => Swim.alive
  | suspect => Swim.suspect
  | faulty => Swim.faulty
  | leave => Swim.leave

/-- The status of a string, if it has one. -/
def ofName (s : String) : Option Status :=
  if s = Swim.alive then some alive
  else if s = Swim.suspect then some suspect
  else if s = Swim.faulty then some faulty
  else if s = Swim.leave then some leave
  else none

/-- The place of a status in the order. -/
def precedence : Status → ℕ
  | alive => 0
  | suspect => 1
  | faulty => 2
  | leave => 3

theorem precedence_injective : Function.Injective precedence := by
  intro s t h
  cases s <;> cases t <;> first | rfl | cases h

instance : LinearOrder Status := LinearOrder.lift' precedence precedence_injective

theorem lt_iff_precedence {s t : Status} : s < t ↔ s.precedence < t.precedence := Iff.rfl

@[simp] theorem ofName_name (s : Status) : ofName s.name = some s := by
  cases s <;> rfl

theorem name_of_ofName {s : String} {t : Status} (h : ofName s = some t) : t.name = s := by
  unfold ofName at h
  split_ifs at h with h₁ h₂ h₃ h₄ <;> obtain rfl := Option.some.inj h
  · exact h₁.symm
  · exact h₂.symm
  · exact h₃.symm
  · exact h₄.symm

/-- `statePrecedence` does not panic on a valid status. -/
theorem statePrecedence_name (s : Status) : statePrecedence s.name = .ok s.precedence := by
  cases s <;> rfl

end Status

/-- The string is one of the four statuses. -/
def ValidStatus (s : String) : Prop := (Status.ofName s).isSome

instance (s : String) : Decidable (ValidStatus s) := inferInstanceAs (Decidable (_ = true))

theorem validStatus_name (s : Status) : ValidStatus s.name := by
  simp [ValidStatus]

theorem ValidStatus.exists_name {s : String} (h : ValidStatus s) : ∃ t : Status, s = t.name := by
  obtain ⟨t, ht⟩ := Option.isSome_iff_exists.1 h
  exact ⟨t, (Status.name_of_ofName ht).symm⟩

/-- An incarnation and a status. -/
structure Rank where
  incarnation : ℤ
  status : Status
deriving DecidableEq

namespace Rank

/-- The incarnation first. -/
def key (r : Rank) : ℤ ×ₗ Status := toLex (r.incarnation, r.status)

theorem key_injective : Function.Injective key := by
  intro r r' h
  obtain ⟨hi, hs⟩ := Prod.mk.inj (toLex.injective h)
  cases r
  cases r'
  exact congrArg₂ Rank.mk hi hs

instance : LinearOrder Rank :=
  @LinearOrder.lift' Rank (ℤ ×ₗ Status)
    (@Prod.Lex.instLinearOrder ℤ Status Int.instLinearOrder inferInstance) key key_injective

theorem lt_iff {r r' : Rank} : r < r' ↔ r.incarnation < r'.incarnation ∨
    r.incarnation = r'.incarnation ∧ r.status < r'.status :=
  Prod.Lex.toLex_lt_toLex

end Rank

/-- The rank of an incarnation with a status, below all ranks if the status is
not valid. -/
def rankOf (incarnation : ℤ) (status : String) : WithBot Rank :=
  match Status.ofName status with
  | some s => (⟨incarnation, s⟩ : Rank)
  | none => ⊥

theorem rankOf_name (i : ℤ) (s : Status) : rankOf i s.name = (⟨i, s⟩ : Rank) := by
  rw [rankOf, Status.ofName_name]

/-- The rank of a member. -/
def Member.rank (m : Member) : WithBot Rank := rankOf m.incarnation m.status

/-- The rank of a change. -/
def Change.rank (c : Change) : WithBot Rank := rankOf c.incarnation c.status

@[simp] theorem Change.member_rank (c : Change) : c.member.rank = c.rank := rfl

/-- **`nonLocalOverride` is the order of the ranks.** -/
theorem nonLocalOverride_eq {m : Member} {c : Change} (hm : ValidStatus m.status)
    (hc : ValidStatus c.status) : m.nonLocalOverride c = .ok (decide (m.rank < c.rank)) := by
  obtain ⟨s, hs⟩ := hm.exists_name
  obtain ⟨t, ht⟩ := hc.exists_name
  have hlt : m.rank < c.rank ↔ m.incarnation < c.incarnation ∨
      m.incarnation = c.incarnation ∧ s.precedence < t.precedence := by
    rw [Member.rank, Change.rank, hs, ht, rankOf_name, rankOf_name, WithBot.coe_lt_coe,
      Rank.lt_iff, Status.lt_iff_precedence]
  rw [Member.nonLocalOverride]
  rcases lt_trichotomy m.incarnation c.incarnation with h | h | h
  · rw [if_pos h, decide_eq_true (hlt.2 (.inl h))]
    rfl
  · rw [if_neg (by omega), if_neg (by omega), hs, ht, Status.statePrecedence_name,
      Status.statePrecedence_name]
    simp only [hlt, h, lt_self_iff_false, true_and, false_or]
    rfl
  · have hnot : ¬ m.rank < c.rank := by
      rw [hlt]
      omega
    rw [if_neg (by omega), if_pos h, decide_eq_false hnot]
    rfl

/-- What a change brings to an address. -/
def Change.rankFor (x : String) (c : Change) : WithBot Rank := if c.address = x then c.rank else ⊥

/-- The member of an address with a rank; no member for the lowest rank. -/
def memberOf (x : String) : WithBot Rank → Option Member
  | ⊥ => none
  | (r : Rank) => some ⟨x, r.status.name, r.incarnation⟩

/-! ### The ranks of a view -/

namespace View

/-- Every entry has a valid status. -/
def Valid (V : View) : Prop := ∀ x member, V x = some member → ValidStatus member.status

/-- Every entry is a member of its address, with a valid status. -/
structure Sound (V : View) : Prop where
  address_eq : ∀ x member, V x = some member → member.address = x
  valid : V.Valid

theorem valid_new : Valid Memberlist.new.entry := by
  intro x member h
  cases h

/-- The rank of an entry, the lowest where there is none. -/
def rank (V : View) (x : String) : WithBot Rank := (V x).elim ⊥ Member.rank

/-- A sound view is determined by its ranks. -/
theorem Sound.eq_memberOf {V : View} (hV : V.Sound) (x : String) : V x = memberOf x (V.rank x) := by
  cases hx : V x with
  | none => simp [rank, hx, memberOf]
  | some member =>
    obtain rfl := hV.address_eq x member hx
    obtain ⟨s, hs⟩ := (hV.valid _ _ hx).exists_name
    have hrank : V.rank member.address = (⟨member.incarnation, s⟩ : Rank) := by
      simp [rank, hx, Member.rank, hs, rankOf_name]
    rw [hrank]
    simp [memberOf, ← hs]

section run

variable {localAddress : String} {choice : Choice} {V : View} {applied : List Change}
  {c : Change} {s' : View × List Change}

/-- Applying a change with a valid status keeps a view sound. -/
theorem Sound.take (hV : V.Sound) (hc : ValidStatus c.status) :
    (take (V, applied) (some c)).1.Sound := by
  refine ⟨fun x member hx => ?_, fun x member hx => ?_⟩ <;>
    rcases take_cases hx with ⟨rfl, rfl⟩ | ⟨-, hx'⟩
  · rfl
  · exact hV.address_eq x member hx'
  · exact hc
  · exact hV.valid x member hx'

/-- What becomes of a change for a known address, in the order of the ranks. -/
theorem Sound.outcome_eq (hV : V.Sound) (hc : ValidStatus c.status) {member : Member}
    (hm : V c.address = some member) :
    outcome localAddress choice (some member) c =
      .ok (if member.localOverride localAddress c then
          some { c with incarnation := choice.now, status := alive }
        else if member.rank < c.rank then some c else none) := by
  rw [outcome, nonLocalOverride_eq (hV.valid _ _ hm) hc]
  split_ifs with hloc hlt
  · rfl
  · simp [Except.map, hlt]
  · simp [Except.map, hlt]

/-- **One change** with a valid status does not panic and keeps the view sound. -/
theorem Sound.step (hV : V.Sound) (localAddress : String) (choice : Choice)
    (applied : List Change) (hc : ValidStatus c.status) :
    ∃ s', step localAddress (V, applied) c choice = .ok s' ∧ s'.1.Sound := by
  have hok : ∃ o, outcome localAddress choice (V c.address) c = .ok o := by
    cases hm : V c.address with
    | none => exact ⟨_, rfl⟩
    | some member => exact ⟨_, hV.outcome_eq hc hm⟩
  obtain ⟨o, ho⟩ := hok
  refine ⟨View.take (V, applied) o, by rw [View.step, ho]; rfl, ?_⟩
  cases o with
  | none => exact hV
  | some c' =>
    obtain ⟨-, rfl | halive⟩ := outcome_cases ho
    · exact hV.take hc
    · exact hV.take (halive ▸ validStatus_name .alive)

/-- **One change** leaves the larger of the entry and the change. -/
theorem rank_step (hV : V.Sound) (hc : ValidStatus c.status)
    (hs' : View.step localAddress (V, applied) c choice = .ok s') {x : String}
    (hx : x ≠ localAddress) : s'.1.rank x = V.rank x ⊔ c.rankFor x := by
  by_cases hcx : c.address = x
  · subst hcx
    rw [Change.rankFor, if_pos rfl]
    cases hm : V c.address with
    | none =>
      simp only [View.step, hm] at hs'
      obtain rfl := Except.ok.inj hs'
      simp [View.take, rank, hm]
    | some member =>
      have hloc : member.localOverride localAddress c = false := by
        rw [Member.localOverride, if_pos ((hV.address_eq _ _ hm) ▸ hx)]
      simp only [View.step, hm, hV.outcome_eq hc hm, hloc] at hs'
      obtain rfl := Except.ok.inj hs'
      by_cases hlt : member.rank < c.rank
      · simp [View.take, rank, hm, hlt, sup_eq_right.2 hlt.le]
      · simp [View.take, rank, hm, hlt, sup_eq_left.2 (not_lt.1 hlt)]
  · rw [Change.rankFor, if_neg hcx, sup_bot_eq]
    rcases step_cases hs' with rfl | ⟨c', -, haddr, -, rfl⟩
    · rfl
    · have hc'x : x ≠ c'.address := fun h => hcx (haddr.symm.trans h.symm)
      simp [View.take, rank, hc'x]

/-- The changes joined one after the other, and all at once. -/
theorem foldl_sup (l : List (Change × ℕ)) (r : String → WithBot Rank) :
    l.foldl (fun r ci x => r x ⊔ ci.1.rankFor x) r =
      fun x => r x ⊔ (l.map Prod.fst).toFinset.sup (Change.rankFor x) := by
  induction l generalizing r with
  | nil => simp
  | cons ci l ih =>
    rw [List.foldl_cons, ih]
    funext x
    rw [List.map_cons, List.toFinset_cons, Finset.sup_insert, sup_assoc]

/-- **A batch of changes** leaves the largest of the entry and the changes. -/
theorem rank_run (hV : V.Sound) (localAddress : String) (choices : ℕ → Choice)
    {changes : List Change} (hchanges : ∀ c ∈ changes, ValidStatus c.status) :
    ∃ s', View.run localAddress choices V changes = .ok s' ∧ s'.1.Sound ∧
      ∀ x ≠ localAddress, s'.1.rank x = V.rank x ⊔ changes.toFinset.sup (Change.rankFor x) := by
  obtain ⟨s', hrun, hs', hrank⟩ := foldlM_refines (l := changes.zipIdx) (s := (V, []))
    (f := fun s ci => View.step localAddress s ci.1 (choices ci.2))
    (R := fun s r => s.1.Sound ∧ ∀ x ≠ localAddress, s.1.rank x = r x)
    (g := fun r ci x => r x ⊔ ci.1.rankFor x) (t := V.rank)
    (by
      rintro ⟨W, applied⟩ r ci hci ⟨hW, hr⟩
      have hc := hchanges _ (List.fst_mem_of_mem_zipIdx hci)
      obtain ⟨s', hs', hsound⟩ := hW.step localAddress (choices ci.2) applied hc
      exact ⟨s', hs', hsound, fun x hx => by rw [rank_step hW hc hs' hx, hr x hx]⟩)
    ⟨hV, fun x _ => rfl⟩
  refine ⟨s', hrun, hs', fun x hx => ?_⟩
  rw [hrank x hx, foldl_sup, List.zipIdx_map_fst]

end run

end View

theorem Memberlist.Sound.view {m : Memberlist} (h : m.Sound) (hvalid : View.Valid m.entry) :
    View.Sound m.entry :=
  ⟨fun _ _ => h.address_eq, hvalid⟩

/-- The changes of several calls of `Update`. -/
def delivered (batches : List Batch) : Finset Change := (batches.flatMap Batch.changes).toFinset

theorem delivered_cons (b : Batch) (batches : List Batch) :
    delivered (b :: batches) = b.changes.toFinset ∪ delivered batches := by
  simp [delivered]

end Swim
end Ringpop
