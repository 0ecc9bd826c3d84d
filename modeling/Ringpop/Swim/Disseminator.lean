/-
# The disseminator

`swim/disseminator.go`, as far as it does not ask the node: the changes that wait to
be sent, each with the number of times it was sent.  `RecordChange` is the only
function that adds one, under the address of the change, so the map is keyed by the
addresses of its changes and the structure says so.

Go enumerates the map in any order, which is an `Arrangement` here.  The functions
that also read the member list are in `Ringpop.Swim.Node`.
-/

import Ringpop.Collections.Reorder
import Ringpop.Swim.Member
import Mathlib.Data.List.AList

namespace Ringpop
namespace Swim

open CellStore Reorder

/-- `pChange`. -/
structure PChange extends Change where
  p : ℕ
deriving DecidableEq, Repr

/-- `disseminator`. -/
structure Disseminator where
  changes : AList fun _ : String => PChange
  maxP : ℕ
  pFactor : ℕ
  keyed : ∀ x, ∀ c ∈ changes.lookup x, c.address = x

/-- `defaultPFactor`. -/
def defaultPFactor : ℕ := 15

namespace Disseminator

/-- `newDisseminator`. -/
def new : Disseminator where
  changes := ∅
  maxP := defaultPFactor
  pFactor := defaultPFactor
  keyed x c hc := by simp at hc

/-- The pending change of an address. -/
def entry (d : Disseminator) (x : String) : Option PChange := d.changes.lookup x

/-- `ClearChange`. -/
def clearChange (d : Disseminator) (address : String) : Disseminator :=
  { d with
    changes := d.changes.erase address
    keyed := fun x c hc => by
      by_cases hx : x = address
      · subst hx
        simp at hc
      · rw [AList.lookup_erase_ne hx] at hc
        exact d.keyed x c hc }

/-- Bind a change to its address. -/
def put (d : Disseminator) (c : PChange) : Disseminator :=
  { d with
    changes := d.changes.insert c.address c
    keyed := fun x c' hc' => by
      by_cases hx : x = c.address
      · subst hx
        rw [AList.lookup_insert, Option.mem_some_iff] at hc'
        rw [← hc']
      · rw [AList.lookup_insert_ne hx] at hc'
        exact d.keyed x c' hc' }

/-- `RecordChange`. -/
def recordChange (d : Disseminator) (change : Change) : Disseminator := d.put ⟨change, 0⟩

/-- The body of the loop of `bumpPiggybackCounters`. -/
def bump (d : Disseminator) (change : Change) : Disseminator :=
  match d.entry change.address with
  | none => d
  | some c =>
      if c.p + 1 ≥ d.maxP then d.clearChange c.address
      else d.put { c with p := c.p + 1 }

/-- `bumpPiggybackCounters`. -/
def bumpPiggybackCounters (d : Disseminator) (changes : List Change) : Disseminator :=
  changes.foldl bump d

/-- `issueChanges`, with the order in which the map is enumerated. -/
def issueChanges (d : Disseminator) (o : Arrangement Change) : List Change :=
  o.arrange (d.changes.entries.map fun e => e.2.toChange)

end Disseminator

/-- The change came from the sender: the test of `filterChangesFromSender`. -/
def Change.isFrom (source : String) (incarnation : ℤ) (c : Change) : Bool :=
  incarnation = c.sourceIncarnation && source = c.source

/-- `filterChangesFromSender`.  Returns what is left, and what was filtered. -/
def filterChangesFromSender (cs : List Change) (source : String) (incarnation : ℤ) :
    Except Fault (List Change × List Change) := do
  let v ← filterSwap (Change.isFrom source incarnation) cs
  return (v.slice, v.dropped)

/-! ### The entry of one address -/

namespace Disseminator

variable {d : Disseminator} {c : Change} {x : String}

/-- One more time sent: the counter goes up, or the change is done. -/
def raise (maxP : ℕ) (c : PChange) : Option PChange :=
  if c.p + 1 ≥ maxP then none else some { c with p := c.p + 1 }

theorem raise_toChange {maxP : ℕ} {c c' : PChange} (h : raise maxP c = some c') :
    c'.toChange = c.toChange := by
  rw [raise] at h
  split_ifs at h
  obtain rfl := Option.some.inj h
  rfl

theorem address_of_entry {pc : PChange} (h : d.entry x = some pc) : pc.address = x :=
  d.keyed x pc h

theorem entry_put (d : Disseminator) (c : PChange) (x : String) :
    (d.put c).entry x = if x = c.address then some c else d.entry x := by
  split_ifs with hx
  · subst hx
    exact AList.lookup_insert _
  · exact AList.lookup_insert_ne hx

theorem entry_clearChange (d : Disseminator) (a x : String) :
    (d.clearChange a).entry x = if x = a then none else d.entry x := by
  split_ifs with hx
  · subst hx
    exact AList.lookup_erase _ _
  · exact AList.lookup_erase_ne hx

/-- Dropping the changes of several addresses, but for one of them. -/
theorem entry_foldl_clearChange (d : Disseminator) (a : String) (cs : List Change) (x : String) :
    (cs.foldl (fun (d : Disseminator) c =>
      if c.address = a then d else d.clearChange c.address) d).entry x =
      if x ≠ a ∧ ∃ c ∈ cs, c.address = x then none else d.entry x := by
  induction cs generalizing d with
  | nil => simp
  | cons c cs ih =>
    have hone : (if c.address = a then d else d.clearChange c.address).entry x =
        if x ≠ a ∧ c.address = x then none else d.entry x := by
      by_cases hc : c.address = a
      · rw [if_pos hc, if_neg (fun h => h.1 (h.2.symm.trans hc))]
      · rw [if_neg hc, entry_clearChange]
        by_cases hx : x = c.address
        · rw [if_pos hx, if_pos ⟨fun h => hc (hx.symm.trans h), hx.symm⟩]
        · rw [if_neg hx, if_neg (fun h => hx h.2.symm)]
    rw [List.foldl_cons, ih, hone]
    by_cases hxa : x = a
    · simp [hxa]
    · by_cases hx : c.address = x
      · simp [hx, hxa]
      · simp [hx]

/-- Record changes one after the other, seen from the entries. -/
def recorded (P : String → Option PChange) (changes : List Change) : String → Option PChange :=
  changes.foldl (fun P c => Function.update P c.address (some ⟨c, 0⟩)) P

theorem recorded_append (P : String → Option PChange) (changes : List Change) (c : Change) :
    recorded P (changes ++ [c]) =
      Function.update (recorded P changes) c.address (some ⟨c, 0⟩) := by
  rw [recorded, List.foldl_append]
  rfl

/-- The last change of an address is the one that is recorded. -/
theorem recorded_eq (P : String → Option PChange) (changes : List Change) (x : String) :
    recorded P changes x =
      ((changes.filter (·.address = x)).getLast?).elim (P x) fun c => some ⟨c, 0⟩ := by
  induction changes generalizing P with
  | nil => rfl
  | cons c changes ih =>
    refine (ih _).trans ?_
    dsimp only
    by_cases hx : c.address = x
    · subst hx
      rw [List.filter_cons_of_pos (by simp), List.getLast?_cons, Function.update_self]
      cases (changes.filter (·.address = c.address)).getLast? <;> rfl
    · rw [List.filter_cons_of_neg (by simpa using hx), Function.update_of_ne (Ne.symm hx)]

theorem recorded_of_address_ne {changes : List Change} {x : String}
    (h : ∀ c ∈ changes, c.address ≠ x) (P : String → Option PChange) :
    recorded P changes x = P x := by
  have hfilter : changes.filter (·.address = x) = [] :=
    List.filter_eq_nil_iff.2 fun c hc hcx => h c hc (of_decide_eq_true hcx)
  rw [recorded_eq, hfilter]
  rfl

theorem entry_recordChange (d : Disseminator) (c : Change) :
    (d.recordChange c).entry = recorded d.entry [c] := by
  funext x
  rw [recordChange, entry_put]
  exact (Function.update_apply ..).symm

@[simp] theorem bump_maxP (d : Disseminator) (c : Change) : (d.bump c).maxP = d.maxP := by
  rw [bump]
  split
  · rfl
  · split_ifs <;> rfl

/-- **One bump** raises the entry of one address. -/
theorem entry_bump (d : Disseminator) (c : Change) (x : String) :
    (d.bump c).entry x =
      if x = c.address then (d.entry x).bind (raise d.maxP) else d.entry x := by
  rw [bump]
  cases hc : d.entry c.address with
  | none =>
    split_ifs with hx
    · rw [hx, hc]
      rfl
    · rfl
  | some pc =>
    have haddr : pc.address = c.address := address_of_entry hc
    by_cases hmax : pc.p + 1 ≥ d.maxP
    · simp only [hmax, if_true, entry_clearChange, haddr]
      split_ifs with hx
      · rw [hx, hc, Option.bind_some, raise, if_pos hmax]
      · rfl
    · simp only [hmax, if_false, entry_put, haddr]
      split_ifs with hx
      · rw [hx, hc, Option.bind_some, raise, if_neg hmax]
      · rfl

theorem bumpPiggybackCounters_cons (d : Disseminator) (c : Change) (cs : List Change) :
    d.bumpPiggybackCounters (c :: cs) = (d.bump c).bumpPiggybackCounters cs := rfl

/-- Addresses that are not in the list keep their entries. -/
theorem entry_bumpPiggybackCounters_of_notMem {cs : List Change}
    (hx : x ∉ cs.map Change.address) : (d.bumpPiggybackCounters cs).entry x = d.entry x := by
  induction cs generalizing d with
  | nil => rfl
  | cons c cs ih =>
    rw [List.map_cons, List.mem_cons, not_or] at hx
    rw [bumpPiggybackCounters_cons, ih hx.2, entry_bump, if_neg hx.1]

/-- **Bumping changes of different addresses** raises each of their entries once, and
no other. -/
theorem entry_bumpPiggybackCounters {cs : List Change} (hcs : (cs.map Change.address).Nodup)
    (d : Disseminator) (x : String) :
    (d.bumpPiggybackCounters cs).entry x =
      if x ∈ cs.map Change.address then (d.entry x).bind (raise d.maxP) else d.entry x := by
  induction cs generalizing d with
  | nil => rfl
  | cons c cs ih =>
    rw [List.map_cons, List.nodup_cons] at hcs
    rw [bumpPiggybackCounters_cons]
    by_cases hx : x = c.address
    · subst hx
      rw [entry_bumpPiggybackCounters_of_notMem hcs.1, entry_bump, if_pos rfl, List.map_cons,
        if_pos (.head _)]
    · rw [ih hcs.2, entry_bump, if_neg hx, bump_maxP, List.map_cons]
      simp only [List.mem_cons, hx, false_or]

/-- **Bumping** makes no change: what is pending afterwards was pending before. -/
theorem of_entry_bumpPiggybackCounters {cs : List Change} {pc : PChange}
    (h : (d.bumpPiggybackCounters cs).entry x = some pc) :
    ∃ pc₀, d.entry x = some pc₀ ∧ pc.toChange = pc₀.toChange := by
  induction cs generalizing d with
  | nil => exact ⟨pc, h, rfl⟩
  | cons c cs ih =>
    obtain ⟨pc₁, h₁, heq⟩ := ih h
    rw [entry_bump] at h₁
    split_ifs at h₁
    · obtain ⟨pc₀, h₀, hraise⟩ := Option.bind_eq_some_iff.1 h₁
      exact ⟨pc₀, h₀, heq.trans (raise_toChange hraise)⟩
    · exact ⟨pc₁, h₁, heq⟩

/-- **What is issued** is what is pending. -/
theorem mem_issueChanges {o : Arrangement Change} :
    c ∈ d.issueChanges o ↔ ∃ pc, d.entry c.address = some pc ∧ pc.toChange = c := by
  rw [issueChanges, Arrangement.mem_arrange, List.mem_map]
  constructor
  · rintro ⟨⟨k, pc⟩, he, rfl⟩
    have hpc : d.entry k = some pc := AList.mem_lookup_iff.2 he
    exact ⟨pc, by rw [address_of_entry hpc]; exact hpc, rfl⟩
  · rintro ⟨pc, hpc, rfl⟩
    exact ⟨⟨_, pc⟩, AList.mem_lookup_iff.1 hpc, rfl⟩

/-- Each address is issued once. -/
theorem nodup_issueChanges (d : Disseminator) (o : Arrangement Change) :
    ((d.issueChanges o).map Change.address).Nodup := by
  have hperm := (o.perm (d.changes.entries.map fun e => e.2.toChange)).map Change.address
  refine hperm.nodup_iff.2 ?_
  have hkeys : (d.changes.entries.map fun e => e.2.toChange).map Change.address =
      d.changes.entries.map Sigma.fst := by
    rw [List.map_map]
    refine List.map_congr_left fun e he => ?_
    obtain ⟨k, pc⟩ := e
    exact d.keyed k pc (AList.mem_lookup_iff.2 he)
  rw [hkeys]
  exact d.changes.keys_nodup

end Disseminator

/-- **`filterChangesFromSender`** returns the changes that did not come from the sender,
in some order. -/
theorem filterChangesFromSender_spec (cs : List Change) (source : String) (incarnation : ℤ) :
    ∃ kept filtered, filterChangesFromSender cs source incarnation = .ok (kept, filtered) ∧
      kept.Perm (cs.filter (! Change.isFrom source incarnation ·)) ∧
      filtered.Perm (cs.filter (Change.isFrom source incarnation)) := by
  obtain ⟨v, hrun, -, hslice, hdropped⟩ := filterSwap_spec (Change.isFrom source incarnation) cs
  exact ⟨v.slice, v.dropped, by rw [filterChangesFromSender, hrun]; rfl, hslice, hdropped⟩

end Swim
end Ringpop
