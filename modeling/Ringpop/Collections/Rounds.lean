/-
# Going round a list that grows

Somebody looks through a list, element after element, and returns some of them.  At the
end of the list a new round begins, with the list in another order.  Meanwhile elements
are put into the list, at any place: before the place that has been reached too, which
then shows an element again that was seen.

`Step p` is what may happen as long as the element `p` is not passed over.  The number of
times that `p` was returned in a round, and the number of places where it is still to
come, are one together at the beginning of the round, do not get fewer, and stay what
they are if nothing is put in (`Tracks`).  So in each round `p` is returned, and once if
the list did not grow (`Tracks.count_of_wrap`).

It does not take long: counted from anywhere, `p` is among the first that are returned, twice
as many as the list then has (`Awaits.length_lt`).
-/

import Mathlib.Data.List.Count
import Mathlib.Data.List.Nodup
import Mathlib.Order.Nat

namespace Rounds

variable {α : Type}

/-- The list, how many elements of it were seen in this round, the round, and what was
returned, each with its round. -/
structure Scan (α : Type) where
  list : List α
  seen : ℕ
  round : ℕ
  returned : List (ℕ × α)

namespace Scan

/-- What is still to be seen in this round. -/
def rest (s : Scan α) : List α := s.list.drop s.seen

/-- What may happen without `p` being passed over: the list grows, or elements are seen
of which the last may be returned, with or without the end of the list in between. -/
inductive Step (p : α) : Scan α → Scan α → Prop where
  | grow (s : Scan α) (l : List α) (hl : s.list.Sublist l) : Step p s { s with list := l }
  | look (s : Scan α) (passed : List α) (found : Option α) (seen : ℕ)
      (hrest : s.rest = passed ++ (found.toList ++ s.list.drop seen)) (hp : p ∉ passed) :
      Step p s ⟨s.list, seen, s.round, s.returned ++ found.toList.map (s.round, ·)⟩
  | wrap (s : Scan α) (l passed : List α) (found : Option α) (seen : ℕ) (hrest : p ∉ s.rest)
      (hperm : l.Perm s.list) (hl : l = passed ++ (found.toList ++ l.drop seen))
      (hp : p ∉ passed) :
      Step p s ⟨l, seen, s.round + 1, s.returned ++ found.toList.map (s.round + 1, ·)⟩

/-- Rounds follow each other. -/
theorem Step.round_le {p : α} {s s' : Scan α} (h : Step p s s') : s.round ≤ s'.round := by
  cases h with
  | grow => exact le_rfl
  | look => exact le_rfl
  | wrap => exact Nat.le_succ _

variable {p : α} {r N : ℕ} {s s' : Scan α}

/-- `p` was not among those that were returned, from the beginning of the count on: it is still
to come in this round, or this is the round in which the count began. -/
def Awaits (p : α) (s : Scan α) : Prop :=
  p ∈ s.list ∧ (p ∈ s.rest ∧ s.returned.length ≤ s.list.length + s.seen ∨
    s.returned.length ≤ s.seen)

/-- **A step** that does not return `p`. -/
theorem Awaits.step (h : Awaits p s) (hseen : s.seen ≤ s.list.length) (hstep : Step p s s')
    (hp : ∀ r, (r, p) ∉ s'.returned) : Awaits p s' := by
  obtain ⟨hmem, hcase⟩ := h
  cases hstep with
  | grow l hl =>
    refine ⟨hl.subset hmem, hcase.imp (fun hrest => ⟨(hl.drop s.seen).subset hrest.1, ?_⟩) id⟩
    have := hl.length_le
    dsimp only
    omega
  | look passed found seen hrest hpassed =>
    have hlength := congrArg List.length hrest
    simp only [rest, List.length_append, List.length_drop] at hlength
    refine ⟨hmem, hcase.imp (fun hleft => ⟨?_, ?_⟩) fun hle => ?_⟩
    · rw [hrest, List.mem_append, List.mem_append] at hleft
      refine (hleft.1.resolve_left hpassed).resolve_left fun hfound => hp s.round ?_
      exact List.mem_append_right _ (List.mem_map_of_mem hfound)
    · simp only [List.length_append, List.length_map]
      omega
    · simp only [List.length_append, List.length_map]
      omega
  | wrap l passed found seen hrest hperm hl hpassed =>
    have hle := hcase.resolve_left fun hleft => hrest hleft.1
    have hlength := congrArg List.length hl
    have hsame := hperm.length_eq
    simp only [List.length_append, List.length_drop] at hlength
    have hmem' : p ∈ l := hperm.mem_iff.2 hmem
    refine ⟨hmem', .inl ⟨?_, ?_⟩⟩
    · rw [hl, List.mem_append, List.mem_append] at hmem'
      refine (hmem'.resolve_left hpassed).resolve_left fun hfound => hp (s.round + 1) ?_
      exact List.mem_append_right _ (List.mem_map_of_mem hfound)
    · simp only [List.length_append, List.length_map]
      omega

/-- **As long as `p` was not returned**, fewer were than twice the length of the list. -/
theorem Awaits.length_lt (h : Awaits p s) (hseen : s.seen ≤ s.list.length) :
    s.returned.length < 2 * s.list.length := by
  obtain ⟨hmem, ⟨hrest, hle⟩ | hle⟩ := h
  · have hpos := List.length_pos_of_mem hrest
    rw [rest, List.length_drop] at hpos
    omega
  · have hpos := List.length_pos_of_mem hmem
    omega

variable [DecidableEq α]

/-- How often `p` was returned in round `r`, and is still to come. -/
def balance (r : ℕ) (p : α) (s : Scan α) : ℕ := s.returned.count (r, p) + s.rest.count p

theorem count_map_found (found : Option α) (r r' : ℕ) (p : α) :
    (found.toList.map (r, ·)).count (r', p) = if r = r' then found.toList.count p else 0 := by
  cases found with
  | none => simp
  | some q =>
    by_cases hr : r = r'
    · by_cases hq : q = p <;> simp [hr, hq]
    · simp [hr]

/-- In round `r`, which began with `N` elements, `p` was returned or is still to come, and
not both if the list has not grown. -/
structure Tracks (p : α) (r N : ℕ) (s : Scan α) : Prop where
  round_eq : s.round = r
  length_le : N ≤ s.list.length
  one_le : 1 ≤ s.balance r p
  eq_one : s.list.length = N → s.balance r p = 1

/-- **A round begins**, with everything still to come. -/
theorem tracks_of_wrap (h : Step p s s') (hround : s'.round = s.round + 1) (hp : p ∈ s.list)
    (hnodup : s.list.Nodup) (hreturned : ∀ e ∈ s.returned, e.1 ≤ s.round) :
    Tracks p s'.round s.list.length s' := by
  cases h with
  | grow l hl => simp at hround
  | look passed found seen hrest hpassed => simp at hround
  | wrap l passed found seen hrest hperm hl hpassed =>
    have hcount : l.count p = 1 :=
      (hperm.count_eq p).trans (List.count_eq_one_of_mem hnodup hp)
    have hbefore : s.returned.count (s.round + 1, p) = 0 :=
      List.count_eq_zero_of_not_mem fun hmem => absurd (hreturned _ hmem) (by simp)
    have hbalance : balance (s.round + 1) p
        ⟨l, seen, s.round + 1, s.returned ++ found.toList.map (s.round + 1, ·)⟩ = 1 := by
      rw [hl, List.count_append, List.count_append, List.count_eq_zero_of_not_mem hpassed,
        Nat.zero_add] at hcount
      rw [balance, rest, List.count_append, hbefore, count_map_found, if_pos rfl, Nat.zero_add]
      exact hcount
    exact ⟨rfl, hperm.length_eq.ge, hbalance.ge, fun _ => hbalance⟩

/-- **A step** keeps track of `p`, until the round ends. -/
theorem Tracks.step (h : Tracks p r N s) (hstep : Step p s s') :
    r < s'.round ∨ Tracks p r N s' := by
  have hr := h.round_eq
  subst hr
  cases hstep with
  | grow l hl =>
    have hle : s.balance s.round p ≤ balance s.round p { s with list := l } :=
      Nat.add_le_add_left ((hl.drop s.seen).count_le p) _
    refine .inr ⟨rfl, h.length_le.trans hl.length_le, h.one_le.trans hle, fun hlength => ?_⟩
    have hN : s.list.length = N := le_antisymm (hl.length_le.trans hlength.le) h.length_le
    obtain rfl : s.list = l := hl.eq_of_length (hN.trans hlength.symm)
    exact h.eq_one hN
  | look passed found seen hrest hp =>
    have hbalance : balance s.round p ⟨s.list, seen, s.round,
        s.returned ++ found.toList.map (s.round, ·)⟩ = s.balance s.round p := by
      rw [balance, balance, hrest, List.count_append, List.count_append, List.count_append,
        count_map_found, if_pos rfl, List.count_eq_zero_of_not_mem hp, Nat.zero_add, Nat.add_assoc]
      rfl
    refine .inr ⟨rfl, h.length_le, ?_, fun hlength => ?_⟩
    · rw [hbalance]
      exact h.one_le
    · rw [hbalance]
      exact h.eq_one hlength
  | wrap => exact .inl (Nat.lt_succ_self _)

/-- **A round ends** when nothing is still to come: `p` was returned in it, and once if
the list has not grown. -/
theorem Tracks.count_of_wrap (h : Tracks p r N s) (hstep : Step p s s')
    (hround : s'.round = s.round + 1) :
    1 ≤ s'.returned.count (r, p) ∧ (s.list.length = N → s'.returned.count (r, p) = 1) := by
  have hr := h.round_eq
  subst hr
  cases hstep with
  | grow l hl => simp at hround
  | look passed found seen hrest hp => simp at hround
  | wrap l passed found seen hrest hperm hl hp =>
    have hbalance : s.balance s.round p = s.returned.count (s.round, p) := by
      rw [balance, List.count_eq_zero_of_not_mem hrest, Nat.add_zero]
    have hcount : (s.returned ++ found.toList.map (s.round + 1, ·)).count (s.round, p) =
        s.balance s.round p := by
      rw [List.count_append, count_map_found, if_neg (by omega), hbalance, Nat.add_zero]
    simp only [hcount]
    exact ⟨h.one_le, h.eq_one⟩

end Scan

end Rounds
