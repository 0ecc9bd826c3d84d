/-
# Words written one after the other

When a text that is made of words determines the words.  A word that does not have the
letter `d` in it is known by a `d` that follows it, so a list of such words is known by its
text if each is ended by a `d` (`eq_of_ended_eq`), or if there is a `d` between two of them and
the list is not empty (`eq_of_intercalate_eq`).  A tail of letters of one kind, behind a
letter that is not of that kind, is known by the kind (`append_inj_of_kind`).
-/

import Mathlib.Data.List.Basic

namespace Words

variable {α : Type} {d : α} {w v r r' s t : List α}

/-- The text of a list of words, each ended by `d`. -/
def ended (d : α) (ws : List (List α)) : List α := ws.flatMap (· ++ [d])

theorem append_cons_inj (hw : d ∉ w) (hv : d ∉ v) (h : w ++ d :: r = v ++ d :: r') :
    w = v ∧ r = r' := by
  induction w generalizing v with
  | nil =>
    cases v with
    | nil => exact ⟨rfl, (List.cons.inj h).2⟩
    | cons b v =>
      rw [List.mem_cons, not_or] at hv
      exact absurd (List.cons.inj h).1 hv.1
  | cons a w ih =>
    rw [List.mem_cons, not_or] at hw
    cases v with
    | nil => exact absurd (List.cons.inj h).1.symm hw.1
    | cons b v =>
      rw [List.mem_cons, not_or] at hv
      obtain ⟨rfl, hrest⟩ := List.cons.inj h
      obtain ⟨rfl, hr⟩ := ih hw.2 hv.2 hrest
      exact ⟨rfl, hr⟩

/-- **Words that are ended by a letter** they do not have are known by their text. -/
theorem eq_of_ended_eq {ws vs : List (List α)} (hws : ∀ w ∈ ws, d ∉ w) (hvs : ∀ v ∈ vs, d ∉ v)
    (h : ended d ws = ended d vs) : ws = vs := by
  induction ws generalizing vs with
  | nil =>
    cases vs with
    | nil => rfl
    | cons v vs => simp [ended] at h
  | cons w ws ih =>
    cases vs with
    | nil => simp [ended] at h
    | cons v vs =>
      rw [List.forall_mem_cons] at hws hvs
      simp only [ended, List.flatMap_cons, List.append_assoc, List.singleton_append] at h
      obtain ⟨rfl, hrest⟩ := append_cons_inj hws.1 hvs.1 h
      rw [ih hws.2 hvs.2 hrest]

/-- A `d` at the end makes words that are joined by `d` words that are ended by it. -/
theorem intercalate_append {ws : List (List α)} (hws : ws ≠ []) :
    [d].intercalate ws ++ [d] = ended d ws := by
  induction ws with
  | nil => exact absurd rfl hws
  | cons w ws ih =>
    cases ws with
    | nil => simp [ended]
    | cons v ws =>
      rw [List.intercalate_cons_cons, List.append_assoc, ih (List.cons_ne_nil v ws)]
      simp [ended]

/-- **Words that are joined by a letter** they do not have are known by their text, if there
are any. -/
theorem eq_of_intercalate_eq {ws vs : List (List α)} (hne : ws ≠ []) (hne' : vs ≠ [])
    (hws : ∀ w ∈ ws, d ∉ w) (hvs : ∀ v ∈ vs, d ∉ v)
    (h : [d].intercalate ws = [d].intercalate vs) : ws = vs := by
  refine eq_of_ended_eq hws hvs ?_
  rw [← intercalate_append hne, ← intercalate_append hne', h]

/-- **A tail of letters of one kind** is known by the kind. -/
theorem append_inj_of_kind {p : α → Prop} (hs : ∀ a ∈ s, p a) (ht : ∀ a ∈ t, p a)
    (hw : ∀ a ∈ w.getLast?, ¬ p a) (hv : ∀ a ∈ v.getLast?, ¬ p a) (h : w ++ s = v ++ t) :
    w = v ∧ s = t := by
  have hnil {w v l : List α} (hv : ∀ a ∈ v.getLast?, ¬ p a) (hl : ∀ a ∈ l, p a)
      (heq : v = w ++ l) : l = [] := by
    by_contra hne
    refine hv (l.getLast hne) ?_ (hl _ (List.getLast_mem hne))
    rw [heq, List.getLast?_append_of_ne_nil _ hne, List.getLast?_eq_some_getLast hne]
    rfl
  rcases List.append_eq_append_iff.1 h with ⟨l, rfl, rfl⟩ | ⟨l, rfl, rfl⟩
  · obtain rfl := hnil hv (fun a ha => hs a (List.mem_append_left _ ha)) rfl
    simp
  · obtain rfl := hnil hw (fun a ha => ht a (List.mem_append_left _ ha)) rfl
    simp

end Words
