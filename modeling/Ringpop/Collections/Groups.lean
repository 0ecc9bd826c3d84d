/-
# Values in groups

A map from keys to lists of values that grows by one value at a time: the list of its
entries, where a new value goes to the end of the list of its key, and a new key to the
end of the entries.

The values of all groups are those that were put in (`values_add`).  Where each value is
in the group of its own key (`GroupedBy`), the group of a key is what is left of the
values when the others are filtered out (`GroupedBy.get_eq`).
-/

import Mathlib.Data.List.Perm.Basic

/-- Lists of values by key. -/
abbrev Groups (κ α : Type) := List (κ × List α)

namespace Groups

variable {κ α : Type} [DecidableEq κ] {g : Groups κ α} {f : α → κ} {k : κ} {a : α}

/-- A value more for a key. -/
def add (k : κ) (a : α) : Groups κ α → Groups κ α
  | [] => [(k, [a])]
  | (k', l) :: rest => if k' = k then (k', l ++ [a]) :: rest else (k', l) :: add k a rest

/-- The values of a key. -/
def get (g : Groups κ α) (k : κ) : List α := ((g.find? (·.1 = k)).map Prod.snd).getD []

/-- The values of all keys. -/
def values (g : Groups κ α) : List α := g.flatMap Prod.snd

/-- **The values** are those that were put in. -/
theorem values_add (k : κ) (a : α) (g : Groups κ α) :
    (values (add k a g)).Perm (a :: values g) := by
  induction g with
  | nil => exact .refl _
  | cons e rest ih =>
    obtain ⟨k', l⟩ := e
    rw [add]
    split_ifs
    · simp only [values, List.flatMap_cons, List.append_assoc, List.singleton_append]
      exact List.perm_middle
    · simp only [values, List.flatMap_cons]
      exact (ih.append_left l).trans List.perm_middle

/-- Each value is in the group of its key, and each key has one group. -/
structure GroupedBy (f : α → κ) (g : Groups κ α) : Prop where
  keys : (g.map Prod.fst).Nodup
  own : ∀ e ∈ g, ∀ a ∈ e.2, f a = e.1

omit [DecidableEq κ] in
theorem groupedBy_nil (f : α → κ) : GroupedBy f [] := ⟨List.nodup_nil, by simp⟩

theorem mem_keys_add {k' : κ} :
    k' ∈ (add k a g).map Prod.fst ↔ k' = k ∨ k' ∈ g.map Prod.fst := by
  induction g with
  | nil => simp [add]
  | cons e rest ih =>
    obtain ⟨k₁, l⟩ := e
    rw [add]
    split_ifs with hk
    · simp only [List.map_cons, List.mem_cons, hk]
      tauto
    · rw [List.map_cons, List.map_cons, List.mem_cons, List.mem_cons, ih]
      tauto

/-- **A value more**, for its own key. -/
theorem GroupedBy.add (h : GroupedBy f g) (a : α) : GroupedBy f (add (f a) a g) := by
  induction g with
  | nil => exact ⟨by simp [Groups.add], by simp [Groups.add]⟩
  | cons e rest ih =>
    obtain ⟨k, l⟩ := e
    obtain ⟨hk, hkeys⟩ := List.nodup_cons.1 h.keys
    have hown := List.forall_mem_cons.1 h.own
    have hrest := ih ⟨hkeys, hown.2⟩
    rw [Groups.add]
    split_ifs with hka
    · refine ⟨h.keys, List.forall_mem_cons.2 ⟨fun b hb => ?_, hown.2⟩⟩
      rcases List.mem_append.1 hb with hb | hb
      · exact hown.1 b hb
      · rw [List.mem_singleton.1 hb, hka]
    · refine ⟨List.nodup_cons.2 ⟨fun hmem => ?_, hrest.keys⟩,
        List.forall_mem_cons.2 ⟨hown.1, hrest.own⟩⟩
      rcases mem_keys_add.1 hmem with hmem | hmem
      · exact hka hmem
      · exact hk hmem

omit [DecidableEq κ] in
/-- The groups of some keys hold the values of these keys. -/
theorem GroupedBy.flatMap_filter (h : GroupedBy f g) (p : κ → Bool) :
    (g.filter fun e => p e.1).flatMap Prod.snd = (values g).filter fun a => p (f a) := by
  rw [values, List.filter_flatMap]
  induction g with
  | nil => rfl
  | cons e rest ih =>
    have hown := List.forall_mem_cons.1 h.own
    have hrest := ih ⟨(List.nodup_cons.1 h.keys).2, hown.2⟩
    have hself : (e.2.filter fun a => p (f a)) = if p e.1 then e.2 else [] := by
      rw [List.filter_congr fun a ha => by rw [hown.1 a ha]]
      split_ifs with hp
      · simp [hp]
      · simp [hp]
    rw [List.filter_cons, List.flatMap_cons, ← hrest, hself]
    split_ifs
    · rw [List.flatMap_cons]
    · rfl

/-- **The group of a key** has the values of the key. -/
theorem GroupedBy.get_eq (h : GroupedBy f g) (k : κ) :
    get g k = (values g).filter fun a => f a = k := by
  rw [← h.flatMap_filter fun k' => k' = k, get]
  induction g with
  | nil => rfl
  | cons e rest ih =>
    obtain ⟨hk, hkeys⟩ := List.nodup_cons.1 h.keys
    have hrest := ih ⟨hkeys, (List.forall_mem_cons.1 h.own).2⟩
    by_cases he : e.1 = k
    · -- no other entry has the key
      have hnone : (rest.filter fun e => decide (e.1 = k)) = [] :=
        List.filter_eq_nil_iff.2 fun e' he' => by
          simpa using fun heq : e'.1 = k => hk (he.trans heq.symm ▸ List.mem_map_of_mem he')
      rw [List.find?_cons_of_pos (by simpa using he), List.filter_cons_of_pos (by simpa using he),
        hnone]
      simp
    · rw [List.find?_cons_of_neg (by simpa using he), List.filter_cons_of_neg (by simpa using he),
        hrest]

end Groups
