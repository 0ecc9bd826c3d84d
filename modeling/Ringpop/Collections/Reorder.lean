/-
# Lists up to their order

Three things that leave the order of a list open.  An `Arrangement` is an order that
the program does not choose: the order in which a map is enumerated, a shuffle, the
order in which threads finish.  `scatter` puts the elements of a list at given places
of a new one, which is a shuffle if the places are all different (`scatter_perm`).
`filterSwap` filters an array in place: an element
that does not pass is swapped with the last one that is left, and the slice gets
shorter by one.  The loop ends, never leaves the array, and returns the elements
that pass, each as often as it was there (`filterSwap_spec`).  A list that is the same in
both directions has one element at most (`length_le_one_of_eq_reverse`).
-/

import Ringpop.Memory.Cells
import Mathlib.Data.List.Perm.Basic

namespace Reorder

open CellStore

variable {α : Type}

/-- An order for the elements of each list. -/
structure Arrangement (α : Type) where
  arrange : List α → List α
  perm : ∀ l, (arrange l).Perm l

/-- The order in which the list already is. -/
def Arrangement.asIs : Arrangement α := ⟨id, List.Perm.refl⟩

@[simp] theorem Arrangement.mem_arrange (o : Arrangement α) {l : List α} {a : α} :
    a ∈ o.arrange l ↔ a ∈ l :=
  (o.perm l).mem_iff

/-! ### Scattering -/

/-- A permutation of the first numbers, for each number of them. -/
structure RandomPerm where
  draw : ℕ → List ℕ
  perm : ∀ n, (draw n).Perm (List.range n)

/-- The numbers in their order. -/
def RandomPerm.inOrder : RandomPerm := ⟨List.range, fun _ => .refl _⟩

/-- Write each element at its place. -/
def writeAll (new : List α) (places : List (ℕ × α)) : List α :=
  places.foldl (fun new e => new.set e.1 e.2) new

/-- Each element of the list at its place in a new list. -/
def scatter (blank : α) (places : List ℕ) (l : List α) : List α :=
  writeAll (List.replicate l.length blank) (places.zip l)

theorem length_writeAll (new : List α) (places : List (ℕ × α)) :
    (writeAll new places).length = new.length := by
  induction places generalizing new with
  | nil => rfl
  | cons e places ih => exact (ih _).trans List.length_set

theorem getElem?_writeAll_of_notMem {new : List α} {places : List (ℕ × α)} {i : ℕ}
    (hi : i ∉ places.map Prod.fst) : (writeAll new places)[i]? = new[i]? := by
  induction places generalizing new with
  | nil => rfl
  | cons e places ih =>
    rw [List.map_cons, List.mem_cons, not_or] at hi
    exact (ih hi.2).trans (List.getElem?_set_ne (Ne.symm hi.1))

/-- What is written stays, if nothing is written there again. -/
theorem getElem?_writeAll {new : List α} {places : List (ℕ × α)} {i : ℕ} {a : α}
    (hnodup : (places.map Prod.fst).Nodup) (he : (i, a) ∈ places) (hi : i < new.length) :
    (writeAll new places)[i]? = some a := by
  induction places generalizing new with
  | nil => cases he
  | cons e places ih =>
    rw [List.map_cons, List.nodup_cons] at hnodup
    rcases List.mem_cons.1 he with rfl | he
    · refine (getElem?_writeAll_of_notMem hnodup.1).trans ?_
      exact List.getElem?_set_self hi
    · exact ih hnodup.2 he (by rwa [List.length_set])

/-- **A scattered list is a permutation** of the list, if the places are. -/
theorem scatter_perm (blank : α) {places : List ℕ} {l : List α}
    (hplaces : places.Perm (List.range l.length)) : (scatter blank places l).Perm l := by
  have hlen : places.length = l.length := by simpa using hplaces.length_eq
  have hlen' : (scatter blank places l).length = l.length := by
    rw [scatter, length_writeAll, List.length_replicate]
  have hfst : (places.zip l).map Prod.fst = places := List.map_fst_zip hlen.le
  have hnodup : places.Nodup := hplaces.nodup_iff.2 List.nodup_range
  have hread : places.map ((scatter blank places l)[·]?) = l.map some := by
    refine List.ext_getElem (by simp [hlen]) fun o ho ho' => ?_
    rw [List.getElem_map, List.getElem_map]
    rw [List.length_map] at ho ho'
    have hmem : (places[o], l[o]) ∈ places.zip l := by
      rw [← List.getElem_zip (h := by simp [hlen, ho'])]
      exact List.getElem_mem _
    refine getElem?_writeAll (by rwa [hfst]) hmem ?_
    rw [List.length_replicate]
    exact List.mem_range.1 (hplaces.mem_iff.1 (List.getElem_mem ho))
  have hall : (List.range l.length).map ((scatter blank places l)[·]?) =
      (scatter blank places l).map some := by
    refine List.ext_getElem (by simp [hlen']) fun o ho ho' => ?_
    rw [List.length_map] at ho'
    simp [ho']
  have hperm := hplaces.map ((scatter blank places l)[·]?)
  rw [hread, hall] at hperm
  exact ((List.map_perm_map_iff (Option.some_injective α)).1 hperm).symm

/-! ### Filtering in place -/

/-- The variables of the loop: the array, how much of it is left, the index, and the
elements that did not pass. -/
structure Vars (α : Type) where
  array : List α
  len : ℕ
  i : ℕ
  dropped : List α

/-- One iteration.  Where the element is dropped, the index stays. -/
def Vars.step (drop : α → Bool) (v : Vars α) : Except Fault (Vars α) :=
  match v.array[v.i]?, v.array[v.len - 1]? with
  | some a, some last =>
      if drop a then
        return { array := (v.array.set v.i last).set (v.len - 1) a
                 len := v.len - 1
                 i := v.i
                 dropped := v.dropped ++ [a] }
      else return { v with i := v.i + 1 }
  | _, _ => throw (.panic "index out of range")

/-- The loop. -/
def Vars.loop (drop : α → Bool) : ℕ → Vars α → Except Fault (Vars α)
  | 0, v => if v.i < v.len then throw .outOfFuel else return v
  | fuel + 1, v => if v.i < v.len then v.step drop >>= loop drop fuel else return v

/-- Filter in place. -/
def filterSwap (drop : α → Bool) (l : List α) : Except Fault (Vars α) :=
  Vars.loop drop l.length ⟨l, l.length, 0, []⟩

/-- The slice that is left. -/
def Vars.slice (v : Vars α) : List α := v.array.take v.len

/-- What holds at the head of the loop: before the index is what passes, behind the
slice is what does not. -/
structure Vars.Inv (drop : α → Bool) (l : List α) (v : Vars α) : Prop where
  perm : v.array.Perm l
  le : v.i ≤ v.len
  len_le : v.len ≤ v.array.length
  kept : ∀ a ∈ v.array.take v.i, drop a = false
  behind : v.dropped.Perm (v.array.drop v.len)
  dropped : ∀ a ∈ v.dropped, drop a = true

section step

variable {drop : α → Bool} {l : List α} {v : Vars α}

/-- The index moves on over an element that passes. -/
theorem Vars.Inv.keep (h : v.Inv drop l) (hi : v.i < v.array.length) (hlt : v.i < v.len)
    (hkeep : drop v.array[v.i] = false) : Vars.Inv drop l { v with i := v.i + 1 } := by
  refine ⟨h.perm, hlt, h.len_le, fun a ha => ?_, h.behind, h.dropped⟩
  rw [List.take_add_one, List.getElem?_eq_getElem hi] at ha
  rcases List.mem_append.1 ha with ha | ha
  · exact h.kept a ha
  · rw [Option.toList_some, List.mem_singleton] at ha
    rwa [ha]

/-- An element that does not pass goes behind the slice. -/
theorem Vars.Inv.swap (h : v.Inv drop l) (hi : v.i < v.array.length) (hlt : v.i < v.len)
    (hlast : v.len - 1 < v.array.length) (hdrop : drop v.array[v.i] = true) :
    Vars.Inv drop l ⟨(v.array.set v.i v.array[v.len - 1]).set (v.len - 1) v.array[v.i],
      v.len - 1, v.i, v.dropped ++ [v.array[v.i]]⟩ := by
  have hle : v.i ≤ v.len - 1 := Nat.le_sub_one_of_lt hlt
  refine ⟨(List.set_set_perm hi hlast).trans h.perm, hle, ?_, fun a ha => ?_, ?_, fun a ha => ?_⟩
  · rw [List.length_set, List.length_set]
    exact hlast.le
  · rw [List.take_set_of_le hle, List.take_set_of_le le_rfl] at ha
    exact h.kept a ha
  · have hnext : v.len - 1 + 1 = v.len := by omega
    have hbehind : ((v.array.set v.i v.array[v.len - 1]).set (v.len - 1) v.array[v.i]).drop
        (v.len - 1) = v.array[v.i] :: v.array.drop v.len := by
      rw [List.drop_eq_getElem_cons (by simpa using hlast), List.getElem_set_self, hnext,
        List.drop_set_of_lt (by omega), List.drop_set_of_lt hlt]
    rw [hbehind]
    exact (List.perm_append_singleton ..).trans (h.behind.cons _)
  · rcases List.mem_append.1 ha with ha | ha
    · exact h.dropped a ha
    · rwa [List.mem_singleton.1 ha]

/-- **One iteration** stays inside the array, keeps the invariant and leaves less to
look at. -/
theorem Vars.Inv.step (h : v.Inv drop l) (hlt : v.i < v.len) :
    ∃ v', v.step drop = .ok v' ∧ v'.Inv drop l ∧ v'.len - v'.i < v.len - v.i := by
  have hlen := h.len_le
  have hi : v.i < v.array.length := by omega
  have hlast : v.len - 1 < v.array.length := by omega
  rw [Vars.step, List.getElem?_eq_getElem hi, List.getElem?_eq_getElem hlast]
  cases hd : drop v.array[v.i] with
  | true =>
    refine ⟨_, by simp only [hd, if_true]; rfl, h.swap hi hlt hlast hd, ?_⟩
    show v.len - 1 - v.i < v.len - v.i
    omega
  | false =>
    refine ⟨_, by simp only [hd, Bool.false_eq_true, if_false]; rfl, h.keep hi hlt hd, ?_⟩
    show v.len - (v.i + 1) < v.len - v.i
    omega

/-- **The loop** ends at the end of the slice, when it has a step for each element
that is left. -/
theorem Vars.Inv.loop {fuel : ℕ} (h : v.Inv drop l) (hfuel : v.len - v.i ≤ fuel) :
    ∃ v', Vars.loop drop fuel v = .ok v' ∧ v'.Inv drop l ∧ v'.len ≤ v'.i := by
  induction fuel generalizing v with
  | zero =>
    have hend : ¬ v.i < v.len := by omega
    exact ⟨v, by rw [Vars.loop, if_neg hend]; rfl, h, by omega⟩
  | succ fuel ih =>
    by_cases hlt : v.i < v.len
    · obtain ⟨v₁, hstep, h₁, hless⟩ := h.step hlt
      obtain ⟨v', hloop, h', hend⟩ := ih h₁ (by omega)
      refine ⟨v', ?_, h', hend⟩
      rw [Vars.loop, if_pos hlt, hstep]
      exact hloop
    · exact ⟨v, by rw [Vars.loop, if_neg hlt]; rfl, h, by omega⟩

end step

/-- **Filtering in place** returns: the array is a permutation of what it was, the slice
holds what passes and the rest was dropped. -/
theorem filterSwap_spec (drop : α → Bool) (l : List α) :
    ∃ v, filterSwap drop l = .ok v ∧ v.array.Perm l ∧ v.slice.Perm (l.filter (! drop ·)) ∧
      v.dropped.Perm (l.filter drop) := by
  have hstart : Vars.Inv drop l ⟨l, l.length, 0, []⟩ :=
    ⟨.refl l, Nat.zero_le _, le_rfl, by simp, by simp, by simp⟩
  obtain ⟨v, hrun, h, hend⟩ := hstart.loop (Nat.sub_le ..)
  have hi : v.i = v.len := le_antisymm h.le hend
  have hkept : ∀ a ∈ v.slice, drop a = false := fun a ha => h.kept a (hi ▸ ha)
  have hbehind : ∀ a ∈ v.array.drop v.len, drop a = true := fun a ha =>
    h.dropped a (h.behind.mem_iff.2 ha)
  have hsplit : v.slice ++ v.array.drop v.len = v.array := List.take_append_drop ..
  refine ⟨v, hrun, h.perm, ?_, h.behind.trans ?_⟩
  · refine List.Perm.trans (.of_eq ?_) (h.perm.filter _)
    rw [← hsplit, List.filter_append, List.filter_eq_self.2 (by simpa using hkept),
      List.filter_eq_nil_iff.2 (by simpa using hbehind), List.append_nil]
  · refine List.Perm.trans (.of_eq ?_) (h.perm.filter _)
    rw [← hsplit, List.filter_append, List.filter_eq_nil_iff.2 (by simpa using hkept),
      List.filter_eq_self.2 hbehind, List.nil_append, hsplit]

/-! ### Reversing -/

/-- **A list that is its own reverse** has one element at most, if all are different. -/
theorem length_le_one_of_eq_reverse {l : List α} (hl : l.Nodup) (h : l = l.reverse) :
    l.length ≤ 1 := by
  cases l with
  | nil => exact Nat.zero_le 1
  | cons s l =>
    rw [List.reverse_cons] at h
    cases hlast : l.reverse with
    | nil => rw [List.reverse_eq_nil_iff.1 hlast, List.length_singleton]
    | cons t l' =>
      -- the first is also the last of the others
      rw [hlast, List.cons_append] at h
      obtain rfl := (List.cons.inj h).1
      have hmem : s ∈ l := List.mem_reverse.1 (hlast ▸ .head _)
      exact absurd hmem (List.nodup_cons.1 hl).1

end Reorder
