/-
# Points on a circle, and the first owners clockwise

A partial map from an ordered type of points to owners, read as a circle: from a
point `h` one meets the owners of the points from `h` upwards, then, past the
largest, those below `h`.  `Lists m L` says that `L` enumerates the map `m` in
the order of the points, which determines `L`; `clockwise L h` is the walk.

A walk is cut after the first `n` different owners: `firstDistinct` keeps them in
the order in which they are met, and `collect` is the loop that gathers them in a
set.  The loop may be run in two goes (`collect_append`), and going twice over
the same points adds nothing (`firstDistinct_wrap`).  Where two walks leave different
owners out, the first `n` different ones are not the same, but an owner that neither leaves
out gives way only to one that the other walk leaves out (`card_displaced_le`).

Dropping some points drops them from the walk and keeps the rest in place
(`walk_filter`), and a walk may as well start at the first point it meets
(`walk_of_head?`).
-/

import Mathlib.Data.Finset.Card
import Mathlib.Data.List.Sort
import Mathlib.Order.Basic

namespace Clockwise

variable {π σ : Type}

/-! ### Collecting different elements -/

section collect

variable [DecidableEq σ]

/-- Gather elements until there are `n` of them. -/
def collect (n : ℤ) : List σ → Finset σ → Finset σ
  | [], r => r
  | s :: l, r => if n ≤ r.card then r else collect n l (insert s r)

/-- The first `n` different elements of a list, in the order of the list. -/
def firstDistinct (n : ℕ) (l : List σ) : List σ := l.eraseDups.take n

/-- Nothing is gathered once there are enough. -/
theorem collect_of_le {n : ℤ} {r : Finset σ} (h : n ≤ r.card) (l : List σ) :
    collect n l r = r := by
  cases l with
  | nil => rfl
  | cons s l => rw [collect, if_pos h]

/-- **The loop may be run in two goes.** -/
theorem collect_append (n : ℤ) (l l' : List σ) (r : Finset σ) :
    collect n (l ++ l') r = collect n l' (collect n l r) := by
  induction l generalizing r with
  | nil => rfl
  | cons s l ih =>
    rw [List.cons_append, collect, collect]
    split_ifs with h
    · rw [collect_of_le h]
    · exact ih _

/-- What the loop adds to what is there: the first elements that are new. -/
theorem collect_eq_union (n : ℤ) (l : List σ) (r : Finset σ) :
    collect n l r =
      r ∪ (firstDistinct (n - r.card).toNat (l.filter (· ∉ r))).toFinset := by
  induction l generalizing r with
  | nil => simp [collect, firstDistinct]
  | cons s l ih =>
    by_cases h : n ≤ r.card
    · have hz : (n - r.card).toNat = 0 := by omega
      rw [collect_of_le h, hz]
      simp [firstDistinct]
    · rw [collect, if_neg h, ih]
      by_cases hs : s ∈ r
      · rw [Finset.insert_eq_of_mem hs, List.filter_cons_of_neg (by simpa using hs)]
      · have hcard : (insert s r).card = r.card + 1 := Finset.card_insert_of_notMem hs
        have hn : (n - r.card).toNat = (n - (insert s r).card).toNat + 1 := by
          rw [hcard]
          omega
        have hfilter : (l.filter (· ∉ r)).filter (fun b => !b == s) =
            l.filter (· ∉ insert s r) := by
          rw [List.filter_filter]
          refine List.filter_congr fun b _ => ?_
          rw [Bool.eq_iff_iff]
          simp [Finset.mem_insert, not_or]
        have hfirst : firstDistinct (n - r.card).toNat (s :: l.filter (· ∉ r)) =
            s :: firstDistinct (n - (insert s r).card).toNat (l.filter (· ∉ insert s r)) := by
          rw [firstDistinct, List.eraseDups_cons, hn, List.take_succ_cons, hfilter, firstDistinct]
        rw [List.filter_cons_of_pos (by simpa using hs), hfirst, List.toFinset_cons,
          Finset.union_insert, Finset.insert_union]

/-- **The loop gathers the first `n` different elements.** -/
theorem collect_empty (n : ℤ) (l : List σ) :
    collect n l ∅ = (firstDistinct n.toNat l).toFinset := by
  rw [collect_eq_union]
  simp

/-- **A loop that ends with fewer than `n`** has gathered everything. -/
theorem mem_collect_of_card_lt {n : ℤ} {l : List σ} {r : Finset σ}
    (h : (collect n l r).card < n) {s : σ} (hs : s ∈ l) : s ∈ collect n l r := by
  induction l generalizing r with
  | nil => exact absurd hs List.not_mem_nil
  | cons t l ih =>
    rw [collect] at h ⊢
    split_ifs at h ⊢ with hr
    · omega
    · rcases List.mem_cons.1 hs with rfl | hs
      · rw [collect_eq_union]
        exact Finset.mem_union_left _ (Finset.mem_insert_self s r)
      · exact ih h hs

theorem mem_of_mem_firstDistinct {n : ℕ} {l : List σ} {s : σ} (h : s ∈ firstDistinct n l) :
    s ∈ l :=
  List.mem_eraseDups.1 (List.mem_of_mem_take h)

/-- More elements come after the first ones, not in their place. -/
theorem firstDistinct_subset {m n : ℕ} (h : m ≤ n) (l : List σ) :
    firstDistinct m l ⊆ firstDistinct n l :=
  List.take_subset_take_left _ h

theorem nodup_eraseDups (l : List σ) : l.eraseDups.Nodup := by
  induction h : l.length using Nat.strong_induction_on generalizing l with
  | _ n ih =>
    cases l with
    | nil => exact List.nodup_nil
    | cons s l =>
      rw [List.eraseDups_cons, List.nodup_cons]
      refine ⟨fun hs => ?_, ih _ ?_ _ rfl⟩
      · have hfilter := (List.mem_filter.1 (List.mem_eraseDups.1 hs)).2
        simp at hfilter
      · have hle := List.length_filter_le (fun b => !b == s) l
        rw [← h, List.length_cons]
        omega

theorem nodup_firstDistinct (n : ℕ) (l : List σ) : (firstDistinct n l).Nodup :=
  (nodup_eraseDups l).sublist (List.take_sublist ..)

/-- **How many different elements there are** among the first `n` of them. -/
theorem card_firstDistinct (n : ℕ) (l : List σ) :
    (firstDistinct n l).toFinset.card = min n l.toFinset.card := by
  have hnodup := nodup_eraseDups l
  have hall : l.eraseDups.toFinset = l.toFinset := by
    ext s
    rw [List.mem_toFinset, List.mem_toFinset, List.mem_eraseDups]
  rw [List.toFinset_card_of_nodup (nodup_firstDistinct n l), firstDistinct,
    List.length_take, ← hall, List.toFinset_card_of_nodup hnodup]

theorem head?_firstDistinct {n : ℕ} (hn : 1 ≤ n) (l : List σ) :
    (firstDistinct n l).head? = l.head? := by
  cases l with
  | nil => simp [firstDistinct]
  | cons s l =>
    rw [firstDistinct, List.head?_take, if_neg (by omega), List.eraseDups_cons]
    rfl

/-- The first of a list is the first different one. -/
theorem firstDistinct_one (l : List σ) : firstDistinct 1 l = l.head?.toList := by
  cases l with
  | nil => simp [firstDistinct]
  | cons s l => simp [firstDistinct, List.eraseDups_cons]

/-- **Going on over what has been seen adds nothing.** -/
theorem firstDistinct_wrap (n : ℕ) (l l' : List σ) :
    firstDistinct n (l ++ (l' ++ l)) = firstDistinct n (l ++ l') := by
  have h : (l' ++ l).removeAll l = l'.removeAll l := by
    simp [List.removeAll, List.filter_append]
  rw [firstDistinct, List.eraseDups_append, h, ← List.eraseDups_append, firstDistinct]

/-- What the loop has gathered is a first part of the list: all of it, unless there are enough. -/
theorem exists_collect_eq_take (n : ℤ) (l : List σ) (r : Finset σ) :
    ∃ k, collect n l r = r ∪ (l.take k).toFinset ∧ (n ≤ (collect n l r).card ∨ l.length ≤ k) := by
  induction l generalizing r with
  | nil => exact ⟨0, (Finset.union_empty r).symm, .inr le_rfl⟩
  | cons s l ih =>
    by_cases h : n ≤ r.card
    · refine ⟨0, ?_, .inl ?_⟩
      · rw [collect_of_le h]
        exact (Finset.union_empty r).symm
      · rwa [collect_of_le h]
    · obtain ⟨k, heq, hk⟩ := ih (insert s r)
      rw [collect, if_neg h]
      refine ⟨k + 1, ?_, hk.imp_right Nat.succ_le_succ⟩
      rw [heq, List.take_succ_cons, List.toFinset_cons, Finset.insert_union, Finset.union_insert]

omit [DecidableEq σ] in
/-- A first part of what is kept of a list is what is kept of a first part. -/
theorem exists_take_filter (l : List σ) (keep : σ → Bool) (k : ℕ) :
    ∃ m, (l.filter keep).take k = (l.take m).filter keep ∧
      ((l.filter keep).length ≤ k → l.length ≤ m) := by
  induction l generalizing k with
  | nil => exact ⟨0, by simp, fun _ => le_rfl⟩
  | cons s l ih =>
    by_cases hs : keep s
    · rw [List.filter_cons_of_pos hs]
      cases k with
      | zero => exact ⟨0, rfl, fun h => absurd h (Nat.not_succ_le_zero _)⟩
      | succ k =>
        obtain ⟨m, heq, hm⟩ := ih k
        refine ⟨m + 1, ?_, fun h => Nat.succ_le_succ (hm (Nat.le_of_succ_le_succ h))⟩
        rw [List.take_succ_cons, List.take_succ_cons, List.filter_cons_of_pos hs, heq]
    · obtain ⟨m, heq, hm⟩ := ih k
      rw [List.filter_cons_of_neg hs]
      refine ⟨m + 1, ?_, fun h => Nat.succ_le_succ (hm h)⟩
      rw [List.take_succ_cons, List.filter_cons_of_neg hs, heq]

/-- **The first different elements that are kept** are those of a first part of the list: of all
of it, unless there are enough. -/
theorem exists_firstDistinct_filter (n : ℕ) (l : List σ) (keep : σ → Bool) :
    ∃ m, (firstDistinct n (l.filter keep)).toFinset = ((l.take m).filter keep).toFinset ∧
      (n ≤ (firstDistinct n (l.filter keep)).toFinset.card ∨ l.length ≤ m) := by
  obtain ⟨k, heq, hk⟩ := exists_collect_eq_take n (l.filter keep) ∅
  obtain ⟨m, htake, hm⟩ := exists_take_filter l keep k
  rw [collect_empty, Int.toNat_natCast] at heq hk
  rw [Finset.empty_union, htake] at heq
  exact ⟨m, heq, hk.imp (fun h => by exact_mod_cast h) hm⟩

theorem card_firstDistinct_le (n : ℕ) (l : List σ) : (firstDistinct n l).toFinset.card ≤ n := by
  rw [card_firstDistinct]
  exact Nat.min_le_left ..

/-- **Who gives way.**  Of a list, the first `n` different elements are taken that `P` keeps, and
those that `Q` keeps.  Elements that both keep are missing in the second choice only where others
have come in that `P` does not keep: at most as many. -/
theorem card_displaced_le (n : ℕ) (l : List σ) (P Q : σ → Bool) :
    (((firstDistinct n (l.filter P)).toFinset.filter fun s => Q s = true) \
        (firstDistinct n (l.filter Q)).toFinset).card ≤
      ((firstDistinct n (l.filter Q)).toFinset.filter fun s => P s = false).card := by
  obtain ⟨i, hi, -⟩ := exists_firstDistinct_filter n l P
  obtain ⟨j, hj, henough⟩ := exists_firstDistinct_filter n l Q
  have hA := card_firstDistinct_le n (l.filter P)
  generalize (firstDistinct n (l.filter P)).toFinset = A at *
  generalize (firstDistinct n (l.filter Q)).toFinset = B at *
  -- the shorter first part decides
  have hmem : ∀ s, s ∈ A ↔ s ∈ l.take i ∧ P s = true := fun s => by
    rw [hi, List.mem_toFinset, List.mem_filter]
  have hmem' : ∀ s, s ∈ B ↔ s ∈ l.take j ∧ Q s = true := fun s => by
    rw [hj, List.mem_toFinset, List.mem_filter]
  by_cases hij : i ≤ j ∨ l.length ≤ j
  · have hsub : A.filter (fun s => Q s = true) ⊆ B := by
      intro s hs
      obtain ⟨hs, hQ⟩ := Finset.mem_filter.1 hs
      refine (hmem' s).2 ⟨?_, hQ⟩
      rcases hij with hij | hlen
      · exact List.take_subset_take_left l hij ((hmem s).1 hs).1
      · rw [List.take_of_length_le hlen]
        exact List.mem_of_mem_take ((hmem s).1 hs).1
    rw [Finset.sdiff_eq_empty_iff_subset.2 hsub, Finset.card_empty]
    exact Nat.zero_le _
  · obtain ⟨hij, hlen⟩ := not_or.1 hij
    have hB := henough.resolve_right hlen
    have hsub : B.filter (fun s => P s = true) ⊆ A.filter (fun s => Q s = true) := by
      intro s hs
      obtain ⟨hs, hP⟩ := Finset.mem_filter.1 hs
      obtain ⟨hs, hQ⟩ := (hmem' s).1 hs
      exact Finset.mem_filter.2
        ⟨(hmem s).2 ⟨List.take_subset_take_left l (Nat.le_of_not_le hij) hs, hP⟩, hQ⟩
    have hdisjoint : Disjoint (A.filter (fun s => Q s = true) \ B) (B.filter fun s => P s = true) :=
      Finset.disjoint_of_subset_right (Finset.filter_subset _ _) Finset.sdiff_disjoint
    have hunion : (A.filter (fun s => Q s = true) \ B) ∪ B.filter (fun s => P s = true) ⊆ A :=
      Finset.union_subset (Finset.sdiff_subset.trans (Finset.filter_subset _ _))
        (hsub.trans (Finset.filter_subset _ _))
    have hcard := Finset.card_le_card hunion
    rw [Finset.card_union_of_disjoint hdisjoint] at hcard
    have hsplit := Finset.card_filter_add_card_filter_not (s := B) fun s => P s = true
    simp only [Bool.not_eq_true] at hsplit
    omega

end collect

/-! ### The walk -/

variable [LinearOrder π]

/-- The list enumerates the map, from the smallest point to the largest. -/
def Lists (m : π → Option σ) (L : List (π × σ)) : Prop :=
  L.Pairwise (fun p q => p.1 < q.1) ∧ ∀ v s, (v, s) ∈ L ↔ m v = some s

/-- The points from `h` upwards and on from the smallest, with their owners. -/
def walk (L : List (π × σ)) (h : π) : List (π × σ) := L.filter (h ≤ ·.1) ++ L.filter (·.1 < h)

/-- The owners met from `h` upwards and on from the smallest point. -/
def clockwise (L : List (π × σ)) (h : π) : List σ := (walk L h).map Prod.snd

/-- **A map is enumerated in one way.** -/
theorem Lists.unique {m : π → Option σ} {L L' : List (π × σ)} (h : Lists m L) (h' : Lists m L') :
    L = L' := by
  have hanti : Std.Antisymm fun p q : π × σ => p.1 < q.1 :=
    ⟨fun p q hpq hqp => absurd hpq hqp.asymm⟩
  have hirr : Std.Irrefl fun p q : π × σ => p.1 < q.1 := ⟨fun p => lt_irrefl p.1⟩
  exact h.1.eq_of_mem_iff h'.1 fun b => (h.2 b.1 b.2).trans (h'.2 b.1 b.2).symm

/-- Without the owners that `keep` refuses, the others stay where they are. -/
theorem Lists.filter {m : π → Option σ} {L : List (π × σ)} (h : Lists m L) (keep : σ → Bool) :
    Lists (fun v => (m v).filter keep) (L.filter fun b => keep b.2) := by
  refine ⟨h.1.filter _, fun v s => ?_⟩
  rw [List.mem_filter, h.2, Option.filter_eq_some_iff]

/-- Without the points that `keep` refuses, the others stay where they are. -/
theorem Lists.filter_fst {m : π → Option σ} {L : List (π × σ)} (h : Lists m L) (keep : π → Bool) :
    Lists (fun v => if keep v then m v else none) (L.filter fun b => keep b.1) := by
  refine ⟨h.1.filter _, fun v s => ?_⟩
  rw [List.mem_filter, h.2]
  by_cases hv : keep v <;> simp [hv]

/-- **The walk without some points** is the walk with these left out. -/
theorem walk_filter (L : List (π × σ)) (h : π) (keep : π × σ → Bool) :
    walk (L.filter keep) h = (walk L h).filter keep := by
  simp only [walk, List.filter_append, List.filter_filter]
  congr 2 <;> funext b <;> exact Bool.and_comm ..

/-- **The walk without some owners** is the walk with these left out. -/
theorem clockwise_filter (L : List (π × σ)) (h : π) (keep : σ → Bool) :
    clockwise (L.filter fun b => keep b.2) h = (clockwise L h).filter keep := by
  rw [clockwise, walk_filter, clockwise, List.filter_map]
  rfl

/-- The walk meets every owner. -/
theorem mem_clockwise {L : List (π × σ)} {h : π} {s : σ} :
    s ∈ clockwise L h ↔ ∃ v, (v, s) ∈ L := by
  simp only [clockwise, walk, List.map_append, List.mem_append, List.mem_map, List.mem_filter,
    decide_eq_true_eq, Prod.exists, exists_eq_right]
  constructor
  · rintro (⟨v, hv, -⟩ | ⟨v, hv, -⟩)
    · exact ⟨v, hv⟩
    · exact ⟨v, hv⟩
  · rintro ⟨v, hv⟩
    rcases le_or_gt h v with hle | hlt
    · exact .inl ⟨v, hv, hle⟩
    · exact .inr ⟨v, hv, hlt⟩

/-- An ordered list is what is below `h` and then what is not. -/
theorem filter_lt_append_filter_le {L : List (π × σ)} (hL : L.Pairwise fun p q => p.1 < q.1)
    (h : π) : L.filter (·.1 < h) ++ L.filter (h ≤ ·.1) = L := by
  induction L with
  | nil => rfl
  | cons b L ih =>
    obtain ⟨hb, hL⟩ := List.pairwise_cons.1 hL
    by_cases hlt : b.1 < h
    · rw [List.filter_cons_of_pos (by simpa using hlt),
        List.filter_cons_of_neg (by simpa using hlt), List.cons_append, ih hL]
    · have hnil : L.filter (·.1 < h) = [] := by
        rw [List.filter_eq_nil_iff]
        intro c hc
        simpa using (not_lt.1 hlt).trans (hb c hc).le
      have hall : L.filter (h ≤ ·.1) = L := by
        rw [List.filter_eq_self]
        intro c hc
        simpa using (not_lt.1 hlt).trans (hb c hc).le
      rw [List.filter_cons_of_neg (by simpa using hlt),
        List.filter_cons_of_pos (by simpa using hlt), hnil, hall, List.nil_append]

/-- The first of an ordered list is not above the others. -/
theorem fst_le_of_head? {L : List (π × σ)} (hL : L.Pairwise fun p q => p.1 < q.1) {b c : π × σ}
    (hb : L.head? = some b) (hc : c ∈ L) : b.1 ≤ c.1 := by
  cases L with
  | nil => cases hc
  | cons b' L =>
    obtain rfl : b' = b := Option.some.inj hb
    rcases List.mem_cons.1 hc with rfl | hc
    · exact le_rfl
    · exact ((List.pairwise_cons.1 hL).1 c hc).le

/-- **A walk may as well start at the first point it meets.** -/
theorem walk_of_head? {L : List (π × σ)} (hL : L.Pairwise fun p q => p.1 < q.1) {h : π}
    {b : π × σ} (hb : (walk L h).head? = some b) : walk L b.1 = walk L h := by
  cases hup : L.filter (h ≤ ·.1) with
  | nil =>
    -- past the largest point: the walk is the whole list, from its smallest point
    have hall : L.filter (·.1 < h) = L := by
      rw [← filter_lt_append_filter_le hL h, hup, List.append_nil, List.filter_filter]
      simp
    have hbL : L.head? = some b := by rwa [walk, hup, hall, List.nil_append] at hb
    have hle : ∀ c ∈ L, b.1 ≤ c.1 := fun c hc => fst_le_of_head? hL hbL hc
    rw [walk, walk, hup, hall, List.nil_append, List.filter_eq_self.2 (by simpa using hle),
      List.filter_eq_nil_iff.2 (by simpa using hle), List.append_nil]
  | cons b' L' =>
    obtain rfl : b' = b := by
      rw [walk, hup] at hb
      exact Option.some.inj hb
    have hhead : (L.filter (h ≤ ·.1)).head? = some b' := by rw [hup, List.head?_cons]
    have hmem : b' ∈ L.filter (h ≤ ·.1) := List.mem_of_mem_head? hhead
    have hhb : h ≤ b'.1 := by simpa using (List.mem_filter.1 hmem).2
    have hiff (c : π × σ) (hc : c ∈ L) : b'.1 ≤ c.1 ↔ h ≤ c.1 := by
      refine ⟨hhb.trans, fun hhc => fst_le_of_head? (hL.filter _) hhead ?_⟩
      exact List.mem_filter.2 ⟨hc, by simpa using hhc⟩
    have hge : L.filter (b'.1 ≤ ·.1) = L.filter (h ≤ ·.1) :=
      List.filter_congr fun c hc => by simp [hiff c hc]
    have hlt : L.filter (·.1 < b'.1) = L.filter (·.1 < h) :=
      List.filter_congr fun c hc => by simp [← not_le, hiff c hc]
    rw [walk, walk, hge, hlt]

/-- The walk from a point that is owned starts there. -/
theorem Lists.walk_head? {m : π → Option σ} {L : List (π × σ)} (h : Lists m L) {v : π} {s : σ}
    (hv : m v = some s) : (walk L v).head? = some (v, s) := by
  have hmem : (v, s) ∈ L.filter (v ≤ ·.1) :=
    List.mem_filter.2 ⟨(h.2 v s).2 hv, by simp⟩
  cases hup : L.filter (v ≤ ·.1) with
  | nil =>
    rw [hup] at hmem
    cases hmem
  | cons b L' =>
    have hhead : (L.filter (v ≤ ·.1)).head? = some b := by rw [hup, List.head?_cons]
    obtain ⟨hbL, hvb⟩ := List.mem_filter.1 (List.mem_of_mem_head? hhead)
    have hbv : b.1 = v :=
      le_antisymm (fst_le_of_head? (h.1.filter _) hhead hmem) (by simpa using hvb)
    have hbs : b.2 = s := by
      have hb : m v = some b.2 := (h.2 v b.2).1 (by rwa [← hbv])
      exact Option.some.inj (hb.symm.trans hv)
    rw [walk, hup, List.cons_append, List.head?_cons, ← hbv, ← hbs]

end Clockwise
