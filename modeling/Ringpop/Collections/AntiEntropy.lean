/-
# Replicas that come to agree

Replicas hold values of an order.  Each value only goes up and has finitely many values to
go to, so there is a time from which none of them changes any more
(`exists_forall_eq_of_le_succ`).  A replica may also have work to do, which gets less as
long as its value stays; from some time on the work stays as well.

What remains to be said of a system is what an exchange between two replicas comes to when
nothing changes any more: that the one is at least as far as the other (`eventually_agree`).
With an exchange from each to each they agree.
-/

import Mathlib.Data.Finset.Lattice.Fold
import Mathlib.Data.Fintype.Pi
import Mathlib.Order.Minimal
import Mathlib.Order.Preorder.Finite

namespace AntiEntropy

variable {ι α β : Type}

/-- What each step keeps, all that follow keep. -/
theorem le_of_le_succ [Preorder α] {f : ℕ → α} {N : ℕ} (hf : ∀ n, N ≤ n → f n ≤ f (n + 1)) :
    ∀ n, N ≤ n → f N ≤ f n := by
  intro n hn
  induction n, hn using Nat.le_induction with
  | base => exact le_rfl
  | succ n hn ih => exact ih.trans (hf n hn)

/-- **A sequence that goes up through finitely many values** stays at one of them. -/
theorem exists_forall_eq_of_le_succ [PartialOrder α] {f : ℕ → α} (hf : ∀ n, f n ≤ f (n + 1))
    (hfin : (Set.range f).Finite) : ∃ N, ∀ n, N ≤ n → f n = f N := by
  obtain ⟨_, ⟨N, rfl⟩, hmax⟩ := hfin.exists_maximal (Set.range_nonempty f)
  refine ⟨N, fun n hn => ?_⟩
  have hle : f N ≤ f n := le_of_le_succ (fun n _ => hf n) n hn
  exact le_antisymm (hmax ⟨n, rfl⟩ hle) hle

/-- **A number that goes down** stays at some time. -/
theorem exists_forall_eq_of_succ_le {f : ℕ → ℕ} {N : ℕ} (hf : ∀ n, N ≤ n → f (n + 1) ≤ f n) :
    ∃ M, N ≤ M ∧ ∀ n, M ≤ n → f n = f M := by
  obtain ⟨M, hM, hmin⟩ : ∃ M, N ≤ M ∧ ∀ n, N ≤ n → f M ≤ f n := by
    obtain ⟨_, ⟨M, hM, rfl⟩, hmin⟩ := exists_minimal_of_wellFoundedLT
      (fun k => ∃ M, N ≤ M ∧ f M = k) ⟨f N, N, le_rfl, rfl⟩
    refine ⟨M, hM, fun n hn => ?_⟩
    rcases le_total (f M) (f n) with hle | hle
    · exact hle
    · exact hmin ⟨n, hn, rfl⟩ hle
  refine ⟨M, hM, fun n hn => le_antisymm ?_ (hmin n (hM.trans hn))⟩
  induction n, hn using Nat.le_induction with
  | base => exact le_rfl
  | succ n hn ih => exact (hf n (hM.trans hn)).trans ih

/-- What holds of each replica from some time on holds of all of them from some time on. -/
theorem exists_forall_mem {S : Finset ι} {P : ι → ℕ → Prop}
    (h : ∀ x ∈ S, ∃ N, ∀ n, N ≤ n → P x n) : ∃ N, ∀ x ∈ S, ∀ n, N ≤ n → P x n := by
  choose! N hN using h
  exact ⟨S.sup N, fun x hx n hn => hN x hx n ((Finset.le_sup hx).trans hn)⟩

/-- Functions whose values are fixed but for finitely many arguments, at which there are finitely
many, are finitely many. -/
theorem finite_of_forall_mem [Bot β] {T : Finset α} {F : α → Set β}
    (hF : ∀ a, (F a).Finite) : {f : α → β | (∀ a, f a ∈ F a) ∧ ∀ a, a ∉ T → f a = ⊥}.Finite := by
  have hpi : (Set.pi Set.univ fun a : T => F a).Finite := Set.Finite.pi fun a => hF a
  have hmaps : Set.MapsTo (fun (f : α → β) (a : T) => f a)
      {f | (∀ a, f a ∈ F a) ∧ ∀ a, a ∉ T → f a = ⊥} (Set.pi Set.univ fun a : T => F a) :=
    fun f hf a _ => hf.1 a
  refine Set.Finite.of_injOn hmaps ?_ hpi
  intro f hf g hg heq
  funext a
  by_cases ha : a ∈ T
  · exact congrFun heq ⟨a, ha⟩
  · rw [hf.2 a ha, hg.2 a ha]

/-- **Replicas agree in the end**, if their values only go up through finitely many, if the work
of each gets less while its value stays, and if from a time at which nothing changes any
more each is at least as far as each other. -/
theorem eventually_agree [PartialOrder α] {S : Finset ι} (value : ι → ℕ → α) (work : ι → ℕ → ℕ)
    (hvalue : ∀ x ∈ S, ∀ n, value x n ≤ value x (n + 1))
    (hfin : ∀ x ∈ S, (Set.range (value x)).Finite)
    (hwork : ∀ x ∈ S, ∀ n, value x (n + 1) = value x n → work x (n + 1) ≤ work x n)
    (hpull : ∀ N, (∀ x ∈ S, ∀ n, N ≤ n → value x n = value x N ∧ work x n = work x N) →
      ∀ x ∈ S, ∀ y ∈ S, x ≠ y → value y N ≤ value x N) :
    ∃ N, ∀ n, N ≤ n → ∀ x ∈ S, ∀ y ∈ S, value x n = value y N := by
  obtain ⟨N, hN⟩ := exists_forall_mem (P := fun x n => value x (n + 1) = value x n)
    fun x hx => by
      obtain ⟨N, hN⟩ := exists_forall_eq_of_le_succ (hvalue x hx) (hfin x hx)
      exact ⟨N, fun n hn => (hN (n + 1) (by omega)).trans (hN n hn).symm⟩
  obtain ⟨M, hM⟩ := exists_forall_mem (P := fun x n => N ≤ n ∧ work x (n + 1) = work x n)
    fun x hx => by
      obtain ⟨M, hNM, hM⟩ := exists_forall_eq_of_succ_le
        fun n hn => hwork x hx n (hN x hx n hn)
      exact ⟨M, fun n hn => ⟨hNM.trans hn, (hM (n + 1) (by omega)).trans (hM n hn).symm⟩⟩
  have hrest : ∀ x ∈ S, ∀ n, M ≤ n → value x n = value x M ∧ work x n = work x M := by
    intro x hx n hn
    induction n, hn using Nat.le_induction with
    | base => exact ⟨rfl, rfl⟩
    | succ n hn ih =>
      obtain ⟨hNn, hw⟩ := hM x hx n hn
      exact ⟨(hN x hx n hNn).trans ih.1, hw.trans ih.2⟩
  refine ⟨M, fun n hn x hx y hy => ?_⟩
  rw [(hrest x hx n hn).1]
  by_cases hxy : x = y
  · rw [hxy]
  · exact le_antisymm (hpull M hrest y hy x hx (Ne.symm hxy)) (hpull M hrest x hx y hy hxy)

end AntiEntropy
