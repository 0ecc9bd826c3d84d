/-
# Threads that share data

Any number of threads run the same code on the same data.  The code says where a call
begins and what a thread at a place does next: it changes the data, goes on at another
place, and may start more threads; a thread that has ended, or that has to wait, does
nothing (`Code.next`).  A step is a call that begins or one thread that goes on
(`Code.step`), so that the runs are all interleavings.

`Code.Reaches P s₀ s` says that `s` is reached from `s₀` by steps that each meet `P` in the
state before it.  What one such step keeps holds in every state that is reached
(`Reaches.invariant`); the number of threads at places of one kind changes as the thread
that goes on says (`count_run`).  Where threads enter what they do in an order, no number
is given twice and none is lost (`Numbering.reaches`).
-/

import Mathlib.Tactic.Common

namespace Threads

variable {δ ℓ κ : Type}

/-- The code that threads run: the place at which a call begins, and what the `i`-th
thread does next. -/
structure Code (δ ℓ κ : Type) where
  enter : κ → ℓ
  next : ℕ → ℓ → δ → Option (δ × ℓ × List ℓ)

/-- The data, and where each thread is. -/
structure State (δ ℓ : Type) where
  data : δ
  threads : List ℓ
deriving DecidableEq, Repr

/-- A new call begins, or a thread goes on. -/
inductive Event (κ : Type) where
  | call (c : κ)
  | run (i : ℕ)

namespace Code

variable (C : Code δ ℓ κ)

/-- One step, if it can be taken. -/
def step (s : State δ ℓ) : Event κ → Option (State δ ℓ)
  | .call c => some { s with threads := s.threads ++ [C.enter c] }
  | .run i => do
      let place ← s.threads[i]?
      let (data, place, started) ← C.next i place s.data
      return ⟨data, s.threads.set i place ++ started⟩

/-- A sequence of steps that meet a condition. -/
def run (P : State δ ℓ → Event κ → Prop) [∀ s e, Decidable (P s e)] (s : State δ ℓ)
    (events : List (Event κ)) : Option (State δ ℓ) :=
  events.foldlM (fun s e => if P s e then C.step s e else none) s

/-- The states that are reached by steps that meet a condition. -/
inductive Reaches (P : State δ ℓ → Event κ → Prop) (s₀ : State δ ℓ) : State δ ℓ → Prop where
  | refl : Reaches P s₀ s₀
  | step {s s' : State δ ℓ} {e : Event κ} (h : Reaches P s₀ s) (hP : P s e)
      (hstep : C.step s e = some s') : Reaches P s₀ s'

variable {C} {P : State δ ℓ → Event κ → Prop} {s₀ s s' : State δ ℓ} {c : κ} {i : ℕ}

/-- **What every step keeps** holds in all states that are reached. -/
theorem Reaches.invariant {I : State δ ℓ → Prop} (h : C.Reaches P s₀ s) (hs : I s₀)
    (hstep : ∀ s e s', I s → P s e → C.step s e = some s' → I s') : I s := by
  induction h with
  | refl => exact hs
  | step _ hP hone ih => exact hstep _ _ _ ih hP hone

theorem Reaches.trans {s₁ : State δ ℓ} (h : C.Reaches P s₀ s₁) (h' : C.Reaches P s₁ s) :
    C.Reaches P s₀ s := by
  induction h' with
  | refl => exact h
  | step _ hP hone ih => exact ih.step hP hone

theorem reaches_of_run [∀ s e, Decidable (P s e)] {events : List (Event κ)}
    (h : C.Reaches P s₀ s) (hrun : C.run P s events = some s') : C.Reaches P s₀ s' := by
  induction events generalizing s with
  | nil =>
    obtain rfl : s = s' := Option.some.inj hrun
    exact h
  | cons e events ih =>
    rw [run, List.foldlM_cons] at hrun
    obtain ⟨s₁, hone, hrun⟩ := Option.bind_eq_some_iff.1 hrun
    split_ifs at hone with hP
    exact ih (h.step hP hone) hrun

/-- The state after a call has begun. -/
theorem step_call : C.step s (.call c) = some s' ↔
    s' = ⟨s.data, s.threads ++ [C.enter c]⟩ := by
  rw [step, Option.some.injEq, eq_comm]

/-- **The state after a thread has gone on.** -/
theorem step_run : C.step s (.run i) = some s' ↔
    ∃ place data place' started, s.threads[i]? = some place ∧
      C.next i place s.data = some (data, place', started) ∧
      s' = ⟨data, s.threads.set i place' ++ started⟩ := by
  rw [step]
  simp only [Option.bind_eq_bind, Option.bind_eq_some_iff, Prod.exists]
  constructor
  · rintro ⟨place, hplace, data, place', started, hnext, hs'⟩
    exact ⟨place, data, place', started, hplace, hnext, (Option.some.inj hs').symm⟩
  · rintro ⟨place, data, place', started, hplace, hnext, rfl⟩
    exact ⟨place, hplace, data, place', started, hnext, rfl⟩

/-- The step of a thread that is picked out of the others. -/
theorem step_run_append {d d' : δ} {before after started : List ℓ} {place place' : ℓ}
    (hnext : C.next before.length place d = some (d', place', started)) :
    C.step ⟨d, before ++ place :: after⟩ (.run before.length) =
      some ⟨d', before ++ place' :: (after ++ started)⟩ := by
  refine step_run.2 ⟨place, d', place', started, by simp, hnext, ?_⟩
  simp

/-- The number of threads at places of a kind. -/
def count (p : ℓ → Bool) (s : State δ ℓ) : ℕ := s.threads.countP p

theorem count_call (p : ℓ → Bool) (s : State δ ℓ) (place : ℓ) :
    count p ⟨s.data, s.threads ++ [place]⟩ = count p s + (p place).toNat := by
  rw [count, count, List.countP_append, List.countP_singleton]
  cases p place <;> rfl

/-- **Counting** when a thread goes on. -/
theorem count_run (p : ℓ → Bool) {place : ℓ} (hplace : s.threads[i]? = some place) (data : δ)
    (place' : ℓ) (started : List ℓ) :
    count p ⟨data, s.threads.set i place' ++ started⟩ + (p place).toNat =
      count p s + (p place').toNat + started.countP p := by
  obtain ⟨hi, rfl⟩ := List.getElem?_eq_some_iff.1 hplace
  have hpos : p s.threads[i] = true → 0 < s.threads.countP p := fun h =>
    List.countP_pos_iff.2 ⟨_, List.getElem_mem hi, h⟩
  rw [count, count, List.countP_append, List.countP_set hi]
  cases hp : p s.threads[i] with
  | false => cases p place' <;> simp
  | true =>
    have := hpos hp
    cases p place' <;> simp <;> omega

/-- Of at most one thread at places of a kind there are no two. -/
theorem eq_of_count_le_one {p : ℓ → Bool} (h : count p s ≤ 1) {j : ℕ} {place place' : ℓ}
    (hi : s.threads[i]? = some place) (hp : p place = true) (hj : s.threads[j]? = some place')
    (hp' : p place' = true) : i = j := by
  -- the earlier of the two is in the part of the list before the other
  have hlt {i j : ℕ} {place place' : ℓ} (hi : s.threads[i]? = some place) (hp : p place = true)
      (hj : s.threads[j]? = some place') (hp' : p place' = true) : ¬ i < j := by
    intro hij
    have hleft : 0 < (s.threads.take j).countP p :=
      List.countP_pos_iff.2
        ⟨place, List.mem_of_getElem? (by rwa [List.getElem?_take_of_lt hij]), hp⟩
    have hright : 0 < (s.threads.drop j).countP p :=
      List.countP_pos_iff.2 ⟨place', List.mem_of_getElem? (i := 0) (by simpa using hj), hp'⟩
    rw [count, ← List.take_append_drop j s.threads, List.countP_append] at h
    omega
  have hle := hlt hi hp hj hp'
  have hge := hlt hj hp' hi hp
  omega

/-- A thread that does not go on stays where it is. -/
theorem getElem?_of_ne {place place' : ℓ} {started : List ℓ} {j : ℕ} (hij : i ≠ j)
    (hj : s.threads[j]? = some place') : (s.threads.set i place ++ started)[j]? = some place' := by
  have hlt : j < s.threads.length := (List.getElem?_eq_some_iff.1 hj).1
  rw [List.getElem?_append_left (by rwa [List.length_set]), List.getElem?_set_ne hij, hj]

/-- A thread that goes on is at its next place. -/
theorem getElem?_self {place place' : ℓ} {started : List ℓ} (hi : s.threads[i]? = some place) :
    (s.threads.set i place' ++ started)[i]? = some place' := by
  have hlt : i < s.threads.length := (List.getElem?_eq_some_iff.1 hi).1
  rw [List.getElem?_append_left (by rwa [List.length_set]), List.getElem?_set_self hlt]

/-- The thread that is started comes after all others. -/
theorem getElem?_started (s : State δ ℓ) (i : ℕ) (place place' : ℓ) :
    (s.threads.set i place ++ [place'])[s.threads.length]? = some place' := by
  rw [List.getElem?_append_right (by simp), List.length_set, Nat.sub_self]
  rfl

/-! ### Numbers -/

/-- What threads do in an order of which the data keep the length: a thread gets the number of
what it did, once. -/
structure Numbering (C : Code δ ℓ κ) (number : ℓ → Option ℕ) (length : δ → ℕ) : Prop where
  enter : ∀ c, number (C.enter c) = none
  next : ∀ i place data data' place' started, C.next i place data = some (data', place', started) →
    started.filterMap number = [] ∧
      ((length data' = length data ∧ number place' = number place) ∨
        (length data' = length data + 1 ∧ number place = none ∧
          number place' = some (length data)))

variable {number : ℓ → Option ℕ} {length : δ → ℕ}

/-- **One step** keeps that each number is that of one thread. -/
theorem Numbering.step {e : Event κ} (hC : Numbering C number length)
    (h : (s.threads.filterMap number).Perm (List.range (length s.data)))
    (hstep : C.step s e = some s') :
    (s'.threads.filterMap number).Perm (List.range (length s'.data)) := by
  cases e with
  | call c =>
    obtain rfl := step_call.1 hstep
    simpa [List.filterMap_append, hC.enter c] using h
  | run i =>
    obtain ⟨place, data, place', started, hplace, hnext, rfl⟩ := step_run.1 hstep
    obtain ⟨hstarted, hnumber⟩ := hC.next _ _ _ _ _ _ hnext
    obtain ⟨hi, hget⟩ := List.getElem?_eq_some_iff.1 hplace
    have hbefore : s.threads = s.threads.take i ++ place :: s.threads.drop (i + 1) := by
      rw [← hget, ← List.drop_eq_getElem_cons hi, List.take_append_drop]
    rw [hbefore, List.filterMap_append, List.filterMap_cons] at h
    rw [List.set_eq_take_append_cons_drop, if_pos hi, List.filterMap_append, hstarted,
      List.append_nil, List.filterMap_append, List.filterMap_cons]
    obtain ⟨hlength, hsame⟩ | ⟨hlength, hnone, hsome⟩ := hnumber
    · rw [hlength, hsame]
      exact h
    · rw [hnone] at h
      rw [hlength, hsome, List.range_succ]
      exact List.perm_middle.trans
        ((h.cons _).trans (List.perm_append_singleton _ _).symm)

/-- **Each number is that of one thread** in every state that is reached. -/
theorem Numbering.reaches (hC : Numbering C number length)
    (h : (s₀.threads.filterMap number).Perm (List.range (length s₀.data)))
    (hs : C.Reaches P s₀ s) :
    (s.threads.filterMap number).Perm (List.range (length s.data)) :=
  hs.invariant h fun _ _ _ h _ hstep => hC.step h hstep

end Code
end Threads
