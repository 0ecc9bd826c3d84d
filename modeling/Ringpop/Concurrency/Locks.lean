/-
# Threads that take locks

A program whose threads take and release locks: at each place a thread takes a lock,
releases one, works on the data, or has ended (`Instr`).  A thread that is about to take a
lock which is held waits, so that the code of the threads is a `Threads.Code`
(`Program.code`).

Which locks a thread holds is seen from where it is, if every path to a place takes and
releases the same locks (`Program.Annotated`).  Then the holder of a lock is the one thread
that is at a place which holds it, in every state that is reached (`Annotated.step`).  A
set of threads is deadlocked if each of them waits for a lock that another one of the set
holds (`Program.Deadlocked`); where no set is, the threads go on (`Annotated.exists_step`).
-/

import Ringpop.Concurrency.Threads
import Mathlib.Data.Finset.Basic

namespace Threads

variable {δ ℓ κ μ : Type} [DecidableEq μ]

/-- What a thread does at a place. -/
inductive Instr (δ ℓ μ : Type) where
  | lock (m : μ) (place : ℓ)
  | unlock (m : μ) (place : ℓ)
  | act (f : δ → δ × ℓ)
  | halt

/-- The program of the threads: where a call begins, and what is done at a place. -/
structure Program (δ ℓ κ μ : Type) where
  enter : κ → ℓ
  instr : ℓ → Instr δ ℓ μ

/-- The data, and which thread holds each lock. -/
structure Locked (δ μ : Type) where
  data : δ
  holder : μ → Option ℕ

namespace Program

variable (p : Program δ ℓ κ μ)

/-- The code of the threads. -/
def code : Code (Locked δ μ) ℓ κ where
  enter := p.enter
  next i place d :=
    match p.instr place with
    | .lock m place =>
        if d.holder m = none then some (⟨d.data, Function.update d.holder m (some i)⟩, place, [])
        else none
    | .unlock m place => some (⟨d.data, Function.update d.holder m none⟩, place, [])
    | .act f =>
        let (data, place) := f d.data
        some (⟨data, d.holder⟩, place, [])
    | .halt => none

/-- Nobody has been called, and all locks are free. -/
def start (data : δ) : State (Locked δ μ) ℓ := ⟨⟨data, fun _ => none⟩, []⟩

/-- Each thread of the set waits for a lock that another thread of the set holds. -/
def Deadlocked (s : State (Locked δ μ) ℓ) (T : Set ℕ) : Prop :=
  T.Nonempty ∧ ∀ i ∈ T, ∃ place m place', s.threads[i]? = some place ∧
    p.instr place = .lock m place' ∧ ∃ j ∈ T, j ≠ i ∧ s.data.holder m = some j

/-- The locks that are held at each place: those taken on the way there. -/
structure Annotated (held : ℓ → Finset μ) : Prop where
  enter : ∀ c, held (p.enter c) = ∅
  lock : ∀ place m place', p.instr place = .lock m place' →
    m ∉ held place ∧ held place' = insert m (held place)
  unlock : ∀ place m place', p.instr place = .unlock m place' →
    m ∈ held place ∧ held place' = (held place).erase m
  act : ∀ place f, p.instr place = .act f → ∀ data, held (f data).2 = held place
  halt : ∀ place, p.instr place = .halt → held place = ∅

/-- The holder of a lock is the thread at a place that holds it. -/
def Holds (held : ℓ → Finset μ) (s : State (Locked δ μ) ℓ) : Prop :=
  ∀ m i, s.data.holder m = some i ↔ ∃ place, s.threads[i]? = some place ∧ m ∈ held place

variable {p} {held : ℓ → Finset μ} {s s' : State (Locked δ μ) ℓ} {e : Event κ} {i : ℕ}
  {place place' : ℓ} {d' : Locked δ μ} {started : List ℓ} {m : μ}

/-- **What a thread does** to the locks and to the data. -/
theorem next_cases {d : Locked δ μ} (h : p.code.next i place d = some (d', place', started)) :
    started = [] ∧
      ((∃ m, p.instr place = .lock m place' ∧ d.holder m = none ∧
          d' = ⟨d.data, Function.update d.holder m (some i)⟩) ∨
        (∃ m, p.instr place = .unlock m place' ∧
          d' = ⟨d.data, Function.update d.holder m none⟩) ∨
        ∃ f, p.instr place = .act f ∧ place' = (f d.data).2 ∧ d' = ⟨(f d.data).1, d.holder⟩) := by
  simp only [code] at h
  split at h
  · rename_i m q hinstr
    split_ifs at h with hfree
    simp only [Option.some.injEq, Prod.mk.injEq] at h
    obtain ⟨rfl, rfl, rfl⟩ := h
    exact ⟨rfl, .inl ⟨m, hinstr, hfree, rfl⟩⟩
  · rename_i m q hinstr
    simp only [Option.some.injEq, Prod.mk.injEq] at h
    obtain ⟨rfl, rfl, rfl⟩ := h
    exact ⟨rfl, .inr (.inl ⟨m, hinstr, rfl⟩)⟩
  · rename_i f hinstr
    simp only [Option.some.injEq, Prod.mk.injEq] at h
    obtain ⟨rfl, rfl, rfl⟩ := h
    exact ⟨rfl, .inr (.inr ⟨f, hinstr, rfl, rfl⟩)⟩
  · cases h

omit [DecidableEq μ] in
theorem holds_start (data : δ) : Holds held (start data) := by
  intro m i
  simp [start]

omit [DecidableEq μ] in
/-- A new thread that holds nothing. -/
theorem Holds.call (h : Holds held s) (hnone : held place = ∅) :
    Holds held ⟨s.data, s.threads ++ [place]⟩ := by
  intro m i
  rw [h m i]
  by_cases hi : i < s.threads.length
  · rw [List.getElem?_append_left hi]
  · rw [List.getElem?_append_right (Nat.le_of_not_lt hi),
      List.getElem?_eq_none (Nat.le_of_not_lt hi)]
    constructor
    · rintro ⟨q, hq, -⟩
      cases hq
    · rintro ⟨q, hq, hm⟩
      obtain rfl := List.mem_singleton.1 (List.mem_of_getElem? hq)
      rw [hnone] at hm
      exact absurd hm (Finset.notMem_empty m)

omit [DecidableEq μ] in
/-- The holders after one thread has gone on: its own locks are those of its new place, and
the others keep theirs. -/
theorem Holds.run (h : Holds held s) (hplace : s.threads[i]? = some place)
    (hself : ∀ m, d'.holder m = some i ↔ m ∈ held place')
    (hothers : ∀ m j, j ≠ i → (d'.holder m = some j ↔ s.data.holder m = some j)) :
    Holds held ⟨d', s.threads.set i place' ++ []⟩ := by
  intro m j
  by_cases hij : i = j
  · subst hij
    rw [hself m, Code.getElem?_self hplace]
    simp
  · rw [hothers m j (Ne.symm hij), h m j, List.append_nil, List.getElem?_set_ne hij]

/-- **One step** keeps the holders. -/
theorem Annotated.step (hp : p.Annotated held) (h : Holds held s)
    (hstep : p.code.step s e = some s') : Holds held s' := by
  cases e with
  | call c =>
    obtain rfl := Code.step_call.1 hstep
    exact h.call (hp.enter c)
  | run i =>
    obtain ⟨place, d', place', started, hplace, hnext, rfl⟩ := Code.step_run.1 hstep
    have hself (m : μ) : s.data.holder m = some i ↔ m ∈ held place := by
      rw [h m i, hplace]
      simp
    obtain ⟨rfl, ⟨m₀, hinstr, hfree, rfl⟩ | ⟨m₀, hinstr, rfl⟩ | ⟨f, hinstr, rfl, rfl⟩⟩ :=
      next_cases hnext
    · obtain ⟨-, hheld⟩ := hp.lock _ _ _ hinstr
      refine h.run hplace (fun m => ?_) fun m j hj => ?_
      · by_cases hm : m = m₀
        · subst hm
          simp [hheld]
        · simp [hheld, hm, hself]
      · by_cases hm : m = m₀
        · subst hm
          simp [hfree, Ne.symm hj]
        · simp [hm]
    · obtain ⟨hmem, hheld⟩ := hp.unlock _ _ _ hinstr
      refine h.run hplace (fun m => ?_) fun m j hj => ?_
      · by_cases hm : m = m₀
        · subst hm
          simp [hheld]
        · simp [hheld, hm, hself]
      · by_cases hm : m = m₀
        · subst hm
          simp [(hself m).2 hmem, Ne.symm hj]
        · simp [hm]
    · refine h.run hplace (fun m => ?_) fun m j _ => Iff.rfl
      rw [hp.act _ _ hinstr s.data.data, hself]

/-- **In every state that is reached**, the holders are the threads at places that hold. -/
theorem Annotated.holds (hp : p.Annotated held) {P : State (Locked δ μ) ℓ → Event κ → Prop}
    {data : δ} (hs : p.code.Reaches P (start data) s) : Holds held s :=
  hs.invariant (holds_start data) fun _ _ _ h _ hstep => hp.step h hstep

/-- Where a thread goes on from a place. -/
def after (p : Program δ ℓ κ μ) (data : δ) (place : ℓ) : Option ℓ :=
  match p.instr place with
  | .lock _ place => some place
  | .unlock _ place => some place
  | .act f => some (f data).2
  | .halt => none

theorem after_of_next {d : Locked δ μ} (h : p.code.next i place d = some (d', place', started)) :
    p.after d.data place = some place' := by
  obtain ⟨-, ⟨m, hinstr, -⟩ | ⟨m, hinstr, -⟩ | ⟨f, hinstr, rfl, -⟩⟩ := next_cases h
  · rw [after, hinstr]
  · rw [after, hinstr]
  · rw [after, hinstr]

/-- A thread that waits, or has ended, is one that cannot go on. -/
theorem next_eq_none (h : p.code.next i place s.data = none) :
    p.instr place = .halt ∨
      ∃ m place' j, p.instr place = .lock m place' ∧ s.data.holder m = some j := by
  simp only [code] at h
  split at h
  · rename_i m place' hinstr
    split_ifs at h with hfree
    obtain ⟨j, hj⟩ := Option.ne_none_iff_exists'.1 hfree
    exact .inr ⟨m, place', j, hinstr, hj⟩
  · cases h
  · cases h
  · exact .inl ‹_›

/-- **Where no set is deadlocked**, and some thread has not ended, a thread can go on. -/
theorem Annotated.exists_step (hp : p.Annotated held) (h : Holds held s)
    (hfree : ∀ T, ¬ p.Deadlocked s T) (hplace : s.threads[i]? = some place)
    (hhalt : p.instr place ≠ .halt) : ∃ j s', p.code.step s (.run j) = some s' := by
  by_contra hstuck
  -- otherwise the threads that have not ended are deadlocked
  refine hfree {j | ∃ q, s.threads[j]? = some q ∧ p.instr q ≠ .halt} ⟨⟨i, place, hplace, hhalt⟩, ?_⟩
  rintro j ⟨q, hq, hnot⟩
  have hnone : p.code.next j q s.data = none := by
    by_contra hsome
    obtain ⟨⟨d', q', started⟩, hnext⟩ := Option.ne_none_iff_exists'.1 hsome
    exact hstuck ⟨j, _, Code.step_run.2 ⟨q, d', q', started, hq, hnext, rfl⟩⟩
  obtain ⟨m, q', k, hinstr, hk⟩ := (next_eq_none hnone).resolve_left hnot
  obtain ⟨r, hr, hm⟩ := (h m k).1 hk
  refine ⟨q, m, q', hq, hinstr, k, ⟨r, hr, fun hended => ?_⟩, ?_, hk⟩
  · rw [hp.halt r hended] at hm
    exact absurd hm (Finset.notMem_empty m)
  · rintro rfl
    rw [hq] at hr
    obtain rfl := Option.some.inj hr
    exact (hp.lock q m q' hinstr).1 hm

end Program
end Threads
