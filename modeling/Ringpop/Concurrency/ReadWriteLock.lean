/-
# Threads that share data behind a read-write lock

A program whose threads read shared data with the lock taken for reading and change it with
the lock taken for writing (`RWInstr`).  Several threads may hold the lock for reading, or
one for writing; a thread that cannot take it waits (`RWProgram.code`).  A thread that waits
to write does not keep readers out here, so that there are more runs than with a lock that
prefers writers.

How a thread holds the lock is seen from where it is (`RWProgram.Annotated`), and then a
thread that writes is alone (`Holds.free_of_writing`).  So what a thread knows about the data
at a place where it holds the lock cannot be spoilt by the others.  `RWProgram.Proved` is a
proof outline that makes use of this: an invariant of the data while nobody writes, and an
assertion for each place, which only has to survive the writes of others at places where
the lock is not held.  Then the assertions hold in every state that is reached
(`Proved.reaches`).  With one lock there is no deadlock (`Annotated.exists_step`).
-/

import Ringpop.Concurrency.Threads
import Mathlib.Data.Finset.Basic

namespace Threads

variable {δ ℓ κ : Type}

/-- What a thread does at a place. -/
inductive RWInstr (δ ℓ : Type) where
  | rlock (place : ℓ)
  | runlock (place : ℓ)
  | lock (place : ℓ)
  | unlock (place : ℓ)
  | act (f : δ → δ × ℓ)
  | halt

/-- The program of the threads: where a call begins, and what is done at a place. -/
structure RWProgram (δ ℓ κ : Type) where
  enter : κ → ℓ
  instr : ℓ → RWInstr δ ℓ

/-- The data, and which threads hold the lock. -/
structure RWLocked (δ : Type) where
  data : δ
  writer : Option ℕ
  readers : Finset ℕ

/-- How a thread holds the lock. -/
inductive RWMode where
  | free
  | reading
  | writing
deriving DecidableEq, Repr

namespace RWProgram

variable (p : RWProgram δ ℓ κ)

/-- The code of the threads. -/
def code : Code (RWLocked δ) ℓ κ where
  enter := p.enter
  next i place d :=
    match p.instr place with
    | .rlock place =>
        if d.writer = none then some ({ d with readers := insert i d.readers }, place, [])
        else none
    | .runlock place => some ({ d with readers := d.readers.erase i }, place, [])
    | .lock place =>
        if d.writer = none ∧ d.readers = ∅ then some ({ d with writer := some i }, place, [])
        else none
    | .unlock place => some ({ d with writer := none }, place, [])
    | .act f =>
        let (data, place) := f d.data
        some ({ d with data := data }, place, [])
    | .halt => none

/-- Nobody has been called, and the lock is free. -/
def start (data : δ) : State (RWLocked δ) ℓ := ⟨⟨data, none, ∅⟩, []⟩

/-- How the lock is held at each place; only a thread that writes changes the data. -/
structure Annotated (mode : ℓ → RWMode) : Prop where
  enter : ∀ c, mode (p.enter c) = .free
  rlock : ∀ place place', p.instr place = .rlock place' →
    mode place = .free ∧ mode place' = .reading
  runlock : ∀ place place', p.instr place = .runlock place' →
    mode place = .reading ∧ mode place' = .free
  lock : ∀ place place', p.instr place = .lock place' →
    mode place = .free ∧ mode place' = .writing
  unlock : ∀ place place', p.instr place = .unlock place' →
    mode place = .writing ∧ mode place' = .free
  act : ∀ place f, p.instr place = .act f → ∀ data, mode (f data).2 = mode place ∧
    (mode place ≠ .writing → (f data).1 = data)
  halt : ∀ place, p.instr place = .halt → mode place = .free

/-- The lock is held by the threads at places that hold it, and by one if it is for writing. -/
structure Holds (mode : ℓ → RWMode) (s : State (RWLocked δ) ℓ) : Prop where
  writer : ∀ i, s.data.writer = some i ↔
    ∃ place, s.threads[i]? = some place ∧ mode place = .writing
  readers : ∀ i, i ∈ s.data.readers ↔
    ∃ place, s.threads[i]? = some place ∧ mode place = .reading
  exclusive : s.data.writer = none ∨ s.data.readers = ∅

/-- A proof outline for calls that meet `C`: what holds of the data while nobody writes, and
what the `i`-th thread knows about the data at each place. -/
structure Proved (mode : ℓ → RWMode) (C : κ → Prop) (I : δ → Prop) (A : ℕ → ℓ → δ → Prop) :
    Prop where
  enter : ∀ i c d, C c → A i (p.enter c) d
  rlock : ∀ i place place', p.instr place = .rlock place' → ∀ d, I d → A i place d → A i place' d
  runlock : ∀ i place place', p.instr place = .runlock place' → ∀ d, A i place d → A i place' d
  lock : ∀ i place place', p.instr place = .lock place' → ∀ d, I d → A i place d → A i place' d
  unlock : ∀ i place place', p.instr place = .unlock place' → ∀ d, A i place d →
    I d ∧ A i place' d
  act : ∀ i place f, p.instr place = .act f → ∀ d, A i place d → A i (f d).2 (f d).1
  stable : ∀ i place f, p.instr place = .act f → mode place = .writing → ∀ d, A i place d →
    ∀ j other, mode other = .free → A j other d → A j other (f d).1

variable {p} {mode : ℓ → RWMode} {s s' s₀ : State (RWLocked δ) ℓ} {e : Event κ} {i j : ℕ}
  {place place' other : ℓ} {d d' : RWLocked δ} {started : List ℓ}

/-- **What a thread does** to the lock and to the data. -/
theorem next_cases (h : p.code.next i place d = some (d', place', started)) : started = [] ∧
    ((p.instr place = .rlock place' ∧ d.writer = none ∧
        d' = { d with readers := insert i d.readers }) ∨
      (p.instr place = .runlock place' ∧ d' = { d with readers := d.readers.erase i }) ∨
      (p.instr place = .lock place' ∧ d.writer = none ∧ d.readers = ∅ ∧
        d' = { d with writer := some i }) ∨
      (p.instr place = .unlock place' ∧ d' = { d with writer := none }) ∨
      ∃ f, p.instr place = .act f ∧ place' = (f d.data).2 ∧
        d' = { d with data := (f d.data).1 }) := by
  simp only [code] at h
  split at h
  · rename_i q hinstr
    split_ifs at h with hfree
    obtain ⟨rfl, rfl, rfl⟩ := h
    exact ⟨rfl, .inl ⟨hinstr, hfree, rfl⟩⟩
  · rename_i q hinstr
    obtain ⟨rfl, rfl, rfl⟩ := h
    exact ⟨rfl, .inr (.inl ⟨hinstr, rfl⟩)⟩
  · rename_i q hinstr
    split_ifs at h with hfree
    obtain ⟨rfl, rfl, rfl⟩ := h
    exact ⟨rfl, .inr (.inr (.inl ⟨hinstr, hfree.1, hfree.2, rfl⟩))⟩
  · rename_i q hinstr
    obtain ⟨rfl, rfl, rfl⟩ := h
    exact ⟨rfl, .inr (.inr (.inr (.inl ⟨hinstr, rfl⟩)))⟩
  · rename_i f hinstr
    obtain ⟨rfl, rfl, rfl⟩ := h
    exact ⟨rfl, .inr (.inr (.inr (.inr ⟨f, hinstr, rfl, rfl⟩)))⟩
  · cases h

/-! ### Who holds the lock -/

theorem holds_start (data : δ) : Holds mode (start data) where
  writer i := by simp [start]
  readers i := by simp [start]
  exclusive := .inl rfl

/-- Where a thread is after a call has begun. -/
theorem getElem?_call (h : (s.threads ++ [place])[i]? = some place') :
    s.threads[i]? = some place' ∨ place' = place := by
  by_cases hi : i < s.threads.length
  · rw [List.getElem?_append_left hi] at h
    exact .inl h
  · rw [List.getElem?_append_right (Nat.le_of_not_lt hi)] at h
    exact .inr (List.mem_singleton.1 (List.mem_of_getElem? h))

/-- A new thread that does not hold the lock. -/
theorem Holds.call (h : Holds mode s) (hfree : mode place = .free) :
    Holds mode ⟨s.data, s.threads ++ [place]⟩ := by
  have hsame (m : RWMode) (hm : m ≠ .free) (i : ℕ) :
      (∃ q, (s.threads ++ [place])[i]? = some q ∧ mode q = m) ↔
        ∃ q, s.threads[i]? = some q ∧ mode q = m := by
    constructor
    · rintro ⟨q, hq, hmode⟩
      rcases getElem?_call hq with hq | rfl
      · exact ⟨q, hq, hmode⟩
      · exact absurd (hmode.symm.trans hfree) hm
    · rintro ⟨q, hq, hmode⟩
      have hlt := (List.getElem?_eq_some_iff.1 hq).1
      exact ⟨q, by rwa [List.getElem?_append_left hlt], hmode⟩
  exact ⟨fun i => (h.writer i).trans (hsame .writing (by decide) i).symm,
    fun i => (h.readers i).trans (hsame .reading (by decide) i).symm, h.exclusive⟩

/-- The holders after one thread has gone on: it holds the lock as at its new place, and the
others as before. -/
theorem Holds.run (h : Holds mode s) (hplace : s.threads[i]? = some place)
    (hwriter : d'.writer = some i ↔ mode place' = .writing)
    (hreaders : i ∈ d'.readers ↔ mode place' = .reading)
    (hothers : ∀ j, j ≠ i → (d'.writer = some j ↔ s.data.writer = some j) ∧
      (j ∈ d'.readers ↔ j ∈ s.data.readers))
    (hexclusive : d'.writer = none ∨ d'.readers = ∅) :
    Holds mode ⟨d', s.threads.set i place' ++ []⟩ := by
  have hself (m : RWMode) : (∃ q, (s.threads.set i place' ++ [])[i]? = some q ∧ mode q = m) ↔
      mode place' = m := by
    rw [Code.getElem?_self hplace]
    simp
  refine ⟨fun j => ?_, fun j => ?_, hexclusive⟩
  · by_cases hij : i = j
    · subst hij
      exact hwriter.trans (hself .writing).symm
    · rw [(hothers j (Ne.symm hij)).1, h.writer j, List.append_nil, List.getElem?_set_ne hij]
  · by_cases hij : i = j
    · subst hij
      exact hreaders.trans (hself .reading).symm
    · rw [(hothers j (Ne.symm hij)).2, h.readers j, List.append_nil, List.getElem?_set_ne hij]

theorem Holds.writer_iff (h : Holds mode s) (hplace : s.threads[i]? = some place) :
    s.data.writer = some i ↔ mode place = .writing := by
  rw [h.writer i, hplace]
  simp

theorem Holds.reader_iff (h : Holds mode s) (hplace : s.threads[i]? = some place) :
    i ∈ s.data.readers ↔ mode place = .reading := by
  rw [h.readers i, hplace]
  simp

/-- **Who writes is alone.** -/
theorem Holds.free_of_writing (h : Holds mode s) (hi : s.threads[i]? = some place)
    (hwriting : mode place = .writing) (hj : s.threads[j]? = some other) (hij : j ≠ i) :
    mode other = .free := by
  have hwriter := (h.writer_iff hi).2 hwriting
  cases hmode : mode other with
  | free => rfl
  | reading =>
    have hempty := h.exclusive.resolve_left (by rw [hwriter]; exact Option.some_ne_none i)
    have hmem := (h.reader_iff hj).2 hmode
    rw [hempty] at hmem
    exact absurd hmem (Finset.notMem_empty j)
  | writing =>
    have hwriter' := (h.writer_iff hj).2 hmode
    rw [hwriter] at hwriter'
    exact absurd (Option.some.inj hwriter').symm hij

/-- Nobody writes while a thread reads. -/
theorem Holds.writer_eq_none (h : Holds mode s) (hi : s.threads[i]? = some place)
    (hreading : mode place = .reading) : s.data.writer = none := by
  refine h.exclusive.resolve_right fun hempty => ?_
  have hmem := (h.reader_iff hi).2 hreading
  rw [hempty] at hmem
  exact absurd hmem (Finset.notMem_empty i)

/-- **One step** keeps the holders. -/
theorem Annotated.step (hp : p.Annotated mode) (h : Holds mode s)
    (hstep : p.code.step s e = some s') : Holds mode s' := by
  cases e with
  | call c =>
    obtain rfl := Code.step_call.1 hstep
    exact h.call (hp.enter c)
  | run i =>
    obtain ⟨place, d', place', started, hplace, hnext, rfl⟩ := Code.step_run.1 hstep
    have hw := h.writer_iff hplace
    have hr := h.reader_iff hplace
    obtain ⟨rfl, ⟨hinstr, hfree, rfl⟩ | ⟨hinstr, rfl⟩ | ⟨hinstr, hfree, hempty, rfl⟩ |
      ⟨hinstr, rfl⟩ | ⟨f, hinstr, rfl, rfl⟩⟩ := next_cases hnext
    · obtain ⟨-, hmode'⟩ := hp.rlock _ _ hinstr
      refine h.run hplace ?_ ?_ (fun j hj => ⟨Iff.rfl, ?_⟩) (.inl hfree)
      · simp [hfree, hmode']
      · simp [hmode']
      · simp [hj]
    · obtain ⟨hmode, hmode'⟩ := hp.runlock _ _ hinstr
      have hnone := h.writer_eq_none hplace hmode
      refine h.run hplace ?_ ?_ (fun j hj => ⟨Iff.rfl, ?_⟩) (.inl hnone)
      · simp [hnone, hmode']
      · simp [hmode']
      · simp [hj]
    · obtain ⟨-, hmode'⟩ := hp.lock _ _ hinstr
      refine h.run hplace ?_ ?_ (fun j hj => ⟨?_, Iff.rfl⟩) (.inr hempty)
      · simp [hmode']
      · simp [hempty, hmode']
      · simp [hfree, Ne.symm hj]
    · obtain ⟨hmode, hmode'⟩ := hp.unlock _ _ hinstr
      have hwriter := hw.2 hmode
      have hempty := h.exclusive.resolve_left (by rw [hwriter]; exact Option.some_ne_none i)
      refine h.run hplace ?_ ?_ (fun j hj => ⟨?_, Iff.rfl⟩) (.inl rfl)
      · simp [hmode']
      · simp [hempty, hmode']
      · simp [hwriter, Ne.symm hj]
    · have hmode' := (hp.act _ _ hinstr s.data.data).1
      refine h.run hplace ?_ ?_ (fun j hj => ⟨Iff.rfl, Iff.rfl⟩) h.exclusive
      · rw [hmode']
        exact hw
      · rw [hmode']
        exact hr

/-- **In every state that is reached**, the lock is held as the places say. -/
theorem Annotated.holds (hp : p.Annotated mode) {P : State (RWLocked δ) ℓ → Event κ → Prop}
    (h : Holds mode s₀) (hs : p.code.Reaches P s₀ s) : Holds mode s :=
  hs.invariant h fun _ _ _ h _ hstep => hp.step h hstep

/-! ### Proof outlines -/

/-- The invariant holds while nobody writes, and the assertions where the threads are. -/
structure Outlined (I : δ → Prop) (A : ℕ → ℓ → δ → Prop) (s : State (RWLocked δ) ℓ) : Prop where
  inv : s.data.writer = none → I s.data.data
  at_place : ∀ i place, s.threads[i]? = some place → A i place s.data.data

variable {C : κ → Prop} {I : δ → Prop} {A : ℕ → ℓ → δ → Prop}

theorem outlined_start {data : δ} (h : I data) : Outlined I A (start data) :=
  ⟨fun _ => h, fun i place hplace => by cases hplace⟩

/-- The outline after a thread has gone on without a change of the data. -/
theorem Outlined.run (h : Outlined I A s) (hplace : s.threads[i]? = some place)
    (hdata : d'.data = s.data.data) (hinv : d'.writer = none → I s.data.data)
    (hself : A i place' s.data.data) : Outlined I A ⟨d', s.threads.set i place' ++ []⟩ := by
  refine ⟨fun hnone => by rw [hdata]; exact hinv hnone, fun j q hq => ?_⟩
  rw [hdata]
  by_cases hij : i = j
  · subst hij
    rw [Code.getElem?_self hplace] at hq
    obtain rfl := Option.some.inj hq
    exact hself
  · rw [List.append_nil, List.getElem?_set_ne hij] at hq
    exact h.at_place j q hq

/-- **One step** keeps the outline. -/
theorem Proved.step (hA : p.Proved mode C I A) (hp : p.Annotated mode) (hs : Holds mode s)
    (h : Outlined I A s) (hcall : ∀ c, e = .call c → C c) (hstep : p.code.step s e = some s') :
    Outlined I A s' := by
  cases e with
  | call c =>
    obtain rfl := Code.step_call.1 hstep
    refine ⟨h.inv, fun j q hq => ?_⟩
    rcases getElem?_call hq with hq | rfl
    · exact h.at_place j q hq
    · exact hA.enter j c _ (hcall c rfl)
  | run i =>
    obtain ⟨place, d', place', started, hplace, hnext, rfl⟩ := Code.step_run.1 hstep
    have hAi := h.at_place i place hplace
    obtain ⟨rfl, ⟨hinstr, hfree, rfl⟩ | ⟨hinstr, rfl⟩ | ⟨hinstr, hfree, hempty, rfl⟩ |
      ⟨hinstr, rfl⟩ | ⟨f, hinstr, rfl, rfl⟩⟩ := next_cases hnext
    · exact h.run hplace rfl h.inv (hA.rlock i _ _ hinstr _ (h.inv hfree) hAi)
    · exact h.run hplace rfl h.inv (hA.runlock i _ _ hinstr _ hAi)
    · exact h.run hplace rfl (fun _ => h.inv hfree) (hA.lock i _ _ hinstr _ (h.inv hfree) hAi)
    · obtain ⟨hI, hA'⟩ := hA.unlock i _ _ hinstr _ hAi
      exact h.run hplace rfl (fun _ => hI) hA'
    · have hA' := hA.act i _ f hinstr _ hAi
      by_cases hmode : mode place = .writing
      · -- the others do not hold the lock, and their assertions are stable
        have hwriter := (hs.writer_iff hplace).2 hmode
        refine ⟨fun hnone => absurd (hwriter.symm.trans hnone) (Option.some_ne_none i),
          fun j q hq => ?_⟩
        by_cases hij : i = j
        · subst hij
          rw [Code.getElem?_self hplace] at hq
          obtain rfl := Option.some.inj hq
          exact hA'
        · rw [List.append_nil, List.getElem?_set_ne hij] at hq
          exact hA.stable i _ f hinstr hmode _ hAi j q
            (hs.free_of_writing hplace hmode hq (Ne.symm hij)) (h.at_place j q hq)
      · have hdata := (hp.act _ f hinstr s.data.data).2 hmode
        rw [hdata] at hA'
        exact h.run hplace hdata h.inv hA'

/-- **A proof outline** holds in every state that is reached. -/
theorem Proved.reaches (hA : p.Proved mode C I A) (hp : p.Annotated mode)
    {P : State (RWLocked δ) ℓ → Event κ → Prop} (hP : ∀ s c, P s (.call c) → C c)
    (hs₀ : Holds mode s₀) (h : Outlined I A s₀) (hs : p.code.Reaches P s₀ s) :
    Outlined I A s := by
  refine (hs.invariant (I := fun s => Holds mode s ∧ Outlined I A s) ⟨hs₀, h⟩ ?_).2
  intro s e s' h hPe hstep
  exact ⟨hp.step h.1 hstep, hA.step hp h.1 h.2 (fun c hc => hP s c (hc ▸ hPe)) hstep⟩

/-! ### Progress -/

/-- A thread that cannot go on has ended, or waits for others who hold the lock. -/
theorem next_eq_none (h : p.code.next i place d = none) :
    p.instr place = .halt ∨
      ((∃ place', p.instr place = .rlock place' ∨ p.instr place = .lock place') ∧
        (d.writer ≠ none ∨ d.readers ≠ ∅)) := by
  simp only [code] at h
  split at h
  · rename_i q hinstr
    split_ifs at h with hfree
    exact .inr ⟨⟨q, .inl hinstr⟩, .inl hfree⟩
  · cases h
  · rename_i q hinstr
    split_ifs at h with hfree
    exact .inr ⟨⟨q, .inr hinstr⟩, not_and_or.1 hfree⟩
  · cases h
  · cases h
  · exact .inl ‹_›

/-- **As long as a thread has not ended**, some thread can go on. -/
theorem Annotated.exists_step (hp : p.Annotated mode) (h : Holds mode s)
    (hplace : s.threads[i]? = some place) (hhalt : p.instr place ≠ .halt) :
    ∃ j s', p.code.step s (.run j) = some s' := by
  have hgo (j : ℕ) (q : ℓ) (hq : s.threads[j]? = some q) (hnext : p.code.next j q s.data ≠ none) :
      ∃ j s', p.code.step s (.run j) = some s' := by
    obtain ⟨⟨d', q', started⟩, hnext⟩ := Option.ne_none_iff_exists'.1 hnext
    exact ⟨j, _, Code.step_run.2 ⟨q, d', q', started, hq, hnext, rfl⟩⟩
  -- a thread that holds the lock neither waits nor has ended
  have hholder (j : ℕ) (q : ℓ) (hq : s.threads[j]? = some q) (hmode : mode q ≠ .free) :
      ∃ j s', p.code.step s (.run j) = some s' := by
    refine hgo j q hq fun hnone => hmode ?_
    rcases next_eq_none hnone with hended | ⟨⟨q', hinstr | hinstr⟩, -⟩
    · exact hp.halt q hended
    · exact (hp.rlock q q' hinstr).1
    · exact (hp.lock q q' hinstr).1
  by_cases hnone : p.code.next i place s.data = none
  · obtain ⟨-, hwriter | hreaders⟩ := (next_eq_none hnone).resolve_left hhalt
    · obtain ⟨j, hj⟩ := Option.ne_none_iff_exists'.1 hwriter
      obtain ⟨q, hq, hmode⟩ := (h.writer j).1 hj
      exact hholder j q hq (by rw [hmode]; decide)
    · obtain ⟨j, hj⟩ := Finset.nonempty_iff_ne_empty.2 hreaders
      obtain ⟨q, hq, hmode⟩ := (h.readers j).1 hj
      exact hholder j q hq (by rw [hmode]; decide)
  · exact hgo i place hplace hnone

end RWProgram
end Threads
