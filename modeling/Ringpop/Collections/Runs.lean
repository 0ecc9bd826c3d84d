/-
# Runs of a step that may fail

A run takes one step for each element of a list, and stops at the first step that
fails: `List.foldlM` in `Except`.  Here are the rules by which a property of one
step becomes a property of a run: an invariant of the steps that succeed
(`Along.invariant`), a simulation by a function that does not fail
(`foldlM_refines`), a simulation that also keeps the failures (`foldlM_map`), and when a
run fails at all (`foldlM_eq_error_iff`).  Steps that do not depend on each other are
`List.mapM` (`map_eq_of_mapM_eq_ok`, `exists_mapM_eq_ok_iff`).

What a step needs to be harmless may depend on the state it is taken in.
`Along f P s l` says that each step of the run meets `P` in the state before
it; it can be decided by taking the run.  A step of a run is a place where its list is split
(`exists_last`, `forall_split_cons`).
-/

import Mathlib.Tactic.Common

namespace Runs

variable {σ τ α ε : Type}

/-- Each step of the run from `s` meets the condition, as far as the run gets. -/
def Along (f : σ → α → Except ε σ) (P : σ → α → Prop) : σ → List α → Prop
  | _, [] => True
  | s, a :: l =>
      P s a ∧
        match f s a with
        | .ok s' => Along f P s' l
        | .error _ => True

instance Along.decidable (f : σ → α → Except ε σ) (P : σ → α → Prop)
    [hP : ∀ s a, Decidable (P s a)] : ∀ s l, Decidable (Along f P s l)
  | _, [] => .isTrue trivial
  | s, a :: l =>
      match h : f s a with
      | .ok s' =>
          have := Along.decidable f P s' l
          decidable_of_iff (P s a ∧ Along f P s' l) (by rw [Along, h])
      | .error _ => decidable_of_iff (P s a) (by rw [Along, h, and_true])

section

variable {f : σ → α → Except ε σ} {P : σ → α → Prop} {s s' : σ} {a : α} {l : List α}

theorem Along.head (h : Along f P s (a :: l)) : P s a := h.1

theorem Along.tail (h : Along f P s (a :: l)) (hs : f s a = .ok s') :
    Along f P s' l := by
  have hmatch := h.2
  rwa [hs] at hmatch

/-- Two conditions that are both met. -/
theorem Along.and {Q : σ → α → Prop} (hP : Along f P s l) (hQ : Along f Q s l) :
    Along f (fun s a => P s a ∧ Q s a) s l := by
  induction l generalizing s with
  | nil => trivial
  | cons a l ih =>
    refine ⟨⟨hP.head, hQ.head⟩, ?_⟩
    split
    · rename_i s' hs
      exact ih (hP.tail hs) (hQ.tail hs)
    · trivial

/-- The condition is met on the first part of a run, -/
theorem Along.append_left {l' : List α} (h : Along f P s (l ++ l')) : Along f P s l := by
  induction l generalizing s with
  | nil => trivial
  | cons a l ih =>
    refine ⟨h.head, ?_⟩
    split
    · rename_i s' hs
      exact ih (h.tail hs)
    · trivial

/-- and on the rest, from where the first part ends. -/
theorem Along.append_right {l' : List α} (h : Along f P s (l ++ l'))
    (hrun : l.foldlM f s = .ok s') : Along f P s' l' := by
  induction l generalizing s with
  | nil =>
    obtain rfl : s = s' := Except.ok.inj hrun
    exact h
  | cons a l ih =>
    cases hone : f s a with
    | error e =>
      rw [List.foldlM_cons, hone] at hrun
      cases hrun
    | ok s₁ =>
      rw [List.foldlM_cons, hone] at hrun
      exact ih (h.tail hone) hrun

/-- A condition that all elements of the list meet in every state. -/
theorem along_of_forall_mem (h : ∀ s, ∀ a ∈ l, P s a) (s : σ) : Along f P s l := by
  induction l generalizing s with
  | nil => trivial
  | cons a l ih =>
    refine ⟨h s a (.head _), ?_⟩
    split
    · exact ih (fun s b hb => h s b (.tail _ hb)) _
    · trivial

/-- What holds wherever an invariant does, holds along a run that keeps the invariant. -/
theorem along_of_invariant {I : σ → Prop} (hs : I s) (hP : ∀ s, ∀ a ∈ l, I s → P s a)
    (hstep : ∀ s s', ∀ a ∈ l, I s → f s a = .ok s' → I s') : Along f P s l := by
  induction l generalizing s with
  | nil => trivial
  | cons a l ih =>
    refine ⟨hP s a List.mem_cons_self hs, ?_⟩
    cases h : f s a with
    | error e => trivial
    | ok s' =>
      exact ih (hstep s s' a List.mem_cons_self hs h)
        (fun s a ha => hP s a (List.mem_cons_of_mem _ ha))
        fun s s' a ha => hstep s s' a (List.mem_cons_of_mem _ ha)

/-- A run whose first step succeeds goes on from there. -/
theorem foldlM_cons_ok (hs : f s a = .ok s') :
    (a :: l).foldlM f s = l.foldlM f s' := by
  rw [List.foldlM_cons, hs]
  rfl

/-- **What every step that succeeds keeps, the run keeps.** -/
theorem Along.invariant {I : σ → Prop}
    (hstep : ∀ s a s', I s → P s a → f s a = .ok s' → I s') (hs : I s)
    (hP : Along f P s l) (hrun : l.foldlM f s = .ok s') : I s' := by
  induction l generalizing s with
  | nil =>
    obtain rfl : s = s' := Except.ok.inj hrun
    exact hs
  | cons a l ih =>
    cases hone : f s a with
    | error e =>
      rw [List.foldlM_cons, hone] at hrun
      cases hrun
    | ok s₁ =>
      rw [foldlM_cons_ok hone] at hrun
      exact ih (hstep s a s₁ hs hP.head hone) (hP.tail hone) hrun

/-- **What every step that succeeds keeps, the run keeps**, if nothing is asked of
the state. -/
theorem foldlM_invariant {I : σ → Prop} (hstep : ∀ s a s', I s → f s a = .ok s' → I s')
    (hs : I s) (hrun : l.foldlM f s = .ok s') : I s' :=
  (along_of_forall_mem (P := fun _ _ => True) (fun _ _ _ => trivial) s).invariant
    (fun s a s' hs _ => hstep s a s' hs) hs hrun

/-- **A simulation**: steps that succeed and stay related to the steps of a
function make a run that does. -/
theorem Along.refines {R : σ → τ → Prop} {g : τ → α → τ} {t : τ}
    (hstep : ∀ s t a, R s t → P s a → ∃ s', f s a = .ok s' ∧ R s' (g t a)) (hs : R s t)
    (hP : Along f P s l) : ∃ s', l.foldlM f s = .ok s' ∧ R s' (l.foldl g t) := by
  induction l generalizing s t with
  | nil => exact ⟨s, rfl, hs⟩
  | cons a l ih =>
    obtain ⟨s₁, hone, hs₁⟩ := hstep s t a hs hP.head
    obtain ⟨s', hrun, hs'⟩ := ih hs₁ (hP.tail hone)
    exact ⟨s', (foldlM_cons_ok hone).trans hrun, hs'⟩

/-- **A simulation** whose steps need nothing of the state. -/
theorem foldlM_refines {R : σ → τ → Prop} {g : τ → α → τ} {t : τ}
    (hstep : ∀ s t, ∀ a ∈ l, R s t → ∃ s', f s a = .ok s' ∧ R s' (g t a)) (hs : R s t) :
    ∃ s', l.foldlM f s = .ok s' ∧ R s' (l.foldl g t) :=
  Along.refines (P := fun _ a => a ∈ l) (fun s t a hst ha => hstep s t a ha hst) hs
    (along_of_forall_mem (fun _ _ ha => ha) s)

/-- **Steps that succeed on the states of an invariant**, and keep it, make a run
that does. -/
theorem exists_foldlM {I : σ → Prop}
    (hstep : ∀ s, ∀ a ∈ l, I s → ∃ s', f s a = .ok s' ∧ I s') (hs : I s) :
    ∃ s', l.foldlM f s = .ok s' ∧ I s' :=
  foldlM_refines (R := fun s (_ : Unit) => I s) (g := fun _ _ => ()) (t := ())
    (fun s _ a ha => hstep s a ha) hs

/-- Steps that all return. -/
theorem exists_foldlM_of_forall (h : ∀ s, ∀ a ∈ l, ∃ s', f s a = .ok s') (s : σ) :
    ∃ s', l.foldlM f s = .ok s' := by
  obtain ⟨s', hs', -⟩ := exists_foldlM (I := fun _ => True)
    (fun s a ha _ => (h s a ha).imp fun _ hs => ⟨hs, trivial⟩) trivial
  exact ⟨s', hs'⟩

/-- **Steps that succeed on the states of an invariant** and under a condition, and keep
the invariant, make a run that does. -/
theorem Along.exists_foldlM {I : σ → Prop}
    (hstep : ∀ s a, I s → P s a → ∃ s', f s a = .ok s' ∧ I s') (hs : I s) (hP : Along f P s l) :
    ∃ s', l.foldlM f s = .ok s' ∧ I s' :=
  Along.refines (R := fun s (_ : Unit) => I s) (g := fun _ _ => ()) (t := ())
    (fun s _ a => hstep s a) hs hP

/-- **A simulation that keeps the failures**: on the states of an invariant, the
step read through `F` is the step `g`. -/
theorem foldlM_map {I : σ → Prop} {F : σ → τ} {g : τ → α → Except ε τ}
    (hmap : ∀ s a, I s → (f s a).map F = g (F s) a)
    (hinv : ∀ s a s', I s → f s a = .ok s' → I s') (hs : I s) :
    (l.foldlM f s).map F = l.foldlM g (F s) := by
  induction l generalizing s with
  | nil => rfl
  | cons a l ih =>
    cases hone : f s a with
    | error e =>
      have hg : g (F s) a = .error e := by rw [← hmap s a hs, hone, Except.map]
      rw [List.foldlM_cons, List.foldlM_cons, hone, hg]
      rfl
    | ok s' =>
      have hg : g (F s) a = .ok (F s') := by rw [← hmap s a hs, hone, Except.map]
      rw [foldlM_cons_ok hone, foldlM_cons_ok hg, ih (hinv s a s' hs hone)]

/-- **A run that fails** has a step that fails, in a state that the steps before it lead to. -/
theorem Along.exists_of_error {I : σ → Prop} {e : ε}
    (hstep : ∀ s a s', I s → P s a → f s a = .ok s' → I s') (hs : I s) (hP : Along f P s l)
    (h : l.foldlM f s = .error e) : ∃ s', ∃ a ∈ l, I s' ∧ P s' a ∧ f s' a = .error e := by
  induction l generalizing s with
  | nil => cases h
  | cons a l ih =>
    cases hone : f s a with
    | error e' =>
      rw [List.foldlM_cons, hone] at h
      exact ⟨s, a, .head _, hs, hP.head, hone.trans h⟩
    | ok s₁ =>
      rw [foldlM_cons_ok hone] at h
      obtain ⟨s', b, hb, hfail⟩ := ih (hstep s a s₁ hs hP.head hone) (hP.tail hone) h
      exact ⟨s', b, .tail _ hb, hfail⟩

/-- A run that fails has a step that fails. -/
theorem exists_of_foldlM_eq_error {e : ε} (h : l.foldlM f s = .error e) :
    ∃ s', ∃ a ∈ l, f s' a = .error e := by
  obtain ⟨s', a, ha, -, -, hfail⟩ := Along.exists_of_error (I := fun _ => True)
    (P := fun _ _ => True) (fun _ _ _ _ _ _ => trivial) trivial
    (along_of_forall_mem (fun _ _ _ => trivial) s) h
  exact ⟨s', a, ha, hfail⟩

/-- **A run fails with `e`** when one of its steps does, and with no other failure before
it. -/
theorem foldlM_eq_error_iff {I : σ → Prop} {e : ε}
    (herror : ∀ s a, I s → (f s a = .error e ↔ ¬ P s a))
    (hinv : ∀ s a s', I s → f s a = .ok s' → I s') (hs : I s) :
    l.foldlM f s = .error e ↔ ¬ Along f P s l := by
  induction l generalizing s with
  | nil => simp [Along, pure, Except.pure]
  | cons a l ih =>
    cases hone : f s a with
    | error e' =>
      rw [List.foldlM_cons, hone, Along, hone, and_true, ← herror s a hs, hone]
      rfl
    | ok s' =>
      have hP : P s a := by
        by_contra hnot
        rw [← herror s a hs, hone] at hnot
        cases hnot
      rw [foldlM_cons_ok hone, ih (hinv s a s' hs hone), Along, hone]
      simp only [hP, true_and]

end

/-- A step taken for each element on its own, if all of them succeed. -/
theorem map_eq_of_mapM_eq_ok {β : Type} {f : α → Except ε β} {l : List α} {l' : List β}
    (h : l.mapM f = .ok l') : l.map f = l'.map .ok := by
  induction l generalizing l' with
  | nil =>
    obtain rfl : [] = l' := Except.ok.inj h
    rfl
  | cons a l ih =>
    rw [List.mapM_cons] at h
    cases hone : f a with
    | error e =>
      rw [hone] at h
      cases h
    | ok b =>
      rw [hone] at h
      cases hrest : l.mapM f with
      | error e =>
        simp only [hrest] at h
        cases h
      | ok bs =>
        simp only [hrest] at h
        obtain rfl : b :: bs = l' := Except.ok.inj h
        rw [List.map_cons, hone, ih hrest, List.map_cons]

/-- All of them succeed exactly if each does. -/
theorem exists_mapM_eq_ok_iff {β : Type} {f : α → Except ε β} {l : List α} :
    (∃ l', l.mapM f = .ok l') ↔ ∀ a ∈ l, ∃ b, f a = .ok b := by
  constructor
  · rintro ⟨l', h⟩ a ha
    have hmem : f a ∈ l'.map .ok := by
      rw [← map_eq_of_mapM_eq_ok h]
      exact List.mem_map_of_mem ha
    obtain ⟨b, -, hb⟩ := List.mem_map.1 hmem
    exact ⟨b, hb.symm⟩
  · intro h
    induction l with
    | nil => exact ⟨[], rfl⟩
    | cons a l ih =>
      rw [List.forall_mem_cons] at h
      obtain ⟨b, hb⟩ := h.1
      obtain ⟨bs, hbs⟩ := ih h.2
      refine ⟨b :: bs, ?_⟩
      rw [List.mapM_cons, hb]
      simp only [hbs]
      rfl

/-! ### Places of a run -/

/-- A list with an element that meets a condition has a last one. -/
theorem exists_last {P : α → Prop} {l : List α} (h : ∃ x ∈ l, P x) :
    ∃ pre x post, l = pre ++ x :: post ∧ P x ∧ ∀ y ∈ post, ¬ P y := by
  induction l with
  | nil => simp at h
  | cons x l ih =>
    by_cases hl : ∃ y ∈ l, P y
    · obtain ⟨pre, y, post, rfl, hy, hpost⟩ := ih hl
      exact ⟨x :: pre, y, post, rfl, hy, hpost⟩
    · obtain ⟨y, hy, hP⟩ := h
      rcases List.mem_cons.1 hy with rfl | hy
      · exact ⟨[], y, l, rfl, hP, fun z hz hPz => hl ⟨z, hz, hPz⟩⟩
      · exact absurd ⟨y, hy, hP⟩ hl

/-- Conditions on the splits of a list, one by one. -/
theorem forall_split_cons {P : List α → α → Prop} {b : α} {l : List α} :
    (∀ pre a post, b :: l = pre ++ a :: post → P pre a) ↔
      P [] b ∧ ∀ pre a post, l = pre ++ a :: post → P (b :: pre) a := by
  refine ⟨fun h => ⟨h [] b l rfl, fun pre a post heq => h (b :: pre) a post (by rw [heq]; rfl)⟩, ?_⟩
  rintro ⟨hb, hl⟩ pre a post heq
  cases pre with
  | nil =>
    obtain ⟨rfl, -⟩ := List.cons.inj heq
    exact hb
  | cons b' pre =>
    obtain ⟨rfl, heq'⟩ := List.cons.inj heq
    exact hl pre a post heq'

end Runs
