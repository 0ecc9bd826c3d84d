/-
# Programs over a store of cells, and what they own of it

A pointer program reads and writes cells through nilable pointers.  `Store` is
the memory, an address a natural number and a cell a value of any type `α`;
`Exec` is a program over it that may stop at a `Fault`: a pointer that is nil, a
panic with its message, or a loop that ran out of the steps it was given.

`Store.Holds` says which cells a program may rely on, as a finite multiset of
pairs (address, content) without a repeated address.  The rest of the store is
whatever it is, so a `Triple` proved for the cells `M` holds inside every
larger store: a write changes one pair of `M` and nothing else
(`Triple.modify_bind`), an allocation adds one whose address is new
(`Triple.alloc_bind`).  Two cells of one multiset are different cells, which is
all that is ever needed about aliasing.
-/

import Mathlib.Algebra.Order.Group.Multiset
import Mathlib.Data.Multiset.MapFold
import Mathlib.Data.Multiset.Range
import Mathlib.Tactic.Abel

namespace CellStore

/-- Why a program stops without a result. -/
inductive Fault where
  | nilDereference
  | panic (message : String)
  | outOfFuel
deriving DecidableEq, Repr

/-- A pointer to a cell, or nil. -/
abbrev Ptr := Option ℕ

/-- A memory of cells: `next` is the address the next allocation gets. -/
structure Store (α : Type) where
  next : ℕ
  cell : ℕ → Option α

variable {α β γ : Type}

/-- The memory in which nothing has been allocated. -/
def Store.empty : Store α := ⟨0, fun _ => none⟩

/-- A program over a store, with its result or the fault that stopped it. -/
abbrev Exec (α β : Type) := StateT (Store α) (Except Fault) β

/-- The content of the cell `p` points to. -/
def load (p : Ptr) : Exec α α := fun s =>
  match p.bind s.cell with
  | none => .error .nilDereference
  | some c => .ok (c, s)

/-- Rewrite the cell `p` points to. -/
def modify (p : Ptr) (f : α → α) : Exec α Unit := fun s =>
  match p, p.bind s.cell with
  | some a, some c => .ok ((), { s with cell := Function.update s.cell a (some (f c)) })
  | _, _ => .error .nilDereference

/-- Allocate a cell. -/
def alloc (c : α) : Exec α Ptr := fun s =>
  .ok (some s.next, { next := s.next + 1, cell := Function.update s.cell s.next (some c) })

/-- The cells `M` are in the store, at pairwise different addresses that were
allocated before. -/
structure Store.Holds (s : Store α) (M : Multiset (ℕ × α)) : Prop where
  nodup : (M.map Prod.fst).Nodup
  lt_next : ∀ c ∈ M, c.1 < s.next
  cell_eq : ∀ c ∈ M, s.cell c.1 = some c.2

/-- Started on the cells `M`, the program `x` returns, with a result and cells
that satisfy `Q`. -/
def Triple (M : Multiset (ℕ × α)) (x : Exec α β) (Q : β → Multiset (ℕ × α) → Prop) : Prop :=
  ∀ s : Store α, s.Holds M → ∃ b s' M', x s = .ok (b, s') ∧ s'.Holds M' ∧ Q b M'

variable {M R : Multiset (ℕ × α)} {Q : β → Multiset (ℕ × α) → Prop}

/-- Nothing is in the empty store, and it owes nothing. -/
theorem Store.holds_zero (s : Store α) : s.Holds 0 :=
  ⟨by simp, by simp, by simp⟩

/-- Fewer cells are still there. -/
theorem Store.Holds.mono {s : Store α} (h : s.Holds M) (hR : R ≤ M) : s.Holds R :=
  ⟨Multiset.nodup_of_le (Multiset.map_le_map hR) h.nodup,
    fun c hc => h.lt_next c (Multiset.mem_of_le hR hc),
    fun c hc => h.cell_eq c (Multiset.mem_of_le hR hc)⟩

/-- No more cells are held than were allocated. -/
theorem Store.Holds.card_le {s : Store α} (h : s.Holds M) : M.card ≤ s.next := by
  have hle : M.map Prod.fst ≤ Multiset.range s.next := by
    refine (Multiset.le_iff_subset h.nodup).2 fun a ha => ?_
    obtain ⟨c, hc, rfl⟩ := Multiset.mem_map.1 ha
    exact Multiset.mem_range.2 (h.lt_next c hc)
  simpa using Multiset.card_le_card hle

/-- **Two cells of one multiset are two cells.** -/
theorem Store.Holds.ne {s : Store α} {a b : ℕ} {c d : α} (h : s.Holds M)
    (hM : M = {(a, c)} + {(b, d)} + R) : a ≠ b := by
  have hnd := h.nodup
  subst hM
  rintro rfl
  simp at hnd

/-- **A write changes one cell of those held, and no other.** -/
theorem Store.Holds.update {s : Store α} {a : ℕ} {c d : α} (h : s.Holds ({(a, c)} + R)) :
    Store.Holds { s with cell := Function.update s.cell a (some d) } ({(a, d)} + R) := by
  have hnd := h.nodup
  rw [Multiset.map_add, Multiset.map_singleton, Multiset.singleton_add,
    Multiset.nodup_cons] at hnd
  refine ⟨?_, fun e he => ?_, fun e he => ?_⟩
  · simpa [Multiset.singleton_add] using hnd
  · rcases Multiset.mem_add.1 he with he | he
    · obtain rfl := Multiset.mem_singleton.1 he
      exact h.lt_next (a, c) (by simp)
    · exact h.lt_next e (Multiset.mem_add.2 (.inr he))
  · rcases Multiset.mem_add.1 he with he | he
    · obtain rfl := Multiset.mem_singleton.1 he
      simp
    · have hea : e.1 ≠ a := fun heq => hnd.1 (Multiset.mem_map.2 ⟨e, he, heq⟩)
      simp only [Function.update_of_ne hea]
      exact h.cell_eq e (Multiset.mem_add.2 (.inr he))

/-- An allocated cell is different from every cell held before. -/
theorem Store.Holds.alloc {s : Store α} (h : s.Holds M) (c : α) :
    Store.Holds { next := s.next + 1, cell := Function.update s.cell s.next (some c) }
      ({(s.next, c)} + M) := by
  have hne : ∀ e ∈ M, e.1 ≠ s.next := fun e he => (h.lt_next e he).ne
  refine ⟨?_, fun e he => ?_, fun e he => ?_⟩
  · rw [Multiset.map_add, Multiset.map_singleton, Multiset.singleton_add, Multiset.nodup_cons]
    refine ⟨fun hmem => ?_, h.nodup⟩
    obtain ⟨e, he, heq⟩ := Multiset.mem_map.1 hmem
    exact hne e he heq
  · rcases Multiset.mem_add.1 he with he | he
    · obtain rfl := Multiset.mem_singleton.1 he
      simp
    · exact (h.lt_next e he).trans (Nat.lt_succ_self _)
  · rcases Multiset.mem_add.1 he with he | he
    · obtain rfl := Multiset.mem_singleton.1 he
      simp
    · simp only [Function.update_of_ne (hne e he)]
      exact h.cell_eq e he

/-! ### Rules for programs -/

/-- A sequence that returns has a first part that returns. -/
theorem exists_of_bind_eq_ok {x : Except Fault β} {f : β → Except Fault γ} {c : γ}
    (h : x >>= f = .ok c) : ∃ b, x = .ok b ∧ f b = .ok c := by
  cases x with
  | error e => cases h
  | ok b => exact ⟨b, rfl, h⟩

/-- A sequence that fails fails in its first part or after it. -/
theorem bind_eq_error {x : Except Fault β} {f : β → Except Fault γ} {e : Fault}
    (h : x >>= f = .error e) : x = .error e ∨ ∃ b, x = .ok b ∧ f b = .error e := by
  cases x with
  | error e' => exact .inl (congrArg Except.error (Except.error.inj h))
  | ok b => exact .inr ⟨b, rfl, h⟩

/-- What a result comes from, read through a function. -/
theorem exists_of_map_eq_ok {ε α β : Type} {x : Except ε α} {F : α → β} {b : β}
    (h : x.map F = .ok b) : ∃ a, x = .ok a ∧ F a = b := by
  cases x with
  | error e => cases h
  | ok a => exact ⟨a, rfl, Except.ok.inj h⟩

/-- Reading a result through a function keeps the failures. -/
theorem map_eq_error_iff {ε α β : Type} {x : Except ε α} {F : α → β} {e : ε} :
    x.map F = .error e ↔ x = .error e := by
  cases x with
  | error e' => simp [Except.map]
  | ok a => simp [Except.map]

/-- What is left of a result when its failure is forgotten. -/
theorem toOption_eq_some_iff {ε α : Type} {x : Except ε α} {a : α} :
    x.toOption = some a ↔ x = .ok a := by
  cases x with
  | error e => simp [Except.toOption]
  | ok b => simp [Except.toOption]

/-- A returned value satisfies what the caller asks of it. -/
theorem Triple.pure {b : β} (h : Q b M) : Triple M (pure b) Q :=
  fun s hs => ⟨b, s, M, rfl, hs, h⟩

/-- Run `x`, then what follows it on the cells `x` leaves. -/
theorem Triple.bind {x : Exec α γ} {f : γ → Exec α β} {P : γ → Multiset (ℕ × α) → Prop}
    (hx : Triple M x P) (hf : ∀ b M', P b M' → Triple M' (f b) Q) : Triple M (x >>= f) Q := by
  intro s hs
  obtain ⟨b, s', M', hxs, hs', hP⟩ := hx s hs
  obtain ⟨d, s'', M'', hfs, hs'', hQ⟩ := hf b M' hP s' hs'
  refine ⟨d, s'', M'', ?_, hs'', hQ⟩
  simp only [Bind.bind, StateT.bind, hxs, Except.bind]
  exact hfs

/-- What the store holds may be used to prove a program. -/
theorem Triple.of_holds {x : Exec α β} (h : (∃ s : Store α, s.Holds M) → Triple M x Q) :
    Triple M x Q :=
  fun s hs => h ⟨s, hs⟩ s hs

/-- Reading a cell that is held. -/
theorem Triple.load_bind {a : ℕ} {c : α} {f : α → Exec α β} (hc : (a, c) ∈ M)
    (h : Triple M (f c) Q) : Triple M (load (some a) >>= f) Q := by
  intro s hs
  have hcell : s.cell a = some c := hs.cell_eq (a, c) hc
  obtain ⟨b, s', M', hfs, hs', hQ⟩ := h s hs
  refine ⟨b, s', M', ?_, hs', hQ⟩
  simp only [Bind.bind, StateT.bind, load, Option.bind, hcell, Except.bind]
  exact hfs

/-- Writing a cell that is held. -/
theorem Triple.modify_bind {a : ℕ} {c : α} {g : α → α} {f : Unit → Exec α β}
    (hM : M = {(a, c)} + R) (h : Triple ({(a, g c)} + R) (f ()) Q) :
    Triple M (modify (some a) g >>= f) Q := by
  subst hM
  intro s hs
  have hcell : s.cell a = some c := hs.cell_eq (a, c) (by simp)
  obtain ⟨b, s', M', hfs, hs', hQ⟩ := h _ hs.update
  refine ⟨b, s', M', ?_, hs', hQ⟩
  simp only [Bind.bind, StateT.bind, modify, Option.bind, hcell, Except.bind]
  exact hfs

/-- Allocating a cell. -/
theorem Triple.alloc_bind {c : α} {f : Ptr → Exec α β}
    (h : ∀ a : ℕ, (∀ e ∈ M, e.1 ≠ a) → Triple ({(a, c)} + M) (f (some a)) Q) :
    Triple M (alloc c >>= f) Q := by
  intro s hs
  obtain ⟨b, s', M', hfs, hs', hQ⟩ :=
    h s.next (fun e he => (hs.lt_next e he).ne) _ (hs.alloc c)
  refine ⟨b, s', M', ?_, hs', hQ⟩
  simp only [Bind.bind, StateT.bind, alloc, Except.bind]
  exact hfs

end CellStore
