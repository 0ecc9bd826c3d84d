/-
# Updates one after the other

After each `Update` the ring should hold the members that are alive or suspect,
and no others.  It does not always: the ring is derived from the changes and not
from the member list, and two kinds of change get lost on the way.

* A member that becomes suspect and was not reachable before, because it was
  unknown, faulty or gone, is reachable now, but nothing adds it.
* A member that goes down and comes back in one batch is added before it is
  removed.

`SteadyChange` says of a change that it is none of these, and these are the only
changes that put the ring out of step (`Follows.step_iff`).  As long as all changes
are steady, the ring holds the reachable members (`ring_holds_reachable`).
-/

import Ringpop.Facade.Instance

namespace Ringpop
namespace Facade

open CellStore Runs Hashring Swim

/-- In the loop of `Update`, with the view and the applied changes before it, the
change is harmless to the ring.  If it is taken and the member is alive then, the
member has not gone down in this batch.  If it is taken with a status that
`handleChanges` passes over, the member is as reachable as it was. -/
def SteadyChange (localAddress : String) (choice : Choice) (s : View × List Change) (c : Change) :
    Prop :=
  ∀ c' ∈ (View.outcome localAddress choice (s.1 c.address) c).toOption.join,
    (c'.status = alive → ∀ d ∈ s.2, d.address = c.address → isDown d.status = false) ∧
      (c'.status ≠ alive → isDown c'.status = false →
        (c'.member.isReachable = true ↔ s.1.Reachable c.address))

instance (localAddress : String) (choice : Choice) (s : View × List Change) (c : Change) :
    Decidable (SteadyChange localAddress choice s c) :=
  inferInstanceAs (Decidable (∀ c' ∈ _, _))

/-- All changes that a call handles are harmless. -/
def SteadyCall (localAddress : String) (rp : Instance) (call : UpdateCall) : Prop :=
  Along (fun s ci => View.step localAddress s ci.1 (call.choices ci.2))
    (fun s ci => SteadyChange localAddress (call.choices ci.2) s ci.1)
    (rp.memberlist.entry, []) (if call.stopped then [] else call.changes).zipIdx

instance (localAddress : String) (rp : Instance) (call : UpdateCall) :
    Decidable (SteadyCall localAddress rp call) :=
  inferInstanceAs (Decidable (Along _ _ _ _))

/-! ### One batch -/

theorem not_isReachable_of_isDown {m : Member} (h : isDown m.status = true) :
    ¬ m.isReachable = true := by
  have hstatus : m.status = faulty ∨ m.status = leave := by simpa [isDown] using h
  rcases hstatus with hstatus | hstatus <;> rw [Member.isReachable, hstatus] <;> decide

/-- With what was applied so far, the ring would hold the reachable members. -/
def Follows (servers : Finset String) (s : View × List Change) : Prop :=
  ∀ x, x ∈ ringAfter servers s.2 ↔ s.1.Reachable x

section step

variable {servers : Finset String} {localAddress : String} {choice : Choice}
  {s s' : View × List Change} {c : Change}

/-- After a change, the ring is in step at its address if the change is one of
these, and at the other addresses if it was. -/
theorem Follows.take_iff (h : Follows servers s) :
    Follows servers (View.take s (some c)) ↔
      (c.status = alive → ∀ d ∈ s.2, d.address = c.address → isDown d.status = false) ∧
        (c.status ≠ alive → isDown c.status = false →
          (c.member.isReachable = true ↔ s.1.Reachable c.address)) := by
  have hother (x : String) (hx : c.address ≠ x) :
      x ∈ ringAfter servers (View.take s (some c)).2 ↔
        (View.take s (some c)).1.Reachable x := by
    have hview : (View.take s (some c)).1.Reachable x ↔ s.1.Reachable x := by
      simp [View.Reachable, View.take, Ne.symm hx]
    rw [hview, ← h x]
    exact mem_ringAfter_append_of_ne hx
  have hself : (View.take s (some c)).1.Reachable c.address ↔ c.member.isReachable = true := by
    simp [View.Reachable, View.take]
  have hall : Follows servers (View.take s (some c)) ↔
      (c.address ∈ ringAfter servers (s.2 ++ [c]) ↔ c.member.isReachable = true) := by
    constructor
    · intro hfollows
      exact (hfollows c.address).trans hself
    · intro hfollows x
      by_cases hx : c.address = x
      · subst hx
        exact hfollows.trans hself.symm
      · exact hother x hx
  rw [hall]
  by_cases halive : c.status = alive
  · have hreach : c.member.isReachable = true := by simp [Member.isReachable, Change.member, halive]
    simp [mem_ringAfter_append_of_alive halive, hreach, halive]
  · cases hdown : isDown c.status with
    | true =>
      refine iff_of_true (iff_of_false (notMem_ringAfter_of_isDown hdown)
        (not_isReachable_of_isDown hdown)) ⟨fun h => absurd h halive, by simp⟩
    | false =>
      rw [mem_ringAfter_append_of_pass halive hdown, h c.address]
      simp [halive, iff_comm]

/-- **One change keeps the ring in step if and only if it is harmless.** -/
theorem Follows.step_iff (h : Follows servers s)
    (hs' : View.step localAddress s c choice = .ok s') :
    Follows servers s' ↔ SteadyChange localAddress choice s c := by
  rw [View.step] at hs'
  obtain ⟨o, hout, rfl⟩ := exists_of_map_eq_ok hs'
  rw [SteadyChange, hout]
  cases o with
  | none => exact iff_of_true h (by simp [Except.toOption])
  | some c' =>
    rw [h.take_iff, (View.outcome_cases hout).1]
    simp [Except.toOption]

end step

/-- **A harmless batch** keeps the ring in step. -/
theorem Follows.run {servers : Finset String} {localAddress : String} {choices : ℕ → Choice}
    {V : View} {changes : List Change} {s' : View × List Change}
    (h : ∀ x, x ∈ servers ↔ V.Reachable x)
    (hsteady : Along (fun s ci => View.step localAddress s ci.1 (choices ci.2))
      (fun s ci => SteadyChange localAddress (choices ci.2) s ci.1) (V, []) changes.zipIdx)
    (hrun : View.run localAddress choices V changes = .ok s') : Follows servers s' :=
  hsteady.invariant (I := Follows servers) (fun _ _ _ hs hc hs' => (hs.step_iff hs').2 hc)
    (fun x => by simpa using h x) hrun

/-! ### Runs of updates -/

/-- The servers of the ring are the reachable members. -/
structure InStep (pf : Platform) (hashfunc : String → ℤ) (R : ℤ) (rp : Instance) : Prop
    extends rp.Built pf hashfunc R where
  servers : ∀ x, x ∈ rp.ring.serverSet ↔ View.Reachable rp.memberlist.entry x

section run

variable {pf : Platform} {hashfunc : String → ℤ} {R : ℤ} {localAddress : String} {rp rp' : Instance}
  {call : UpdateCall}

/-- **One call of `Update`** whose changes are harmless keeps the ring in step. -/
theorem InStep.update (h : InStep pf hashfunc R rp) (hsteady : SteadyCall localAddress rp call)
    (hcall : rp.update pf localAddress call = .ok rp') : InStep pf hashfunc R rp' := by
  obtain ⟨hbuilt, applied, hrun, hservers⟩ := h.toBuilt.update hcall
  refine ⟨hbuilt, fun x => ?_⟩
  rw [hservers]
  exact Follows.run h.servers hsteady hrun x

end run

/-- A new instance knows no member, and its ring is empty. -/
theorem inStep_new {w : ℕ} (hw : ∀ h, Fits w (intOfUInt32 w h)) (fp hash : String → UInt32)
    (R : ℤ) : InStep ⟨w, fp⟩ (fun s => intOfUInt32 w (hash s)) R (.new w hash R) where
  toBuilt := Instance.built_new hw fp hash R
  servers x := by
    simp [Instance.new, HashRing.new, View.Reachable, Memberlist.new, Memberlist.entry]

/-- **The ring holds the reachable members**, and no others, after any sequence of
calls of `Update` whose changes are all harmless, on instances with the same hash
function: so instances with the same entries have the same servers.  With valid
statuses, and if the first call tells the node of itself, no call panics.  (`int` has 64
bits here, where the tree is known to be in order; which servers are on the ring does not
depend on its width.) -/
theorem ring_holds_reachable (fp hash : String → UInt32) (R : ℤ) (a₁ a₂ : String)
    (calls₁ calls₂ : List UpdateCall)
    (h₁ : Along (Instance.update (.bits64 fp) a₁) (SteadyCall a₁) (.new 64 hash R) calls₁)
    (h₂ : Along (Instance.update (.bits64 fp) a₂) (SteadyCall a₂) (.new 64 hash R) calls₂) :
    (∀ rp₁, calls₁.foldlM (Instance.update (.bits64 fp) a₁) (.new 64 hash R) = .ok rp₁ →
      (∀ x, x ∈ rp₁.ring.serverSet ↔ x ∈ rp₁.memberlist.getReachableMembers) ∧
      ∀ rp₂, calls₂.foldlM (Instance.update (.bits64 fp) a₂) (.new 64 hash R) = .ok rp₂ →
        rp₁.memberlist.entry = rp₂.memberlist.entry → rp₁.ring.serverSet = rp₂.ring.serverSet) ∧
    ((∀ call ∈ calls₁, ∀ c ∈ call.changes, ValidStatus c.status) →
      (∀ call ∈ calls₁.head?, call.stopped = false ∧ ∃ c ∈ call.changes, c.address = a₁) →
      ∃ rp₁, calls₁.foldlM (Instance.update (.bits64 fp) a₁) (.new 64 hash R) = .ok rp₁) := by
  have hnew := inStep_new intOfUInt32_fits fp hash R
  refine ⟨fun rp₁ hrun₁ => ?_, fun hvalid hself => ?_⟩
  · have hin₁ := h₁.invariant (fun _ _ _ hrp hcall => hrp.update hcall) hnew hrun₁
    refine ⟨fun x => ?_, fun rp₂ hrun₂ hentry => ?_⟩
    · rw [hin₁.servers, hin₁.memberlist.mem_getReachableMembers]
    · have hin₂ := h₂.invariant (fun _ _ _ hrp hcall => hrp.update hcall) hnew hrun₂
      ext x
      rw [hin₁.servers, hin₂.servers, hentry]
  · cases calls₁ with
    | nil => exact ⟨_, rfl⟩
    | cons call calls =>
      -- from the first call on the node knows itself
      rw [List.forall_mem_cons] at hvalid
      obtain ⟨rp, hfirst, hrp⟩ := hnew.toBuilt.exists_update (Memberlist.local_new a₁)
        View.valid_new hvalid.1 (.inr (hself call rfl))
      obtain ⟨rp₁, hrun, -⟩ := exists_foldlM (l := calls)
        (fun rp call hcall hrp => Instance.Live.update hrp (hvalid.2 call hcall)) hrp
      exact ⟨rp₁, (foldlM_cons_ok hfirst).trans hrun⟩

/-- A member that is alive and then suspect. -/
theorem ring_holds_reachable_suspect :
    ∃ rp : Instance, [UpdateCall.mk (.single "a" alive) false .sorted,
        ⟨.single "x" alive, false, .sorted⟩, ⟨.single "x" suspect, false, .sorted⟩].foldlM
          (Instance.update (.bits64 fun _ => 0) "a") (.new 64 (fun _ => 5) 1) = .ok rp ∧
      ∀ x, x ∈ rp.ring.serverSet ↔ x ∈ rp.memberlist.getReachableMembers := by
  have hsteady : Along (Instance.update (.bits64 fun _ => 0) "a") (SteadyCall "a")
      (.new 64 (fun _ => 5) 1) [⟨.single "a" alive, false, .sorted⟩,
        ⟨.single "x" alive, false, .sorted⟩, ⟨.single "x" suspect, false, .sorted⟩] := by
    decide +kernel
  obtain ⟨hring, hrun⟩ := ring_holds_reachable (fun _ => 0) (fun _ => 5) 1 "a" "a" _ _
    hsteady hsteady
  obtain ⟨rp, hrun⟩ := hrun (by decide +kernel) (by decide +kernel)
  exact ⟨rp, hrun, (hring rp hrun).1⟩

/-- **A suspect may be missing from the ring.**  One instance learns that `x` is
alive and then that it is suspect, the other only that it is suspect.  Both know
`x` as suspect, and it is on the ring of the first only. -/
theorem suspect_missing_from_ring :
    ∃ rp rp' : Instance,
      [UpdateCall.mk (.single "a" alive) false .sorted, ⟨.single "x" alive, false, .sorted⟩,
        ⟨.single "x" suspect, false, .sorted⟩].foldlM
          (Instance.update (.bits64 fun _ => 0) "a") (.new 64 (fun _ => 5) 1) = .ok rp ∧
      [UpdateCall.mk (.single "a" alive) false .sorted,
        ⟨.single "x" suspect, false, .sorted⟩].foldlM
          (Instance.update (.bits64 fun _ => 0) "a") (.new 64 (fun _ => 5) 1) = .ok rp' ∧
      rp.memberlist.list.filterMap rp.memberlist.store.cell =
        [⟨"x", suspect, 1⟩, ⟨"a", alive, 1⟩] ∧
      rp'.memberlist.list.filterMap rp'.memberlist.store.cell =
        [⟨"x", suspect, 1⟩, ⟨"a", alive, 1⟩] ∧
      "x" ∈ rp'.memberlist.getReachableMembers ∧
      rp.ring.serverSet = {"a", "x"} ∧ rp'.ring.serverSet = {"a"} := by
  have heval : (do
      let rp ← [UpdateCall.mk (.single "a" alive) false .sorted,
        ⟨.single "x" alive, false, .sorted⟩, ⟨.single "x" suspect, false, .sorted⟩].foldlM
          (Instance.update (.bits64 fun _ => 0) "a") (.new 64 (fun _ => 5) 1)
      let rp' ← [UpdateCall.mk (.single "a" alive) false .sorted,
        ⟨.single "x" suspect, false, .sorted⟩].foldlM
          (Instance.update (.bits64 fun _ => 0) "a") (.new 64 (fun _ => 5) 1)
      return (rp.memberlist.list.filterMap rp.memberlist.store.cell,
        rp'.memberlist.list.filterMap rp'.memberlist.store.cell,
        rp'.memberlist.getReachableMembers, decide (rp.ring.serverSet = {"a", "x"}),
        decide (rp'.ring.serverSet = {"a"}))) =
      .ok ([⟨"x", suspect, 1⟩, ⟨"a", alive, 1⟩], [⟨"x", suspect, 1⟩, ⟨"a", alive, 1⟩],
        ["x", "a"], true, true) := by
    decide +kernel
  obtain ⟨rp, hrun, heval⟩ := exists_of_bind_eq_ok heval
  obtain ⟨rp', hrun', heval⟩ := exists_of_bind_eq_ok heval
  simp only [pure, Except.pure, Except.ok.injEq, Prod.mk.injEq, decide_eq_true_eq] at heval
  obtain ⟨hlist, hlist', hreach, hring, hring'⟩ := heval
  exact ⟨rp, rp', hrun, hrun', hlist, hlist', by simp [hreach], hring, hring'⟩

end Facade
end Ringpop
