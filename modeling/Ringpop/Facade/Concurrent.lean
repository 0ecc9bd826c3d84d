/-
# Updates that overlap

`Update` lets the lock of the members go before it emits the event of what it
applied, so calls from different goroutines overlap: the one that changed the
member list first may come to the ring last.  A call is two steps here, its loop
under the lock of the members (`Action.apply`) and the rest, in which
`handleChanges` takes the lock of the ring (`Action.handle`).  Events between the
two wait in `pending`, the oldest first, and may be handled in any order.  Where
nothing comes between the two steps, they are `Update` (`step_apply_handle`).  The second
one ends with what the node asks of the member list, as `Update` does.

An event that removes a server and overtakes an older event that adds it leaves a
member on the ring that is down.  Where no event does that (`InOrder`), the member
list and the ring agree about it in the end (`no_down_server`): the ring, with all
that is pending still to come in order, holds nobody who is down.
-/

import Ringpop.Facade.Instance

namespace Ringpop
namespace Facade

open CellStore Runs Hashring Swim

/-- An instance, and the applied changes whose event has not been handled yet. -/
structure Concurrent extends Instance where
  pending : List (List Change)

/-- The steps of the calls of `Update`: the loop of a new call, or the rest of the
call whose event is the `i`-th that is pending. -/
inductive Action where
  | apply (b : Batch)
  | handle (i : ℕ) (o : MapOrder)

namespace Concurrent

/-- A new instance, with no call on its way. -/
def new (intSize : ℕ) (hashfunc : String → UInt32) (replicaPoints : ℤ) : Concurrent :=
  ⟨.new intSize hashfunc replicaPoints, []⟩

/-- One step. -/
def step (pf : Platform) (localAddress : String) (s : Concurrent) : Action → Except Fault Concurrent
  | .apply b => do
      let st ← s.memberlist.applyChanges localAddress b.choices b.changes
      return { s with
        memberlist := st.memberlist
        pending := if st.applied.length > 0 then s.pending ++ [st.applied] else s.pending }
  | .handle i o =>
      match s.pending[i]? with
      | none => return s
      | some applied => do
          let ring ← handleChanges pf o s.ring applied
          s.memberlist.countForChanges applied
          return ⟨⟨s.memberlist.computeChecksum pf.fingerprint32, ring⟩, s.pending.eraseIdx i⟩

/-- **A call whose steps follow each other** is `Update` with its events. -/
theorem step_apply_handle (pf : Platform) (localAddress : String) (rp : Instance) (b : Batch)
    (o : MapOrder) :
    [Action.apply b, Action.handle 0 o].foldlM (step pf localAddress) ⟨rp, []⟩ =
      (rp.update pf localAddress ⟨b, false, o⟩).map (⟨·, []⟩) := by
  rw [Instance.update_eq, Memberlist.update]
  cases hchanges : b.changes with
  | nil =>
    have hfirst : step pf localAddress ⟨rp, []⟩ (.apply b) = .ok ⟨rp, []⟩ := by
      rw [step, hchanges]
      rfl
    rw [foldlM_cons_ok hfirst]
    rfl
  | cons c changes =>
    rw [if_neg (by simp), ← hchanges, List.foldlM_cons, step]
    cases hst : rp.memberlist.applyChanges localAddress b.choices b.changes with
    | error e => rfl
    | ok st =>
      cases happ : st.applied with
      | nil =>
        simp only [Bind.bind, Except.bind, happ]
        rfl
      | cons c applied =>
        simp only [Bind.bind, Except.bind, happ, List.length_cons, Nat.zero_lt_succ, if_true,
          List.nil_append, pure, Except.pure, gt_iff_lt]
        rw [List.foldlM_cons, step]
        simp only [List.getElem?_cons_zero]
        cases handleChanges pf o rp.ring (c :: applied) with
        | error e => rfl
        | ok ring =>
          have hcount : (st.memberlist.computeChecksum pf.fingerprint32).countForChanges
              (c :: applied) = st.memberlist.countForChanges (c :: applied) := rfl
          rw [hcount]
          cases st.memberlist.countForChanges (c :: applied) <;> rfl

end Concurrent

/-- The handling of an event that removes a server does not overtake that of an
older event that adds it. -/
def InOrder (s : Concurrent) : Action → Prop
  | .apply _ => True
  | .handle i _ =>
      ∀ event ∈ s.pending[i]?, ∀ older ∈ s.pending.take i,
        ∀ x ∈ (serversToChange event).2, x ∈ (serversToChange older).1 →
          x ∈ (serversToChange older).2

instance (s : Concurrent) (a : Action) : Decidable (InOrder s a) :=
  match a with
  | .apply _ => .isTrue trivial
  | .handle _ _ => inferInstanceAs (Decidable (∀ event ∈ _, _))

/-! ### What is pending, handled in order -/

/-- The entry of an address is faulty or gone. -/
def Down (V : View) (x : String) : Prop := (V x).any fun member => isDown member.status

section events

variable {servers servers' : Finset String} {event : List Change}
  {events older : List (List Change)} {x : String}

/-- A server is on the ring after an event if it was or is added, and is not
removed. -/
theorem mem_ringAfter_iff : x ∈ ringAfter servers event ↔
    (x ∈ servers ∨ x ∈ (serversToChange event).1) ∧ x ∉ (serversToChange event).2 := by
  simp [ringAfter]

/-- A server that stays where it is put stays after more events. -/
theorem mem_foldl_ringAfter_imp (h : x ∈ servers → x ∈ servers') :
    x ∈ events.foldl ringAfter servers → x ∈ events.foldl ringAfter servers' := by
  induction events generalizing servers servers' with
  | nil => exact h
  | cons event events ih =>
    refine ih ?_
    rw [mem_ringAfter_iff, mem_ringAfter_iff]
    rintro ⟨hin, hout⟩
    exact ⟨hin.imp_left h, hout⟩

/-- Events that add nobody without removing them again. -/
theorem notMem_foldl_ringAfter (h : x ∉ servers)
    (hevents : ∀ event ∈ events, x ∈ (serversToChange event).1 → x ∈ (serversToChange event).2) :
    x ∉ events.foldl ringAfter servers := by
  induction events generalizing servers with
  | nil => exact h
  | cons event events ih =>
    refine ih ?_ fun e he => hevents e (.tail _ he)
    rw [mem_ringAfter_iff]
    rintro ⟨hin | hadd, hout⟩
    · exact h hin
    · exact hout (hevents event (.head _) hadd)

/-- **An event handled early** puts nobody on the ring who would not be there if it
had waited, unless it overtakes an event that adds what it removes. -/
theorem mem_foldl_ringAfter_of_early
    (horder : x ∈ (serversToChange event).2 → ∀ e ∈ older, x ∈ (serversToChange e).1 →
      x ∈ (serversToChange e).2) :
    x ∈ older.foldl ringAfter (ringAfter servers event) →
      x ∈ ringAfter (older.foldl ringAfter servers) event := by
  intro hx
  by_cases hremove : x ∈ (serversToChange event).2
  · refine absurd hx (notMem_foldl_ringAfter ?_ (horder hremove))
    rw [mem_ringAfter_iff]
    exact fun h => h.2 hremove
  · refine mem_ringAfter_iff.2 ⟨?_, hremove⟩
    by_cases hadd : x ∈ (serversToChange event).1
    · exact .inr hadd
    · refine .inl (mem_foldl_ringAfter_imp (fun h => ?_) hx)
      exact (mem_ringAfter_iff.1 h).1.resolve_right hadd

end events

/-- **A batch** whose event is handled leaves nobody on the ring who is down. -/
theorem notMem_ringAfter_of_down {servers : Finset String} {localAddress : String}
    {choices : ℕ → Choice} {V : View} {changes : List Change} {s' : View × List Change}
    (h : ∀ x, Down V x → x ∉ servers)
    (hrun : View.run localAddress choices V changes = .ok s') :
    ∀ x, Down s'.1 x → x ∉ ringAfter servers s'.2 := by
  refine foldlM_invariant (I := fun s => ∀ x, Down s.1 x → x ∉ ringAfter servers s.2)
    (fun s ci s' hs hs' x hx => ?_) (by simpa using h) hrun
  rcases View.step_cases hs' with rfl | ⟨c', -, -, -, rfl⟩
  · exact hs x hx
  by_cases hcx : c'.address = x
  · subst hcx
    refine notMem_ringAfter_of_isDown ?_
    simpa [Down, View.take, Change.member] using hx
  · have hold : Down s.1 x := by simpa [Down, View.take, Ne.symm hcx] using hx
    exact fun hmem => hs x hold ((mem_ringAfter_append_of_ne hcx).1 hmem)

/-! ### Runs -/

/-- The ring, with all that is pending handled in order, holds nobody who is
down. -/
structure Settling (pf : Platform) (hashfunc : String → ℤ) (R : ℤ) (s : Concurrent) : Prop
    extends s.toInstance.Built pf hashfunc R where
  out : ∀ x, Down s.memberlist.entry x → x ∉ s.pending.foldl ringAfter s.ring.serverSet

section run

variable {pf : Platform} {hashfunc : String → ℤ} {R : ℤ} {localAddress : String}
  {s s' : Concurrent}

/-- **The loop of a call** keeps it so. -/
theorem Settling.apply (h : Settling pf hashfunc R s) {b : Batch}
    (hs' : s.step pf localAddress (.apply b) = .ok s') : Settling pf hashfunc R s' := by
  rw [Concurrent.step] at hs'
  obtain ⟨st, hst, hs'⟩ := exists_of_bind_eq_ok hs'
  obtain rfl := Except.ok.inj hs'
  obtain ⟨hview, hsound⟩ := h.memberlist.applyChanges localAddress b.choices b.changes
  rw [hst] at hview
  refine ⟨⟨hsound st hst, h.ring⟩, fun x hx => ?_⟩
  have hout := notMem_ringAfter_of_down h.out hview.symm x hx
  simp only []
  split_ifs with happ
  · rwa [List.foldl_append]
  · have hnil : st.applied = [] := List.eq_nil_of_length_eq_zero (by omega)
    simpa [UpdateState.view, hnil] using hout

/-- **The handling of an event** that does not overtake keeps it so. -/
theorem Settling.handle (h : Settling pf hashfunc R s) {i : ℕ} {o : MapOrder}
    (horder : InOrder s (.handle i o))
    (hs' : s.step pf localAddress (.handle i o) = .ok s') : Settling pf hashfunc R s' := by
  rw [Concurrent.step] at hs'
  cases hevent : s.pending[i]? with
  | none =>
    rw [hevent] at hs'
    obtain rfl := Except.ok.inj hs'
    exact h
  | some event =>
    rw [hevent] at hs'
    obtain ⟨A, hA⟩ := h.ring
    obtain ⟨ring, A', hring, hA', hservers⟩ := handleChanges_spec hA o event
    simp only [hring, Bind.bind, Except.bind] at hs'
    obtain ⟨-, -, hs'⟩ := exists_of_bind_eq_ok hs'
    obtain rfl := Except.ok.inj hs'
    refine ⟨⟨h.memberlist.computeChecksum _, A', hA'⟩, fun x hx hmem => h.out x hx ?_⟩
    obtain ⟨hi, hget⟩ := List.getElem?_eq_some_iff.1 hevent
    have hpending : s.pending = s.pending.take i ++ event :: s.pending.drop (i + 1) := by
      rw [← hget, ← List.drop_eq_getElem_cons hi, List.take_append_drop]
    rw [List.eraseIdx_eq_take_drop_succ, List.foldl_append, hservers] at hmem
    rw [hpending, List.foldl_append, List.foldl_cons]
    refine mem_foldl_ringAfter_imp (mem_foldl_ringAfter_of_early fun hx' e he => ?_) hmem
    exact horder event hevent e he x hx'

theorem Settling.step (h : Settling pf hashfunc R s) {a : Action} (horder : InOrder s a)
    (hs' : s.step pf localAddress a = .ok s') : Settling pf hashfunc R s' := by
  cases a with
  | apply b => exact h.apply hs'
  | handle i o => exact h.handle horder hs'

/-- **The loop of a call** with valid statuses does not panic, if the node knows itself or is
told of itself by the call. -/
theorem exists_step_apply (h : s.toInstance.Built pf hashfunc R)
    (hlocal : s.memberlist.Local localAddress) (hvalid : View.Valid s.memberlist.entry) {b : Batch}
    (hb : ∀ c ∈ b.changes, ValidStatus c.status)
    (hself : s.memberlist.localMember.isSome ∨ ∃ c ∈ b.changes, c.address = localAddress) :
    ∃ s', s.step pf localAddress (.apply b) = .ok s' ∧
      s'.toInstance.Live pf hashfunc R localAddress := by
  obtain ⟨hview, hsound⟩ := h.memberlist.applyChanges localAddress b.choices b.changes
  obtain ⟨s₁, hrun, hs₁, -⟩ := View.rank_run (h.memberlist.view hvalid) localAddress b.choices hb
  obtain ⟨st, hst, rfl⟩ := exists_of_map_eq_ok (hview.trans hrun)
  have hlocal' : st.memberlist.Local localAddress :=
    Memberlist.applyChanges_invariant (fun _ choice c hm => hm.apply choice c) hlocal hst
  have hhas : st.memberlist.localMember.isSome := by
    rcases hself with hhas | hown
    · exact Memberlist.applyChanges_invariant (I := fun m => m.localMember.isSome)
        (fun _ choice c hm => Memberlist.apply_localMember_isSome hm localAddress choice c) hhas hst
    · exact hlocal'.hasLocal (View.isSome_of_run hrun (.inr hown))
  refine ⟨⟨⟨st.memberlist, s.ring⟩,
    if st.applied.length > 0 then s.pending ++ [st.applied] else s.pending⟩, ?_,
    ⟨hsound st hst, h.ring⟩, hlocal', hhas, hs₁.valid⟩
  rw [Concurrent.step, hst]
  rfl

/-- **A step** with valid statuses does not panic, if the node knows itself. -/
theorem exists_step (h : s.toInstance.Live pf hashfunc R localAddress) {a : Action}
    (ha : ∀ b, a = .apply b → ∀ c ∈ b.changes, ValidStatus c.status) :
    ∃ s', s.step pf localAddress a = .ok s' ∧ s'.toInstance.Live pf hashfunc R localAddress := by
  cases a with
  | apply b => exact exists_step_apply h.toBuilt h.localMember h.valid (ha b rfl) (.inl h.hasLocal)
  | handle i o =>
    rw [Concurrent.step]
    cases hevent : s.pending[i]? with
    | none => exact ⟨s, rfl, h⟩
    | some event =>
      obtain ⟨A, hA⟩ := h.ring
      obtain ⟨ring, A', hring, hA', -⟩ := handleChanges_spec hA o event
      refine ⟨⟨⟨s.memberlist.computeChecksum pf.fingerprint32, ring⟩, s.pending.eraseIdx i⟩, ?_,
        ⟨h.memberlist.computeChecksum _, A', hA'⟩, ⟨h.localMember.own, h.localMember.cell⟩,
        h.hasLocal, h.valid⟩
      simp only [hring, Bind.bind, Except.bind, h.localMember.countForChanges h.hasLocal]
      rfl

/-- Nobody is on a new ring. -/
theorem settling_new {w : ℕ} (hw : ∀ h, Fits w (intOfUInt32 w h)) (fp hash : String → UInt32)
    (R : ℤ) : Settling ⟨w, fp⟩ (fun s => intOfUInt32 w (hash s)) R (.new w hash R) where
  toBuilt := Instance.built_new hw fp hash R
  out x := by simp [Concurrent.new, Instance.new, HashRing.new]

end run

/-- **No member that is down stays on the ring.**  For any number of calls of
`Update` and any interleaving of their steps in which no event overtakes: when all
calls have completed, no server of the ring is faulty or gone in the member list.
With valid statuses, and if the first step is the loop of a call that tells the node
of itself, no step panics.  (`int` has 64 bits here, where the tree is known to be in
order; which servers are on the ring does not depend on its width.) -/
theorem no_down_server (fp hash : String → UInt32) (R : ℤ) (localAddress : String)
    (actions : List Action)
    (horder : Along (Concurrent.step (.bits64 fp) localAddress) InOrder (.new 64 hash R) actions) :
    (∀ s, actions.foldlM (Concurrent.step (.bits64 fp) localAddress) (.new 64 hash R) = .ok s →
      s.pending = [] → ∀ x ∈ s.ring.serverSet, ∀ member, s.memberlist.entry x = some member →
        member.status ≠ faulty ∧ member.status ≠ leave) ∧
    ((∀ b, .apply b ∈ actions → ∀ c ∈ b.changes, ValidStatus c.status) →
      (∀ a ∈ actions.head?, ∃ b, a = .apply b ∧ ∃ c ∈ b.changes, c.address = localAddress) → ∃ s,
      actions.foldlM (Concurrent.step (.bits64 fp) localAddress) (.new 64 hash R) = .ok s) := by
  have hnew := settling_new intOfUInt32_fits fp hash R
  refine ⟨fun s hrun hdone x hx member hmember => ?_, fun hvalid hself => ?_⟩
  · have hs := horder.invariant (fun _ _ _ hs ha => hs.step ha) hnew hrun
    have hup : ¬ Down s.memberlist.entry x := by
      intro hdown
      have hout := hs.out x hdown
      rw [hdone] at hout
      exact hout hx
    simpa [Down, hmember, isDown] using hup
  · cases actions with
    | nil => exact ⟨_, rfl⟩
    | cons a actions =>
      obtain ⟨b, rfl, hown⟩ := hself a rfl
      obtain ⟨s₁, hfirst, hs₁⟩ := exists_step_apply hnew.toBuilt
        (Memberlist.local_new localAddress) View.valid_new (hvalid b (.head _)) (.inr hown)
      obtain ⟨s, hrun, -⟩ := exists_foldlM (l := actions)
        (I := fun s : Concurrent => s.toInstance.Live (.bits64 fp) _ R localAddress)
        (fun s a ha hs => exists_step hs fun b hb => hvalid b (.tail _ (hb ▸ ha))) hs₁
      exact ⟨s, (foldlM_cons_ok hfirst).trans hrun⟩

/-- A node that knows itself, and two calls that overlap, with their events in order. -/
theorem no_down_server_two :
    ∃ s : Concurrent, [Action.apply (.single "a" alive), .handle 0 .sorted,
        .apply (.single "x" alive), .apply (.single "x" faulty), .handle 0 .sorted,
        .handle 0 .sorted].foldlM
          (Concurrent.step (.bits64 fun _ => 0) "a") (.new 64 (fun _ => 5) 1) = .ok s ∧
      s.pending = [] ∧ s.memberlist.entry "x" = some ⟨"x", faulty, 1⟩ ∧
      "a" ∈ s.ring.serverSet ∧ "x" ∉ s.ring.serverSet := by
  have horder : Along (Concurrent.step (.bits64 fun _ => 0) "a") InOrder (.new 64 (fun _ => 5) 1)
      [.apply (.single "a" alive), .handle 0 .sorted, .apply (.single "x" alive),
        .apply (.single "x" faulty), .handle 0 .sorted, .handle 0 .sorted] := by
    decide +kernel
  obtain ⟨hup, hrun⟩ := no_down_server (fun _ => 0) (fun _ => 5) 1 "a" _ horder
  obtain ⟨s, hrun⟩ := hrun
    (by
      intro b hb
      simp only [List.mem_cons, Action.apply.injEq, reduceCtorEq, List.not_mem_nil, false_or,
        or_false] at hb
      rcases hb with rfl | rfl | rfl <;> decide +kernel)
    (by
      rintro a ⟨⟩
      exact ⟨_, rfl, _, .head _, rfl⟩)
  have heval : ([Action.apply (.single "a" alive), .handle 0 .sorted,
      .apply (.single "x" alive), .apply (.single "x" faulty), .handle 0 .sorted,
      .handle 0 .sorted].foldlM
        (Concurrent.step (.bits64 fun _ => 0) "a") (.new 64 (fun _ => 5) 1)).map (fun s =>
      (s.pending, s.memberlist.entry "x", decide ("a" ∈ s.ring.serverSet))) =
      .ok ([], some ⟨"x", faulty, 1⟩, true) := by
    decide +kernel
  rw [hrun] at heval
  simp only [Except.map, Except.ok.injEq, Prod.mk.injEq, decide_eq_true_eq] at heval
  obtain ⟨hdone, hentry, ha⟩ := heval
  exact ⟨s, hrun, hdone, hentry, ha, fun hx => (hup s hrun hdone "x" hx _ hentry).1 rfl⟩

/-- **An event that overtakes leaves a faulty member on the ring.**  The node knows
itself.  Of two calls, the first learns that `x` is alive and the second that it is
faulty; the event of the second is handled first. -/
theorem down_server_on_ring :
    ∃ s : Concurrent, [Action.apply (.single "a" alive), .handle 0 .sorted,
        .apply (.single "x" alive), .apply (.single "x" faulty), .handle 1 .sorted,
        .handle 0 .sorted].foldlM
          (Concurrent.step (.bits64 fun _ => 0) "a") (.new 64 (fun _ => 5) 1) = .ok s ∧
      s.pending = [] ∧ s.memberlist.entry "x" = some ⟨"x", faulty, 1⟩ ∧ "x" ∈ s.ring.serverSet := by
  have heval : (do
      let s ← [Action.apply (.single "a" alive), .handle 0 .sorted, .apply (.single "x" alive),
        .apply (.single "x" faulty), .handle 1 .sorted, .handle 0 .sorted].foldlM
          (Concurrent.step (.bits64 fun _ => 0) "a") (.new 64 (fun _ => 5) 1)
      return (s.pending, s.memberlist.entry "x", decide ("x" ∈ s.ring.serverSet))) =
      .ok ([], some ⟨"x", faulty, 1⟩, true) := by
    decide +kernel
  obtain ⟨s, hrun, heval⟩ := exists_of_bind_eq_ok heval
  simp only [pure, Except.pure, Except.ok.injEq, Prod.mk.injEq, decide_eq_true_eq] at heval
  exact ⟨s, hrun, heval⟩

end Facade
end Ringpop
