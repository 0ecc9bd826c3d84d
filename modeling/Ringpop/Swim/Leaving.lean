/-
# A node that has left

An entry that has left is not overridden by a change of the same or an older
incarnation: `statePrecedence` has `Leave` above the other statuses
(`Member.lt_of_nonLocalOverride_left`).  That is how the other nodes treat a node that has
left, but not how the node treats itself.  `Update` asks `localOverride` first, which
looks at the change only, so every accusation makes the node alive again, at whatever
incarnation.

`leave_kept_iff` says which batches leave the node's own entry as it is: those without an
accusation, and those that also bring back what the node has told the others, while the
clock has not gone past it.
-/

import Ringpop.Swim.Refutation

namespace Ringpop
namespace Swim

open CellStore Runs

namespace Member

theorem statePrecedence_le {s : String} {p : ℕ} (h : statePrecedence s = .ok p) : p ≤ 3 := by
  rw [statePrecedence] at h
  split_ifs at h <;> obtain rfl := Except.ok.inj h <;> omega

theorem statePrecedence_eq_three {s : String} (h : statePrecedence s = .ok 3) : s = leave := by
  rw [statePrecedence] at h
  split_ifs at h with halive hsuspect hfaulty hleave
  · cases h
  · cases h
  · cases h
  · exact hleave

/-- **A change of the same incarnation or an older one** overrides only a lower status. -/
theorem nonLocalOverride_cases {m : Member} {c : Change} {override : Bool}
    (h : m.nonLocalOverride c = .ok override) :
    m.incarnation < c.incarnation ∧ override = true ∨
    c.incarnation < m.incarnation ∧ override = false ∨
    c.incarnation = m.incarnation ∧ ∃ p q, statePrecedence c.status = .ok p ∧
      statePrecedence m.status = .ok q ∧ override = decide (q < p) := by
  rw [nonLocalOverride] at h
  split_ifs at h with hyounger holder
  · exact .inl ⟨hyounger, (Except.ok.inj h).symm⟩
  · exact .inr (.inl ⟨holder, (Except.ok.inj h).symm⟩)
  · obtain ⟨p, hp, h⟩ := exists_of_bind_eq_ok h
    obtain ⟨q, hq, h⟩ := exists_of_bind_eq_ok h
    exact .inr (.inr ⟨by omega, p, q, hp, hq, (Except.ok.inj h).symm⟩)

/-- **An entry that has left** is overridden by younger changes only. -/
theorem lt_of_nonLocalOverride_left {m : Member} {c : Change} (hm : m.status = leave)
    (h : m.nonLocalOverride c = .ok true) : m.incarnation < c.incarnation := by
  rcases nonLocalOverride_cases h with ⟨hlt, -⟩ | ⟨-, hfalse⟩ | ⟨-, p, q, hp, hq, hlt⟩
  · exact hlt
  · cases hfalse
  · rw [hm] at hq
    obtain rfl : 3 = q := Except.ok.inj hq
    have := statePrecedence_le hp
    have := of_decide_eq_true hlt.symm
    omega

/-- **An entry that is not overridden** by a change that tells that the node has left, and is
not younger than it, has left as well. -/
theorem status_of_not_nonLocalOverride_left {m : Member} {c : Change} (hc : c.status = leave)
    (hle : m.incarnation ≤ c.incarnation) (h : m.nonLocalOverride c = .ok false) :
    m.status = leave ∧ m.incarnation = c.incarnation := by
  rcases nonLocalOverride_cases h with ⟨-, hfalse⟩ | ⟨hlt, -⟩ | ⟨heq, p, q, hp, hq, hle⟩
  · cases hfalse
  · omega
  · rw [hc] at hp
    obtain rfl : 3 = p := Except.ok.inj hp
    obtain rfl : q = 3 := by
      have := statePrecedence_le hq
      have := of_decide_eq_false hle.symm
      omega
    exact ⟨statePrecedence_eq_three hq, heq.symm⟩

end Member

/-- The change tells that the node of the address has left, at incarnation `i`. -/
def Change.TellsLeft (address : String) (i : ℤ) (c : Change) : Prop :=
  c.address = address ∧ c.status = leave ∧ c.incarnation = i

namespace View

variable {a : String} {choices : ℕ → Choice} {V : View} {s s' : View × List Change} {c : Change}
  {choice : Choice} {changes : List Change} {i : ℤ} {m : Member}

/-- **One change that is not an accusation**, about the node itself: whether the entry has
left at incarnation `i` after it. -/
theorem step_own (haddr : m.address = a) (hentry : s.1 a = some m) (hc : c.address = a)
    (haccuses : ¬ c.Accuses a) (hi : c.incarnation ≤ i) (h : step a s c choice = .ok s') :
    ∃ m', m'.address = a ∧ s'.1 a = some m' ∧
      (m'.incarnation ≤ i ↔ m.incarnation ≤ i) ∧
      (m' = ⟨a, leave, i⟩ ↔ m = ⟨a, leave, i⟩ ∨ m.incarnation ≤ i ∧ c.TellsLeft a i) := by
  have hloc : m.localOverride a c = false := by
    refine eq_false_of_ne_true fun hloc => haccuses ⟨hc, ?_⟩
    rw [Member.localOverride, if_neg (not_not_intro haddr)] at hloc
    simpa [or_comm] using hloc
  rw [step, hc, hentry, outcome, hloc, if_neg Bool.false_ne_true] at h
  obtain ⟨o, ho, rfl⟩ := exists_of_map_eq_ok h
  obtain ⟨override, hover, rfl⟩ := exists_of_map_eq_ok ho
  cases override with
  | false =>
    refine ⟨m, haddr, hentry, Iff.rfl, ⟨.inl, ?_⟩⟩
    rintro (hm | ⟨hle, -, hstatus, rfl⟩)
    · exact hm
    · obtain ⟨hleft, hinc⟩ := Member.status_of_not_nonLocalOverride_left hstatus hle hover
      obtain ⟨address, status, incarnation⟩ := m
      rw [Member.mk.injEq]
      exact ⟨haddr, hleft, hinc⟩
  | true =>
    have hmi : m.incarnation ≤ c.incarnation := by
      rcases Member.nonLocalOverride_cases hover with ⟨hlt, -⟩ | ⟨-, hfalse⟩ | ⟨heq, -⟩
      · exact hlt.le
      · cases hfalse
      · exact heq.ge
    have hm : m ≠ ⟨a, leave, i⟩ := by
      rintro rfl
      exact (Member.lt_of_nonLocalOverride_left rfl hover).not_ge hi
    refine ⟨c.member, hc, by simp [take, hc], ⟨fun _ => hmi.trans hi, fun _ => hi⟩, ?_⟩
    rw [or_iff_right hm, and_iff_right (hmi.trans hi), Change.member, Member.mk.injEq]
    exact Iff.rfl

/-- **Changes that are no accusations** leave the entry of the node at `leave`, `i` if and
only if it was, or one of them tells it and the entry was not above. -/
theorem foldlM_own {k : ℕ} (haddr : m.address = a) (hentry : s.1 a = some m)
    (haccuses : ∀ c ∈ changes, ¬ c.Accuses a)
    (hi : ∀ c ∈ changes, c.address = a → c.incarnation ≤ i)
    (hrun : (changes.zipIdx k).foldlM
      (fun s (ci : Change × ℕ) => step a s ci.1 (choices ci.2)) s = .ok s') :
    s'.1 a = some ⟨a, leave, i⟩ ↔
      m = ⟨a, leave, i⟩ ∨ m.incarnation ≤ i ∧ ∃ c ∈ changes, c.TellsLeft a i := by
  induction changes generalizing k s m with
  | nil =>
    obtain rfl : s = s' := Except.ok.inj hrun
    simp [hentry]
  | cons c changes ih =>
    rw [List.zipIdx_cons, List.foldlM_cons] at hrun
    obtain ⟨s₁, hstep, hrun⟩ := exists_of_bind_eq_ok hrun
    rw [List.forall_mem_cons] at haccuses hi
    by_cases hc : c.address = a
    · obtain ⟨m', haddr', hentry', hle, hleft⟩ := step_own haddr hentry hc haccuses.1 (hi.1 hc)
        hstep
      rw [ih haddr' hentry' haccuses.2 hi.2 hrun, hleft, hle, List.exists_mem_cons_iff, and_or_left,
        or_assoc]
    · have hentry' : s₁.1 a = some m := by
        rcases step_cases hstep with rfl | ⟨c', -, haddr', -, rfl⟩
        · exact hentry
        · have hne : a ≠ c'.address := fun h => hc (haddr'.symm.trans h.symm)
          simpa [take, hne] using hentry
      have hnot : ¬ c.TellsLeft a i := fun h => hc h.1
      rw [ih haddr hentry' haccuses.2 hi.2 hrun, List.exists_mem_cons_iff, or_iff_right hnot]

end View

/-- What keeps a node that has left at incarnation `i` where it is: no accusation; or,
after the last one, a change that tells that the node has left at `i`, when the clock has
not gone past `i`. -/
def Batch.KeepsLeft (address : String) (i : ℤ) (b : Batch) : Prop :=
  (∀ c ∈ b.changes, ¬ c.Accuses address) ∨
    ∃ pre c post, b.changes = pre ++ c :: post ∧ c.Accuses address ∧
      (∀ d ∈ post, ¬ d.Accuses address) ∧ (b.choices pre.length).now ≤ i ∧
      ∃ d ∈ post, d.TellsLeft address i

/-- **A batch, on the view of a node that has left.** -/
theorem View.run_left_iff {a : String} {i : ℤ} {V : View} {b : Batch} {s : View × List Change}
    (hentry : V a = some ⟨a, leave, i⟩)
    (hi : ∀ c ∈ b.changes, c.address = a → c.incarnation ≤ i)
    (hrun : View.run a b.choices V b.changes = .ok s) :
    s.1 a = some ⟨a, leave, i⟩ ↔ b.KeepsLeft a i := by
  -- an accusation, and what follows it
  have hlast (pre post : List Change) (c : Change) (hb : b.changes = pre ++ c :: post)
      (hc : c.Accuses a) (hpost : ∀ d ∈ post, ¬ d.Accuses a) : s.1 a = some ⟨a, leave, i⟩ ↔
        (b.choices pre.length).now ≤ i ∧ ∃ d ∈ post, d.TellsLeft a i := by
    rw [hb] at hrun hi
    obtain ⟨s₁, s₂, hpre, hstep, hrest⟩ := exists_of_run_append hrun
    obtain ⟨m, hm, haddr⟩ := run_known hentry rfl hpre
    rw [step_accusation hc hm haddr] at hstep
    obtain rfl := Except.ok.inj hstep
    refine (foldlM_own (m := ⟨a, alive, (b.choices pre.length).now⟩) rfl ?_ hpost ?_ hrest).trans ?_
    · simp [take, hc.1, Change.member]
    · exact fun d hd => hi d (List.mem_append_right _ (.tail _ hd))
    · exact or_iff_right (by simp [alive, leave])
  by_cases hc : ∃ c ∈ b.changes, c.Accuses a
  · constructor
    · intro hleft
      obtain ⟨pre, c, post, hb, hc, hpost⟩ := exists_last hc
      exact .inr ⟨pre, c, post, hb, hc, hpost, (hlast pre post c hb hc hpost).1 hleft⟩
    · rintro (hnone | ⟨pre, c, post, hb, hc, hpost, hclock⟩)
      · obtain ⟨c, hmem, hc⟩ := hc
        exact absurd hc (hnone c hmem)
      · exact (hlast pre post c hb hc hpost).2 hclock
  · have hnone : ∀ c ∈ b.changes, ¬ c.Accuses a := fun c hmem hc' => hc ⟨c, hmem, hc'⟩
    exact iff_of_true ((foldlM_own (k := 0) (s := (V, [])) (m := ⟨a, leave, i⟩) rfl hentry hnone hi
      hrun).2 (.inl rfl)) (.inl hnone)

/-- **When a node that has left stays so.**  On a sound node whose own entry has left at
incarnation `i`, a batch whose changes about the node are not above `i` leaves the entry as
it is exactly if the node is stopped, or the batch has no accusation, or it undoes what its
last accusation did; and where all statuses are valid `Update` returns. -/
theorem leave_kept_iff (pr : Primitives) (n : Node) (hn : n.Sound) (i : ℤ)
    (hentry : n.memberlist.entry n.address = some ⟨n.address, leave, i⟩) (b : Batch)
    (hi : ∀ c ∈ b.changes, c.address = n.address → c.incarnation ≤ i) :
    (∀ applied n', n.update pr b = .ok (applied, n') →
      (n'.memberlist.entry n.address = some ⟨n.address, leave, i⟩ ↔
        n.stopped = true ∨ b.KeepsLeft n.address i)) ∧
    (View.Valid n.memberlist.entry → (∀ c ∈ b.changes, ValidStatus c.status) →
      ∃ applied n', n.update pr b = .ok (applied, n')) := by
  refine ⟨fun applied n' hup => ?_, fun hvalid hb => ?_⟩
  · have hrun := (Node.effect_update hn hup).run
    cases hstopped : n.stopped with
    | true =>
      rw [hstopped] at hrun
      obtain ⟨hview, -⟩ := Prod.mk.inj (Except.ok.inj hrun)
      rw [← hview]
      exact iff_of_true hentry (.inl rfl)
    | false =>
      rw [hstopped] at hrun
      rw [or_iff_right Bool.false_ne_true]
      exact View.run_left_iff hentry hi hrun
  · have hlive : n.Live := ⟨hn, hn.hasLocal hentry, hvalid⟩
    obtain ⟨applied, n', hup, -⟩ := hlive.update pr hb
    exact ⟨applied, n', hup⟩

theorem Node.Sound.of_adminLeave {pr : Primitives} {n n' : Node} {choices : ℕ → Choice}
    {applied : List Change} {t : ℤ} (hn : n.Sound)
    (h : n.adminLeave pr t choices = .ok (applied, n')) : n'.Sound := by
  rw [Node.adminLeave] at h
  obtain ⟨l, -, h⟩ := exists_of_bind_eq_ok h
  obtain ⟨-, i, he⟩ := Node.effect_makeStatus hn h
  exact he.sound

/-- A node that has left hears that it was alive before, and of another node that is
suspected. -/
theorem leave_kept_iff_stale :
    ∃ applied n applied₁ n₁ applied' n',
      (Node.new "app" "a").reincarnate ⟨fun _ => 0, fun _ => 1⟩ 5 5 (fun _ => ⟨5, 0⟩) =
        .ok (applied, n) ∧
      n.adminLeave ⟨fun _ => 0, fun _ => 1⟩ 6 (fun _ => ⟨6, 0⟩) = .ok (applied₁, n₁) ∧
      n₁.update ⟨fun _ => 0, fun _ => 1⟩
        ⟨[⟨"s", 1, "a", 5, alive⟩, ⟨"s", 1, "b", 9, suspect⟩], fun _ => ⟨7, 0⟩⟩ =
          .ok (applied', n') ∧
      n'.memberlist.entry "a" = some ⟨"a", leave, 5⟩ := by
  have heval : (do
      let r ← (Node.new "app" "a").reincarnate ⟨fun _ => 0, fun _ => 1⟩ 5 5 (fun _ => ⟨5, 0⟩)
      let r₁ ← r.2.adminLeave ⟨fun _ => 0, fun _ => 1⟩ 6 (fun _ => ⟨6, 0⟩)
      let r₂ ← r₁.2.update ⟨fun _ => 0, fun _ => 1⟩
        ⟨[⟨"s", 1, "a", 5, alive⟩, ⟨"s", 1, "b", 9, suspect⟩], fun _ => ⟨7, 0⟩⟩
      return (r₁.2.address, r₁.2.memberlist.entry "a", r₂.1.length)) =
        .ok ("a", some ⟨"a", leave, 5⟩, 1) := by
    decide +kernel
  obtain ⟨⟨applied, n⟩, hboot, heval⟩ := exists_of_bind_eq_ok heval
  obtain ⟨⟨applied₁, n₁⟩, hleave, heval⟩ := exists_of_bind_eq_ok heval
  obtain ⟨⟨applied', n'⟩, hup, heval⟩ := exists_of_bind_eq_ok heval
  obtain ⟨haddr, hentry, -⟩ : n₁.address = "a" ∧
      n₁.memberlist.entry "a" = some ⟨"a", leave, 5⟩ ∧ applied'.length = 1 := by
    simpa [pure, Except.pure] using heval
  have hsound := ((Node.sound_new "app" "a").of_reincarnate hboot).of_adminLeave hleave
  have hkept := (leave_kept_iff ⟨fun _ => 0, fun _ => 1⟩ n₁ hsound 5 (by rw [haddr, hentry])
    ⟨[⟨"s", 1, "a", 5, alive⟩, ⟨"s", 1, "b", 9, suspect⟩], fun _ => ⟨7, 0⟩⟩ (by
      rw [haddr]
      decide)).1 applied' n' hup
  rw [haddr] at hkept
  exact ⟨applied, n, applied₁, n₁, applied', n', hboot, hleave, hup,
    hkept.2 (.inr (.inl (by decide)))⟩

/-- **An accusation brings a node back that has left.**  Told to leave at incarnation `5`,
the node hears of an older suspicion about itself, and is alive again. -/
theorem leave_undone_by_accusation :
    ∃ applied n applied₁ n₁ applied' n',
      (Node.new "app" "a").reincarnate ⟨fun _ => 0, fun _ => 1⟩ 5 5 (fun _ => ⟨5, 0⟩) =
        .ok (applied, n) ∧
      n.adminLeave ⟨fun _ => 0, fun _ => 1⟩ 6 (fun _ => ⟨6, 0⟩) = .ok (applied₁, n₁) ∧
      n₁.memberlist.entry "a" = some ⟨"a", leave, 5⟩ ∧
      n₁.update ⟨fun _ => 0, fun _ => 1⟩ ⟨[⟨"s", 1, "a", 4, suspect⟩], fun _ => ⟨7, 0⟩⟩ =
        .ok (applied', n') ∧
      n'.memberlist.entry "a" = some ⟨"a", alive, 7⟩ := by
  refine ⟨_, _, _, _, _, _, rfl, rfl, by decide +kernel, rfl, by decide +kernel⟩

end Swim
end Ringpop
