/-
# When `Update` panics

A status is taken from the wire as it comes.  A change of a new address and a change of
a larger incarnation are stored without a look at the status; only a change that meets
an entry of its own incarnation has both statuses compared, and `statePrecedence` panics
if one of them is not a status (`View.Comparable`).  So a string that is no status
may wait in the member list for the next change.

`View.run_eq_panic_iff` says when the loop of `Update` panics, and nothing else of
`Update` does (`Node.update_eq_panic_iff`).
-/

import Ringpop.Swim.NodeEffect

namespace Ringpop
namespace Swim

open CellStore Runs

/-- The panic of `statePrecedence`. -/
def invalidState : Fault := .panic "invalid state"

/-- **`statePrecedence`** returns on the four statuses and panics on all other
strings. -/
theorem statePrecedence_cases (s : String) :
    ValidStatus s ∧ (∃ p, statePrecedence s = .ok p) ∨
      ¬ ValidStatus s ∧ statePrecedence s = .error invalidState := by
  by_cases hs : ValidStatus s
  · obtain ⟨t, rfl⟩ := hs.exists_name
    exact .inl ⟨hs, _, Status.statePrecedence_name t⟩
  · refine .inr ⟨hs, ?_⟩
    simp only [ValidStatus, Status.ofName] at hs
    rw [statePrecedence]
    split_ifs at hs ⊢ <;> first | rfl | exact absurd rfl hs

/-- **`nonLocalOverride`** panics on equal incarnations with a status that is none. -/
theorem nonLocalOverride_cases (m : Member) (c : Change) :
    (m.incarnation = c.incarnation → ValidStatus c.status ∧ ValidStatus m.status) ∧
        (∃ b, m.nonLocalOverride c = .ok b) ∨
      ¬ (m.incarnation = c.incarnation → ValidStatus c.status ∧ ValidStatus m.status) ∧
        m.nonLocalOverride c = .error invalidState := by
  rw [Member.nonLocalOverride]
  rcases lt_trichotomy m.incarnation c.incarnation with h | h | h
  · exact .inl ⟨fun heq => by omega, true, if_pos h⟩
  · rw [if_neg (by omega), if_neg (by omega)]
    simp only [h, true_implies]
    rcases statePrecedence_cases c.status with ⟨hc, p, hp⟩ | ⟨hc, hp⟩
    · rcases statePrecedence_cases m.status with ⟨hm, q, hq⟩ | ⟨hm, hq⟩
      · exact .inl ⟨⟨hc, hm⟩, decide (p > q), by rw [hp, hq]; rfl⟩
      · exact .inr ⟨fun hv => hm hv.2, by rw [hp, hq]; rfl⟩
    · exact .inr ⟨fun hv => hc hv.1, by rw [hp]; rfl⟩
  · exact .inl ⟨fun heq => by omega, false, by rw [if_neg (by omega), if_pos h]; rfl⟩

namespace View

/-- Where the change meets an entry of its incarnation that it does not refute, both
have valid statuses. -/
def Comparable (localAddress : String) (s : View × List Change) (c : Change) : Prop :=
  ∀ member ∈ s.1 c.address, member.localOverride localAddress c = false →
    member.incarnation = c.incarnation → ValidStatus c.status ∧ ValidStatus member.status

instance (localAddress : String) (s : View × List Change) (c : Change) :
    Decidable (Comparable localAddress s c) :=
  inferInstanceAs (Decidable (∀ member ∈ s.1 c.address, _))

/-- **One change** panics where it is not comparable. -/
theorem step_eq_panic_iff (localAddress : String) (s : View × List Change) (c : Change)
    (choice : Choice) :
    step localAddress s c choice = .error invalidState ↔ ¬ Comparable localAddress s c := by
  rw [step, Comparable]
  cases hentry : s.1 c.address with
  | none =>
    refine iff_of_false (fun h => by cases h) (not_not_intro fun member hm => by cases hm)
  | some member =>
    simp only [Option.mem_some_iff, forall_eq', outcome]
    cases hloc : member.localOverride localAddress c with
    | true =>
      refine iff_of_false (fun h => by cases h) (not_not_intro fun hl => by cases hl)
    | false =>
      simp only [true_implies, Bool.false_eq_true, if_false]
      rcases nonLocalOverride_cases member c with ⟨hv, b, hb⟩ | ⟨hv, hb⟩
      · rw [hb]
        exact iff_of_false (fun h => by cases h) (not_not_intro hv)
      · rw [hb]
        exact iff_of_true rfl hv

/-- **A batch** panics where one of its changes is not comparable. -/
theorem run_eq_panic_iff (localAddress : String) (choices : ℕ → Choice) (V : View)
    (changes : List Change) :
    run localAddress choices V changes = .error invalidState ↔
      ¬ Along (fun s (ci : Change × ℕ) => step localAddress s ci.1 (choices ci.2))
        (fun s ci => Comparable localAddress s ci.1) (V, []) changes.zipIdx :=
  foldlM_eq_error_iff (I := fun _ => True)
    (fun s ci _ => step_eq_panic_iff localAddress s ci.1 (choices ci.2))
    (fun _ _ _ _ _ => trivial) trivial

end View

namespace Node

variable {pr : Primitives} {n n' : Node} {changes : List Change} {e : Fault}

/-! ### The rest of `Update` -/

theorem eq_nilDereference_of_getLocal {m : Memberlist} (h : m.getLocal = .error e) :
    e = .nilDereference := by
  rw [Memberlist.getLocal] at h
  split at h
  · exact (Except.error.inj h).symm
  · cases h

/-- Counting the pingable members fails for want of a local member only. -/
theorem eq_nilDereference_of_numPingableMembers {m : Memberlist}
    (h : m.numPingableMembers = .error e) : e = .nilDereference := by
  obtain ⟨k, member, -, hone⟩ := exists_of_foldlM_eq_error h
  rcases bind_eq_error hone with hping | ⟨b, -, hret⟩
  · rcases bind_eq_error hping with hlocal | ⟨l, -, hret⟩
    · exact eq_nilDereference_of_getLocal hlocal
    · cases hret
  · cases b <;> cases hret

theorem eq_nilDereference_of_adjustMaxPropagations (h : n.adjustMaxPropagations pr = .error e) :
    e = .nilDereference := by
  rcases bind_eq_error h with hcount | ⟨k, -, hret⟩
  · exact eq_nilDereference_of_numPingableMembers hcount
  · dsimp only at hret
    split_ifs at hret <;> cases hret

/-- **`handleChanges`** does not panic. -/
theorem eq_nilDereference_of_handleChanges (h : n.handleChanges pr changes = .error e) :
    e = .nilDereference := by
  obtain ⟨n₁, c, -, hone⟩ := exists_of_foldlM_eq_error h
  simp only [handleChange] at hone
  split_ifs at hone
  · exact eq_nilDereference_of_adjustMaxPropagations hone
  · cases hone
  · exact eq_nilDereference_of_adjustMaxPropagations hone
  · exact eq_nilDereference_of_adjustMaxPropagations hone
  · cases hone

/-- Each change of the batch is comparable with what the changes before it left. -/
def ComparableBatch (n : Node) (b : Batch) : Prop :=
  Along (fun s (ci : Change × ℕ) => View.step n.address s ci.1 (b.choices ci.2))
    (fun s ci => View.Comparable n.address s ci.1) (n.memberlist.entry, [])
    (if n.stopped then [] else b.changes).zipIdx

instance (n : Node) (b : Batch) : Decidable (n.ComparableBatch b) :=
  inferInstanceAs (Decidable (Along _ _ _ _))

/-- **`Update`** panics where its loop does. -/
theorem update_eq_panic_iff (hn : n.Sound) (pr : Primitives) (b : Batch) :
    n.update pr b = .error invalidState ↔ ¬ n.ComparableBatch b := by
  have hloop : n.update pr b = .error invalidState ↔ n.memberlist.update pr.fingerprint32
      n.address n.stopped b.choices b.changes = .error invalidState := by
    constructor
    · intro h
      rcases bind_eq_error h with hup | ⟨st, -, h⟩
      · exact hup
      · rcases bind_eq_error h with hhandle | ⟨n', -, hret⟩
        · exact absurd (eq_nilDereference_of_handleChanges hhandle) (by decide)
        · cases hret
    · intro h
      rw [Node.update, h]
      rfl
  have hview := (hn.memberlist.update pr.fingerprint32 n.address n.stopped b.choices b.changes).1
  rw [ComparableBatch, ← View.run_eq_panic_iff, ← hview, map_eq_error_iff, hloop]

/-- One call of `Update`, and what is left of the node. -/
def updateStep (pr : Primitives) (n : Node) (b : Batch) : Except Fault Node :=
  (n.update pr b).map Prod.snd

/-- Several calls of `Update`. -/
def updates (pr : Primitives) (n : Node) (batches : List Batch) : Except Fault Node :=
  batches.foldlM (updateStep pr) n

end Node

/-- **When a sequence of `Update`s panics.**  On any sound node, for any change lists: no
call reaches the panic of `statePrecedence` exactly if in each call each change that meets
an entry of its own incarnation, and is not refuted, has a valid status and so has
the entry. -/
theorem updates_panicFree_iff (pr : Primitives) (n : Node) (batches : List Batch) (hn : n.Sound) :
    n.updates pr batches ≠ .error (.panic "invalid state") ↔
      Along (Node.updateStep pr) Node.ComparableBatch n batches := by
  rw [Node.updates, ne_eq, not_iff_comm]
  refine (foldlM_eq_error_iff (I := Node.Sound) (fun n b hn => ?_) (fun n b n' hn h => ?_)
    hn).symm
  · rw [← Node.update_eq_panic_iff hn pr b, Node.updateStep, map_eq_error_iff, invalidState]
  · obtain ⟨⟨applied, n₁⟩, hup, rfl⟩ := exists_of_map_eq_ok h
    exact (Node.effect_update hn hup).sound

/-- A new member of an unknown status, raised to a status at a larger incarnation. -/
theorem updates_panicFree_iff_raised :
    (Node.new "app" "a").updates ⟨fun _ => 0, fun _ => 1⟩
        [⟨[⟨"s", 1, "x", 1, "foo"⟩], fun _ => ⟨9, 0⟩⟩,
          ⟨[⟨"s", 1, "x", 2, faulty⟩], fun _ => ⟨9, 0⟩⟩] ≠ .error (.panic "invalid state") :=
  (updates_panicFree_iff _ _ _ (Node.sound_new "app" "a")).2 (by decide +kernel)

/-- A node that has reincarnated gets a member of an unknown status and then another
change of the same incarnation. -/
theorem updates_panics :
    ((Node.new "app" "a").reincarnate ⟨fun _ => 0, fun _ => 1⟩ 5 5 fun _ => ⟨5, 0⟩).bind
        (fun r => r.2.updates ⟨fun _ => 0, fun _ => 1⟩
          [⟨[⟨"s", 1, "x", 1, "foo"⟩], fun _ => ⟨9, 0⟩⟩,
            ⟨[⟨"s", 1, "x", 1, alive⟩], fun _ => ⟨9, 0⟩⟩]) = .error (.panic "invalid state") := by
  rfl

end Swim
end Ringpop
