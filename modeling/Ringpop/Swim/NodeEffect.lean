/-
# What a node does to its parts

The functions of a node that change its member list, seen from outside: which changes
were applied, and what became of the view, of the pending changes and of the timers
(`Node.Effect`).  `Update` and all functions that end in it have such an effect
(`Node.effect_update`, `Node.effect_makeStatus`, `Node.effect_fire`), and everything
that is proved about runs of a node is proved from it.

`Memberlist.Local` is what holds of `m.local`: it is the member of the node's own
address as soon as there is one.  A node that has a local member does not run into a
nil pointer, and if its statuses are valid as well it does not panic (`Node.Live`).

On such a node `Update` merges: however changes are ordered, repeated and cut into calls,
the entry of another address is the largest of what it was and of the changes for it, and two
nodes that receive the same changes come to hold the same (`update_is_join`).
-/

import Ringpop.Swim.Merge
import Ringpop.Swim.Node

namespace Ringpop
namespace Swim

open CellStore Runs Reorder

/-! ### The local member -/

namespace Memberlist

/-- The member of the node's own address is the local member, and the local member is a
member of that address. -/
structure Local (localAddress : String) (m : Memberlist) : Prop where
  own : ∀ p, m.byAddress localAddress = some p → m.localMember = some p
  cell : ∀ p, m.localMember = some p → p < m.store.next ∧
    ∃ member, m.store.cell p = some member ∧ member.address = localAddress

section local_

variable {a : String} {m : Memberlist} {c : Change} {choice : Choice}

theorem local_new (a : String) : new.Local a := ⟨by simp [new], by simp [new]⟩

theorem Local.setMember (h : m.Local a) (p : ℕ) (c : Change) : (m.setMember p c).Local a := by
  refine ⟨h.own, fun q hq => ?_⟩
  obtain ⟨hlt, hcell⟩ := h.cell q hq
  exact ⟨hlt, exists_cell_setMember p c hcell⟩

theorem Local.addMember (h : m.Local a) (choice : Choice) (c : Change) :
    (m.addMember a choice c).1.Local a := by
  by_cases hc : c.address = a
  · refine ⟨fun p hp => ?_, fun p hp => ?_⟩
    · simpa [Memberlist.addMember, hc] using hp
    · obtain rfl : m.store.next = p := by simpa [Memberlist.addMember, hc] using hp
      exact ⟨Nat.lt_succ_self _, c.member, by simp [Memberlist.addMember, Change.member], hc⟩
  · refine ⟨fun p hp => ?_, fun p hp => ?_⟩
    · have hp' : m.byAddress a = some p := by
        simpa [Memberlist.addMember, Ne.symm hc] using hp
      simpa [Memberlist.addMember, hc] using h.own p hp'
    · obtain ⟨hlt, member, hcell, haddr⟩ := h.cell p (by simpa [Memberlist.addMember, hc] using hp)
      refine ⟨hlt.trans (Nat.lt_succ_self _), member, ?_, haddr⟩
      simpa [Memberlist.addMember, hlt.ne] using hcell

theorem Local.apply (h : m.Local a) (choice : Choice) (c : Change) :
    (m.apply a choice c).Local a := by
  rw [Memberlist.apply]
  cases m.byAddress c.address with
  | some p => exact h.setMember p c
  | none => exact (h.addMember choice c).setMember _ c

/-- A local member does not get lost. -/
theorem apply_localMember_isSome (h : m.localMember.isSome) (a : String) (choice : Choice)
    (c : Change) : (m.apply a choice c).localMember.isSome := by
  rw [Memberlist.apply]
  cases m.byAddress c.address with
  | some p => exact h
  | none =>
    simp only [Memberlist.setMember, Memberlist.addMember]
    split_ifs
    · rfl
    · exact h

theorem Local.ensureLocal (h : m.Local a) (t : ℤ) :
    (m.ensureLocal a t).Local a := by
  cases hl : m.localMember with
  | some p => simpa [Memberlist.ensureLocal, hl] using h
  | none =>
    refine ⟨fun p hp => ?_, fun p hp => ?_⟩
    · have hp' : m.byAddress a = some p := by simpa [Memberlist.ensureLocal, hl] using hp
      rw [h.own p hp'] at hl
      cases hl
    · obtain rfl : m.store.next = p := by simpa [Memberlist.ensureLocal, hl] using hp
      simp [Memberlist.ensureLocal, hl]

/-- The local member that `MakeChange` makes is in no list. -/
theorem Sound.ensureLocal (h : m.Sound) (a : String) (t : ℤ) :
    (m.ensureLocal a t).Sound ∧ (m.ensureLocal a t).entry = m.entry := by
  cases hl : m.localMember with
  | some p => simpa [Memberlist.ensureLocal, hl] using h
  | none =>
    have hcell (x : String) (p : ℕ) (hp : m.byAddress x = some p) :
        (m.ensureLocal a t).store.cell p = m.store.cell p := by
      simp [Memberlist.ensureLocal, hl, (h.lt_next x p hp).ne]
    have hby : (m.ensureLocal a t).byAddress = m.byAddress := by simp [Memberlist.ensureLocal, hl]
    have hlist : (m.ensureLocal a t).list = m.list := by simp [Memberlist.ensureLocal, hl]
    refine ⟨⟨fun x p hp => ?_, fun x p hp => ?_, fun p => ?_, ?_⟩, ?_⟩
    · rw [hby] at hp
      rw [hcell x p hp]
      exact h.cell x p hp
    · rw [hby] at hp
      have := h.lt_next x p hp
      simp only [Memberlist.ensureLocal, hl]
      omega
    · rw [hlist, hby]
      exact h.mem_list p
    · rw [hlist]
      exact h.nodup
    · funext x
      rw [entry, entry, hby]
      cases hp : m.byAddress x with
      | none => rfl
      | some p => exact hcell x p hp

/-- There is a local member once `MakeChange` has looked. -/
theorem ensureLocal_isSome (m : Memberlist) (a : String) (t : ℤ) :
    (m.ensureLocal a t).localMember.isSome := by
  cases hl : m.localMember <;> simp [Memberlist.ensureLocal, hl]

/-- With an entry of its own, the node has a local member. -/
theorem Local.hasLocal (h : m.Local a) (hentry : (m.entry a).isSome) : m.localMember.isSome := by
  obtain ⟨member, hentry⟩ := Option.isSome_iff_exists.1 hentry
  obtain ⟨p, hp, -⟩ := Option.bind_eq_some_iff.1 hentry
  rw [h.own p hp]
  rfl

theorem Local.exists_getLocal (h : m.Local a) (hl : m.localMember.isSome) :
    ∃ member, m.getLocal = .ok member ∧ member.address = a := by
  obtain ⟨p, hp⟩ := Option.isSome_iff_exists.1 hl
  obtain ⟨-, member, hcell, haddr⟩ := h.cell p hp
  refine ⟨member, ?_, haddr⟩
  simp only [getLocal, hp, Option.bind_some, hcell]
  rfl

/-- The local member is the entry of the node's own address. -/
theorem Local.getLocal_eq (h : m.Local a) {member : Member} (hm : m.entry a = some member) :
    m.getLocal = .ok member := by
  obtain ⟨p, hp, hcell⟩ := Option.bind_eq_some_iff.1 hm
  simp only [getLocal, h.own p hp, Option.bind_some, hcell]
  rfl

/-- With a local member, it can be told who is pingable. -/
theorem exists_pingable {l : Member} (hl : m.getLocal = .ok l) (member : Member) :
    ∃ b, m.pingable member = .ok b := by
  rw [pingable, hl]
  exact ⟨_, rfl⟩

/-- **`Update`** keeps the local member what it is. -/
theorem Local.update (h : m.Local a) {fp : String → UInt32} {stopped : Bool}
    {choices : ℕ → Choice} {changes : List Change} {st : UpdateState}
    (hst : m.update fp a stopped choices changes = .ok st) : st.memberlist.Local a :=
  update_invariant (I := Local a) (fun _ choice c hm => hm.apply choice c)
    (fun _ hm => ⟨hm.own, hm.cell⟩) h hst

theorem update_localMember_isSome (h : m.localMember.isSome) {fp : String → UInt32}
    {stopped : Bool} {choices : ℕ → Choice} {changes : List Change} {st : UpdateState}
    (hst : m.update fp a stopped choices changes = .ok st) : st.memberlist.localMember.isSome :=
  update_invariant (I := fun m => m.localMember.isSome)
    (fun _ choice c hm => apply_localMember_isSome hm a choice c) (fun _ hm => hm) h hst

/-- With a local member, the pingable members can be counted. -/
theorem Local.exists_numPingableMembers (h : m.Local a) (hl : m.localMember.isSome) :
    ∃ n, m.numPingableMembers = .ok n := by
  obtain ⟨l, hget, -⟩ := h.exists_getLocal hl
  refine exists_foldlM_of_forall (fun k member _ => ?_) 0
  obtain ⟨b, hb⟩ := exists_pingable hget member
  rw [hb]
  cases b with
  | true => exact ⟨k + 1, rfl⟩
  | false => exact ⟨k, rfl⟩

theorem countForChanges_cons (m : Memberlist) (c : Change) (changes : List Change) :
    m.countForChanges (c :: changes) =
      m.countForChanges [c] >>= fun _ => m.countForChanges changes := by
  simp only [Memberlist.countForChanges, List.forM_cons, List.forM_nil, bind_pure_unit]

/-- So the end of `Update` does not come upon a nil pointer. -/
theorem Local.countForChanges (h : m.Local a) (hl : m.localMember.isSome)
    (changes : List Change) : m.countForChanges changes = .ok () := by
  obtain ⟨n, hn⟩ := h.exists_numPingableMembers hl
  induction changes with
  | nil => rfl
  | cons c changes ih =>
    rw [countForChanges_cons, ih, Memberlist.countForChanges, List.forM_cons, hn]
    split_ifs <;> rfl

end local_

end Memberlist

namespace Node

variable {pr : Primitives} {n n' n₁ : Node} {choices : ℕ → Choice} {changes applied : List Change}
  {c : Change}

/-! ### Handling changes -/

/-- `n'` is the node `n` after it has handled the changes. -/
structure Handled (n : Node) (changes : List Change) (n' : Node) : Prop where
  app : n'.app = n.app
  address : n'.address = n.address
  ready : n'.ready = n.ready
  stopped : n'.stopped = n.stopped
  memberlist : n'.memberlist = n.memberlist
  entry : n'.disseminator.entry = Disseminator.recorded n.disseminator.entry changes
  suspicion : n'.suspicion = changes.foldl (Suspicion.track n.address) n.suspicion

theorem Handled.refl (n : Node) : n.Handled [] n := ⟨rfl, rfl, rfl, rfl, rfl, rfl, rfl⟩

theorem Handled.trans {changes' : List Change} (h₁ : n.Handled changes n₁)
    (h₂ : n₁.Handled changes' n') : n.Handled (changes ++ changes') n' where
  app := h₂.app.trans h₁.app
  address := h₂.address.trans h₁.address
  ready := h₂.ready.trans h₁.ready
  stopped := h₂.stopped.trans h₁.stopped
  memberlist := h₂.memberlist.trans h₁.memberlist
  entry := by rw [h₂.entry, h₁.entry, Disseminator.recorded, Disseminator.recorded,
    Disseminator.recorded, List.foldl_append]
  suspicion := by rw [h₂.suspicion, h₁.suspicion, h₁.address, List.foldl_append]

/-- A new limit of propagations changes nothing else. -/
theorem handled_adjustMaxPropagations (h : n.adjustMaxPropagations pr = .ok n') :
    n.Handled [] n' := by
  rw [adjustMaxPropagations] at h
  obtain ⟨numPingable, -, h⟩ := exists_of_bind_eq_ok h
  dsimp only at h
  split_ifs at h
  · obtain rfl := Except.ok.inj h
    exact ⟨rfl, rfl, rfl, rfl, rfl, rfl, rfl⟩
  · obtain rfl := Except.ok.inj h
    exact .refl n

/-- **One change** is recorded and tracked. -/
theorem handled_handleChange (h : n.handleChange pr c = .ok n') : n.Handled [c] n' := by
  have hrecord (s : Suspicion) (hs : s = n.suspicion.track n.address c) : n.Handled [c]
      { n with disseminator := n.disseminator.recordChange c, suspicion := s } :=
    ⟨rfl, rfl, rfl, rfl, rfl, n.disseminator.entry_recordChange c, hs⟩
  simp only [handleChange] at h
  split_ifs at h with halive hfaulty hsuspect hleave
  · refine (hrecord _ ?_).trans (handled_adjustMaxPropagations h)
    simp only [Suspicion.track, halive]
    rfl
  · obtain rfl := Except.ok.inj h
    refine hrecord _ ?_
    simp only [Suspicion.track, hfaulty]
    rfl
  · refine (hrecord _ ?_).trans (handled_adjustMaxPropagations h)
    rw [Suspicion.track, if_pos hsuspect]
  · refine (hrecord _ ?_).trans (handled_adjustMaxPropagations h)
    simp only [Suspicion.track, hleave]
    rfl
  · obtain rfl := Except.ok.inj h
    refine hrecord _ ?_
    simp [Suspicion.track, halive, hfaulty, hsuspect, hleave]

/-- **`handleChanges`** records and tracks each change. -/
theorem handled_handleChanges (h : n.handleChanges pr changes = .ok n') :
    n.Handled changes n' := by
  induction changes generalizing n with
  | nil =>
    obtain rfl : n = n' := Except.ok.inj h
    exact .refl n
  | cons c changes ih =>
    rw [handleChanges, List.foldlM_cons] at h
    obtain ⟨n₁, h₁, h⟩ := exists_of_bind_eq_ok h
    exact (handled_handleChange h₁).trans (ih h)

/-- The member list is sound, and so is the local member. -/
structure Sound (n : Node) : Prop where
  memberlist : n.memberlist.Sound
  localMember : n.memberlist.Local n.address

theorem sound_new (app address : String) : (new app address).Sound :=
  ⟨Memberlist.sound_new, Memberlist.local_new _⟩

/-- Nothing but the member list and the own address matters. -/
theorem Sound.congr (hn : n.Sound) (hm : n'.memberlist = n.memberlist)
    (ha : n'.address = n.address) : n'.Sound := by
  refine ⟨?_, ?_⟩ <;> rw [hm]
  · exact hn.memberlist
  · rw [ha]
    exact hn.localMember

theorem Handled.sound (h : n.Handled changes n') (hn : n.Sound) : n'.Sound :=
  hn.congr h.memberlist h.address

/-- **`handleChange`** panics only where the pingable members cannot be counted. -/
theorem handleChange_map (pr : Primitives) (n : Node) (c : Change) :
    (n.handleChange pr c).map (fun _ => ()) = n.memberlist.countForChanges [c] := by
  have hadjust (n₁ : Node) (hn₁ : n₁.memberlist = n.memberlist) :
      (n₁.adjustMaxPropagations pr).map (fun _ => ()) =
        (fun _ => ()) <$> n.memberlist.numPingableMembers := by
    rw [adjustMaxPropagations, hn₁]
    cases n.memberlist.numPingableMembers with
    | error e => rfl
    | ok k =>
      simp only [Bind.bind, Except.bind]
      split_ifs <;> rfl
  have hcount : n.memberlist.countForChanges [c] =
      if (c.status = alive ∨ c.status = suspect) ∨ c.status = leave then
        (fun _ => ()) <$> n.memberlist.numPingableMembers
      else return () := by
    simp only [Memberlist.countForChanges, List.forM_cons, List.forM_nil, bind_pure_unit,
      Bool.or_eq_true, decide_eq_true_eq]
  simp only [handleChange]
  split_ifs with halive hfaulty hsuspect hleave
  · rw [hcount, if_pos (.inl (.inl halive))]
    exact hadjust _ rfl
  · rw [hcount, hfaulty, if_neg (by decide)]
    rfl
  · rw [hcount, if_pos (.inl (.inr hsuspect))]
    exact hadjust _ rfl
  · rw [hcount, if_pos (.inr hleave)]
    exact hadjust _ rfl
  · rw [hcount, if_neg (by simp [halive, hsuspect, hleave])]
    rfl

/-- **`handleChanges`** asks of the member list what `countForChanges` does. -/
theorem handleChanges_map (pr : Primitives) (n : Node) (changes : List Change) :
    (n.handleChanges pr changes).map (fun _ => ()) = n.memberlist.countForChanges changes := by
  induction changes generalizing n with
  | nil => rfl
  | cons c changes ih =>
    have hc := handleChange_map pr n c
    rw [handleChanges, List.foldlM_cons, Memberlist.countForChanges_cons, ← hc]
    cases hn₁ : n.handleChange pr c with
    | error e => rfl
    | ok n₁ =>
      rw [← (handled_handleChange hn₁).memberlist]
      exact ih n₁

/-- **A node with a local member** handles all changes. -/
theorem Sound.exists_handleChanges (h : n.Sound) (hl : n.memberlist.localMember.isSome)
    (pr : Primitives) (changes : List Change) : ∃ n', n.handleChanges pr changes = .ok n' := by
  obtain ⟨n', hn', -⟩ := exists_of_map_eq_ok
    ((handleChanges_map pr n changes).trans (h.localMember.countForChanges hl changes))
  exact ⟨n', hn'⟩

/-! ### The effect of an update -/

/-- `n'` is the node `n` after its member list was given the changes, of which
`applied` came to be applied. -/
structure Effect (n : Node) (choices : ℕ → Choice) (changes applied : List Change) (n' : Node) :
    Prop where
  app : n'.app = n.app
  address : n'.address = n.address
  ready : n'.ready = n.ready
  stopped : n'.stopped = n.stopped
  sound : n'.Sound
  hasLocal : n.memberlist.localMember.isSome → n'.memberlist.localMember.isSome
  run : View.run n.address choices n.memberlist.entry (if n.stopped then [] else changes) =
    .ok (n'.memberlist.entry, applied)
  entry : n'.disseminator.entry = Disseminator.recorded n.disseminator.entry applied
  suspicion : n'.suspicion = applied.foldl (Suspicion.track n.address) n.suspicion

/-- What `Update` does to the node is what it does to the member list, and then to each change
that was applied. -/
theorem exists_handled_of_update {b : Batch} (h : n.update pr b = .ok (applied, n')) :
    ∃ st, n.memberlist.update pr.fingerprint32 n.address n.stopped b.choices b.changes = .ok st ∧
      st.applied = applied ∧
      (emit { n with memberlist := st.memberlist } (st.emitted.map .memberlist)).handleChanges pr
        applied = .ok n' := by
  rw [Node.update] at h
  obtain ⟨st, hst, h⟩ := exists_of_bind_eq_ok h
  obtain ⟨n₁, hn₁, h⟩ := exists_of_bind_eq_ok h
  obtain ⟨rfl, rfl⟩ := Prod.mk.inj (Except.ok.inj h)
  exact ⟨st, hst, rfl, hn₁⟩

/-- **`Update`.** -/
theorem effect_update {b : Batch} (hn : n.Sound) (h : n.update pr b = .ok (applied, n')) :
    n.Effect b.choices b.changes applied n' := by
  obtain ⟨st, hst, rfl, hn'⟩ := exists_handled_of_update h
  obtain ⟨hview, hsound⟩ := hn.memberlist.update pr.fingerprint32 n.address n.stopped b.choices
    b.changes
  have hh := handled_handleChanges hn'
  rw [hst] at hview
  refine ⟨hh.app, hh.address, hh.ready, hh.stopped, hh.sound ⟨hsound st hst,
    hn.localMember.update hst⟩, fun hl => ?_, ?_, hh.entry, hh.suspicion⟩
  · rw [hh.memberlist]
    exact Memberlist.update_localMember_isSome hl hst
  · rw [hh.memberlist]
    exact hview.symm

/-- The member list that `Update` leaves. -/
theorem exists_of_update {b : Batch} (hstopped : n.stopped = false)
    (h : n.update pr b = .ok (applied, n')) :
    ∃ st, n.memberlist.applyChanges n.address b.choices b.changes = .ok st ∧
      applied = st.applied ∧ n'.memberlist = if applied = [] then st.memberlist
        else st.memberlist.computeChecksum pr.fingerprint32 := by
  obtain ⟨st', hst', rfl, hn'⟩ := exists_handled_of_update h
  rw [hstopped] at hst'
  obtain ⟨st, hst, happlied, hm⟩ := Memberlist.exists_of_update hst'
  refine ⟨st, hst, happlied, ?_⟩
  rw [(handled_handleChanges hn').memberlist, happlied]
  exact hm

/-- **`Update`** fails only in its loop, if there is a local member. -/
theorem Sound.exists_update {b : Batch} {s : View × List Change} (hn : n.Sound)
    (hl : n.memberlist.localMember.isSome) (pr : Primitives)
    (hrun : View.run n.address b.choices n.memberlist.entry
      (if n.stopped then [] else b.changes) = .ok s) :
    ∃ applied n', n.update pr b = .ok (applied, n') := by
  obtain ⟨hview, hsound⟩ := hn.memberlist.update pr.fingerprint32 n.address n.stopped b.choices
    b.changes
  obtain ⟨st, hst, -⟩ := exists_of_map_eq_ok (hview.trans hrun)
  have hn₁ : Sound (emit { n with memberlist := st.memberlist } (st.emitted.map .memberlist)) :=
    ⟨hsound st hst, hn.localMember.update hst⟩
  obtain ⟨n', hn'⟩ := hn₁.exists_handleChanges
    (Memberlist.update_localMember_isSome hl hst) pr st.applied
  refine ⟨st.applied, n', ?_⟩
  rw [Node.update, hst]
  simp only [Bind.bind, Except.bind, hn']
  rfl

/-- **`MakeChange`**: the change is given to the member list, from the local member. -/
theorem effect_makeChange {status address : String} {t incarnation : ℤ} (hn : n.Sound)
    (h : n.makeChange pr t choices address incarnation status = .ok (applied, n')) :
    n'.memberlist.localMember.isSome ∧ ∃ sourceIncarnation, n.Effect choices
      [⟨n.address, sourceIncarnation, address, incarnation, status⟩] applied n' := by
  rw [makeChange] at h
  obtain ⟨l, hl, h⟩ := exists_of_bind_eq_ok h
  obtain ⟨hsound, hentry⟩ := hn.memberlist.ensureLocal n.address t
  have hloc := hn.localMember.ensureLocal t
  obtain ⟨l', hl', haddr⟩ := hloc.exists_getLocal (Memberlist.ensureLocal_isSome ..)
  obtain rfl : l' = l := Except.ok.inj (hl'.symm.trans hl)
  rw [haddr] at h
  have he := effect_update ⟨hsound, hloc⟩ h
  refine ⟨he.hasLocal (Memberlist.ensureLocal_isSome ..), l'.incarnation, ?_⟩
  refine ⟨he.app, he.address, he.ready, he.stopped, he.sound, fun _ =>
    he.hasLocal (Memberlist.ensureLocal_isSome ..), ?_, he.entry, he.suspicion⟩
  rw [← hentry]
  exact he.run

/-- **The functions that make a change** of one status. -/
theorem effect_makeStatus {status address : String} {t incarnation : ℤ} (hn : n.Sound)
    (h : n.makeStatus status pr t choices address incarnation = .ok (applied, n')) :
    n'.memberlist.localMember.isSome ∧ ∃ sourceIncarnation, n.Effect choices
      [⟨n.address, sourceIncarnation, address, incarnation, status⟩] applied n' := by
  have hn₁ : Sound (n.emit [.makeNodeStatus status]) := hn.congr rfl rfl
  obtain ⟨hlocal, i, he⟩ := effect_makeChange hn₁ h
  exact ⟨hlocal, i, he.app, he.address, he.ready, he.stopped, he.sound, he.hasLocal, he.run,
    he.entry, he.suspicion⟩

/-- **A timer that goes off.** -/
theorem effect_fire {t : ℤ} {x : String} (hn : n.Sound)
    (h : n.fire pr t choices x = .ok (applied, n')) :
    (applied = [] ∧ n' = n) ∨ ∃ i, n.suspicion.timers x = some ⟨i, false⟩ ∧
      ∃ sourceIncarnation, Effect { n with suspicion := n.suspicion.fire x } choices
        [⟨n.address, sourceIncarnation, x, i, faulty⟩] applied n' := by
  rw [fire] at h
  split at h
  · rename_i i htimer
    have hn₁ : Sound { n with suspicion := n.suspicion.fire x } := hn.congr rfl rfl
    exact .inr ⟨i, htimer, (effect_makeStatus hn₁ h).2⟩
  · obtain ⟨rfl, rfl⟩ := Prod.mk.inj (Except.ok.inj h)
    exact .inl ⟨rfl, rfl⟩

/-! ### Nodes that go on -/

/-- A node that calls with valid statuses do not stop. -/
structure Live (n : Node) : Prop where
  sound : n.Sound
  hasLocal : n.memberlist.localMember.isSome
  valid : View.Valid n.memberlist.entry

theorem Live.congr (h : n.Live) (hm : n'.memberlist = n.memberlist)
    (ha : n'.address = n.address) : n'.Live := by
  refine ⟨h.sound.congr hm ha, ?_, ?_⟩ <;> rw [hm]
  · exact h.hasLocal
  · exact h.valid

/-- **`Update`** with valid statuses returns. -/
theorem Live.update {b : Batch} (h : n.Live) (pr : Primitives)
    (hb : ∀ c ∈ b.changes, ValidStatus c.status) :
    ∃ applied n', n.update pr b = .ok (applied, n') ∧ n'.Live := by
  have hgiven : ∀ c ∈ if n.stopped then [] else b.changes, ValidStatus c.status := by
    split_ifs
    · simp
    · exact hb
  obtain ⟨s', hrun, hs', -⟩ := View.rank_run (h.sound.memberlist.view h.valid) n.address b.choices
    hgiven
  obtain ⟨applied, n', hn'⟩ := h.sound.exists_update h.hasLocal pr hrun
  have he := effect_update h.sound hn'
  obtain rfl := Except.ok.inj (he.run.symm.trans hrun)
  exact ⟨applied, n', hn', he.sound, he.hasLocal h.hasLocal, hs'.valid⟩

/-- **`Update`** with valid statuses leaves the largest of the entry and the changes. -/
theorem Live.rank_update {b : Batch} (h : n.Live) (hrunning : n.stopped = false)
    (hb : ∀ c ∈ b.changes, ValidStatus c.status) (hup : n.update pr b = .ok (applied, n'))
    {x : String} (hx : x ≠ n.address) :
    View.rank n'.memberlist.entry x =
      View.rank n.memberlist.entry x ⊔ b.changes.toFinset.sup (Change.rankFor x) := by
  obtain ⟨s', hrun, -, hrank⟩ := View.rank_run (h.sound.memberlist.view h.valid) n.address
    b.choices hb
  have he := (effect_update h.sound hup).run
  rw [hrunning] at he
  obtain rfl := Except.ok.inj (he.symm.trans hrun)
  exact hrank x hx

/-- Several calls of `Update`. -/
def deliver (pr : Primitives) (n : Node) (batches : List Batch) : Except Fault Node :=
  batches.foldlM (fun n b => Prod.snd <$> n.update pr b) n

theorem Sound.deliver {batches : List Batch} (h : n.Sound)
    (hrun : n.deliver pr batches = .ok n') : n'.Sound :=
  foldlM_invariant (fun n₁ b n₂ hn₁ hup => by
    obtain ⟨r, hr, rfl⟩ := exists_of_map_eq_ok hup
    exact (effect_update hn₁ hr).sound) h hrun

/-- **Several calls of `Update`** return, and leave the largest of the entry and all changes. -/
theorem Live.deliver (h : n.Live) (hrunning : n.stopped = false) (pr : Primitives)
    (batches : List Batch) (hbatches : ∀ b ∈ batches, ∀ c ∈ b.changes, ValidStatus c.status) :
    ∃ n', n.deliver pr batches = .ok n' ∧ n'.Live ∧
      ∀ x ≠ n.address, View.rank n'.memberlist.entry x =
        View.rank n.memberlist.entry x ⊔ (delivered batches).sup (Change.rankFor x) := by
  induction batches generalizing n with
  | nil => exact ⟨n, rfl, h, by simp [delivered]⟩
  | cons b batches ih =>
    obtain ⟨applied, n₁, hup, hn₁⟩ := h.update pr (hbatches b (.head _))
    have he := effect_update h.sound hup
    obtain ⟨n', hrun, hn', hrank⟩ := ih hn₁ (he.stopped.trans hrunning)
      fun b' hb' => hbatches b' (.tail _ hb')
    refine ⟨n', ?_, hn', fun x hx => ?_⟩
    · rw [Node.deliver, List.foldlM_cons, hup]
      exact hrun
    · rw [hrank x (he.address ▸ hx), h.rank_update hrunning (hbatches b (.head _)) hup hx,
        delivered_cons, Finset.sup_union, sup_assoc]

/-- **`MakeChange`** fails only in the loop of `Update`, on a node with or without a local
member. -/
theorem Sound.exists_makeChange_of_run {status address : String} {incarnation : ℤ} (h : n.Sound)
    (hrun : ∀ sourceIncarnation, ∃ s, View.run n.address choices n.memberlist.entry
      (if n.stopped then [] else [⟨n.address, sourceIncarnation, address, incarnation, status⟩]) =
        .ok s) (pr : Primitives) (t : ℤ) :
    ∃ applied n', n.makeChange pr t choices address incarnation status = .ok (applied, n') := by
  obtain ⟨hsound, hentry⟩ := h.memberlist.ensureLocal n.address t
  have hloc := h.localMember.ensureLocal t
  obtain ⟨l, hl, haddr⟩ := hloc.exists_getLocal (Memberlist.ensureLocal_isSome ..)
  obtain ⟨s, hs⟩ := hrun l.incarnation
  rw [← hentry, ← haddr] at hs
  have hn₁ : Sound { n with memberlist := n.memberlist.ensureLocal n.address t } := ⟨hsound, hloc⟩
  rw [makeChange]
  simp only [hl, Bind.bind, Except.bind]
  refine hn₁.exists_update (Memberlist.ensureLocal_isSome ..) pr (s := s) ?_
  rw [← hs, haddr]

/-- **The functions that make a change** of one status fail only there as well. -/
theorem Sound.exists_makeStatus_of_run {status address : String} {incarnation : ℤ} (h : n.Sound)
    (hrun : ∀ sourceIncarnation, ∃ s, View.run n.address choices n.memberlist.entry
      (if n.stopped then [] else [⟨n.address, sourceIncarnation, address, incarnation, status⟩]) =
        .ok s) (pr : Primitives) (t : ℤ) :
    ∃ applied n', n.makeStatus status pr t choices address incarnation = .ok (applied, n') := by
  have hn₁ : Sound (n.emit [.makeNodeStatus status]) := h.congr rfl rfl
  exact hn₁.exists_makeChange_of_run hrun pr t

/-- **`MakeChange`** returns if the statuses are valid, and leaves the node with a local
member. -/
theorem Sound.exists_makeChange {status : String} (h : n.Sound)
    (hvalid : View.Valid n.memberlist.entry) (hstatus : ValidStatus status) (pr : Primitives)
    (t : ℤ) (choices : ℕ → Choice) (address : String) (incarnation : ℤ) :
    ∃ applied n', n.makeChange pr t choices address incarnation status = .ok (applied, n') ∧
      n'.Live := by
  have hrun (i : ℤ) : ∃ s : View × List Change, View.run n.address choices n.memberlist.entry
      (if n.stopped then [] else [⟨n.address, i, address, incarnation, status⟩]) = .ok s ∧
        s.1.Sound := by
    have hgiven : ∀ c ∈ if n.stopped then [] else
        [(⟨n.address, i, address, incarnation, status⟩ : Change)], ValidStatus c.status := by
      split_ifs <;> simp [hstatus]
    obtain ⟨s, hs, hsound, -⟩ := View.rank_run (h.memberlist.view hvalid) n.address choices hgiven
    exact ⟨s, hs, hsound⟩
  obtain ⟨applied, n', hn'⟩ := h.exists_makeChange_of_run (fun i => (hrun i).imp fun _ hs => hs.1)
    pr t
  obtain ⟨hlocal, i, he⟩ := effect_makeChange h hn'
  obtain ⟨s, hs, hsound⟩ := hrun i
  obtain rfl := Except.ok.inj (he.run.symm.trans hs)
  exact ⟨applied, n', hn', he.sound, hlocal, hsound.valid⟩

/-- **The functions that make a change** of one status return if the statuses are valid. -/
theorem Sound.exists_makeStatus {status : String} (h : n.Sound)
    (hvalid : View.Valid n.memberlist.entry) (hstatus : ValidStatus status) (pr : Primitives)
    (t : ℤ) (choices : ℕ → Choice) (address : String) (incarnation : ℤ) :
    ∃ applied n', n.makeStatus status pr t choices address incarnation = .ok (applied, n') ∧
      n'.Live := by
  have hn₁ : Sound (n.emit [.makeNodeStatus status]) := h.congr rfl rfl
  exact hn₁.exists_makeChange hvalid hstatus pr t choices address incarnation

/-- **A timer that goes off** does not stop the node. -/
theorem Live.fire (h : n.Live) (pr : Primitives) (t : ℤ) (choices : ℕ → Choice) (x : String) :
    ∃ applied n', n.fire pr t choices x = .ok (applied, n') ∧ n'.Live := by
  rw [Node.fire]
  split
  · have hsound : Sound { n with suspicion := n.suspicion.fire x } :=
      h.sound.congr rfl rfl
    exact hsound.exists_makeStatus h.valid (validStatus_name .faulty) ..
  · exact ⟨[], n, rfl, h⟩

end Node

/-- **Merging is a join.**  On nodes that are not stopped and have a local member, as they have
from the first `Reincarnate` on, and for any changes with valid statuses, in any order, with
any repetition and in any batches: the calls return, the entry of an address other than the
node's own is the maximum of the entry before and of all changes for the address, and never
moves down.  Two nodes that start from the same entry and receive the same set of changes end
with the same entry. -/
theorem update_is_join (pr : Primitives) (n₁ n₂ : Node) (batches₁ batches₂ : List Batch)
    (h₁ : n₁.Live) (h₂ : n₂.Live) (hrunning₁ : n₁.stopped = false)
    (hrunning₂ : n₂.stopped = false)
    (hchanges₁ : ∀ b ∈ batches₁, ∀ c ∈ b.changes, ValidStatus c.status)
    (hchanges₂ : ∀ b ∈ batches₂, ∀ c ∈ b.changes, ValidStatus c.status) :
    ∃ n₁' n₂', n₁.deliver pr batches₁ = .ok n₁' ∧ n₂.deliver pr batches₂ = .ok n₂' ∧
      n₁'.Live ∧
      (∀ x ≠ n₁.address, n₁'.memberlist.entry x = memberOf x (View.rank n₁.memberlist.entry x ⊔
        (delivered batches₁).sup (Change.rankFor x))) ∧
      (∀ x ≠ n₁.address,
        View.rank n₁.memberlist.entry x ≤ View.rank n₁'.memberlist.entry x) ∧
      (delivered batches₁ = delivered batches₂ → ∀ x, x ≠ n₁.address → x ≠ n₂.address →
        n₁.memberlist.entry x = n₂.memberlist.entry x →
        n₁'.memberlist.entry x = n₂'.memberlist.entry x) := by
  obtain ⟨n₁', hrun₁, hlive₁, hrank₁⟩ := h₁.deliver hrunning₁ pr batches₁ hchanges₁
  obtain ⟨n₂', hrun₂, hlive₂, hrank₂⟩ := h₂.deliver hrunning₂ pr batches₂ hchanges₂
  have hview₁ := hlive₁.sound.memberlist.view hlive₁.valid
  have hview₂ := hlive₂.sound.memberlist.view hlive₂.valid
  refine ⟨n₁', n₂', hrun₁, hrun₂, hlive₁, fun x hx => ?_, fun x hx => ?_,
    fun hsame x hx₁ hx₂ hx => ?_⟩
  · rw [hview₁.eq_memberOf x, hrank₁ x hx]
  · rw [hrank₁ x hx]
    exact le_sup_left
  · rw [hview₁.eq_memberOf x, hview₂.eq_memberOf x, hrank₁ x hx₁, hrank₂ x hx₂, hsame]
    simp only [View.rank, hx]

/-- Two nodes that know themselves: one gets a batch, and the other the same changes reversed,
repeated and one by one. -/
theorem update_is_join_reversed :
    ∃ n₁ n₂ n₁' n₂',
      Prod.snd <$> (Node.new "app" "a").reincarnate ⟨fun _ => 0, fun _ => 1⟩ 5 5
        (fun _ => ⟨5, 0⟩) = .ok n₁ ∧
      Prod.snd <$> (Node.new "app" "b").reincarnate ⟨fun _ => 0, fun _ => 1⟩ 6 6
        (fun _ => ⟨6, 0⟩) = .ok n₂ ∧
      n₁.deliver ⟨fun _ => 0, fun _ => 1⟩
        [⟨[⟨"s", 1, "x", 1, alive⟩, ⟨"s", 1, "x", 1, faulty⟩], fun _ => ⟨9, 0⟩⟩] = .ok n₁' ∧
      n₂.deliver ⟨fun _ => 0, fun _ => 1⟩
        [.single "x" faulty, .single "x" alive, .single "x" faulty] = .ok n₂' ∧
      n₁'.memberlist.entry "x" = n₂'.memberlist.entry "x" := by
  have hchanges₁ : ∀ b ∈ [(⟨[⟨"s", 1, "x", 1, alive⟩, ⟨"s", 1, "x", 1, faulty⟩],
      fun _ => ⟨9, 0⟩⟩ : Batch)], ∀ c ∈ b.changes, ValidStatus c.status := by
    simp only [List.forall_mem_singleton]
    decide +kernel
  have hchanges₂ : ∀ b ∈ [Batch.single "x" faulty, .single "x" alive, .single "x" faulty],
      ∀ c ∈ b.changes, ValidStatus c.status := by
    simp only [List.forall_mem_cons]
    decide +kernel
  obtain ⟨applied₁, n₁, hboot₁, hlive₁⟩ := (Node.sound_new "app" "a").exists_makeStatus
    View.valid_new (validStatus_name .alive) ⟨fun _ => 0, fun _ => 1⟩ 5 (fun _ => ⟨5, 0⟩) "a" 5
  obtain ⟨applied₂, n₂, hboot₂, hlive₂⟩ := (Node.sound_new "app" "b").exists_makeStatus
    View.valid_new (validStatus_name .alive) ⟨fun _ => 0, fun _ => 1⟩ 6 (fun _ => ⟨6, 0⟩) "b" 6
  obtain ⟨-, i₁, he₁⟩ := Node.effect_makeStatus (Node.sound_new "app" "a") hboot₁
  obtain ⟨-, i₂, he₂⟩ := Node.effect_makeStatus (Node.sound_new "app" "b") hboot₂
  obtain ⟨n₁', n₂', hrun₁, hrun₂, -, -, -, hsame⟩ := update_is_join ⟨fun _ => 0, fun _ => 1⟩
    n₁ n₂ _ _ hlive₁ hlive₂ he₁.stopped he₂.stopped hchanges₁ hchanges₂
  refine ⟨n₁, n₂, n₁', n₂', congrArg _ hboot₁, congrArg _ hboot₂, hrun₁, hrun₂,
    hsame (by decide +kernel) "x" ?_ ?_ ?_⟩
  · rw [he₁.address]
    decide
  · rw [he₂.address]
    decide
  · have hx₁ := (View.run_of_address_ne he₁.run (x := "x") (by simp [Node.new])).1
    have hx₂ := (View.run_of_address_ne he₂.run (x := "x") (by simp [Node.new])).1
    exact hx₁.trans hx₂.symm

namespace Node

variable {pr : Primitives} {n n' n₁ : Node} {choices : ℕ → Choice} {changes applied : List Change}
  {c : Change}

/-! ### Issuing changes -/

/-- `n'` differs from `n` in its disseminator and in what it has emitted. -/
structure OnlyDisseminates (n n' : Node) : Prop where
  app : n'.app = n.app
  address : n'.address = n.address
  ready : n'.ready = n.ready
  stopped : n'.stopped = n.stopped
  memberlist : n'.memberlist = n.memberlist
  suspicion : n'.suspicion = n.suspicion

theorem OnlyDisseminates.sound (h : n.OnlyDisseminates n') (hn : n.Sound) : n'.Sound :=
  hn.congr h.memberlist h.address

/-- What `IssueAsReceiver` returns for a sender: the pending changes that did not come
from it, `kept`, or a full sync if there are none and the checksums differ. -/
structure Issues (n : Node) (o : Arrangement Change) (source : String) (incarnation : ℤ)
    (checksum : UInt32) (kept changes : List Change) (full : Bool) (n' : Node) : Prop where
  only : n.OnlyDisseminates n'
  perm : kept.Perm ((n.disseminator.issueChanges o).filter (! Change.isFrom source incarnation ·))
  disseminator : n'.disseminator = n.disseminator.bumpPiggybackCounters kept
  changes : full = false ∧ changes = kept ∧ (kept ≠ [] ∨ n.memberlist.checksum = checksum) ∨
    full = true ∧ changes = n.fullSync ∧ kept = [] ∧ n.memberlist.checksum ≠ checksum
  emitted : ∃ events, n'.emitted = n.emitted ++ events ∧
    ∀ e ∈ events, (∃ cs, e = .changesCalculated cs) ∨ (∃ c, e = .changeFiltered c) ∨
      full = true ∧ e = .fullSync source checksum

theorem emit_emit (n : Node) (events events' : List NodeEvent) :
    (n.emit events).emit events' = n.emit (events ++ events') := by
  simp only [emit, List.append_assoc]

/-- **`IssueAsReceiver`** returns. -/
theorem issueAsReceiver_spec (n : Node) (o : Arrangement Change) (source : String)
    (incarnation : ℤ) (checksum : UInt32) : ∃ kept changes full n',
      n.issueAsReceiver o source incarnation checksum = .ok ((changes, full), n') ∧
        n.Issues o source incarnation checksum kept changes full n' := by
  obtain ⟨kept, filtered, hfilter, hperm, -⟩ :=
    filterChangesFromSender_spec (n.disseminator.issueChanges o) source incarnation
  obtain ⟨events, hevents⟩ : ∃ events, events = [NodeEvent.changesCalculated
    (n.disseminator.issueChanges o)] ++ filtered.map .changeFiltered := ⟨_, rfl⟩
  have hmem : ∀ e ∈ events, (∃ cs, e = .changesCalculated cs) ∨ ∃ c, e = .changeFiltered c := by
    simp [hevents]
  by_cases hidle : kept.length > 0 || n.memberlist.checksum = checksum
  · refine ⟨kept, kept, false, (n.emit events).bumpPiggybackCounters kept, ?_,
      ⟨⟨rfl, rfl, rfl, rfl, rfl, rfl⟩, hperm, rfl, .inl ⟨rfl, rfl, ?_⟩, events, rfl,
        fun e he => (hmem e he).imp_right .inl⟩⟩
    · rw [hevents, ← emit_emit]
      simp only [issueAsReceiver, issueChanges, hfilter]
      exact if_pos hidle
    · rw [Bool.or_eq_true, decide_eq_true_eq, decide_eq_true_eq] at hidle
      exact hidle.imp_left List.length_pos_iff.1
  · refine ⟨kept, n.fullSync, true,
      ((n.emit events).bumpPiggybackCounters kept).emit [.fullSync source checksum], ?_,
      ⟨⟨rfl, rfl, rfl, rfl, rfl, rfl⟩, hperm, rfl, .inr ⟨rfl, rfl, ?_, ?_⟩, _,
        List.append_assoc .., fun e he => ?_⟩⟩
    · rw [hevents, ← emit_emit]
      simp only [issueAsReceiver, issueChanges, hfilter]
      exact if_neg hidle
    · by_contra hne
      exact hidle (by simp [List.length_pos_iff.2 hne])
    · intro heq
      exact hidle (by simp [heq])
    · rcases List.mem_append.1 he with he | he
      · exact (hmem e he).imp_right .inl
      · exact .inr (.inr ⟨rfl, List.mem_singleton.1 he⟩)

section issues

variable {o : Arrangement Change} {source : String} {incarnation : ℤ} {checksum : UInt32}
  {kept : List Change} {full : Bool}

/-- What is left for the sender: the pending changes that did not come from it. -/
theorem Issues.mem_kept (h : n.Issues o source incarnation checksum kept changes full n') :
    c ∈ kept ↔ (∃ pc, n.disseminator.entry c.address = some pc ∧ pc.toChange = c) ∧
      Change.isFrom source incarnation c = false := by
  rw [h.perm.mem_iff, List.mem_filter, Disseminator.mem_issueChanges, Bool.not_eq_true']

/-- Nothing is left if everything came from the sender. -/
theorem Issues.kept_eq_nil_iff (h : n.Issues o source incarnation checksum kept changes full n') :
    kept = [] ↔ ∀ x pc, n.disseminator.entry x = some pc →
      Change.isFrom source incarnation pc.toChange = true := by
  constructor
  · intro hnil x pc hpc
    by_contra hnot
    have hmem : pc.toChange ∈ kept := h.mem_kept.2
      ⟨⟨pc, by rw [Disseminator.address_of_entry hpc]; exact hpc, rfl⟩, eq_false_of_ne_true hnot⟩
    rw [hnil] at hmem
    cases hmem
  · intro hall
    refine List.eq_nil_iff_forall_not_mem.2 fun c hc => ?_
    obtain ⟨⟨pc, hpc, rfl⟩, hfrom⟩ := h.mem_kept.1 hc
    rw [hall _ pc hpc] at hfrom
    cases hfrom

end issues

/-- The members of a full sync. -/
theorem mem_fullSync {c : Change} (hn : n.Sound) (h : c ∈ n.fullSync) :
    n.memberlist.entry c.address = some c.member := by
  obtain ⟨member, hmem, rfl⟩ := List.mem_map.1 h
  exact hn.memberlist.mem_getMembers.1 hmem

/-- Each entry is in a full sync. -/
theorem mem_fullSync_of_entry {x : String} {member : Member} (hn : n.Sound)
    (h : n.memberlist.entry x = some member) :
    ∃ c ∈ n.fullSync, c.member = member := by
  obtain rfl := hn.memberlist.address_eq h
  exact ⟨_, List.mem_map.2 ⟨member, hn.memberlist.mem_getMembers.2 h, rfl⟩, rfl⟩

/-- **`handleJoin`** that accepts answers with the whole member list. -/
theorem membership_of_handleJoin {req : JoinRequest} {res : JoinResponse}
    (h : (n.handleJoin req).1 = .ok res) : res.membership = n.fullSync := by
  simp only [handleJoin, validateSourceAddress, validateSourceApp] at h
  split_ifs at h
  · cases h
  · cases h
  · cases h
  · obtain rfl := Except.ok.inj h
    rfl

/-- **`handlePing`** on a node that is ready: an `Update` and what `IssueAsReceiver` then
returns. -/
theorem handlePing_spec {o : Arrangement Change} {req : Ping} (hready : n.ready = true)
    (hup : (n.emit [.pingReceive n.address req.source req.changes]).update pr
      ⟨req.changes, choices⟩ = .ok (applied, n₁)) :
    ∃ kept changes full n', n.handlePing pr choices o req =
        .ok (.ok ⟨changes, n'.memberlist.checksum, n'.address, n'.incarnation⟩, n') ∧
      n₁.Issues o req.source req.sourceIncarnation req.checksum kept changes full n' := by
  obtain ⟨kept, changes, full, n', hissue, hi⟩ :=
    issueAsReceiver_spec n₁ o req.source req.sourceIncarnation req.checksum
  refine ⟨kept, changes, full, n', ?_, hi⟩
  rw [handlePing, hready, if_neg (by decide), hup]
  simp only [Bind.bind, Except.bind, hissue]
  rfl

/-- A ping that is answered was given to `Update`. -/
theorem exists_of_handlePing {o : Arrangement Change} {req : Ping} {r : Except String Ping × Node}
    (hready : n.ready = true) (h : n.handlePing pr choices o req = .ok r) :
    ∃ applied n₁, (n.emit [.pingReceive n.address req.source req.changes]).update pr
      ⟨req.changes, choices⟩ = .ok (applied, n₁) := by
  rw [handlePing, hready, if_neg (by decide)] at h
  obtain ⟨⟨applied, n₁⟩, hup, -⟩ := exists_of_bind_eq_ok h
  exact ⟨applied, n₁, hup⟩

end Node

end Swim
end Ringpop
