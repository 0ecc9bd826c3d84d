/-
# The view of a node

What the member list is, without its pointers and places: an entry for some of
the addresses (`View`).  `View.outcome` says what becomes of a change: it is
taken, or refuted, or ignored, or stops `Update` with a panic; one branch for each
branch of the loop of `Update`.

`Memberlist.Sound` is what holds of every member list that `Update` builds.  On
such lists the loop of `Update` does what `View.run` does
(`Memberlist.Sound.applyChanges`), for whatever changes.
-/

import Ringpop.Collections.Runs
import Ringpop.Swim.Memberlist

namespace Ringpop
namespace Swim

open CellStore Runs

/-- The member that a change describes. -/
def Change.member (c : Change) : Member := ⟨c.address, c.status, c.incarnation⟩

/-- An entry for each known address. -/
abbrev View := String → Option Member

namespace View

/-- What is applied of a change when the entry of its address is `e`: the change
itself if it is the first or overrides the entry, a refutation if it calls the
node itself suspect or faulty, or nothing. -/
def outcome (localAddress : String) (choice : Choice) (e : Option Member) (c : Change) :
    Except Fault (Option Change) :=
  match e with
  | none => .ok (some c)
  | some member =>
      if member.localOverride localAddress c then
        .ok (some { c with incarnation := choice.now, status := alive })
      else (member.nonLocalOverride c).map fun override => if override then some c else none

/-- The view after what is applied of a change, and what was applied so far. -/
def take (s : View × List Change) : Option Change → View × List Change
  | none => s
  | some c => (Function.update s.1 c.address (some c.member), s.2 ++ [c])

/-- One change. -/
def step (localAddress : String) (s : View × List Change) (c : Change) (choice : Choice) :
    Except Fault (View × List Change) :=
  (outcome localAddress choice (s.1 c.address) c).map (take s)

/-- A batch of changes. -/
def run (localAddress : String) (choices : ℕ → Choice) (V : View) (changes : List Change) :
    Except Fault (View × List Change) :=
  changes.zipIdx.foldlM (fun s (c, i) => step localAddress s c (choices i)) (V, [])

/-- The entry of an address is alive or suspect. -/
def Reachable (V : View) (x : String) : Prop := (V x).any Member.isReachable

instance (V : View) (x : String) : Decidable (V.Reachable x) :=
  inferInstanceAs (Decidable (_ = true))

section step

variable {localAddress : String} {choice : Choice} {s s' : View × List Change} {c c' : Change}

/-- **What is applied of a change**: the change itself, or where it accuses the node, a
refutation at the reading of the clock. -/
theorem outcome_eq_some {e : Option Member}
    (h : outcome localAddress choice e c = .ok (some c')) :
    c' = c ∨ (∃ member, e = some member ∧ member.localOverride localAddress c = true) ∧
      c' = { c with incarnation := choice.now, status := alive } := by
  cases e with
  | none => exact .inl (Option.some.inj (Except.ok.inj h)).symm
  | some member =>
    simp only [outcome] at h
    split_ifs at h with hloc
    · exact .inr ⟨⟨member, rfl, hloc⟩, (Option.some.inj (Except.ok.inj h)).symm⟩
    · cases hover : member.nonLocalOverride c with
      | error e =>
        rw [hover] at h
        cases h
      | ok override =>
        rw [hover] at h
        cases override with
        | false => cases h
        | true => exact .inl (Option.some.inj (Except.ok.inj h)).symm

/-- What is applied is about the address of the change: the change itself, or that
the node is alive. -/
theorem outcome_cases {e : Option Member}
    (h : outcome localAddress choice e c = .ok (some c')) :
    c'.address = c.address ∧ (c' = c ∨ c'.status = alive) := by
  obtain rfl | ⟨-, rfl⟩ := outcome_eq_some h
  · exact ⟨rfl, .inl rfl⟩
  · exact ⟨rfl, .inr rfl⟩

/-- **An entry after a change was applied** is that of the change, or was there before. -/
theorem take_cases {x : String} {member : Member} (h : (take s (some c)).1 x = some member) :
    x = c.address ∧ c.member = member ∨ x ≠ c.address ∧ s.1 x = some member := by
  by_cases hx : x = c.address
  · subst hx
    exact .inl ⟨rfl, by simpa [take] using h⟩
  · exact .inr ⟨hx, by simpa [take, hx] using h⟩

/-- **What a step can do**: nothing, or apply an outcome of the change. -/
theorem step_cases (h : step localAddress s c choice = .ok s') :
    s' = s ∨ ∃ c', outcome localAddress choice (s.1 c.address) c = .ok (some c') ∧
      c'.address = c.address ∧ (c' = c ∨ c'.status = alive) ∧ s' = take s (some c') := by
  rw [step] at h
  cases hout : outcome localAddress choice (s.1 c.address) c with
  | error e =>
    rw [hout] at h
    cases h
  | ok o =>
    rw [hout] at h
    obtain rfl := Except.ok.inj h
    cases o with
    | none => exact .inl rfl
    | some c' =>
      obtain ⟨haddr, hc'⟩ := outcome_cases hout
      exact .inr ⟨c', rfl, haddr, hc', rfl⟩

/-- **One change** leaves its address known, and all that were. -/
theorem isSome_of_step {x : String} (h : step localAddress s c choice = .ok s')
    (hx : (s.1 x).isSome ∨ c.address = x) : (s'.1 x).isSome := by
  cases hc : s.1 c.address with
  | none =>
    rw [step, hc] at h
    obtain rfl := Except.ok.inj h
    by_cases hxc : x = c.address
    · simp [take, hxc]
    · simpa [take, hxc, Ne.symm hxc] using hx
  | some member =>
    have hx : (s.1 x).isSome := by
      rcases hx with hx | rfl
      · exact hx
      · rw [hc]
        rfl
    rcases step_cases h with rfl | ⟨c', -, -, -, rfl⟩
    · exact hx
    · by_cases hxc : x = c'.address
      · simp [take, hxc]
      · simpa [take, hxc] using hx

/-- **A batch** leaves the addresses of its changes known, and all that were. -/
theorem isSome_of_run {choices : ℕ → Choice} {V : View} {changes : List Change} {x : String}
    (hrun : run localAddress choices V changes = .ok s')
    (hx : (V x).isSome ∨ ∃ c ∈ changes, c.address = x) : (s'.1 x).isSome := by
  have hloop (l : List (Change × ℕ)) (s : View × List Change)
      (hrun : l.foldlM (fun s ci => step localAddress s ci.1 (choices ci.2)) s = .ok s')
      (hx : (s.1 x).isSome ∨ ∃ ci ∈ l, ci.1.address = x) : (s'.1 x).isSome := by
    induction l generalizing s with
    | nil =>
      obtain rfl : s = s' := Except.ok.inj hrun
      simpa using hx
    | cons ci l ih =>
      rw [List.foldlM_cons] at hrun
      obtain ⟨s₁, hstep, hrun⟩ := exists_of_bind_eq_ok hrun
      refine ih s₁ hrun ?_
      simp only [List.mem_cons, exists_eq_or_imp, ← or_assoc] at hx
      exact hx.imp_left (isSome_of_step hstep)
  refine hloop _ _ hrun (hx.imp_right ?_)
  rintro ⟨c, hc, hcx⟩
  obtain ⟨i, hi⟩ := List.mem_iff_getElem?.1 hc
  exact ⟨(c, i), List.mem_zipIdx_iff_getElem?.2 hi, hcx⟩

/-- **What every application keeps, a batch keeps.** -/
theorem run_invariant {I : View × List Change → Prop} {choices : ℕ → Choice} {V : View}
    {changes : List Change} (hs : I (V, []))
    (hrun : run localAddress choices V changes = .ok s')
    (hstep : ∀ s c i c', c ∈ changes → I s →
      outcome localAddress (choices i) (s.1 c.address) c = .ok (some c') → I (take s (some c'))) :
    I s' := by
  refine Along.invariant (P := fun _ ci => ci.1 ∈ changes) (fun s ci s₁ hI hci h => ?_) hs
    (along_of_forall_mem (fun _ ci hci => List.fst_mem_of_mem_zipIdx hci) _) hrun
  rcases step_cases h with rfl | ⟨c', hout, -, -, rfl⟩
  · exact hI
  · exact hstep s ci.1 ci.2 c' hci hI hout

/-- **Changes of other addresses** leave an entry as it is. -/
theorem run_of_address_ne {choices : ℕ → Choice} {V : View} {changes : List Change} {x : String}
    (hrun : run localAddress choices V changes = .ok s')
    (hchanges : ∀ c ∈ changes, c.address ≠ x) :
    s'.1 x = V x ∧ ∀ c ∈ s'.2, c.address ≠ x := by
  refine run_invariant (I := fun s => s.1 x = V x ∧ ∀ c ∈ s.2, c.address ≠ x)
    ⟨rfl, fun c hc => by cases hc⟩ hrun fun s c i c' hc hs hout => ?_
  have haddress : c'.address ≠ x := (outcome_cases hout).1.trans_ne (hchanges c hc)
  refine ⟨(Function.update_of_ne haddress.symm _ _).trans hs.1, fun d hd => ?_⟩
  rcases List.mem_append.1 hd with hd | hd
  · exact hs.2 d hd
  · rwa [List.mem_singleton.1 hd]

end step

end View

/-! ### The member list has a view -/

/-- The map finds a member of each address it knows, each in a cell of its own,
and the list holds the same members, each once. -/
structure Memberlist.Sound (m : Memberlist) : Prop where
  cell : ∀ a p, m.byAddress a = some p → ∃ member, m.store.cell p = some member ∧ member.address = a
  lt_next : ∀ a p, m.byAddress a = some p → p < m.store.next
  mem_list : ∀ p, p ∈ m.list ↔ ∃ a, m.byAddress a = some p
  nodup : m.list.Nodup

/-- What the loop of `Update` has done so far, to the view. -/
def UpdateState.view (st : UpdateState) : View × List Change := (st.memberlist.entry, st.applied)

namespace Memberlist

theorem sound_new : new.Sound :=
  ⟨by simp [new], by simp [new], by simp [new], by simp [new]⟩

section apply

variable {m : Memberlist} {c : Change}

/-- The entry of an address is a member of that address. -/
theorem Sound.address_eq (h : m.Sound) {x : String} {member : Member}
    (hx : m.entry x = some member) : member.address = x := by
  obtain ⟨p, hp, hcell⟩ := Option.bind_eq_some_iff.1 hx
  obtain ⟨member', hcell', haddr⟩ := h.cell x p hp
  rw [hcell] at hcell'
  exact Option.some.inj hcell' ▸ haddr

/-- A member has one address. -/
theorem Sound.byAddress_injective (h : m.Sound) {a b : String} {p : ℕ}
    (ha : m.byAddress a = some p) (hb : m.byAddress b = some p) : a = b := by
  obtain ⟨member, hcell, rfl⟩ := h.cell a p ha
  obtain ⟨member', hcell', rfl⟩ := h.cell b p hb
  rw [Option.some.inj (hcell.symm.trans hcell')]

/-- Setting a member sets the entry of its address, and no other. -/
theorem Sound.entry_setMember (h : m.Sound) {p : ℕ} (hp : m.byAddress c.address = some p) :
    (m.setMember p c).entry = Function.update m.entry c.address (some c.member) := by
  obtain ⟨member, hcell, haddr⟩ := h.cell _ p hp
  funext x
  by_cases hx : x = c.address
  · subst hx
    simp [entry, setMember, hp, hcell, Change.member, haddr]
  · rw [Function.update_of_ne hx]
    cases hq : m.byAddress x with
    | none => simp [entry, setMember, hq]
    | some q =>
      have hqp : q ≠ p := by
        rintro rfl
        exact hx (h.byAddress_injective hq hp)
      simp [entry, setMember, hq, hqp]

/-- A new member is the entry of its address, and the other entries are as they
were. -/
theorem Sound.entry_addMember (h : m.Sound) (localAddress : String) (choice : Choice)
    (c : Change) : (m.addMember localAddress choice c).1.entry =
      Function.update m.entry c.address (some c.member) := by
  funext x
  by_cases hx : x = c.address
  · subst hx
    simp [entry, addMember, Change.member]
  · rw [Function.update_of_ne hx]
    cases hq : m.byAddress x with
    | none => simp [entry, addMember, hx, hq]
    | some q =>
      have hqn : q ≠ m.store.next := (h.lt_next x q hq).ne
      simp [entry, addMember, hx, hq, hqn]

/-- A cell keeps the address of its member when a member is overwritten. -/
theorem exists_cell_setMember {a : String} {q : ℕ} (p : ℕ) (c : Change)
    (hq : ∃ member, m.store.cell q = some member ∧ member.address = a) :
    ∃ member, (m.setMember p c).store.cell q = some member ∧ member.address = a := by
  obtain ⟨member, hcell, haddr⟩ := hq
  by_cases hqp : q = p
  · subst hqp
    refine ⟨{ member with status := c.status, incarnation := c.incarnation }, ?_, haddr⟩
    simp [setMember, hcell]
  · exact ⟨member, by simpa [setMember, hqp] using hcell, haddr⟩

theorem Sound.setMember (h : m.Sound) (p : ℕ) (c : Change) : (m.setMember p c).Sound :=
  ⟨fun a q hq => exists_cell_setMember p c (h.cell a q hq), h.lt_next, h.mem_list, h.nodup⟩

/-- A pointer put somewhere into the list. -/
theorem mem_insert_list {l : List ℕ} {p q : ℕ} (i : ℕ) :
    q ∈ l.take i ++ p :: l.drop i ↔ q = p ∨ q ∈ l := by
  have hl : q ∈ l ↔ q ∈ l.take i ∨ q ∈ l.drop i := by
    rw [← List.mem_append, List.take_append_drop]
  rw [List.mem_append, List.mem_cons, hl]
  tauto

theorem Sound.addMember (h : m.Sound) (localAddress : String) (choice : Choice)
    (hp : m.byAddress c.address = none) : (m.addMember localAddress choice c).1.Sound := by
  have hby (a : String) (q : ℕ) : (m.addMember localAddress choice c).1.byAddress a = some q ↔
      a = c.address ∧ q = m.store.next ∨ m.byAddress a = some q := by
    by_cases ha : a = c.address
    · subst ha
      simp [Memberlist.addMember, hp, eq_comm]
    · simp [Memberlist.addMember, ha]
  have hfresh : m.store.next ∉ m.list := by
    rw [h.mem_list]
    rintro ⟨a, ha⟩
    exact (h.lt_next a _ ha).ne rfl
  refine ⟨fun a q hq => ?_, fun a q hq => ?_, fun q => ?_, ?_⟩
  · rcases (hby a q).1 hq with ⟨rfl, rfl⟩ | hq
    · exact ⟨c.member, by simp [Memberlist.addMember, Change.member], rfl⟩
    · simpa [Memberlist.addMember, (h.lt_next a q hq).ne] using h.cell a q hq
  · rcases (hby a q).1 hq with ⟨rfl, rfl⟩ | hq
    · exact Nat.lt_succ_self _
    · exact (h.lt_next a q hq).trans (Nat.lt_succ_self _)
  · simp only [hby]
    refine (mem_insert_list _).trans ?_
    rw [h.mem_list]
    constructor
    · rintro (rfl | ⟨a, ha⟩)
      · exact ⟨c.address, .inl ⟨rfl, rfl⟩⟩
      · exact ⟨a, .inr ha⟩
    · rintro ⟨a, ⟨-, rfl⟩ | ha⟩
      · exact .inl rfl
      · exact .inr ⟨a, ha⟩
  · refine List.nodup_middle.2 (List.nodup_cons.2 ?_)
    rw [List.take_append_drop]
    exact ⟨hfresh, h.nodup⟩

/-- **`Apply`** sets the entry of one address and keeps the member list sound. -/
theorem Sound.apply (h : m.Sound) (localAddress : String) (choice : Choice) (c : Change) :
    (m.apply localAddress choice c).Sound ∧ (m.apply localAddress choice c).entry =
      Function.update m.entry c.address (some c.member) := by
  rw [Memberlist.apply]
  cases hp : m.byAddress c.address with
  | some p => exact ⟨h.setMember p c, h.entry_setMember hp⟩
  | none =>
    have hadd := h.addMember localAddress choice hp
    have hp' : (m.addMember localAddress choice c).1.byAddress c.address =
        some (m.addMember localAddress choice c).2 := by
      simp [Memberlist.addMember]
    refine ⟨hadd.setMember _ c, ?_⟩
    rw [hadd.entry_setMember hp', h.entry_addMember, Function.update_idem]

end apply

/-- **`GetMembers`** returns the entries. -/
theorem Sound.mem_getMembers {m : Memberlist} (h : m.Sound) {member : Member} :
    member ∈ m.getMembers ↔ m.entry member.address = some member := by
  rw [getMembers, List.mem_filterMap]
  constructor
  · rintro ⟨p, hp, hcell⟩
    obtain ⟨a, ha⟩ := (h.mem_list p).1 hp
    obtain ⟨member', hcell', rfl⟩ := h.cell a p ha
    obtain rfl := Option.some.inj (hcell.symm.trans hcell')
    rw [entry, ha, Option.bind_some, hcell]
  · intro hentry
    obtain ⟨p, hp, hcell⟩ := Option.bind_eq_some_iff.1 hentry
    exact ⟨p, (h.mem_list p).2 ⟨_, hp⟩, hcell⟩

/-- **`GetReachableMembers`** returns the addresses of the alive and of the
suspect entries. -/
theorem Sound.mem_getReachableMembers {m : Memberlist} (h : m.Sound) {x : String} :
    x ∈ m.getReachableMembers ↔ View.Reachable m.entry x := by
  rw [View.Reachable, Option.any_eq_true, getReachableMembers, List.mem_map]
  constructor
  · rintro ⟨member, hmem, rfl⟩
    obtain ⟨hmem, hreach⟩ := List.mem_filter.1 hmem
    exact ⟨member, h.mem_getMembers.1 hmem, hreach⟩
  · rintro ⟨member, hentry, hreach⟩
    obtain rfl := h.address_eq hentry
    exact ⟨member, List.mem_filter.2 ⟨h.mem_getMembers.2 hentry, hreach⟩, rfl⟩

/-- The checksum string does not depend on the order of the list. -/
theorem genChecksumString_of_perm {m m' : Memberlist} (h : m.getMembers.Perm m'.getMembers) :
    m.genChecksumString = m'.genChecksumString := by
  have hsorted (l l' : List String) (hl : l.Perm l') :
      l.insertionSort (· ≤ ·) = l'.insertionSort (· ≤ ·) :=
    List.Perm.eq_of_pairwise (fun _ _ _ _ => le_antisymm) (List.pairwise_insertionSort _ l)
      (List.pairwise_insertionSort _ l')
      (((List.perm_insertionSort _ l).trans hl).trans (List.perm_insertionSort _ l').symm)
  have hstrings := hsorted _ _ (h.map fun member =>
    member.address ++ member.status ++ toString member.incarnation)
  exact congrArg (fun strings => String.join (strings.map (· ++ ";"))) hstrings

theorem Sound.nodup_getMembers {m : Memberlist} (h : m.Sound) : m.getMembers.Nodup := by
  refine List.pairwise_filterMap.2 (h.nodup.imp_of_mem fun {p q} hp hq hne => ?_)
  rintro member hcell member' hcell' rfl
  obtain ⟨a, ha⟩ := (h.mem_list p).1 hp
  obtain ⟨b, hb⟩ := (h.mem_list q).1 hq
  have haddr (x : String) (r : ℕ) (hr : m.byAddress x = some r)
      (hc : m.store.cell r = some member) : member.address = x := by
    obtain ⟨member', hcell', haddr⟩ := h.cell x r hr
    exact Option.some.inj (hc.symm.trans hcell') ▸ haddr
  obtain rfl : a = b := (haddr a p ha hcell).symm.trans (haddr b q hb hcell')
  exact hne (Option.some.inj (ha.symm.trans hb))

/-- Two member lists with the same entries have the same checksum string. -/
theorem Sound.genChecksumString_eq {m m' : Memberlist} (h : m.Sound) (h' : m'.Sound)
    (hentry : m.entry = m'.entry) : m.genChecksumString = m'.genChecksumString := by
  refine genChecksumString_of_perm ((List.perm_ext_iff_of_nodup h.nodup_getMembers
    h'.nodup_getMembers).2 fun member => ?_)
  rw [h.mem_getMembers, h'.mem_getMembers, hentry]

/-- A member list is known by its members. -/
theorem Sound.entry_eq {m m' : Memberlist} (h : m.Sound) (h' : m'.Sound)
    (hmem : ∀ member, member ∈ m.getMembers ↔ member ∈ m'.getMembers) : m.entry = m'.entry := by
  have hiff (x : String) (member : Member) :
      m.entry x = some member ↔ m'.entry x = some member := by
    have hboth := hmem member
    rw [h.mem_getMembers, h'.mem_getMembers] at hboth
    constructor
    · intro hx
      obtain rfl := h.address_eq hx
      exact hboth.1 hx
    · intro hx
      obtain rfl := h'.address_eq hx
      exact hboth.2 hx
  funext x
  exact Option.ext fun member => hiff x member

theorem Sound.shuffle {m : Memberlist} (h : m.Sound) (o : Reorder.Arrangement ℕ) :
    (m.shuffle o).Sound := by
  refine ⟨h.cell, h.lt_next, fun p => ?_, ?_⟩
  · exact o.mem_arrange.trans (h.mem_list p)
  · exact (o.perm m.list).nodup_iff.2 h.nodup

/-! ### The loop of `Update` -/

section update

variable {st st' : UpdateState} {c : Change} {localAddress : String} {choice : Choice}

/-- **One change** does to the member list what it does to the view. -/
theorem Sound.updateChange (h : st.memberlist.Sound) :
    (st.updateChange localAddress c choice).map UpdateState.view =
      View.step localAddress st.view c choice := by
  have htake (st₀ : UpdateState) (hst₀ : st₀.memberlist = st.memberlist)
      (happ : st₀.applied = st.applied) (c' : Change) :
      (st₀.take localAddress choice c').view = View.take st.view (some c') := by
    rw [UpdateState.view, UpdateState.take, hst₀, happ, (h.apply localAddress choice c').2]
    rfl
  rw [UpdateState.updateChange, View.step]
  cases hp : st.memberlist.byAddress c.address with
  | none =>
    have hentry : st.view.1 c.address = none := by simp [UpdateState.view, entry, hp]
    rw [hentry]
    exact congrArg Except.ok (htake st rfl rfl c)
  | some p =>
    obtain ⟨member, hcell, -⟩ := h.cell _ p hp
    have hentry : st.view.1 c.address = some member := by
      simp [UpdateState.view, entry, hp, hcell]
    simp only [hcell, hentry, View.outcome]
    cases hloc : member.localOverride localAddress c with
    | true => exact congrArg Except.ok (htake _ rfl rfl _)
    | false =>
      cases hover : member.nonLocalOverride c with
      | error e => rfl
      | ok override =>
        cases override with
        | true => exact congrArg Except.ok (htake st rfl rfl c)
        | false => rfl

/-- **What one change does to the variables of `Update`**: nothing, or it is taken, or it
is refuted. -/
theorem updateChange_cases (h : st.updateChange localAddress c choice = .ok st') :
    st' = st ∨ st' = st.take localAddress choice c ∨
      st' = UpdateState.take localAddress choice
        { st with emitted := st.emitted ++ [.refuteUpdate] }
        { c with incarnation := choice.now, status := alive } := by
  simp only [UpdateState.updateChange] at h
  split at h
  · exact .inr (.inl (Except.ok.inj h).symm)
  · split at h
    · cases h
    · split_ifs at h
      · exact .inr (.inr (Except.ok.inj h).symm)
      · obtain ⟨override, -, h⟩ := exists_of_bind_eq_ok h
        cases override with
        | true => exact .inr (.inl (Except.ok.inj h).symm)
        | false => exact .inl (Except.ok.inj h).symm

/-- In its loop, `Update` emits nothing but refutations. -/
theorem emitted_applyChanges {choices : ℕ → Choice} {m : Memberlist} {changes : List Change}
    (h : m.applyChanges localAddress choices changes = .ok st) :
    ∀ event ∈ st.emitted, event = .refuteUpdate := by
  refine foldlM_invariant (I := fun st => ∀ event ∈ st.emitted, event = .refuteUpdate)
    (fun st ci st' hst hst' => ?_) (by simp) h
  obtain rfl | rfl | rfl := updateChange_cases hst'
  · exact hst
  · exact hst
  · simpa [UpdateState.take, or_imp, forall_and] using hst

/-- **What `Apply` keeps, one change keeps.** -/
theorem updateChange_invariant {I : Memberlist → Prop}
    (happly : ∀ m c, I m → I (m.apply localAddress choice c)) (hst : I st.memberlist)
    (h : st.updateChange localAddress c choice = .ok st') : I st'.memberlist := by
  obtain rfl | rfl | rfl := updateChange_cases h
  · exact hst
  · exact happly _ _ hst
  · exact happly _ _ hst

/-- **What `Apply` keeps, the loop of `Update` keeps.** -/
theorem applyChanges_invariant {I : Memberlist → Prop} {m : Memberlist} {choices : ℕ → Choice}
    {changes : List Change} (happly : ∀ m choice c, I m → I (m.apply localAddress choice c))
    (hm : I m) (h : m.applyChanges localAddress choices changes = .ok st) : I st.memberlist :=
  foldlM_invariant (I := fun st => I st.memberlist)
    (fun _ ci _ hst => updateChange_invariant (fun m c => happly m (choices ci.2) c) hst) hm h

/-- **What `Apply` and `ComputeChecksum` keep, `Update` keeps.** -/
theorem update_invariant {I : Memberlist → Prop} {m : Memberlist} {fp : String → UInt32}
    {stopped : Bool} {choices : ℕ → Choice} {changes : List Change}
    (happly : ∀ m choice c, I m → I (m.apply localAddress choice c))
    (hchecksum : ∀ m, I m → I (m.computeChecksum fp)) (hm : I m)
    (h : m.update fp localAddress stopped choices changes = .ok st) : I st.memberlist := by
  rw [Memberlist.update] at h
  split_ifs at h
  · obtain rfl := Except.ok.inj h
    exact hm
  · obtain ⟨st₁, hst₁, h⟩ := exists_of_bind_eq_ok h
    have hI := applyChanges_invariant happly hm hst₁
    split_ifs at h
    · obtain rfl := Except.ok.inj h
      exact hchecksum _ hI
    · obtain rfl := Except.ok.inj h
      exact hI

/-- **One change** keeps the member list sound. -/
theorem Sound.of_updateChange (h : st.memberlist.Sound)
    (hst' : st.updateChange localAddress c choice = .ok st') : st'.memberlist.Sound :=
  updateChange_invariant (fun _ c hm => (hm.apply localAddress choice c).1) h hst'

/-- **The loop of `Update`** does to the member list what it does to the view, and
keeps it sound. -/
theorem Sound.applyChanges {m : Memberlist} (h : m.Sound) (localAddress : String)
    (choices : ℕ → Choice) (changes : List Change) :
    (m.applyChanges localAddress choices changes).map UpdateState.view =
        View.run localAddress choices m.entry changes ∧
      ∀ st, m.applyChanges localAddress choices changes = .ok st → st.memberlist.Sound := by
  refine ⟨foldlM_map (I := fun st => st.memberlist.Sound) (F := UpdateState.view)
    (fun st ci hst => hst.updateChange) (fun st ci st' hst => hst.of_updateChange) h, ?_⟩
  intro st hst
  exact foldlM_invariant (I := fun st => st.memberlist.Sound)
    (fun st ci st' hst => hst.of_updateChange) h hst

/-- A new checksum changes no entry. -/
theorem Sound.computeChecksum {m : Memberlist} (h : m.Sound) (fp : String → UInt32) :
    (m.computeChecksum fp).Sound :=
  ⟨h.cell, h.lt_next, h.mem_list, h.nodup⟩

/-- A loop that applies nothing leaves the member list as it is. -/
theorem eq_of_applyChanges {m : Memberlist} {choices : ℕ → Choice} {changes : List Change}
    (h : m.applyChanges localAddress choices changes = .ok st) (hst : st.applied = []) :
    st.memberlist = m := by
  refine foldlM_invariant (I := fun st : UpdateState => st.applied = [] → st.memberlist = m)
    (fun st ci st' hst h => ?_) (fun _ => rfl) h hst
  obtain rfl | rfl | rfl := updateChange_cases h
  · exact hst
  · intro hnil
    simp [UpdateState.take] at hnil
  · intro hnil
    simp [UpdateState.take] at hnil

/-- **`Update`** on a node that is not stopped: its loop, and a new checksum if the loop
applied anything. -/
theorem exists_of_update {m : Memberlist} {fp : String → UInt32} {choices : ℕ → Choice}
    {changes : List Change} (h : m.update fp localAddress false choices changes = .ok st') :
    ∃ st, m.applyChanges localAddress choices changes = .ok st ∧ st'.applied = st.applied ∧
      st'.memberlist =
        if st.applied = [] then st.memberlist else st.memberlist.computeChecksum fp := by
  rw [Memberlist.update] at h
  split_ifs at h with hidle
  · obtain rfl : changes = [] := by simpa using hidle
    obtain rfl := Except.ok.inj h
    exact ⟨_, rfl, rfl, rfl⟩
  · obtain ⟨st, hst, h⟩ := exists_of_bind_eq_ok h
    refine ⟨st, hst, ?_⟩
    dsimp only at h
    split_ifs at h with happlied
    · obtain rfl := Except.ok.inj h
      exact ⟨rfl, by rw [if_neg (List.length_pos_iff.1 happlied)]⟩
    · obtain rfl := Except.ok.inj h
      exact ⟨rfl, by rw [if_pos (by simpa using happlied)]⟩

/-- **`Update`** does to the member list what its loop does to the view, and keeps
it sound; on a node that is stopped it does nothing. -/
theorem Sound.update {m : Memberlist} (h : m.Sound) (fp : String → UInt32) (localAddress : String)
    (stopped : Bool) (choices : ℕ → Choice) (changes : List Change) :
    (m.update fp localAddress stopped choices changes).map UpdateState.view =
        View.run localAddress choices m.entry (if stopped then [] else changes) ∧
      ∀ st, m.update fp localAddress stopped choices changes = .ok st → st.memberlist.Sound := by
  rw [Memberlist.update]
  by_cases hidle : stopped || changes.isEmpty
  · have hnil : (if stopped then [] else changes) = [] := by
      cases stopped with
      | true => rfl
      | false => simpa using hidle
    rw [if_pos hidle, hnil]
    refine ⟨rfl, fun st hst => ?_⟩
    obtain rfl := Except.ok.inj hst
    exact h
  · have hstopped : (if stopped then [] else changes) = changes := by
      cases stopped with
      | true => simp at hidle
      | false => rfl
    obtain ⟨hview, hsound⟩ := h.applyChanges localAddress choices changes
    rw [if_neg hidle, hstopped, ← hview]
    cases hrun : m.applyChanges localAddress choices changes with
    | error e => exact ⟨rfl, fun st hst => by cases hst⟩
    | ok st =>
      have hst := hsound st hrun
      simp only [Bind.bind, Except.bind]
      split_ifs
      · refine ⟨rfl, fun st' hst' => ?_⟩
        obtain rfl := Except.ok.inj hst'
        exact hst.computeChecksum fp
      · refine ⟨rfl, fun st' hst' => ?_⟩
        obtain rfl := Except.ok.inj hst'
        exact hst

end update

end Memberlist

end Swim
end Ringpop
