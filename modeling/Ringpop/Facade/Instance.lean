/-
# The ring follows the member list

`ringpop.go`.  A `Ringpop` listens to its own node: when `Update` has applied
changes, `handleChanges` adds the addresses that became alive to the hash ring and
removes those that became faulty or left.  All additions of an event come before
all removals.  A suspect keeps the place it has: on the ring, or off it.

`ringAfter` is what an event does to the servers of the ring, and
`handleChanges_spec` says that the code does it.  What the ring then reports names every address
of the event, wherever it was before (`handleChanges_reports`).  The statistics that `HandleEvent`
keeps and the listeners to which it passes the event on are left out.

`Update` ends with `handleChanges` of the node, which leaves the member list and the ring alone
but panics if the node does not know itself; of that function only what it asks of the member
list is here.  From the first call that tells the node of itself on, `Update` panics only on
statuses that are not valid (`Instance.Live.update`).
-/

import Ringpop.Hashring.RingReports
import Ringpop.Swim.NodeEffect

namespace Ringpop
namespace Facade

open CellStore Runs Hashring Swim

/-- The statuses with which `handleChanges` takes a server out. -/
def isDown (status : String) : Bool := status = faulty || status = leave

/-- The loop of `handleChanges`: `serversToAdd` and `serversToRemove`. -/
def serversToChange (changes : List Change) : List String × List String :=
  changes.foldl (fun (serversToAdd, serversToRemove) change =>
    if change.status = alive then (serversToAdd ++ [change.address], serversToRemove)
    else if isDown change.status then (serversToAdd, serversToRemove ++ [change.address])
    else (serversToAdd, serversToRemove)) ([], [])

/-- `handleChanges`. -/
def handleChanges (pf : Platform) (o : MapOrder) (ring : HashRing) (changes : List Change) :
    Except Fault HashRing := do
  let (serversToAdd, serversToRemove) := serversToChange changes
  let (_, ring) ← ring.addRemoveServers pf o serversToAdd serversToRemove
  return ring

/-- `HandleEvent`, for the events of the member list. -/
def handleEvent (pf : Platform) (o : MapOrder) (ring : HashRing) :
    MemberlistEvent → Except Fault HashRing
  | .changesApplied changes _ _ _ => handleChanges pf o ring changes
  | _ => return ring

/-- The parts of a `Ringpop` that a change goes through. -/
structure Instance where
  memberlist : Memberlist
  ring : HashRing

/-- One call of `Update`: the changes, whether the node is stopped, and the order in
which the ring enumerates its servers. -/
structure UpdateCall extends Batch where
  stopped : Bool
  order : MapOrder

namespace Instance

/-- The member list and the ring that a `Ringpop` starts with. -/
def new (intSize : ℕ) (hashfunc : String → UInt32) (replicaPoints : ℤ) : Instance :=
  ⟨.new, .new intSize hashfunc replicaPoints⟩

/-- `Update` on the member list, with its events handled as they are emitted, and what the node
asks of the member list at the end. -/
def update (pf : Platform) (localAddress : String) (rp : Instance) (call : UpdateCall) :
    Except Fault Instance := do
  let st ← rp.memberlist.update pf.fingerprint32 localAddress call.stopped call.choices call.changes
  let ring ← st.emitted.foldlM (handleEvent pf call.order) rp.ring
  st.memberlist.countForChanges st.applied
  return ⟨st.memberlist, ring⟩

end Instance

/-! ### What an event does to the servers -/

/-- The servers after an event: those that became alive are added, then those that
went down are removed. -/
def ringAfter (servers : Finset String) (changes : List Change) : Finset String :=
  (servers ∪ (serversToChange changes).1.toFinset) \ (serversToChange changes).2.toFinset

theorem serversToChange_eq (changes : List Change) :
    serversToChange changes =
      ((changes.filter (·.status = alive)).map Change.address,
        (changes.filter (isDown ·.status)).map Change.address) := by
  have hloop (l : List Change) (acc : List String × List String) :
      l.foldl (fun (serversToAdd, serversToRemove) change =>
        if change.status = alive then (serversToAdd ++ [change.address], serversToRemove)
        else if isDown change.status then (serversToAdd, serversToRemove ++ [change.address])
        else (serversToAdd, serversToRemove)) acc =
      (acc.1 ++ (l.filter (·.status = alive)).map Change.address,
        acc.2 ++ (l.filter (isDown ·.status)).map Change.address) := by
    induction l generalizing acc with
    | nil => simp
    | cons c l ih =>
      rw [List.foldl_cons, ih]
      by_cases halive : c.status = alive
      · have hdown : isDown alive = false := by decide
        simp [halive, hdown]
      · by_cases hdown : isDown c.status
        · simp [halive, hdown]
        · simp [halive, hdown]
  rw [serversToChange, hloop]
  rfl

/-- A server is on the ring after an event if it was or became alive, and did not
go down. -/
theorem mem_ringAfter {servers : Finset String} {changes : List Change} {x : String} :
    x ∈ ringAfter servers changes ↔
      (x ∈ servers ∨ ∃ c ∈ changes, c.status = alive ∧ c.address = x) ∧
        ∀ c ∈ changes, c.address = x → isDown c.status = false := by
  rw [ringAfter, serversToChange_eq]
  simp only [Finset.mem_sdiff, Finset.mem_union, List.mem_toFinset, List.mem_map, List.mem_filter,
    decide_eq_true_eq, not_exists, not_and, and_assoc]
  refine and_congr Iff.rfl ⟨fun h c hc hx => ?_, fun h c hc hdown hx => ?_⟩
  · rw [← Bool.not_eq_true]
    exact fun hdown => h c hc hdown hx
  · rw [h c hc hx] at hdown
    cases hdown

@[simp] theorem ringAfter_nil (servers : Finset String) : ringAfter servers [] = servers := by
  ext x
  simp [mem_ringAfter]

section

variable {servers : Finset String} {changes : List Change} {c : Change} {x : String}

/-- A change of one address does not move another. -/
theorem mem_ringAfter_append_of_ne (h : c.address ≠ x) :
    x ∈ ringAfter servers (changes ++ [c]) ↔ x ∈ ringAfter servers changes := by
  simp [mem_ringAfter, or_imp, forall_and, h]

/-- A change that `handleChanges` passes over moves nothing. -/
theorem mem_ringAfter_append_of_pass (halive : c.status ≠ alive) (hdown : isDown c.status = false) :
    x ∈ ringAfter servers (changes ++ [c]) ↔ x ∈ ringAfter servers changes := by
  simp [mem_ringAfter, halive, hdown, or_imp, forall_and]

/-- An address that goes down is not on the ring after the event. -/
theorem notMem_ringAfter_of_isDown (h : isDown c.status = true) :
    c.address ∉ ringAfter servers (changes ++ [c]) := by
  rw [mem_ringAfter]
  rintro ⟨-, hup⟩
  rw [hup c (by simp) rfl] at h
  cases h

/-- An address that becomes alive is on the ring after the event, unless it went
down before. -/
theorem mem_ringAfter_append_of_alive (h : c.status = alive) :
    c.address ∈ ringAfter servers (changes ++ [c]) ↔
      ∀ d ∈ changes, d.address = c.address → isDown d.status = false := by
  rw [mem_ringAfter]
  constructor
  · rintro ⟨-, hup⟩ d hd
    exact hup d (List.mem_append_left _ hd)
  · intro hup
    refine ⟨.inr ⟨c, by simp, h, rfl⟩, fun d hd hdc => ?_⟩
    rcases List.mem_append.1 hd with hd | hd
    · exact hup d hd hdc
    · rw [List.mem_singleton.1 hd, h]
      decide

end

section

variable {pf : Platform} {hashfunc : String → ℤ} {R : ℤ} {ring : HashRing} {A : Ownership}

/-- **`handleChanges`** does to the servers of the ring what the event says. -/
theorem handleChanges_spec (h : Owns pf hashfunc R Set.univ ring A) (o : MapOrder)
    (changes : List Change) :
    ∃ ring' A', handleChanges pf o ring changes = .ok ring' ∧
      Owns pf hashfunc R Set.univ ring' A' ∧
      ring'.serverSet = ringAfter ring.serverSet changes := by
  obtain ⟨b, ring', hcall, h'⟩ := h.addRemoveServers o (serversToChange changes).1
    (fun s _ => Set.mem_univ s) (serversToChange changes).2
  refine ⟨ring', _, by simp only [handleChanges, hcall]; rfl, h', ?_⟩
  rw [h'.servers, Ownership.foldl_remove_servers, Ownership.foldl_add_servers, ← h.servers,
    ringAfter]

end

/-- **What the ring reports of an event** is exact if the addresses that became alive were off
the ring and those that went down were on it, or if it was the other way round for all of
them. -/
theorem handleChanges_reports {pf : Platform} {o : MapOrder} {ring ring' : HashRing}
    {changes : List Change} (h : handleChanges pf o ring changes = .ok ring') :
    ∃ b, ring.addRemoveServers pf o (serversToChange changes).1 (serversToChange changes).2 =
        .ok (b, ring') ∧
      (ReportsExactly ring b ring' ↔
        (∀ c ∈ changes, (c.status = alive → c.address ∈ ring.serverSet) ∧
          (isDown c.status = true → c.address ∉ ring.serverSet)) ∨
        ∀ c ∈ changes, (c.status = alive → c.address ∉ ring.serverSet) ∧
          (isDown c.status = true → c.address ∈ ring.serverSet)) := by
  obtain ⟨⟨b, ring₁⟩, hcall, hring⟩ := exists_of_bind_eq_ok h
  obtain rfl := Except.ok.inj hring
  refine ⟨b, hcall, ?_⟩
  change ring.addRemoveServers pf o (serversToChange changes).1 (serversToChange changes).2 =
    .ok (b, ring₁) at hcall
  rw [(HashRing.addRemoveServers_ok hcall).reportsExactly_iff_forall, serversToChange_eq]
  simp only [List.forall_mem_map, List.mem_filter, decide_eq_true_eq, and_imp, forall_and]

/-! ### The events of one `Update` -/

/-- Without an event of applied changes, the ring stays as it is. -/
theorem foldlM_handleEvent_refute {events : List MemberlistEvent}
    (h : ∀ event ∈ events, event = .refuteUpdate) (pf : Platform) (o : MapOrder)
    (ring : HashRing) :
    events.foldlM (handleEvent pf o) ring = .ok ring := by
  induction events with
  | nil => rfl
  | cons event events ih =>
    have hstep : handleEvent pf o ring event = .ok ring := by
      rw [h event (.head _)]
      rfl
    rw [foldlM_cons_ok hstep]
    exact ih fun e he => h e (.tail _ he)

/-- **Handling the events of `Update`** is handling what it applied. -/
theorem foldlM_handleEvent_update {pf : Platform} {o : MapOrder} {localAddress : String}
    {stopped : Bool} {choices : ℕ → Choice} {m : Memberlist} {changes : List Change}
    {st : UpdateState} (ring : HashRing)
    (h : m.update pf.fingerprint32 localAddress stopped choices changes = .ok st) :
    st.emitted.foldlM (handleEvent pf o) ring = handleChanges pf o ring st.applied := by
  rw [Memberlist.update] at h
  split_ifs at h
  · obtain rfl := Except.ok.inj h
    rfl
  · obtain ⟨st₁, hst₁, h⟩ := exists_of_bind_eq_ok h
    have hreceived : handleEvent pf o ring (.changesReceived changes) = .ok ring := rfl
    have hquiet := foldlM_handleEvent_refute (Memberlist.emitted_applyChanges hst₁) pf o ring
    split_ifs at h with happ
    · obtain rfl := Except.ok.inj h
      rw [List.foldlM_append, List.cons_append, foldlM_cons_ok hreceived, List.nil_append, hquiet]
      -- the checksum leaves the ring alone, the event of the applied changes does not
      exact bind_pure (handleChanges pf o ring st₁.applied)
    · obtain rfl := Except.ok.inj h
      have hnil : st₁.applied = [] := List.eq_nil_of_length_eq_zero (by omega)
      rw [List.cons_append, foldlM_cons_ok hreceived, List.nil_append, hquiet, hnil]
      rfl

/-- **`Update` with its events**: the member list is updated, and what was applied
is handled. -/
theorem Instance.update_eq (pf : Platform) (localAddress : String) (rp : Instance)
    (call : UpdateCall) :
    rp.update pf localAddress call = (do
      let st ← rp.memberlist.update pf.fingerprint32 localAddress call.stopped call.choices
        call.changes
      let ring ← handleChanges pf call.order rp.ring st.applied
      st.memberlist.countForChanges st.applied
      return ⟨st.memberlist, ring⟩) := by
  rw [Instance.update]
  cases hst : rp.memberlist.update pf.fingerprint32 localAddress call.stopped call.choices
    call.changes with
  | error e => rfl
  | ok st =>
    simp only [Bind.bind, Except.bind, foldlM_handleEvent_update rp.ring hst]

/-- The member list and the ring of an instance are as their calls leave them. -/
structure Instance.Built (pf : Platform) (hashfunc : String → ℤ) (R : ℤ) (rp : Instance) :
    Prop where
  memberlist : rp.memberlist.Sound
  ring : ∃ A, Owns pf hashfunc R Set.univ rp.ring A

/-- Moreover the node knows itself, and the statuses are valid. -/
structure Instance.Live (pf : Platform) (hashfunc : String → ℤ) (R : ℤ) (localAddress : String)
    (rp : Instance) : Prop extends rp.Built pf hashfunc R where
  localMember : rp.memberlist.Local localAddress
  hasLocal : rp.memberlist.localMember.isSome
  valid : View.Valid rp.memberlist.entry

section update

variable {pf : Platform} {hashfunc : String → ℤ} {R : ℤ} {localAddress : String} {rp rp' : Instance}
  {call : UpdateCall}

/-- A new instance knows no member, and its ring is empty. -/
theorem Instance.built_new {w : ℕ} (hw : ∀ h, Fits w (intOfUInt32 w h)) (fp hash : String → UInt32)
    (R : ℤ) : Built ⟨w, fp⟩ (fun s => intOfUInt32 w (hash s)) R (.new w hash R) :=
  ⟨Memberlist.sound_new, _, owns_new_of_fits fp R fun s => hw (hash s)⟩

/-- **`Update`** does to the view what its loop does, and to the servers of the ring
what the applied changes say. -/
theorem Instance.Built.update (h : rp.Built pf hashfunc R)
    (hcall : rp.update pf localAddress call = .ok rp') :
    rp'.Built pf hashfunc R ∧ ∃ applied,
      View.run localAddress call.choices rp.memberlist.entry
          (if call.stopped then [] else call.changes) = .ok (rp'.memberlist.entry, applied) ∧
        rp'.ring.serverSet = ringAfter rp.ring.serverSet applied := by
  obtain ⟨hview, hsound⟩ := h.memberlist.update pf.fingerprint32 localAddress call.stopped
    call.choices call.changes
  obtain ⟨A, hA⟩ := h.ring
  rw [update_eq] at hcall
  obtain ⟨st, hst, hcall⟩ := exists_of_bind_eq_ok hcall
  obtain ⟨ring, hring, hcall⟩ := exists_of_bind_eq_ok hcall
  obtain ⟨-, -, hcall⟩ := exists_of_bind_eq_ok hcall
  obtain rfl := Except.ok.inj hcall
  rw [hst] at hview
  obtain ⟨ring', A', hring', hA', hservers⟩ := handleChanges_spec hA call.order st.applied
  obtain rfl : ring' = ring := Except.ok.inj (hring'.symm.trans hring)
  exact ⟨⟨hsound st hst, A', hA'⟩, st.applied, hview.symm, hservers⟩

/-- **`Update`** with valid statuses does not panic, if the node knows itself or is told of
itself by the call. -/
theorem Instance.Built.exists_update (h : rp.Built pf hashfunc R)
    (hlocal : rp.memberlist.Local localAddress) (hvalid : View.Valid rp.memberlist.entry)
    (hcall : ∀ c ∈ call.changes, ValidStatus c.status)
    (hself : rp.memberlist.localMember.isSome ∨
      call.stopped = false ∧ ∃ c ∈ call.changes, c.address = localAddress) :
    ∃ rp', rp.update pf localAddress call = .ok rp' ∧ rp'.Live pf hashfunc R localAddress := by
  have htaken : ∀ c ∈ if call.stopped then [] else call.changes, ValidStatus c.status := by
    split_ifs
    · simp
    · exact hcall
  obtain ⟨s', hrun, hs', -⟩ :=
    View.rank_run (h.memberlist.view hvalid) localAddress call.choices htaken
  obtain ⟨hview, hsound⟩ := h.memberlist.update pf.fingerprint32 localAddress call.stopped
    call.choices call.changes
  obtain ⟨st, hst, rfl⟩ := exists_of_map_eq_ok (hview.trans hrun)
  obtain ⟨A, hA⟩ := h.ring
  obtain ⟨ring, A', hring, hA', -⟩ := handleChanges_spec hA call.order st.applied
  have hlocal' := hlocal.update hst
  have hhas : st.memberlist.localMember.isSome := by
    rcases hself with hhas | ⟨hstopped, hown⟩
    · exact Memberlist.update_localMember_isSome hhas hst
    · rw [hstopped] at hrun
      exact hlocal'.hasLocal (View.isSome_of_run hrun (.inr hown))
  refine ⟨⟨st.memberlist, ring⟩, ?_, ⟨hsound st hst, A', hA'⟩, hlocal', hhas, hs'.valid⟩
  rw [update_eq, hst]
  simp only [Bind.bind, Except.bind, hring, hlocal'.countForChanges hhas]
  rfl

/-- **`Update`** on an instance whose node knows itself. -/
theorem Instance.Live.update (h : rp.Live pf hashfunc R localAddress)
    (hcall : ∀ c ∈ call.changes, ValidStatus c.status) :
    ∃ rp', rp.update pf localAddress call = .ok rp' ∧ rp'.Live pf hashfunc R localAddress :=
  h.toBuilt.exists_update h.localMember h.valid hcall (.inl h.hasLocal)

end update

end Facade
end Ringpop
