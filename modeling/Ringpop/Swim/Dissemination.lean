/-
# What is disseminated, and how often

Three things that decide what a node passes on.  `IssueAsReceiver` answers with what is
pending, without what came from the sender itself, and counts only what it sends
(`receiver_issues_the_rest`).  `AddJoinList` merges a whole member list and then takes the
changes that this has recorded back, but for the one of the node itself
(`join_list_is_not_gossiped`).

A change is sent `maxP` times, a number that `handleChanges` computes from the number of
pingable members.  It does for a change that makes a member alive, suspect or leave, and not
for one that makes it faulty, though a suspect that becomes faulty is one pingable member
less; so the number is that of the member list only if some change of the batch was not
faulty, or nothing depends on it (`max_p_tracks_pingable_iff`).
-/

import Ringpop.Swim.InvalidState
import Mathlib.Data.Nat.Log

namespace Ringpop
namespace Swim

open CellStore Runs Reorder

/-! ### Answering a ping -/

theorem Change.isFrom_iff {source : String} {incarnation : ℤ} {c : Change} :
    Change.isFrom source incarnation c = true ↔
      (c.source, c.sourceIncarnation) = (source, incarnation) := by
  rw [isFrom, Bool.and_eq_true, decide_eq_true_eq, decide_eq_true_eq, Prod.mk.injEq, and_comm,
    eq_comm (a := source), eq_comm (a := incarnation)]

namespace Node

variable {n n' : Node} {o : Arrangement Change} {source : String} {incarnation : ℤ}
  {checksum : UInt32} {kept changes : List Change} {full : Bool}

/-- **The counters after `IssueAsReceiver`**: those of the sender's own changes stay, the others
go up or their changes are done. -/
theorem Issues.entry_eq (h : n.Issues o source incarnation checksum kept changes full n')
    (x : String) :
    n'.disseminator.entry x = (n.disseminator.entry x).bind fun pc =>
      if Change.isFrom source incarnation pc.toChange then some pc
      else Disseminator.raise n.disseminator.maxP pc := by
  have hnodup : (kept.map Change.address).Nodup := by
    refine (h.perm.map Change.address).nodup_iff.2 ?_
    exact (n.disseminator.nodup_issueChanges o).sublist (List.filter_sublist.map _)
  rw [h.disseminator, Disseminator.entry_bumpPiggybackCounters hnodup]
  cases hx : n.disseminator.entry x with
  | none => split_ifs <;> rfl
  | some pc =>
    have haddr : pc.address = x := Disseminator.address_of_entry hx
    -- the only change of this address that may be kept is the pending one
    have hmem : x ∈ kept.map Change.address ↔
        Change.isFrom source incarnation pc.toChange = false := by
      rw [List.mem_map]
      constructor
      · rintro ⟨c, hc, rfl⟩
        obtain ⟨⟨pc', hpc', rfl⟩, hfrom⟩ := h.mem_kept.1 hc
        obtain rfl := Option.some.inj (hx.symm.trans hpc')
        exact hfrom
      · intro hfrom
        exact ⟨pc.toChange, h.mem_kept.2 ⟨⟨pc, by rw [haddr]; exact hx, rfl⟩, hfrom⟩, haddr⟩
    simp only [hmem, Option.bind_some]
    cases hfrom : Change.isFrom source incarnation pc.toChange with
    | true => simp
    | false => simp

end Node

/-- **A receiver issues what did not come from the sender.**  The loop that filters the pending
changes ends and stays inside its array, which it only rearranges; it returns the changes whose
source and source incarnation are not those of the sender.  Their counters go up by one, or
they are done; the other entries stay.  They are what is returned, or in their place the whole
member list, exactly if there are none and the checksums differ. -/
theorem receiver_issues_the_rest (n : Node) (o : Arrangement Change) (sender : String)
    (incarnation : ℤ) (checksum : UInt32) :
    (∃ v, filterSwap (Change.isFrom sender incarnation) (n.disseminator.issueChanges o) = .ok v ∧
      filterChangesFromSender (n.disseminator.issueChanges o) sender incarnation =
        .ok (v.slice, v.dropped) ∧
      v.array.Perm (n.disseminator.issueChanges o) ∧
      v.slice.Perm ((n.disseminator.issueChanges o).filter fun c =>
        (c.source, c.sourceIncarnation) ≠ (sender, incarnation))) ∧
    ∃ changes full n', n.issueAsReceiver o sender incarnation checksum =
        .ok ((changes, full), n') ∧
      (∀ x, n'.disseminator.entry x = (n.disseminator.entry x).bind fun pc =>
        if (pc.source, pc.sourceIncarnation) = (sender, incarnation) then some pc
        else if pc.p + 1 ≥ n.disseminator.maxP then none
        else some { pc with p := pc.p + 1 }) ∧
      (full = true ↔ (∀ x pc, n.disseminator.entry x = some pc →
          (pc.source, pc.sourceIncarnation) = (sender, incarnation)) ∧
        n.memberlist.checksum ≠ checksum) ∧
      (full = false → changes.Perm ((n.disseminator.issueChanges o).filter fun c =>
        (c.source, c.sourceIncarnation) ≠ (sender, incarnation))) ∧
      (full = true → changes.map Change.member = n.memberlist.getMembers) := by
  have hfilter (l : List Change) : l.filter (! Change.isFrom sender incarnation ·) =
      l.filter fun c => (c.source, c.sourceIncarnation) ≠ (sender, incarnation) := by
    refine List.filter_congr fun c _ => ?_
    rw [Bool.eq_iff_iff, Bool.not_eq_true', decide_eq_true_eq, ne_eq, ← Change.isFrom_iff,
      Bool.not_eq_true]
  refine ⟨?_, ?_⟩
  · obtain ⟨v, hrun, harray, hslice, -⟩ := filterSwap_spec (Change.isFrom sender incarnation)
      (n.disseminator.issueChanges o)
    refine ⟨v, hrun, by rw [filterChangesFromSender, hrun]; rfl, harray, ?_⟩
    rw [← hfilter]
    exact hslice
  · obtain ⟨kept, changes, full, n', hissue, hi⟩ :=
      n.issueAsReceiver_spec o sender incarnation checksum
    have hperm := hi.perm
    rw [hfilter] at hperm
    refine ⟨changes, full, n', hissue, fun x => ?_, ?_, ?_, ?_⟩
    · rw [hi.entry_eq]
      simp only [Change.isFrom_iff]
      rfl
    · have hnil := hi.kept_eq_nil_iff
      simp only [Change.isFrom_iff] at hnil
      rw [← hnil]
      rcases hi.changes with ⟨rfl, -, hsome⟩ | ⟨rfl, -, hnone⟩
      · exact iff_of_false (by simp) fun h => hsome.elim (absurd h.1) h.2
      · exact iff_of_true rfl hnone
    · rintro rfl
      rcases hi.changes with ⟨-, rfl, -⟩ | ⟨hfull, -⟩
      · exact hperm
      · cases hfull
    · rintro rfl
      rcases hi.changes with ⟨hfull, -⟩ | ⟨-, rfl, -⟩
      · cases hfull
      · rw [Node.fullSync, List.map_map]
        exact List.map_id _

/-! ### Join lists -/

/-- **A join list is not gossiped.**  `AddJoinList` leaves the member list that `Update` leaves.
Of the addresses other than the node's own, those for which a change was applied have nothing
pending, and the others have what they had.  For the own address the last change that was
applied is pending and was never sent, or what was pending before.  With valid statuses it
returns. -/
theorem join_list_is_not_gossiped (pr : Primitives) (n : Node) (list : Batch) :
    (∀ n', n.addJoinList pr list = .ok n' → ∃ applied n₁, n.update pr list = .ok (applied, n₁) ∧
      n'.memberlist = n₁.memberlist ∧
      (∀ x ≠ n.address, (∃ c ∈ applied, c.address = x) → n'.disseminator.entry x = none) ∧
      (∀ x ≠ n.address, (¬ ∃ c ∈ applied, c.address = x) →
        n'.disseminator.entry x = n.disseminator.entry x) ∧
      n'.disseminator.entry n.address = n₁.disseminator.entry n.address ∧
      n₁.disseminator.entry n.address =
        ((applied.filter (·.address = n.address)).getLast?).elim
          (n.disseminator.entry n.address) fun c => some ⟨c, 0⟩) ∧
    (n.Live → (∀ c ∈ list.changes, ValidStatus c.status) →
      ∃ n', n.addJoinList pr list = .ok n') := by
  refine ⟨fun n' h => ?_, fun hn hlist => ?_⟩
  · obtain ⟨⟨applied, n₁⟩, hup, h⟩ := exists_of_bind_eq_ok h
    obtain rfl := Except.ok.inj h
    obtain ⟨st, -, -, hn₁⟩ := Node.exists_handled_of_update hup
    have hh := Node.handled_handleChanges hn₁
    have haddress : n₁.address = n.address := hh.address
    have hrecorded : n₁.disseminator.entry =
      Disseminator.recorded n.disseminator.entry applied := hh.entry
    refine ⟨applied, n₁, hup, rfl, fun x hx happlied => ?_, fun x hx hnone => ?_, ?_, ?_⟩
    · rw [Disseminator.entry_foldl_clearChange, haddress, if_pos ⟨hx, happlied⟩]
    · have hfilter : applied.filter (·.address = x) = [] :=
        List.filter_eq_nil_iff.2 fun c hc hcx => hnone ⟨c, hc, of_decide_eq_true hcx⟩
      rw [Disseminator.entry_foldl_clearChange, if_neg (fun h => hnone h.2), hrecorded,
        Disseminator.recorded_eq, hfilter]
      rfl
    · rw [Disseminator.entry_foldl_clearChange, haddress, if_neg (fun h => h.1 rfl)]
    · rw [hrecorded, Disseminator.recorded_eq]
  · obtain ⟨applied, n₁, hup, -⟩ := hn.update pr hlist
    exact ⟨_, by rw [Node.addJoinList, hup]; rfl⟩

/-- A join list with two changes of `x` and an accusation of `a`. -/
def accusingList : Batch :=
  ⟨[⟨"s", 1, "x", 1, alive⟩, ⟨"s", 1, "a", 7, faulty⟩, ⟨"s", 1, "x", 1, suspect⟩], fun _ => ⟨9, 0⟩⟩

/-- Of a join list that accuses it, the node gossips its refutation. -/
theorem join_list_is_not_gossiped_accused :
    ∃ r n', (Node.new "app" "a").reincarnate ⟨fun _ => 0, fun _ => 1⟩ 5 5 (fun _ => ⟨5, 0⟩) =
        .ok r ∧
      r.2.addJoinList ⟨fun _ => 0, fun _ => 1⟩ accusingList = .ok n' ∧
      n'.disseminator.entry "x" = none ∧
      n'.disseminator.entry "a" = some ⟨⟨"s", 1, "a", 9, alive⟩, 0⟩ := by
  have heval : (do
      let r ← (Node.new "app" "a").reincarnate ⟨fun _ => 0, fun _ => 1⟩ 5 5 fun _ => ⟨5, 0⟩
      let u ← r.2.update ⟨fun _ => 0, fun _ => 1⟩ accusingList
      return decide (r.2.address = "a" ∧ u.1 = ([⟨"s", 1, "x", 1, alive⟩,
        ⟨"s", 1, "a", 9, alive⟩, ⟨"s", 1, "x", 1, suspect⟩] : List Change))) = .ok true := by
    decide +kernel
  obtain ⟨r, hr, heval⟩ := exists_of_bind_eq_ok heval
  obtain ⟨⟨applied, n₁⟩, hup, heval⟩ := exists_of_bind_eq_ok heval
  obtain ⟨haddress, rfl⟩ := of_decide_eq_true (Except.ok.inj heval)
  obtain ⟨applied₀, n₀, hboot, hlive⟩ := (Node.sound_new "app" "a").exists_makeStatus View.valid_new
    (validStatus_name .alive) ⟨fun _ => 0, fun _ => 1⟩ 5 (fun _ => ⟨5, 0⟩) "a" 5
  obtain rfl := Except.ok.inj (hr.symm.trans hboot)
  have hjoin := join_list_is_not_gossiped ⟨fun _ => 0, fun _ => 1⟩ n₀ accusingList
  obtain ⟨n', hn'⟩ := hjoin.2 hlive (by decide +kernel)
  obtain ⟨applied, n₂, hup', -, hother, -, hown, hlast⟩ := hjoin.1 n' hn'
  obtain ⟨rfl, rfl⟩ := Prod.mk.inj (Except.ok.inj (hup.symm.trans hup'))
  have haddress : n₀.address = "a" := haddress
  rw [haddress] at hother hown hlast
  exact ⟨_, n', hr, hn', hother "x" (by decide) ⟨_, .head _, rfl⟩, hown.trans hlast⟩

/-! ### How often a change is sent -/

/-- `handleChanges` adjusts the limit of propagations for a change of this status. -/
def Adjusts (status : String) : Prop := status = alive ∨ status = suspect ∨ status = leave

instance (status : String) : Decidable (Adjusts status) := inferInstanceAs (Decidable (_ ∨ _))

/-- The number of pingable members of a view, among these addresses. -/
def View.numPingable (localAddress : String) (addresses : List String) (V : View) : ℕ :=
  (addresses.dedup.filter fun x => x ≠ localAddress ∧ V.Reachable x).length

namespace Node

variable {pr : Primitives} {n n' : Node} {applied changes : List Change} {c : Change}

/-- The addresses that are known once the batch has been merged. -/
def known (n : Node) (b : Batch) : List String :=
  n.memberlist.getMembers.map Member.address ++ b.changes.map Change.address

/-- The batch, merged into the member list as it is, applies a change that adjusts the limit; or
the limit is already that of the member list which this gives. -/
def LimitFollows (pr : Primitives) (n : Node) (b : Batch) : Prop :=
  ∃ s, View.run n.address b.choices n.memberlist.entry (if n.stopped then [] else b.changes) =
      .ok s ∧
    ((∃ c ∈ s.2, Adjusts c.status) ∨ n.disseminator.maxP =
      n.disseminator.pFactor * pr.ceilLog10 (s.1.numPingable n.address (n.known b) + 1))

/-- The limit for the member list as it is, if its pingable members can be counted. -/
def LimitIs (pr : Primitives) (n : Node) : Prop :=
  ∃ k, n.memberlist.numPingableMembers = .ok k ∧
    n.disseminator.maxP = n.disseminator.pFactor * pr.ceilLog10 (k + 1)

theorem limitIs_of_adjustMaxPropagations (h : n.adjustMaxPropagations pr = .ok n') :
    n'.LimitIs pr ∧ n'.disseminator.pFactor = n.disseminator.pFactor := by
  rw [adjustMaxPropagations] at h
  obtain ⟨k, hk, h⟩ := exists_of_bind_eq_ok h
  dsimp only at h
  split_ifs at h with hne
  · obtain rfl := Except.ok.inj h
    exact ⟨⟨k, hk, rfl⟩, rfl⟩
  · obtain rfl := Except.ok.inj h
    exact ⟨⟨k, hk, (not_not.1 hne).symm⟩, rfl⟩

/-- **One change** adjusts the limit, or leaves it. -/
theorem limit_of_handleChange (h : n.handleChange pr c = .ok n') :
    n'.disseminator.pFactor = n.disseminator.pFactor ∧
      ((Adjusts c.status ∧ n'.LimitIs pr) ∨
        ¬ Adjusts c.status ∧ n'.disseminator.maxP = n.disseminator.maxP) := by
  simp only [handleChange] at h
  split_ifs at h with halive hfaulty hsuspect hleave
  · obtain ⟨hlimit, hfactor⟩ := limitIs_of_adjustMaxPropagations h
    exact ⟨hfactor, .inl ⟨.inl halive, hlimit⟩⟩
  · obtain rfl := Except.ok.inj h
    exact ⟨rfl, .inr ⟨by rw [hfaulty]; decide, rfl⟩⟩
  · obtain ⟨hlimit, hfactor⟩ := limitIs_of_adjustMaxPropagations h
    exact ⟨hfactor, .inl ⟨.inr (.inl hsuspect), hlimit⟩⟩
  · obtain ⟨hlimit, hfactor⟩ := limitIs_of_adjustMaxPropagations h
    exact ⟨hfactor, .inl ⟨.inr (.inr hleave), hlimit⟩⟩
  · obtain rfl := Except.ok.inj h
    exact ⟨rfl, .inr ⟨by simp [Adjusts, halive, hsuspect, hleave], rfl⟩⟩

/-- **`handleChanges`** adjusts the limit if some change does, and leaves it otherwise. -/
theorem limit_of_handleChanges (h : n.handleChanges pr changes = .ok n') :
    n'.disseminator.pFactor = n.disseminator.pFactor ∧
      (((∃ c ∈ changes, Adjusts c.status) ∧ n'.LimitIs pr) ∨
        (¬ ∃ c ∈ changes, Adjusts c.status) ∧ n'.disseminator.maxP = n.disseminator.maxP) := by
  induction changes generalizing n with
  | nil =>
    obtain rfl : n = n' := Except.ok.inj h
    exact ⟨rfl, .inr ⟨by simp, rfl⟩⟩
  | cons c changes ih =>
    rw [handleChanges, List.foldlM_cons] at h
    obtain ⟨n₁, h₁, h⟩ := exists_of_bind_eq_ok h
    obtain ⟨hfactor₁, hone⟩ := limit_of_handleChange h₁
    obtain ⟨hfactor, hrest⟩ := ih h
    refine ⟨hfactor.trans hfactor₁, ?_⟩
    rw [List.exists_mem_cons_iff]
    rcases hrest with ⟨hadjusts, hlimit⟩ | ⟨hnone, hsame⟩
    · exact .inl ⟨.inr hadjusts, hlimit⟩
    rcases hone with ⟨hadjusts, k, hk, hlimit⟩ | ⟨hnot, hsame₁⟩
    · refine .inl ⟨.inl hadjusts, k, ?_, ?_⟩
      · rw [(handled_handleChanges h).memberlist]
        exact hk
      · rw [hsame, hfactor]
        exact hlimit
    · exact .inr ⟨fun h => h.elim hnot hnone, hsame.trans hsame₁⟩

end Node

namespace Memberlist

variable {m : Memberlist} {a : String} {k : ℕ}

theorem Local.address_of_getLocal {member : Member} (h : m.Local a)
    (hl : m.getLocal = .ok member) : member.address = a := by
  have hsome : m.localMember.isSome := by
    by_contra hnone
    rw [getLocal, Option.not_isSome_iff_eq_none.1 hnone] at hl
    cases hl
  obtain ⟨member', hl', haddr⟩ := h.exists_getLocal hsome
  obtain rfl := Except.ok.inj (hl.symm.trans hl')
  exact haddr

/-- **`NumPingableMembers`** counts the members that are alive or suspect, without the node
itself. -/
theorem Local.numPingableMembers_eq (h : m.Local a) (hk : m.numPingableMembers = .ok k) :
    k = m.getMembers.countP fun member => member.address ≠ a ∧ member.isReachable := by
  have hloop (l : List Member) (i : ℕ) (hl : l.foldlM (fun n member => do
      if ← m.pingable member then return n + 1
      return n) i = .ok k) :
      k = i + l.countP fun member => member.address ≠ a ∧ member.isReachable := by
    induction l generalizing i with
    | nil => exact (Except.ok.inj hl).symm
    | cons member l ih =>
      rw [List.foldlM_cons] at hl
      obtain ⟨j, hone, hl⟩ := exists_of_bind_eq_ok hl
      obtain ⟨b, hb, hone⟩ := exists_of_bind_eq_ok hone
      obtain ⟨localMember, hlocal, hb⟩ := exists_of_bind_eq_ok hb
      have hbool : b = decide (member.address ≠ a ∧ member.isReachable) := by
        rw [← Except.ok.inj hb, h.address_of_getLocal hlocal]
        simp [Member.isReachable]
      rw [ih j hl, List.countP_cons, ← hbool]
      cases b with
      | true =>
        obtain rfl := Except.ok.inj hone
        simp only [if_true]
        omega
      | false =>
        obtain rfl := Except.ok.inj hone
        rfl
  exact (hloop m.getMembers 0 hk).trans (Nat.zero_add _)

/-- The members that are counted are the addresses of the view that are. -/
theorem Sound.numPingable_eq {addresses : List String} (h : m.Sound) (a : String)
    (hknown : ∀ x member, m.entry x = some member → x ∈ addresses) :
    View.numPingable a addresses m.entry =
      m.getMembers.countP fun member => member.address ≠ a ∧ member.isReachable := by
  have hinj : ∀ member ∈ m.getMembers, ∀ member' ∈ m.getMembers,
      member.address = member'.address → member = member' := by
    intro member hmem member' hmem' haddr
    rw [h.mem_getMembers] at hmem hmem'
    rw [haddr] at hmem
    exact Option.some.inj (hmem.symm.trans hmem')
  have hlength (members : List Member) : members.length = (members.map Member.address).length :=
    (List.length_map _).symm
  rw [View.numPingable, List.countP_eq_length_filter, hlength]
  refine List.Perm.length_eq ((List.perm_ext_iff_of_nodup ((List.nodup_dedup _).filter _)
    ((h.nodup_getMembers.filter _).map_on fun member hmem member' hmem' =>
      hinj member (List.mem_of_mem_filter hmem) member' (List.mem_of_mem_filter hmem'))).2
    fun x => ?_)
  rw [List.mem_filter, List.mem_dedup, List.mem_map, decide_eq_true_eq]
  constructor
  · rintro ⟨-, hx, hreach⟩
    obtain ⟨member, hentry, hmember⟩ := (Option.any_eq_true ..).1 hreach
    obtain rfl := h.address_eq hentry
    exact ⟨member, List.mem_filter.2 ⟨h.mem_getMembers.2 hentry, by simp [hx, hmember]⟩, rfl⟩
  · rintro ⟨member, hmem, rfl⟩
    obtain ⟨hmem, hcount⟩ := List.mem_filter.1 hmem
    obtain ⟨hx, hreach⟩ := of_decide_eq_true hcount
    have hentry := h.mem_getMembers.1 hmem
    exact ⟨hknown _ member hentry, hx, by rw [View.Reachable, hentry]; exact hreach⟩

end Memberlist

/-- A batch makes no address known but those of its changes. -/
theorem View.mem_of_run {localAddress : String} {choices : ℕ → Choice} {V : View}
    {changes : List Change} {s : View × List Change} {x : String} {member : Member}
    (hrun : View.run localAddress choices V changes = .ok s) (hx : s.1 x = some member) :
    (∃ member, V x = some member) ∨ x ∈ changes.map Change.address := by
  have hall := run_invariant (I := fun s => ∀ x member, s.1 x = some member →
    (∃ member, V x = some member) ∨ x ∈ changes.map Change.address)
    (fun x member hx => .inl ⟨member, hx⟩) hrun
    (fun s c i c' hc hs hout y member' hy => by
      rcases take_cases hy with ⟨rfl, -⟩ | ⟨-, hy⟩
      · rw [(outcome_cases hout).1]
        exact .inr (List.mem_map_of_mem hc)
      · exact hs y member' hy)
  exact hall x member hx

namespace Node

variable {pr : Primitives} {n n' : Node} {applied : List Change} {b : Batch} {k : ℕ}

/-- **The limit after `Update`.** -/
theorem limit_of_update (hn : n.Sound) (hup : n.update pr b = .ok (applied, n'))
    (hk : n'.memberlist.numPingableMembers = .ok k) :
    n'.disseminator.maxP = n'.disseminator.pFactor * pr.ceilLog10 (k + 1) ↔
      n.LimitFollows pr b := by
  have he := effect_update hn hup
  obtain ⟨st, -, -, hn'⟩ := exists_handled_of_update hup
  obtain ⟨hfactor, hlimit⟩ := limit_of_handleChanges hn'
  have hcount : View.numPingable n.address (n.known b) n'.memberlist.entry = k := by
    have hlocal := he.sound.localMember
    rw [he.address] at hlocal
    rw [hlocal.numPingableMembers_eq hk]
    refine he.sound.memberlist.numPingable_eq n.address fun x member hx => ?_
    rcases View.mem_of_run he.run hx with ⟨member', hx'⟩ | hx'
    · obtain rfl := hn.memberlist.address_eq hx'
      exact List.mem_append_left _ (List.mem_map_of_mem (hn.memberlist.mem_getMembers.2 hx'))
    · refine List.mem_append_right _ ?_
      split_ifs at hx'
      · cases hx'
      · exact hx'
  have hfollows : n.LimitFollows pr b ↔ (∃ c ∈ applied, Adjusts c.status) ∨
      n.disseminator.maxP = n.disseminator.pFactor * pr.ceilLog10 (k + 1) := by
    rw [LimitFollows, he.run, ← hcount]
    simp
  rw [hfollows]
  rcases hlimit with ⟨hadjusts, k', hk', hmax⟩ | ⟨hnone, hmax⟩
  · obtain rfl := Except.ok.inj (hk.symm.trans hk')
    exact iff_of_true hmax (.inl hadjusts)
  · rw [or_iff_right hnone, hmax, hfactor]
    rfl

end Node

/-- **The limit of propagations follows the number of pingable members.**  After each `Update` of
a run of `Update`s it is that of the member list as it then is exactly if a change was applied
that makes a member alive, suspect or leave, or if it already was. -/
theorem max_p_tracks_pingable_iff (pr : Primitives) (n₀ : Node) (batches : List Batch) (n : Node)
    (b : Batch) (applied : List Change) (n' : Node) (k : ℕ) (h₀ : n₀.Sound)
    (hrun : n₀.updates pr batches = .ok n) (hup : n.update pr b = .ok (applied, n'))
    (hk : n'.memberlist.numPingableMembers = .ok k) :
    n'.disseminator.maxP = n'.disseminator.pFactor * pr.ceilLog10 (k + 1) ↔
      n.LimitFollows pr b := by
  have hn : n.Sound := foldlM_invariant (fun n b n' hn h => ?_) h₀ hrun
  · exact Node.limit_of_update hn hup hk
  · obtain ⟨⟨applied, n₁⟩, hup, rfl⟩ := exists_of_map_eq_ok h
    exact (Node.effect_update hn hup).sound

/-- The logarithm computed without floats. -/
def exactLog : Primitives := ⟨fun _ => 0, Nat.clog 10⟩

/-- Ten members that are alive. -/
def tenAlive : Batch :=
  ⟨(List.range 10).map fun i => ⟨"s", 1, toString i, 1, alive⟩, fun _ => ⟨9, 0⟩⟩

/-- Ten members are alive and one of them leaves. -/
theorem max_p_tracks_pingable_iff_leave :
    ∃ r n r', (Node.new "app" "a").reincarnate exactLog 5 5 (fun _ => ⟨5, 0⟩) = .ok r ∧
      r.2.updates exactLog [tenAlive] = .ok n ∧
      n.update exactLog (.single "3" leave) = .ok r' ∧
      r'.2.memberlist.numPingableMembers = .ok 9 ∧
      r'.2.disseminator.maxP = r'.2.disseminator.pFactor * Nat.clog 10 (9 + 1) := by
  have heval : (do
      let r ← (Node.new "app" "a").reincarnate exactLog 5 5 fun _ => ⟨5, 0⟩
      let n ← r.2.updates exactLog [tenAlive]
      let r' ← n.update exactLog (.single "3" leave)
      let s ← View.run n.address (Batch.single "3" leave).choices n.memberlist.entry
        (if n.stopped then [] else (Batch.single "3" leave).changes)
      return decide (r'.2.memberlist.numPingableMembers = Except.ok 9 ∧
        ∃ c ∈ s.2, Adjusts c.status)) = .ok true := by decide +kernel
  obtain ⟨r, hr, heval⟩ := exists_of_bind_eq_ok heval
  obtain ⟨n, hn, heval⟩ := exists_of_bind_eq_ok heval
  obtain ⟨r', hr', heval⟩ := exists_of_bind_eq_ok heval
  obtain ⟨s, hs, heval⟩ := exists_of_bind_eq_ok heval
  obtain ⟨hk, hadjusts⟩ := of_decide_eq_true (Except.ok.inj heval)
  obtain ⟨-, i, he⟩ := Node.effect_makeStatus (Node.sound_new "app" "a") hr
  exact ⟨r, n, r', hr, hn, hr', hk, (max_p_tracks_pingable_iff exactLog r.2 [tenAlive] n
    (.single "3" leave) r'.1 r'.2 9 he.sound hn hr' hk).2 ⟨s, hs, .inl hadjusts⟩⟩

/-- Ten members are alive and one of them becomes suspect, so the limit is `30`.  When it becomes
faulty there are nine, for which the limit is `15`; but it stays. -/
theorem max_p_stays_for_faulty :
    ∃ r n r', (Node.new "app" "a").reincarnate exactLog 5 5 (fun _ => ⟨5, 0⟩) = .ok r ∧
      r.2.updates exactLog [tenAlive, .single "3" suspect] = .ok n ∧
      n.update exactLog (.single "3" faulty) = .ok r' ∧
      r'.1 = (Batch.single "3" faulty).changes ∧
      r'.2.memberlist.numPingableMembers = .ok 9 ∧
      r'.2.disseminator.pFactor * Nat.clog 10 (9 + 1) = 15 ∧ r'.2.disseminator.maxP = 30 := by
  have heval : (do
      let r ← (Node.new "app" "a").reincarnate exactLog 5 5 fun _ => ⟨5, 0⟩
      let n ← r.2.updates exactLog [tenAlive, .single "3" suspect]
      let r' ← n.update exactLog (.single "3" faulty)
      return decide (r'.1 = (Batch.single "3" faulty).changes ∧
        r'.2.memberlist.numPingableMembers = Except.ok 9 ∧
        r'.2.disseminator.pFactor * Nat.clog 10 (9 + 1) = 15 ∧ r'.2.disseminator.maxP = 30)) =
      .ok true := by decide +kernel
  obtain ⟨r, hr, heval⟩ := exists_of_bind_eq_ok heval
  obtain ⟨n, hn, heval⟩ := exists_of_bind_eq_ok heval
  obtain ⟨r', hr', heval⟩ := exists_of_bind_eq_ok heval
  exact ⟨r, n, r', hr, hn, hr', of_decide_eq_true (Except.ok.inj heval)⟩

end Swim
end Ringpop
