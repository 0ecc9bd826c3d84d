/-
# Suspects and their timers

A member that is suspect becomes faulty when its timer goes off, and the timer speaks of
the incarnation it was started for.  `Start` does nothing for an address that has a
timer, whatever the incarnations; so a member that is suspected again, at a larger
incarnation, keeps the old timer, whose `MakeFaulty` is then too old to be applied.
`Disable` drops all timers and `Reenable` starts none.

As long as no suspicion is taken for an address that has a timer, and a stopped node is
started without suspects, each suspect has a timer of its incarnation
(`Node.Watches`).

The other way round there is no such condition: every timer is that of a suspect
(`Suspicion.Tidy`), since each change that is applied and is no suspicion stops the timer of
its address.
-/

import Ringpop.Swim.NodeEffect

namespace Ringpop
namespace Swim

open CellStore Runs

/-- What happens to a node, as far as the timers are concerned. -/
inductive TimerCall where
  | update (b : Batch)
  | fire (timeNowMS : ℤ) (choices : ℕ → Choice) (address : String)
  | stop
  | start

namespace TimerCall

/-- One call. -/
def step (pr : Primitives) (n : Node) : TimerCall → Except Fault Node
  | update b => Prod.snd <$> n.update pr b
  | fire t choices address => Prod.snd <$> n.fire pr t choices address
  | stop => return n.stop
  | start => return n.start

/-- A sequence of calls. -/
def run (pr : Primitives) (n : Node) (calls : List TimerCall) : Except Fault Node :=
  calls.foldlM (step pr) n

end TimerCall

namespace Suspicion

/-- The timers after some changes were applied. -/
def after (localAddress : String) (s : Suspicion) (applied : List Change) : Suspicion :=
  applied.foldl (track localAddress) s

/-- Where the change makes a member suspect, that member has no timer. -/
def Fresh (localAddress : String) (susp : Suspicion) (s : View × List Change) (c : Change)
    (choice : Choice) : Prop :=
  c.status = suspect → c.address ≠ localAddress →
    View.outcome localAddress choice (s.1 c.address) c = .ok (some c) →
      (susp.after localAddress s.2).timers c.address = none

instance (localAddress : String) (susp : Suspicion) (s : View × List Change) (c : Change)
    (choice : Choice) : Decidable (Fresh localAddress susp s c choice) :=
  inferInstanceAs (Decidable (_ → _))

/-- Each suspect of the view has a timer of its incarnation. -/
structure Watching (localAddress : String) (V : View) (susp : Suspicion) : Prop where
  enabled : susp.enabled = true
  timer : ∀ x member, x ≠ localAddress → V x = some member → member.status = suspect →
    susp.timers x = some ⟨member.incarnation, false⟩

variable {a : String} {susp : Suspicion} {s s' : View × List Change} {c : Change} {choice : Choice}

/-- **One change** that finds no timer keeps the suspects watched. -/
theorem Watching.step (h : Watching a s.1 (susp.after a s.2)) (hfresh : susp.Fresh a s c choice)
    (hstep : View.step a s c choice = .ok s') : Watching a s'.1 (susp.after a s'.2) := by
  rcases View.step_cases hstep with rfl | ⟨c', hout, haddr, hc', rfl⟩
  · exact h
  have hafter : susp.after a (s.2 ++ [c']) = (susp.after a s.2).track a c' := by
    rw [after, List.foldl_append]
    rfl
  change Watching a _ (susp.after a (s.2 ++ [c']))
  rw [hafter]
  refine ⟨by rw [track_enabled]; exact h.enabled, fun x member hx hentry hsuspect => ?_⟩
  rcases View.take_cases hentry with ⟨rfl, rfl⟩ | ⟨hxc, hentry'⟩
  · obtain rfl : c' = c := hc'.resolve_right fun halive => by
      rw [show c'.status = suspect from hsuspect] at halive
      exact absurd halive (by decide)
    exact track_timers_of_suspect hsuspect h.enabled hx (hfresh hsuspect hx hout)
  · rw [track_timers_of_ne hxc]
    exact h.timer x member hx hentry' hsuspect

/-- A faulty change overrides a suspect of its incarnation. -/
theorem step_ne_of_suspect {V : View} {member : Member} (hc : c.status = faulty)
    (hentry : V c.address = some member) (hsuspect : member.status = suspect)
    (hinc : member.incarnation = c.incarnation) :
    View.step a (V, []) c choice ≠ .ok (V, []) := by
  have hover : member.nonLocalOverride c = .ok true := by
    rw [Member.nonLocalOverride, if_neg (by omega), if_neg (by omega), hc, hsuspect]
    rfl
  simp only [View.step, hentry, View.outcome, hover]
  split_ifs <;> simp [Except.map, View.take]

/-- **A timer that goes off** makes its suspect faulty, and the other suspects stay
watched. -/
theorem Watching.fire {V : View} {i : ℤ} {x : String} (h : Watching a V susp)
    (htimer : susp.timers x = some ⟨i, false⟩) (hx : c.address = x) (hi : c.incarnation = i)
    (hc : c.status = faulty) (hstep : View.step a (V, []) c choice = .ok s') :
    Watching a s'.1 ((susp.fire x).after a s'.2) := by
  subst hx hi
  have hother (y : String) (hy : y ≠ c.address) :
      (susp.fire c.address).timers y = susp.timers y := Function.update_of_ne hy ..
  rcases View.step_cases hstep with rfl | ⟨c', hout, haddr, hc', rfl⟩
  · refine ⟨h.enabled, fun y member hy hentry hsuspect => ?_⟩
    by_cases hyc : y = c.address
    · subst hyc
      have heq := Option.some.inj (htimer.symm.trans (h.timer _ member hy hentry hsuspect))
      exact absurd hstep (step_ne_of_suspect hc hentry hsuspect
        (congrArg Timer.incarnation heq).symm)
    · exact (hother y hyc).trans (h.timer y member hy hentry hsuspect)
  · refine ⟨(track_enabled ..).trans h.enabled, fun y member hy hentry hsuspect => ?_⟩
    rcases View.take_cases hentry with ⟨rfl, rfl⟩ | ⟨hyc, hentry'⟩
    · rcases hc' with rfl | halive
      · exact absurd (hc.symm.trans hsuspect) (by decide)
      · exact absurd (halive.symm.trans hsuspect) (by decide)
    · refine (track_timers_of_ne hyc).trans ?_
      rw [hother y (haddr ▸ hyc)]
      exact h.timer y member hy hentry' hsuspect

end Suspicion

namespace Node

variable {pr : Primitives} {n n' : Node}

/-- While the node is not stopped, each suspect has a timer of its incarnation. -/
structure Watches (n : Node) : Prop where
  sound : n.Sound
  watching : n.stopped = false → n.suspicion.Watching n.address n.memberlist.entry

/-- A suspicion that `Update` takes finds no timer, and a stopped node is started without
suspects. -/
def KeepsWatch (n : Node) : TimerCall → Prop
  | .update b =>
      Along (fun s (ci : Change × ℕ) => View.step n.address s ci.1 (b.choices ci.2))
        (fun s ci => n.suspicion.Fresh n.address s ci.1 (b.choices ci.2))
        (n.memberlist.entry, []) (if n.stopped then [] else b.changes).zipIdx
  | .start => n.stopped = false ∨
      ∀ member ∈ n.memberlist.getMembers, member.status = suspect → member.address = n.address
  | _ => True

instance (n : Node) (call : TimerCall) : Decidable (n.KeepsWatch call) := by
  cases call with
  | update b => exact inferInstanceAs (Decidable (Along _ _ _ _))
  | start => exact inferInstanceAs (Decidable (_ ∨ _))
  | fire t choices address => exact .isTrue trivial
  | stop => exact .isTrue trivial

theorem watches_new (app address : String) : (new app address).Watches :=
  ⟨sound_new app address, fun _ => ⟨rfl, fun x member _ hentry => by cases hentry⟩⟩

/-- **`Update`**, where no suspicion finds a timer. -/
theorem Watches.update {b : Batch} {applied : List Change} (h : n.Watches)
    (hkeeps : n.KeepsWatch (.update b)) (hup : n.update pr b = .ok (applied, n')) :
    n'.Watches := by
  have he := effect_update h.sound hup
  refine ⟨he.sound, fun hstopped => ?_⟩
  rw [he.suspicion, he.address]
  exact Along.invariant (I := fun s => Suspicion.Watching n.address s.1
      (n.suspicion.after n.address s.2))
    (fun s ci s' hs hfresh hstep => hs.step hfresh hstep)
    (h.watching (he.stopped.symm.trans hstopped)) hkeeps he.run

/-- **A timer that goes off.** -/
theorem Watches.fire {t : ℤ} {choices : ℕ → Choice} {x : String} {applied : List Change}
    (h : n.Watches) (hfire : n.fire pr t choices x = .ok (applied, n')) : n'.Watches := by
  rcases effect_fire h.sound hfire with ⟨-, rfl⟩ | ⟨i, htimer, j, he⟩
  · exact h
  refine ⟨he.sound, fun hstopped => ?_⟩
  have hstopped₀ : n.stopped = false := he.stopped.symm.trans hstopped
  have hrun := he.run
  rw [show ({ n with suspicion := n.suspicion.fire x } : Node).stopped = false from hstopped₀]
    at hrun
  obtain ⟨s', hstep, hret⟩ := exists_of_bind_eq_ok hrun
  obtain rfl := Except.ok.inj hret
  rw [he.suspicion, he.address]
  exact (h.watching hstopped₀).fire htimer rfl rfl rfl hstep

/-- **One call.** -/
theorem Watches.step {call : TimerCall} (h : n.Watches) (hkeeps : n.KeepsWatch call)
    (hstep : call.step pr n = .ok n') : n'.Watches := by
  cases call with
  | update b =>
    obtain ⟨⟨applied, n₁⟩, hup, rfl⟩ := exists_of_map_eq_ok hstep
    exact h.update hkeeps hup
  | fire t choices x =>
    obtain ⟨⟨applied, n₁⟩, hfire, rfl⟩ := exists_of_map_eq_ok hstep
    exact h.fire hfire
  | stop =>
    obtain rfl := Except.ok.inj hstep
    exact ⟨h.sound.congr rfl rfl, fun hstopped => by cases hstopped⟩
  | start =>
    obtain rfl := Except.ok.inj hstep
    refine ⟨h.sound.congr rfl rfl, fun _ => ⟨rfl, ?_⟩⟩
    intro x member hx hentry hsuspect
    rcases hkeeps with hrunning | hnone
    · exact (h.watching hrunning).timer x member hx hentry hsuspect
    · obtain rfl := h.sound.memberlist.address_eq hentry
      exact absurd (hnone member (h.sound.memberlist.mem_getMembers.2 hentry) hsuspect) hx

/-- **A call with valid statuses** does not stop the node with a fault. -/
theorem Live.timerCall {call : TimerCall} (h : n.Live) (pr : Primitives)
    (hcall : ∀ b, call = .update b → ∀ c ∈ b.changes, ValidStatus c.status) :
    ∃ n', call.step pr n = .ok n' ∧ n'.Live := by
  cases call with
  | update b =>
    obtain ⟨applied, n', hup, hn'⟩ := h.update pr (hcall b rfl)
    exact ⟨n', by rw [TimerCall.step, hup]; rfl, hn'⟩
  | fire t choices x =>
    obtain ⟨applied, n', hfire, hn'⟩ := h.fire pr t choices x
    exact ⟨n', by rw [TimerCall.step, hfire]; rfl, hn'⟩
  | stop => exact ⟨_, rfl, h.congr rfl rfl⟩
  | start => exact ⟨_, rfl, h.congr rfl rfl⟩

/-- **Calls with valid statuses**, one after another, do not stop a node that has
reincarnated. -/
theorem exists_timerRun_of_reincarnate {app address : String} {calls : List TimerCall}
    {pr : Primitives} {now t : ℤ} {choices : ℕ → Choice} {applied : List Change}
    (hvalid : ∀ b, TimerCall.update b ∈ calls → ∀ c ∈ b.changes, ValidStatus c.status)
    (hboot : (new app address).reincarnate pr now t choices = .ok (applied, n)) :
    ∃ n', TimerCall.run pr n calls = .ok n' := by
  obtain ⟨applied', n₁, hboot', hlive⟩ := (sound_new app address).exists_makeStatus
    View.valid_new (validStatus_name .alive) pr t choices address now
  obtain ⟨-, rfl⟩ := Prod.mk.inj (Except.ok.inj (hboot.symm.trans hboot'))
  obtain ⟨n', hrun, -⟩ := exists_foldlM (I := Live) (f := TimerCall.step pr) (l := calls)
    (fun n call hcall hn => hn.timerCall pr fun b hb => hvalid b (hb ▸ hcall)) hlive
  exact ⟨n', hrun⟩

end Node

/-- **No suspect is forgotten** in a run whose calls keep watch: while the node is not
stopped, every member but the node itself that is suspect at incarnation `i` has a timer
that has not gone off and will make it faulty at `i`.  With valid statuses, and from a node
that has reincarnated, no call fails. -/
theorem suspects_have_timers (pr : Primitives) (app address : String) (calls : List TimerCall) :
    (Along (TimerCall.step pr) Node.KeepsWatch (.new app address) calls → ∀ n,
      TimerCall.run pr (.new app address) calls = .ok n → n.stopped = false → ∀ x member,
        x ≠ n.address → n.memberlist.entry x = some member → member.status = suspect →
          n.suspicion.timers x = some ⟨member.incarnation, false⟩) ∧
    ((∀ b, TimerCall.update b ∈ calls → ∀ c ∈ b.changes, ValidStatus c.status) →
      ∀ t choices now applied n, (Node.new app address).reincarnate pr now t choices =
        .ok (applied, n) → ∃ n', TimerCall.run pr n calls = .ok n') := by
  refine ⟨fun hkeeps n hrun hstopped => ?_, fun hvalid t choices now applied n hboot => ?_⟩
  · have hn : n.Watches := hkeeps.invariant (fun _ _ _ h hk => Node.Watches.step h hk)
      (Node.watches_new app address) hrun
    exact (hn.watching hstopped).timer
  · exact Node.exists_timerRun_of_reincarnate hvalid hboot

/-- A suspect that refutes and is suspected again, with the node stopped and started in
between. -/
theorem suspects_have_timers_again :
    ∃ n, TimerCall.run ⟨fun _ => 0, fun _ => 1⟩ (.new "app" "a")
        [.update (.single "a" alive), .update (.single "x" suspect),
          .update ⟨[⟨"x", 1, "x", 2, alive⟩], fun _ => ⟨9, 0⟩⟩, .stop, .start,
          .update ⟨[⟨"s", 1, "x", 2, suspect⟩], fun _ => ⟨9, 0⟩⟩] = .ok n ∧
      n.suspicion.timers "x" = some ⟨2, false⟩ := by
  obtain ⟨n, hrun, hn⟩ := exists_of_map_eq_ok
    (x := TimerCall.run ⟨fun _ => 0, fun _ => 1⟩ (.new "app" "a")
      [.update (.single "a" alive), .update (.single "x" suspect),
        .update ⟨[⟨"x", 1, "x", 2, alive⟩], fun _ => ⟨9, 0⟩⟩, .stop, .start,
        .update ⟨[⟨"s", 1, "x", 2, suspect⟩], fun _ => ⟨9, 0⟩⟩])
    (F := fun n => (n.stopped, n.address, n.memberlist.entry "x"))
    (b := (false, "a", some ⟨"x", suspect, 2⟩)) (by decide +kernel)
  obtain ⟨hstopped, haddr, hentry⟩ : n.stopped = false ∧ n.address = "a" ∧
      n.memberlist.entry "x" = some ⟨"x", suspect, 2⟩ := by simpa using hn
  exact ⟨n, hrun, (suspects_have_timers _ "app" "a" _).1 (by decide +kernel) n hrun hstopped "x" _
    (by rw [haddr]; decide) hentry rfl⟩

/-- A member that is suspected at incarnation `1` and then at `2` keeps the timer of `1`;
and a suspect has no timer after the node was stopped and started. -/
theorem suspect_is_forgotten :
    (∃ n, TimerCall.run ⟨fun _ => 0, fun _ => 1⟩ (.new "app" "a")
        [.update (.single "a" alive), .update (.single "x" suspect),
          .update ⟨[⟨"s", 1, "x", 2, suspect⟩], fun _ => ⟨9, 0⟩⟩] = .ok n ∧
      n.stopped = false ∧ n.memberlist.entry "x" = some ⟨"x", suspect, 2⟩ ∧
      n.suspicion.timers "x" = some ⟨1, false⟩) ∧
    ∃ n, TimerCall.run ⟨fun _ => 0, fun _ => 1⟩ (.new "app" "a")
        [.update (.single "a" alive), .update (.single "x" suspect), .stop, .start] = .ok n ∧
      n.stopped = false ∧ n.memberlist.entry "x" = some ⟨"x", suspect, 1⟩ ∧
      n.suspicion.timers "x" = none := by
  constructor
  · exact ⟨_, rfl, rfl, by decide +kernel, by decide +kernel⟩
  · exact ⟨_, rfl, rfl, by decide +kernel, by decide +kernel⟩

/-! ### No timer is left behind -/

namespace Suspicion

/-- Each timer is that of a suspect other than the node itself, and there is none while the
timers are switched off. -/
structure Tidy (localAddress : String) (V : View) (susp : Suspicion) : Prop where
  ofSuspect : ∀ x t, susp.timers x = some t →
    x ≠ localAddress ∧ ∃ member, V x = some member ∧ member.status = suspect
  ofDisabled : susp.enabled = false → ∀ x, susp.timers x = none

variable {a : String} {V : View} {susp : Suspicion} {s : View × List Change} {c : Change}

theorem tidy_new (a : String) (V : View) : new.Tidy a V :=
  ⟨fun x t h => (by cases h), fun _ x => rfl⟩

/-- A change of another status stops the timer of its address. -/
theorem track_timers_of_not_suspect (hc : ValidStatus c.status) (hne : c.status ≠ suspect) :
    (susp.track a c).timers c.address = none := by
  obtain ⟨status, hstatus⟩ := hc.exists_name
  have hstop : c.status = alive || c.status = faulty || c.status = leave := by
    cases status with
    | suspect => exact absurd hstatus hne
    | alive => simp [hstatus, Status.name]
    | faulty => simp [hstatus, Status.name]
    | leave => simp [hstatus, Status.name]
  rw [track, if_neg hne, if_pos hstop]
  exact Function.update_self ..

/-- **One change** leaves no timer behind. -/
theorem Tidy.take (h : Tidy a s.1 (susp.after a s.2)) (hc : ValidStatus c.status) :
    Tidy a (View.take s (some c)).1 (susp.after a (View.take s (some c)).2) := by
  have hafter : susp.after a (View.take s (some c)).2 = (susp.after a s.2).track a c := by
    rw [after, View.take, List.foldl_append]
    rfl
  rw [hafter]
  refine ⟨fun x t ht => ?_, fun hoff x => ?_⟩
  · by_cases hx : x = c.address
    · subst hx
      by_cases hsuspect : c.status = suspect
      · refine ⟨?_, c.member, Function.update_self .., hsuspect⟩
        rcases timers_of_track ht with ht | ⟨-, hlocal, -⟩
        · exact (h.ofSuspect _ t ht).1
        · exact hlocal
      · rw [track_timers_of_not_suspect hc hsuspect] at ht
        cases ht
    · rw [track_timers_of_ne hx] at ht
      obtain ⟨hlocal, member, hentry, hsuspect⟩ := h.ofSuspect x t ht
      exact ⟨hlocal, member, (Function.update_of_ne hx ..).trans hentry, hsuspect⟩
  · rw [track_enabled] at hoff
    exact track_timers_of_disabled hoff (h.ofDisabled hoff x)

/-- A timer that has gone off is still that of its suspect. -/
theorem Tidy.fire (h : Tidy a V susp) (x : String) : Tidy a V (susp.fire x) := by
  have hsome (y : String) (t : Timer) (ht : (susp.fire x).timers y = some t) :
      ∃ t, susp.timers y = some t := by
    by_cases hy : y = x
    · subst hy
      have hmap := (Function.update_self ..).symm.trans ht
      exact (Option.map_eq_some_iff.1 hmap).imp fun _ => And.left
    · exact ⟨t, (Function.update_of_ne hy ..).symm.trans ht⟩
  refine ⟨fun y t ht => ?_, fun hoff y => ?_⟩
  · obtain ⟨t', ht'⟩ := hsome y t ht
    exact h.ofSuspect y t' ht'
  · by_contra hne
    obtain ⟨t, ht⟩ := Option.ne_none_iff_exists'.1 hne
    obtain ⟨t', ht'⟩ := hsome y t ht
    rw [h.ofDisabled hoff y] at ht'
    cases ht'

theorem Tidy.disable (h : Tidy a V susp) : Tidy a V susp.disable := by
  rw [Suspicion.disable]
  split_ifs with hoff
  · exact h
  · exact ⟨fun x t ht => (by cases ht), fun _ x => rfl⟩

theorem Tidy.reenable (h : Tidy a V susp) : Tidy a V susp.reenable :=
  ⟨h.ofSuspect, fun hoff => (by cases hoff)⟩

end Suspicion

namespace Node

variable {pr : Primitives} {n n' : Node} {choices : ℕ → Choice} {changes applied : List Change}

/-- **Whatever is given to the member list**, with valid statuses: no timer is left behind. -/
theorem Effect.tidy (h : n.Effect choices changes applied n')
    (hn : n.suspicion.Tidy n.address n.memberlist.entry)
    (hchanges : ∀ c ∈ changes, ValidStatus c.status) :
    n'.suspicion.Tidy n'.address n'.memberlist.entry := by
  rw [h.suspicion, h.address]
  refine View.run_invariant (I := fun s => Suspicion.Tidy n.address s.1
    (n.suspicion.after n.address s.2)) hn h.run fun s c i c' hc hs hout => hs.take ?_
  have hvalid : ValidStatus c.status := by
    split_ifs at hc
    · cases hc
    · exact hchanges c hc
  rcases (View.outcome_cases hout).2 with rfl | halive
  · exact hvalid
  · rw [halive]
    exact validStatus_name .alive

/-- **One call** leaves no timer behind. -/
theorem tidy_timerCall {call : TimerCall} (hs : n.Sound)
    (hn : n.suspicion.Tidy n.address n.memberlist.entry)
    (hcall : ∀ b, call = .update b → ∀ c ∈ b.changes, ValidStatus c.status)
    (hstep : call.step pr n = .ok n') :
    n'.Sound ∧ n'.suspicion.Tidy n'.address n'.memberlist.entry := by
  cases call with
  | update b =>
    obtain ⟨⟨applied, n₁⟩, hup, rfl⟩ := exists_of_map_eq_ok hstep
    have he := effect_update hs hup
    exact ⟨he.sound, he.tidy hn (hcall b rfl)⟩
  | fire t choices x =>
    obtain ⟨⟨applied, n₁⟩, hfire, rfl⟩ := exists_of_map_eq_ok hstep
    rcases effect_fire hs hfire with ⟨-, rfl⟩ | ⟨i, -, j, he⟩
    · exact ⟨hs, hn⟩
    · refine ⟨he.sound, he.tidy (hn.fire x) fun c hc => ?_⟩
      rw [List.mem_singleton.1 hc]
      exact validStatus_name .faulty
  | stop =>
    obtain rfl := Except.ok.inj hstep
    exact ⟨hs.congr rfl rfl, hn.disable⟩
  | start =>
    obtain rfl := Except.ok.inj hstep
    exact ⟨hs.congr rfl rfl, hn.reenable⟩

end Node

/-- **No timer is leaked.**  In a run of updates with valid statuses, timers that go off, and the
node stopped and started, every timer is that of a member other than the node itself which is
suspect, and there is none while the timers are switched off.  From a node that has
reincarnated, no call fails. -/
theorem timers_are_of_suspects (pr : Primitives) (app address : String) (calls : List TimerCall)
    (hvalid : ∀ b, TimerCall.update b ∈ calls → ∀ c ∈ b.changes, ValidStatus c.status) :
    (∀ n, TimerCall.run pr (.new app address) calls = .ok n →
      n.suspicion.Tidy n.address n.memberlist.entry) ∧
    ∀ t choices now applied n, (Node.new app address).reincarnate pr now t choices =
        .ok (applied, n) →
      ∃ n', TimerCall.run pr n calls = .ok n' ∧
        n'.suspicion.Tidy n'.address n'.memberlist.entry := by
  have htidy (n n' : Node) (hs : n.Sound) (hn : n.suspicion.Tidy n.address n.memberlist.entry)
      (hrun : TimerCall.run pr n calls = .ok n') :
      n'.suspicion.Tidy n'.address n'.memberlist.entry := by
    have hinv := Along.invariant (P := fun _ call => call ∈ calls)
      (I := fun n : Node => n.Sound ∧ n.suspicion.Tidy n.address n.memberlist.entry)
      (fun n call n' h hcall hstep =>
        Node.tidy_timerCall h.1 h.2 (fun b hb => hvalid b (hb ▸ hcall)) hstep)
      ⟨hs, hn⟩ (along_of_forall_mem (fun _ _ hcall => hcall) n) hrun
    exact hinv.2
  refine ⟨fun n hrun => htidy _ n (Node.sound_new app address)
    (Suspicion.tidy_new ..) hrun, fun t choices now applied n hboot => ?_⟩
  obtain ⟨n', hrun⟩ := Node.exists_timerRun_of_reincarnate hvalid hboot
  obtain ⟨-, i, he⟩ := Node.effect_makeStatus (Node.sound_new app address) hboot
  refine ⟨n', hrun, htidy n n' he.sound ?_ hrun⟩
  exact he.tidy (Suspicion.tidy_new ..) fun c hc => by
    rw [List.mem_singleton.1 hc]
    exact validStatus_name .alive

/-- The calls of a node with three suspects: one is revived in the batch that suspects it, the
timer of one goes off, one stays. -/
def suspectCalls : List TimerCall :=
  [.update (.single "a" alive), .update ⟨[⟨"s", 1, "x", 1, suspect⟩, ⟨"s", 1, "x", 2, alive⟩,
    ⟨"s", 1, "y", 1, suspect⟩, ⟨"s", 1, "z", 1, suspect⟩], fun _ => ⟨9, 0⟩⟩,
    .fire 5 (fun _ => ⟨9, 0⟩) "y"]

/-- Only the suspect that stays has a timer. -/
theorem timers_are_of_suspects_revived :
    ∃ n, TimerCall.run ⟨fun _ => 0, fun _ => 1⟩ (.new "app" "a") suspectCalls = .ok n ∧
      n.suspicion.timers "x" = none ∧ n.suspicion.timers "y" = none ∧
      n.suspicion.timers "z" = some ⟨1, false⟩ := by
  have hvalid : ∀ b, TimerCall.update b ∈ suspectCalls → ∀ c ∈ b.changes,
      ValidStatus c.status := by
    intro b hb
    simp only [suspectCalls, List.mem_cons, List.not_mem_nil, or_false, TimerCall.update.injEq,
      reduceCtorEq] at hb
    rcases hb with rfl | rfl <;> decide +kernel
  obtain ⟨n, hrun, hn⟩ := exists_of_map_eq_ok
    (x := TimerCall.run ⟨fun _ => 0, fun _ => 1⟩ (.new "app" "a") suspectCalls)
    (F := fun n => (n.memberlist.entry "x", n.memberlist.entry "y", n.suspicion.timers "z"))
    (b := (some ⟨"x", alive, 2⟩, some ⟨"y", faulty, 1⟩, some ⟨1, false⟩)) (by decide +kernel)
  obtain ⟨hx, hy, hz⟩ : n.memberlist.entry "x" = some ⟨"x", alive, 2⟩ ∧
    n.memberlist.entry "y" = some ⟨"y", faulty, 1⟩ ∧
    n.suspicion.timers "z" = some ⟨1, false⟩ := by simpa using hn
  have htidy := (timers_are_of_suspects _ "app" "a" suspectCalls hvalid).1 n hrun
  have hnone (x : String) (member : Member) (hentry : n.memberlist.entry x = some member)
      (hstatus : member.status ≠ suspect) : n.suspicion.timers x = none := by
    by_contra hne
    obtain ⟨t, ht⟩ := Option.ne_none_iff_exists'.1 hne
    obtain ⟨-, member', hentry', hsuspect⟩ := htidy.ofSuspect x t ht
    obtain rfl := Option.some.inj (hentry.symm.trans hentry')
    exact hstatus hsuspect
  exact ⟨n, hrun, hnone "x" _ hx (by decide), hnone "y" _ hy (by decide), hz⟩

end Swim
end Ringpop
