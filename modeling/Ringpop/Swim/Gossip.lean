/-
# The loops of the gossip protocol

`swim/gossip.go`: `Start` sets the flag `stopped` to false and starts two goroutines, one
that runs protocol periods and one that adjusts their rate; both look at the flag each time
round and end when it is set.  `Stop` only sets it.  The functions are called from
`Node.Start`, `Node.Stop`, `Node.Bootstrap` and the admin handlers, at any time and from
any goroutine, so each of their reads and writes of the flag is a step of its own here.

A loop that sleeps while `Stop` and then `Start` are called does not see that the flag was
set: it goes on, beside the loop that the second `Start` has started
(`two_period_loops`).  If `Start` never sets the flag back while an earlier loop has not
ended, there is one loop at most (`one_period_loop`).

How long the loops sleep is left out: a thread waits for as long as the others take steps.
-/

import Ringpop.Concurrency.Threads

namespace Ringpop
namespace Swim

open Threads

/-- What the gossip keeps, of what its loops and its callers share. -/
structure Gossip where
  stopped : Bool
  numPeriods : ℕ
deriving DecidableEq, Repr

/-- `newGossip`. -/
def Gossip.new : Gossip := ⟨true, 0⟩

/-- `ProtocolPeriod`, as far as the gossip itself goes. -/
def Gossip.protocolPeriod (g : Gossip) : Gossip := { g with numPeriods := g.numPeriods + 1 }

/-- The calls. -/
inductive GossipCall where
  | start
  | stop
  | gossipHandler
deriving DecidableEq, Repr

/-- Where a goroutine is: about to do what the place is named after. -/
inductive GossipPlace where
  -- `Start`
  | startTest
  | startSetStopped
  | runProtocolRateLoop
  | runProtocolPeriodLoop
  -- `Stop`
  | stopTest
  | stopSetStopped
  -- `gossipHandler`
  | handlerTest
  -- the goroutine of `RunProtocolPeriodLoop`
  | periodTest
  | protocolPeriod
  | periodSleep
  -- the goroutine of `RunProtocolRateLoop`
  | rateTest
  | rateSleep
  | ended
deriving DecidableEq, Repr

namespace GossipPlace

/-- In the goroutine of `RunProtocolPeriodLoop`, which has not ended. -/
def isPeriodLoop : GossipPlace → Bool
  | periodTest => true
  | protocolPeriod => true
  | periodSleep => true
  | _ => false

/-- In a `Start` that has set the flag, and has not started its period loop yet. -/
def isStarting : GossipPlace → Bool
  | runProtocolRateLoop => true
  | runProtocolPeriodLoop => true
  | _ => false

/-- A period loop, or a `Start` that is about to start one. -/
def bringsLoop (place : GossipPlace) : Bool := place.isPeriodLoop || place.isStarting

end GossipPlace

/-- Where a call begins. -/
def GossipCall.enter : GossipCall → GossipPlace
  | start => .startTest
  | stop => .stopTest
  | gossipHandler => .handlerTest

/-- What a goroutine does next, and the goroutines that it starts. -/
def GossipPlace.next (g : Gossip) : GossipPlace → Option (Gossip × GossipPlace × List GossipPlace)
  | startTest => some (g, if g.stopped then startSetStopped else ended, [])
  | startSetStopped => some ({ g with stopped := false }, runProtocolRateLoop, [])
  | runProtocolRateLoop => some (g, runProtocolPeriodLoop, [rateTest])
  | runProtocolPeriodLoop => some (g, ended, [periodTest])
  | stopTest => some (g, if g.stopped then ended else stopSetStopped, [])
  | stopSetStopped => some ({ g with stopped := true }, ended, [])
  | handlerTest => some (g, if g.stopped then startTest else stopTest, [])
  | periodTest => some (g, if g.stopped then ended else protocolPeriod, [])
  | protocolPeriod => some (g.protocolPeriod, periodSleep, [])
  | periodSleep => some (g, periodTest, [])
  | rateTest => some (g, if g.stopped then ended else rateSleep, [])
  | rateSleep => some (g, rateTest, [])
  | ended => none

/-- The code of the gossip. -/
def gossipCode : Code Gossip GossipPlace GossipCall where
  enter := GossipCall.enter
  next _ place g := place.next g

/-- A new gossip, before any call. -/
def gossipNew : State Gossip GossipPlace := ⟨.new, []⟩

/-! ### Calls that nothing comes between -/

/-- `Start`, without the loops that it starts. -/
def Gossip.start (g : Gossip) : Gossip := if g.stopped then { g with stopped := false } else g

/-- `Stop`. -/
def Gossip.stop (g : Gossip) : Gossip := if g.stopped then g else { g with stopped := true }

theorem Gossip.stop_stopped (g : Gossip) : g.stop.stopped = true := by
  rw [Gossip.stop]
  split_ifs with h
  · exact h
  · rfl

/-- The loops that `Start` starts. -/
def Gossip.loops (g : Gossip) : List GossipPlace :=
  if g.stopped then [.rateTest, .periodTest] else []

/-- **A call of `Start`** whose steps follow each other. -/
theorem reaches_start (s : State Gossip GossipPlace) :
    gossipCode.Reaches (fun _ _ => True) s
      ⟨s.data.start, s.threads ++ .ended :: s.data.loops⟩ := by
  obtain ⟨g, threads⟩ := s
  have hcall : gossipCode.step ⟨g, threads⟩ (.call .start) =
      some ⟨g, threads ++ [.startTest]⟩ := rfl
  cases hg : g.stopped with
  | false =>
    have htest : gossipCode.next threads.length .startTest g = some (g, .ended, []) := by
      simp [gossipCode, GossipPlace.next, hg]
    simp only [Gossip.start, Gossip.loops, hg]
    exact (Code.Reaches.refl.step trivial hcall).step trivial (Code.step_run_append htest)
  | true =>
    have htest : gossipCode.next threads.length .startTest g = some (g, .startSetStopped, []) := by
      simp [gossipCode, GossipPlace.next, hg]
    simp only [Gossip.start, Gossip.loops, hg]
    have hset : gossipCode.Reaches (fun _ _ => True) ⟨g, threads⟩
        ⟨g, threads ++ [.startSetStopped]⟩ :=
      (Code.Reaches.refl.step trivial hcall).step trivial (Code.step_run_append htest)
    have hrate := hset.step trivial (Code.step_run_append rfl)
    have hperiod := hrate.step trivial (Code.step_run_append rfl)
    exact hperiod.step trivial (Code.step_run_append rfl)

/-- **A call of `Stop`** whose steps follow each other. -/
theorem reaches_stop (s : State Gossip GossipPlace) :
    gossipCode.Reaches (fun _ _ => True) s ⟨s.data.stop, s.threads ++ [.ended]⟩ := by
  obtain ⟨g, threads⟩ := s
  have hcall : gossipCode.step ⟨g, threads⟩ (.call .stop) = some ⟨g, threads ++ [.stopTest]⟩ := rfl
  cases hg : g.stopped with
  | true =>
    have htest : gossipCode.next threads.length .stopTest g = some (g, .ended, []) := by
      simp [gossipCode, GossipPlace.next, hg]
    simp only [Gossip.stop, hg]
    exact (Code.Reaches.refl.step trivial hcall).step trivial (Code.step_run_append htest)
  | false =>
    have htest : gossipCode.next threads.length .stopTest g = some (g, .stopSetStopped, []) := by
      simp [gossipCode, GossipPlace.next, hg]
    simp only [Gossip.stop, hg]
    have hset : gossipCode.Reaches (fun _ _ => True) ⟨g, threads⟩
        ⟨g, threads ++ [.stopSetStopped]⟩ :=
      (Code.Reaches.refl.step trivial hcall).step trivial (Code.step_run_append htest)
    exact hset.step trivial (Code.step_run_append rfl)

/-! ### One loop -/

/-- Two period loops have not ended while the gossip is started: both are going to run
another protocol period. -/
def TwoPeriodLoops (s : State Gossip GossipPlace) : Prop :=
  s.data.stopped = false ∧ ∃ (i j : ℕ) (place place' : GossipPlace), i ≠ j ∧
    s.threads[i]? = some place ∧ place.isPeriodLoop = true ∧
    s.threads[j]? = some place' ∧ place'.isPeriodLoop = true

/-- A `Start` does not set the flag back while a period loop has not ended, or while another
`Start` is about to start one. -/
def RestartsAlone (s : State Gossip GossipPlace) : Event GossipCall → Prop
  | .call _ => True
  | .run i => s.threads[i]? = some .startSetStopped →
      ∀ place ∈ s.threads, place.bringsLoop = false

instance (s : State Gossip GossipPlace) (e : Event GossipCall) : Decidable (RestartsAlone s e) :=
  match e with
  | .call _ => .isTrue trivial
  | .run _ => inferInstanceAs (Decidable (_ → _))

section one

variable {g g' : Gossip} {place place' : GossipPlace} {started : List GossipPlace}
  {s s' : State Gossip GossipPlace} {e : Event GossipCall} {i : ℕ}

/-- **One goroutine** that goes on adds no period loop, unless it sets the flag back. -/
theorem GossipPlace.next_le (h : place.next g = some (g', place', started))
    (hplace : place ≠ .startSetStopped) :
    place'.bringsLoop.toNat + started.countP bringsLoop ≤ place.bringsLoop.toNat := by
  cases place with
  | startSetStopped => exact absurd rfl hplace
  | ended => cases h
  | _ =>
    simp only [next, Option.some.injEq, Prod.mk.injEq] at h
    obtain ⟨-, rfl, rfl⟩ := h
    cases g.stopped <;> decide

/-- `Start` sets the flag back. -/
theorem eq_of_startSetStopped (hplace : s.threads[i]? = some .startSetStopped)
    (hstep : gossipCode.step s (.run i) = some s') :
    s' = ⟨{ s.data with stopped := false }, s.threads.set i .runProtocolRateLoop ++ []⟩ :=
  Option.some.inj (hstep.symm.trans (Code.step_run.2 ⟨_, _, _, _, hplace, rfl, rfl⟩))

/-- **One step** keeps the number of period loops, with those about to be started, at one at
most. -/
theorem count_step (h : Code.count GossipPlace.bringsLoop s ≤ 1) (he : RestartsAlone s e)
    (hstep : gossipCode.step s e = some s') : Code.count GossipPlace.bringsLoop s' ≤ 1 := by
  cases e with
  | call c =>
    obtain rfl := Code.step_call.1 hstep
    rw [Code.count_call]
    cases c <;> exact h
  | run i =>
    by_cases hset : s.threads[i]? = some .startSetStopped
    · have hzero : Code.count GossipPlace.bringsLoop s = 0 :=
        List.countP_eq_zero.2 fun p hp => by simp [he hset p hp]
      obtain rfl := eq_of_startSetStopped hset hstep
      have hcount := Code.count_run GossipPlace.bringsLoop hset { s.data with stopped := false }
        .runProtocolRateLoop []
      rw [hzero] at hcount
      exact Nat.le_of_eq hcount
    · obtain ⟨place, g', place', started, hplace, hnext, rfl⟩ := Code.step_run.1 hstep
      have hle := GossipPlace.next_le hnext fun h => hset (h ▸ hplace)
      have hcount := Code.count_run GossipPlace.bringsLoop hplace g' place' started
      omega

/-- A `Start` that has set the flag goes on to start its period loop. -/
theorem exists_loop_of_starting (hplace : s.threads[i]? = some place)
    (hstarting : place.isStarting = true) :
    ∃ s' k, gossipCode.Reaches (fun _ _ => True) s s' ∧ s'.data = s.data ∧
      s.threads.length ≤ k ∧ s'.threads[k]? = some .periodTest ∧
      ∀ j, i ≠ j → ∀ q, s.threads[j]? = some q → s'.threads[j]? = some q := by
  have hloop {s : State Gossip GossipPlace} (h : s.threads[i]? = some .runProtocolPeriodLoop) :
      gossipCode.step s (.run i) = some ⟨s.data, s.threads.set i .ended ++ [.periodTest]⟩ :=
    Code.step_run.2 ⟨_, _, _, _, h, rfl, rfl⟩
  cases place with
  | runProtocolPeriodLoop =>
    exact ⟨_, s.threads.length, .step .refl trivial (hloop hplace), rfl, Nat.le_refl _,
      Code.getElem?_started .., fun j hij q hq => Code.getElem?_of_ne hij hq⟩
  | runProtocolRateLoop =>
    have hrate : gossipCode.step s (.run i) =
        some ⟨s.data, s.threads.set i .runProtocolPeriodLoop ++ [.rateTest]⟩ :=
      Code.step_run.2 ⟨_, _, _, _, hplace, rfl, rfl⟩
    refine ⟨_, _, .step (.step .refl trivial hrate) trivial (hloop (Code.getElem?_self hplace)),
      rfl, ?_, Code.getElem?_started .., fun j hij q hq => ?_⟩
    · simp
    · exact Code.getElem?_of_ne hij (Code.getElem?_of_ne hij hq)
  | _ => cases hstarting

/-- **A restart that is not alone** can go on to two period loops. -/
theorem exists_twoPeriodLoops (hstep : gossipCode.step s e = some s') (he : ¬ RestartsAlone s e) :
    ∃ s'', gossipCode.Reaches (fun _ _ => True) s' s'' ∧ TwoPeriodLoops s'' := by
  cases e with
  | call c => exact absurd trivial he
  | run i =>
    rw [RestartsAlone] at he
    push Not at he
    obtain ⟨hi, place, hmem, hplace⟩ := he
    obtain ⟨j, hj⟩ := List.mem_iff_getElem?.1 hmem
    have hij : i ≠ j := by
      rintro rfl
      rw [hi] at hj
      obtain rfl := Option.some.inj hj
      exact hplace rfl
    have hs' := eq_of_startSetStopped hi hstep
    have hi' : s'.threads[i]? = some .runProtocolRateLoop := by
      rw [hs']
      exact Code.getElem?_self hi
    have hj' : s'.threads[j]? = some place := by
      rw [hs']
      exact Code.getElem?_of_ne hij hj
    have hstarted : s'.data.stopped = false := by rw [hs']
    obtain ⟨s₂, k, hs₂, hdata, hk, hloop, hothers⟩ := exists_loop_of_starting hi' rfl
    have hj₂ := hothers j hij place hj'
    have hlt : j < k := Nat.lt_of_lt_of_le (List.getElem?_eq_some_iff.1 hj').1 hk
    rw [Ne, Bool.not_eq_false, GossipPlace.bringsLoop, Bool.or_eq_true] at hplace
    rcases hplace with hplace | hplace
    · exact ⟨s₂, hs₂, by rw [hdata, hstarted], j, k, place, _, Nat.ne_of_lt hlt, hj₂, hplace, hloop,
        rfl⟩
    · -- the other `Start` goes on as well
      obtain ⟨s₃, k', hs₃, hdata', hk', hloop', hothers'⟩ := exists_loop_of_starting hj₂ hplace
      have hlt' : k < k' := Nat.lt_of_lt_of_le (List.getElem?_eq_some_iff.1 hloop).1 hk'
      exact ⟨s₃, hs₂.trans hs₃, by rw [hdata', hdata, hstarted], k, k', _, _, Nat.ne_of_lt hlt',
        hothers' k (Nat.ne_of_lt hlt) _ hloop, rfl, hloop', rfl⟩

end one

/-- **One period loop at most.**  For any calls and any interleaving: if each `Start` sets the
flag back only when every period loop has ended and no other `Start` is about to start one,
there are never two period loops while the gossip is started.  After a step that does not
keep to it there may be two. -/
theorem one_period_loop (s : State Gossip GossipPlace) :
    (gossipCode.Reaches RestartsAlone gossipNew s → ¬ TwoPeriodLoops s) ∧
    ∀ e s', gossipCode.step s e = some s' → ¬ RestartsAlone s e →
      ∃ s'', gossipCode.Reaches (fun _ _ => True) s' s'' ∧ TwoPeriodLoops s'' := by
  refine ⟨fun hs => ?_, fun e s' hstep he => exists_twoPeriodLoops hstep he⟩
  rintro ⟨-, i, j, place, place', hij, hi, hplace, hj, hplace'⟩
  have hcount : Code.count GossipPlace.bringsLoop s ≤ 1 :=
    hs.invariant (I := fun s => Code.count GossipPlace.bringsLoop s ≤ 1) (by decide)
      fun s e s' h he hstep => count_step h he hstep
  refine hij (Code.eq_of_count_le_one hcount hi ?_ hj ?_)
  · rw [GossipPlace.bringsLoop, hplace, Bool.true_or]
  · rw [GossipPlace.bringsLoop, hplace', Bool.true_or]

/-- A loop that has ended before `Start` is called again. -/
theorem one_period_loop_restarted :
    ∃ s, gossipCode.run RestartsAlone gossipNew [.call .start, .run 0, .run 0, .run 0, .run 0,
        .run 2, .run 2, .call .stop, .run 3, .run 3, .run 2, .run 2,
        .call .start, .run 4, .run 4, .run 4, .run 4, .run 6] = some s ∧
      s.data = ⟨false, 1⟩ ∧ s.threads[6]? = some .protocolPeriod ∧ ¬ TwoPeriodLoops s := by
  have heval : gossipCode.run RestartsAlone gossipNew [.call .start, .run 0, .run 0, .run 0,
      .run 0, .run 2, .run 2, .call .stop, .run 3, .run 3, .run 2, .run 2,
      .call .start, .run 4, .run 4, .run 4, .run 4, .run 6] =
        some ⟨⟨false, 1⟩, [.ended, .rateTest, .ended, .ended, .ended, .rateTest,
          .protocolPeriod]⟩ := by
    decide
  exact ⟨_, heval, rfl, rfl, (one_period_loop _).1 (Code.reaches_of_run .refl heval)⟩

/-- **Two period loops**: the gossip is stopped and started again while its loop sleeps; both
loops are about to run a protocol period. -/
theorem two_period_loops :
    ∃ s, gossipCode.run (fun _ _ => True) gossipNew [.call .start, .run 0, .run 0, .run 0, .run 0,
        .run 2, .run 2, .call .stop, .run 3, .run 3,
        .call .start, .run 4, .run 4, .run 4, .run 4, .run 2, .run 2, .run 6] = some s ∧
      gossipCode.Reaches (fun _ _ => True) gossipNew s ∧ TwoPeriodLoops s ∧
      s.threads[2]? = some .protocolPeriod ∧ s.threads[6]? = some .protocolPeriod := by
  have heval : gossipCode.run (fun _ _ => True) gossipNew [.call .start, .run 0, .run 0, .run 0,
      .run 0, .run 2, .run 2, .call .stop, .run 3, .run 3,
      .call .start, .run 4, .run 4, .run 4, .run 4, .run 2, .run 2, .run 6] =
        some ⟨⟨false, 1⟩, [.ended, .rateTest, .protocolPeriod, .ended, .ended, .rateTest,
          .protocolPeriod]⟩ := by
    decide
  exact ⟨_, heval, Code.reaches_of_run .refl heval,
    ⟨rfl, 2, 6, .protocolPeriod, .protocolPeriod, by decide, rfl, rfl, rfl, rfl⟩, rfl, rfl⟩

end Swim
end Ringpop
