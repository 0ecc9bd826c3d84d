/-
# The delays between join attempts

`swim/join_delayer.go`.  Between two attempts to join a cluster a node sleeps, longer from one
attempt to the next: `delay` draws a number of milliseconds between the bound of the last call
and its own, `initialDelay * 2^numDelays`, and no bound is above `maxDelay`.  Once two bounds
are the same nothing is drawn any more.

The code computes the bounds as floats; here they are the integers that the floats stand for,
without their rounding and without their infinities.  The counter `numDelays` is as exact: a
`uint` of `w` bits gives the same for the first `2^w` calls (`afterUint_eq`), and then starts
again from 0.  A randomizer has a state of its own, so its answer may depend on the numbers it
has been called with before.  What `delay` does besides is kept in the delayer: what the
randomizer and the sleeper have been called with, and the warnings.

One call keeps the delayer in pace with the bounds (`Paced.delay`), so every call does
(`Paced.after`), and the delays climb from bound to bound (`delays_climb_to_max`).
-/

import Mathlib.Data.Int.ConditionallyCompleteOrder
import Mathlib.Tactic.Linarith
import Ringpop.Swim.JoinSender

namespace Ringpop
namespace Swim

open CellStore

/-- `time.Millisecond`. -/
def millisecond : ℤ := 1000000

/-- `util.MS`: the milliseconds of a duration. -/
def ms (d : ℤ) : ℤ := d.tdiv 1000000

theorem ms_nonneg {d : ℤ} (h : 0 ≤ d) : 0 ≤ ms d := Int.tdiv_nonneg h (by decide)

/-- The milliseconds of a duration are not longer than it. -/
theorem ms_mul_millisecond_le {d : ℤ} (h : 0 ≤ d) : ms d * millisecond ≤ d := by
  rw [ms, Int.tdiv_eq_ediv_of_nonneg h]
  exact Int.ediv_mul_le d (by decide)

/-- `delayRandomizer`, with the numbers it has been called with before. -/
abbrev DelayRandomizer := List ℤ → ℤ → ℤ

/-- What `delay` expects of a randomizer: a number below its bound. -/
def DelayRandomizer.InRange (randomizer : DelayRandomizer) : Prop :=
  ∀ drawn n, 0 < n → 0 ≤ randomizer drawn n ∧ randomizer drawn n < n

/-- `delayOpts`, without the sleeper. -/
structure DelayOpts where
  initial : ℤ
  max : ℤ
  randomizer : Option DelayRandomizer

/-- `newDelayOpts`. -/
def newDelayOpts (defaultRandomizer : DelayRandomizer) : DelayOpts where
  initial := 100 * millisecond
  max := 60000 * millisecond
  randomizer := some defaultRandomizer

/-- The fields of the warning that the delay has reached its maximum. -/
structure DelayWarning where
  numDelays : ℕ
  initialDelay : ℤ
  minDelay : ℤ
  maxDelay : ℤ
  uncappedDelay : ℤ
  cappedDelay : ℤ
  jitteredDelay : ℤ
deriving DecidableEq, Repr

/-- `exponentialDelayer`, with what its randomizer (`drawn`), its sleeper (`slept`) and its
logger (`warned`) have been called with. -/
structure ExponentialDelayer where
  initialDelay : ℤ
  maxDelay : ℤ
  maxDelayReached : Bool
  nextDelayMin : ℤ
  randomizer : DelayRandomizer
  numDelays : ℕ
  drawn : List ℤ
  slept : List ℤ
  warned : List DelayWarning

/-- `newExponentialDelayer`. -/
def newExponentialDelayer (defaultRandomizer : DelayRandomizer) (opts : Option DelayOpts) :
    ExponentialDelayer :=
  let opts := opts.getD (newDelayOpts defaultRandomizer)
  { initialDelay := opts.initial
    nextDelayMin := 0
    maxDelayReached := false
    maxDelay := opts.max
    randomizer := opts.randomizer.getD defaultRandomizer
    numDelays := 0
    drawn := []
    slept := []
    warned := [] }

namespace ExponentialDelayer

/-- `delay`. -/
def delay (d : ExponentialDelayer) : ℤ × ExponentialDelayer :=
  let initialDelayMs := ms d.initialDelay
  let maxDelayMs := ms d.maxDelay
  let uncappedDelay := initialDelayMs * 2 ^ d.numDelays
  let cappedDelay := min maxDelayMs uncappedDelay
  -- no more jitter once the bound does not move
  let still := decide (cappedDelay = d.nextDelayMin)
  let span := cappedDelay - d.nextDelayMin
  let jitteredDelay :=
    if still then cappedDelay else d.randomizer d.drawn span + d.nextDelayMin
  let reaches := decide (uncappedDelay ≥ maxDelayMs) && !d.maxDelayReached
  let warning : DelayWarning :=
    { numDelays := d.numDelays
      initialDelay := d.initialDelay
      minDelay := d.nextDelayMin
      maxDelay := d.maxDelay
      uncappedDelay := uncappedDelay
      cappedDelay := cappedDelay
      jitteredDelay := jitteredDelay }
  let sleepDuration := jitteredDelay * millisecond
  (sleepDuration,
    { d with
      maxDelayReached := if reaches then true else d.maxDelayReached
      nextDelayMin := cappedDelay
      numDelays := d.numDelays + 1
      drawn := if still then d.drawn else d.drawn ++ [span]
      slept := d.slept ++ [sleepDuration]
      warned := if reaches then d.warned ++ [warning] else d.warned })

/-- The delayer after `k` calls of `delay`. -/
def after (d : ExponentialDelayer) : ℕ → ExponentialDelayer
  | 0 => d
  | k + 1 => (d.after k).delay.2

/-- The upper bound of the `k`th delay, in milliseconds. -/
def cap (d : ExponentialDelayer) (k : ℕ) : ℤ := min (ms d.maxDelay) (ms d.initialDelay * 2 ^ k)

/-- The lower bound of the `k`th delay: the upper bound of the one before. -/
def floor (d : ExponentialDelayer) : ℕ → ℤ
  | 0 => 0
  | k + 1 => d.cap k

/-! ### The bounds -/

variable {d d₀ : ExponentialDelayer} {k : ℕ}

theorem uncapped_mono (h : 0 ≤ ms d.initialDelay) :
    Monotone fun k => ms d.initialDelay * 2 ^ k := by
  refine monotone_nat_of_le_succ fun k => ?_
  have hk : 0 ≤ ms d.initialDelay * 2 ^ k := mul_nonneg h (pow_nonneg (by decide) k)
  rw [pow_succ]
  linarith

theorem cap_mono (h : 0 ≤ ms d.initialDelay) : Monotone d.cap := fun _ _ hij =>
  min_le_min_left _ (uncapped_mono h hij)

theorem cap_nonneg (h : 0 ≤ ms d.initialDelay) (hmax : 0 ≤ ms d.maxDelay) (k : ℕ) :
    0 ≤ d.cap k :=
  le_min hmax (mul_nonneg h (pow_nonneg (by decide) k))

theorem min_eq_cap (d : ExponentialDelayer) (k : ℕ) :
    min (ms d.maxDelay) (ms d.initialDelay * 2 ^ k) = d.cap k := rfl

theorem cap_le_max (d : ExponentialDelayer) (k : ℕ) : d.cap k ≤ ms d.maxDelay := min_le_left _ _

/-- The bounds do not go down. -/
theorem floor_le_cap (h : 0 ≤ ms d.initialDelay) (hmax : 0 ≤ ms d.maxDelay) (k : ℕ) :
    d.floor k ≤ d.cap k := by
  cases k with
  | zero => exact cap_nonneg h hmax 0
  | succ k => exact cap_mono h k.le_succ

/-! ### One call -/

/-- A delayer that has started as `d₀` and has been called `k` times. -/
structure Paced (d₀ : ExponentialDelayer) (k : ℕ) (d : ExponentialDelayer) : Prop where
  initialDelay : d.initialDelay = d₀.initialDelay
  maxDelay : d.maxDelay = d₀.maxDelay
  randomizer : d.randomizer = d₀.randomizer
  numDelays : d.numDelays = k
  nextDelayMin : d.nextDelayMin = d₀.floor k
  drawn : ∀ n ∈ d.drawn, 0 < n
  reached : d.maxDelayReached = true ↔ ∃ j < k, ms d₀.maxDelay ≤ ms d₀.initialDelay * 2 ^ j
  warned : d.warned.length = d.maxDelayReached.toNat

/-- A new delayer. -/
theorem paced_new (defaultRandomizer : DelayRandomizer) (opts : Option DelayOpts) :
    Paced (newExponentialDelayer defaultRandomizer opts) 0
      (newExponentialDelayer defaultRandomizer opts) where
  initialDelay := rfl
  maxDelay := rfl
  randomizer := rfl
  numDelays := rfl
  nextDelayMin := rfl
  drawn _ hn := absurd hn List.not_mem_nil
  reached := by simp [newExponentialDelayer]
  warned := rfl

section

variable (h : 0 ≤ ms d₀.initialDelay) (hmax : 0 ≤ ms d₀.maxDelay) (hr : d₀.randomizer.InRange)
include h hmax

/-- **What is drawn from** is not empty: if the bound moves, it moves up. -/
theorem span_pos (hne : d₀.cap k ≠ d₀.floor k) : 0 < d₀.cap k - d₀.floor k := by
  have := floor_le_cap h hmax k
  omega

/-- **One call** leaves the delayer in pace. -/
theorem Paced.delay (hd : Paced d₀ k d) : Paced d₀ (k + 1) d.delay.2 where
  initialDelay := hd.initialDelay
  maxDelay := hd.maxDelay
  randomizer := hd.randomizer
  numDelays := congrArg (· + 1) hd.numDelays
  nextDelayMin := by
    show min (ms d.maxDelay) (ms d.initialDelay * 2 ^ d.numDelays) = d₀.cap k
    rw [hd.maxDelay, hd.initialDelay, hd.numDelays, min_eq_cap]
  drawn := by
    intro n hn
    simp only [ExponentialDelayer.delay, hd.maxDelay, hd.initialDelay, hd.numDelays,
      hd.nextDelayMin, min_eq_cap, decide_eq_true_eq] at hn
    split_ifs at hn with hstill
    · exact hd.drawn n hn
    · rw [List.mem_append, List.mem_singleton] at hn
      rcases hn with hn | rfl
      · exact hd.drawn n hn
      · exact span_pos h hmax hstill
  reached := by
    rw [Nat.exists_lt_succ_right, ← hd.reached]
    simp only [ExponentialDelayer.delay, hd.maxDelay, hd.initialDelay, hd.numDelays]
    cases d.maxDelayReached <;> simp
  warned := by
    simp only [ExponentialDelayer.delay]
    have := hd.warned
    cases hflag : d.maxDelayReached <;> split_ifs <;> simp_all

include hr

/-- **The delay of one call** is between the bounds. -/
theorem Paced.delay_between (hd : Paced d₀ k d) :
    ∃ j, d.delay.1 = j * millisecond ∧ d₀.floor k ≤ j ∧ j ≤ d₀.cap k := by
  refine ⟨_, rfl, ?_⟩
  simp only [hd.maxDelay, hd.initialDelay, hd.numDelays, hd.nextDelayMin, hd.randomizer, min_eq_cap,
    decide_eq_true_eq]
  split_ifs with hstill
  · exact ⟨hstill.ge, le_rfl⟩
  · obtain ⟨hlow, hhigh⟩ := hr d.drawn _ (span_pos h hmax hstill)
    exact ⟨by omega, by omega⟩

end

/-! ### Any number of calls -/

/-- **Every number of calls** leaves the delayer in pace. -/
theorem Paced.after (h : 0 ≤ ms d.initialDelay) (hmax : 0 ≤ ms d.maxDelay) (hd : Paced d 0 d)
    (k : ℕ) : Paced d k (d.after k) := by
  induction k with
  | zero => exact hd
  | succ k ih => exact ih.delay h hmax

/-- **Every delay** is between its bounds, and not above the maximum. -/
theorem Paced.after_between (hinitial : 0 ≤ d.initialDelay) (hmax : 0 ≤ d.maxDelay)
    (hr : d.randomizer.InRange) (hd : Paced d 0 d) (k : ℕ) :
    d.floor k * millisecond ≤ (d.after k).delay.1 ∧
      (d.after k).delay.1 ≤ d.cap k * millisecond ∧ (d.after k).delay.1 ≤ d.maxDelay := by
  have h₀ := ms_nonneg hinitial
  have hmax₀ := ms_nonneg hmax
  obtain ⟨j, hj, hlow, hhigh⟩ := (hd.after h₀ hmax₀ k).delay_between h₀ hmax₀ hr
  have hcap : (d.after k).delay.1 ≤ d.cap k * millisecond := by
    rw [hj]
    exact mul_le_mul_of_nonneg_right hhigh (by decide)
  refine ⟨?_, hcap, hcap.trans ?_⟩
  · rw [hj]
    exact mul_le_mul_of_nonneg_right hlow (by decide)
  · calc d.cap k * millisecond
      _ ≤ ms d.maxDelay * millisecond :=
          mul_le_mul_of_nonneg_right (cap_le_max d k) (by decide)
      _ ≤ d.maxDelay := ms_mul_millisecond_le hmax

/-- The node sleeps for the delays. -/
theorem slept_after (d : ExponentialDelayer) (k : ℕ) :
    (d.after k).slept = d.slept ++ (List.range k).map fun i => (d.after i).delay.1 := by
  induction k with
  | zero => simp [after]
  | succ k ih =>
    show (d.after k).slept ++ [(d.after k).delay.1] = _
    rw [ih, List.range_succ, List.map_append, List.append_assoc]
    rfl

/-- A call of `delay` that counts on a `uint` of `w` bits. -/
def delayUint (w : ℕ) (d : ExponentialDelayer) : ℤ × ExponentialDelayer :=
  (d.delay.1, { d.delay.2 with numDelays := d.delay.2.numDelays % 2 ^ w })

/-- The delayer after `k` such calls. -/
def afterUint (w : ℕ) (d : ExponentialDelayer) : ℕ → ExponentialDelayer
  | 0 => d
  | k + 1 => ((d.afterUint w k).delayUint w).2

theorem numDelays_after (d : ExponentialDelayer) (k : ℕ) :
    (d.after k).numDelays = d.numDelays + k := by
  induction k with
  | zero => rfl
  | succ k ih =>
    show (d.after k).numDelays + 1 = d.numDelays + (k + 1)
    rw [ih, Nat.add_assoc]

/-- **A counter of `w` bits** is exact for the first `2^w` calls. -/
theorem afterUint_eq {w : ℕ} (hd : d.numDelays = 0) (hk : k < 2 ^ w) :
    d.afterUint w k = d.after k ∧ ((d.afterUint w k).delayUint w).1 = (d.after k).delay.1 := by
  have heq : d.afterUint w k = d.after k := by
    induction k with
    | zero => rfl
    | succ k ih =>
      have hcount : ((d.after k).delay.2).numDelays = k + 1 := by
        rw [← after, numDelays_after, hd, Nat.zero_add]
      rw [afterUint, ih (by omega), delayUint, hcount, Nat.mod_eq_of_lt hk, after, ← hcount]
  exact ⟨heq, by rw [heq]; rfl⟩

end ExponentialDelayer

/-! ### The delays of `JoinCluster` -/

/-- One time round the loop of `JoinCluster`, with the delay at its end. -/
def Joining.stepDelayed (pr : Primitives) (s : Joining × ExponentialDelayer) (a : JoinAttempt) :
    Except JoinEnd (Joining × ExponentialDelayer) := do
  let joining ← s.1.step pr a
  return (joining, s.2.delay.2)

/-- **The delays leave the joining alone**, and every attempt that does not end it is followed
by the next one. -/
theorem foldlM_stepDelayed (pr : Primitives) (s : Joining) (d : ExponentialDelayer) (k : ℕ)
    (attempts : List JoinAttempt) :
    attempts.foldlM (Joining.stepDelayed pr) (s, d.after k) =
      (fun s' => (s', d.after (k + attempts.length))) <$> attempts.foldlM (Joining.step pr) s := by
  induction attempts generalizing s k with
  | nil => rfl
  | cons a attempts ih =>
    rw [List.foldlM_cons, List.foldlM_cons, Joining.stepDelayed]
    cases s.step pr a with
    | error e => rfl
    | ok s' =>
      show attempts.foldlM (Joining.stepDelayed pr) (s', d.after (k + 1)) =
        (fun s' => (s', d.after (k + (attempts.length + 1)))) <$>
          attempts.foldlM (Joining.step pr) s'
      rw [ih, Nat.add_right_comm, Nat.add_assoc]

/-- **A node that has not joined yet** has slept once for each attempt, and never for longer than
the maximum. -/
theorem slept_of_foldlM_stepDelayed {pr : Primitives} {s s' : Joining} {d d' : ExponentialDelayer}
    {attempts : List JoinAttempt} (hinitial : 0 ≤ d.initialDelay) (hmax : 0 ≤ d.maxDelay)
    (hr : d.randomizer.InRange) (hd : d.Paced 0 d) (hslept : d.slept = [])
    (hrun : attempts.foldlM (Joining.stepDelayed pr) (s, d) = .ok (s', d')) :
    attempts.foldlM (Joining.step pr) s = .ok s' ∧ d'.slept.length = attempts.length ∧
      ∀ t ∈ d'.slept, t ≤ d.maxDelay := by
  have heq := foldlM_stepDelayed pr s d 0 attempts
  rw [ExponentialDelayer.after, hrun, Nat.zero_add] at heq
  obtain ⟨s₁, hs₁, heq⟩ := exists_of_map_eq_ok heq.symm
  obtain ⟨rfl, rfl⟩ := Prod.mk.inj heq
  refine ⟨hs₁, ?_⟩
  rw [ExponentialDelayer.slept_after, hslept, List.nil_append]
  refine ⟨by simp, fun t ht => ?_⟩
  obtain ⟨k, -, rfl⟩ := List.mem_map.1 ht
  exact (hd.after_between hinitial hmax hr k).2.2

open ExponentialDelayer

/-- **The delays climb to the maximum.**  Whatever the randomizer draws, the `k`th delay is
between the bounds `cap (k - 1)` and `cap k`, so the delays do not go down and none is above
the maximum.  The randomizer is asked for numbers below a positive bound only, and the flag is
set from the first call on whose uncapped delay is not below the maximum. -/
theorem delays_climb_to_max (defaultRandomizer : DelayRandomizer) (opts : Option DelayOpts)
    (d : ExponentialDelayer) (hd : d = newExponentialDelayer defaultRandomizer opts)
    (hinitial : 0 ≤ d.initialDelay) (hmax : 0 ≤ d.maxDelay) (hr : d.randomizer.InRange) :
    (∀ k, (if k = 0 then 0 else
          min (ms d.maxDelay) (ms d.initialDelay * 2 ^ (k - 1)) * millisecond) ≤
        (d.after k).delay.1 ∧
      (d.after k).delay.1 ≤ min (ms d.maxDelay) (ms d.initialDelay * 2 ^ k) * millisecond) ∧
    (Monotone fun k => (d.after k).delay.1) ∧
    (∀ k, (d.after k).delay.1 ≤ d.maxDelay) ∧
    (∀ k, ∀ n ∈ (d.after k).drawn, 0 < n) ∧
    ∀ n, (d.after n).maxDelayReached = true ↔
      ∃ k < n, ms d.initialDelay * 2 ^ k ≥ ms d.maxDelay := by
  have hnew : Paced d 0 d := hd ▸ paced_new defaultRandomizer opts
  have hpaced := hnew.after (ms_nonneg hinitial) (ms_nonneg hmax)
  have hbetween := hnew.after_between hinitial hmax hr
  refine ⟨fun k => ?_, monotone_nat_of_le_succ fun k => ?_, fun k => (hbetween k).2.2,
    fun k => (hpaced k).drawn, fun n => (hpaced n).reached⟩
  · obtain ⟨hlow, hhigh, -⟩ := hbetween k
    refine ⟨?_, hhigh⟩
    cases k with
    | zero => simpa [floor] using hlow
    | succ k => exact hlow
  · -- the upper bound of a delay is the lower bound of the next
    exact (hbetween k).2.1.trans (hbetween (k + 1)).1

/-- A tenth of a second at first and a second at most, with a randomizer that draws the middle. -/
theorem delays_climb_to_max_second :
    let opts : DelayOpts := ⟨100 * millisecond, 1000 * millisecond, some fun _ n => n / 2⟩
    let d := newExponentialDelayer (fun _ _ => 0) (some opts)
    d.randomizer.InRange ∧
      ((List.range 6).map fun k => ms (d.after k).delay.1) = [50, 150, 300, 600, 900, 1000] ∧
      (d.after 6).drawn = [100, 100, 200, 400, 200] ∧ (∀ n ∈ (d.after 6).drawn, 0 < n) ∧
      (d.after 4).maxDelayReached = false ∧ (d.after 5).maxDelayReached = true ∧
      Monotone fun k => (d.after k).delay.1 := by
  intro opts d
  have hr : d.randomizer.InRange := fun _ n hn =>
    ⟨Int.ediv_nonneg hn.le (by decide), Int.ediv_lt_self_of_pos_of_ne_one hn (by decide)⟩
  obtain ⟨-, hmono, -, hdrawn, hflag⟩ :=
    delays_climb_to_max (fun _ _ => 0) (some opts) d rfl (by decide) (by decide) hr
  refine ⟨hr, by decide, by decide, hdrawn 6, by decide, (hflag 5).2 ⟨4, by decide, ?_⟩, hmono⟩
  decide

end Swim
end Ringpop
