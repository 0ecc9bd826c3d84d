/-
# The update rollup and its locks

`swim/update_rollup.go` keeps the updates of the member list for a while before it logs
them.  It has three locks: `timings`, `buffer` and `flushTimer`.  `TrackUpdates`, which
`Update` calls, takes `timings` and then, inside it, `flushTimer` and `buffer`;
`FlushBuffer` takes `buffer` and then, inside it, `timings`.  It is called from
`TrackUpdates`, before that takes `timings` for the second time, and from the goroutine of
the flush timer.

A `TrackUpdates` that holds `timings` and a `FlushBuffer` that has found updates and holds
`buffer` wait for each other for ever (`rollup_deadlock`), and this is the only deadlock
there is (`deadlocked_iff`).  If no flush finds updates while a `TrackUpdates` is on
its way from the one lock to the other, nor the other way round, there is none
(`rollup_deadlock_free`).

The time that is read is what a call brings along.  A run of the timer may begin at any
time, whether or not the timer was stopped; the zero time is `none`.
-/

import Ringpop.Collections.Groups
import Ringpop.Concurrency.Locks
import Ringpop.Swim.Member

namespace Ringpop
namespace Swim

open Threads

/-- The locks. -/
inductive RollupLock where
  | timings
  | buffer
  | flushTimer
deriving DecidableEq, Repr

/-- `updateRollup`. -/
structure Rollup where
  flushInterval : ℤ
  updates : Groups String Change
  /-- A timer has been set. -/
  flushTimer : Bool
  firstUpdate : Option ℤ
  lastFlush : Option ℤ
  lastUpdate : Option ℤ
deriving DecidableEq, Repr

namespace Rollup

/-- `newUpdateRollup`. -/
def new (flushInterval : ℤ) : Rollup := ⟨flushInterval, [], false, none, none, none⟩

/-- What `AddUpdates` does to the buffer. -/
def addUpdates (r : Rollup) (changes : List Change) : Rollup :=
  let updates := changes.foldl (fun updates change => Groups.add change.address change updates)
    r.updates
  { r with updates := updates }

/-- The last update was at least a flush interval ago; since the zero time it was. -/
def flushIsDue (r : Rollup) (now : ℤ) : Bool :=
  match r.lastUpdate with
  | none => true
  | some lastUpdate => decide (now - lastUpdate ≥ r.flushInterval)

/-- What `FlushBuffer` does to the buffer and the timings. -/
def flushed (r : Rollup) (now : ℤ) : Rollup :=
  { r with updates := [], lastFlush := some now, firstUpdate := none, lastUpdate := none }

end Rollup

/-- A call of `TrackUpdates`: its changes, the times that are read, and whether it has
flushed. -/
structure Tracking where
  changes : List Change
  now : ℤ
  flushNow : ℤ
  flushed : Bool
deriving DecidableEq, Repr

/-- What goes on after `FlushBuffer` or `RenewFlushTimer`: `TrackUpdates`, or the goroutine of
the timer. -/
inductive RollupCaller where
  | track (t : Tracking)
  | timer (flushNow : ℤ)
deriving DecidableEq, Repr

/-- Where a goroutine is: about to do what the place is named after. -/
inductive RollupPlace where
  -- `TrackUpdates`
  | trackUpdates (t : Tracking)
  | trackLockTimings (t : Tracking)
  | trackReadTimings (t : Tracking)
  | trackUnlockTimings (t : Tracking)
  | trackRelockTimings (t : Tracking)
  | trackFirstUpdate (t : Tracking)
  | trackLastUpdate (t : Tracking)
  | trackUnlockTimingsAgain (t : Tracking)
  | trackReturn (flushed : Bool)
  -- `AddUpdates`
  | addLockBuffer (t : Tracking)
  | addUpdates (t : Tracking)
  | addUnlockBuffer (t : Tracking)
  -- `RenewFlushTimer`
  | renewLockTimer (caller : RollupCaller)
  | renewTimer (caller : RollupCaller)
  | renewUnlockTimer (caller : RollupCaller)
  -- `FlushBuffer`
  | flushLockBuffer (caller : RollupCaller)
  | flushTest (caller : RollupCaller)
  | flushNothing (caller : RollupCaller)
  | flushLockTimings (caller : RollupCaller)
  | flushBuffer (caller : RollupCaller)
  | flushUnlockBuffer (caller : RollupCaller)
  | flushUnlockTimings (caller : RollupCaller)
  -- the goroutine of the timer
  | timerReturn
deriving DecidableEq, Repr

namespace RollupCaller

/-- The time that `FlushBuffer` reads. -/
def flushNow : RollupCaller → ℤ
  | track t => t.flushNow
  | timer flushNow => flushNow

/-- What comes after `FlushBuffer`. -/
def afterFlush : RollupCaller → RollupPlace
  | track t => .trackRelockTimings t
  | timer flushNow => .renewLockTimer (.timer flushNow)

/-- What comes after `RenewFlushTimer`. -/
def afterRenew : RollupCaller → RollupPlace
  | track t => .addLockBuffer t
  | timer _ => .timerReturn

end RollupCaller

/-- The calls: `TrackUpdates`, and the function that the timer runs. -/
inductive RollupCall where
  | trackUpdates (changes : List Change) (now flushNow : ℤ)
  | timer (flushNow : ℤ)

/-- Where a call begins. -/
def RollupCall.enter : RollupCall → RollupPlace
  | trackUpdates changes now flushNow => .trackUpdates ⟨changes, now, flushNow, false⟩
  | timer flushNow => .flushLockBuffer (.timer flushNow)

/-- What is done at a place. -/
def RollupPlace.instr : RollupPlace → Instr Rollup RollupPlace RollupLock
  | trackUpdates t => .act fun r =>
      (r, if t.changes.length = 0 then .trackReturn false else .trackLockTimings t)
  | trackLockTimings t => .lock .timings (.trackReadTimings t)
  | trackReadTimings t => .act fun r =>
      (r, .trackUnlockTimings { t with flushed := r.flushIsDue t.now })
  | trackUnlockTimings t =>
      .unlock .timings (if t.flushed then .flushLockBuffer (.track t) else .trackRelockTimings t)
  | trackRelockTimings t => .lock .timings (.trackFirstUpdate t)
  | trackFirstUpdate t => .act fun r =>
      ({ r with firstUpdate := r.firstUpdate.orElse fun _ => some t.now },
        .renewLockTimer (.track t))
  | addLockBuffer t => .lock .buffer (.addUpdates t)
  | addUpdates t => .act fun r => (r.addUpdates t.changes, .addUnlockBuffer t)
  | addUnlockBuffer t => .unlock .buffer (.trackLastUpdate t)
  | trackLastUpdate t => .act fun r =>
      ({ r with lastUpdate := some t.now }, .trackUnlockTimingsAgain t)
  | trackUnlockTimingsAgain t => .unlock .timings (.trackReturn t.flushed)
  | trackReturn _ => .halt
  | renewLockTimer caller => .lock .flushTimer (.renewTimer caller)
  | renewTimer caller => .act fun r => ({ r with flushTimer := true }, .renewUnlockTimer caller)
  | renewUnlockTimer caller => .unlock .flushTimer caller.afterRenew
  | flushLockBuffer caller => .lock .buffer (.flushTest caller)
  | flushTest caller => .act fun r =>
      (r, if r.updates.length = 0 then .flushNothing caller else .flushLockTimings caller)
  | flushNothing caller => .unlock .buffer caller.afterFlush
  | flushLockTimings caller => .lock .timings (.flushBuffer caller)
  | flushBuffer caller => .act fun r => (r.flushed caller.flushNow, .flushUnlockBuffer caller)
  | flushUnlockBuffer caller => .unlock .buffer (.flushUnlockTimings caller)
  | flushUnlockTimings caller => .unlock .timings caller.afterFlush
  | timerReturn => .halt

/-- The program of the rollup. -/
def rollupProgram : Program Rollup RollupPlace RollupCall RollupLock :=
  ⟨RollupCall.enter, RollupPlace.instr⟩

/-! ### Who holds what -/

/-- The locks that the caller of `RenewFlushTimer` holds. -/
def RollupCaller.held : RollupCaller → Finset RollupLock
  | track _ => {.timings}
  | timer _ => ∅

namespace RollupPlace

/-- The locks that are held at a place. -/
def held : RollupPlace → Finset RollupLock
  | trackReadTimings _ => {.timings}
  | trackUnlockTimings _ => {.timings}
  | trackFirstUpdate _ => {.timings}
  | trackLastUpdate _ => {.timings}
  | trackUnlockTimingsAgain _ => {.timings}
  | addLockBuffer _ => {.timings}
  | addUpdates _ => {.buffer, .timings}
  | addUnlockBuffer _ => {.buffer, .timings}
  | renewLockTimer caller => caller.held
  | renewTimer caller => insert .flushTimer caller.held
  | renewUnlockTimer caller => insert .flushTimer caller.held
  | flushTest _ => {.buffer}
  | flushNothing _ => {.buffer}
  | flushLockTimings _ => {.buffer}
  | flushBuffer _ => {.timings, .buffer}
  | flushUnlockBuffer _ => {.timings, .buffer}
  | flushUnlockTimings _ => {.timings}
  | _ => ∅

/-- In a `TrackUpdates` that holds `timings` for the second time, and has not had `buffer`
yet. -/
def isTracking : RollupPlace → Bool
  | trackFirstUpdate _ => true
  | renewLockTimer (.track _) => true
  | renewTimer (.track _) => true
  | renewUnlockTimer (.track _) => true
  | addLockBuffer _ => true
  | _ => false

/-- In a `FlushBuffer` that has found updates, and does not have `timings` yet. -/
def isFlushing : RollupPlace → Bool
  | flushLockTimings _ => true
  | _ => false

theorem isTracking_of_isFlushing {place : RollupPlace} (h : place.isFlushing = true) :
    place.isTracking = false := by
  cases place <;> first
    | rfl
    | cases h

/-- About to look for updates in `FlushBuffer`. -/
def isFlushTest : RollupPlace → Bool
  | flushTest _ => true
  | _ => false

/-- About to take `timings` for the second time in `TrackUpdates`. -/
def isRelock : RollupPlace → Bool
  | trackRelockTimings _ => true
  | _ => false

end RollupPlace

/-- The locks at each place are those that were taken on the way. -/
theorem annotated_rollupProgram : rollupProgram.Annotated RollupPlace.held where
  enter c := by cases c <;> rfl
  lock place m place' h := by
    cases place <;>
      simp only [rollupProgram, RollupPlace.instr, Instr.lock.injEq, reduceCtorEq] at h
    case renewLockTimer caller =>
      obtain ⟨rfl, rfl⟩ := h
      cases caller <;> dsimp only [RollupPlace.held, RollupCaller.held] <;> decide
    all_goals
      obtain ⟨rfl, rfl⟩ := h
      dsimp only [RollupPlace.held]
      decide
  unlock place m place' h := by
    cases place <;>
      simp only [rollupProgram, RollupPlace.instr, Instr.unlock.injEq, reduceCtorEq] at h
    case trackUnlockTimings t =>
      obtain ⟨rfl, rfl⟩ := h
      cases t.flushed <;> simp [RollupPlace.held]
    case renewUnlockTimer caller =>
      obtain ⟨rfl, rfl⟩ := h
      cases caller <;> dsimp only [RollupPlace.held, RollupCaller.held, RollupCaller.afterRenew] <;>
        decide
    case flushNothing caller =>
      obtain ⟨rfl, rfl⟩ := h
      cases caller <;> dsimp only [RollupPlace.held, RollupCaller.held, RollupCaller.afterFlush] <;>
        decide
    case flushUnlockTimings caller =>
      obtain ⟨rfl, rfl⟩ := h
      cases caller <;> dsimp only [RollupPlace.held, RollupCaller.held, RollupCaller.afterFlush] <;>
        decide
    all_goals
      obtain ⟨rfl, rfl⟩ := h
      dsimp only [RollupPlace.held]
      decide
  act place f h data := by
    cases place <;> simp only [rollupProgram, RollupPlace.instr, Instr.act.injEq, reduceCtorEq] at h
    case trackUpdates t =>
      obtain rfl := h
      dsimp only
      split_ifs <;> rfl
    case flushTest caller =>
      obtain rfl := h
      dsimp only
      split_ifs <;> rfl
    all_goals
      obtain rfl := h
      rfl
  halt place h := by
    cases place <;> simp only [rollupProgram, RollupPlace.instr, reduceCtorEq] at h <;> rfl

/-! ### The deadlock -/

section deadlock

variable {s s' : State (Locked Rollup RollupLock) RollupPlace} {place place' : RollupPlace}
  {m m' : RollupLock} {e : Event RollupCall} {T : Set ℕ}

/-- Where a thread waits that holds a lock. -/
theorem place_of_waiting (hinstr : rollupProgram.instr place = .lock m' place')
    (hm : m ∈ place.held) :
    (∃ t, place = .addLockBuffer t ∧ m = .timings ∧ m' = .buffer) ∨
      (∃ t, place = .renewLockTimer (.track t) ∧ m' = .flushTimer) ∨
      ∃ caller, place = .flushLockTimings caller ∧ m = .buffer ∧ m' = .timings := by
  cases place <;>
    simp only [rollupProgram, RollupPlace.instr, Instr.lock.injEq, reduceCtorEq] at hinstr
  case addLockBuffer t =>
    exact .inl ⟨t, rfl, Finset.mem_singleton.1 hm, hinstr.1.symm⟩
  case renewLockTimer caller =>
    cases caller with
    | track t => exact .inr (.inl ⟨t, rfl, hinstr.1.symm⟩)
    | timer flushNow => exact absurd hm (Finset.notMem_empty m)
  case flushLockTimings caller =>
    exact .inr (.inr ⟨caller, rfl, Finset.mem_singleton.1 hm, hinstr.1.symm⟩)
  all_goals exact absurd hm (Finset.notMem_empty m)

/-- Nobody who holds `flushTimer` waits. -/
theorem flushTimer_notMem (hinstr : rollupProgram.instr place = .lock m' place') :
    .flushTimer ∉ place.held := by
  intro hm
  rcases place_of_waiting hinstr hm with ⟨t, rfl, hm', -⟩ | ⟨t, rfl, -⟩ | ⟨caller, rfl, hm', -⟩
  · cases hm'
  · simp [RollupPlace.held, RollupCaller.held] at hm
  · cases hm'

/-- **In a deadlock** a thread waits for `buffer`, which a flush has, or for `timings`, which a
`TrackUpdates` has. -/
theorem exists_of_deadlocked (h : Program.Holds RollupPlace.held s)
    (hT : rollupProgram.Deadlocked s T) {i : ℕ} (hi : i ∈ T) (hplace : s.threads[i]? = some place)
    (hinstr : rollupProgram.instr place = .lock m place') :
    (m = .buffer ∧ ∃ j ∈ T, ∃ caller, s.threads[j]? = some (.flushLockTimings caller)) ∨
      (m = .timings ∧ ∃ j ∈ T, ∃ t, s.threads[j]? = some (.addLockBuffer t)) := by
  -- the thread that `i` waits for waits itself
  have hwaits {i : ℕ} (hi : i ∈ T) {place place' : RollupPlace} {m : RollupLock}
      (hplace : s.threads[i]? = some place) (hinstr : rollupProgram.instr place = .lock m place') :
      ∃ j ∈ T, ∃ q m' q', s.threads[j]? = some q ∧ m ∈ q.held ∧
        rollupProgram.instr q = .lock m' q' := by
    obtain ⟨_, _, _, hplace', hinstr', j, hj, -, hholder⟩ := hT.2 i hi
    obtain rfl := Option.some.inj (hplace.symm.trans hplace')
    obtain ⟨rfl, -⟩ := Instr.lock.inj (hinstr.symm.trans hinstr')
    obtain ⟨q, hq, hm⟩ := (h m j).1 hholder
    obtain ⟨_, m', q', hq', hinstr'', -⟩ := hT.2 j hj
    obtain rfl := Option.some.inj (hq.symm.trans hq')
    exact ⟨j, hj, q, m', q', hq, hm, hinstr''⟩
  obtain ⟨j, hj, q, m', q', hq, hm, hinstr'⟩ := hwaits hi hplace hinstr
  rcases place_of_waiting hinstr' hm with ⟨t, rfl, rfl, -⟩ | ⟨t, rfl, rfl⟩ | ⟨caller, rfl, rfl, -⟩
  · exact .inr ⟨rfl, j, hj, t, hq⟩
  · obtain ⟨k, -, r, m'', r', -, hm', hinstr''⟩ := hwaits hj hq hinstr'
    exact absurd hm' (flushTimer_notMem hinstr'')
  · exact .inl ⟨rfl, j, hj, caller, hq⟩

/-- **There is one deadlock**: a `TrackUpdates` that has `timings` and waits for `buffer`, and
a flush that has `buffer` and waits for `timings`. -/
theorem deadlocked_iff (h : Program.Holds RollupPlace.held s) :
    (∃ T, rollupProgram.Deadlocked s T) ↔
      (∃ (i : ℕ) (t : Tracking), s.threads[i]? = some (.addLockBuffer t)) ∧
        ∃ (j : ℕ) (caller : RollupCaller), s.threads[j]? = some (.flushLockTimings caller) := by
  constructor
  · rintro ⟨T, hT⟩
    obtain ⟨i, hi⟩ := hT.1
    obtain ⟨place, m, place', hplace, hinstr, -⟩ := hT.2 i hi
    -- the thread at one end waits for the thread at the other
    rcases exists_of_deadlocked h hT hi hplace hinstr with ⟨-, j, hj, x, hq⟩ | ⟨-, j, hj, x, hq⟩
    · rcases exists_of_deadlocked h hT hj hq rfl with ⟨hm, -⟩ | ⟨-, k, -, t, hr⟩
      · cases hm
      · exact ⟨⟨k, t, hr⟩, j, x, hq⟩
    · rcases exists_of_deadlocked h hT hj hq rfl with ⟨-, k, -, caller, hr⟩ | ⟨hm, -⟩
      · exact ⟨⟨j, x, hq⟩, k, caller, hr⟩
      · cases hm
  · rintro ⟨⟨i, t, hi⟩, j, caller, hj⟩
    have hij : i ≠ j := by
      rintro rfl
      rw [hi] at hj
      cases hj
    have htimings : s.data.holder .timings = some i := (h _ i).2 ⟨_, hi, by simp [RollupPlace.held]⟩
    have hbuffer : s.data.holder .buffer = some j := (h _ j).2 ⟨_, hj, by simp [RollupPlace.held]⟩
    refine ⟨{i, j}, ⟨i, .inl rfl⟩, ?_⟩
    rintro k (rfl | rfl)
    · exact ⟨_, _, _, hi, rfl, j, .inr rfl, hij.symm, hbuffer⟩
    · exact ⟨_, _, _, hj, rfl, i, .inl rfl, hij, htimings⟩

/-- A flush does not find updates while a `TrackUpdates` is on its way from `timings` to
`buffer`, and a `TrackUpdates` does not set out while a flush that has found updates waits
for `timings`. -/
def SectionsApart (s : State (Locked Rollup RollupLock) RollupPlace) : Event RollupCall → Prop
  | .call _ => True
  | .run i => ∀ place ∈ s.threads[i]?,
      (place.isFlushTest = true → s.data.data.updates.length ≠ 0 →
        ∀ q ∈ s.threads, q.isTracking = false) ∧
      (place.isRelock = true → ∀ q ∈ s.threads, q.isFlushing = false)

instance (e : Event RollupCall) : Decidable (SectionsApart s e) :=
  match e with
  | .call _ => .isTrue trivial
  | .run _ => inferInstanceAs (Decidable (∀ place ∈ _, _))

/-- **Where a step leads.**  Who waits for `timings` in a flush has just found updates; who is on
the way from `timings` to `buffer` was, or has just set out. -/
theorem after_spec {r : Rollup} (hafter : rollupProgram.after r place = some place') :
    (place'.isFlushing = true → place.isFlushTest = true ∧ r.updates.length ≠ 0) ∧
      (place'.isTracking = true → place.isTracking = true ∨ place.isRelock = true) := by
  have hno {P : Prop} (h : false = true) : P := absurd h Bool.false_ne_true
  cases place <;>
    simp only [Program.after, rollupProgram, RollupPlace.instr, Option.some.injEq,
      reduceCtorEq] at hafter
  case flushTest caller =>
    obtain rfl := hafter
    split_ifs with hlength
    · exact ⟨hno, hno⟩
    · exact ⟨fun _ => ⟨rfl, hlength⟩, hno⟩
  case trackRelockTimings t =>
    obtain rfl := hafter
    exact ⟨hno, fun _ => .inr rfl⟩
  case trackFirstUpdate t =>
    obtain rfl := hafter
    exact ⟨hno, fun _ => .inl rfl⟩
  case renewLockTimer caller | renewTimer caller =>
    obtain rfl := hafter
    exact ⟨hno, fun h => .inl (by cases caller <;> exact h)⟩
  case renewUnlockTimer caller =>
    obtain rfl := hafter
    cases caller with
    | track t => exact ⟨hno, fun _ => .inl rfl⟩
    | timer flushNow => exact ⟨hno, hno⟩
  case trackUpdates t | trackUnlockTimings t =>
    obtain rfl := hafter
    split_ifs <;> exact ⟨hno, hno⟩
  case flushNothing caller | flushUnlockTimings caller =>
    obtain rfl := hafter
    cases caller <;> exact ⟨hno, hno⟩
  all_goals
    obtain rfl := hafter
    exact ⟨hno, hno⟩

/-- Nobody waits for `timings` in a flush while somebody is on the way from `timings` to
`buffer`. -/
def Apart (s : State (Locked Rollup RollupLock) RollupPlace) : Prop :=
  ∀ q ∈ s.threads, q.isFlushing = true → ∀ r ∈ s.threads, r.isTracking = false

/-- **One step** keeps the two apart. -/
theorem Apart.step (h : Apart s) (he : SectionsApart s e)
    (hstep : rollupProgram.code.step s e = some s') : Apart s' := by
  cases e with
  | call c =>
    obtain rfl := Code.step_call.1 hstep
    have hnew : (RollupCall.enter c).isFlushing = false ∧
        (RollupCall.enter c).isTracking = false := by
      cases c <;> exact ⟨rfl, rfl⟩
    intro q hq hflushing r hr
    rcases List.mem_append.1 hq with hq | hq
    · rcases List.mem_append.1 hr with hr | hr
      · exact h q hq hflushing r hr
      · obtain rfl := List.mem_singleton.1 hr
        exact hnew.2
    · obtain rfl := List.mem_singleton.1 hq
      cases hnew.1.symm.trans hflushing
  | run i =>
    obtain ⟨place, d', place', started, hplace, hnext, rfl⟩ := Code.step_run.1 hstep
    obtain ⟨rfl, -⟩ := Program.next_cases hnext
    have hafter := Program.after_of_next hnext
    obtain ⟨htest, hrelock⟩ := he place hplace
    intro q hq hflushing r hr
    by_contra htracking
    rw [Bool.not_eq_false] at htracking
    rw [List.append_nil] at hq hr
    rcases List.mem_or_eq_of_mem_set hq with hq' | rfl
    · rcases List.mem_or_eq_of_mem_set hr with hr' | rfl
      · cases (h q hq' hflushing r hr').symm.trans htracking
      · rcases (after_spec hafter).2 htracking with hold | hnew
        · cases (h q hq' hflushing place (List.mem_of_getElem? hplace)).symm.trans hold
        · cases (hrelock hnew q hq').symm.trans hflushing
    · obtain ⟨hnew, hlength⟩ := (after_spec hafter).1 hflushing
      rcases List.mem_or_eq_of_mem_set hr with hr' | rfl
      · cases (htest hnew hlength r hr').symm.trans htracking
      · cases (RollupPlace.isTracking_of_isFlushing hflushing).symm.trans htracking

end deadlock

/-- **No deadlock.**  For any number of calls of `TrackUpdates` and of runs of the timer, and
any interleaving: if no flush finds updates while a `TrackUpdates` is on its way from
`timings` to `buffer`, and none sets out while such a flush waits, no set of threads is ever
deadlocked; and as long as a thread has not ended, one can go on. -/
theorem rollup_deadlock_free (flushInterval : ℤ)
    (s : State (Locked Rollup RollupLock) RollupPlace)
    (hs : rollupProgram.code.Reaches SectionsApart (Program.start (.new flushInterval)) s) :
    (∀ T, ¬ rollupProgram.Deadlocked s T) ∧
      ∀ (i : ℕ) (place : RollupPlace), s.threads[i]? = some place →
        rollupProgram.instr place ≠ .halt →
          ∃ j s', rollupProgram.code.step s (.run j) = some s' := by
  have hholds := annotated_rollupProgram.holds hs
  have hapart : Apart s := hs.invariant (by simp [Apart, Program.start])
    fun _ _ _ h he hstep => h.step he hstep
  have hfree (T : Set ℕ) : ¬ rollupProgram.Deadlocked s T := by
    intro hT
    obtain ⟨⟨i, t, hi⟩, j, caller, hj⟩ := (deadlocked_iff hholds).1 ⟨T, hT⟩
    have hnot := hapart _ (List.mem_of_getElem? hj) rfl _ (List.mem_of_getElem? hi)
    cases hnot
  exact ⟨hfree, fun i place hplace hhalt =>
    annotated_rollupProgram.exists_step hholds hfree hplace hhalt⟩

/-- A change that is tracked, and a flush after it. -/
theorem rollup_deadlock_free_flushed :
    ∃ s, rollupProgram.code.run SectionsApart (Program.start (.new 10))
        ([.call (.trackUpdates [⟨"a", 1, "x", 1, alive⟩] 5 5)] ++ List.replicate 17 (.run 0) ++
          [.call (.timer 20)] ++ List.replicate 6 (.run 1)) = some s ∧
      s.threads = [.trackReturn true, .renewLockTimer (.timer 20)] ∧
      (∀ T, ¬ rollupProgram.Deadlocked s T) ∧
      ∃ j s', rollupProgram.code.step s (.run j) = some s' := by
  have heval : (rollupProgram.code.run SectionsApart (Program.start (.new 10))
      ([.call (.trackUpdates [⟨"a", 1, "x", 1, alive⟩] 5 5)] ++ List.replicate 17 (.run 0) ++
        [.call (.timer 20)] ++ List.replicate 6 (.run 1))).map State.threads =
      some [.trackReturn true, .renewLockTimer (.timer 20)] := by
    decide +kernel
  obtain ⟨s, hrun, hthreads⟩ := Option.map_eq_some_iff.1 heval
  obtain ⟨hfree, hgoes⟩ := rollup_deadlock_free 10 s (Code.reaches_of_run .refl hrun)
  have hplace : s.threads[1]? = some (.renewLockTimer (.timer 20)) := by
    rw [hthreads]
    rfl
  exact ⟨s, hrun, hthreads, hfree, hgoes 1 _ hplace (by rintro ⟨⟩)⟩

/-- **The deadlock**: the timer goes off with updates in the buffer, just when `TrackUpdates`
is called again. -/
theorem rollup_deadlock :
    ∃ s, rollupProgram.code.run (fun _ _ => True) (Program.start (.new 10))
        ([.call (.trackUpdates [⟨"a", 1, "x", 1, alive⟩] 5 5)] ++ List.replicate 17 (.run 0) ++
          [.call (.timer 15), .call (.trackUpdates [⟨"a", 1, "y", 1, alive⟩] 14 14)] ++
          List.replicate 2 (.run 1) ++ List.replicate 9 (.run 2)) = some s ∧
      rollupProgram.code.Reaches (fun _ _ => True) (Program.start (.new 10)) s ∧
      ∃ T, rollupProgram.Deadlocked s T := by
  have heval : (rollupProgram.code.run (fun _ _ => True) (Program.start (.new 10))
      ([.call (.trackUpdates [⟨"a", 1, "x", 1, alive⟩] 5 5)] ++ List.replicate 17 (.run 0) ++
        [.call (.timer 15), .call (.trackUpdates [⟨"a", 1, "y", 1, alive⟩] 14 14)] ++
        List.replicate 2 (.run 1) ++ List.replicate 9 (.run 2))).map State.threads =
      some [.trackReturn true, .flushLockTimings (.timer 15),
        .addLockBuffer ⟨[⟨"a", 1, "y", 1, alive⟩], 14, 14, false⟩] := by
    decide +kernel
  obtain ⟨s, hrun, hthreads⟩ := Option.map_eq_some_iff.1 heval
  have hs : rollupProgram.code.Reaches (fun _ _ => True) (Program.start (.new 10)) s :=
    Code.reaches_of_run .refl hrun
  refine ⟨s, hrun, hs, (deadlocked_iff (annotated_rollupProgram.holds hs)).2 ?_⟩
  rw [hthreads]
  exact ⟨⟨2, _, rfl⟩, 1, _, rfl⟩

end Swim
end Ringpop
