/-
# Requests in flight

`incrementInflight`, `decrementInflight` and `ForwardRequest` of `forward/forwarder.go`, called
from any number of goroutines.  The count is read and written under `inflightLock`, and each
reading and each writing is a step of its own here; the events about the count are emitted
without the lock.  `Send` does not touch the count and is one step; what a goroutine emits
about the count is kept where it is.  The count does not reach the bounds of an `int64`.

The count is the number of requests that are in flight, whatever the interleaving
(`inflight_counts`), so that it never has to be kept from going below zero.  A `Send` that
panics leaves its request in flight for ever: there is no `defer`.
-/

import Ringpop.Concurrency.ReadWriteLock
import Ringpop.Forward.Forwarder

namespace Ringpop
namespace Forward

open CellStore Threads

/-- `InflightRequestsChangedEvent`, and `InflightRequestsMiscountEvent` of a decrement. -/
inductive InflightEvent where
  | changed (inflight : ℤ)
  | miscount
deriving DecidableEq, Repr

/-- A call of `ForwardRequest`, and what its request meets. -/
structure ForwardCall where
  env : Surroundings
  request : Bytes
  destination : String
  service : String
  endpoint : String
  keys : List String
  format : Format
  opts : Option Options

/-- `Send`, on the request sender of the call. -/
def ForwardCall.send (c : ForwardCall) : Except Fault (Except String Bytes × RequestSender) :=
  let q := Request.of c.request c.service c.endpoint c.keys c.format c.opts
  (RequestSender.new q c.destination).send c.env (q.maxRetries.toNat + 1)

/-- Where a goroutine is: about to do what the place is named after. -/
inductive InflightPlace where
  | forward (c : ForwardCall)
  -- `incrementInflight`
  | lockIncrement (c : ForwardCall)
  | loadIncrement (c : ForwardCall)
  | storeIncrement (c : ForwardCall) (loaded : ℤ)
  | readIncrement (c : ForwardCall)
  | unlockIncrement (c : ForwardCall) (inflight : ℤ)
  | emitIncrement (c : ForwardCall) (inflight : ℤ)
  | send (c : ForwardCall) (emitted : List InflightEvent)
  -- `decrementInflight`
  | lockDecrement (b : Except String Bytes) (emitted : List InflightEvent)
  | readPre (b : Except String Bytes) (emitted : List InflightEvent)
  | loadDecrement (b : Except String Bytes) (emitted : List InflightEvent) (pre : ℤ)
  | storeDecrement (b : Except String Bytes) (emitted : List InflightEvent) (pre loaded : ℤ)
  | testDecrement (b : Except String Bytes) (emitted : List InflightEvent) (pre : ℤ)
  | readDecrement (b : Except String Bytes) (emitted : List InflightEvent) (pre : ℤ)
  | unlockDecrement (b : Except String Bytes) (emitted : List InflightEvent) (pre inflight : ℤ)
  | emitDecrement (b : Except String Bytes) (emitted : List InflightEvent) (pre inflight : ℤ)
  | returned (b : Except String Bytes) (emitted : List InflightEvent)
  | panicked (fault : Fault) (emitted : List InflightEvent)

/-- `ForwardRequest`, as far as the count is concerned. -/
def inflightProgram : RWProgram ℤ InflightPlace ForwardCall where
  enter := .forward
  instr
    | .forward c => .act fun n => (n, .lockIncrement c)
    | .lockIncrement c => .lock (.loadIncrement c)
    | .loadIncrement c => .act fun n => (n, .storeIncrement c n)
    | .storeIncrement c loaded => .act fun _ => (loaded + 1, .readIncrement c)
    | .readIncrement c => .act fun n => (n, .unlockIncrement c n)
    | .unlockIncrement c inflight => .unlock (.emitIncrement c inflight)
    | .emitIncrement c inflight => .act fun n => (n, .send c [.changed inflight])
    | .send c emitted => .act fun n =>
        match c.send with
        | .ok (b, _) => (n, .lockDecrement b emitted)
        | .error fault => (n, .panicked fault emitted)
    | .lockDecrement b emitted => .lock (.readPre b emitted)
    | .readPre b emitted => .act fun n => (n, .loadDecrement b emitted n)
    | .loadDecrement b emitted pre => .act fun n => (n, .storeDecrement b emitted pre n)
    | .storeDecrement b emitted pre loaded => .act fun _ =>
        (loaded - 1, .testDecrement b emitted pre)
    -- make sure that we do not decrement below 0
    | .testDecrement b emitted pre => .act fun n =>
        if n < 0 then (0, .readDecrement b (emitted ++ [.miscount]) pre)
        else (n, .readDecrement b emitted pre)
    | .readDecrement b emitted pre => .act fun n => (n, .unlockDecrement b emitted pre n)
    | .unlockDecrement b emitted pre inflight => .unlock (.emitDecrement b emitted pre inflight)
    | .emitDecrement b emitted pre inflight => .act fun n =>
        (n, .returned b (if pre ≠ inflight then emitted ++ [.changed inflight] else emitted))
    | .returned _ _ => .halt
    | .panicked _ _ => .halt

namespace InflightPlace

/-- How the lock is held. -/
def mode : InflightPlace → RWMode
  | loadIncrement _ => .writing
  | storeIncrement _ _ => .writing
  | readIncrement _ => .writing
  | unlockIncrement _ _ => .writing
  | readPre _ _ => .writing
  | loadDecrement _ _ _ => .writing
  | storeDecrement _ _ _ _ => .writing
  | testDecrement _ _ _ => .writing
  | readDecrement _ _ _ => .writing
  | unlockDecrement _ _ _ _ => .writing
  | _ => .free

/-- The request has been counted, and is still. -/
def inFlight : InflightPlace → Bool
  | readIncrement _ => true
  | unlockIncrement _ _ => true
  | emitIncrement _ _ => true
  | send _ _ => true
  | lockDecrement _ _ => true
  | readPre _ _ => true
  | loadDecrement _ _ _ => true
  | storeDecrement _ _ _ _ => true
  | panicked _ _ => true
  | _ => false

/-- What a goroutine knows about the count where it is. -/
def Knows : InflightPlace → ℤ → Prop
  | storeIncrement _ loaded, n => loaded = n
  | loadDecrement _ _ pre, n => pre = n
  | storeDecrement _ _ pre loaded, n => pre = n ∧ loaded = n
  | testDecrement _ _ pre, n => n = pre - 1
  | readDecrement _ _ pre, n => n = max (pre - 1) 0
  | unlockDecrement _ _ pre inflight, _ => inflight = max (pre - 1) 0
  | emitDecrement _ _ pre inflight, _ => inflight = max (pre - 1) 0
  | _, _ => True

/-- What a goroutine has reported of the count, and is about to report. -/
def Reported : InflightPlace → Prop
  | unlockIncrement _ inflight => 1 ≤ inflight
  | emitIncrement _ inflight => 1 ≤ inflight
  | send _ emitted => ∃ up, emitted = [.changed up] ∧ 1 ≤ up
  | lockDecrement _ emitted => ∃ up, emitted = [.changed up] ∧ 1 ≤ up
  | readPre _ emitted => ∃ up, emitted = [.changed up] ∧ 1 ≤ up
  | loadDecrement _ emitted pre => (∃ up, emitted = [.changed up] ∧ 1 ≤ up) ∧ 1 ≤ pre
  | storeDecrement _ emitted pre _ => (∃ up, emitted = [.changed up] ∧ 1 ≤ up) ∧ 1 ≤ pre
  | testDecrement _ emitted pre => (∃ up, emitted = [.changed up] ∧ 1 ≤ up) ∧ 1 ≤ pre
  | readDecrement _ emitted pre => (∃ up, emitted = [.changed up] ∧ 1 ≤ up) ∧ 1 ≤ pre
  | unlockDecrement _ emitted pre _ => (∃ up, emitted = [.changed up] ∧ 1 ≤ up) ∧ 1 ≤ pre
  | emitDecrement _ emitted pre _ => (∃ up, emitted = [.changed up] ∧ 1 ≤ up) ∧ 1 ≤ pre
  | returned _ emitted => ∃ up down, emitted = [.changed up, .changed down] ∧ 1 ≤ up ∧ 0 ≤ down
  | panicked _ emitted => ∃ up, emitted = [.changed up] ∧ 1 ≤ up
  | _ => True

end InflightPlace

theorem annotated_inflightProgram : inflightProgram.Annotated InflightPlace.mode where
  enter c := rfl
  rlock place place' h := by cases place <;> cases h
  runlock place place' h := by cases place <;> cases h
  lock place place' h := by cases place <;> cases h <;> exact ⟨rfl, rfl⟩
  unlock place place' h := by cases place <;> cases h <;> exact ⟨rfl, rfl⟩
  act place f h n := by
    cases place <;> cases h <;> dsimp only <;> (repeat' split) <;> simp [InflightPlace.mode]
  halt place h := by cases place <;> first | rfl | cases h

theorem proved_inflightProgram : inflightProgram.Proved InflightPlace.mode (fun _ => True)
    (fun _ => True) (fun _ place n => place.Knows n) where
  enter i c n _ := trivial
  rlock i place place' h n _ _ := by cases place <;> cases h
  runlock i place place' h n _ := by cases place <;> cases h
  lock i place place' h n _ _ := by cases place <;> cases h <;> trivial
  unlock i place place' h n hn := by
    cases place <;> cases h
    · exact ⟨trivial, trivial⟩
    · exact ⟨trivial, hn⟩
  act i place f h n hn := by
    cases place <;> cases h <;> dsimp only
    case storeDecrement b emitted pre loaded =>
      obtain ⟨hpre, hloaded⟩ := hn
      show loaded - 1 = pre - 1
      rw [hpre, hloaded]
    case testDecrement b emitted pre =>
      have hn : n = pre - 1 := hn
      split_ifs with hneg
      · show 0 = max (pre - 1) 0
        omega
      · show n = max (pre - 1) 0
        omega
    case loadDecrement b emitted pre => exact ⟨hn, rfl⟩
    case send c emitted => split <;> trivial
    all_goals trivial
  stable i place f h hmode n hn j other hfree hother := by
    cases other <;> first | exact hother | cases hfree

/-! ### Counting -/

section count

variable {place place' : InflightPlace} {f : ℤ → ℤ × InflightPlace} {n : ℤ}
  {s s' : State (RWLocked ℤ) InflightPlace} {e : Threads.Event ForwardCall}

/-- **A step on the count**: it changes by as much as the goroutine comes to be in flight, or
ceases to be. -/
theorem act_counts (hinstr : inflightProgram.instr place = .act f) (hknows : place.Knows n)
    (hown : (place.inFlight.toNat : ℤ) ≤ n) (hreported : place.Reported) :
    (f n).1 + place.inFlight.toNat = n + (f n).2.inFlight.toNat ∧ (f n).2.Reported := by
  cases place <;> cases hinstr <;> dsimp only
  case forward c => exact ⟨rfl, trivial⟩
  case loadIncrement c => exact ⟨rfl, trivial⟩
  case storeIncrement c loaded =>
    have hloaded : loaded = n := hknows
    subst hloaded
    exact ⟨by simp [InflightPlace.inFlight], trivial⟩
  case readIncrement c => exact ⟨rfl, hown⟩
  case emitIncrement c inflight => exact ⟨rfl, inflight, rfl, hreported⟩
  case send c emitted => split <;> exact ⟨rfl, hreported⟩
  case readPre b emitted => exact ⟨rfl, hreported, hown⟩
  case loadDecrement b emitted pre => exact ⟨rfl, hreported⟩
  case storeDecrement b emitted pre loaded =>
    have hloaded : loaded = n := hknows.2
    subst hloaded
    exact ⟨by simp [InflightPlace.inFlight], hreported⟩
  case testDecrement b emitted pre =>
    have hn : n = pre - 1 := hknows
    have hpre := hreported.2
    rw [if_neg (by omega)]
    exact ⟨rfl, hreported⟩
  case readDecrement b emitted pre => exact ⟨rfl, hreported⟩
  case emitDecrement b emitted pre inflight =>
    have hinflight : inflight = max (pre - 1) 0 := hknows
    obtain ⟨⟨up, rfl, hup⟩, hpre⟩ := hreported
    rw [if_pos (by omega)]
    exact ⟨rfl, up, inflight, rfl, hup, by omega⟩

/-- The count is the number of requests in flight, and what is reported of it is right. -/
structure Counted (s : State (RWLocked ℤ) InflightPlace) : Prop where
  count : s.data.data = (Code.count InflightPlace.inFlight s : ℕ)
  reported : ∀ (i : ℕ) place, s.threads[i]? = some place → place.Reported

/-- Where a goroutine is after it has gone on: it is at its new place, the others as before. -/
theorem Counted.run {i : ℕ} {d' : RWLocked ℤ} (h : Counted s) (hplace : s.threads[i]? = some place)
    (hdata : d'.data + place.inFlight.toNat = s.data.data + place'.inFlight.toNat)
    (hreported : place'.Reported) : Counted ⟨d', s.threads.set i place' ++ []⟩ := by
  have hcount := Code.count_run InflightPlace.inFlight hplace d' place' []
  rw [List.countP_nil] at hcount
  refine ⟨?_, fun j q hq => ?_⟩
  · have := h.count
    dsimp only
    omega
  · by_cases hij : i = j
    · subst hij
      rw [Code.getElem?_self hplace] at hq
      obtain rfl := Option.some.inj hq
      exact hreported
    · rw [List.append_nil, List.getElem?_set_ne hij] at hq
      exact h.reported j q hq

/-- **One step** keeps the count right. -/
theorem Counted.step (h : Counted s)
    (hknows : ∀ (i : ℕ) place, s.threads[i]? = some place → place.Knows s.data.data)
    (hstep : inflightProgram.code.step s e = some s') : Counted s' := by
  cases e with
  | call c =>
    obtain rfl := Code.step_call.1 hstep
    refine ⟨?_, fun j q hq => ?_⟩
    · rw [h.count, Code.count_call]
      rfl
    · rcases RWProgram.getElem?_call hq with hq | rfl
      · exact h.reported j q hq
      · trivial
  | run i =>
    obtain ⟨place, d', place', started, hplace, hnext, rfl⟩ := Code.step_run.1 hstep
    have hreported := h.reported i place hplace
    obtain ⟨rfl, ⟨hinstr, -, rfl⟩ | ⟨hinstr, rfl⟩ | ⟨hinstr, -, -, rfl⟩ | ⟨hinstr, rfl⟩ |
      ⟨f, hinstr, rfl, rfl⟩⟩ := RWProgram.next_cases hnext
    · cases place <;> cases hinstr
    · cases place <;> cases hinstr
    · refine h.run hplace ?_ ?_ <;> cases place <;> cases hinstr <;> first | rfl | trivial
    · refine h.run hplace ?_ ?_ <;> cases place <;> cases hinstr <;> first | rfl | exact hreported
    · -- a goroutine that is in flight is one of those that are counted
      have hown : (place.inFlight.toNat : ℤ) ≤ s.data.data := by
        have hended : (InflightPlace.returned (.ok []) []).inFlight.toNat = 0 := rfl
        have hcount :=
          Code.count_run InflightPlace.inFlight hplace s.data (.returned (.ok []) []) []
        rw [List.countP_nil, hended] at hcount
        have hcounted := h.count
        omega
      obtain ⟨hdata, hreported'⟩ := act_counts hinstr (hknows i place hplace) hown hreported
      exact h.run hplace hdata hreported'

end count

/-- **The count is the number of requests in flight.**  Take any calls of `ForwardRequest` with
their steps interleaved in any way.  At every time the count is the number of requests that
have been counted and have neither come to their decrement nor ended in a panic of `Send`
(which stay counted); a call that has returned has reported the count twice, no less than
one and then no less than zero, and no miscount; when all calls have returned the count is
zero; and as long as one has not ended, some goroutine can go on. -/
theorem inflight_counts (s : State (RWLocked ℤ) InflightPlace)
    (hs : inflightProgram.code.Reaches (fun _ _ => True) (RWProgram.start 0) s) :
    s.data.data = (s.threads.countP InflightPlace.inFlight : ℕ) ∧
    (∀ (i : ℕ) b emitted, s.threads[i]? = some (.returned b emitted) →
      ∃ up down, emitted = [.changed up, .changed down] ∧ 1 ≤ up ∧ 0 ≤ down) ∧
    ((∀ place ∈ s.threads, ∃ b emitted, place = .returned b emitted) → s.data.data = 0) ∧
    ∀ (i : ℕ) place, s.threads[i]? = some place →
      (∃ b emitted, place = .returned b emitted) ∨
        (∃ fault emitted, place = .panicked fault emitted) ∨
        ∃ j s', inflightProgram.code.step s (.run j) = some s' := by
  have hstart : RWProgram.Holds InflightPlace.mode (RWProgram.start (0 : ℤ)) :=
    RWProgram.holds_start _
  have hcounted : Counted s := by
    induction hs with
    | refl => exact ⟨rfl, fun i place h => by cases h⟩
    | step hs _ hstep ih =>
      have houtlined := proved_inflightProgram.reaches annotated_inflightProgram
        (fun _ _ _ => trivial) hstart (RWProgram.outlined_start trivial) hs
      exact ih.step houtlined.at_place hstep
  have hholds := annotated_inflightProgram.holds hstart hs
  refine ⟨hcounted.count, fun i b emitted hi => hcounted.reported i _ hi, fun hall => ?_,
    fun i place hi => ?_⟩
  · rw [hcounted.count, Code.count, Nat.cast_eq_zero, List.countP_eq_zero]
    intro place hplace
    obtain ⟨b, emitted, rfl⟩ := hall place hplace
    exact Bool.false_ne_true
  · by_cases hhalt : inflightProgram.instr place = .halt
    · cases place with
      | returned b emitted => exact .inl ⟨b, emitted, rfl⟩
      | panicked fault emitted => exact .inr (.inl ⟨fault, emitted, rfl⟩)
      | _ => cases hhalt
    · exact .inr (.inr (annotated_inflightProgram.exists_step hholds hi hhalt))

/-- What a call that has returned has reported. -/
def InflightPlace.reports : InflightPlace → Option (List InflightEvent)
  | returned _ emitted => some emitted
  | _ => none

/-- A request that is answered at once. -/
def ForwardCall.answered : ForwardCall :=
  ⟨⟨fun _ _ => .answered [1] false, fun _ _ _ => .error "", fun _ => .error ""⟩, [], "b", "s", "e",
    [], .thrift, none⟩

/-- Two requests, the second of which is counted while the first is in flight. -/
theorem inflight_counts_two : ∃ s : State (RWLocked ℤ) InflightPlace,
    s.threads.map InflightPlace.reports =
      [some [.changed 1, .changed 1], some [.changed 2, .changed 0]] ∧ s.data.data = 0 := by
  have heval : (inflightProgram.code.run (fun _ _ => True) (RWProgram.start 0)
      ([.call .answered, .call .answered] ++ List.replicate 8 (.run 0) ++
        List.replicate 8 (.run 1) ++ List.replicate 8 (.run 0) ++ List.replicate 8 (.run 1))).map
      (fun s => s.threads.map InflightPlace.reports) =
        some [some [.changed 1, .changed 1], some [.changed 2, .changed 0]] := by
    decide +kernel
  obtain ⟨s, hrun, hreports⟩ := Option.map_eq_some_iff.1 heval
  obtain ⟨-, -, hzero, -⟩ := inflight_counts s (Code.reaches_of_run .refl hrun)
  refine ⟨s, hreports, hzero fun place hplace => ?_⟩
  have hmem := List.mem_map_of_mem (f := InflightPlace.reports) hplace
  rw [hreports] at hmem
  cases place with
  | returned b emitted => exact ⟨b, emitted, rfl⟩
  | _ => simp [InflightPlace.reports] at hmem

end Forward
end Ringpop
