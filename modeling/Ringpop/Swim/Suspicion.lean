/-
# The suspicion sub-protocol

`swim/suspicion.go`.  A timer is started for a member that became suspect and stopped
when the member changes again; a timer that fires calls `MakeFaulty` with the
incarnation it was started with.  The timers are kept by address.  A timer that has
fired stays in the map until it is stopped.
-/

import Ringpop.Swim.Member

namespace Ringpop
namespace Swim

/-- A timer: the incarnation that its function captured, and whether it has fired. -/
structure Timer where
  incarnation : ℤ
  fired : Bool
deriving DecidableEq, Repr

/-- `suspicion`. -/
structure Suspicion where
  timers : String → Option Timer
  enabled : Bool

namespace Suspicion

/-- `newSuspicion`. -/
def new : Suspicion := ⟨fun _ => none, true⟩

/-- `Start`. -/
def start (localAddress : String) (s : Suspicion) (address : String) (incarnation : ℤ) :
    Suspicion :=
  if s.enabled = false then s
  else if localAddress = address then s
  -- a redundant call is ignored, whatever its incarnation
  else if (s.timers address).isSome then s
  else { s with timers := Function.update s.timers address (some ⟨incarnation, false⟩) }

/-- `Stop`. -/
def stop (s : Suspicion) (address : String) : Suspicion :=
  { s with timers := Function.update s.timers address none }

/-- `Reenable`. -/
def reenable (s : Suspicion) : Suspicion := { s with enabled := true }

/-- `Disable`. -/
def disable (s : Suspicion) : Suspicion :=
  if s.enabled = false then s else ⟨fun _ => none, false⟩

/-- The timer of an address goes off. -/
def fire (s : Suspicion) (address : String) : Suspicion :=
  { s with
    timers := Function.update s.timers address
      ((s.timers address).map fun t => { t with fired := true }) }

/-- What `Node.handleChanges` does to the timers, for one change. -/
def track (localAddress : String) (s : Suspicion) (c : Change) : Suspicion :=
  if c.status = suspect then s.start localAddress c.address c.incarnation
  else if c.status = alive || c.status = faulty || c.status = leave then s.stop c.address
  else s

variable {localAddress : String} {s : Suspicion} {c : Change} {x : String}

@[simp] theorem track_enabled (localAddress : String) (s : Suspicion) (c : Change) :
    (s.track localAddress c).enabled = s.enabled := by
  simp only [track, start]
  split_ifs <;> rfl

/-- A change moves no timer but that of its address. -/
theorem track_timers_of_ne (hx : x ≠ c.address) :
    (s.track localAddress c).timers x = s.timers x := by
  simp only [track, start, stop]
  split_ifs <;> first | rfl | exact Function.update_of_ne hx ..

/-- A member that becomes suspect gets a timer of its incarnation, where there is
none. -/
theorem track_timers_of_suspect (hc : c.status = suspect) (henabled : s.enabled = true)
    (hlocal : c.address ≠ localAddress) (hnone : s.timers c.address = none) :
    (s.track localAddress c).timers c.address = some ⟨c.incarnation, false⟩ := by
  simp [track, start, hc, henabled, hlocal.symm, hnone]

/-- While the timers are switched off, a change starts none. -/
theorem track_timers_of_disabled (henabled : s.enabled = false) (hnone : s.timers x = none) :
    (s.track localAddress c).timers x = none := by
  by_cases hx : x = c.address
  · subst hx
    simp only [track, start, stop, henabled, if_true]
    split_ifs
    · exact hnone
    · exact Function.update_self ..
    · exact hnone
  · rw [track_timers_of_ne hx, hnone]

/-- **A timer after a change** was there before, or the change is a suspicion of another
node. -/
theorem timers_of_track {t : Timer} (h : (s.track localAddress c).timers x = some t) :
    s.timers x = some t ∨
      c.address = x ∧ x ≠ localAddress ∧ c.status = suspect ∧ t.incarnation = c.incarnation := by
  by_cases hx : x = c.address
  · subst hx
    simp only [track, start, stop] at h
    split_ifs at h with hsuspect _ hlocal
    · exact .inl h
    · exact .inl h
    · exact .inl h
    · obtain rfl : (⟨c.incarnation, false⟩ : Timer) = t := by simpa using h
      exact .inr ⟨rfl, Ne.symm hlocal, hsuspect, rfl⟩
    · simp at h
    · exact .inl h
  · rw [track_timers_of_ne hx] at h
    exact .inl h

end Suspicion

end Swim
end Ringpop
