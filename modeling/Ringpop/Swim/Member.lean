/-
# Members and changes

`swim/member.go`.  A status is a string, as it comes from the wire: nothing keeps
a change with any other string out, and `statePrecedence` panics on it.
Incarnations are `int64`s that are only compared, so they are integers here.  The
timestamp of a change is left out: no function reads it.
-/

import Ringpop.Memory.Cells
import Mathlib.Data.Int.Order.Basic
import Mathlib.Data.String.Basic

namespace Ringpop
namespace Swim

open CellStore

/-- `Alive`. -/
def alive : String := "alive"

/-- `Suspect`. -/
def suspect : String := "suspect"

/-- `Faulty`. -/
def faulty : String := "faulty"

/-- `Leave`. -/
def leave : String := "leave"

/-- `Member`. -/
structure Member where
  address : String
  status : String
  incarnation : ℤ
deriving DecidableEq, Repr

/-- `Change`. -/
structure Change where
  source : String
  sourceIncarnation : ℤ
  address : String
  incarnation : ℤ
  status : String
deriving DecidableEq, Repr

/-- `statePrecedence`. -/
def statePrecedence (s : String) : Except Fault ℕ :=
  if s = alive then return 0
  else if s = suspect then return 1
  else if s = faulty then return 2
  else if s = leave then return 3
  else throw (.panic "invalid state")

namespace Member

/-- `nonLocalOverride`. -/
def nonLocalOverride (m : Member) (change : Change) : Except Fault Bool := do
  -- change is younger than current member
  if change.incarnation > m.incarnation then return true
  -- change is older than current member
  if change.incarnation < m.incarnation then return false
  let changePrecedence ← statePrecedence change.status
  let memberPrecedence ← statePrecedence m.status
  return decide (changePrecedence > memberPrecedence)

/-- `localOverride`. -/
def localOverride (m : Member) (localAddress : String) (change : Change) : Bool :=
  if m.address ≠ localAddress then false
  else change.status = faulty || change.status = suspect

/-- `isReachable`. -/
def isReachable (m : Member) : Bool := m.status = alive || m.status = suspect

end Member

end Swim
end Ringpop
