/-!
# Sets of characters given by their boundaries

A class of characters that a standard lists as ranges of code points is kept as one increasing array
of boundaries: the code points at which membership switches on and off, beginning with the first
member. A code point belongs to the class exactly when an odd number of boundaries lie at or below
it (`CharSet.mem`). A table of such a class gives the lengths of the stretches between boundaries
(`CharSet.ofSteps`).
-/

namespace RobotSource.Text

/-- A set of characters, as the increasing sequence of code points where membership switches. -/
structure CharSet where
  bounds : Array Nat

namespace CharSet

/-- The boundaries at these distances, each from the one before, and the first one from `here`. -/
def boundsFrom (here : Nat) : List Nat → List Nat
  | [] => []
  | step :: steps => (here + step) :: boundsFrom (here + step) steps

/-- The set whose boundaries lie at these distances, each from the one before. -/
def ofSteps (steps : List Nat) : CharSet := ⟨(boundsFrom 0 steps).toArray⟩

/-- How many boundaries lie at or below `x`, searched between the indices `lo` and `hi`: everything
below index `lo` is at most `x`, everything from `hi` on is above it. -/
def countUpTo (bounds : Array Nat) (x lo hi : Nat) : Nat :=
  if lo < hi then
    let mid := (lo + hi) / 2
    if bounds.getD mid 0 ≤ x then countUpTo bounds x (mid + 1) hi else countUpTo bounds x lo mid
  else lo
termination_by hi - lo

/-- Membership: an odd number of switches has happened by the time the code point is reached. -/
def mem (s : CharSet) (c : Char) : Bool :=
  countUpTo s.bounds c.toNat 0 s.bounds.size % 2 == 1

end CharSet

end RobotSource.Text
