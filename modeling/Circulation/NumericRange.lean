import Circulation.Decimal.Reading
import Circulation.Fault
import Circulation.Sum

/-!
The bounds under which the solver's arithmetic stays in range. The cost of any flow is at most the
sum of `|cost| * capacity`, and a reduced cost is at most three times the sum of `|cost|`.
-/

namespace Circulation.NumericRange

def costBound (arcs : List Arc) : Nat :=
  natSum (arcs.map fun a => a.cost.natAbs * a.capacity)

def potentialBound (arcs : List Arc) : Nat :=
  natSum (arcs.map fun a => a.cost.natAbs)

/-- Refuses arcs whose arithmetic could leave the range: a single capacity first, in the order of
the arcs, then the bound on costs, then the bound on potentials. -/
def check (arcs : List Arc) : Except Fault Unit :=
  match arcs.find? fun a => rangeLimit < a.capacity with
  | some a => .error (Fault.capacityTooLarge a.tail a.head a.capacity).raised
  | none =>
    if rangeLimit < costBound arcs then
      .error (Fault.costBoundTooLarge (costBound arcs)).raised
    else if rangeLimit < 3 * potentialBound arcs then
      .error (Fault.potentialBoundTooLarge (potentialBound arcs)).raised
    else .ok ()

def roundUp (what : Text) (x : Float) : Except Fault Int :=
  match Decimal.ceil? x with
  | none => .error (.notFinite what x)
  | some n => if rangeLimit < n.natAbs then .error (.roundedTooLarge what n) else .ok n

end Circulation.NumericRange
