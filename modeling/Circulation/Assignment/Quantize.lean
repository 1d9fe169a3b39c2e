import Circulation.NumericRange
import Circulation.Assignment.Spread

/-!
Costs of joining a center. The power distance of a point to a center is the squared distance less
the center's weight. To make it an integer it is multiplied by a resolution and rounded up. With
normalization the values of a point are divided by a common positive number first: by the
magnitude of the least one if that is negative, and by the greatest one otherwise.
-/

namespace Circulation

namespace Quantize

/-- The common divisor of a point's values, if there is a positive one. -/
def divisor? : List Float → Option Float
  | [] => none
  | x :: xs =>
    let least := Spread.lowest (fun a b : Float => a < b) x xs
    let d := if least < 0.0 then -least else Spread.highest (fun a b : Float => a < b) x xs
    if 0.0 < d then some d else none

def normalized (values : List Float) : List Float :=
  match divisor? values with
  | some d => values.map fun x => x / d
  | none => values

def costs (what : Text) (values : List Float) (resolution : Float) (normalize : Bool) :
    Except Fault (List Int) :=
  (if normalize then normalized values else values).mapM fun x =>
    NumericRange.roundUp what (x * resolution)

@[simp] theorem length_normalized (values : List Float) :
    (normalized values).length = values.length := by
  unfold normalized
  split <;> simp

end Quantize

namespace Site

def squaredDistance (p q : Site) : Float :=
  let dx := p.x - q.x
  let dy := p.y - q.y
  dx * dx + dy * dy

def powerDistance (p c : Site) : Float :=
  p.squaredDistance c - c.weight

def costName (p : Site) : String :=
  "Quantized cost of point (" ++ Decimal.text p.x ++ ", " ++ Decimal.text p.y ++ ")"

/-- What a point costs at each center. The members of sites and the resolution are floating-point
numbers; one given as an integer stands for the nearest of these. -/
def quantizedCosts (p : Site) (centers : List Site) (resolution : Float) (normalize : Bool) :
    Except Fault (List Int) :=
  Quantize.costs p.costName (centers.map p.powerDistance) resolution normalize

end Site

end Circulation
