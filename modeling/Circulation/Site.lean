/-!
Sites of the plane: the points that are to be assigned and the centers that they are assigned to.
A point's weight is the supply that it carries; a center's weight makes it cheaper to join.
-/

namespace Circulation

/-- A place with a weight. The members are floating-point numbers: one given directly as an integer
stands for the floating-point number nearest to it. -/
structure Site where
  x : Float
  y : Float
  weight : Float

inductive Role where
  | point
  | center
deriving DecidableEq, Repr

def Role.defaultWeight : Role → Float
  | .point => 1.0
  | .center => 0.0

def Site.isFinite (s : Site) : Bool :=
  s.x.isFinite && s.y.isFinite && s.weight.isFinite

end Circulation
