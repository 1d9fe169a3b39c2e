/-!
Arcs as a caller describes them, before a network gives its ends a meaning.
-/

namespace Circulation

/-- A directed arc with a capacity and a cost for each unit of flow. -/
structure Arc where
  tail : Int
  head : Int
  capacity : Nat
  cost : Int
deriving DecidableEq, Repr

end Circulation
