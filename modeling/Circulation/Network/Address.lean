import Circulation.Number.Reading
import Circulation.Tree.Basic

/-!
Positions of nodes, edges and arcs as a caller gives them. A negative number counts from the end,
and a number outside the row is refused. What a caller writes into a row of capacities or potentials
has to fit into 64 bits.
-/

namespace Circulation

def position (size : Nat) (i : Int) : Except Fault Nat :=
  if Row.holds size i then .ok (Row.place size i) else .error .outOfBounds

/-- The places that a value selects for a write to a row: the one that it names, all of them if it
is true or missing, and none if it is false. -/
def selection (size : Nat) (v : Value) : Except Fault (List Int) :=
  let all := (List.range size).map fun k : Nat => (k : Int)
  match v with
  | .null => .ok all
  | .bool true => .ok all
  | .bool false => .ok []
  | .int i => (position size i).map fun _ => [i]
  | _ => .error .outOfBounds

def storable (n : Int) : Except Fault Int :=
  if -(rangeLimit : Int) - 1 ≤ n ∧ n ≤ rangeLimit then .ok n else .error .tooLarge

/-- The number that a value is stored as. A fraction is lost. -/
def stored (v : Value) : Except Fault Int := do
  storable (← v.truncated)

def increased (n : Int) (v : Value) : Except Fault Int :=
  match v with
  | .float x => stored (.float (Float.ofInt n + x))
  | .int m => do return n + (← storable m)
  | .bool b => .ok (n + Number.ofTruth b)
  | _ => .error .wrongKind

namespace Network

def nodeAt (net : Network) (i : Int) : Except Fault Nat := position net.nodeCount i

def edgeAt (net : Network) (i : Int) : Except Fault Nat := position net.edgeCount i

def arcAt (net : Network) (i : Int) : Except Fault Int :=
  if net.hasArc i then .ok i else .error .outOfBounds

/-- The arc that a value names. A truth value or a missing value names no single arc, which is the
given fault. -/
def namedArc (net : Network) (v : Value) (several : Fault) : Except Fault Int :=
  match v with
  | .int i => net.arcAt i
  | .bool _ => .error several
  | .null => .error several
  | _ => .error .outOfBounds

/-- The arc that a value names together with its twin. Only whole numbers have twins. -/
def namedPair (net : Network) (v : Value) : Except Fault Int :=
  match v with
  | .int i => net.arcAt i
  | .bool _ => .error .badValue
  | _ => .error .wrongKind

/-- The edge that a value names. A truth value names no single edge, but its arc has to exist. -/
def namedEdge (net : Network) (v : Value) : Except Fault Nat :=
  match v with
  | .int i => net.edgeAt i
  | .bool b => .error (if 2 * Number.ofTruth b < net.arcCount then .wrongKind else .outOfBounds)
  | .null => .error .wrongKind
  | _ => .error .outOfBounds

def selectedArcs (net : Network) (v : Value) : Except Fault (List Int) :=
  selection net.arcCount v

def selectedNodes (net : Network) (v : Value) : Except Fault (List Nat) := do
  return (← selection net.nodeCount v).map (Row.place net.nodeCount)

end Network

namespace Tree

def setDepth (t : Tree) (node : Nat) (depth : Int) : Tree :=
  { t with depth := t.depth.setIfInBounds node depth }

def setParent (t : Tree) (node : Nat) (parent : Int) : Tree :=
  { t with parent := t.parent.setIfInBounds node parent }

def setUpArc (t : Tree) (node : Nat) (arc : Int) : Tree :=
  { t with upArc := t.upArc.setIfInBounds node arc }

def setPotential (t : Tree) (node : Nat) (potential : Int) : Tree :=
  { t with potential := t.potential.setIfInBounds node potential }

end Tree

end Circulation
