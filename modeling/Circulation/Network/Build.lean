import Circulation.Arc.Reading
import Circulation.Network.Basic
import Circulation.NumericRange
import Circulation.Partition

/-!
Building a network. The arcs are gone through in the order given; one that joins two parts of the
network that were apart goes on the tree. The tree spans the network if the arcs connect it.
-/

namespace Circulation

/-- Gives an arc's ends a meaning. The tail is looked at before the head. -/
def Edge.ofArc (nodeCount position : Nat) (a : Arc) : Except Fault Edge :=
  if a.tail < 0 || nodeCount ≤ a.tail then
    .error (Fault.endpointOutside position a.tail a.head a.tail nodeCount).raised
  else if a.head < 0 || nodeCount ≤ a.head then
    .error (Fault.endpointOutside position a.tail a.head a.head nodeCount).raised
  else .ok ⟨a.tail.toNat, a.head.toNat, a.capacity, a.cost⟩

def Edge.ofArcs (nodeCount position : Nat) : List Arc → Except Fault (List Edge)
  | [] => .ok []
  | a :: as => do
    let e ← Edge.ofArc nodeCount position a
    let es ← Edge.ofArcs nodeCount (position + 1) as
    return e :: es

namespace Network

/-- A network under construction, with the parts that its edges connect. -/
structure Seed where
  network : Network
  parts : Partition

def Seed.add (s : Seed) (e : Edge) : Seed :=
  let (parts, joins) := s.parts.union e.tail e.head
  ⟨s.network.addEdge e joins, parts⟩

def Seed.start (nodeCount : Nat) : Seed :=
  ⟨Network.empty nodeCount, Partition.discrete nodeCount⟩

def Seed.ofEdges (nodeCount : Nat) (edges : List Edge) : Seed :=
  edges.foldl Seed.add (Seed.start nodeCount)

/-- The network of a list of arcs, with its first tree and without flow, on a machine that has room
for rows with so many places. -/
def ofArcsWithin (room nodeCount : Nat) (arcs : List Arc) : Except Fault Network := do
  let edges ← Edge.ofArcs nodeCount 0 arcs
  NumericRange.check arcs
  Row.checkRoom room nodeCount
  let seed := Seed.ofEdges nodeCount edges
  if seed.parts.components = 1 then return seed.network
  else throw (.disconnected seed.parts.components nodeCount)

/-- The network of a list of arcs, where rows may have as many places as rows can have. -/
def ofArcs (nodeCount : Nat) (arcs : List Arc) : Except Fault Network :=
  ofArcsWithin Row.placeLimit nodeCount arcs

def nodeCountOf (v : Value) : Except Fault Nat :=
  match v with
  | .int n => if n < 1 then .error (Fault.nodeCountTooSmall n).raised else .ok n.toNat
  | v => .error (Fault.nodeCountNotInteger v).raised

def ofValuesWithin (room : Nat) (nodeCount arcs : Value) : Except Fault Network := do
  let n ← nodeCountOf nodeCount
  let as ← Arc.listOfValue arcs
  ofArcsWithin room n as

def ofValues (nodeCount arcs : Value) : Except Fault Network :=
  ofValuesWithin Row.placeLimit nodeCount arcs

end Network

end Circulation
