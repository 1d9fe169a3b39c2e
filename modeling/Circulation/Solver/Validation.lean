import Circulation.Solver.Basic
import Circulation.Tree.Path

/-!
Checks of what holds between two pivots: each pair of arcs keeps its capacity, the tree arcs span
the network, the tree as seen from the root agrees with them, and at an optimum no arc with
capacity left has a negative reduced cost.
-/

namespace Circulation

/-- The most breaches of one kind that are reported. -/
def reportLimit : Nat := 20

namespace Network

def capacityViolations (net : Network) (expected : List Int) : List Violation :=
  let totals := net.pairTotals.zip expected
  let mismatched := totals.zipIdx.filter fun ((total, want), _) => total != want
  let negative := (List.range net.arcCount).filter fun arc : Nat => net.capacity arc < 0
  ((mismatched.take reportLimit).map fun ((total, want), k) => .pairTotal k total want) ++
    (negative.take reportLimit).map fun arc : Nat => .negativeCapacity arc (net.capacity arc)

/-- Joins the ends of tree pairs one after another. The parts that are left, and the pairs whose
ends were joined before. -/
def joinPairs (net : Network) : List Nat → Partition → Partition × List Nat
  | [], parts => (parts, [])
  | k :: ks, parts =>
    let (parts, joined) := parts.union (net.tail (2 * k)) (net.head (2 * k))
    let (parts, closing) := net.joinPairs ks parts
    (parts, if joined then closing else k :: closing)

/-- What keeps the flagged pairs from being a tree that spans the network. -/
def treeViolations (net : Network) : List Violation :=
  let mismatched := (List.range net.edgeCount).filter fun k : Nat =>
    net.isTree (2 * k) != net.isTree (2 * k + 1)
  let pairs := net.treePairs
  let (parts, closing) := net.joinPairs pairs (Partition.discrete net.nodeCount)
  ((mismatched.take reportLimit).map .flagMismatch) ++
    (if pairs.length = net.nodeCount - 1 then []
      else [.pairCount pairs.length (net.nodeCount - 1)]) ++
    closing.map .closesCycle ++
    (if parts.components = 1 then [] else [.components parts.components])

def linkViolations (net : Network) (t : Tree) (node : Nat) (parent arc : Int) : List Violation :=
  (if t.depthOf node = t.depthOf parent + 1 then []
    else [.wrongDepth node (t.depthOf node) parent (t.depthOf parent)]) ++
    (if (net.tail arc : Int) = node ∧ (net.head arc : Int) = parent then []
      else [.misdirected arc node parent]) ++
    (if net.isTree arc then [] else [.offTree arc node])

/-- Goes through nodes and adds what is wrong with each. It ends once the report is full after a
node that has a parent, or at a parent or an arc that does not exist. -/
def bookkeepingFrom (net : Network) (t : Tree) :
    List Nat → List Violation → Except Fault (List Violation)
  | [], found => .ok found
  | node :: nodes, found =>
    if t.isRoot node then net.bookkeepingFrom t nodes found
    else if t.parentOf node < 0 || t.upArcOf node < 0 then
      net.bookkeepingFrom t nodes (found ++ [.noParent node])
    else if !(t.hasNode (t.parentOf node) && net.hasArc (t.upArcOf node)) then .error .outOfBounds
    else
      let found := found ++ net.linkViolations t node (t.parentOf node) (t.upArcOf node)
      if reportLimit ≤ found.length then .ok found else net.bookkeepingFrom t nodes found

def bookkeepingViolations (net : Network) (t : Tree) : Except Fault (List Violation) :=
  net.bookkeepingFrom t (List.range net.nodeCount) []

def optimalityViolations (net : Network) (t : Tree) : List Violation :=
  let improving := (List.range net.arcCount).filter fun arc : Nat =>
    0 < net.capacity arc && net.wordCost t arc < 0
  (improving.take reportLimit).map fun arc : Nat =>
    .negativeCost arc (net.tail arc) (net.head arc) (net.capacity arc)
      (net.wordCost t arc).toInt

end Network

namespace Solver

/-- Everything that is wrong with a solver. The tree is looked at anew only if its arcs span the
network. -/
def validate (s : Solver) (requireOptimal : Bool) : Except Fault (List Violation) × Solver :=
  let capacities := s.network.capacityViolations s.initialTotals
  let tree := s.network.treeViolations
  if tree.isEmpty then
    match s.refresh with
    | (.error fault, s) => (.error fault, s)
    | (.ok (), s) =>
      let optimality := if requireOptimal then s.network.optimalityViolations s.tree else []
      let links := s.network.bookkeepingViolations s.tree
      (links.map fun links => capacities ++ links ++ optimality, s)
  else (.ok (capacities ++ tree), s)

end Solver

end Circulation
