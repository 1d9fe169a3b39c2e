/-!
Breaches of what holds between two pivots, and the sentences that describe them.
-/

namespace Circulation

/-- Something that a check of a network or its tree found wrong. -/
inductive Violation where
  | pairTotal (pair : Nat) (total expected : Int)
  | negativeCapacity (arc : Nat) (capacity : Int)
  | flagMismatch (pair : Nat)
  | pairCount (count expected : Nat)
  | closesCycle (pair : Nat)
  | components (count : Int)
  | noParent (node : Nat)
  | wrongDepth (node : Nat) (depth parent parentDepth : Int)
  | misdirected (arc : Int) (node : Nat) (parent : Int)
  | offTree (arc : Int) (node : Nat)
  | negativeCost (arc tail head : Nat) (capacity reducedCost : Int)
deriving DecidableEq, Repr

def Violation.message : Violation → String
  | .pairTotal pair total expected =>
    s!"Pair {pair} holds {total} units of capacity, expected {expected}"
  | .negativeCapacity arc capacity => s!"Arc {arc} has negative residual capacity {capacity}"
  | .flagMismatch pair => s!"Pair {pair} has inconsistent tree flags"
  | .pairCount count expected => s!"Tree has {count} arc pairs, expected {expected}"
  | .closesCycle pair => s!"Tree pair {pair} closes a cycle"
  | .components count => s!"Tree arcs leave {count} disconnected components"
  | .noParent node => s!"Node {node} has no parent in the tree"
  | .wrongDepth node depth parent parentDepth =>
    s!"Node {node} has depth {depth} but its parent {parent} has depth {parentDepth}"
  | .misdirected arc node parent =>
    s!"Arc {arc} does not lead from node {node} to its parent {parent}"
  | .offTree arc node => s!"Arc {arc} to the parent of node {node} is not a tree arc"
  | .negativeCost arc tail head capacity reducedCost =>
    s!"Arc {arc} ({tail} -> {head}) has residual capacity {capacity} and reduced cost {reducedCost}"

end Circulation
