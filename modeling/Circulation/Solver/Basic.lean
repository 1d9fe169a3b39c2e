import Circulation.Event
import Circulation.Network.Build
import Circulation.Options

/-!
A solver holds a network with its flow, the tree as it was last seen from the root, and what it
remembers about its pivots.
-/

namespace Circulation

/-- A solve that is going on. -/
structure Solver where
  options : Options
  network : Network
  tree : Tree
  /-- The first-index rule is in effect. -/
  useBland : Bool
  monitor : Monitor
  /-- The capacities of each pair of arcs at the start. -/
  initialTotals : List Int
  totalCost : Int
  pivotCount : Nat

namespace Solver

/-- The number of recent total costs that are kept. -/
def costWindow : Nat := 50

def start (options : Options) (network : Network) : Solver where
  options := options
  network := network
  tree := Tree.blank network.nodeCount options.root.toValue
  useBland := options.rule == .bland
  monitor := Monitor.start (options.streakLimit.getD (.int (max 1 network.nodeCount))) costWindow
  initialTotals := network.pairTotals
  totalCost := 0
  pivotCount := 0

def create (options : Options) (network : Network) : Except Fault Solver :=
  if options.root.isAtLeast network.nodeCount then
    .error (Fault.rootOutside options.root network.nodeCount).raised
  else .ok (start options network)

def ofValues (nodeCount arcs : Value) (options : Options) : Except Fault Solver := do
  let network ← Network.ofValues nodeCount arcs
  create options network

def builtEvent (net : Network) : Event :=
  .built net.nodeCount net.arcCount (net.nodeCount - 1)

def activeRule (s : Solver) : Rule :=
  if s.useBland then .bland else s.options.rule

def refresh (s : Solver) : Except Fault Unit × Solver :=
  let (result, tree) := s.tree.refresh s.network
  (result, { s with tree })

/-- Looks at the tree anew and chooses an entering arc. None is left at an optimum. -/
def find (s : Solver) : Except Fault (Option Nat) × Solver :=
  match s.refresh with
  | (.error fault, s) => (.error fault, s)
  | (.ok (), s) => (.ok (s.activeRule.select s.network s.tree), s)

def isOptimal (s : Solver) : Except Fault Bool × Solver :=
  let (result, s) := s.find
  (result.map Option.isNone, s)

end Solver

end Circulation
