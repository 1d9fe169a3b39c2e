import Circulation.Monitor
import Circulation.Pricing

/-!
What is worth telling about a run while it goes on. An event has a level, a topic, a sentence and
the numbers that belong to it.
-/

namespace Circulation

inductive Level where
  | debug
  | info
  | error
deriving DecidableEq, Repr

def Level.rank : Level → Nat
  | .debug => 0
  | .info => 1
  | .error => 2

inductive Topic where
  | network
  | simplex
  | assignment
deriving DecidableEq, Repr

/-- An event with its numbers. -/
inductive Event where
  | built (nodes arcs treePairs : Nat)
  | started (nodes arcs : Nat) (maxIterations : Number) (rule : Rule) (totalCost : Int)
  | pivoted (entering leaving delta : Int) (cycleLength : Nat) (totalCost : Int)
  | blandChosen (streak : Nat) (stalled : Bool) (pivots : Nat)
  | dantzigResumed (pivots : Nat) (totalCost : Int)
  | limitReached (iterations : Nat) (maxIterations : Number) (totalCost : Int)
  | completed (totalCost : Int) (iterations degenerate : Nat) (convergence : Monitor.Summary)
  | assigned (points centers : Nat) (totalCost : Int) (iterations : Nat)
  | relaxed (round : Nat) (spread : Float) (regionLoads : List Int) (totalCost : Int)

def Monitor.Summary.toValue (s : Monitor.Summary) : Value :=
  .record [("total_pivots", .int s.pivots), ("degenerate_pivots", .int s.degenerate),
    ("degeneracy_ratio", .float s.ratio), ("degenerate_streak", .int s.streak),
    ("longest_streak", .int s.longest), ("cost_window_improvement", s.improvement.toValue),
    ("stalled", .bool s.stalled)]

namespace Event

def level : Event → Level
  | .built .. | .pivoted .. => .debug
  | .limitReached .. => .error
  | _ => .info

def topic : Event → Topic
  | .built .. => .network
  | .assigned .. | .relaxed .. => .assignment
  | _ => .simplex

def message : Event → String
  | .built .. => "Built flow network"
  | .started .. => "Starting network simplex solver"
  | .pivoted .. => "Pivot"
  | .blandChosen .. => "Degenerate streak detected, switching to Bland's rule"
  | .dantzigResumed .. => "Non-degenerate pivot, resuming Dantzig pricing"
  | .limitReached .. => "Iteration limit reached before optimality"
  | .completed .. => "Solver complete"
  | .assigned .. => "Assignment solved"
  | .relaxed .. => "Relaxation round"

def details : Event → List (Text × Value)
  | .built nodes arcs treePairs =>
    [("nodes", .int nodes), ("arcs", .int arcs), ("tree_pairs", .int treePairs)]
  | .started nodes arcs maxIterations rule totalCost =>
    [("nodes", .int nodes), ("arcs", .int arcs), ("max_iterations", maxIterations.toValue),
      ("pricing_strategy", .text rule.name), ("total_cost", .int totalCost)]
  | .pivoted entering leaving delta cycleLength totalCost =>
    [("entering_arc", .int entering), ("leaving_arc", .int leaving), ("delta", .int delta),
      ("cycle_length", .int cycleLength), ("total_cost", .int totalCost)]
  | .blandChosen streak stalled pivots =>
    [("degenerate_streak", .int streak), ("cost_stalled", .bool stalled), ("pivots", .int pivots)]
  | .dantzigResumed pivots totalCost => [("pivots", .int pivots), ("total_cost", .int totalCost)]
  | .limitReached iterations maxIterations totalCost =>
    [("iterations", .int iterations), ("max_iterations", maxIterations.toValue),
      ("total_cost", .int totalCost)]
  | .completed totalCost iterations degenerate convergence =>
    [("total_cost", .int totalCost), ("iterations", .int iterations),
      ("degenerate_pivots", .int degenerate), ("convergence", convergence.toValue)]
  | .assigned points centers totalCost iterations =>
    [("points", .int points), ("centers", .int centers), ("total_cost", .int totalCost),
      ("iterations", .int iterations)]
  | .relaxed round spread regionLoads totalCost =>
    [("round", .int round), ("population_spread", .float spread),
      ("region_loads", .list (regionLoads.map fun n => .int n)), ("total_cost", .int totalCost)]

def atLeast (level : Level) (events : List Event) : List Event :=
  events.filter fun e => level.rank ≤ e.level.rank

end Event

end Circulation
