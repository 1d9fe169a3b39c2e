import Circulation.Solver.Pivot

/-!
A run pivots until no arc is left that could enter, or until its budget is spent. What a run reports
is read off the list of its pivots.
-/

namespace Circulation

structure Solution where
  status : String
  totalCost : Int
  iterations : Nat
  degenerate : Nat
  flows : List Int
  residuals : List Int
  potentials : List Int
deriving DecidableEq, Repr

structure Progress where
  iteration : Nat
  maxIterations : Number
  totalCost : Int
  degenerate : Nat
  rule : Rule

namespace Solver

/-- A pivot of a run, with the cost and the rule after it. -/
structure Tick where
  pivot : Pivot
  totalCost : Int
  rule : Rule
  events : List Event

inductive Ending where
  | optimal
  | limit
  /-- The run broke off; the events are those of its last pivot. -/
  | failed (fault : Fault) (events : List Event)

/-- The pivots of a run, its end, and the solver after it. -/
structure Run where
  ticks : List Tick
  ending : Ending
  solver : Solver

def Run.after (tick : Tick) (r : Run) : Run :=
  ⟨tick :: r.ticks, r.ending, r.solver⟩

def Run.iterations (r : Run) : Nat := r.ticks.length

def degenerateCount (ticks : List Tick) : Nat :=
  ticks.countP fun tick => tick.pivot.isDegenerate

/-- Pivots at most as often as the budget says. The budget is looked at only while an arc could
enter. -/
def run (s : Solver) : Nat → Run
  | 0 =>
    match s.find with
    | (.error fault, s) => ⟨[], .failed fault [], s⟩
    | (.ok none, s) => ⟨[], .optimal, s⟩
    | (.ok (some _), s) => ⟨[], .limit, s⟩
  | budget + 1 =>
    match s.find with
    | (.error fault, s) => ⟨[], .failed fault [], s⟩
    | (.ok none, s) => ⟨[], .optimal, s⟩
    | (.ok (some entering), s) =>
      match s.pivot entering with
      | ⟨.error fault, s, events⟩ => ⟨[], .failed fault events, s⟩
      | ⟨.ok p, s, events⟩ => (s.run budget).after ⟨p, s.totalCost, s.activeRule, events⟩

def Run.solution (r : Run) : Solution where
  status := "optimal"
  totalCost := r.solver.totalCost
  iterations := r.iterations
  degenerate := degenerateCount r.ticks
  flows := r.solver.network.flows
  residuals := r.solver.network.residuals
  potentials := r.solver.tree.potential.toList

def Run.result (r : Run) : Except Fault Solution :=
  match r.ending with
  | .optimal => .ok r.solution
  | .limit => .error (.iterationLimit r.iterations r.solver.totalCost)
  | .failed fault _ => .error fault

def Run.progress (r : Run) (maxIterations interval : Number) : List Progress :=
  (r.ticks.zipIdx.filter fun (_, i) => interval.divides (i + 1)).map fun (tick, i) =>
    ⟨i + 1, maxIterations, tick.totalCost, degenerateCount (r.ticks.take (i + 1)), tick.rule⟩

def Run.events (r : Run) (maxIterations : Number) : List Event :=
  r.ticks.flatMap Tick.events ++
    match r.ending with
    | .optimal =>
      let degenerate := degenerateCount r.ticks
      [.completed r.solver.totalCost r.iterations degenerate r.solver.monitor.summary]
    | .limit => [.limitReached r.iterations maxIterations r.solver.totalCost]
    | .failed _ events => events

def defaultBudget (s : Solver) : Number :=
  s.options.maxIterations.getD (.int (max 100 (20 * s.network.arcCount)))

def budgetOf (s : Solver) (maxIterations : Value) : Except Fault Number :=
  match maxIterations with
  | .null => .ok s.defaultBudget
  | v => v.toNumber

/-- It stands for a budget without an end, infinite or undefined, since a run is counted down from a
number. No machine makes so many pivots. -/
def endless : Nat := 18446744073709551616

def pivotsWithin (budget : Number) : Nat :=
  (budget.ceil?.map Int.toNat).getD endless

def defaultInterval : Int := 100

structure Report where
  result : Except Fault Solution
  solver : Solver
  progress : List Progress
  events : List Event

def limits (s : Solver) (maxIterations interval : Value) : Except Fault (Number × Number) := do
  let budget ← s.budgetOf maxIterations
  if budget.isAtMost 0 then throw (Fault.maxIterationsNotPositive budget).raised
  let every ← interval.toNumber
  if every.isAtMost 0 then throw (Fault.progressIntervalNotPositive every).raised
  return (budget, every)

def solve (s : Solver) (maxIterations interval : Value) : Report :=
  match s.limits maxIterations interval with
  | .error fault => ⟨.error fault, s, [], []⟩
  | .ok (budget, every) =>
    let r := s.run (pivotsWithin budget)
    let started : Event := .started s.network.nodeCount s.network.arcCount budget s.activeRule
      s.totalCost
    ⟨r.result, r.solver, r.progress budget every, started :: r.events budget⟩

end Solver

structure Solved where
  result : Except Fault Solution
  progress : List Progress
  events : List Event

/-- Finds a flow of least cost in the network that the data describes. -/
def solveFlow (nodeCount arcs : Value) (options : Options) (maxIterations interval : Value) :
    Solved :=
  match Network.ofValues nodeCount arcs with
  | .error fault => ⟨.error fault, [], []⟩
  | .ok network =>
    match Solver.create options network with
    | .error fault => ⟨.error fault, [], [Solver.builtEvent network]⟩
    | .ok s =>
      let report := s.solve maxIterations interval
      ⟨report.result, report.progress, Solver.builtEvent network :: report.events⟩

end Circulation
