import Circulation.Assignment.Problem
import Circulation.Solver.Run

/-!
Solving an assignment problem and reading the answer back from the flow. The center of a point is
the one that takes the most of its supply, the first of several.
-/

namespace Circulation.Assignment

structure Plan where
  totalCost : Int
  /-- The center of each point; a point without supply has none. -/
  assignment : List (Option Nat)
  loads : List Int
  quotas : List Int
  iterations : Nat
  regionLoads : List Int
  /-- The flow behind the assignment. -/
  solution : Option Solution

/-- The center of a point as data. A point without a center has the number -1. -/
def centerValue (center : Option Nat) : Value :=
  .int ((center.map fun n => (n : Int)).getD (-1))

def Plan.spread (plan : Plan) : Except Fault Float :=
  Spread.ofInts plan.regionLoads

namespace Problem

variable (p : Problem)

def unitsOf (flows : Array Int) (i j : Nat) : Int :=
  flows.getD (p.assignmentArc i j) 0

def rowFlows (flows : Array Int) (i : Nat) : List Int :=
  (List.range p.centerCount).map (p.unitsOf flows i)

/-- The first center with the largest positive flow. -/
def mainCenter (row : List Int) : Option Nat :=
  (row.zipIdx.foldl (fun (best : Option Nat × Int) (flow, j) =>
    if best.2 < flow then (some j, flow) else best) (none, 0)).1

def costOf (flows : Array Int) : Int :=
  intSum (p.costs.zipIdx.map fun (row, i) =>
    intSum (List.zipWith (· * ·) (p.rowFlows flows i) row))

/-- The cost of a flow without its return arc. Where the return cost was stated as a floating-point
number, the sum is one. -/
def forwardCost (totalCost routed : Int) : Number :=
  match p.statedReturn with
  | .float x => .float (Float.ofInt totalCost + x * Float.ofInt routed)
  | _ => .int (totalCost + p.returnCost * routed)

/-- The assignment that a flow of least cost describes. All supply has to be routed, and the costs
have to agree. -/
def planOf (s : Solution) : Except Fault Plan :=
  let flows := s.flows.toArray
  let routed := flows.getD p.returnArc 0
  let cost := p.costOf flows
  if routed ≠ p.totalSupply then .error (.supplyUnrouted routed p.totalSupply)
  else if !(p.forwardCost s.totalCost routed).equals cost then
    .error (.costDisagrees cost s.totalCost p.statedReturn.neg routed)
  else
    .ok {
      totalCost := cost
      assignment := (List.range p.pointCount).map fun i => mainCenter (p.rowFlows flows i)
      loads := (List.range p.centerCount).map fun j => flows.getD (p.quotaArc j) 0
      quotas := p.quotas.map fun q : Nat => (q : Int)
      iterations := s.iterations
      regionLoads := p.regionLoads.map fun n : Nat => (n : Int)
      solution := some s }

structure Outcome where
  result : Except Fault Plan
  events : List Event

def solve (options : Options) (maxIterations : Value) : Outcome :=
  match p.network with
  | .error fault => ⟨.error fault, []⟩
  | .ok network =>
    let built := Solver.builtEvent network
    match Solver.create options network with
    | .error fault => ⟨.error fault, [built]⟩
    | .ok s =>
      let report := s.solve maxIterations (.int Solver.defaultInterval)
      match report.result with
      | .error fault => ⟨.error fault, built :: report.events⟩
      | .ok solution =>
        match p.planOf solution with
        | .error fault => ⟨.error fault, built :: report.events⟩
        | .ok plan =>
          ⟨.ok plan, built :: report.events ++
            [.assigned p.pointCount p.centerCount plan.totalCost plan.iterations]⟩

def flowsOf (plan : Plan) : Except Fault (Array Int) :=
  match plan.solution with
  | some s => .ok s.flows.toArray
  | none => .error .noSolution

def received (flows : Array Int) (j : Nat) : List (Site × Int) :=
  (p.points.zipIdx.map fun (site, i) => (site, p.unitsOf flows i j)).filter fun r => 0 < r.2

/-- A center moved to the mean of the units that it receives. One that receives nothing stays. -/
def centroid (flows : Array Int) (center : Site) (j : Nat) : Site :=
  let units := p.received flows j
  let count := intSum (units.map (·.2))
  if count = 0 then center
  else
    let x := units.foldl (fun sum (site, n) => sum + Float.ofInt n * site.x) 0.0
    let y := units.foldl (fun sum (site, n) => sum + Float.ofInt n * site.y) 0.0
    ⟨x / Float.ofInt count, y / Float.ofInt count, center.weight⟩

def centroids (plan : Plan) : Except Fault (List Site) := do
  let flows ← flowsOf plan
  return p.centers.zipIdx.map fun (center, j) => p.centroid flows center j

/-- The pairs of a point and a center with flow between them: their squared distance and the number
of units, point by point. -/
def unitDistances (flows : Array Int) : List (Float × Int) :=
  p.points.zipIdx.flatMap fun (site, i) =>
    (p.centers.zipIdx.map fun (center, j) =>
      (site.squaredDistance center, p.unitsOf flows i j)).filter fun r => 0 < r.2

def meanDistance (plan : Plan) : Except Fault Float := do
  let distances := p.unitDistances (← flowsOf plan)
  let total := distances.foldl (fun sum (d, n) => sum + Float.ofInt n * d) 0.0
  let units := intSum (distances.map (·.2))
  return if units = 0 then 0.0 else total / Float.ofInt units

end Problem

def plan (points centers : Value) (terms : Terms) (options : Options) : Except Fault Plan := do
  let p ← Problem.ofValues points centers terms
  (p.solve options .null).result

end Circulation.Assignment
