import Circulation.Assignment.Plan

/-!
Relaxation toward regions of equal load. Each round solves the assignment, moves the centers to
the means of what they received, and makes centers with too small a region cheaper and the others
dearer. The best round is the one with the smallest population spread.
-/

namespace Circulation.Assignment

def shortfall (regionLoad quota : Value) : Except Fault Float := do
  let quota ← quota.toNumber
  let regionLoad ← regionLoad.toNumber
  let mean := 0.5 * (← Spread.within ((quota.add? regionLoad).bind Number.toFloat?))
  if mean == 0.0 then return 0.0
  return (← Spread.within ((quota.sub? regionLoad).bind Number.toFloat?)) / mean

def rawWeights (step : Float) : List Site → List Value → List Value → Except Fault (List Float)
  | c :: cs, load :: loads, quota :: quotas => do
    let w := c.weight + step * (← shortfall load quota)
    return w :: (← rawWeights step cs loads quotas)
  | _, _, _ => .ok []

def adjustWeights (centers : List Site) (regionLoads quotas : List Value) (step : Float) :
    Except Fault (List Site) := do
  if centers.length ≠ regionLoads.length ∨ regionLoads.length ≠ quotas.length then
    throw (.lengthsDiffer centers.length regionLoads.length quotas.length)
  let weights ← rawWeights step centers regionLoads quotas
  let sum := weights.foldl (· + ·) 0.0
  let offset := if weights.isEmpty then 0.0 else sum / Float.ofNat weights.length
  return List.zipWith (fun c w => ⟨c.x, c.y, w - offset⟩) centers weights

namespace Relaxation

structure Settings where
  rounds : Number
  /-- The spread in percent at which to stop. -/
  tolerance : Float
  /-- The scale of the changes of weights; a quarter of the mean distance if there is none. -/
  weightStep : Option Float
  terms : Terms
  options : Options

def Settings.check (s : Settings) : Except Fault Unit :=
  if s.rounds.isBelow 1 then .error (Fault.roundsTooFew s.rounds).raised
  else if s.tolerance < 0.0 then .error (.toleranceNegative s.tolerance)
  else
    match s.weightStep with
    | some step => if 0.0 < step then .ok () else .error (.weightStepNotPositive step)
    | none => .ok ()

/-- A round: its assignment, the centers that it was made with, and its spread. -/
structure Round where
  plan : Plan
  centers : List Site
  spread : Float

def play (s : Settings) (points centers : List Site) : Except Fault (Problem × Round) := do
  let p ← Problem.ofSites points centers s.terms
  let plan ← (p.solve s.options .null).result
  return (p, ⟨plan, centers, ← plan.spread⟩)

def stepAfter (s : Settings) (p : Problem) (r : Round) : Except Fault Float :=
  match s.weightStep with
  | some step => .ok step
  | none => do
    let distance ← p.meanDistance r.plan
    return 0.25 * distance

def advance (s : Settings) (p : Problem) (r : Round) : Except Fault (List Site) := do
  let step ← stepAfter s p r
  adjustWeights (← p.centroids r.plan) (r.plan.regionLoads.map .int) (r.plan.quotas.map .int) step

/-- At most the given number of further rounds, the last of which may reach the tolerance. -/
def roundsFrom (s : Settings) (points : List Site) : Nat → List Site → Except Fault (List Round)
  | 0, _ => .ok []
  | left + 1, centers => do
    let (p, r) ← play s points centers
    if r.spread ≤ s.tolerance then return [r]
    let next ← advance s p r
    return r :: (← roundsFrom s points left next)

def best (first : Round) (rest : List Round) : Round :=
  Spread.lowest (fun a b => a.spread < b.spread) first rest

structure Outcome where
  best : Round
  rounds : List Round
  converged : Bool

def isConverged (s : Settings) (rounds : List Round) : Bool :=
  match rounds.getLast? with
  | some r => r.spread ≤ s.tolerance
  | none => false

/-- The number of rounds. A floating-point number is none. -/
def Settings.roundCount (s : Settings) : Except Fault Nat :=
  match s.rounds with
  | .int n => .ok n.toNat
  | .truth b => .ok (Number.ofTruth b).toNat
  | .float _ => .error .wrongKind

def run (points centers : Value) (s : Settings) : Except Fault Outcome := do
  s.check
  let ps ← Site.listOfValue .point points
  let cs ← Site.listOfValue .center centers
  match ← roundsFrom s ps (← s.roundCount) cs with
  | [] => throw (Fault.roundsTooFew s.rounds).raised
  | first :: rest =>
    return ⟨Relaxation.best first rest, first :: rest, isConverged s (first :: rest)⟩

def Outcome.events (o : Outcome) : List Event :=
  o.rounds.zipIdx.flatMap fun (r, i) =>
    [.assigned r.plan.assignment.length r.centers.length r.plan.totalCost r.plan.iterations,
      .relaxed i r.spread r.plan.regionLoads r.plan.totalCost]

end Relaxation

end Circulation.Assignment
