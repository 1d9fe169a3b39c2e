import Circulation.Assignment.Quantize
import Circulation.Assignment.Quotas
import Circulation.Network.Build
import Circulation.Options
import Circulation.Site.Reading

/-!
Assignment problems: each point has a supply, each center a quota, and each pair of them a cost. The
problem is posed as a network in which flow runs from a source through the points and the centers to
a sink and back:

    source --(supply, 0)--> point --(supply, cost)--> center --(quota, 0)--> sink
    sink --(total supply, -return cost)--> source

The return arc pays more for a unit than any way through the network costs, so a flow of least cost
routes the whole supply.
-/

namespace Circulation

inductive Balance where
  /-- Every point counts as one. -/
  | count
  /-- Every point counts as its weight. -/
  | weight
deriving DecidableEq, Repr

def Balance.ofValue (v : Value) : Except Fault Balance :=
  if v.isText "count" then .ok .count
  else if v.isText "weight" then .ok .weight
  else .error (Fault.balanceInvalid v).raised

namespace Assignment

/-- How a problem is posed, as a caller says it. -/
structure Terms where
  balance : Value
  resolution : Float
  normalize : Bool
  /-- The quotas; none stands for the even split. -/
  quotas : Value

def Terms.standard : Terms :=
  ⟨.text "count", 1.0, false, .null⟩

/-- A problem with whole numbers. -/
structure Problem where
  points : List Site
  centers : List Site
  supplies : List Nat
  quotas : List Nat
  /-- For each point the cost of a unit to each center. -/
  costs : List (List Int)
  /-- What the return arc pays for a unit. -/
  returnCost : Int
  /-- What it pays, in the form in which it was stated. -/
  statedReturn : Number

/-- The supply of a point. A weight that counts has to be a whole number that is not negative. -/
def supplyOf (balance : Balance) (p : Site) : Except Fault Nat :=
  match balance with
  | .count => .ok 1
  | .weight =>
    match Decimal.whole? p.weight with
    | some (.ofNat n) => .ok n
    | _ => .error (.weightNotCount p)

/-- Quotas as given: one for each center, none negative, and together the whole supply. -/
def checkedQuotas (quotas : List Int) (centerCount supply : Nat) : Except Fault (List Nat) :=
  if quotas.length ≠ centerCount then .error (.quotaCount quotas.length centerCount)
  else if quotas.any fun q => q < 0 then .error (Fault.quotaNegative quotas).raised
  else if intSum quotas ≠ supply then .error (Fault.quotaTotal (intSum quotas) supply).raised
  else .ok (quotas.map Int.toNat)

def quotasOf (v : Value) (centerCount supply : Nat) : Except Fault (List Nat) :=
  match v with
  | .null => .ok (Quotas.even supply centerCount)
  | v =>
    match v.items? with
    | some items => do checkedQuotas (← items.mapM Value.truncated) centerCount supply
    | none => .error .wrongKind

/-- More than any way through the network costs. -/
def returnCostOf (costs : List (List Int)) (supply : Nat) : Int :=
  match costs.flatten with
  | [] => 1
  | c :: cs =>
    let high := Spread.highest (fun a b => a < b) c cs
    let low := Spread.lowest (fun a b => a < b) c cs
    1 + high.natAbs + supply * (high - low)

namespace Problem

def ofSites (points centers : List Site) (terms : Terms) : Except Fault Problem := do
  let points ← points.mapM (Site.checked .point)
  let centers ← centers.mapM (Site.checked .center)
  if points.isEmpty then throw .noPoints
  if centers.isEmpty then throw .noCenters
  let balance ← Balance.ofValue terms.balance
  if !(terms.resolution.isFinite && 0.0 < terms.resolution) then
    throw (.resolutionInvalid terms.resolution)
  let supplies ← points.mapM (supplyOf balance)
  let quotas ← quotasOf terms.quotas centers.length (natSum supplies)
  let costs ← points.mapM fun p => p.quantizedCosts centers terms.resolution terms.normalize
  let returnCost := returnCostOf costs (natSum supplies)
  return ⟨points, centers, supplies, quotas, costs, returnCost, .int returnCost⟩

def ofValues (points centers : Value) (terms : Terms) : Except Fault Problem := do
  let ps ← Site.listOfValue .point points
  let cs ← Site.listOfValue .center centers
  ofSites ps cs terms

variable (p : Problem)

/-- The problem with another return cost, which has to be a whole number of any kind. It is the cost
of the return arc, with the opposite sign, that is looked at and named. -/
def setReturn (stated : Number) : Except Fault Problem := do
  let cost ← stated.neg.toValue.toInt "Arc cost"
  return { p with returnCost := -cost, statedReturn := stated }

def pointCount : Nat := p.points.length

def centerCount : Nat := p.centers.length

def totalSupply : Nat := natSum p.supplies

def nodeCount : Nat := p.pointCount + p.centerCount + 2

def source : Nat := 0

def sink : Nat := p.pointCount + p.centerCount + 1

def pointNode (i : Nat) : Nat := 1 + i

def centerNode (j : Nat) : Nat := 1 + p.pointCount + j

def assignmentArc (i j : Nat) : Nat := p.pointCount + i * p.centerCount + j

def quotaArc (j : Nat) : Nat := p.pointCount * (1 + p.centerCount) + j

def returnArc : Nat := p.pointCount * (1 + p.centerCount) + p.centerCount

def supplyArcs : List Arc :=
  p.supplies.zipIdx.map fun (supply, i) => ⟨source, pointNode i, supply, 0⟩

def rowArcs (i supply : Nat) (row : List Int) : List Arc :=
  row.zipIdx.map fun (cost, j) => ⟨pointNode i, p.centerNode j, supply, cost⟩

def assignmentArcs : List Arc :=
  (p.supplies.zip p.costs).zipIdx.flatMap fun ((supply, row), i) => p.rowArcs i supply row

def quotaArcs : List Arc :=
  p.quotas.zipIdx.map fun (quota, j) => ⟨p.centerNode j, p.sink, quota, 0⟩

/-- All arcs; their order decides which of them start on the tree. -/
def arcs : List Arc :=
  p.supplyArcs ++ p.assignmentArcs ++ p.quotaArcs ++
    [⟨p.sink, source, p.totalSupply, -p.returnCost⟩]

def network : Except Fault Network :=
  Network.ofArcs p.nodeCount p.arcs

def cheapest (row : List Int) : Nat :=
  match row.zipIdx with
  | [] => 0
  | c :: cs => (Spread.lowest (fun a b => decide (a.1 < b.1)) c cs).2

/-- What each center would receive if every point took its cheapest one. -/
def regionLoads : List Nat :=
  (List.range p.centerCount).map fun j =>
    natSum ((p.supplies.zip p.costs).map fun (supply, row) =>
      if cheapest row = j then supply else 0)

end Problem

end Assignment

end Circulation
