import Circulation.Assignment.Plan
import Circulation.Json.Reader
import Circulation.Json.Writer

/-!
Assignment problems and plans in files. A problem is a record with points and centers, or a bare
list of points.
-/

namespace Circulation.File

structure SiteData where
  points : List Site
  centers : List Site

/-- Sites from data. Centers that are missing, empty or false are none. -/
def SiteData.ofValue : Value → Except Fault SiteData
  | .list items => do return ⟨← Site.listOfValue .point (.list items), []⟩
  | .record members =>
    match member? members "points" with
    | some (.list items) =>
      let centers := (member? members "centers").getD .null
      match centers, centers.isTrue with
      | .list given, _ => do
        let points ← Site.listOfValue .point (.list items)
        return ⟨points, ← Site.listOfValue .center (.list given)⟩
      | _, false => do return ⟨← Site.listOfValue .point (.list items), []⟩
      | other, true => .error (.centersNotList other)
    | _ => .error .pointsMissing
  | _ => .error .pointsMissing

def SiteData.readBytes (bytes : ByteArray) : Except Fault SiteData := do
  SiteData.ofValue (← Json.readBytes bytes)

def SiteData.pointsValue (d : SiteData) : Value :=
  .list (d.points.map fun s => .site .point s)

def SiteData.centersValue (d : SiteData) : Value :=
  .list (d.centers.map fun s => .site .center s)

/-- A plan as a file has it: whatever a caller says. -/
structure PlanData where
  totalCost : Value
  iterations : Value
  assignment : Value
  loads : Value
  quotas : Value
  regionLoads : Value

def PlanData.ofPlan (plan : Assignment.Plan) : PlanData where
  totalCost := .int plan.totalCost
  iterations := .int plan.iterations
  assignment := .list (plan.assignment.map Assignment.centerValue)
  loads := .list (plan.loads.map .int)
  quotas := .list (plan.quotas.map .int)
  regionLoads := .list (plan.regionLoads.map .int)

def PlanData.write (d : PlanData) : Except Fault String := do
  let spread ← Spread.ofValue d.regionLoads
  Json.save <| .record [("total_cost", d.totalCost), ("iterations", d.iterations),
    ("assignment", d.assignment), ("loads", d.loads), ("quotas", d.quotas),
    ("region_loads", d.regionLoads), ("population_spread", .float spread)]

end Circulation.File
