import Circulation.Demo.Output
import Circulation.File.Assignment
import Circulation.Plot.Canvas
import Circulation.Plot.Figure

/-!
A demonstration of assignments: points and centers are read, assigned and saved, and the places of
the points on a canvas are printed. At the end a picture is drawn, if that is possible.
-/

namespace Circulation.Demo.Regions

def placeLine (p : Site) (spot : Float × Float) (center : Option Nat) : String :=
  let number := Decimal.fixed 5 1
  let pixel := Decimal.fixed 6 1
  let name := (center.map toString).getD "-1"
  "  (" ++ number p.x ++ ", " ++ number p.y ++ ") -> pixel (" ++ pixel spot.1 ++ ", " ++
    pixel spot.2 ++ "), center " ++ name

def report (d : File.SiteData) (plan : Assignment.Plan) (canvas : List (Float × Float)) :
    List String :=
  let points := d.points.length
  let centers := d.centers.length
  let quotas := Fault.integers plan.quotas
  let loads := Fault.integers plan.loads
  let cost := plan.totalCost
  [s!"Assigned {points} points to {centers} centers", s!"  quotas: {quotas}", s!"  loads:  {loads}",
    s!"  cost:   {cost}"] ++
    "\nCanvas positions:" ::
      ((d.points.zip canvas).zip plan.assignment).map fun ((p, c), center) => placeLine p c center

def pictureLine (d : File.SiteData) (plan : Assignment.Plan) (available : Bool) :
    Except Fault String :=
  let style := { Plot.Style.standard with available }
  match Plot.figure d.pointsValue d.centersValue (.ofPlan plan) style with
  | .ok _ => .ok "\nPlot saved to sample_assignment.png"
  | .error .plottingMissing => .ok ("\nSkipping plot: " ++ Fault.plottingAdvice)
  | .error fault => .error fault

def run (file : Except Fault ByteArray) (available : Bool) : Output :=
  match file.bind File.SiteData.readBytes with
  | .error fault => .broken fault
  | .ok d =>
    let terms := Assignment.Terms.standard
    match Assignment.plan d.pointsValue d.centersValue terms Options.standard with
    | .error fault => .broken fault
    | .ok plan =>
      match (File.PlanData.ofPlan plan).write with
      | .error fault => .broken fault
      | .ok saved =>
        match Plot.toCanvas (d.points.map fun p => (p.x, p.y)) 400.0 300.0 with
        | .error fault => ⟨"", some saved, some fault⟩
        | .ok canvas =>
          printLines (some saved)
            ((report d plan canvas).map .ok ++ [pictureLine d plan available])

end Circulation.Demo.Regions
