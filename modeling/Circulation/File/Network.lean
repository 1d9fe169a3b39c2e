import Circulation.Json.Reader
import Circulation.Json.Writer
import Circulation.Solver.Run

/-!
Networks and solutions in files. A network is a record with a number of nodes and a list of arcs; a
solution lists only the arcs that carry flow.
-/

namespace Circulation.File

/-- A network as a file has it. The number of nodes is what the file says, a number or a truth
value. -/
structure NetworkData where
  nodeCount : Value
  arcs : List Arc

def isWhole : Value → Bool
  | .int _ => true
  | .bool _ => true
  | _ => false

def NetworkData.ofValue : Value → Except Fault NetworkData
  | .record members =>
    let nodeCount := (member? members "node_count").getD .null
    let arcs := (member? members "arcs").getD .null
    match isWhole nodeCount, arcs with
    | true, .list items => do return ⟨nodeCount, ← Arc.ofItems 0 items⟩
    | _, _ => .error (.networkLacksMembers nodeCount arcs)
  | v => .error (.networkNotRecord v)

def NetworkData.read (text : String) : Except Fault NetworkData := do
  NetworkData.ofValue (← Json.read text)

def NetworkData.readBytes (bytes : ByteArray) : Except Fault NetworkData := do
  NetworkData.ofValue (← Json.readBytes bytes)

def NetworkData.toValue (d : NetworkData) : Value :=
  .record [("node_count", d.nodeCount), ("arcs", .list (d.arcs.map Arc.toValue))]

def NetworkData.write (d : NetworkData) : Except Fault String :=
  Json.save d.toValue

def NetworkData.arcsValue (d : NetworkData) : Value :=
  .list (d.arcs.map fun a => .arc a)

/-- A solution as a file has it: whatever a caller says. -/
structure SolutionData where
  status : Value
  totalCost : Value
  iterations : Value
  flows : Value
  potentials : Value

def SolutionData.ofSolution (s : Solution) : SolutionData where
  status := .text s.status
  totalCost := .int s.totalCost
  iterations := .int s.iterations
  flows := .list (s.flows.map .int)
  potentials := .list (s.potentials.map .int)

def isZero (v : Value) : Bool :=
  v.number?.any fun x => x.equals 0

/-- An entry for an arc with flow. With the arcs at hand its ends are told, too. -/
def flowEntry (arcs : Option (List Arc)) (index : Nat) (flow : Value) : Except Fault Value :=
  match arcs with
  | none => .ok (.record [("arc", .int index), ("flow", flow)])
  | some arcs =>
    match arcs[index]? with
    | some a =>
      .ok (.record [("arc", .int index), ("start", .int a.tail), ("end", .int a.head),
        ("flow", flow)])
    | none => .error .outOfBounds

def SolutionData.flowItems (d : SolutionData) : Except Fault (List Value) :=
  (d.flows.items?.map Except.ok).getD (.error .wrongKind)

def SolutionData.write (d : SolutionData) (arcs : Option (List Arc)) : Except Fault String := do
  let flowing := (← d.flowItems).zipIdx.filter fun f => !isZero f.1
  let flows ← flowing.mapM fun (flow, i) => flowEntry arcs i flow
  Json.save <| .record [("status", d.status), ("total_cost", d.totalCost),
    ("iterations", d.iterations), ("flows", .list flows), ("potentials", d.potentials)]

end Circulation.File
