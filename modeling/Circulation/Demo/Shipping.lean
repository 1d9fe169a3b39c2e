import Circulation.Demo.Output
import Circulation.File.Network

/-!
A demonstration of flows: a small shipping problem is read, solved and saved, and its shipments and
node potentials are printed.
-/

namespace Circulation.Demo.Shipping

def names : List String :=
  ["source", "A", "B", "X", "Y", "Z", "sink"]

def nameOf (node : Int) : Except Fault String :=
  if node < 0 then .error .outOfBounds
  else ((names[node.toNat]?).map Except.ok).getD (.error .outOfBounds)

def shipment (lastNode : Int) (a : Arc) (flow : Int) : Option (Except Fault String) :=
  if flow != 0 && a.tail != 0 && a.head != lastNode then
    some do
      let tail ← nameOf a.tail
      let head ← nameOf a.head
      let cost := a.cost
      return s!"  {tail} -> {head}: {flow} units at {cost}/unit"
  else none

def potentialLine (potential : Int) (node : Nat) : Except Fault String := do
  let name ← nameOf node
  return s!"  {name}: {potential}"

/-- What is printed about a solution. The last arc carries back what was shipped. -/
def report (lastNode : Int) (arcs : List Arc) (s : Solution) : List (Except Fault String) :=
  match s.flows.getLast?, arcs.getLast? with
  | some back, some last =>
    let cost := s.totalCost - back * last.cost
    let status := s.status
    let total := s.totalCost
    let pivots := s.iterations
    [.ok s!"Solved sample_network.json: status={status}, total_cost={total}, pivots={pivots}",
      .ok s!"Shipped {back} units at a shipping cost of {cost}", .ok "\nShipments:"] ++
      (arcs.zip s.flows).filterMap (fun (a, flow) => shipment lastNode a flow) ++
      .ok "\nNode potentials:" :: s.potentials.zipIdx.map fun (p, v) => potentialLine p v
  | _, _ => [.error .outOfBounds]

def lastNode (d : File.NetworkData) : Int :=
  match d.nodeCount with
  | .int n => n - 1
  | _ => 0

def run (file : Except Fault ByteArray) : Output :=
  match file.bind File.NetworkData.readBytes with
  | .error fault => .broken fault
  | .ok d =>
    let interval : Value := .int Solver.defaultInterval
    match (solveFlow d.nodeCount d.arcsValue Options.standard .null interval).result with
    | .error fault => .broken fault
    | .ok s =>
      match (File.SolutionData.ofSolution s).write (some d.arcs) with
      | .error fault => .broken fault
      | .ok saved => printLines (some saved) (report (lastNode d) d.arcs s)

end Circulation.Demo.Shipping
