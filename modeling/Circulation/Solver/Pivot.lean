import Circulation.Solver.Validation

/-!
A pivot. The entering arc closes a cycle with the way through the tree between its ends. The cycle
takes up as much flow as its narrowest arc can carry, and that arc makes room on the tree for the
entering arc.
-/

namespace Circulation

/-- The outcome of a pivot. The leaving arc is the entering arc itself if that was the narrowest.
Two numbers of the same arc count as two arcs here. -/
structure Pivot where
  entering : Int
  leaving : Int
  /-- The flow sent around the cycle. -/
  delta : Int
  costChange : Int
deriving DecidableEq, Repr

namespace Pivot

def isDegenerate (p : Pivot) : Bool := p.delta == 0

def treeChanged (p : Pivot) : Bool := p.leaving != p.entering

end Pivot

namespace Network

/-- Keeps the narrower of two arcs. Of equally narrow ones the first-index rule takes the one of the
earlier pair, the other rule the one that it has. -/
def narrower (net : Network) (bland : Bool) (best arc : Int) : Int :=
  if net.capacity arc < net.capacity best ||
      (bland && net.capacity arc == net.capacity best && arc / 2 < best / 2) then arc
  else best

def bottleneck (net : Network) (bland : Bool) (entering : Int) (way : List Int) : Int :=
  way.foldl (net.narrower bland) entering

def augment (net : Network) (delta : Int) (cycle : List Int) : Network :=
  cycle.foldl (fun net arc => net.push delta arc) net

def cycleCost (net : Network) (cycle : List Int) : Int :=
  intSum (cycle.map net.cost)

def exchange (net : Network) (entering leaving : Int) : Except Fault Unit × Network :=
  if leaving = entering then (.ok (), net)
  else
    match net.setTreeStatus entering true with
    | (.error fault, net) => (.error fault, net)
    | (.ok (), net) => net.setTreeStatus leaving false

end Network

namespace Solver

/-- The arcs of the way through the tree from the head of `entering` to its tail. Together with
`entering` they are at most as many as there are nodes. -/
def wayBack (s : Solver) (entering : Int) : Except Fault (List Int) := do
  let (steps, stop) := s.tree.path (s.network.head entering) (s.network.tail entering)
  if s.network.nodeCount < steps.length then throw .outOfBounds
  stop
  if s.network.nodeCount ≤ steps.length then throw .outOfBounds
  let way := steps.map s.tree.stepArc
  if way.any fun arc => !s.network.hasArc arc then throw .outOfBounds
  return way

/-- Changes the rule when the run of pivots without flow reaches its limit, and back when it is
over. -/
def updateRule (s : Solver) : Solver × List Event :=
  if s.options.rule == .bland || !s.options.antiCycling then (s, [])
  else if s.monitor.wantsBland == s.useBland then (s, [])
  else if s.monitor.wantsBland then
    ({ s with useBland := true },
      [.blandChosen s.monitor.streak s.monitor.isStalled s.pivotCount])
  else ({ s with useBland := false }, [.dantzigResumed s.pivotCount s.totalCost])

def note (s : Solver) (p : Pivot) : Solver × List Event :=
  updateRule { s with
    pivotCount := s.pivotCount + 1
    monitor := s.monitor.record (.int s.totalCost) p.isDegenerate }

def pivotAround (s : Solver) (entering : Int) (way : List Int) :
    Except Fault (Pivot × List Event) × Solver :=
  let leaving := s.network.bottleneck s.useBland entering way
  let delta := s.network.capacity leaving
  let cycle := way ++ [entering]
  let p : Pivot := ⟨entering, leaving, delta, delta * s.network.cycleCost cycle⟩
  let (result, network) := (s.network.augment delta cycle).exchange entering leaving
  let s := { s with network, totalCost := s.totalCost + p.costChange }
  match result with
  | .error fault => (.error fault, s)
  | .ok () =>
    let (s, events) := s.note p
    (.ok (p, events ++ [.pivoted entering leaving delta cycle.length s.totalCost]), s)

/-- The pivot of an entering arc, without the check of invariants. The arc has to be off the tree
and to have capacity left. -/
def pivotUnchecked (s : Solver) (entering : Int) : Except Fault (Pivot × List Event) × Solver :=
  if s.network.isTree entering || s.network.capacity entering ≤ 0 then
    (.error (.cannotEnter entering), s)
  else
    match s.wayBack entering with
    | .error fault => (.error fault, s)
    | .ok way => s.pivotAround entering way

/-- What a pivot leaves behind: its outcome or the reason why it broke off, the solver, and what is
worth telling. -/
structure Turn where
  result : Except Fault Pivot
  solver : Solver
  events : List Event

/-- The pivot of an entering arc. If the options ask for it, everything is checked afterwards. -/
def pivot (s : Solver) (entering : Int) : Turn :=
  match s.pivotUnchecked entering with
  | (.error fault, s) => ⟨.error fault, s, []⟩
  | (.ok (p, events), s) =>
    if s.options.checkInvariants then
      match s.validate false with
      | (.error fault, s) => ⟨.error fault, s, events⟩
      | (.ok [], s) => ⟨.ok p, s, events⟩
      | (.ok violations, s) => ⟨.error (.invariantsBroken violations), s, events⟩
    else ⟨.ok p, s, events⟩

end Solver

end Circulation
