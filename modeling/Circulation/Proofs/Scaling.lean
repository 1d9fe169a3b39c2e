import Mathlib.Algebra.BigOperators.Ring.List
import Circulation.Proofs.Seeding
import Circulation.Proofs.Way
import Circulation.Solver.Pivot

/-!
A problem in other units: every cost is multiplied by one factor and every capacity by another.
Potentials and reduced costs then have the first factor and flows the second one, and no comparison
comes out differently. So every operation on the network and on its tree does in the other units
what it does in the given ones.
-/

namespace Circulation

theorem Row.put_map {α β : Type} (f : α → β) (xs : Array α) (i : Int) (x : α) :
    Row.put (xs.map f) i (f x) = (Row.put xs i x).map f := by
  simp only [Row.put, Array.size_map, Array.map_setIfInBounds]

/-- The arc in units of cost and of flow that are so many times smaller. -/
def Arc.scaled (a b : Nat) (arc : Arc) : Arc :=
  { arc with capacity := b * arc.capacity, cost := a * arc.cost }

def Edge.scaled (a b : Nat) (e : Edge) : Edge :=
  { e with capacity := b * e.capacity, cost := a * e.cost }

theorem Edge.ofArc_scaled (a b nodeCount position : Nat) (arc : Arc) :
    Edge.ofArc nodeCount position (arc.scaled a b) =
      (Edge.ofArc nodeCount position arc).map (Edge.scaled a b) := by
  obtain ⟨tail, head, capacity, cost⟩ := arc
  change Edge.ofArc nodeCount position ⟨tail, head, b * capacity, a * cost⟩ = _
  simp only [ofArc]
  split
  · rfl
  · split <;> rfl

theorem Edge.ofArcs_scaled (a b : Nat) {nodeCount position : Nat} {arcs : List Arc}
    {edges : List Edge} (h : Edge.ofArcs nodeCount position arcs = .ok edges) :
    Edge.ofArcs nodeCount position (arcs.map (Arc.scaled a b)) =
      .ok (edges.map (Edge.scaled a b)) := by
  induction arcs generalizing position edges with
  | nil =>
    cases h
    rfl
  | cons arc arcs ih =>
    simp only [ofArcs] at h
    obtain ⟨e, hfirst, h⟩ := bind_eq_ok_iff.mp h
    obtain ⟨es, hrest, h⟩ := bind_eq_ok_iff.mp h
    cases h
    simp only [List.map_cons, ofArcs, ofArc_scaled]
    rw [hfirst, ih hrest]
    rfl

namespace Network

def scaled (a b : Nat) (net : Network) : Network :=
  { net with
    edges := net.edges.map (Edge.scaled a b)
    residual := net.residual.map fun capacity => b * capacity }

section Fields

variable (a b : Nat) (net : Network)

@[simp] theorem edgeCount_scaled : (net.scaled a b).edgeCount = net.edgeCount := by
  simp [scaled, edgeCount]

@[simp] theorem arcCount_scaled : (net.scaled a b).arcCount = net.arcCount := by
  simp [scaled, arcCount]

@[simp] theorem hasArc_scaled (arc : Int) : (net.scaled a b).hasArc arc = net.hasArc arc := by
  simp only [hasArc, arcCount_scaled]

theorem getD_edges_scaled (k : Nat) : (net.scaled a b).edges.getD k ⟨0, 0, 0, 0⟩ =
    (net.edges.getD k ⟨0, 0, 0, 0⟩).scaled a b := by
  have hzero : Edge.scaled a b ⟨0, 0, 0, 0⟩ = ⟨0, 0, 0, 0⟩ := by simp [Edge.scaled]
  conv_lhs => rw [← hzero]
  simp only [scaled, Array.getD_eq_getD_getElem?, Array.getElem?_map, Option.getD_map]

theorem edgeOf_scaled (arc : Int) :
    (net.scaled a b).edgeOf arc = (net.edgeOf arc).scaled a b := by
  simp only [edgeOf, arcCount_scaled, getD_edges_scaled]

@[simp] theorem tail_scaled (arc : Int) : (net.scaled a b).tail arc = net.tail arc := by
  simp only [tail, edgeOf_scaled, Edge.scaled]

@[simp] theorem head_scaled (arc : Int) : (net.scaled a b).head arc = net.head arc := by
  simp only [head, edgeOf_scaled, Edge.scaled]

@[simp] theorem cost_scaled (arc : Int) : (net.scaled a b).cost arc = a * net.cost arc := by
  simp only [cost, edgeOf_scaled, Edge.scaled]
  split
  · rfl
  · exact (Int.mul_neg _ _).symm

@[simp] theorem capacity_scaled (arc : Int) :
    (net.scaled a b).capacity arc = b * net.capacity arc := by
  have hmap := Row.get_map (fun capacity : Int => b * capacity) net.residual arc 0
  rwa [Int.mul_zero] at hmap

@[simp] theorem isTree_scaled (arc : Int) : (net.scaled a b).isTree arc = net.isTree arc := rfl

@[simp] theorem arcsFrom_scaled (node : Nat) (tree : Bool) :
    (net.scaled a b).arcsFrom node tree = net.arcsFrom node tree := rfl

theorem flows_scaled : (net.scaled a b).flows = net.flows.map fun flow : Int => b * flow := by
  simp only [flows, edgeCount_scaled, List.map_map]
  refine List.map_congr_left fun k _ => ?_
  simp only [flow, getD_edges_scaled, capacity_scaled, Edge.scaled, Function.comp, Int.mul_sub]
  rfl

theorem residuals_scaled :
    (net.scaled a b).residuals = net.residuals.map fun capacity : Int => b * capacity := by
  simp only [residuals, edgeCount_scaled, List.map_map, capacity_scaled]
  rfl

end Fields

section Pushing

variable (a b : Nat) (net : Network)

theorem addCapacity_scaled (arc amount : Int) : (net.scaled a b).addCapacity arc (b * amount) =
    (net.addCapacity arc amount).scaled a b := by
  simp only [addCapacity, capacity_scaled, ← Int.mul_add, setCapacity]
  simp only [scaled, ← Row.put_map]

theorem push_scaled (amount arc : Int) :
    (net.scaled a b).push (b * amount) arc = (net.push amount arc).scaled a b := by
  simp only [push, ← Int.mul_neg, addCapacity_scaled]

theorem augment_scaled (delta : Int) (cycle : List Int) :
    (net.scaled a b).augment (b * delta) cycle = (net.augment delta cycle).scaled a b := by
  induction cycle generalizing net with
  | nil => rfl
  | cons arc cycle ih =>
    simp only [augment] at ih ⊢
    rw [List.foldl_cons, List.foldl_cons, push_scaled, ih]

theorem cycleCost_scaled (cycle : List Int) :
    (net.scaled a b).cycleCost cycle = a * net.cycleCost cycle := by
  have hcost : (net.scaled a b).cost = fun arc => a * net.cost arc := funext (net.cost_scaled a b)
  rw [cycleCost, cycleCost, hcost, intSum_eq_sum, intSum_eq_sum, List.sum_map_mul_left]

end Pushing

section Moving

variable (a b : Nat) (net : Network)

theorem insertAtHead_scaled (arc : Int) (tree : Bool) :
    (net.scaled a b).insertAtHead arc tree = (net.insertAtHead arc tree).scaled a b := by
  simp only [insertAtHead, tail_scaled]
  rfl

theorem move_scaled (arc : Int) (tree : Bool) :
    (net.scaled a b).move arc tree = (net.move arc tree).map (scaled a b) := by
  have hadjacency : (net.scaled a b).adjacency = net.adjacency := rfl
  simp only [move, removeFromList, tail_scaled, hadjacency]
  cases net.adjacency.remove (net.tail arc) arc !tree with
  | error fault => rfl
  | ok adj =>
    exact congrArg Except.ok (insertAtHead_scaled a b { net with adjacency := adj } arc tree)

theorem setTreeStatus_scaled (arc : Int) (tree : Bool) : (net.scaled a b).setTreeStatus arc tree =
    ((net.setTreeStatus arc tree).1, (net.setTreeStatus arc tree).2.scaled a b) := by
  simp only [setTreeStatus, move_scaled]
  cases net.move arc tree with
  | error fault => rfl
  | ok moved =>
    simp only [Except.map, move_scaled]
    cases moved.move (twin arc) tree with
    | error fault => rfl
    | ok both => rfl

theorem exchange_scaled (entering leaving : Int) : (net.scaled a b).exchange entering leaving =
    ((net.exchange entering leaving).1, (net.exchange entering leaving).2.scaled a b) := by
  simp only [exchange, setTreeStatus_scaled]
  split
  · rfl
  · cases net.setTreeStatus entering true with
    | mk result moved =>
      cases result with
      | error fault => rfl
      | ok _ => simp only [setTreeStatus_scaled]

end Moving

section Building

variable (a b : Nat)

theorem addEdge_scaled (net : Network) (e : Edge) (tree : Bool) :
    (net.scaled a b).addEdge (e.scaled a b) tree = (net.addEdge e tree).scaled a b := by
  have hgrown : (⟨net.nodeCount, net.edges.push e, (net.residual.push e.capacity).push 0,
      net.adjacency.grow.grow⟩ : Network).scaled a b =
        ⟨net.nodeCount, (net.scaled a b).edges.push (e.scaled a b),
          ((net.scaled a b).residual.push (e.scaled a b).capacity).push 0,
          net.adjacency.grow.grow⟩ := by
    simp [scaled, Edge.scaled]
  simp only [addEdge, arcCount_scaled, ← insertAtHead_scaled, hgrown]
  rfl

def Seed.scaled (a b : Nat) (s : Seed) : Seed := ⟨s.network.scaled a b, s.parts⟩

theorem Seed.add_scaled (s : Seed) (e : Edge) :
    (s.scaled a b).add (e.scaled a b) = (s.add e).scaled a b := by
  simp only [add, scaled, addEdge_scaled]
  rfl

theorem Seed.ofEdges_scaled (nodeCount : Nat) (edges : List Edge) :
    ofEdges nodeCount (edges.map (Edge.scaled a b)) = (ofEdges nodeCount edges).scaled a b := by
  have hfold : ∀ s : Seed, (edges.map (Edge.scaled a b)).foldl add (s.scaled a b) =
      (edges.foldl add s).scaled a b := by
    induction edges with
    | nil => exact fun _ => rfl
    | cons e edges ih =>
      intro s
      rw [List.map_cons, List.foldl_cons, List.foldl_cons, add_scaled, ih]
  have hstart : (Seed.start nodeCount).scaled a b = Seed.start nodeCount := by
    simp [Seed.start, Seed.scaled, Network.scaled, Network.empty]
  simp only [ofEdges]
  rw [← hfold, hstart]

theorem ofArcs_scaled {nodeCount : Nat} {arcs : List Arc} {net net' : Network}
    (h : ofArcs nodeCount arcs = .ok net)
    (h' : ofArcs nodeCount (arcs.map (Arc.scaled a b)) = .ok net') : net' = net.scaled a b := by
  obtain ⟨edges, hedges, -, -, -, rfl⟩ := ofArcsWithin_eq_ok_iff.mp h
  obtain ⟨edges', hedges', -, -, -, rfl⟩ := ofArcsWithin_eq_ok_iff.mp h'
  cases (Edge.ofArcs_scaled a b hedges).symm.trans hedges'
  rw [Seed.ofEdges_scaled]
  rfl

end Building

end Network

namespace Tree

def scaled (a : Nat) (t : Tree) : Tree :=
  { t with potential := t.potential.map fun potential => a * potential }

section Walk

variable (a b : Nat) (net : Network) (t : Tree)

@[simp] theorem potentialOf_scaled (node : Int) :
    (t.scaled a).potentialOf node = a * t.potentialOf node := by
  have hmap := Row.get_map (fun potential : Int => a * potential) t.potential node 0
  rwa [Int.mul_zero] at hmap

theorem scaled_blank (nodeCount : Nat) (root : Value) :
    (blank nodeCount root).scaled a = blank nodeCount root := by
  simp [scaled, blank]

theorem clear_scaled : (t.scaled a).clear = t.clear.scaled a :=
  (scaled_blank a t.nodeCount t.root).symm

theorem link_scaled (node arc : Int) :
    (t.scaled a).link (net.scaled a b) node arc = (t.link net node arc).scaled a := by
  simp only [link, Network.head_scaled]
  rfl

theorem adopt_scaled (node arc : Int) :
    (t.scaled a).adopt (net.scaled a b) node arc = (t.adopt net node arc).scaled a := by
  simp only [adopt, link_scaled, potentialOf_scaled, Network.head_scaled, Network.cost_scaled,
    ← Int.mul_sub]
  simp only [scaled, Array.map_setIfInBounds]

def Walk.scaled (a : Nat) (w : Walk) : Walk := { w with tree := w.tree.scaled a }

theorem Walk.reach_scaled (w : Walk) (node arc : Int) :
    (w.scaled a).reach (net.scaled a b) node arc = (w.reach net node arc).scaled a := by
  simp only [reach, scaled, adopt_scaled, Network.head_scaled]

theorem Walk.scan_scaled (node : Int) (arcs : List Int) (w : Walk) :
    scan (net.scaled a b) node arcs (w.scaled a) =
      ((scan net node arcs w).1, (scan net node arcs w).2.scaled a) := by
  induction arcs generalizing w with
  | nil => rfl
  | cons arc arcs ih =>
    have hup : (w.scaled a).tree.upArcOf node = w.tree.upArcOf node := rfl
    have hvisited : (w.scaled a).visited = w.visited := rfl
    simp only [scan, hup, hvisited, Network.head_scaled, reach_scaled, ih]
    split
    · rfl
    · split <;> rfl

theorem Walk.run_scaled (fuel : Nat) (w : Walk) : (w.scaled a).run (net.scaled a b) fuel =
    ((w.run net fuel).1, (w.run net fuel).2.scaled a) := by
  induction fuel generalizing w with
  | zero => rfl
  | succ fuel ih =>
    have hstack : (w.scaled a).stack = w.stack := rfl
    simp only [run, hstack, Network.arcsFrom_scaled]
    cases w.stack with
    | nil => rfl
    | cons node rest =>
      have hpopped : ({ w.scaled a with stack := rest } : Walk) =
          ({ w with stack := rest } : Walk).scaled a := rfl
      have hnodes : (net.scaled a b).nodeCount = net.nodeCount := rfl
      simp only [hpopped, hnodes, scan_scaled]
      cases scan net node (net.arcsFrom (Row.place net.nodeCount node) true)
        { w with stack := rest } with
      | mk result w' =>
        cases result with
        | error fault => rfl
        | ok _ => exact ih w'

theorem refresh_scaled : (t.scaled a).refresh (net.scaled a b) =
    ((t.refresh net).1, (t.refresh net).2.scaled a) := by
  have hroot : (t.scaled a).root = t.root := rfl
  have hhas : ∀ node, (t.scaled a).hasNode node = t.hasNode node := fun _ => rfl
  have hreached : ∀ reached, (t.scaled a).checkReached reached = t.checkReached reached :=
    fun _ => rfl
  have hcount : (t.scaled a).nodeCount = t.nodeCount := rfl
  have hnodes : (net.scaled a b).nodeCount = net.nodeCount := rfl
  have hstart : ∀ root, Walk.start (t.scaled a) root = (Walk.start t root).scaled a := by
    intro root
    simp only [Walk.start, Walk.scaled, clear_scaled, hcount]
  simp only [refresh, hroot]
  cases t.root with
  | int root =>
    simp only [refreshFrom, hhas, hcount, hreached, hstart, Walk.run_scaled, clear_scaled]
    split
    · cases (Walk.start t root).run net t.nodeCount with
      | mk result w =>
        cases result with
        | error fault => rfl
        | ok _ => rfl
    · rfl
  | bool truth =>
    simp only [refreshFromTruth, hhas, hreached, hnodes, clear_scaled, Network.arcsFrom_scaled,
      Network.head_scaled, link_scaled]
    split
    · split
      · rfl
      · split <;> rfl
    · rfl
  | _ => simp only [clear_scaled]

end Walk

section Path

variable (a : Nat) (t : Tree)

theorem climb_scaled (floor : Int) (fuel : Nat) (node : Int) :
    (t.scaled a).climb floor fuel node = t.climb floor fuel node := by
  induction fuel generalizing node with
  | zero => rfl
  | succ fuel ih =>
    simp only [climb, ih]
    rfl

theorem meet_scaled (fuel : Nat) (x y : Int) :
    (t.scaled a).meet fuel x y = t.meet fuel x y := by
  induction fuel generalizing x y with
  | zero => rfl
  | succ fuel ih =>
    simp only [meet, ih]
    rfl

theorem path_scaled (x y : Int) : (t.scaled a).path x y = t.path x y := by
  simp only [path, wayBetween, climb_scaled, meet_scaled]
  rfl

end Path

end Tree

section Comparing

variable {a b : Nat} (net : Network) (t : Tree)

theorem mul_natCast_lt_iff (ha : 0 < a) {m n : Int} : a * m < a * n ↔ m < n :=
  Int.mul_lt_mul_left (by omega)

theorem mul_natCast_eq_iff (ha : 0 < a) {m n : Int} : a * m = a * n ↔ m = n :=
  Int.mul_eq_mul_left_iff (by omega)

theorem Network.narrower_scaled (hb : 0 < b) (bland : Bool) :
    (net.scaled a b).narrower bland = net.narrower bland := by
  funext best arc
  simp only [narrower, capacity_scaled]
  congr 1
  simp [mul_natCast_lt_iff hb, mul_natCast_eq_iff hb]

theorem Network.bottleneck_scaled (hb : 0 < b) (bland : Bool) (entering : Int) (way : List Int) :
    (net.scaled a b).bottleneck bland entering way = net.bottleneck bland entering way := by
  simp only [bottleneck, narrower_scaled net hb]

@[simp] theorem Network.reducedCost_scaled (arc : Int) :
    (net.scaled a b).reducedCost (t.scaled a) arc = a * net.reducedCost t arc := by
  simp only [reducedCost, cost_scaled, tail_scaled, head_scaled, Tree.potentialOf_scaled,
    ← Int.mul_sub, ← Int.mul_add]

theorem Network.isEligible_scaled (ha : 0 < a) (hb : 0 < b) (arc : Int) :
    (net.scaled a b).isEligible (t.scaled a) arc = net.isEligible t arc := by
  have hroom : 0 < b * net.capacity arc ↔ 0 < net.capacity arc := by
    simpa using mul_natCast_lt_iff hb (m := 0) (n := net.capacity arc)
  have hneg : a * net.reducedCost t arc < 0 ↔ net.reducedCost t arc < 0 := by
    simpa using mul_natCast_lt_iff ha (m := net.reducedCost t arc) (n := 0)
  simp only [isEligible, isTree_scaled, capacity_scaled, reducedCost_scaled, hroom, hneg]

theorem Rule.select_scaled (ha : 0 < a) (hb : 0 < b) (r : Rule) :
    r.select (net.scaled a b) (t.scaled a) = r.select net t := by
  have heligible : eligible (net.scaled a b) (t.scaled a) = eligible net t := by
    simp only [eligible, Network.arcCount_scaled, Network.isEligible_scaled net t ha hb]
  have hbetter : better (net.scaled a b) (t.scaled a) = better net t := by
    funext best arc
    cases best with
    | none => rfl
    | some best => simp only [better, Network.reducedCost_scaled, mul_natCast_lt_iff ha]
  cases r with
  | dantzig => simp only [select, heligible, hbetter]
  | bland => simp only [select, heligible]

end Comparing

end Circulation
