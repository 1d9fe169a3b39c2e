import Circulation.Network.Adjacency

/-!
The residual network. Edge `k` of the input is stored as two arcs: `2 * k` runs along it and
`2 * k + 1` runs back, with the opposite cost. The residual capacities of the two say how much flow
may still be added to the edge and how much may be taken back. A negative number of an arc counts
from the end, and the two arcs of an edge are neighbours there, too.
-/

namespace Circulation

/-- An arc of the input whose ends are nodes of the network. -/
structure Edge where
  tail : Nat
  head : Nat
  capacity : Nat
  cost : Int
deriving DecidableEq, Repr, Inhabited

/-- The arc that runs the other way along the same edge. -/
def twin (arc : Int) : Int :=
  if arc % 2 = 0 then arc + 1 else arc - 1

theorem twin_two_mul (k : Int) : twin (2 * k) = 2 * k + 1 := by
  simp [twin]

theorem twin_two_mul_add_one (k : Int) : twin (2 * k + 1) = 2 * k := by
  have hodd : (2 * k + 1) % 2 = 1 := by omega
  simp [twin, hodd]

@[simp] theorem twin_twin (arc : Int) : twin (twin arc) = arc := by
  unfold twin
  split <;> split <;> omega

theorem twin_ne (arc : Int) : twin arc ≠ arc := by
  unfold twin
  split <;> omega

theorem twin_div_two (arc : Int) : twin arc / 2 = arc / 2 := by
  unfold twin
  split <;> omega

theorem twin_mod_two (arc : Int) : twin arc % 2 = 1 - arc % 2 := by
  unfold twin
  split <;> omega

theorem twin_nonneg {arc : Int} (h : 0 ≤ arc) : 0 ≤ twin arc := by
  unfold twin
  split <;> omega

/-- A network with its flow and its tree. -/
structure Network where
  nodeCount : Nat
  edges : Array Edge
  /-- The residual capacity of each arc. -/
  residual : Array Int
  adjacency : Adjacency
deriving Repr

namespace Network

def empty (nodeCount : Nat) : Network :=
  ⟨nodeCount, #[], #[], Adjacency.empty nodeCount⟩

def edgeCount (net : Network) : Nat := net.edges.size

def arcCount (net : Network) : Nat := 2 * net.edges.size

def hasArc (net : Network) (arc : Int) : Bool :=
  Row.holds net.arcCount arc

def edgeOf (net : Network) (arc : Int) : Edge :=
  net.edges.getD (Row.place net.arcCount arc / 2) ⟨0, 0, 0, 0⟩

def tail (net : Network) (arc : Int) : Nat :=
  if arc % 2 = 0 then (net.edgeOf arc).tail else (net.edgeOf arc).head

def head (net : Network) (arc : Int) : Nat :=
  if arc % 2 = 0 then (net.edgeOf arc).head else (net.edgeOf arc).tail

def cost (net : Network) (arc : Int) : Int :=
  if arc % 2 = 0 then (net.edgeOf arc).cost else -(net.edgeOf arc).cost

theorem edgeOf_twin (net : Network) (arc : Int) : net.edgeOf (twin arc) = net.edgeOf arc := by
  have hplace : Row.place net.arcCount (twin arc) / 2 = Row.place net.arcCount arc / 2 := by
    unfold twin Row.place arcCount
    split <;> split <;> split <;> omega
  simp [edgeOf, hplace]

@[simp] theorem tail_twin (net : Network) (arc : Int) : net.tail (twin arc) = net.head arc := by
  rcases Int.emod_two_eq arc with h | h <;>
    simp [tail, head, edgeOf_twin, twin_mod_two, h]

@[simp] theorem head_twin (net : Network) (arc : Int) : net.head (twin arc) = net.tail arc := by
  rcases Int.emod_two_eq arc with h | h <;>
    simp [tail, head, edgeOf_twin, twin_mod_two, h]

@[simp] theorem cost_twin (net : Network) (arc : Int) : net.cost (twin arc) = -net.cost arc := by
  rcases Int.emod_two_eq arc with h | h <;> simp [cost, edgeOf_twin, twin_mod_two, h]

/-- The flow that may still be sent along an arc. -/
def capacity (net : Network) (arc : Int) : Int :=
  Row.get net.residual arc 0

def isTree (net : Network) (arc : Int) : Bool :=
  net.adjacency.isTree arc

/-- The arcs that leave a node, on the tree or off it, in the order of their list. -/
def arcsFrom (net : Network) (node : Nat) (tree : Bool) : List Int :=
  net.adjacency.list tree node

def setCapacity (net : Network) (arc capacity : Int) : Network :=
  { net with residual := Row.put net.residual arc capacity }

def addCapacity (net : Network) (arc amount : Int) : Network :=
  net.setCapacity arc (net.capacity arc + amount)

def push (net : Network) (amount arc : Int) : Network :=
  (net.addCapacity arc (-amount)).addCapacity (twin arc) amount

theorem size_setCapacity (net : Network) (arc capacity : Int) :
    (net.setCapacity arc capacity).residual.size = net.residual.size := by
  simp [setCapacity]

theorem capacity_setCapacity (net : Network) {arc other : Int} (hpos : 0 ≤ arc)
    (h : arc < net.residual.size) (hother : 0 ≤ other) (capacity : Int) :
    (net.setCapacity arc capacity).capacity other =
      if other = arc then capacity else net.capacity other := by
  have hholds : Row.holds net.residual.size arc := by
    simp only [Row.holds, Bool.and_eq_true, decide_eq_true_eq]
    omega
  have hsame : other.toNat = arc.toNat ↔ other = arc := by omega
  unfold setCapacity Network.capacity
  rw [Row.get_put _ hholds, Row.place_of_nonneg hpos, Row.place_of_nonneg hother]
  simp only [hsame]

theorem capacity_push (net : Network) {arc other : Int} (hpos : 0 ≤ arc)
    (h : arc < net.residual.size) (ht : twin arc < net.residual.size) (hother : 0 ≤ other)
    (amount : Int) :
    (net.push amount arc).capacity other =
      net.capacity other - (if other = arc then amount else 0) +
        (if other = twin arc then amount else 0) := by
  have hne := twin_ne arc
  have htwin := twin_nonneg hpos
  unfold push addCapacity
  rw [capacity_setCapacity _ htwin (by rw [size_setCapacity]; exact ht) hother,
    capacity_setCapacity _ hpos h hother, capacity_setCapacity _ hpos h htwin]
  by_cases hself : other = arc
  · subst hself
    have hnot : ¬ other = twin other := fun h => hne h.symm
    simp only [if_neg hnot, if_true]
    omega
  · by_cases hsame : other = twin arc
    · subst hsame
      simp [hne]
    · simp [hself, hsame]

def setFlag (net : Network) (arc : Int) (tree : Bool) : Network :=
  { net with adjacency := net.adjacency.setFlag arc tree }

def insertAtHead (net : Network) (arc : Int) (tree : Bool) : Network :=
  { net with adjacency := net.adjacency.insert (net.tail arc) arc tree }

def removeFromList (net : Network) (arc : Int) (tree : Bool) : Except Fault Network := do
  return { net with adjacency := ← net.adjacency.remove (net.tail arc) arc tree }

def move (net : Network) (arc : Int) (tree : Bool) : Except Fault Network := do
  return (← net.removeFromList arc !tree).insertAtHead arc tree

/-- Moves an arc and its twin onto the tree or off it. If the second move is refused, the first one
stands. -/
def setTreeStatus (net : Network) (arc : Int) (tree : Bool) : Except Fault Unit × Network :=
  match net.move arc tree with
  | .error fault => (.error fault, net)
  | .ok moved =>
    match moved.move (twin arc) tree with
    | .error fault => (.error fault, moved)
    | .ok both => (.ok (), both)

def addEdge (net : Network) (e : Edge) (tree : Bool) : Network :=
  let grown : Network :=
    ⟨net.nodeCount, net.edges.push e, (net.residual.push e.capacity).push 0,
      net.adjacency.grow.grow⟩
  (grown.insertAtHead net.arcCount tree).insertAtHead (net.arcCount + 1) tree

def flow (net : Network) (edge : Nat) : Int :=
  (net.edges.getD edge ⟨0, 0, 0, 0⟩).capacity - net.capacity (2 * edge)

def flows (net : Network) : List Int :=
  (List.range net.edgeCount).map net.flow

def residuals (net : Network) : List Int :=
  (List.range net.edgeCount).map fun k : Nat => net.capacity (2 * k)

/-- The two residual capacities of each edge together, as 64-bit words. Sending flow changes none of
them. -/
def pairTotals (net : Network) : List Int :=
  (List.range net.edgeCount).map fun k : Nat =>
    (Int64.ofInt (net.capacity (2 * k)) + Int64.ofInt (net.capacity (2 * k + 1))).toInt

def treePairs (net : Network) : List Nat :=
  (List.range net.edgeCount).filter fun k : Nat => net.isTree (2 * k)

end Network

end Circulation
