import Circulation.Fault
import Circulation.Row

/-!
The arcs that leave each node, kept in two doubly linked lists: the arcs on the tree and the others.
Every arc has one pair of links and a flag that says which kind of list it is in, so moving an arc
takes a constant number of steps. `Adjacency.list` is what a list holds.

An arc keeps the number under which it was put into a list, be it negative. In links and heads the
number -1 stands for no arc, so an arc that is put into a list under this number is lost there.
-/

namespace Circulation

/-- The lists of all nodes. `next` and `prev` are indexed by arcs, the heads by nodes. -/
structure Adjacency where
  onTree : Array Bool
  next : Array Int
  prev : Array Int
  treeHead : Array Int
  otherHead : Array Int
deriving Repr

namespace Adjacency

/-- The number that stands for no arc. -/
def noArc : Int := -1

def empty (nodeCount : Nat) : Adjacency :=
  ⟨#[], #[], #[], Array.replicate nodeCount noArc, Array.replicate nodeCount noArc⟩

def grow (adj : Adjacency) : Adjacency :=
  { adj with
    onTree := adj.onTree.push false
    next := adj.next.push noArc
    prev := adj.prev.push noArc }

def isTree (adj : Adjacency) (arc : Int) : Bool :=
  Row.get adj.onTree arc false

def nextOf (adj : Adjacency) (arc : Int) : Int :=
  Row.get adj.next arc noArc

def prevOf (adj : Adjacency) (arc : Int) : Int :=
  Row.get adj.prev arc noArc

def head (adj : Adjacency) (tree : Bool) (node : Nat) : Int :=
  (if tree then adj.treeHead else adj.otherHead).getD node noArc

def setHead (adj : Adjacency) (tree : Bool) (node : Nat) (first : Int) : Adjacency :=
  if tree then { adj with treeHead := adj.treeHead.setIfInBounds node first }
  else { adj with otherHead := adj.otherHead.setIfInBounds node first }

def setNext (adj : Adjacency) (arc after : Int) : Adjacency :=
  { adj with next := Row.put adj.next arc after }

def setPrev (adj : Adjacency) (arc before : Int) : Adjacency :=
  { adj with prev := Row.put adj.prev arc before }

def setFlag (adj : Adjacency) (arc : Int) (tree : Bool) : Adjacency :=
  { adj with onTree := Row.put adj.onTree arc tree }

theorem isTree_setFlag (adj : Adjacency) {arc : Int} (h : Row.holds adj.onTree.size arc)
    (tree : Bool) (other : Int) :
    (adj.setFlag arc tree).isTree other =
      if Row.place adj.onTree.size other = Row.place adj.onTree.size arc then tree
      else adj.isTree other := by
  unfold setFlag isTree
  rw [Row.get_put _ h]

theorem nextOf_setNext (adj : Adjacency) {arc : Int} (h : Row.holds adj.next.size arc)
    (after other : Int) :
    (adj.setNext arc after).nextOf other =
      if Row.place adj.next.size other = Row.place adj.next.size arc then after
      else adj.nextOf other := by
  unfold setNext nextOf
  rw [Row.get_put _ h]

theorem prevOf_setPrev (adj : Adjacency) {arc : Int} (h : Row.holds adj.prev.size arc)
    (before other : Int) :
    (adj.setPrev arc before).prevOf other =
      if Row.place adj.prev.size other = Row.place adj.prev.size arc then before
      else adj.prevOf other := by
  unfold setPrev prevOf
  rw [Row.get_put _ h]

def insert (adj : Adjacency) (node : Nat) (arc : Int) (tree : Bool) : Adjacency :=
  let first := adj.head tree node
  let adj := ((adj.setFlag arc tree).setNext arc first).setPrev arc noArc
  (if first = noArc then adj else adj.setPrev first arc).setHead tree node arc

def unlink (adj : Adjacency) (node : Nat) (arc : Int) (tree : Bool) : Adjacency :=
  let before := adj.prevOf arc
  let after := adj.nextOf arc
  let adj := if before = noArc then adj.setHead tree node after else adj.setNext before after
  let adj := if after = noArc then adj else adj.setPrev after before
  (adj.setNext arc noArc).setPrev arc noArc

/-- Takes an arc out of a list of `node`. The arc's flag has to name that list. -/
def remove (adj : Adjacency) (node : Nat) (arc : Int) (tree : Bool) : Except Fault Adjacency :=
  if adj.isTree arc = tree then .ok (adj.unlink node arc tree) else .error (.notInList arc tree)

/-- The arcs from a given one on. No list is longer than the number of arcs. -/
def chain (adj : Adjacency) : Nat → Int → List Int
  | 0, _ => []
  | fuel + 1, arc => if arc = noArc then [] else arc :: adj.chain fuel (adj.nextOf arc)

def list (adj : Adjacency) (tree : Bool) (node : Nat) : List Int :=
  adj.chain adj.next.size (adj.head tree node)

end Adjacency

end Circulation
