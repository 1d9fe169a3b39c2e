import Circulation.Network.Basic

/-!
What a walk over the tree arcs derives: for each node its depth, its parent, the arc to its parent
and its potential. Along a tree arc the potential falls by the arc's cost, so the reduced cost
`cost - potential tail + potential head` of every tree arc is zero.

Nodes and arcs have the numbers under which the walk met them. The root is what the caller gave, be
it a negative number or no number at all; everywhere else -1 stands for no node and no arc.
-/

namespace Circulation

/-- The tree as seen from its root. -/
structure Tree where
  root : Value
  depth : Array Int
  parent : Array Int
  /-- The tree arc from a node to its parent. -/
  upArc : Array Int
  potential : Array Int

namespace Tree

def blank (nodeCount : Nat) (root : Value) : Tree :=
  ⟨root, Array.replicate nodeCount 0, Array.replicate nodeCount (-1),
    Array.replicate nodeCount (-1), Array.replicate nodeCount 0⟩

def nodeCount (t : Tree) : Nat := t.depth.size

def hasNode (t : Tree) (node : Int) : Bool :=
  Row.holds t.nodeCount node

def clear (t : Tree) : Tree :=
  blank t.nodeCount t.root

def depthOf (t : Tree) (node : Int) : Int := Row.get t.depth node 0

def parentOf (t : Tree) (node : Int) : Int := Row.get t.parent node (-1)

/-- A node by the name that its children have for it. The root goes by the name that the caller
gave. -/
def nameOf (t : Tree) (node : Int) : Value :=
  match t.root with
  | .bool b => if node = Number.ofTruth b then .bool b else .int node
  | _ => .int node

def isRoot (t : Tree) (node : Int) : Bool :=
  t.root.number?.any fun root => root.equals node

def upArcOf (t : Tree) (node : Int) : Int := Row.get t.upArc node (-1)

def potentialOf (t : Tree) (node : Int) : Int := Row.get t.potential node 0

def link (t : Tree) (net : Network) (node arc : Int) : Tree :=
  let child := net.head arc
  { t with
    depth := t.depth.setIfInBounds child (t.depthOf node + 1)
    parent := t.parent.setIfInBounds child node
    upArc := t.upArc.setIfInBounds child (twin arc) }

def adopt (t : Tree) (net : Network) (node arc : Int) : Tree :=
  { t.link net node arc with
    potential := t.potential.setIfInBounds (net.head arc) (t.potentialOf node - net.cost arc) }

/-- A walk over the tree arcs. The nodes on the stack have been reached, but their arcs have not
been looked at. -/
structure Walk where
  tree : Tree
  visited : Array Bool
  stack : List Int
  reached : Nat

namespace Walk

def start (t : Tree) (root : Int) : Walk :=
  ⟨t.clear, Row.put (Array.replicate t.nodeCount false) root true, [root], 1⟩

def reach (w : Walk) (net : Network) (node arc : Int) : Walk :=
  ⟨w.tree.adopt net node arc, w.visited.setIfInBounds (net.head arc) true,
    net.head arc :: w.stack, w.reached + 1⟩

/-- Looks at the tree arcs of a node, except the one to its parent. An arc to a node that was
reached before closes a cycle. -/
def scan (net : Network) (node : Int) : List Int → Walk → Except Fault Unit × Walk
  | [], w => (.ok (), w)
  | arc :: arcs, w =>
    if arc = w.tree.upArcOf node then scan net node arcs w
    else if w.visited.getD (net.head arc) false then
      (.error (.treeCycle (net.head arc) arc), w)
    else scan net node arcs (w.reach net node arc)

def run (net : Network) : Nat → Walk → Except Fault Unit × Walk
  | 0, w => (.ok (), w)
  | fuel + 1, w =>
    match w.stack with
    | [] => (.ok (), w)
    | node :: rest =>
      let arcs := net.arcsFrom (Row.place net.nodeCount node) true
      match scan net node arcs { w with stack := rest } with
      | (.ok (), w) => run net fuel w
      | (.error fault, w) => (.error fault, w)

end Walk

def checkReached (t : Tree) (reached : Nat) : Except Fault Unit :=
  if reached = t.nodeCount then .ok ()
  else .error (.treeNotSpanning t.root reached t.nodeCount)

def refreshFrom (t : Tree) (net : Network) (root : Int) : Except Fault Unit × Tree :=
  if t.hasNode root then
    match (Walk.start t root).run net t.nodeCount with
    | (.error fault, w) => (.error fault, w.tree)
    | (.ok (), w) => (t.checkReached w.reached, w.tree)
  else (.error .outOfBounds, t.clear)

/-- Derives what can be derived from a root that is a truth value. Such a root names a node, but no
potential, so the walk breaks off with the first node below it. -/
def refreshFromTruth (t : Tree) (net : Network) (root : Int) : Except Fault Unit × Tree :=
  if t.hasNode root then
    match net.arcsFrom (Row.place net.nodeCount root) true with
    | [] => (t.checkReached 1, t.clear)
    | arc :: _ =>
      if (net.head arc : Int) = root then (.error (.treeCycle (net.head arc) arc), t.clear)
      else (.error .badValue, t.clear.link net root arc)
  else (.error .outOfBounds, t.clear)

/-- Derives everything anew from the tree arcs of the network. If they do not form a tree that
reaches every node, what was derived until then is kept. A root that names no node is refused. -/
def refresh (t : Tree) (net : Network) : Except Fault Unit × Tree :=
  match t.root with
  | .int root => t.refreshFrom net root
  | .bool b => t.refreshFromTruth net (Number.ofTruth b)
  | _ => (.error .wrongKind, t.clear)

end Tree

end Circulation
