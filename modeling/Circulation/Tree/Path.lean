import Circulation.Tree.Basic

/-!
The way through the tree from one node to another. Both ends climb toward their common ancestor, the
deeper one first and then both in turn. The arcs on the first end's side run up, those on the other
side run down. They are listed in the order of the climb.
-/

namespace Circulation.Tree

/-- A step of the way: up from a node to its parent, or down to a node from its parent. -/
inductive Step where
  | up (node : Int)
  | down (node : Int)
deriving DecidableEq, Repr

def stepArc (t : Tree) : Step → Int
  | .up node => t.upArcOf node
  | .down node => twin (t.upArcOf node)

def parentAbove (t : Tree) (node : Int) : Except Fault Int :=
  if !t.hasNode node then .error .outOfBounds
  else if t.parentOf node = -1 then .error (.parentless (.int node))
  else .ok (t.parentOf node)

/-- Climbs from a node while it lies deeper than `floor`. The nodes left behind, and the node where
the climb ends, if it is not stuck. -/
def climb (t : Tree) (floor : Int) : Nat → Int → List Int × Except Fault Int
  | 0, node => ([], .ok node)
  | fuel + 1, node =>
    if t.hasNode node && t.depthOf node ≤ floor then ([], .ok node)
    else
      match t.parentAbove node with
      | .error fault => ([], .error fault)
      | .ok parent =>
        let (nodes, stop) := t.climb floor fuel parent
        (node :: nodes, stop)

def meet (t : Tree) : Nat → Int → Int → List Step × Except Fault Unit
  | 0, _, _ => ([], .ok ())
  | fuel + 1, a, b =>
    if a = b then ([], .ok ())
    else if !(t.hasNode a && t.hasNode b) then ([], .error .outOfBounds)
    else
      match t.parentAbove a, t.parentAbove b with
      | .error fault, _ => ([], .error fault)
      | _, .error fault => ([], .error fault)
      | .ok a', .ok b' =>
        let (steps, stop) := t.meet fuel a' b'
        (.up a :: .down b :: steps, stop)

/-- The steps of the way from `a` to `b`, and whether it could be finished. A climb passes no node
twice, and two climbs in turn no pair of nodes. -/
def wayBetween (t : Tree) (a b : Int) : List Step × Except Fault Unit :=
  if !t.hasNode b then ([], .error .outOfBounds)
  else
    match t.climb (t.depthOf b) (t.nodeCount + 1) a with
    | (left, .error fault) => (left.map .up, .error fault)
    | (left, .ok a') =>
      match t.climb (t.depthOf a') (t.nodeCount + 1) b with
      | (right, .error fault) => (left.map .up ++ right.map .down, .error fault)
      | (right, .ok b') =>
        let (steps, stop) := t.meet ((t.nodeCount + 1) * (t.nodeCount + 1)) a' b'
        (left.map .up ++ right.map .down ++ steps, stop)

/-- A fault of a way between nodes with the given names. Other nodes go by the names that the tree
has. -/
def renamed (t : Tree) (given : List Value) (fault : Fault) : Fault :=
  match fault with
  | .parentless (.int node) =>
    .parentless ((given.find? fun name => name.number?.any fun x => x.equals node).getD
      (t.nameOf node))
  | _ => fault

def path (t : Tree) (a b : Int) : List Step × Except Fault Unit :=
  let (steps, stop) := t.wayBetween a b
  (steps, stop.mapError (t.renamed [.int a, .int b]))

/-- The arcs of the way between two nodes that may be given as truth values. -/
def pathArcs (t : Tree) (a b : Value) : Except Fault (List Int) :=
  match a.number?.bind Number.integer?, b.number?.bind Number.integer? with
  | some first, some last =>
    let (steps, stop) := t.wayBetween first last
    (stop.mapError (t.renamed [a, b])).map fun _ => steps.map t.stepArc
  | _, _ => .error .wrongKind

end Circulation.Tree
