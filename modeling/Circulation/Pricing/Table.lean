import Circulation.Pricing

/-!
Pricing all arcs at once. A table has rows with a place for each arc; it is kept from one pricing to
the next and written over, and only replaced when the number of arcs is another one. What a rule
chooses is read off the rows.
-/

namespace Circulation

structure PriceTable where
  size : Nat
  /-- The reduced cost of each arc. -/
  costs : Vector Int64 size
  work : Vector Int64 size
  /-- Whether each arc can improve the flow. -/
  marks : Vector Bool size
  scratch : Vector Bool size

namespace PriceTable

def blank (size : Nat) : PriceTable :=
  ⟨size, .replicate size 0, .replicate size 0, .replicate size false, .replicate size false⟩

/-- A table for so many arcs. One that has the right size keeps what it holds. -/
def fit (table : PriceTable) (count : Nat) : PriceTable :=
  if table.size = count then table else blank count

@[simp] theorem size_fit (table : PriceTable) (count : Nat) : (table.fit count).size = count := by
  unfold fit
  split
  · assumption
  · rfl

def fill {α : Type} {n : Nat} (row : Vector α n) (value : Nat → α) : Vector α n :=
  row.mapIdx fun place _ => value place

@[simp] theorem getElem_fill {α : Type} {n : Nat} (row : Vector α n) (value : Nat → α) (i : Nat)
    (hi : i < n) : (fill row value)[i] = value i := by
  simp [fill]

/-- The place of the first entry that no other one precedes. -/
def firstBest {α : Type} {n : Nat} (precedes : α → α → Bool) (row : Vector α n) (standard : α) :
    Nat :=
  (List.range n).foldl
    (fun best i => if precedes (row.toArray.getD i standard) (row.toArray.getD best standard) then i
      else best) 0

/-- Makes the arcs without a mark cost nothing. -/
def discount (table : PriceTable) : PriceTable :=
  let scratch := table.marks.map fun mark => !mark
  let costs := table.costs.zipWith (fun cost skip => if skip then (0 : Int64) else cost) scratch
  { table with costs, scratch }

end PriceTable

/-- A network and a tree as seen from its root, with a table for the prices of the arcs. -/
structure Pricing where
  network : Network
  tree : Tree
  table : PriceTable

namespace Pricing

def start (net : Network) (t : Tree) : Pricing :=
  ⟨net, t, .blank 0⟩

def price (p : Pricing) : Pricing :=
  let net := p.network
  let table := p.table.fit net.arcCount
  let costs := PriceTable.fill table.costs fun arc => .ofInt (p.tree.potentialOf (net.head arc))
  let work := PriceTable.fill table.work fun arc => .ofInt (p.tree.potentialOf (net.tail arc))
  let costs := costs.zipWith (· - ·) work
  let costs := costs.mapIdx fun arc cost => cost + .ofInt (net.cost arc)
  let marks := PriceTable.fill table.marks fun arc => decide (0 < net.capacity arc)
  let scratch := costs.map fun cost => decide (cost < 0)
  let marks := marks.zipWith (· && ·) scratch
  let scratch := PriceTable.fill scratch fun arc => !net.isTree arc
  let marks := marks.zipWith (· && ·) scratch
  { p with table := ⟨table.size, costs, work, marks, scratch⟩ }

/-- The first arc of the least reduced cost. Arcs without a mark are made to cost nothing, so that
they come before no arc that can improve the flow. -/
def cheapest (p : Pricing) : Option Nat × Pricing :=
  let table := p.table.discount
  let best := PriceTable.firstBest (fun x y => decide (x < y)) table.costs 0
  (if 0 ≤ table.costs.toArray.getD best 0 then none else some best, { p with table })

def first (p : Pricing) : Option Nat × Pricing :=
  let best := PriceTable.firstBest (fun x y => x && !y) p.table.marks false
  (if p.table.marks.toArray.getD best false then some best else none, p)

def select (p : Pricing) (rule : Rule) : Option Nat × Pricing :=
  if p.network.arcCount = 0 then (none, p)
  else
    match rule with
    | .dantzig => p.price.cheapest
    | .bland => p.price.first

end Pricing

end Circulation
