import Circulation.Tree.Basic

/-!
The choice of the arc that enters the tree. Only arcs off the tree with capacity left and a negative
reduced cost can improve the flow; a rule picks one of them.
-/

namespace Circulation

namespace Network

def reducedCost (net : Network) (t : Tree) (arc : Int) : Int :=
  net.cost arc - t.potentialOf (net.tail arc) + t.potentialOf (net.head arc)

def isEligible (net : Network) (t : Tree) (arc : Int) : Bool :=
  !net.isTree arc && 0 < net.capacity arc && net.reducedCost t arc < 0

/-- An arc's reduced cost in words of 64 bits, where what does not fit is wrapped around. -/
def wordCost (net : Network) (t : Tree) (arc : Int) : Int64 :=
  .ofInt (net.cost arc) - .ofInt (t.potentialOf (net.tail arc)) +
    .ofInt (t.potentialOf (net.head arc))

def reducedCosts (net : Network) (t : Tree) : List Int64 :=
  (List.range net.arcCount).map fun arc : Nat => net.wordCost t arc

def eligibility (net : Network) (costs : List Int64) : List Bool :=
  costs.zipIdx.map fun (cost, arc) => !net.isTree arc && 0 < net.capacity arc && cost < 0

end Network

/-- How the entering arc is chosen among the eligible ones. -/
inductive Rule where
  /-- The least reduced cost, and the first of several arcs that have it. -/
  | dantzig
  /-- The first eligible arc. -/
  | bland
deriving DecidableEq, Repr

namespace Rule

def name : Rule → String
  | .dantzig => "dantzig"
  | .bland => "bland"

def ofName? (s : String) : Option Rule :=
  if s == "dantzig" then some .dantzig else if s == "bland" then some .bland else none

def better (net : Network) (t : Tree) (best : Option Nat) (arc : Nat) : Option Nat :=
  match best with
  | none => some arc
  | some b => if net.reducedCost t arc < net.reducedCost t b then some arc else some b

def eligible (net : Network) (t : Tree) : List Nat :=
  (List.range net.arcCount).filter fun arc : Nat => net.isEligible t arc

def select (r : Rule) (net : Network) (t : Tree) : Option Nat :=
  match r with
  | .dantzig => (eligible net t).foldl (better net t) none
  | .bland => (eligible net t).head?

theorem foldl_better_isSome (net : Network) (t : Tree) (arcs : List Nat) (best : Nat) :
    (arcs.foldl (better net t) (some best)).isSome := by
  induction arcs generalizing best with
  | nil => rfl
  | cons arc arcs ih =>
    rw [List.foldl_cons]
    by_cases h : net.reducedCost t arc < net.reducedCost t best
    · simpa [better, h] using ih arc
    · simpa [better, h] using ih best

theorem select_eq_none_iff (r : Rule) (net : Network) (t : Tree) :
    r.select net t = none ↔ ∀ arc < net.arcCount, net.isEligible t (arc : Nat) = false := by
  have hempty : r.select net t = none ↔ eligible net t = [] := by
    cases r with
    | bland => simp [select]
    | dantzig =>
      unfold select
      cases eligible net t with
      | nil => simp
      | cons arc arcs =>
        have hsome := foldl_better_isSome net t arcs arc
        rw [Option.isSome_iff_ne_none] at hsome
        simpa [better] using hsome
  rw [hempty, eligible, List.filter_eq_nil_iff]
  simp

def ofText (name : Text) : Except Fault Rule :=
  ((name.toString?.bind ofName?).map Except.ok).getD (.error (.ruleUnknown name))

end Rule

end Circulation
