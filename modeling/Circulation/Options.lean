import Circulation.Number.Reading
import Circulation.Pricing

/-!
The choices that a caller has in a solve, and their form as data.
-/

namespace Circulation

/-- The choices for a solve. -/
structure Options where
  /-- The most pivots of a run; the size of the network decides if there is none. -/
  maxIterations : Option Number
  rule : Rule
  /-- Change to the first-index rule while too many pivots in a row move no flow. -/
  antiCycling : Bool
  /-- How many such pivots are too many; the number of nodes if there is none. -/
  streakLimit : Option Number
  root : Number
  /-- Check after each pivot that everything is as it should be. -/
  checkInvariants : Bool

namespace Options

def standard : Options :=
  ⟨none, .dantzig, true, none, .int 0, false⟩

/-- The members of options as data, with what stands for those that are missing. -/
def standardMembers : List (Text × Value) :=
  [("max_iterations", .null), ("pricing_strategy", .text "dantzig"), ("anti_cycling", .bool true),
    ("degenerate_streak_limit", .null), ("root", .int 0), ("check_invariants", .bool false)]

/-- All members of options, those that are given and those that are missing. A member that is not
known is refused. -/
def completed (given : List (Text × Value)) : Except Fault (List (Text × Value)) :=
  if given.any fun m => (member? standardMembers m.1).isNone then .error .wrongKind
  else .ok (standardMembers.map fun m => (m.1, (member? given m.1).getD m.2))

def positive (refusal : Number → Fault) (v : Value) : Except Fault (Option Number) :=
  match v with
  | .null => .ok none
  | v => do
    let x ← v.toNumber
    if x.isAtMost 0 then throw (refusal x).raised
    return some x

def ruleOf (v : Value) : Except Fault Rule :=
  match v with
  | .text t =>
    ((t.toString?.bind Rule.ofName?).map Except.ok).getD (.error (Fault.ruleInvalid v).raised)
  | v => .error (Fault.ruleInvalid v).raised

def rootOf (v : Value) : Except Fault Number := do
  let x ← v.toNumber
  if x.isBelow 0 then throw (Fault.rootNegative x).raised
  return x

def ofMembers (given : List (Text × Value)) : Except Fault Options := do
  let members ← completed given
  let get := fun name => (member? members name).getD .null
  let maxIterations ← positive .maxIterationsNotPositive (get "max_iterations")
  let rule ← ruleOf (get "pricing_strategy")
  let streakLimit ← positive .streakLimitNotPositive (get "degenerate_streak_limit")
  let root ← rootOf (get "root")
  return ⟨maxIterations, rule, (get "anti_cycling").isTrue, streakLimit, root,
    (get "check_invariants").isTrue⟩

def ofValue (v : Value) : Except Fault Options :=
  match v with
  | .null => .ok standard
  | .record members => ofMembers members
  | _ => .error .wrongKind

/-- Options as data: each member as it was given, if the options are acceptable. -/
def shown (v : Value) : Except Fault Value := do
  let _ ← ofValue v
  match v with
  | .record members => return .record (← completed members)
  | _ => return .record standardMembers

end Options

end Circulation
