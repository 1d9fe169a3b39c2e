import Circulation.Decimal.Places
import Circulation.Decimal.Reading
import Circulation.Number
import Circulation.Violation

/-!
Why an operation was refused or broke off. Each cause is a constructor with the data that it
speaks of; `Fault.message` has the wording, and `Fault.category` sorts the causes by who has to
act on them.
-/

namespace Circulation

def rangeLimit : Nat := 9223372036854775807

/-- A cause of failure. -/
inductive Fault where
  /- Descriptions of arcs and networks. -/
  | notInteger (what : String) (got : Value)
  | negativeCapacity (tail head capacity : Int)
  | arcLacksFields (position : Nat) (got : Value)
  | arcNotSequence (position : Nat) (got : Value)
  | arcWrongLength (position : Nat) (got : Value)
  | nodeCountNotInteger (got : Value)
  | nodeCountTooSmall (got : Int)
  | networkNotRecord (got : Value)
  | networkLacksMembers (nodeCount arcs : Value)
  | endpointOutside (position : Nat) (tail head node : Int) (nodeCount : Nat)
  | disconnected (components : Int) (nodeCount : Nat)
  /- Numbers beyond the range of the arithmetic. -/
  | capacityTooLarge (tail head : Int) (capacity : Nat)
  | costBoundTooLarge (bound : Nat)
  | potentialBoundTooLarge (bound : Nat)
  | notFinite (what : Text) (got : Float)
  | roundedTooLarge (what : Text) (got : Int)
  /- Runs of the solver. -/
  | iterationLimit (iterations : Nat) (totalCost : Int)
  | notInList (arc : Int) (tree : Bool)
  | treeCycle (node : Nat) (arc : Int)
  | treeNotSpanning (root : Value) (reached nodeCount : Nat)
  | parentless (node : Value)
  | invariantsBroken (violations : List Violation)
  | supplyUnrouted (routed supply : Int)
  | costDisagrees (cost circulationCost : Int) (returnCost : Number) (routed : Int)
  /- Options. -/
  | maxIterationsNotPositive (got : Number)
  | streakLimitNotPositive (got : Number)
  | ruleInvalid (got : Value)
  | ruleUnknown (got : Text)
  | rootNegative (got : Number)
  | rootOutside (root : Number) (nodeCount : Nat)
  | progressIntervalNotPositive (got : Number)
  /- Assignment problems. -/
  | noPoints
  | noCenters
  | siteWrongLength (role : Role) (got : Value)
  | siteNotNumeric (role : Role) (got : Value)
  | siteNotFinite (role : Role) (got : Site)
  | balanceInvalid (got : Value)
  | resolutionInvalid (got : Float)
  | weightNotCount (got : Site)
  | centerCountTooSmall (got : Number)
  | supplyNegative (got : Number)
  | quotaCount (got expected : Nat)
  | quotaNegative (got : List Int)
  | quotaTotal (got supply : Int)
  | noSolution
  | lengthsDiffer (centers regionLoads quotas : Nat)
  | roundsTooFew (got : Number)
  | toleranceNegative (got : Float)
  | weightStepNotPositive (got : Float)
  | pointsMissing
  | centersNotList (got : Value)
  /- Requests that a function does not answer. -/
  | cannotEnter (arc : Int)
  | noCoordinates
  | assignmentLength (got points : Nat)
  | plottingMissing
  /- Data of the wrong kind, without a sentence of their own. -/
  | wrongKind
  | badValue
  | outOfBounds
  | missingMember
  | tooLarge
  | outOfMemory
  | divisionByZero
  | notJson
  | tooDeep
  | notUtf8
  | loneHalf
  | noFile

namespace Fault

/-- What a failure is about. -/
inductive Category where
  | network
  | endpoint
  | disconnected
  | overflow
  | iterationLimit
  | internal
  | configuration
  | problem
  | refusedValue
  | missingFeature
  | wrongKind
  | badValue
  | outOfBounds
  | missingMember
  | tooLarge
  | outOfMemory
  | divisionByZero
  | notJson
  | tooDeep
  | notUtf8
  | loneHalf
  | noFile
deriving DecidableEq, Repr

def category : Fault → Category
  | .notInteger .. | .negativeCapacity .. | .arcLacksFields .. | .arcNotSequence ..
  | .arcWrongLength .. | .nodeCountNotInteger .. | .nodeCountTooSmall .. | .networkNotRecord ..
  | .networkLacksMembers .. => .network
  | .endpointOutside .. => .endpoint
  | .disconnected .. => .disconnected
  | .capacityTooLarge .. | .costBoundTooLarge .. | .potentialBoundTooLarge .. | .notFinite ..
  | .roundedTooLarge .. => .overflow
  | .iterationLimit .. => .iterationLimit
  | .notInList .. | .treeCycle .. | .treeNotSpanning .. | .parentless .. | .invariantsBroken ..
  | .supplyUnrouted .. | .costDisagrees .. => .internal
  | .maxIterationsNotPositive .. | .streakLimitNotPositive .. | .ruleInvalid .. | .ruleUnknown ..
  | .rootNegative .. | .rootOutside .. | .progressIntervalNotPositive .. => .configuration
  | .noPoints | .noCenters | .siteWrongLength .. | .siteNotNumeric .. | .siteNotFinite ..
  | .balanceInvalid .. | .resolutionInvalid .. | .weightNotCount .. | .centerCountTooSmall ..
  | .supplyNegative .. | .quotaCount .. | .quotaNegative .. | .quotaTotal .. | .noSolution
  | .lengthsDiffer .. | .roundsTooFew .. | .toleranceNegative .. | .weightStepNotPositive ..
  | .pointsMissing | .centersNotList .. => .problem
  | .cannotEnter .. | .noCoordinates | .assignmentLength .. => .refusedValue
  | .plottingMissing => .missingFeature
  | .wrongKind => .wrongKind
  | .badValue => .badValue
  | .outOfBounds => .outOfBounds
  | .missingMember => .missingMember
  | .tooLarge => .tooLarge
  | .outOfMemory => .outOfMemory
  | .divisionByZero => .divisionByZero
  | .notJson => .notJson
  | .tooDeep => .tooDeep
  | .notUtf8 => .notUtf8
  | .loneHalf => .loneHalf
  | .noFile => .noFile

/-- A number in exponential form. Where a fault with such a number is raised, the number has one. -/
def exponential (n : Int) : String :=
  (Decimal.exponential? n).getD (toString n)

def integers (ns : List Int) : String :=
  "[" ++ ", ".intercalate (ns.map toString) ++ "]"

def roleName : Role → String
  | .point => "point"
  | .center => "center"

def roleTitle : Role → String
  | .point => "Point"
  | .center => "Center"

def say (s : String) : Option Text := some s

def plottingAdvice : String :=
  "Visualization requires optional dependencies. " ++
    "Install with: pip install 'network-simplex-assign[visualization]'"

def message? : Fault → Option Text
  | .notInteger what got =>
    let shown := got.literal
    match got with
    | .bool _ => say s!"{what} must be an integer, got boolean {shown}."
    | _ => say <| s!"{what} must be an integer, got {shown}. " ++
        "The solver works on integer capacities and costs only."
  | .negativeCapacity tail head capacity =>
    say <| s!"Arc {tail} -> {head} has negative capacity {capacity}. " ++
      "Capacities must be non-negative."
  | .arcLacksFields position got =>
    let shown := got.literal
    say <| s!"Invalid arc specification at position {position}: {shown}. " ++
      "Each arc needs 'start', 'end' and 'capacity' fields."
  | .arcNotSequence position got =>
    let shown := got.literal
    say <| s!"Invalid arc specification at position {position}: {shown}. " ++
      "Expected a (start, end, capacity, cost) sequence or a dict."
  | .arcWrongLength position got =>
    let shown := got.literal
    say <| s!"Invalid arc specification at position {position}: {shown}. " ++
      "Expected (start, end, capacity, cost)."
  | .nodeCountNotInteger got =>
    let shown := got.literal
    say s!"node_count must be an integer, got {shown}."
  | .nodeCountTooSmall got => say s!"node_count must be at least 1, got {got}."
  | .networkNotRecord got =>
    let kind := got.kindName
    say s!"Invalid network format: expected a JSON object, got {kind}."
  | .networkLacksMembers nodeCount arcs =>
    let first := nodeCount.kindName
    let second := arcs.kindName
    say <| "Invalid network format: JSON must include an integer 'node_count' and an " ++
      s!"'arcs' array. Got node_count type: {first}, arcs type: {second}."
  | .endpointOutside position tail head node nodeCount =>
    let last := (nodeCount : Int) - 1
    say <| s!"Arc {position} ({tail} -> {head}) references node {node}, " ++
      s!"outside the valid range 0..{last}."
  | .disconnected components nodeCount =>
    say <| s!"Input arcs do not span all nodes: {components} connected components " ++
      s!"among {nodeCount} nodes. Every node must be reachable through the arcs " ++
      "(ignoring direction) to seed the spanning tree."
  | .capacityTooLarge tail head capacity =>
    say s!"Arc {tail} -> {head} has capacity {capacity}, which exceeds the int64 range."
  | .costBoundTooLarge bound =>
    let shown := exponential bound
    let limit := exponential rangeLimit
    say <| s!"Worst-case total cost {shown} exceeds the int64 range ({limit}). " ++
      "Scale costs or capacities down."
  | .potentialBoundTooLarge bound =>
    let shown := exponential bound
    say <| s!"Sum of absolute arc costs {shown} is too large for node potentials " ++
      "to stay within int64. Scale costs down."
  | .notFinite what got =>
    some (what ++ Text.ofString (" is not finite: " ++ Decimal.text got ++ "."))
  | .roundedTooLarge what got =>
    some (what ++ Text.ofString (" (" ++ exponential got ++ ") exceeds the int64 range."))
  | .iterationLimit iterations totalCost =>
    say <| s!"Iteration limit reached: {iterations} pivots without reaching optimality " ++
      s!"(best cost so far {totalCost})."
  | .notInList arc tree =>
    let list := if tree then "tree" else "non-tree"
    say s!"Arc {arc} is not in the {list} list."
  | .treeCycle node arc =>
    say s!"Tree arcs contain a cycle: node {node} reached twice (second time via arc {arc})."
  | .treeNotSpanning root reached nodeCount =>
    let start := root.literal
    say <| s!"Tree walk from root {start} reached {reached} of {nodeCount} nodes: " ++
      "the tree does not span the network."
  | .parentless node =>
    let name := node.literal
    say s!"Node {name} has no parent while walking toward a common ancestor."
  | .invariantsBroken violations =>
    say <| "Invariant check failed after pivot: " ++
      "; ".intercalate (violations.map Violation.message)
  | .supplyUnrouted routed supply =>
    say s!"Optimal circulation routes {routed} of {supply} units from source to sink."
  | .costDisagrees cost circulationCost returnCost routed =>
    let unit := returnCost.literal
    say <| s!"Assignment cost {cost} disagrees with the circulation cost {circulationCost} " ++
      s!"(return arc cost {unit} x {routed})."
  | .maxIterationsNotPositive got =>
    let shown := got.literal
    say s!"max_iterations must be positive, got {shown}."
  | .streakLimitNotPositive got =>
    let shown := got.literal
    say s!"degenerate_streak_limit must be positive, got {shown}."
  | .ruleInvalid got =>
    some (Text.ofString "Invalid pricing strategy '" ++ got.plain ++
      Text.ofString "'. Must be 'dantzig' or 'bland'.")
  | .ruleUnknown got =>
    some (Text.ofString "Unknown pricing strategy '" ++ got ++
      Text.ofString "'. Valid options: 'dantzig', 'bland'.")
  | .rootNegative got =>
    let shown := got.literal
    say s!"root must be a node index, got {shown}."
  | .rootOutside root nodeCount =>
    let shown := root.literal
    say s!"root {shown} is not a node of a network with {nodeCount} nodes."
  | .progressIntervalNotPositive got =>
    let shown := got.literal
    say s!"progress_interval must be positive, got {shown}."
  | .noPoints => say "At least one point is required."
  | .noCenters => say "At least one center is required."
  | .siteWrongLength role got =>
    let name := roleName role
    let shown := got.literal
    say s!"Invalid {name} {shown}: expected (x, y) or (x, y, weight)."
  | .siteNotNumeric role got =>
    let name := roleName role
    let shown := got.literal
    say <| s!"Invalid {name} {shown}: expected numeric (x, y[, weight]) or a dict " ++
      "with 'x' and 'y' fields."
  | .siteNotFinite role got =>
    let title := roleTitle role
    let shown := got.literal role
    say s!"{title} {shown} has non-finite values."
  | .balanceInvalid got =>
    some (Text.ofString "Invalid balance mode '" ++ got.plain ++
      Text.ofString "'. Must be 'count' or 'weight'.")
  | .resolutionInvalid got =>
    let shown := Decimal.text got
    say s!"resolution must be positive and finite, got {shown}."
  | .weightNotCount got =>
    let x := Decimal.text got.x
    let y := Decimal.text got.y
    let weight := Decimal.text got.weight
    say <| s!"Point ({x}, {y}) has weight {weight}; balancing by weight needs " ++
      "non-negative integer weights."
  | .centerCountTooSmall got =>
    let shown := got.literal
    say s!"At least one center is required, got {shown}."
  | .supplyNegative got =>
    let shown := got.literal
    say s!"Total supply must be non-negative, got {shown}."
  | .quotaCount got expected => say s!"Got {got} quotas for {expected} centers."
  | .quotaNegative got =>
    let shown := integers got
    say s!"Quotas must be non-negative, got {shown}."
  | .quotaTotal got supply => say s!"Quotas sum to {got} but the points supply {supply} units."
  | .noSolution => say "Assignment result carries no solver output."
  | .lengthsDiffer centers regionLoads quotas =>
    say s!"Got {centers} centers, {regionLoads} region loads and {quotas} quotas; they must match."
  | .roundsTooFew got =>
    let shown := got.literal
    say s!"rounds must be at least 1, got {shown}."
  | .toleranceNegative got =>
    let shown := Decimal.text got
    say s!"tolerance must be non-negative, got {shown}."
  | .weightStepNotPositive got =>
    let shown := Decimal.text got
    say s!"weight_step must be positive, got {shown}."
  | .pointsMissing =>
    say <| "Invalid assignment format: JSON must be a list of points or an object with " ++
      "a 'points' array."
  | .centersNotList got =>
    let kind := got.kindName
    say s!"Invalid assignment format: 'centers' must be an array, got {kind}."
  | .cannotEnter arc =>
    say <| s!"Arc {arc} cannot enter: it must be a non-tree arc with positive residual capacity."
  | .noCoordinates => say "Cannot compute the bounding box of no coordinates."
  | .assignmentLength got points =>
    say s!"Result assigns {got} points but {points} were given."
  | .plottingMissing => say plottingAdvice
  | .wrongKind | .badValue | .outOfBounds | .missingMember | .tooLarge | .outOfMemory
  | .divisionByZero | .notJson | .tooDeep | .notUtf8 | .loneHalf | .noFile => none

/- Only what callers choose can be too long for a text. Counts of data and of pivots, and the numbers
of a network that has been built, never are. -/
/-- The integers that a sentence shows digit by digit. -/
def shownIntegers : Fault → List Int
  | .notInteger _ got | .nodeCountNotInteger got | .ruleInvalid got | .balanceInvalid got
  | .siteWrongLength _ got | .siteNotNumeric _ got => got.integers
  | .arcLacksFields position got | .arcNotSequence position got
  | .arcWrongLength position got => position :: got.integers
  | .negativeCapacity tail head capacity => [tail, head, capacity]
  | .nodeCountTooSmall got => [got]
  | .endpointOutside position tail head node nodeCount =>
    [position, tail, head, node, nodeCount - 1]
  | .capacityTooLarge tail head capacity => [tail, head, capacity]
  | .maxIterationsNotPositive got | .streakLimitNotPositive got | .rootNegative got
  | .progressIntervalNotPositive got | .centerCountTooSmall got | .supplyNegative got
  | .roundsTooFew got => got.toValue.integers
  | .rootOutside root nodeCount => nodeCount :: root.toValue.integers
  | .quotaNegative got => got
  | .quotaTotal got supply => [got, supply]
  | _ => []

/-- The integers that a sentence shows in exponential form. -/
def shownBounds : Fault → List Int
  | .costBoundTooLarge bound | .potentialBoundTooLarge bound => [bound]
  | .roundedTooLarge _ got => [got]
  | _ => []

/-- A failure as it is raised. If its sentence cannot be made, then that is the failure: an integer
has too many digits for a text, or it is beyond floating point and has no exponential form. -/
def raised (f : Fault) : Fault :=
  if !f.shownIntegers.all Decimal.hasText then .badValue
  else if !f.shownBounds.all fun n => (Decimal.exponential? n).isSome then .tooLarge
  else f

theorem category_raised (f : Fault) : f.raised.category = f.category ∨
    f.raised.category = .tooLarge ∨ f.raised.category = .badValue := by
  unfold raised
  split
  · exact Or.inr (Or.inr rfl)
  · split
    · exact Or.inr (Or.inl rfl)
    · exact Or.inl rfl

theorem category_raised_ne {f : Fault} {c : Category} (h : f.category ≠ c) (hlarge : .tooLarge ≠ c)
    (hbad : .badValue ≠ c) : f.raised.category ≠ c := by
  rcases f.category_raised with hcategory | hcategory | hcategory <;> rwa [hcategory]

theorem raised_eq_ite {f : Fault} (h : f.shownBounds = []) :
    f.raised = if f.shownIntegers.all Decimal.hasText then f else .badValue := by
  cases hall : f.shownIntegers.all Decimal.hasText <;> simp [raised, hall, h]

theorem raised_cases {f : Fault} (h : f.shownBounds = []) :
    f.raised = f ∨ f.raised = .badValue ∧ ∃ n ∈ f.shownIntegers, ¬ Decimal.hasText n := by
  rw [raised_eq_ite h]
  split
  next => exact Or.inl rfl
  next hlong =>
    obtain ⟨n, hmem, hlong⟩ := List.all_eq_false.mp (Bool.eq_false_iff.mpr hlong)
    exact Or.inr ⟨rfl, n, hmem, hlong⟩

end Fault

end Circulation
