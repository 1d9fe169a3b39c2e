import Circulation.Assignment.Plan

/-!
A picture of an assignment: the points in the colors of their centers, the centers as large marks,
and a label with the load beside each center.
-/

namespace Circulation.Plot

structure Color where
  red : Nat
  green : Nat
  blue : Nat
deriving DecidableEq, Repr

/-- The colors of the centers, in their order; further centers start over. -/
def palette : Array Color :=
  #[⟨31, 119, 180⟩, ⟨174, 199, 232⟩, ⟨255, 127, 14⟩, ⟨255, 187, 120⟩, ⟨44, 160, 44⟩,
    ⟨152, 223, 138⟩, ⟨214, 39, 40⟩, ⟨255, 152, 150⟩, ⟨148, 103, 189⟩, ⟨197, 176, 213⟩,
    ⟨140, 86, 75⟩, ⟨196, 156, 148⟩, ⟨227, 119, 194⟩, ⟨247, 182, 210⟩, ⟨127, 127, 127⟩,
    ⟨199, 199, 199⟩, ⟨188, 189, 34⟩, ⟨219, 219, 141⟩, ⟨23, 190, 207⟩, ⟨158, 218, 229⟩]

def grey : Color := ⟨153, 153, 153⟩

def colorOf (center : Nat) : Color :=
  palette.getD (center % palette.size) grey

/-- The color at a share of the palette. All shares from one on have the last color, and an
undefined share is black. -/
def colorAt (share : Float) : Color :=
  if share.isNaN then ⟨0, 0, 0⟩
  else if share < 1.0 then
    palette.getD (share * Float.ofNat palette.size).toUInt64.toNat grey
  else palette.getD (palette.size - 1) grey

/-- The color for a center as data. A number below zero stands for none. A fractional number counts
as a share of the palette. -/
def colorOfValue (center : Value) : Except Fault Color := do
  let x ← center.toNumber
  if !x.isAtLeast 0 then return grey
  match x with
  | .int n => return colorOf n.toNat
  | .truth b => return colorOf (Number.ofTruth b).toNat
  | .float x => return colorAt (Decimal.remainder x palette.size)

structure Scatter where
  places : List (Float × Float)
  colors : List Color
  size : Float

/-- The marks of some places. Without any, the first color stands for all that might come. -/
def Scatter.ofPlaces (places : List (Float × Float)) (colors : List Color) (size : Float) :
    Scatter :=
  ⟨places, if colors.isEmpty then [colorOf 0] else colors, size⟩

structure Label where
  text : Text
  x : Float
  y : Float

structure Figure where
  title : Text
  points : Scatter
  centers : Scatter
  labels : List Label

structure Style where
  pointSize : Float
  centerSize : Float
  title : Option Text
  /-- The parts that draw pictures are present. -/
  available : Bool

def Style.standard : Style := ⟨20.0, 200.0, none, true⟩

/-- What a picture shows of an assignment, whatever a caller says. -/
structure Subject where
  totalCost : Value
  assignment : Value
  loads : Value

def Subject.ofPlan (plan : Assignment.Plan) : Subject where
  totalCost := .int plan.totalCost
  assignment := .list (plan.assignment.map Assignment.centerValue)
  loads := .list (plan.loads.map .int)

def loadAt (loads : Value) (center : Nat) : Except Fault Value :=
  match loads, loads.items? with
  | .record _, some items => if center < items.length then .error .missingMember else .ok (.int 0)
  | _, some items => .ok (items.getD center (.int 0))
  | _, none => .error .wrongKind

/-- The text of a value inside another text. An integer of too many digits has none. -/
def shown (v : Value) : Except Fault Text :=
  if v.integers.all Decimal.hasText then .ok v.plain else .error .badValue

def labelOf (loads : Value) (c : Site) (center : Nat) : Except Fault Label := do
  let load ← shown (← loadAt loads center)
  return ⟨Text.ofString (toString center ++ ": ") ++ load, c.x, c.y⟩

def titleOf (totalCost : Value) : Option Text → Except Fault Text
  | some title => .ok title
  | none => do
    return Text.ofString "Assignment (cost " ++ (← shown totalCost) ++ Text.ofString ")"

def figure (points centers : Value) (subject : Subject) (style : Style) : Except Fault Figure := do
  if !style.available then throw .plottingMissing
  let ps ← Site.listOfValue .point points
  let cs ← Site.listOfValue .center centers
  let assigned ← (subject.assignment.items?.map Except.ok).getD (.error .wrongKind)
  if assigned.length ≠ ps.length then throw (.assignmentLength assigned.length ps.length)
  let colors ← assigned.mapM colorOfValue
  let labels ← cs.zipIdx.mapM fun (c, j) => labelOf subject.loads c j
  let title ← titleOf subject.totalCost style.title
  return {
    title
    points := .ofPlaces (ps.map fun p => (p.x, p.y)) colors style.pointSize
    centers :=
      .ofPlaces (cs.map fun c => (c.x, c.y)) (cs.zipIdx.map fun (_, j) => colorOf j)
        style.centerSize
    labels }

end Circulation.Plot
