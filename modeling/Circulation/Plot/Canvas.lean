import Circulation.Assignment.Spread
import Circulation.Site.Reading

/-!
Coordinates mapped onto a canvas. Each axis is scaled linearly from its bounds, and the vertical
axis is turned over. An axis without extent maps everything to its far end.
-/

namespace Circulation.Plot

structure Bounds where
  minX : Float
  minY : Float
  maxX : Float
  maxY : Float

def corner (v : Value) : Except Fault (Float × Float) :=
  match v.items? with
  | none => .error .wrongKind
  | some (x :: y :: _) => do return (← x.toFloat, ← y.toFloat)
  | some _ => .error .badValue

def boundsOf : List (Float × Float) → Except Fault Bounds
  | [] => .error .noCoordinates
  | (x, y) :: rest =>
    let less := fun (a b : Float) => decide (a < b)
    let xs := rest.map (·.1)
    let ys := rest.map (·.2)
    .ok ⟨Spread.lowest less x xs, Spread.lowest less y ys,
      Spread.highest less x xs, Spread.highest less y ys⟩

def boundingBox (v : Value) : Except Fault Bounds :=
  match v.items? with
  | none => .error .wrongKind
  | some items => do boundsOf (← items.mapM corner)

def scale (low high value : Float) : Float :=
  if low == high then 1.0 else (value - low) / (high - low)

def place (b : Bounds) (width height : Float) (p : Float × Float) : Float × Float :=
  (scale b.minX b.maxX p.1 * width, height - scale b.minY b.maxY p.2 * height)

def toCanvas (points : List (Float × Float)) (width height : Float) :
    Except Fault (List (Float × Float)) :=
  if points.isEmpty then .ok []
  else do
    let b ← boundsOf points
    return points.map (place b width height)

/-- The first coordinates, at most two, of an item that can be cut off. -/
def leading (v : Value) : Except Fault (List Float) :=
  match v with
  | .list items => (items.take 2).mapM Value.toFloat
  | .text t => ((t.singles.take 2).map Value.text).mapM Value.toFloat
  | _ => .error .wrongKind

def pairOf : List Float → Except Fault (Float × Float)
  | [x, y] => .ok (x, y)
  | _ => .error .badValue

def boundsOfList : List Float → Except Fault Bounds
  | [minX, minY, maxX, maxY] => .ok ⟨minX, minY, maxX, maxY⟩
  | _ => .error .badValue

/-- Coordinates read from data on the canvas, within given bounds or their own. -/
def canvas (v : Value) (width height : Float) (bounds : Option (List Float)) :
    Except Fault (List (Float × Float)) := do
  match v.items? with
  | none => throw .wrongKind
  | some items =>
    let rows ← items.mapM leading
    if rows.isEmpty then return []
    let given ← match bounds with
      | some bs => (boundsOfList bs).map some
      | none => pure none
    let points ← rows.mapM pairOf
    let b ← (given.map Except.ok).getD (boundsOf points)
    return points.map (place b width height)

end Circulation.Plot
