import Circulation.Number.Reading

/-!
Sites read from data. An item is a site of the wanted role already, a record with members `x` and
`y`, or a sequence of two or three numbers. All members have to be finite.
-/

namespace Circulation

namespace Site

/-- A member of a site. A value that is no number is blamed on the whole item, but a number beyond
the range of floating point is a failure of its own. -/
def coordinate (role : Role) (item v : Value) : Except Fault Float :=
  match v.toFloat with
  | .ok x => .ok x
  | .error .tooLarge => .error .tooLarge
  | .error _ => .error (Fault.siteNotNumeric role item).raised

def ofMembers (role : Role) (item x y weight : Value) : Except Fault Site := do
  return ⟨← coordinate role item x, ← coordinate role item y, ← coordinate role item weight⟩

def checked (role : Role) (s : Site) : Except Fault Site :=
  if s.isFinite then .ok s else .error (.siteNotFinite role s)

def ofParts (role : Role) (v : Value) : Except Fault Site :=
  let weight : Value := .float role.defaultWeight
  match v with
  | .record members =>
    match member? members "x", member? members "y" with
    | some x, some y => ofMembers role v x y ((member? members "weight").getD weight)
    | _, _ => .error (Fault.siteNotNumeric role v).raised
  | v =>
    match v.items? with
    | some [x, y] => ofMembers role v x y weight
    | some [x, y, w] => ofMembers role v x y w
    | some _ => .error (Fault.siteWrongLength role v).raised
    | none => .error (Fault.siteNotNumeric role v).raised

def ofValue (role : Role) (v : Value) : Except Fault Site :=
  match v with
  | .site r s => if r = role then checked role s else .error (.siteNotNumeric role v)
  | v => (ofParts role v).bind (checked role)

def listOfValue (role : Role) (v : Value) : Except Fault (List Site) :=
  match v.items? with
  | some vs => vs.mapM (ofValue role)
  | none => .error .wrongKind

end Site

end Circulation
