import Circulation.Fault

/-!
Arcs read from data. An item is an arc already, a record with named members, or a sequence of the
four numbers start, end, capacity and cost.
-/

namespace Circulation

/-- An integer, or a floating-point number that is equal to one. -/
def Value.toInt (what : String) (v : Value) : Except Fault Int :=
  match v with
  | .int n => .ok n
  | .float x => ((Decimal.whole? x).map Except.ok).getD (.error (Fault.notInteger what v).raised)
  | _ => .error (Fault.notInteger what v).raised

namespace Arc

def ofMembers (start stop capacity cost : Value) : Except Fault Arc := do
  let tail ← start.toInt "Arc start"
  let head ← stop.toInt "Arc end"
  let size ← capacity.toInt "Arc capacity"
  let price ← cost.toInt "Arc cost"
  if size < 0 then throw (Fault.negativeCapacity tail head size).raised
  return ⟨tail, head, size.toNat, price⟩

/-- An arc from a record. The ends have two names each, and the cost may be missing. -/
def ofRecord (position : Nat) (members : List (Text × Value)) : Except Fault Arc :=
  let start := (member? members "start").orElse fun _ => member? members "tail"
  let stop := (member? members "end").orElse fun _ => member? members "head"
  match start, stop, member? members "capacity" with
  | some s, some e, some c => ofMembers s e c ((member? members "cost").getD (.int 0))
  | _, _, _ => .error (Fault.arcLacksFields position (.record members)).raised

def ofValue (position : Nat) (v : Value) : Except Fault Arc :=
  match v with
  | .arc a => .ok a
  | .record members => ofRecord position members
  | v =>
    match v.items? with
    | some [s, e, c, k] => ofMembers s e c k
    | some _ => .error (Fault.arcWrongLength position v).raised
    | none => .error (Fault.arcNotSequence position v).raised

def ofItems (position : Nat) : List Value → Except Fault (List Arc)
  | [] => .ok []
  | v :: vs => do
    let a ← ofValue position v
    let as ← ofItems (position + 1) vs
    return a :: as

def listOfValue (v : Value) : Except Fault (List Arc) :=
  match v.items? with
  | some vs => ofItems 0 vs
  | none => .error .wrongKind

end Arc

end Circulation
