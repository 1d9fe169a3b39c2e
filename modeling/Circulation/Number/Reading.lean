import Circulation.Decimal.Reading
import Circulation.Fault

/-!
Numbers read from data. A number may be asked for as it is, as a floating-point number or without
its fraction. The last two also read texts.
-/

namespace Circulation.Value

def toNumber (v : Value) : Except Fault Number :=
  (v.number?.map Except.ok).getD (.error .wrongKind)

def toFloat (v : Value) : Except Fault Float :=
  match v with
  | .bool b => .ok (if b then 1.0 else 0.0)
  | .int n => ((Decimal.ofInt? n).map Except.ok).getD (.error .tooLarge)
  | .float x => .ok x
  | .text t => (((t.toString?).bind Decimal.ofText?).map Except.ok).getD (.error .badValue)
  | _ => .error .wrongKind

def truncated (v : Value) : Except Fault Int :=
  match v with
  | .bool b => .ok (Number.ofTruth b)
  | .int n => .ok n
  | .float x =>
    match Decimal.Reading.ofFloat x with
    | .finite b => .ok b.truncate
    | .infinite _ => .error .tooLarge
    | .nan => .error .badValue
  | .text t => ((t.toString?.bind Decimal.intOfText?).map Except.ok).getD (.error .badValue)
  | _ => .error .wrongKind

end Circulation.Value
