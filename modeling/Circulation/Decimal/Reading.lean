import Circulation.Decimal.Layout
import Circulation.Text.Blank
import Circulation.Text.Digit

/-!
Numbers read from text, and which integers a text can hold. Blanks may stand around a number, a
single underscore between two digits, and the digits may be those of any script. A floating-point
text has an optional sign, digits with an optional point and an optional exponent, or names infinity
or an undefined value. An integer text has an optional sign and digits.
-/

namespace Circulation.Decimal

def integerDigitLimit : Nat := 4300

/-- Whether an integer has a text. One with more digits than a text may give it has none. -/
def hasText (n : Int) : Bool :=
  (digitChars n.natAbs).length ≤ integerDigitLimit

def plainDigits (cs : List Char) : List Char :=
  cs.map fun c => ((Text.digitValue? c).map fun d => Char.ofNat (48 + d)).getD c

/-- Removes underscores that stand between two digits; any other underscore is refused. -/
def dropSeparators : List Char → Option (List Char)
  | [] => some []
  | c :: '_' :: d :: rest =>
    if c.isDigit && d.isDigit then (dropSeparators (d :: rest)).map (c :: ·) else none
  | c :: rest => if c == '_' then none else (dropSeparators rest).map (c :: ·)

def spanDigits : List Char → List Char × List Char
  | [] => ([], [])
  | c :: rest => if c.isDigit then let (ds, r) := spanDigits rest; (c :: ds, r) else ([], c :: rest)

def ofDigits (ds : List Char) : Nat :=
  ds.foldl (fun n c => 10 * n + (c.toNat - 48)) 0

def takeSign : List Char → Bool × List Char
  | '-' :: rest => (true, rest)
  | '+' :: rest => (false, rest)
  | rest => (false, rest)

def exponentOf? : List Char → Option Int
  | [] => some 0
  | c :: rest =>
    if c == 'e' || c == 'E' then
      let (negative, rest) := takeSign rest
      match spanDigits rest with
      | ([], _) => none
      | (ds, []) => some (if negative then -(ofDigits ds : Int) else ofDigits ds)
      | _ => none
    else none

/-- The floating-point number nearest to `m * 10 ^ e`. Exponents far out of range are answered
without computing the power. -/
def nearest (m : Nat) (e : Int) : Float :=
  let size : Int := (Nat.toDigits 10 m).length + e
  if m == 0 || size < -400 then 0.0
  else if 400 < size then 1.0 / 0.0
  else Float.ofScientific m (e < 0) e.natAbs

def magnitude? (cs : List Char) : Option Float :=
  let (whole, rest) := spanDigits cs
  let (fraction, rest) :=
    match rest with
    | '.' :: r => spanDigits r
    | r => ([], r)
  if whole.isEmpty && fraction.isEmpty then none
  else (exponentOf? rest).map fun e => nearest (ofDigits (whole ++ fraction)) (e - fraction.length)

/-- An unsigned number, infinity or an undefined value, the latter two in any case of letters. -/
def unsigned? (cs : List Char) : Option Float :=
  let word := String.ofList (cs.map Char.toLower)
  if word == "inf" || word == "infinity" then some (1.0 / 0.0)
  else if word == "nan" then some (0.0 / 0.0)
  else magnitude? cs

def ofText? (s : String) : Option Float := do
  let cs ← dropSeparators (plainDigits (Text.trim s.toList))
  let (negative, rest) := takeSign cs
  let x ← unsigned? rest
  return if negative then -x else x

def intOfText? (s : String) : Option Int := do
  let cs ← dropSeparators (plainDigits (Text.trim s.toList))
  let (negative, rest) := takeSign cs
  match spanDigits rest with
  | ([], _) => none
  | (ds, []) =>
    if integerDigitLimit < ds.length then none
    else some (if negative then -(ofDigits ds : Int) else ofDigits ds)
  | _ => none

end Circulation.Decimal
