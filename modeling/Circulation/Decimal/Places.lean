import Circulation.Decimal.Layout
import Circulation.Decimal.Rounding

/-!
Numbers written with a fixed number of places. The exact binary value is rounded, a half to the even
neighbour.
-/

namespace Circulation.Decimal

def padBlanks (width : Nat) (s : String) : String :=
  String.ofList (List.replicate (width - s.length) ' ') ++ s

def Binary.placesChars (b : Binary) (places : Nat) : List Char :=
  let (n, d) := b.scaledBy (-places)
  let digits := padZeros (places + 1) (digitChars (roundDiv n d))
  let whole := digits.length - places
  digits.take whole ++ '.' :: digits.drop whole

def fixed (width places : Nat) (x : Float) : String :=
  padBlanks width <|
    match Reading.ofFloat x with
    | .nan => Layout.standard.nan
    | .infinite negative =>
      if negative then "-" ++ Layout.standard.infinite else Layout.standard.infinite
    | .finite b =>
      let body := String.ofList (b.placesChars places)
      if b.negative then "-" ++ body else body

/-- The magnitude with one digit before and three after the point, and an exponent. -/
def Binary.exponentialChars (b : Binary) : List Char :=
  if b.mantissa == 0 then ['0', '.', '0', '0', '0'] ++ Layout.exponentChars 2 0
  else
    let k := b.magnitude
    let (n, d) := b.scaledBy (k - 4)
    let rounded := roundDiv n d
    let (digits, e) := if rounded == 10000 then (1000, k) else (rounded, k - 1)
    let cs := digitChars digits
    cs.take 1 ++ '.' :: cs.drop 1 ++ Layout.exponentChars 2 e

/-- An integer with four digits and an exponent, if it lies in the range of floating point. It is
rounded to the nearest floating-point number first. -/
def exponential? (n : Int) : Option String :=
  (ofInt? n).bind fun x =>
    match Reading.ofFloat x with
    | .finite b =>
      let body := String.ofList b.exponentialChars
      some (if b.negative then "-" ++ body else body)
    | _ => none

end Circulation.Decimal
