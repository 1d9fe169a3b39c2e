import Circulation.Decimal.Shortest

/-!
How floating-point numbers are written: the shortest digits that read back, with the point among
them for moderate exponents and with an exponent mark otherwise.
-/

namespace Circulation.Decimal

/-- The choices that turn selected digits into text. -/
structure Layout where
  /-- The least exponent of a leading digit that is written with a point among the digits. -/
  plainFrom : Int
  /-- The least exponent above `plainFrom` that is written with an exponent mark again. -/
  plainBelow : Int
  /-- The least number of digits in a written exponent. -/
  exponentWidth : Nat
  nan : String
  infinite : String

/-- Points up to sixteen digits before and three zeros after, exponents as in `e+16` and `e-05`. -/
def Layout.standard : Layout where
  plainFrom := -4
  plainBelow := 16
  exponentWidth := 2
  nan := "nan"
  infinite := "inf"

def digitChars (n : Nat) : List Char :=
  Nat.toDigits 10 n

def padZeros (width : Nat) (cs : List Char) : List Char :=
  List.replicate (width - cs.length) '0' ++ cs

namespace Layout

def exponentChars (width : Nat) (e : Int) : List Char :=
  ['e', if e < 0 then '-' else '+'] ++ padZeros width (digitChars e.natAbs)

/-- Lays out a decimal without a sign. The last digit of a whole number is followed by `.0`. -/
def decimalChars (l : Layout) (d : Scientific) : List Char :=
  let digits := digitChars d.digits
  let lead := d.exponent + digits.length - 1
  if d.digits == 0 then ['0', '.', '0']
  else if lead < l.plainFrom || l.plainBelow ≤ lead then
    let tail := if digits.length ≤ 1 then [] else '.' :: digits.drop 1
    digits.take 1 ++ tail ++ exponentChars l.exponentWidth lead
  else if 0 ≤ d.exponent then
    digits ++ List.replicate d.exponent.toNat '0' ++ ['.', '0']
  else if 0 ≤ lead then
    digits.take (lead.toNat + 1) ++ '.' :: digits.drop (lead.toNat + 1)
  else
    ['0', '.'] ++ List.replicate (-lead - 1).toNat '0' ++ digits

/-- The text of a number. A negative zero keeps its sign. -/
def render (l : Layout) (x : Float) : String :=
  match Reading.ofFloat x with
  | .nan => l.nan
  | .infinite negative => if negative then "-" ++ l.infinite else l.infinite
  | .finite b =>
    let body := String.ofList (l.decimalChars b.shortest)
    if b.negative then "-" ++ body else body

end Layout

def text (x : Float) : String :=
  Layout.standard.render x

end Circulation.Decimal
