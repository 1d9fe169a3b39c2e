/-!
Binary floating-point numbers read as exact numbers: a finite value is `± mantissa * 2 ^ exponent`.
Rounding up, cutting off the fraction, remainders and the test for a whole number are done on that
form, in integer arithmetic.
-/

namespace Circulation.Decimal

/-- A finite value `± mantissa * 2 ^ exponent`. -/
structure Binary where
  negative : Bool
  mantissa : Nat
  exponent : Int
  /-- The gap to the value below is half the gap to the value above. -/
  narrowBelow : Bool
deriving DecidableEq, Repr

inductive Reading where
  | nan
  | infinite (negative : Bool)
  | finite (value : Binary)

/-- Decodes a number from its sign, its eleven exponent bits and its fraction. -/
def Reading.ofFloat (x : Float) : Reading :=
  let bits := x.toBits.toNat
  let negative := bits / Nat.pow 2 63 == 1
  let exponent : Nat := bits / Nat.pow 2 52 % Nat.pow 2 11
  let fraction : Nat := bits % Nat.pow 2 52
  if exponent == 2047 then
    if fraction == 0 then .infinite negative else .nan
  else if exponent == 0 then
    .finite ⟨negative, fraction, -1074, false⟩
  else
    .finite ⟨negative, Nat.pow 2 52 + fraction, (exponent : Int) - 1075,
      fraction == 0 && exponent > 1⟩

namespace Binary

def numerator (b : Binary) : Int :=
  let size := b.mantissa * Nat.pow 2 b.exponent.toNat
  if b.negative then -(size : Int) else size

def denominator (b : Binary) : Nat :=
  Nat.pow 2 (-b.exponent).toNat

def ceil (b : Binary) : Int :=
  -(-b.numerator / b.denominator)

def truncate (b : Binary) : Int :=
  Int.tdiv b.numerator b.denominator

def isWhole (b : Binary) : Bool :=
  b.numerator % b.denominator == 0

end Binary

def ceil? (x : Float) : Option Int :=
  match Reading.ofFloat x with
  | .finite b => some b.ceil
  | _ => none

def whole? (x : Float) : Option Int :=
  match Reading.ofFloat x with
  | .finite b => if b.isWhole then some b.truncate else none
  | _ => none

/-- What is left of a number that is not negative after as many times `n` as it holds. The result is
exact. Infinity and undefined numbers leave nothing that is defined. -/
def remainder (x : Float) (n : Nat) : Float :=
  match Reading.ofFloat x with
  | .finite b =>
    if x < Float.ofNat n then x
    else Float.ofInt (b.numerator % (n * b.denominator)) / Float.ofNat b.denominator
  | _ => 0.0 / 0.0

def ofInt? (n : Int) : Option Float :=
  let x := Float.ofInt n
  if x.isFinite then some x else none

end Circulation.Decimal
