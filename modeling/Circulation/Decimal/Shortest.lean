import Circulation.Decimal.Binary

/-!
The shortest decimal that reads back as a given binary value. Of several shortest ones the nearest
to the value is taken, and of two equally near ones the even one. All comparisons are exact.
-/

namespace Circulation.Decimal

structure Scientific where
  digits : Nat
  exponent : Int
deriving DecidableEq, Repr

def compareScaled (a : Nat) (i : Int) (n : Nat) (j : Int) : Ordering :=
  compare (a * Nat.pow 10 i.toNat * Nat.pow 2 (-j).toNat)
    (n * Nat.pow 2 j.toNat * Nat.pow 10 (-i).toNat)

namespace Binary

/-- The decimal lies among the numbers that round to the value. Those reach halfway to each
neighbour, and the ends belong to them when the mantissa is even. -/
def readsBack (b : Binary) (d : Scientific) : Bool :=
  let low := if b.narrowBelow then 4 * b.mantissa - 1 else 4 * b.mantissa - 2
  let high := 4 * b.mantissa + 2
  let closed := b.mantissa % 2 == 0
  let above := compareScaled d.digits d.exponent low (b.exponent - 2)
  let below := compareScaled d.digits d.exponent high (b.exponent - 2)
  (above == .gt || (closed && above == .eq)) && (below == .lt || (closed && below == .eq))

/-- The least `k` with the magnitude below `10 ^ k`. The binary logarithm gives a guess that is at
most two too small. -/
def magnitude (b : Binary) : Int :=
  let guess := ((b.mantissa.log2 : Int) + b.exponent) * 30103 / 100000 - 1
  let fits := fun k : Int => compareScaled 1 k b.mantissa b.exponent == .gt
  if fits guess then guess
  else if fits (guess + 1) then guess + 1
  else if fits (guess + 2) then guess + 2
  else guess + 3

def scaledBy (b : Binary) (i : Int) : Nat × Nat :=
  (b.mantissa * Nat.pow 2 b.exponent.toNat * Nat.pow 10 (-i).toNat,
    Nat.pow 2 (-b.exponent).toNat * Nat.pow 10 i.toNat)

/-- The neighbour of the value on the grid `10 ^ i` that reads back, if there is one. -/
def nearestOnGrid? (b : Binary) (i : Int) : Option Scientific :=
  let (n, d) := b.scaledBy i
  let low : Scientific := ⟨n / d, i⟩
  let high : Scientific := ⟨n / d + 1, i⟩
  match b.readsBack low, b.readsBack high with
  | false, false => none
  | true, false => some low
  | false, true => some high
  | true, true =>
    match compare (2 * (n % d)) d with
    | .lt => some low
    | .gt => some high
    | .eq => some (if low.digits % 2 == 0 then low else high)

def shortestFrom (b : Binary) (k : Int) : Nat → Nat → Option Scientific
  | 0, _ => none
  | left + 1, count =>
    match b.nearestOnGrid? (k - count) with
    | some d => some d
    | none => b.shortestFrom k left (count + 1)

def exact (b : Binary) : Scientific :=
  if b.exponent ≥ 0 then ⟨b.mantissa * Nat.pow 2 b.exponent.toNat, 0⟩
  else ⟨b.mantissa * Nat.pow 5 (-b.exponent).toNat, b.exponent⟩

end Binary

/-- Moves trailing zeros from the digits to the exponent; `fuel` bounds their number. -/
def Scientific.strip : Nat → Scientific → Scientific
  | 0, d => d
  | fuel + 1, d =>
    if d.digits != 0 && d.digits % 10 == 0 then strip fuel ⟨d.digits / 10, d.exponent + 1⟩ else d

/-- The shortest decimal that reads back as the magnitude of `b`, without trailing zeros. -/
def Binary.shortest (b : Binary) : Scientific :=
  if b.mantissa == 0 then ⟨0, 0⟩
  else
    let d := (b.shortestFrom b.magnitude 17 1).getD b.exact
    d.strip (d.digits.log2 + 1)

end Circulation.Decimal
