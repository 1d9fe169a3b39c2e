import Circulation.Number.Reading

/-!
Summary statistics of the populations of regions. Sums are taken pairwise: long rows are halved, and
within a short row eight partial sums run side by side. Populations read from data may stand in rows
of rows, as long as these are rectangular.
-/

namespace Circulation

/-- Mean, sample deviation, sum, number, largest and smallest of some values. -/
structure Statistics where
  mean : Float
  deviation : Float
  total : Float
  size : Nat
  maximum : Float
  minimum : Float

namespace Statistics

def sumFrom (first : Float) (xs : List Float) : Float :=
  xs.foldl (· + ·) first

/-- Adds eight numbers to eight partial sums, again and again. The partial sums, and the numbers
that are left. -/
def sumEights : List Float → List Float → List Float × List Float
  | sums, a :: b :: c :: d :: e :: f :: g :: h :: rest =>
    sumEights (List.zipWith (· + ·) sums [a, b, c, d, e, f, g, h]) rest
  | sums, rest => (sums, rest)

def sumBlock (xs : List Float) : Float :=
  match xs with
  | a :: b :: c :: d :: e :: f :: g :: h :: rest =>
    match sumEights [a, b, c, d, e, f, g, h] rest with
    | ([a, b, c, d, e, f, g, h], rest) =>
      sumFrom (((a + b) + (c + d)) + ((e + f) + (g + h))) rest
    | (_, rest) => sumFrom 0.0 rest
  | x :: rest => sumFrom x rest
  | [] => 0.0

/-- Where a long row is halved: in the middle, rounded down to a multiple of eight. -/
def middle (n : Nat) : Nat :=
  n / 2 - n / 2 % 8

/-- The pairwise sum. Each halving leaves less than two thirds of a row, so `fuel` may be the length
of the row. -/
def pairwise : Nat → List Float → Float
  | 0, xs => sumBlock xs
  | fuel + 1, xs =>
    if xs.length ≤ 128 then sumBlock xs
    else
      pairwise fuel (xs.take (middle xs.length)) + pairwise fuel (xs.drop (middle xs.length))

/-- The sum of a row. The zero in front makes a sum of negative zeros positive. -/
def sum (xs : List Float) : Float :=
  0.0 + pairwise xs.length xs

/-- The better of two numbers, an undefined one if there is one. -/
def pick (better : Float → Float → Bool) (a b : Float) : Float :=
  if a.isNaN then a else if b.isNaN then b else if better b a then b else a

/-- The statistics of some values. Without values the extremes are infinite the wrong way round. -/
def ofList : List Float → Statistics
  | [] => ⟨0.0, 0.0, 0.0, 0, -(1.0 / 0.0), 1.0 / 0.0⟩
  | x :: xs =>
    let values := x :: xs
    let n := values.length
    let total := sum values
    let mean := total / Float.ofNat n
    let squares := values.map fun v => (v - mean) * (v - mean)
    let deviation := if n ≤ 1 then 0.0 else (sum squares / Float.ofNat (n - 1)).sqrt
    ⟨mean, deviation, total, n, xs.foldl (pick fun b a => a < b) x,
      xs.foldl (pick fun b a => b < a) x⟩

mutual

/-- The sizes of a rectangle of rows, the outer ones first. Rows of different shapes have none. -/
def shape? : Value → Option (List Nat)
  | .list [] => some [0]
  | .list (v :: vs) =>
    match shape? v with
    | some sizes => if areShaped sizes vs then some ((vs.length + 1) :: sizes) else none
    | none => none
  | _ => some []

def areShaped (sizes : List Nat) : List Value → Bool
  | [] => true
  | v :: vs => shape? v == some sizes && areShaped sizes vs

end

mutual

def entries : Value → List Value
  | .list vs => allEntries vs
  | v => [v]

def allEntries : List Value → List Value
  | [] => []
  | v :: vs => entries v ++ allEntries vs

end

def population (v : Value) : Except Fault Float :=
  match v with
  | .null => .ok (0.0 / 0.0)
  | v => v.toFloat

def ofValue (v : Value) : Except Fault Statistics :=
  match v.items? with
  | none => .error .wrongKind
  | some items =>
    if (shape? (.list items)).isNone then .error .badValue
    else do return ofList (← (allEntries items).mapM population)

end Statistics

end Circulation
