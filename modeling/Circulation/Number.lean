import Circulation.Decimal.Binary
import Circulation.Value

/-!
Numbers as data gives them. Where an integer is asked for, a truth value or a floating-point number
may stand as well. Such a number is compared with integers by its exact value, and it is shown as
it was given.
-/

namespace Circulation

/-- A number as data gives it. Truth values count as one and zero. -/
inductive Number where
  | int (n : Int)
  | truth (b : Bool)
  | float (x : Float)

namespace Number

def ofTruth (b : Bool) : Int :=
  if b then 1 else 0

def toValue : Number → Value
  | .int n => .int n
  | .truth b => .bool b
  | .float x => .float x

def literal (x : Number) : String :=
  x.toValue.literal

/-- The place of a number on one side of an integer or at it. An undefined number has none. -/
def compare? (x : Number) (k : Int) : Option Ordering :=
  match x with
  | .int n => some (compare n k)
  | .truth b => some (compare (ofTruth b) k)
  | .float x =>
    match Decimal.Reading.ofFloat x with
    | .nan => none
    | .infinite negative => some (if negative then .lt else .gt)
    | .finite b => some (compare b.numerator (k * b.denominator))

def isBelow (x : Number) (k : Int) : Bool :=
  (x.compare? k).any Ordering.isLT

def isAtMost (x : Number) (k : Int) : Bool :=
  (x.compare? k).any Ordering.isLE

def isAtLeast (x : Number) (k : Int) : Bool :=
  (x.compare? k).any Ordering.isGE

def equals (x : Number) (k : Int) : Bool :=
  (x.compare? k).any Ordering.isEq

/-- The least integer that is not below the number. Infinity and undefined numbers have none. -/
def ceil? (x : Number) : Option Int :=
  match x with
  | .int n => some n
  | .truth b => some (ofTruth b)
  | .float x => Decimal.ceil? x

def divides (x : Number) (k : Int) : Bool :=
  match x with
  | .int n => k % n == 0
  | .truth b => k % ofTruth b == 0
  | .float x =>
    match Decimal.Reading.ofFloat x with
    | .finite b => k * b.denominator % b.numerator == 0
    | _ => false

/-- The integer that the number is, unless it is a floating-point number. -/
def integer? : Number → Option Int
  | .int n => some n
  | .truth b => some (ofTruth b)
  | .float _ => none

def toFloat? : Number → Option Float
  | .int n => Decimal.ofInt? n
  | .truth b => some (Float.ofInt (ofTruth b))
  | .float x => some x

/-- The number with the opposite sign; a truth value turns into an integer. -/
def neg : Number → Number
  | .int n => .int (-n)
  | .truth b => .int (-ofTruth b)
  | .float x => .float (-x)

def add? (x y : Number) : Option Number :=
  match x.integer?, y.integer? with
  | some m, some n => some (.int (m + n))
  | _, _ => do return .float ((← x.toFloat?) + (← y.toFloat?))

def sub? (x y : Number) : Option Number :=
  x.add? y.neg

def less (x y : Number) : Bool :=
  match x, y with
  | .float x, .float y => x < y
  | .float x, .int n => (Number.float x).isBelow n
  | .float x, .truth b => (Number.float x).isBelow (ofTruth b)
  | .int n, y => (y.compare? n).any Ordering.isGT
  | .truth b, y => (y.compare? (ofTruth b)).any Ordering.isGT

/-- Two numbers are equal. An undefined number equals none. -/
def same (x y : Number) : Bool :=
  match x, y with
  | .float x, .float y => x == y
  | .float x, .int n => (Number.float x).equals n
  | .float x, .truth b => (Number.float x).equals (ofTruth b)
  | .int n, y => y.equals n
  | .truth b, y => y.equals (ofTruth b)

@[simp] theorem isBelow_int (n k : Int) : (Number.int n).isBelow k = decide (n < k) := by
  rw [Bool.eq_iff_iff]
  simp [isBelow, compare?, Ordering.isLT_iff_eq_lt, Int.compare_eq_lt]

@[simp] theorem isAtMost_int (n k : Int) : (Number.int n).isAtMost k = decide (n ≤ k) := by
  rw [Bool.eq_iff_iff]
  simp [isAtMost, compare?, Int.isLE_compare]

@[simp] theorem isAtLeast_int (n k : Int) : (Number.int n).isAtLeast k = decide (k ≤ n) := by
  rw [Bool.eq_iff_iff]
  simp [isAtLeast, compare?, Int.isGE_compare]

@[simp] theorem equals_int (n k : Int) : (Number.int n).equals k = decide (n = k) := by
  rw [Bool.eq_iff_iff]
  simp [equals, compare?, Ordering.isEq_iff_eq_eq]

@[simp] theorem equals_truth (b : Bool) (k : Int) :
    (Number.truth b).equals k = decide (ofTruth b = k) :=
  equals_int (ofTruth b) k

@[simp] theorem same_int (m n : Int) : (Number.int m).same (.int n) = decide (n = m) := by
  simp [same]

@[simp] theorem add?_int (m n : Int) : (Number.int m).add? (.int n) = some (.int (m + n)) := rfl

@[simp] theorem sub?_int (m n : Int) : (Number.int m).sub? (.int n) = some (.int (m - n)) := by
  simp [sub?, neg, Int.sub_eq_add_neg]

end Number

namespace Value

def number? : Value → Option Number
  | .int n => some (.int n)
  | .bool b => some (.truth b)
  | .float x => some (.float x)
  | _ => none

end Value

end Circulation
