/-!
Quotients rounded to the nearest integer. A half goes to the even neighbour.
-/

namespace Circulation.Decimal

/-- The integer nearest to `n / d`; of two equally near ones the even one. -/
def roundDiv (n d : Nat) : Nat :=
  match compare (2 * (n % d)) d with
  | .lt => n / d
  | .gt => n / d + 1
  | .eq => n / d + n / d % 2

end Circulation.Decimal
