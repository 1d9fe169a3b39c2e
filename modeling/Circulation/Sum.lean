/-!
Sums of whole numbers. A sum over two lists put together is the sum of their sums.
-/

namespace Circulation

def natSum (ns : List Nat) : Nat := ns.foldr (· + ·) 0

def intSum (ns : List Int) : Int := ns.foldr (· + ·) 0

@[simp] theorem natSum_nil : natSum [] = 0 := rfl

@[simp] theorem natSum_cons (n : Nat) (ns : List Nat) : natSum (n :: ns) = n + natSum ns := rfl

@[simp] theorem natSum_append (ms ns : List Nat) : natSum (ms ++ ns) = natSum ms + natSum ns := by
  induction ms with
  | nil => simp
  | cons m ms ih => simp [ih, Nat.add_assoc]

@[simp] theorem intSum_nil : intSum [] = 0 := rfl

@[simp] theorem intSum_cons (n : Int) (ns : List Int) : intSum (n :: ns) = n + intSum ns := rfl

@[simp] theorem intSum_append (ms ns : List Int) : intSum (ms ++ ns) = intSum ms + intSum ns := by
  induction ms with
  | nil => simp
  | cons m ms ih => simp [ih, Int.add_assoc]

end Circulation
