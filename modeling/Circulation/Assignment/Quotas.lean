import Circulation.Fault
import Circulation.Sum

/-!
Quotas: how much each center has to take. The even split differs by at most one between two centers,
and the first centers take the larger shares.
-/

namespace Circulation.Quotas

def share (total centerCount index : Nat) : Nat :=
  if index < total % centerCount then total / centerCount + 1 else total / centerCount

def even (total centerCount : Nat) : List Nat :=
  (List.range centerCount).map (share total centerCount)

@[simp] theorem length_even (total centerCount : Nat) :
    (even total centerCount).length = centerCount := by
  simp [even]

theorem sum_range_base (n base extra : Nat) :
    natSum ((List.range n).map fun i => if i < extra then base + 1 else base) =
      n * base + min n extra := by
  induction n with
  | zero => simp
  | succ n ih =>
    rw [List.range_succ, List.map_append, natSum_append, ih]
    by_cases h : n < extra
    · simp [h, Nat.succ_mul]
      omega
    · simp [h, Nat.succ_mul]
      omega

theorem sum_even (total : Nat) {centerCount : Nat} (h : 0 < centerCount) :
    natSum (even total centerCount) = total := by
  have hlt := Nat.mod_lt total h
  have hdiv := Nat.div_add_mod total centerCount
  show natSum ((List.range centerCount).map fun i => share total centerCount i) = total
  unfold share
  rw [sum_range_base, Nat.min_eq_right (Nat.le_of_lt hlt)]
  exact hdiv

/-- The whole part of the even share of a supply. A supply of zero keeps its sign. -/
def baseShare (total rest : Float) (centerCount : Nat) : Float :=
  let quotient := (total - rest) / Float.ofNat centerCount
  if quotient == 0.0 then (if total == 0.0 then total else 0.0)
  else if quotient - quotient.floor > 0.5 then quotient.floor + 1.0
  else quotient.floor

/-- The even split of a supply with a fraction. The first centers take one more, as long as their
number is below the rest, so the shares may add up to more than the supply. -/
def fractional (total : Float) (centerCount : Nat) : List Float :=
  let rest := Decimal.remainder total centerCount
  let base := baseShare total rest centerCount
  (List.range centerCount).map fun i => if Float.ofNat i < rest then base + 1.0 else base

/-- The even split for numbers that need not make sense. The number of centers has to be whole. -/
def split (total centerCount : Number) : Except Fault (List Number) :=
  if centerCount.isAtMost 0 then .error (Fault.centerCountTooSmall centerCount).raised
  else if total.isBelow 0 then .error (Fault.supplyNegative total).raised
  else if total.toFloat?.isNone && centerCount.integer?.isNone then .error .tooLarge
  else
    match total, centerCount.integer? with
    | .float x, some count => .ok ((fractional x count.toNat).map .float)
    | total, some count =>
      .ok ((even ((total.integer?.getD 0).toNat) count.toNat).map fun n : Nat => .int n)
    | _, none => .error .wrongKind

end Circulation.Quotas
