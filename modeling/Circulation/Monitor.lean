import Circulation.Fault

/-!
A record of the outcomes of pivots. It counts the pivots that moved no flow, the run of such pivots
that is still going on and the longest one, and keeps the last total costs in a window.
-/

namespace Circulation

/-- The outcomes of pivots so far. -/
structure Monitor where
  /-- The number of pivots in a row without flow after which the first-index rule is asked for. -/
  streakLimit : Number
  window : Nat
  /-- The last total costs, the oldest first, at most `window` of them. -/
  history : List Number
  pivots : Nat
  degenerate : Nat
  streak : Nat
  longest : Nat

namespace Monitor

def start (streakLimit : Number) (window : Nat) : Monitor :=
  ⟨streakLimit, window, [], 0, 0, 0, 0⟩

/-- A monitor for a window of any size that a machine can address, which must not be negative. -/
def create (streakLimit : Number) (window : Int) : Except Fault Monitor :=
  if rangeLimit < window.natAbs then .error .tooLarge
  else if window < 0 then .error .badValue
  else .ok (start streakLimit window.toNat)

def record (m : Monitor) (totalCost : Number) (degenerate : Bool) : Monitor :=
  let costs := m.history ++ [totalCost]
  let history := costs.drop (costs.length - m.window)
  if degenerate then
    { m with
      history, pivots := m.pivots + 1, degenerate := m.degenerate + 1, streak := m.streak + 1,
      longest := max m.longest (m.streak + 1) }
  else { m with history, pivots := m.pivots + 1, streak := 0 }

theorem length_history_record (m : Monitor) (totalCost : Number) (degenerate : Bool) :
    (m.record totalCost degenerate).history.length = min (m.history.length + 1) m.window := by
  unfold record
  split <;> simp <;> omega

theorem streak_record (m : Monitor) (totalCost : Number) (degenerate : Bool) :
    (m.record totalCost degenerate).streak = if degenerate then m.streak + 1 else 0 := by
  cases degenerate <;> rfl

def wantsBland (m : Monitor) : Bool :=
  m.streakLimit.isAtMost m.streak

def ends? (m : Monitor) : Option (Number × Number) := do
  return (← m.history.head?, ← m.history.getLast?)

def isStalled (m : Monitor) : Bool :=
  m.window ≤ m.history.length && m.ends?.any fun (first, last) => first.same last

/-- The cost has not moved across a full window. A window without places has no ends. -/
def stalled? (m : Monitor) : Except Fault Bool :=
  if m.window = 0 then .error .outOfBounds else .ok m.isStalled

/-- How far the total cost fell across the window. There is no answer if a difference between a
whole cost and a floating-point one is out of range. -/
def improvement? (m : Monitor) : Option Number :=
  match m.history, m.ends? with
  | _ :: _ :: _, some (first, last) => first.sub? last
  | _, _ => some (.int 0)

def ratio (m : Monitor) : Float :=
  if m.pivots = 0 then 0.0 else Float.ofNat m.degenerate / Float.ofNat m.pivots

structure Summary where
  pivots : Nat
  degenerate : Nat
  ratio : Float
  streak : Nat
  longest : Nat
  improvement : Number
  stalled : Bool

/-- The counts of a monitor. An improvement without an answer counts as none. -/
def summary (m : Monitor) : Summary :=
  ⟨m.pivots, m.degenerate, m.ratio, m.streak, m.longest, m.improvement?.getD (.int 0),
    m.isStalled⟩

def summary? (m : Monitor) : Except Fault Summary :=
  if m.improvement?.isNone then .error .tooLarge
  else if m.window = 0 then .error .outOfBounds
  else .ok m.summary

end Monitor

end Circulation
