import Circulation.Number.Reading

/-!
The population spread: the gap between the largest and the smallest load, in percent of their mean.
-/

namespace Circulation.Spread

def highest {α : Type} (less : α → α → Bool) (first : α) (rest : List α) : α :=
  rest.foldl (fun best x => if less best x then x else best) first

def lowest {α : Type} (less : α → α → Bool) (first : α) (rest : List α) : α :=
  rest.foldl (fun best x => if less x best then x else best) first

theorem highest_mem {α : Type} (less : α → α → Bool) (first : α) (rest : List α) :
    highest less first rest ∈ first :: rest := by
  unfold highest
  induction rest generalizing first with
  | nil => simp
  | cons x rest ih =>
    rw [List.foldl_cons]
    split
    · exact List.mem_cons_of_mem _ (ih x)
    · cases List.mem_cons.mp (ih first) with
      | inl h => simp [h]
      | inr h => exact List.mem_cons_of_mem _ (List.mem_cons_of_mem _ h)

theorem lowest_eq_highest {α : Type} (less : α → α → Bool) (first : α) (rest : List α) :
    lowest less first rest = highest (fun a b => less b a) first rest := rfl

theorem lowest_mem {α : Type} (less : α → α → Bool) (first : α) (rest : List α) :
    lowest less first rest ∈ first :: rest := by
  rw [lowest_eq_highest]
  exact highest_mem _ first rest

/-- What is left of a computation whose numbers may become too large. -/
def within {α : Type} (result : Option α) : Except Fault α :=
  (result.map Except.ok).getD (.error .tooLarge)

/-- The spread between two loads. Sum and difference of whole loads are exact before they are
rounded. The mean of two tiny loads can vanish. -/
def between (high low : Number) : Except Fault Float := do
  let sum ← within (high.add? low)
  if sum.equals 0 then return 0.0
  let gap ← within ((high.sub? low).bind Number.toFloat?)
  let mean := 0.5 * (← within sum.toFloat?)
  if mean == 0.0 then throw .divisionByZero
  return 100.0 * gap / mean

def ofNumbers : List Number → Except Fault Float
  | [] => .ok 0.0
  | x :: xs => between (highest Number.less x xs) (lowest Number.less x xs)

/-- The spread of loads read from data. Data that is missing, zero or empty has no loads. -/
def ofValue (v : Value) : Except Fault Float :=
  if !v.isTrue then .ok 0.0
  else
    match v.items? with
    | some items => do ofNumbers (← items.mapM Value.toNumber)
    | none => .error .wrongKind

def ofInts : List Int → Except Fault Float
  | [] => .ok 0.0
  | n :: ns =>
    between (.int (highest (fun a b => a < b) n ns)) (.int (lowest (fun a b => a < b) n ns))

end Circulation.Spread
