import Circulation.Proofs.Connecting
import Circulation.Proofs.Floating.Integers
import Circulation.Proofs.Range

/-!
What the check of the arcs refuses, and in which words. The refusal names the first bound that is
exceeded, but its message may fail to show that number: a sum is written in floating point, which
ends before `2 ^ 1024`, and the numbers of an arc digit by digit, of which a text has no more than
4300. Main result: arcs pass exactly if they are in range, and all others are refused by the name of
the bound or, if it cannot be shown, as too large or as a bad value; no network is built from them.
-/

namespace Circulation

open Floating (overflow Fits)

namespace NumericRange

structure Admissible (arcs : List Arc) : Prop where
  capacity_le : ∀ a ∈ arcs, a.capacity ≤ rangeLimit
  costBound_le : costBound arcs ≤ rangeLimit
  potentialBound_le : 3 * potentialBound arcs ≤ rangeLimit

/-- The refusal that names the bound which is exceeded first. A capacity comes before the sums, and
the one of an earlier arc before those of later arcs. -/
inductive Offends (arcs : List Arc) : Fault → Prop
  | capacity (before : List Arc) (a : Arc) (after : List Arc) (hsplit : arcs = before ++ a :: after)
      (hbefore : ∀ b ∈ before, b.capacity ≤ rangeLimit) (hlarge : rangeLimit < a.capacity) :
      Offends arcs (.capacityTooLarge a.tail a.head a.capacity)
  | costs (hcapacity : ∀ a ∈ arcs, a.capacity ≤ rangeLimit) (hlarge : rangeLimit < costBound arcs) :
      Offends arcs (.costBoundTooLarge (costBound arcs))
  | potentials (hcapacity : ∀ a ∈ arcs, a.capacity ≤ rangeLimit)
      (hcosts : costBound arcs ≤ rangeLimit) (hlarge : rangeLimit < 3 * potentialBound arcs) :
      Offends arcs (.potentialBoundTooLarge (potentialBound arcs))

/-- A refusal as it is raised. One with a number that its message cannot show fails while the
message is made. -/
def raised : Fault → Fault
  | .capacityTooLarge tail head capacity =>
    if Decimal.hasText tail ∧ Decimal.hasText head ∧ Decimal.hasText capacity then
      .capacityTooLarge tail head capacity
    else .badValue
  | .costBoundTooLarge bound => if bound < overflow then .costBoundTooLarge bound else .tooLarge
  | .potentialBoundTooLarge bound =>
    if bound < overflow then .potentialBoundTooLarge bound else .tooLarge
  | fault => fault

variable {arcs : List Arc} {fault : Fault}

theorem Offends.category_eq (h : Offends arcs fault) : fault.category = .overflow := by
  cases h <;> rfl

theorem raised_eq_of_bound (bound : Nat) (hintegers : fault.shownIntegers = [])
    (hbounds : fault.shownBounds = [(bound : Int)]) :
    fault.raised = if bound < overflow then fault else .tooLarge := by
  have hshown : (Decimal.exponential? (bound : Int)).isSome = true ↔ bound < overflow :=
    Floating.isSome_exponential? bound
  by_cases hbound : bound < overflow
  · simp [Fault.raised, hintegers, hbounds, hshown.mpr hbound, hbound]
  · have hnone : (Decimal.exponential? (bound : Int)).isSome = false := by
      rw [← Bool.not_eq_true, hshown]
      exact hbound
    simp [Fault.raised, hintegers, hbounds, hnone, hbound]

theorem Offends.raised_eq (h : Offends arcs fault) : fault.raised = raised fault := by
  cases h with
  | capacity =>
    rw [Fault.raised_eq_ite rfl]
    simp [Fault.shownIntegers, raised]
  | costs => rw [raised_eq_of_bound (costBound arcs) rfl rfl, raised]
  | potentials => rw [raised_eq_of_bound (potentialBound arcs) rfl rfl, raised]

theorem find?_eq_none (h : ∀ a ∈ arcs, a.capacity ≤ rangeLimit) :
    (arcs.find? fun a => rangeLimit < a.capacity) = none := by
  rw [List.find?_eq_none]
  intro a ha
  simpa using h a ha

/-- The check raises the refusal of the first bound that is exceeded. -/
theorem Offends.check_eq (h : Offends arcs fault) : check arcs = .error (raised fault) := by
  rw [← h.raised_eq]
  cases h with
  | capacity before a after hsplit hbefore hlarge =>
    have hfind : (arcs.find? fun a => rangeLimit < a.capacity) = some a := by
      rw [hsplit, List.find?_append, find?_eq_none hbefore, Option.none_or,
        List.find?_cons_of_pos (by simpa using hlarge)]
    simp only [check, hfind]
  | costs hcapacity hlarge =>
    simp only [check, find?_eq_none hcapacity, if_pos hlarge]
  | potentials hcapacity hcosts hlarge =>
    simp only [check, find?_eq_none hcapacity, if_neg (Nat.not_lt.mpr hcosts), if_pos hlarge]

theorem exists_offends (h : ¬ Admissible arcs) : ∃ fault, Offends arcs fault := by
  cases hfind : arcs.find? fun a => rangeLimit < a.capacity with
  | some a =>
    obtain ⟨hlarge, before, after, hsplit, hbefore⟩ := List.find?_eq_some_iff_append.mp hfind
    exact ⟨_, .capacity before a after hsplit (fun b hb => by simpa using hbefore b hb)
      (by simpa using hlarge)⟩
  | none =>
    rw [List.find?_eq_none] at hfind
    have hcapacity : ∀ a ∈ arcs, a.capacity ≤ rangeLimit := fun a ha => by simpa using hfind a ha
    by_cases hcosts : rangeLimit < costBound arcs
    · exact ⟨_, .costs hcapacity hcosts⟩
    · by_cases hpotentials : rangeLimit < 3 * potentialBound arcs
      · exact ⟨_, .potentials hcapacity (Nat.not_lt.mp hcosts) hpotentials⟩
      · exact absurd ⟨hcapacity, Nat.not_lt.mp hcosts, Nat.not_lt.mp hpotentials⟩ h

theorem ofValues_eq_error {nodeCount : Nat} {items : Value} (hpos : 0 < nodeCount)
    (harcs : Arc.listOfValue items = .ok arcs) (hends : ∀ a ∈ arcs, a.EndsIn nodeCount)
    (h : check arcs = .error fault) : Network.ofValues (.int nodeCount) items = .error fault := by
  obtain ⟨edges, hedges⟩ := Edge.ofArcs_eq_ok hends 0
  rw [Network.ofValues_eq hpos harcs, Network.ofArcs, Network.ofArcsWithin, hedges]
  simp only [bind, Except.bind, h]

/-- Arcs pass the check exactly if they are in range. Otherwise the refusal of the first bound that
is exceeded is raised, by the check and when a network is built from the arcs. -/
theorem check_refuses (arcs : List Arc) :
    (check arcs = .ok () ↔ Admissible arcs) ∧
      (¬ Admissible arcs → ∃ fault, Offends arcs fault ∧ fault.category = .overflow ∧
        check arcs = .error (raised fault) ∧
          ∀ (nodeCount : Nat) (items : Value), 0 < nodeCount → Arc.listOfValue items = .ok arcs →
            (∀ a ∈ arcs, a.EndsIn nodeCount) →
              Network.ofValues (.int nodeCount) items = .error (raised fault)) := by
  refine ⟨?_, fun h => ?_⟩
  · rw [check_eq_ok_iff]
    exact ⟨fun ⟨hcapacity, hcosts, hpotentials⟩ => ⟨hcapacity, hcosts, hpotentials⟩,
      fun ⟨hcapacity, hcosts, hpotentials⟩ => ⟨hcapacity, hcosts, hpotentials⟩⟩
  · obtain ⟨fault, hfault⟩ := exists_offends h
    have hcheck := hfault.check_eq
    exact ⟨fault, hfault, hfault.category_eq, hcheck, fun nodeCount items hpos harcs hends =>
      ofValues_eq_error hpos harcs hends hcheck⟩

/-- One unit of capacity too many, on an arc from the only node to itself. -/
theorem check_refuses_capacity : ∃ arcs items,
    Arc.listOfValue items = .ok arcs ∧ ¬ Admissible arcs ∧
      Network.ofValues (.int (1 : Nat)) items =
        .error (.capacityTooLarge 0 0 (rangeLimit + 1)) := by
  have harcs : Arc.listOfValue (.list ([⟨0, 0, rangeLimit + 1, 0⟩].map Arc.toValue)) =
    .ok [⟨0, 0, rangeLimit + 1, 0⟩] := Arc.ofItems_toValue _ 0
  have hlarge : ¬ Admissible [⟨0, 0, rangeLimit + 1, 0⟩] := fun h =>
    absurd (h.capacity_le _ List.mem_cons_self) (Nat.not_succ_le_self rangeLimit)
  have hrefusal : check [⟨0, 0, rangeLimit + 1, 0⟩] =
    .error (.capacityTooLarge 0 0 (rangeLimit + 1)) := rfl
  obtain ⟨fault, -, -, hcheck, hbuild⟩ := (check_refuses [⟨0, 0, rangeLimit + 1, 0⟩]).2 hlarge
  have hraised := Except.error.inj (hcheck.symm.trans hrefusal)
  refine ⟨_, _, harcs, hlarge, hraised ▸ hbuild 1 _ (by decide) harcs ?_⟩
  simp only [List.forall_mem_singleton]
  exact ⟨by decide, by decide, by decide, by decide⟩

/-- A cost of `10 ^ 400` on a single arc is refused, but not as an overflow. -/
theorem check_beyond_floating : ¬ ∀ (arcs : List Arc) (fault : Fault),
    check arcs = .error fault → fault.category = .overflow := by
  intro h
  have hbound (cost : Int) : costBound [⟨0, 0, 1, cost⟩] = cost.natAbs := by
    simp [costBound, natSum]
  have hrange : rangeLimit < 10 ^ 400 := by decide +kernel
  have hbeyond : ¬ 10 ^ 400 < overflow := by decide +kernel
  have hcosts := (hbound (10 ^ 400 : Nat)).trans (Int.natAbs_natCast _)
  have hsmall : ∀ a ∈ [Arc.mk 0 0 1 (10 ^ 400 : Nat)], a.capacity ≤ rangeLimit :=
    List.forall_mem_singleton.mpr (by decide : 1 ≤ rangeLimit)
  have hcheck := (Offends.costs hsmall (hrange.trans_eq hcosts.symm)).check_eq
  rw [hcosts, raised, if_neg hbeyond] at hcheck
  exact absurd (h _ _ hcheck) (by decide)

end NumericRange

end Circulation
