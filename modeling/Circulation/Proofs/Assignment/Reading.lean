import Circulation.Proofs.Assignment.Routing
import Circulation.Proofs.Optimality

/-!
Reading an assignment back from a flow. The flow on an arc is found at the place of the arc, the
cost that is read is that of the shares, and the center of a point is the first one with the largest
share. Main result: from a circulation of least cost a plan is read without fault.
-/

namespace Circulation.Assignment.Problem

section MainCenter

/-- The first of the largest positive values among the first `n` ones. -/
inductive Leads (value : Nat → Int) (n : Nat) : Option Nat × Int → Prop where
  | nobody (hnone : ∀ k < n, value k ≤ 0) : Leads value n (none, 0)
  | leader (j : Nat) (hj : j < n) (hpos : 0 < value j) (hmost : ∀ k < n, value k ≤ value j)
      (hfirst : ∀ k < j, value k < value j) : Leads value n (some j, value j)

theorem Leads.succ {value : Nat → Int} {n : Nat} {best : Option Nat × Int}
    (h : Leads value n best) :
    Leads value (n + 1) (if best.2 < value n then (some n, value n) else best) := by
  have hsucc : ∀ bound, (∀ k < n, value k ≤ bound) → value n ≤ bound →
      ∀ k < n + 1, value k ≤ bound := by
    intro bound hbelow hn k hk
    cases Nat.lt_succ_iff_lt_or_eq.mp hk with
    | inl hlt => exact hbelow k hlt
    | inr heq => rwa [heq]
  cases h with
  | nobody hnone =>
    split
    · rename_i hless
      exact .leader n n.lt_succ_self hless
        (hsucc _ (fun k hk => (hnone k hk).trans hless.le) le_rfl)
        fun k hk => (hnone k hk).trans_lt hless
    · rename_i hless
      exact .nobody (hsucc 0 hnone (not_lt.mp hless))
  | leader j hj hpos hmost hfirst =>
    split
    · rename_i hless
      exact .leader n n.lt_succ_self (hpos.trans hless)
        (hsucc _ (fun k hk => (hmost k hk).trans hless.le) le_rfl)
        fun k hk => (hmost k hk).trans_lt hless
    · rename_i hless
      exact .leader j (by omega) hpos (hsucc _ hmost (not_lt.mp hless)) hfirst

theorem leads_foldl (value : Nat → Int) (n : Nat) : Leads value n
    (((List.range n).map value).zipIdx.foldl (fun (best : Option Nat × Int) (flow, j) =>
      if best.2 < flow then (some j, flow) else best) (none, 0)) := by
  induction n with
  | zero => exact .nobody fun k hk => absurd hk (Nat.not_lt_zero k)
  | succ n ih =>
    rw [List.range_succ, List.map_append, List.zipIdx_append, List.foldl_append]
    simpa using ih.succ

theorem mainCenter_eq_none_iff (value : Nat → Int) (n : Nat) :
    mainCenter ((List.range n).map value) = none ↔ ∀ k < n, value k ≤ 0 := by
  have hleads := leads_foldl value n
  simp only [mainCenter]
  generalize List.foldl _ _ _ = best at *
  cases hleads with
  | nobody hnone => simpa using hnone
  | leader j hj hpos hmost hfirst =>
    simp only [reduceCtorEq, false_iff, not_forall]
    exact ⟨j, hj, not_le.mpr hpos⟩

theorem mainCenter_eq_some_iff (value : Nat → Int) {n j : Nat} (hj : j < n) :
    mainCenter ((List.range n).map value) = some j ↔
      0 < value j ∧ (∀ k < n, value k ≤ value j) ∧ ∀ k < j, value k < value j := by
  have hleads := leads_foldl value n
  simp only [mainCenter]
  generalize List.foldl _ _ _ = best at *
  cases hleads with
  | nobody hnone =>
    simp only [reduceCtorEq, false_iff]
    rintro ⟨hpos, -⟩
    exact not_le.mpr hpos (hnone j hj)
  | leader i hi hpos hmost hfirst =>
    simp only [Option.some.injEq]
    constructor
    · rintro rfl
      exact ⟨hpos, hmost, hfirst⟩
    · rintro ⟨-, hmost', hfirst'⟩
      rcases lt_trichotomy i j with hlt | heq | hgt
      · exact absurd (hfirst' i hlt) (not_lt.mpr (hmost j hj))
      · exact heq
      · exact absurd (hfirst j hgt) (not_lt.mpr (hmost' i hi))

end MainCenter

theorem map_zipIdx_ofFn {α β : Type} {n : Nat} (f : α × Nat → β) (xs : Fin n → α) :
    (List.ofFn xs).zipIdx.map f = List.ofFn fun i : Fin n => f (xs i, i) :=
  List.ext_getElem (by simp) fun k hk hk' => by simp

variable {p : Problem}

theorem intSum_zipWith_rowFlows (flows : Array Int) (i : Nat) (cost : Fin p.centerCount → Int) :
    intSum (List.zipWith (· * ·) (p.rowFlows flows i) (List.ofFn cost)) =
      ∑ j : Fin p.centerCount, p.unitsOf flows i j * cost j := by
  have hlist : List.zipWith (· * ·) (p.rowFlows flows i) (List.ofFn cost) =
      List.ofFn fun j : Fin p.centerCount => p.unitsOf flows i j * cost j :=
    List.ext_getElem (by simp [rowFlows]) fun k hk hk' => by simp [rowFlows]
  rw [hlist, intSum_eq_sum, List.sum_ofFn]

namespace WellPosed

variable (h : p.WellPosed)
include h

theorem costOf_eq_shareCost (flows : Array Int) :
    p.costOf flows = p.shareCost fun i j => p.unitsOf flows i j := by
  simp only [Problem.costOf]
  rw [h.costs_eq_ofFn, map_zipIdx_ofFn, intSum_eq_sum, List.sum_ofFn]
  simp only [intSum_zipWith_rowFlows]
  rfl

variable (x : Fin p.arcs.length → Int)

theorem getD_ofFn (l : Link p.pointCount p.centerCount) :
    (List.ofFn x).toArray.getD (p.placeOf l) 0 = x (h.place l) := by
  have hlt : p.placeOf l < p.arcs.length := by
    rw [← h.val_place]
    exact (h.place l).isLt
  have hplace : (⟨p.placeOf l, hlt⟩ : Fin p.arcs.length) = h.place l :=
    Fin.ext (h.val_place l).symm
  simp [Array.getD_eq_getD_getElem?, hlt, hplace]

theorem unitsOf_ofFn (i : Fin p.pointCount) (j : Fin p.centerCount) :
    p.unitsOf (List.ofFn x).toArray i j = x (h.place (.share i j)) :=
  h.getD_ofFn x (.share i j)

theorem costOf_ofFn : p.costOf (List.ofFn x).toArray =
    Circulation.costOf p.arcs x + p.returnCost * x (h.place .back) := by
  rw [h.costOf_eq_shareCost, h.costOf_arcs]
  simp only [h.unitsOf_ofFn, Int.cast_id]
  ring

/-- In an optimum the way back carries the whole supply, and the cost that is read is the cost of
the flow and what the way back pays. -/
theorem read_of_isOptimum {x : Fin p.arcs.length → Int} {sol : Solution}
    (hsol : sol.IsOptimum p.arcs x) :
    sol.flows.toArray.getD p.returnArc 0 = p.totalSupply ∧
      p.costOf sol.flows.toArray = sol.totalCost + p.returnCost * p.totalSupply := by
  have hback : x (h.place .back) = p.totalSupply := by
    simpa using h.saturated hsol.circulates hsol.least
  rw [hsol.flows_eq, h.costOf_ofFn, hsol.totalCost_eq, ← hback]
  exact ⟨h.getD_ofFn x .back, rfl⟩

theorem exists_planOf {x : Fin p.arcs.length → Int} {sol : Solution}
    (hsol : sol.IsOptimum p.arcs x) : ∃ plan, p.planOf sol = .ok plan := by
  obtain ⟨hrouted, hread⟩ := h.read_of_isOptimum hsol
  have hforward : (p.forwardCost sol.totalCost p.totalSupply).equals
      (p.costOf sol.flows.toArray) = true := by
    simp [forwardCost, h.statedReturn_eq, hread]
  simp only [planOf, hrouted, hforward]
  rw [if_neg (not_not.mpr rfl)]
  exact ⟨_, rfl⟩

end WellPosed

theorem planOf_ok {sol : Solution} {plan : Plan} (h : p.planOf sol = .ok plan) :
    plan.solution = some sol ∧ plan.totalCost = p.costOf sol.flows.toArray ∧
      plan.assignment =
        (List.range p.pointCount).map (fun i => mainCenter (p.rowFlows sol.flows.toArray i)) ∧
      plan.loads = (List.range p.centerCount).map
        (fun j => sol.flows.toArray.getD (p.quotaArc j) 0) ∧
      plan.quotas = p.quotas.map (fun q : Nat => (q : Int)) ∧
      plan.regionLoads = p.regionLoads.map fun n : Nat => (n : Int) := by
  simp only [planOf] at h
  split at h
  · cases h
  · split at h
    · cases h
    · cases h
      exact ⟨rfl, rfl, rfl, rfl, rfl, rfl⟩

end Circulation.Assignment.Problem
