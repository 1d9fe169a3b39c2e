import Circulation.Proofs.Assignment.Plans

/-!
What a plan costs beyond the cheapest centers. Without quotas every point would go to the first of
its cheapest centers as a whole. Main result: a plan costs at least what the points cost there, and
exactly as much if the loads of these centers are the quotas.
-/

namespace Circulation

theorem Spread.lowest_spec {α : Type} (less : α → α → Bool) (key : α → Int)
    (hless : ∀ x y, less x y = true ↔ key x < key y) (first : α) (rest : List α) :
    ∃ front back, first :: rest = front ++ lowest less first rest :: back ∧
      (∀ x ∈ front, key (lowest less first rest) < key x) ∧
      ∀ x ∈ back, key (lowest less first rest) ≤ key x := by
  induction rest using List.reverseRecOn with
  | nil => exact ⟨[], [], rfl, by simp, by simp⟩
  | append_singleton rest x ih =>
    obtain ⟨front, back, hsplit, hfront, hback⟩ := ih
    have hstep : lowest less first (rest ++ [x]) =
        if less x (lowest less first rest) then x else lowest less first rest := by
      rw [lowest, List.foldl_append]
      rfl
    rw [hstep]
    generalize lowest less first rest = best at hsplit hfront hback
    by_cases hx : less x best = true
    · rw [if_pos hx]
      rw [hless] at hx
      refine ⟨first :: rest, [], rfl, fun y hy => ?_, by simp⟩
      rw [hsplit] at hy
      rcases List.mem_append.mp hy with hy | hy
      · exact hx.trans (hfront y hy)
      · rcases List.mem_cons.mp hy with rfl | hy
        · exact hx
        · exact hx.trans_le (hback y hy)
    · rw [if_neg hx]
      rw [hless, not_lt] at hx
      refine ⟨front, back ++ [x], ?_, hfront, fun y hy => ?_⟩
      · rw [← List.cons_append, hsplit, List.append_assoc, List.cons_append]
      · rcases List.mem_append.mp hy with hy | hy
        · exact hback y hy
        · rwa [List.mem_singleton.mp hy]

namespace Assignment.Problem

variable {p : Problem}

theorem zipIdx_split {row : List Int} {front back : List (Int × Nat)} {best : Int × Nat}
    (h : row.zipIdx = front ++ best :: back) :
    front.length < row.length ∧ best = (row.getD front.length 0, front.length) ∧
      (∀ k < front.length, (row.getD k 0, k) ∈ front) ∧
      ∀ k < row.length, (row.getD k 0, k) ∈ front ++ best :: back := by
  have hlength : front.length < row.length := by
    have htotal := congrArg List.length h
    simp only [List.length_zipIdx, List.length_append, List.length_cons] at htotal
    omega
  have hentry : ∀ k < row.length, (front ++ best :: back)[k]? = some (row.getD k 0, k) := by
    intro k hk
    rw [← h, List.getElem?_zipIdx, List.getElem?_eq_getElem hk]
    simp [hk]
  refine ⟨hlength, ?_, fun k hk => ?_, fun k hk => List.mem_of_getElem? (hentry k hk)⟩
  · have hbest := hentry front.length hlength
    rw [List.getElem?_append_right (Nat.le_refl _), Nat.sub_self, List.getElem?_cons_zero] at hbest
    exact Option.some.inj hbest
  · have hmem := hentry k (Nat.lt_trans hk hlength)
    rw [List.getElem?_append_left hk] at hmem
    exact List.mem_of_getElem? hmem

theorem cheapest_spec {row : List Int} (hrow : 0 < row.length) : cheapest row < row.length ∧
    (∀ k < row.length, row.getD (cheapest row) 0 ≤ row.getD k 0) ∧
      ∀ k < cheapest row, row.getD (cheapest row) 0 < row.getD k 0 := by
  cases row with
  | nil => exact absurd hrow (Nat.lt_irrefl 0)
  | cons cost row =>
    obtain ⟨front, back, hsplit, hfront, hback⟩ := Spread.lowest_spec
      (fun a b : Int × Nat => decide (a.1 < b.1)) Prod.fst (by simp) (cost, 0) (row.zipIdx 1)
    have hcheapest : cheapest (cost :: row) =
      (Spread.lowest (fun a b : Int × Nat => decide (a.1 < b.1)) (cost, 0) (row.zipIdx 1)).2 := rfl
    rw [hcheapest]
    generalize Spread.lowest _ _ _ = best at hsplit hfront hback
    have hentries : (cost :: row).zipIdx = front ++ best :: back := hsplit
    obtain ⟨hlength, rfl, hbefore, hall⟩ := zipIdx_split hentries
    refine ⟨hlength, fun k hk => ?_, fun k hk => hfront _ (hbefore k hk)⟩
    rcases List.mem_append.mp (hall k hk) with hmem | hmem
    · exact (hfront _ hmem).le
    · rcases List.mem_cons.mp hmem with heq | hmem
      · exact (congrArg Prod.fst heq).ge
      · exact hback _ hmem

/-- The center that a point takes if there are no quotas. -/
def region (p : Problem) (i : Nat) : Nat := cheapest (p.costs.getD i [])

def wholeShares (f : Fin p.pointCount → Fin p.centerCount) (i : Fin p.pointCount)
    (j : Fin p.centerCount) : Int :=
  if f i = j then p.supply i else 0

section Shares

variable {f : Fin p.pointCount → Fin p.centerCount}

theorem isAllotment_wholeShares (hloads : ∀ j, ∑ i, wholeShares f i j = p.quota j) :
    p.IsAllotment (wholeShares f) := by
  refine ⟨fun i j => ?_, fun i => ?_, hloads⟩
  · simp only [wholeShares]
    split
    · exact Int.natCast_nonneg _
    · exact Int.le_refl 0
  · simp [wholeShares]

theorem shareCost_wholeShares (f : Fin p.pointCount → Fin p.centerCount) :
    p.shareCost (wholeShares f) = ∑ i : Fin p.pointCount, p.supply i * p.cost i (f i) := by
  simp [shareCost, wholeShares]

theorem IsAllotment.row_le {y : Fin p.pointCount → Fin p.centerCount → Int} (hy : p.IsAllotment y)
    {i : Fin p.pointCount} (hleast : ∀ j : Fin p.centerCount, p.cost i (f i) ≤ p.cost i j) :
    p.supply i * p.cost i (f i) ≤ ∑ j, y i j * p.cost i j := by
  calc
    (p.supply i : Int) * p.cost i (f i) = ∑ j, y i j * p.cost i (f i) := by
      rw [← Finset.sum_mul, hy.row i]
    _ ≤ ∑ j, y i j * p.cost i j :=
      Finset.sum_le_sum fun j _ => Int.mul_le_mul_of_nonneg_left (hleast j) (hy.nonneg i j)

theorem IsAllotment.le_shareCost {y : Fin p.pointCount → Fin p.centerCount → Int}
    (hy : p.IsAllotment y)
    (hleast : ∀ (i : Fin p.pointCount) (j : Fin p.centerCount), p.cost i (f i) ≤ p.cost i j) :
    ∑ i : Fin p.pointCount, p.supply i * p.cost i (f i) ≤ p.shareCost y :=
  Finset.sum_le_sum fun i _ => hy.row_le (hleast i)

end Shares

namespace WellPosed

variable (h : p.WellPosed)
include h

theorem region_spec (i : Fin p.pointCount) : p.region i < p.centerCount ∧
    (∀ j < p.centerCount, p.cost i (p.region i) ≤ p.cost i j) ∧
      ∀ j < p.region i, p.cost i (p.region i) < p.cost i j := by
  have hlength : (p.costs.getD i []).length = p.centerCount := by
    refine h.length_row _ ?_
    simp [h.length_costs]
  have hpos : 0 < (p.costs.getD i []).length := by
    rw [hlength]
    exact h.centerCount_pos
  have hspec := cheapest_spec hpos
  rwa [hlength] at hspec

theorem regionLoads_eq_ofFn : p.regionLoads = List.ofFn fun j : Fin p.centerCount =>
    ∑ i : Fin p.pointCount, if p.region i = j then p.supply i else 0 := by
  have hzip : p.supplies.zip p.costs =
      List.ofFn fun i : Fin p.pointCount => (p.supply i, p.costs.getD i []) := by
    refine List.ext_getElem (by simp [h.length_supplies, h.length_costs]) fun k hk hk' => ?_
    simp [supply, h.length_supplies, h.length_costs]
  refine List.ext_getElem (by simp [regionLoads]) fun k hk hk' => ?_
  simp only [regionLoads, List.getElem_map, List.getElem_range, List.getElem_ofFn]
  rw [hzip, List.map_ofFn]
  exact List.sum_ofFn

end WellPosed

/-- Quotas only add cost. The loads of the regions, where each point goes to the first of its
cheapest centers as a whole, make up the supply. A plan costs at least what this costs, and exactly
as much if these loads are the quotas. -/
theorem plan_of_regions {points centers choices maxIterations : Value} {terms : Terms}
    {options : Options} {plan : Plan} (hposed : ofValues points centers terms = .ok p)
    (hoptions : Options.ofValue choices = .ok options)
    (hsolve : (p.solve options maxIterations).result = .ok plan) :
    intSum plan.regionLoads = p.totalSupply ∧
      ∃ region : Fin p.pointCount → Fin p.centerCount,
        (∀ i : Fin p.pointCount, (∀ j : Fin p.centerCount, p.cost i (region i) ≤ p.cost i j) ∧
          ∀ j < region i, p.cost i (region i) < p.cost i j) ∧
        plan.regionLoads = List.ofFn (fun j =>
          ∑ i : Fin p.pointCount, if region i = j then (p.supply i : Int) else 0) ∧
        ∑ i : Fin p.pointCount, p.supply i * p.cost i (region i) ≤ plan.totalCost ∧
        (plan.regionLoads = plan.quotas →
          plan.totalCost = ∑ i : Fin p.pointCount, p.supply i * p.cost i (region i)) := by
  obtain ⟨h, -⟩ := ofValues_ok hposed
  obtain ⟨sol, x, hread, hopt⟩ := h.solve_ok hoptions hsolve
  obtain ⟨-, hcost, -, -, hquotas, hregions⟩ := planOf_ok hread
  obtain ⟨hallotment, hleast⟩ := h.isAllotment_unitsOf hopt
  rw [h.costOf_eq_shareCost] at hcost
  let region : Fin p.pointCount → Fin p.centerCount := fun i => ⟨p.region i, (h.region_spec i).1⟩
  have hcheapest : ∀ i : Fin p.pointCount,
      (∀ j : Fin p.centerCount, p.cost i (region i) ≤ p.cost i j) ∧
      ∀ j < region i, p.cost i (region i) < p.cost i j := fun i =>
    ⟨fun j => (h.region_spec i).2.1 j j.isLt, fun j hj => (h.region_spec i).2.2 j hj⟩
  have hloads : plan.regionLoads = List.ofFn fun j => ∑ i, wholeShares region i j := by
    rw [hregions, h.regionLoads_eq_ofFn, List.map_ofFn]
    congr 1
    funext j
    simp [wholeShares, region, Fin.ext_iff]
  have hlower := hallotment.le_shareCost fun i => (hcheapest i).1
  rw [← hcost] at hlower
  refine ⟨?_, region, hcheapest, hloads, hlower, fun hequal => le_antisymm ?_ hlower⟩
  · rw [hloads, intSum_eq_sum, List.sum_ofFn, Finset.sum_comm, ← h.sum_supply]
    simp [wholeShares]
  · rw [← shareCost_wholeShares, hcost]
    refine hleast _ (isAllotment_wholeShares fun j => ?_)
    rw [hloads, hquotas, h.quotas_eq_ofFn, List.map_ofFn] at hequal
    exact congrFun (List.ofFn_injective hequal) j

def nearTerms : Terms := ⟨.text "count", 1.0, false, .list [.int 3, .int 0]⟩

set_option maxRecDepth 20000 in
theorem plan_of_regions_near : ∃ p plan,
    ofValues crowdedPoints crowdedCenters nearTerms = .ok p ∧
      p.costs = [[1, 16], [2, 17], [4, 9]] ∧ (p.solve .standard .null).result = .ok plan ∧
      plan.regionLoads = [3, 0] ∧ plan.totalCost = 7 ∧ intSum plan.regionLoads = p.totalSupply ∧
      ∃ region : Fin p.pointCount → Fin p.centerCount,
        (∀ (i : Fin p.pointCount) (j : Fin p.centerCount), p.cost i (region i) ≤ p.cost i j) ∧
        7 = ∑ i : Fin p.pointCount, p.supply i * p.cost i (region i) := by
  obtain ⟨p, plan, hposed, hcosts, hplan, hregions, hquotas, hcost⟩ : ∃ p plan,
      ofValues crowdedPoints crowdedCenters nearTerms = .ok p ∧
        p.costs = [[1, 16], [2, 17], [4, 9]] ∧ (p.solve .standard .null).result = .ok plan ∧
        plan.regionLoads = [3, 0] ∧ plan.quotas = [3, 0] ∧ plan.totalCost = 7 :=
    ⟨_, _, rfl, rfl, rfl, rfl, rfl, rfl⟩
  have hoptions : Options.ofValue .null = .ok .standard := rfl
  obtain ⟨htotal, region, hcheapest, -, -, hequal⟩ := plan_of_regions hposed hoptions hplan
  exact ⟨p, plan, hposed, hcosts, hplan, hregions, hcost, htotal, region, fun i => (hcheapest i).1,
    hcost.symm.trans (hequal (hregions.trans hquotas.symm))⟩

end Assignment.Problem

end Circulation
