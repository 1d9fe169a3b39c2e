import Circulation.Proofs.Assignment.Saturation

/-!
What the plan of an assignment problem is worth. Its flow uses up every supply and fills every
quota, and no other shares cost less. Where every point counts as one, each point goes to one center
only, and no other way of sending the points to the centers costs less.
-/

namespace Circulation.Assignment.Problem

variable {p : Problem}

section Indicators

theorem exists_eq_ite_of_sum_eq_one {n : Nat} {y : Fin n → Int} (hnonneg : ∀ j, 0 ≤ y j)
    (hsum : ∑ j, y j = 1) : ∃ c, ∀ j, y j = if c = j then 1 else 0 := by
  obtain ⟨c, -, hc⟩ : ∃ c ∈ Finset.univ, 0 < y c := by
    refine Finset.exists_lt_of_sum_lt ?_
    rw [hsum, Finset.sum_const_zero]
    exact Int.zero_lt_one
  have hrest := Finset.add_sum_erase Finset.univ y (Finset.mem_univ c)
  rw [hsum] at hrest
  have hothers : ∀ j ∈ Finset.univ.erase c, 0 ≤ y j := fun j _ => hnonneg j
  have hzero : ∑ j ∈ Finset.univ.erase c, y j = 0 := by
    have hpos := Finset.sum_nonneg hothers
    omega
  refine ⟨c, fun j => ?_⟩
  split
  · rename_i heq
    rw [← heq]
    omega
  · rename_i hne
    exact (Finset.sum_eq_zero_iff_of_nonneg hothers).mp hzero j
      (Finset.mem_erase.mpr ⟨Ne.symm hne, Finset.mem_univ j⟩)

def sharesOf (f : Fin p.pointCount → Fin p.centerCount) (i : Fin p.pointCount)
    (j : Fin p.centerCount) : Int :=
  if f i = j then 1 else 0

/-- Points of supply one that go to one center each use up their supply, and they fill the quotas if
each center is chosen as often as its quota says. -/
theorem isAllotment_sharesOf_iff (hone : ∀ i : Fin p.pointCount, p.supply i = 1)
    (f : Fin p.pointCount → Fin p.centerCount) : p.IsAllotment (sharesOf f) ↔
      ∀ j, (Finset.univ.filter fun i => f i = j).card = p.quota j := by
  have hcolumn : ∀ j, ∑ i, sharesOf f i j = ((Finset.univ.filter fun i => f i = j).card : Int) := by
    intro j
    simp [sharesOf]
  constructor
  · intro h j
    have hj := h.column j
    rw [hcolumn j] at hj
    exact Int.ofNat_inj.mp hj
  · intro h
    refine ⟨fun i j => ?_, fun i => ?_, fun j => ?_⟩
    · simp only [sharesOf]
      split <;> simp
    · simp [sharesOf, hone i]
    · rw [hcolumn j, h j]

theorem shareCost_sharesOf (f : Fin p.pointCount → Fin p.centerCount) :
    p.shareCost (sharesOf f) = ∑ i : Fin p.pointCount, p.cost i (f i) := by
  simp [shareCost, sharesOf]

end Indicators

section Reading

variable {x : Fin p.arcs.length → Int} {sol : Solution}

theorem WellPosed.loads_eq (h : p.WellPosed) (hsol : sol.IsOptimum p.arcs x) :
    (List.range p.centerCount).map (fun j => sol.flows.toArray.getD (p.quotaArc j) 0) =
      p.quotas.map fun q : Nat => (q : Int) := by
  have hback := h.saturated hsol.circulates hsol.least
  have hflow : ∀ j : Fin p.centerCount,
      sol.flows.toArray.getD (p.quotaArc j) 0 = p.quota j := by
    intro j
    rw [hsol.flows_eq]
    exact (h.getD_ofFn x (.quota j)).trans (h.quota_eq_of_saturated hsol.circulates hback j)
  rw [h.quotas_eq_ofFn]
  refine List.ext_getElem (by simp) fun k hk hk' => ?_
  have hlt : k < p.centerCount := by simpa using hk
  simpa using hflow ⟨k, hlt⟩

theorem WellPosed.isAllotment_unitsOf (h : p.WellPosed) (hsol : sol.IsOptimum p.arcs x) :
    p.IsAllotment (fun i j => p.unitsOf sol.flows.toArray i j) ∧
      ∀ y : Fin p.pointCount → Fin p.centerCount → Int, p.IsAllotment y →
        p.shareCost (fun i j => p.unitsOf sol.flows.toArray i j) ≤ p.shareCost y := by
  have hback := h.saturated hsol.circulates hsol.least
  have hunits : (fun (i : Fin p.pointCount) (j : Fin p.centerCount) =>
      p.unitsOf sol.flows.toArray i j) = fun i j => x (h.place (.share i j)) := by
    rw [hsol.flows_eq]
    exact funext fun i => funext fun j => h.unitsOf_ofFn x i j
  rw [hunits]
  exact ⟨h.isAllotment_of_saturated hsol.circulates hback, fun y hy =>
    h.shareCost_le hsol.circulates hsol.least hy⟩

/-- The center that is read for a point is the first one that takes the most of it. Only a point
without supply has none. -/
theorem IsAllotment.mainCenter_spec {flows : Array Int}
    (h : p.IsAllotment fun i j => p.unitsOf flows i j) (i : Fin p.pointCount) :
    (mainCenter (p.rowFlows flows i) = none ↔ p.supply i = 0) ∧
      ∀ j : Fin p.centerCount, mainCenter (p.rowFlows flows i) = some (j : Nat) ↔
        0 < p.unitsOf flows i j ∧
        (∀ k : Fin p.centerCount, p.unitsOf flows i k ≤ p.unitsOf flows i j) ∧
        ∀ k : Fin p.centerCount, k < j → p.unitsOf flows i k < p.unitsOf flows i j := by
  simp only [rowFlows]
  constructor
  · have hrow := h.row i
    rw [mainCenter_eq_none_iff]
    constructor
    · intro hnone
      have hzero : ∑ j : Fin p.centerCount, p.unitsOf flows i j ≤ 0 :=
        Finset.sum_nonpos fun j _ => hnone j j.isLt
      rw [hrow] at hzero
      simpa using hzero
    · intro hzero k hk
      rw [hzero] at hrow
      exact ((Finset.sum_eq_zero_iff_of_nonneg fun j _ => h.nonneg i j).mp hrow ⟨k, hk⟩
        (Finset.mem_univ _)).le
  · intro j
    rw [mainCenter_eq_some_iff _ j.isLt]
    refine and_congr_right fun _ => and_congr ?_ ?_
    · exact ⟨fun hmost k => hmost k k.isLt, fun hmost k hk => hmost ⟨k, hk⟩⟩
    · exact ⟨fun hfirst k hk => hfirst k hk, fun hfirst k hk =>
        hfirst ⟨k, hk.trans j.isLt⟩ hk⟩

theorem IsAllotment.exists_sharesOf {flows : Array Int}
    (h : p.IsAllotment fun i j => p.unitsOf flows i j)
    (hone : ∀ i : Fin p.pointCount, p.supply i = 1) :
    ∃ f, (fun (i : Fin p.pointCount) (j : Fin p.centerCount) => p.unitsOf flows i j) = sharesOf f ∧
      ∀ i : Fin p.pointCount, mainCenter (p.rowFlows flows i) = some (f i : Nat) := by
  have hrows : ∀ i : Fin p.pointCount, ∃ c : Fin p.centerCount, ∀ j : Fin p.centerCount,
      p.unitsOf flows i j = if c = j then 1 else 0 := by
    intro i
    refine exists_eq_ite_of_sum_eq_one (h.nonneg i) ?_
    rw [h.row i, hone i]
    rfl
  choose f hf using hrows
  refine ⟨f, funext fun i => funext fun j => hf i j, fun i => ?_⟩
  have hself : p.unitsOf flows i (f i) = 1 := (hf i (f i)).trans (if_pos rfl)
  rw [(h.mainCenter_spec i).2, hself]
  refine ⟨Int.zero_lt_one, fun k => ?_, fun k hk => ?_⟩
  · rw [hf]
    split <;> simp
  · rw [hf, if_neg hk.ne']
    exact Int.zero_lt_one

end Reading

/-- The plan that a solve returns is the best one. The units that flow from the points to the
centers use up every supply and fill every quota, which are the loads that are reported; they cost
what is reported, and no other shares cost less. The center of a point is the first one that takes
the most of it, and none if the point supplies nothing. Where every point counts as one, each point
goes to its center alone, each center takes as many points as its quota says, and no other such
choice of centers costs less. -/
theorem plan_optimal {points centers choices maxIterations : Value} {terms : Terms}
    {options : Options} {plan : Plan} (hposed : ofValues points centers terms = .ok p)
    (hoptions : Options.ofValue choices = .ok options)
    (hsolve : (p.solve options maxIterations).result = .ok plan) :
    ∃ sol, plan.solution = some sol ∧ ∃ y : Fin p.pointCount → Fin p.centerCount → Int,
      (∀ (i : Fin p.pointCount) (j : Fin p.centerCount),
        sol.flows.toArray.getD (p.assignmentArc i j) 0 = y i j) ∧
      p.IsAllotment y ∧
      plan.quotas = p.quotas.map (fun q : Nat => (q : Int)) ∧ plan.loads = plan.quotas ∧
      plan.totalCost = p.shareCost y ∧
      (∀ y' : Fin p.pointCount → Fin p.centerCount → Int, p.IsAllotment y' →
        plan.totalCost ≤ p.shareCost y') ∧
      plan.assignment.length = p.pointCount ∧
      (∀ i : Fin p.pointCount, ∃ c, plan.assignment[(i : Nat)]? = some c ∧
        (c = none ↔ p.supply i = 0) ∧
        ∀ j : Fin p.centerCount, c = some (j : Nat) ↔
          0 < y i j ∧ (∀ k, y i k ≤ y i j) ∧ ∀ k < j, y i k < y i j) ∧
      (Balance.ofValue terms.balance = .ok .count →
        ∃ f : Fin p.pointCount → Fin p.centerCount,
          plan.assignment = List.ofFn (fun i => some (f i : Nat)) ∧
          (∀ i j, y i j = if f i = j then 1 else 0) ∧
          (∀ j, (Finset.univ.filter fun i => f i = j).card = p.quota j) ∧
          plan.totalCost = ∑ i : Fin p.pointCount, p.cost i (f i) ∧
          ∀ g : Fin p.pointCount → Fin p.centerCount,
            (∀ j, (Finset.univ.filter fun i => g i = j).card = p.quota j) →
              plan.totalCost ≤ ∑ i : Fin p.pointCount, p.cost i (g i)) := by
  obtain ⟨h, balance, hbalance, hsupplies⟩ := ofValues_ok hposed
  obtain ⟨sol, x, hread, hopt⟩ := h.solve_ok hoptions hsolve
  obtain ⟨hsolution, hcost, hassignment, hloads, hquotas, -⟩ := planOf_ok hread
  obtain ⟨hallotment, hleast⟩ := h.isAllotment_unitsOf hopt
  rw [h.costOf_eq_shareCost] at hcost
  have hcenters : ∀ i : Fin p.pointCount,
      plan.assignment[(i : Nat)]? = some (mainCenter (p.rowFlows sol.flows.toArray i)) := by
    intro i
    simp [hassignment]
  refine ⟨sol, hsolution, fun i j => p.unitsOf sol.flows.toArray i j, fun i j => rfl, hallotment,
    hquotas, ?_, hcost, fun y hy => hcost ▸ hleast y hy, ?_,
    fun i => ⟨_, hcenters i, hallotment.mainCenter_spec i⟩, fun hcount => ?_⟩
  · rw [hloads, h.loads_eq hopt, hquotas]
  · simp [hassignment]
  · have hone : ∀ i : Fin p.pointCount, p.supply i = 1 := by
      rw [hbalance] at hcount
      cases hcount
      refine fun i => supply_eq_one hsupplies _ ?_
      rw [h.supplies_eq_ofFn]
      simp
    obtain ⟨f, hshares, hmain⟩ := hallotment.exists_sharesOf hone
    rw [hshares] at hallotment hcost
    refine ⟨f, ?_, fun i j => congrFun (congrFun hshares i) j,
      (isAllotment_sharesOf_iff hone f).mp hallotment, hcost.trans (shareCost_sharesOf f),
      fun g hg => ?_⟩
    · refine List.ext_getElem (by simp [hassignment]) fun k hk hk' => ?_
      have hk'' : k < p.pointCount := by simpa using hk'
      have hcenter := hcenters ⟨k, hk''⟩
      rw [hmain, List.getElem?_eq_getElem hk] at hcenter
      simpa using hcenter
    · have hle := hleast _ ((isAllotment_sharesOf_iff hone g).mpr hg)
      rwa [shareCost_sharesOf, hshares, ← hcost] at hle

def crowdedPoints : Value :=
  .list [.list [.int 1, .int 0], .list [.int 1, .int 1], .list [.int 2, .int 0]]

def crowdedCenters : Value := .list [.list [.int 0, .int 0], .list [.int 5, .int 0]]

set_option maxRecDepth 20000 in
/-- One of the points has to go to the center that is far away. -/
theorem plan_optimal_crowded : ∃ p plan,
    ofValues crowdedPoints crowdedCenters .standard = .ok p ∧
      p.costs = [[1, 16], [2, 17], [4, 9]] ∧ p.quotas = [2, 1] ∧
      (p.solve .standard .null).result = .ok plan ∧ plan.totalCost = 12 ∧
      plan.assignment = [some 0, some 0, some 1] ∧ plan.loads = plan.quotas ∧
      ∀ g : Fin p.pointCount → Fin p.centerCount,
        (∀ j, (Finset.univ.filter fun i => g i = j).card = p.quota j) →
          12 ≤ ∑ i : Fin p.pointCount, p.cost i (g i) := by
  obtain ⟨p, plan, hposed, hcosts, hquotas, hplan, hcost, hassignment⟩ : ∃ p plan,
      ofValues crowdedPoints crowdedCenters .standard = .ok p ∧
        p.costs = [[1, 16], [2, 17], [4, 9]] ∧ p.quotas = [2, 1] ∧
        (p.solve .standard .null).result = .ok plan ∧ plan.totalCost = 12 ∧
        plan.assignment = [some 0, some 0, some 1] := ⟨_, _, rfl, rfl, rfl, rfl, rfl, rfl⟩
  have hoptions : Options.ofValue .null = .ok .standard := rfl
  obtain ⟨_, _, _, _, _, _, hloads, _, _, _, _, hcount⟩ := plan_optimal hposed hoptions hplan
  obtain ⟨_, _, _, _, _, hbest⟩ := hcount rfl
  rw [hcost] at hbest
  exact ⟨p, plan, hposed, hcosts, hquotas, hplan, hcost, hassignment, hloads, hbest⟩

end Circulation.Assignment.Problem
