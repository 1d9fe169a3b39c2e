import Circulation.Proofs.Assignment.Regions

/-!
Offsets of the costs. A unit may cost more for the point that it comes from and less for the center
that it goes to. As each supply is used up and each quota is filled, this changes what shares cost
by one amount, whichever shares they are. Main result: the plans of two such problems differ in cost
by this amount, and their assignments agree if there is only one best way to share.
-/

namespace Circulation.Assignment.Problem

variable {p p' : Problem} {r d : Nat → Int}

structure IsBest (p : Problem) (y : Fin p.pointCount → Fin p.centerCount → Int) : Prop where
  allots : p.IsAllotment y
  least : ∀ z, p.IsAllotment z → p.shareCost y ≤ p.shareCost z

section Unique

variable {f : Fin p.pointCount → Fin p.centerCount}

theorem cost_le_of_less {i : Fin p.pointCount}
    (hless : ∀ j : Fin p.centerCount, f i ≠ j → p.cost i (f i) < p.cost i j)
    (j : Fin p.centerCount) : p.cost i (f i) ≤ p.cost i j := by
  by_cases hj : f i = j
  · rw [hj]
  · exact (hless j hj).le

theorem IsAllotment.eq_wholeShares {y : Fin p.pointCount → Fin p.centerCount → Int}
    (hy : p.IsAllotment y) {i : Fin p.pointCount}
    (hless : ∀ j : Fin p.centerCount, f i ≠ j → p.cost i (f i) < p.cost i j)
    (hcost : ∑ j, y i j * p.cost i j = p.supply i * p.cost i (f i)) (j : Fin p.centerCount) :
    y i j = wholeShares f i j := by
  have hterm : ∀ k ∈ Finset.univ, y i k * p.cost i (f i) ≤ y i k * p.cost i k := fun k _ =>
    Int.mul_le_mul_of_nonneg_left (cost_le_of_less hless k) (hy.nonneg i k)
  rw [← hy.row i, Finset.sum_mul] at hcost
  have hterms := (Finset.sum_eq_sum_iff_of_le hterm).mp hcost.symm
  have hnone : ∀ k, f i ≠ k → y i k = 0 := by
    intro k hk
    by_contra hne
    exact (hless k hk).ne (Int.eq_of_mul_eq_mul_left hne (hterms k (Finset.mem_univ k)))
  simp only [wholeShares]
  split
  · rename_i heq
    subst heq
    rw [← hy.row i, Finset.sum_eq_single (f i)]
    · intro k _ hk
      exact hnone k hk.symm
    · simp
  · rename_i hne
    exact hnone j hne

theorem existsUnique_isBest (hloads : ∀ j, ∑ i, wholeShares f i j = p.quota j)
    (hless : ∀ (i : Fin p.pointCount) (j : Fin p.centerCount), f i ≠ j →
      p.cost i (f i) < p.cost i j) : ∃! y, p.IsBest y := by
  have hleast := fun i => cost_le_of_less (hless i)
  have hwhole := isAllotment_wholeShares hloads
  refine ⟨wholeShares f, ⟨hwhole, fun z hz => ?_⟩, fun y hy => ?_⟩
  · rw [shareCost_wholeShares]
    exact hz.le_shareCost hleast
  · have hcost := hy.least _ hwhole
    rw [shareCost_wholeShares] at hcost
    have hrows := (Finset.sum_eq_sum_iff_of_le fun i _ => hy.allots.row_le (hleast i)).mp
      (le_antisymm (hy.allots.le_shareCost hleast) hcost)
    exact funext fun i => funext fun j =>
      hy.allots.eq_wholeShares (hless i) (hrows i (Finset.mem_univ i)).symm j

end Unique

structure Matches (p p' : Problem) : Prop where
  pointCount_eq : p'.pointCount = p.pointCount
  centerCount_eq : p'.centerCount = p.centerCount
  supplies_eq : p'.supplies = p.supplies
  quotas_eq : p'.quotas = p.quotas

/-- The costs of the second problem are those of the first one with offsets `r` of the points and
offsets `d` of the centers. -/
structure Offsets (p p' : Problem) (r d : Nat → Int) : Prop extends p.Matches p' where
  cost_eq : ∀ i < p.pointCount, ∀ j < p.centerCount, p'.cost i j = p.cost i j + r i - d j

theorem sum_cast {m n : Nat} (h : m = n) (f : Fin n → Int) : ∑ i : Fin m, f (i.cast h) = ∑ i, f i :=
  (finCongr h).sum_comp f

namespace Matches

variable (h : p.Matches p')
include h

theorem symm : p'.Matches p :=
  ⟨h.pointCount_eq.symm, h.centerCount_eq.symm, h.supplies_eq.symm, h.quotas_eq.symm⟩

/-- Shares of the first problem as shares of the second one. -/
def recast (y : Fin p.pointCount → Fin p.centerCount → Int) (i : Fin p'.pointCount)
    (j : Fin p'.centerCount) : Int :=
  y (i.cast h.pointCount_eq) (j.cast h.centerCount_eq)

theorem isAllotment_recast {y : Fin p.pointCount → Fin p.centerCount → Int}
    (hy : p.IsAllotment y) : p'.IsAllotment (h.recast y) := by
  refine ⟨fun i j => hy.nonneg _ _, fun i => ?_, fun j => ?_⟩
  · rw [supply, h.supplies_eq]
    exact (sum_cast h.centerCount_eq _).trans (hy.row (i.cast h.pointCount_eq))
  · rw [quota, h.quotas_eq]
    exact (sum_cast h.pointCount_eq _).trans (hy.column (j.cast h.centerCount_eq))

end Matches

namespace Offsets

theorem symm (h : p.Offsets p' r d) : p'.Offsets p (-r) (-d) where
  toMatches := h.toMatches.symm
  cost_eq i hi j hj := by
    rw [h.pointCount_eq] at hi
    rw [h.centerCount_eq] at hj
    rw [h.cost_eq i hi j hj, Pi.neg_apply, Pi.neg_apply]
    omega

variable (h : p.Offsets p' r d) {y : Fin p.pointCount → Fin p.centerCount → Int}
include h

theorem shareCost_recast (hy : p.IsAllotment y) : p'.shareCost (h.recast y) =
    p.shareCost y + ∑ i : Fin p.pointCount, p.supply i * r i -
      ∑ j : Fin p.centerCount, p.quota j * d j := by
  have hpoints : ∑ i, ∑ j, y i j * r i = ∑ i : Fin p.pointCount, p.supply i * r i := by
    simp only [← Finset.sum_mul, hy.row]
  have hcenters : ∑ i, ∑ j, y i j * d j = ∑ j : Fin p.centerCount, p.quota j * d j := by
    rw [Finset.sum_comm]
    simp only [← Finset.sum_mul, hy.column]
  calc p'.shareCost (h.recast y) = ∑ i, ∑ j, y i j * (p.cost i j + r i - d j) := by
        rw [shareCost, ← sum_cast h.pointCount_eq]
        refine Finset.sum_congr rfl fun i _ => ?_
        rw [← sum_cast h.centerCount_eq]
        refine Finset.sum_congr rfl fun j _ => ?_
        have hcost := h.cost_eq i (i.cast h.pointCount_eq).isLt j (j.cast h.centerCount_eq).isLt
        rw [Int.cast_id, hcost]
        rfl
    _ = p.shareCost y + ∑ i, ∑ j, y i j * r i - ∑ i, ∑ j, y i j * d j := by
        simp only [mul_sub, mul_add, Finset.sum_sub_distrib, Finset.sum_add_distrib]
        rfl
    _ = _ := by rw [hpoints, hcenters]

theorem isBest_recast (hy : p.IsBest y) : p'.IsBest (h.recast y) := by
  refine ⟨h.isAllotment_recast hy.allots, fun z hz => ?_⟩
  have hback := h.toMatches.symm.isAllotment_recast hz
  have hle := hy.least _ hback
  have hcost : p'.shareCost z = _ := h.shareCost_recast hback
  rw [hcost, h.shareCost_recast hy.allots]
  omega

/-- Where one of two problems has one best way to share only, the other one has the same. -/
theorem recast_eq_of_unique {y' : Fin p'.pointCount → Fin p'.centerCount → Int} (hy : p.IsBest y)
    (hy' : p'.IsBest y') (hunique : (∃! z, p.IsBest z) ∨ ∃! z, p'.IsBest z) :
    h.recast y = y' := by
  rcases hunique with hunique | hunique
  · have hback := h.symm.isBest_recast hy'
    rw [hunique.unique hy hback]
    rfl
  · exact hunique.unique (h.isBest_recast hy) hy'

end Offsets

theorem WellPosed.isBest_unitsOf (h : p.WellPosed) {x : Fin p.arcs.length → Int} {sol : Solution}
    (hsol : sol.IsOptimum p.arcs x) : p.IsBest fun i j => p.unitsOf sol.flows.toArray i j :=
  ⟨(h.isAllotment_unitsOf hsol).1, (h.isAllotment_unitsOf hsol).2⟩

/-- Offsets are neutral under fixed quotas. If two problems have the same supplies and the same
quotas, and their costs differ by an offset for each point and an offset for each center, then the
costs of their plans differ by what these offsets make for all units, however the two are solved. If
one of them has only one best way to share, both come to the same assignment. -/
theorem plan_of_offsets {points centers choices maxIterations : Value} {terms : Terms}
    {points' centers' choices' maxIterations' : Value} {terms' : Terms}
    {options options' : Options} {plan plan' : Plan}
    (hposed : ofValues points centers terms = .ok p)
    (hposed' : ofValues points' centers' terms' = .ok p')
    (hoptions : Options.ofValue choices = .ok options)
    (hoptions' : Options.ofValue choices' = .ok options')
    (hsolve : (p.solve options maxIterations).result = .ok plan)
    (hsolve' : (p'.solve options' maxIterations').result = .ok plan')
    (hsupplies : p'.supplies = p.supplies) (hquotas : p'.quotas = p.quotas)
    (hcosts : ∀ i < p.pointCount, ∀ j < p.centerCount, p'.cost i j = p.cost i j + r i - d j) :
    plan'.totalCost = plan.totalCost + ∑ i : Fin p.pointCount, p.supply i * r i -
        ∑ j : Fin p.centerCount, p.quota j * d j ∧
      ((∃! y, p.IsBest y) ∨ (∃! y, p'.IsBest y) → plan'.assignment = plan.assignment) := by
  obtain ⟨h, -⟩ := ofValues_ok hposed
  obtain ⟨h', -⟩ := ofValues_ok hposed'
  have hpoints : p'.pointCount = p.pointCount := by
    rw [← h'.length_supplies, hsupplies, h.length_supplies]
  have hcenters : p'.centerCount = p.centerCount := by
    rw [← h'.length_quotas, hquotas, h.length_quotas]
  have hoffsets : p.Offsets p' r d := ⟨⟨hpoints, hcenters, hsupplies, hquotas⟩, hcosts⟩
  obtain ⟨sol, x, hread, hopt⟩ := h.solve_ok hoptions hsolve
  obtain ⟨sol', x', hread', hopt'⟩ := h'.solve_ok hoptions' hsolve'
  obtain ⟨-, hcost, hassignment, -⟩ := planOf_ok hread
  obtain ⟨-, hcost', hassignment', -⟩ := planOf_ok hread'
  have hbest := h.isBest_unitsOf hopt
  have hbest' := h'.isBest_unitsOf hopt'
  have hrecast := hoffsets.isBest_recast hbest
  refine ⟨?_, fun hunique => ?_⟩
  · rw [hcost, hcost', h.costOf_eq_shareCost, h'.costOf_eq_shareCost,
      ← hoffsets.shareCost_recast hbest.allots]
    exact le_antisymm (hbest'.least _ hrecast.allots) (hrecast.least _ hbest'.allots)
  · have hsame := hoffsets.recast_eq_of_unique hbest hbest' hunique
    rw [hassignment, hassignment', hpoints]
    refine List.map_congr_left fun i hi => congrArg mainCenter ?_
    simp only [rowFlows, hcenters]
    refine List.map_congr_left fun j hj => ?_
    rw [List.mem_range, ← hpoints] at hi
    rw [List.mem_range, ← hcenters] at hj
    exact (congrFun (congrFun hsame ⟨i, hi⟩) ⟨j, hj⟩).symm

def offsetCenters : Value :=
  .list [.list [.int 0, .int 0, .int 5], .list [.int 5, .int 0, .int 21]]

set_option maxRecDepth 20000 in
/-- The weights lower what a unit costs, and the first center takes all points as before. -/
theorem plan_of_offsets_near : ∃ (p p' : Problem) (plan plan' : Plan),
    ofValues crowdedPoints crowdedCenters nearTerms = .ok p ∧
      ofValues crowdedPoints offsetCenters nearTerms = .ok p' ∧
      p.costs = [[1, 16], [2, 17], [4, 9]] ∧ p'.costs = [[-4, -5], [-3, -4], [-1, -12]] ∧
      (p.solve .standard .null).result = .ok plan ∧
      (p'.solve Solver.checking .null).result = .ok plan' ∧
      plan.totalCost = 7 ∧ plan'.totalCost = 7 - 3 * 5 ∧
      (∃! y, p.IsBest y) ∧ plan'.assignment = plan.assignment := by
  obtain ⟨p, p', plan, plan', f, hposed, hposed', hcosts, hcosts', hsupplies, hquotas, hoffsets,
      hplan, hcost, hplan', hloads, hless, hpoints, hcenters⟩ :
      ∃ (p p' : Problem) (plan plan' : Plan) (f : Fin p.pointCount → Fin p.centerCount),
        ofValues crowdedPoints crowdedCenters nearTerms = .ok p ∧
        ofValues crowdedPoints offsetCenters nearTerms = .ok p' ∧
        p.costs = [[1, 16], [2, 17], [4, 9]] ∧ p'.costs = [[-4, -5], [-3, -4], [-1, -12]] ∧
        p'.supplies = p.supplies ∧ p'.quotas = p.quotas ∧
        (∀ i < p.pointCount, ∀ j < p.centerCount,
          p'.cost i j = p.cost i j + 0 - if j = 0 then 5 else 21) ∧
        (p.solve .standard .null).result = .ok plan ∧ plan.totalCost = 7 ∧
        (p'.solve Solver.checking .null).result = .ok plan' ∧
        (∀ j : Fin p.centerCount, ∑ i : Fin p.pointCount, wholeShares f i j = p.quota j) ∧
        (∀ (i : Fin p.pointCount) (j : Fin p.centerCount), f i ≠ j →
          p.cost i (f i) < p.cost i j) ∧
        (∑ i : Fin p.pointCount, p.supply i * (0 : Int)) = 0 ∧
        (∑ j : Fin p.centerCount, p.quota j * (if (j : Nat) = 0 then 5 else 21 : Int)) = 3 * 5 :=
    ⟨_, _, _, _, fun _ => ⟨0, by decide⟩, rfl, rfl, rfl, rfl, rfl, rfl, by decide, rfl, rfl, rfl,
      by decide, by decide, by decide, by decide⟩
  have hoptions : Options.ofValue .null = .ok .standard := rfl
  have hunique := existsUnique_isBest hloads hless
  obtain ⟨hshift, hsame⟩ := plan_of_offsets hposed hposed' hoptions Solver.ofValue_checking hplan
    hplan' hsupplies hquotas (r := fun _ => 0) (d := fun j => if j = 0 then 5 else 21) hoffsets
  rw [hcost, hpoints, hcenters] at hshift
  exact ⟨p, p', plan, plan', hposed, hposed', hcosts, hcosts', hplan, hplan', hcost, hshift,
    hunique, hsame (Or.inl hunique)⟩

end Circulation.Assignment.Problem
