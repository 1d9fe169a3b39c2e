import Mathlib.Algebra.Order.Ring.Unbundled.Rat
import Circulation.Proofs.Invariants

/-!
What a solve that returns has found. Its run has ended because no arc could improve the flow as seen
from the root, and then the potentials of the tree show that no circulation costs less.
-/

namespace Circulation

open Adjacency (Stored)

/-- What is reported is a circulation, its cost, and no circulation costs less. -/
structure Solution.IsOptimum (sol : Solution) (arcs : List Arc) (x : Fin arcs.length → Int) :
    Prop where
  flows_eq : sol.flows = List.ofFn x
  circulates : IsCirculation arcs x
  totalCost_eq : sol.totalCost = costOf arcs x
  least : ∀ y : Fin arcs.length → Int, IsCirculation arcs y → costOf arcs x ≤ costOf arcs y

theorem Network.Carries.reducedCostOf_eq {R : Type} [CommRing R] {net : Network} {arcs : List Arc}
    (h : net.Carries arcs) (t : Tree) (k : Fin arcs.length) :
    reducedCostOf arcs (fun v => (t.potentialOf v : R)) k =
      ((net.reducedCost t (2 * (k : Nat)) : Int) : R) := by
  simp only [reducedCostOf, Network.reducedCost]
  rw [h.tail_eq k k.isLt, h.head_eq k k.isLt, h.cost_eq k k.isLt]
  push_cast
  rfl

namespace Solver

variable {s : Solver} {options : Options} {nodeCount : Nat} {arcs : List Arc}

theorem find_none {s' : Solver} (h : s.find = (.ok none, s')) : s' = s.refresh.2 ∧
    s.refresh.1 = .ok () ∧ s'.activeRule.select s'.network s'.tree = none := by
  simp only [find] at h
  generalize s.refresh = outcome at *
  obtain ⟨result, looked⟩ := outcome
  cases result with
  | error fault => cases h
  | ok _ =>
    simp only [Prod.mk.injEq, Except.ok.injEq] at h
    obtain ⟨hselect, rfl⟩ := h
    exact ⟨rfl, rfl, hselect⟩

/-- A state in which no arc can improve the flow, as seen from the root of the whole tree. -/
structure Done (s : Solver) (options : Options) (nodeCount : Nat) (arcs : List Arc) : Prop where
  sound : s.Sound options nodeCount arcs
  rooted : ∃ root : Nat, s.tree.isRoot root = true ∧ s.tree.Rooted s.network root
  none_eligible : ∀ arc < s.network.arcCount, s.network.isEligible s.tree (arc : Nat) = false

theorem Sound.done_of_find (h : s.Sound options nodeCount arcs) {s' : Solver}
    (hfind : s.find = (.ok none, s')) : s'.Done options nodeCount arcs := by
  obtain ⟨rfl, hok, hselect⟩ := find_none hfind
  obtain ⟨root, hname, hrooted⟩ := h.refresh_rooted hok
  refine ⟨h.refresh, ⟨root, ?_, hrooted⟩, (Rule.select_eq_none_iff _ _ _).mp hselect⟩
  rw [hname, decide_eq_true_eq]

theorem Sound.run_done (h : s.Sound options nodeCount arcs) (budget : Nat)
    (hend : (s.run budget).ending = .optimal) :
    (s.run budget).solver.Done options nodeCount arcs := by
  have hok : s.refresh.1 = .ok () := refresh_of_run (by rw [hend]; exact nofun)
  revert hend
  apply Sound.run_induction (P := fun _ _ r => r.ending = .optimal →
    r.solver.Done options nodeCount arcs) ?_ ?_ ?_ h hok
  · intro s looked _ h hfind _
    exact h.done_of_find hfind
  · intro _ _ _ _ _ hend
    cases hend
  · intro _ _ _ _ _ _ _ _ _ _ ih hend
    exact ih hend

namespace Done

theorem capacity_eq_zero (h : s.Done options nodeCount arcs) {arc : Int}
    (harc : Stored s.network.arcCount arc) (hneg : s.network.reducedCost s.tree arc < 0) :
    s.network.capacity arc = 0 := by
  obtain ⟨root, -, hrooted⟩ := h.rooted
  have hoff : s.network.isTree arc = false := by
    by_contra htree
    rw [Network.reducedCost_eq_zero h.sound.wellFormed hrooted harc (by simpa using htree)] at hneg
    exact absurd hneg (Int.lt_irrefl 0)
  have heligible := h.none_eligible arc.toNat (by have hlt := harc.2; have hpos := harc.1; omega)
  rw [Int.toNat_of_nonneg harc.1] at heligible
  have hnonneg := h.sound.circulates.capacity_nonneg arc harc
  simp only [Network.isEligible, hoff, Bool.not_false, Bool.true_and, Bool.and_eq_false_iff,
    decide_eq_false_iff_not] at heligible
  omega

theorem reducedCostOf_eq {R : Type} [CommRing R] (h : s.Done options nodeCount arcs)
    (k : Fin arcs.length) : reducedCostOf arcs (fun v => (s.tree.potentialOf v : R)) k =
      ((s.network.reducedCost s.tree (2 * (k : Nat)) : Int) : R) :=
  h.sound.carries.reducedCostOf_eq s.tree k

theorem flowOn_eq_zero (h : s.Done options nodeCount arcs) (k : Fin arcs.length)
    (hpos : 0 < s.network.reducedCost s.tree (2 * (k : Nat))) : s.network.flowOn arcs k = 0 := by
  have hlt := h.sound.carries.lt_edgeCount k
  have hback := h.capacity_eq_zero (Stored.forward hlt).twin (by
    rw [Network.reducedCost_twin]
    omega)
  rwa [twin_two_mul, ← h.sound.circulates.flow_eq hlt] at hback

theorem flowOn_eq_capacity (h : s.Done options nodeCount arcs) (k : Fin arcs.length)
    (hneg : s.network.reducedCost s.tree (2 * (k : Nat)) < 0) :
    s.network.flowOn arcs k = (arcs.get k).capacity := by
  have hlt := h.sound.carries.lt_edgeCount k
  have htotal := h.sound.carries.capacity_add_flow h.sound.circulates k
  rwa [h.capacity_eq_zero (Stored.forward hlt) hneg, Int.zero_add] at htotal

/-- The flow of a solver that is done costs no more than any circulation. -/
theorem costOf_le {R : Type} [CommRing R] [LinearOrder R] [IsStrictOrderedRing R]
    (h : s.Done options nodeCount arcs) {y : Fin arcs.length → R} (hy : IsCirculation arcs y) :
    (s.totalCost : R) ≤ costOf arcs y := by
  have hcarries := h.sound.carries
  have hflow := (hcarries.isCirculation h.sound.circulates).intCast (R := R)
  rw [h.sound.totalCost_eq, ← hcarries.costOf_flowOn, ← costOf_intCast]
  refine hflow.costOf_le hy (fun v => (s.tree.potentialOf v : R)) (fun k hpos => ?_)
    (fun k hneg => ?_)
  · rw [h.reducedCostOf_eq, Int.cast_pos] at hpos
    rw [h.flowOn_eq_zero k hpos, Int.cast_zero]
  · rw [h.reducedCostOf_eq, Int.cast_lt_zero] at hneg
    rw [h.flowOn_eq_capacity k hneg, Int.cast_natCast]

end Done

theorem flows_eq_ofFn (h : s.Sound options nodeCount arcs) :
    s.network.flows = List.ofFn (s.network.flowOn arcs) := by
  refine List.ext_getElem ?_ fun k hk hk' => ?_
  · simp [Network.flows, h.carries.edgeCount_eq]
  · simp [Network.flows, Network.flowOn]

theorem residuals_eq_ofFn (h : s.Sound options nodeCount arcs) :
    s.network.residuals =
      List.ofFn fun k : Fin arcs.length =>
        ((arcs.get k).capacity : Int) - s.network.flowOn arcs k := by
  refine List.ext_getElem ?_ fun k hk hk' => ?_
  · simp [Network.residuals, h.carries.edgeCount_eq]
  · have hlt : k < arcs.length := by simpa using hk'
    have htotal := h.carries.capacity_add_flow h.circulates ⟨k, hlt⟩
    simp only [Network.residuals, List.getElem_map, List.getElem_range, List.getElem_ofFn,
      Network.flowOn]
    simp only at htotal
    omega

theorem Run.solution_of_result {r : Run} {sol : Solution} (h : r.result = .ok sol) :
    r.ending = .optimal ∧ sol = r.solution := by
  simp only [Run.result] at h
  split at h
  · rename_i hend
    exact ⟨hend, (Except.ok.inj h).symm⟩
  · cases h
  · cases h

theorem solve_ok {maxIterations interval : Value} {sol : Solution}
    (h : (s.solve maxIterations interval).result = .ok sol) :
    ∃ budget, (s.run budget).ending = .optimal ∧ sol = (s.run budget).solution ∧
      (s.solve maxIterations interval).solver = (s.run budget).solver := by
  simp only [solve] at h ⊢
  cases hlimits : s.limits maxIterations interval with
  | error fault =>
    rw [hlimits] at h
    cases h
  | ok limits =>
    rw [hlimits] at h
    obtain ⟨hend, hsol⟩ := Run.solution_of_result h
    exact ⟨pivotsWithin limits.1, hend, hsol, rfl⟩

theorem Sound.isOptimum_flowOn (h : s.Sound options nodeCount arcs)
    {maxIterations interval : Value} {sol : Solution}
    (hsolve : (s.solve maxIterations interval).result = .ok sol) :
    sol.IsOptimum arcs ((s.solve maxIterations interval).solver.network.flowOn arcs) := by
  obtain ⟨budget, hend, rfl, hsolver⟩ := solve_ok hsolve
  have hdone := h.run_done budget hend
  have hcost : (s.run budget).solver.totalCost =
      costOf arcs ((s.run budget).solver.network.flowOn arcs) := by
    rw [hdone.sound.carries.costOf_flowOn]
    exact hdone.sound.totalCost_eq
  rw [hsolver]
  refine ⟨flows_eq_ofFn hdone.sound, hdone.sound.carries.isCirculation hdone.sound.circulates,
    hcost, fun y hy => ?_⟩
  rw [← hcost]
  exact hdone.costOf_le hy

/-- A solve that returns reports an optimum. -/
theorem Sound.isOptimum_of_solve (h : s.Sound options nodeCount arcs)
    {maxIterations interval : Value} {sol : Solution}
    (hsolve : (s.solve maxIterations interval).result = .ok sol) :
    ∃ x, sol.IsOptimum arcs x :=
  ⟨_, h.isOptimum_flowOn hsolve⟩

end Solver

/-- A solve that returns reports a circulation, its cost and what it leaves of the capacities. No
circulation costs less, be its values integers or from a larger ordered ring such as the rational
numbers. -/
theorem solveFlow_optimal {count items choices maxIterations interval : Value} {options : Options}
    {sol : Solution} (hoptions : Options.ofValue choices = .ok options)
    (h : (solveFlow count items options maxIterations interval).result = .ok sol) :
    ∃ arcs, Arc.listOfValue items = .ok arcs ∧ ∃ x : Fin arcs.length → Int,
      sol.flows = List.ofFn x ∧ IsCirculation arcs x ∧ sol.totalCost = costOf arcs x ∧
      (sol.residuals = List.ofFn fun k : Fin arcs.length => ((arcs.get k).capacity : Int) - x k) ∧
      ∀ (R : Type) [CommRing R] [LinearOrder R] [IsStrictOrderedRing R] (y : Fin arcs.length → R),
        IsCirculation arcs y → (sol.totalCost : R) ≤ costOf arcs y := by
  obtain ⟨start, hstart, hsolve⟩ : ∃ start, Solver.ofValues count items options = .ok start ∧
      (start.solve maxIterations interval).result = .ok sol := by
    simp only [solveFlow] at h
    cases hnet : Network.ofValues count items with
    | error fault =>
      rw [hnet] at h
      cases h
    | ok net =>
      rw [hnet] at h
      cases hcreate : Solver.create options net with
      | error fault =>
        simp only [hcreate] at h
        cases h
      | ok start =>
        simp only [hcreate] at h
        refine ⟨start, ?_, h⟩
        simp only [Solver.ofValues]
        rw [hnet]
        exact hcreate
  obtain ⟨_, arcs, _, harcs, hsound⟩ := Solver.ofValues_sound hoptions hstart
  obtain ⟨budget, hend, hsol⟩ : ∃ budget, (start.run budget).ending = .optimal ∧
      sol = (start.run budget).solution := by
    simp only [Solver.solve] at hsolve
    cases hlimits : start.limits maxIterations interval with
    | error fault =>
      rw [hlimits] at hsolve
      cases hsolve
    | ok limits =>
      rw [hlimits] at hsolve
      refine ⟨Solver.pivotsWithin limits.1, ?_⟩
      simp only [Solver.Run.result] at hsolve
      split at hsolve
      · rename_i hend
        exact ⟨hend, (Except.ok.inj hsolve).symm⟩
      · cases hsolve
      · cases hsolve
  have hdone := hsound.run_done budget hend
  subst hsol
  refine ⟨arcs, harcs, (start.run budget).solver.network.flowOn arcs,
    Solver.flows_eq_ofFn hdone.sound, hdone.sound.carries.isCirculation hdone.sound.circulates, ?_,
    Solver.residuals_eq_ofFn hdone.sound, fun R _ _ _ y hy => hdone.costOf_le hy⟩
  rw [hdone.sound.carries.costOf_flowOn]
  exact hdone.sound.totalCost_eq

set_option maxRecDepth 10000 in
theorem solveFlow_optimal_triangle : ∃ sol : Solution,
    (solveFlow (.int 3) Solver.triangle Solver.checking .null (.int 100)).result = .ok sol ∧
      sol.flows = [3, 3, 2, 4, 1] ∧ sol.totalCost = -27 ∧
      ∃ arcs, Arc.listOfValue Solver.triangle = .ok arcs ∧
        ∀ y : Fin arcs.length → ℚ, IsCirculation arcs y → -27 ≤ costOf arcs y := by
  obtain ⟨sol, hsol, hflows, hcost⟩ : ∃ sol : Solution,
      (solveFlow (.int 3) Solver.triangle Solver.checking .null (.int 100)).result = .ok sol ∧
        sol.flows = [3, 3, 2, 4, 1] ∧ sol.totalCost = -27 := ⟨_, rfl, rfl, rfl⟩
  obtain ⟨arcs, harcs, x, _, _, _, _, hleast⟩ := solveFlow_optimal Solver.ofValue_checking hsol
  refine ⟨sol, hsol, hflows, hcost, arcs, harcs, fun y hy => ?_⟩
  have hle := hleast ℚ y hy
  rw [hcost] at hle
  exact_mod_cast hle

end Circulation
