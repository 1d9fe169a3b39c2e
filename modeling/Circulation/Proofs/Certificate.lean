import Circulation.Proofs.Optimality

/-!
The potentials that a solve reports, as a certificate of its optimum. At an arc with room for more
flow a unit is worth no more than it costs, at an arc that carries flow it is worth no less, and on
the tree the two agree. Main result: the cost is what the arcs of negative reduced cost take off
when they are full, so that no circulation can cost less.
-/

namespace Circulation

open Adjacency (Stored)

def Solution.potentialOf (sol : Solution) (node : Int) : Int :=
  Row.get sol.potentials.toArray node 0

namespace Solver

variable {s start : Solver} {options : Options} {nodeCount : Nat} {arcs : List Arc}
variable {count items choices maxIterations interval : Value} {sol : Solution}

theorem Run.potentialOf_solution (r : Run) (node : Int) :
    r.solution.potentialOf node = r.solver.tree.potentialOf node := by
  simp [Solution.potentialOf, Run.solution, Tree.potentialOf]

theorem Sound.equals_of_isRoot (h : s.Sound options nodeCount arcs) {root : Int}
    (hroot : s.tree.isRoot root = true) : options.root.equals root = true := by
  simp only [Tree.isRoot] at hroot
  rw [h.root_eq] at hroot
  cases hname : options.root <;> simpa [hname, Number.toValue, Value.number?] using hroot

namespace Done

variable (h : s.Done options nodeCount arcs)
include h

theorem reducedCostOf_potentialOf (k : Fin arcs.length) :
    reducedCostOf arcs s.tree.potentialOf k = s.network.reducedCost s.tree (2 * (k : Nat)) := by
  simpa using h.reducedCostOf_eq (R := Int) k

theorem totalCost_eq_sum_min : s.totalCost =
    ∑ k, ((arcs.get k).capacity : Int) * min 0 (reducedCostOf arcs s.tree.potentialOf k) := by
  rw [h.sound.totalCost_eq, ← h.sound.carries.costOf_flowOn]
  refine (h.sound.carries.isCirculation h.sound.circulates).costOf_eq_sum_min _ (fun k hpos => ?_)
    (fun k hneg => ?_)
  · rw [h.reducedCostOf_potentialOf] at hpos
    exact h.flowOn_eq_zero k hpos
  · rw [h.reducedCostOf_potentialOf] at hneg
    exact h.flowOn_eq_capacity k hneg

theorem reducedCostOf_nonneg (k : Fin arcs.length)
    (hroom : s.network.flowOn arcs k < (arcs.get k).capacity) :
    0 ≤ reducedCostOf arcs s.tree.potentialOf k := by
  rw [h.reducedCostOf_potentialOf]
  by_contra hneg
  have hfull := h.flowOn_eq_capacity k (by omega)
  omega

theorem reducedCostOf_nonpos (k : Fin arcs.length) (hflow : 0 < s.network.flowOn arcs k) :
    reducedCostOf arcs s.tree.potentialOf k ≤ 0 := by
  rw [h.reducedCostOf_potentialOf]
  by_contra hpos
  have hempty := h.flowOn_eq_zero k (by omega)
  omega

theorem reducedCostOf_eq_zero (k : Fin arcs.length)
    (htree : s.network.isTree (2 * (k : Nat)) = true) :
    reducedCostOf arcs s.tree.potentialOf k = 0 := by
  obtain ⟨root, -, hrooted⟩ := h.rooted
  have hlt := h.sound.carries.lt_edgeCount k
  rw [h.reducedCostOf_potentialOf]
  exact Network.reducedCost_eq_zero h.sound.wellFormed hrooted (Stored.forward hlt) htree

end Done

/-- The potentials that a solve reports certify its optimum, from whatever state it was started: the
root has potential zero, an arc with room has no negative reduced cost, an arc with flow no positive
one, and a tree arc none at all. The cost of the flow is what arcs of negative reduced cost take off
when they are full. -/
theorem certificate_of_solve (hoptions : Options.ofValue choices = .ok options)
    (hstart : ofValues count items options = .ok start) (hreach : start.Reachable s)
    (h : (s.solve maxIterations interval).result = .ok sol) :
    ∃ nodeCount arcs, Network.nodeCountOf count = .ok nodeCount ∧
      Arc.listOfValue items = .ok arcs ∧
      (s.solve maxIterations interval).solver.network.Carries arcs ∧
      sol.potentials.length = nodeCount ∧
      (∃ root : Nat, root < nodeCount ∧ options.root.equals root = true ∧
        sol.potentialOf root = 0) ∧
      ∃ x : Fin arcs.length → Int, sol.flows = List.ofFn x ∧
        (∀ k, x k < (arcs.get k).capacity → 0 ≤ reducedCostOf arcs sol.potentialOf k) ∧
        (∀ k, 0 < x k → reducedCostOf arcs sol.potentialOf k ≤ 0) ∧
        (∀ k : Fin arcs.length,
          (s.solve maxIterations interval).solver.network.isTree (2 * (k : Nat)) = true →
            reducedCostOf arcs sol.potentialOf k = 0) ∧
        sol.totalCost =
          ∑ k, ((arcs.get k).capacity : Int) * min 0 (reducedCostOf arcs sol.potentialOf k) := by
  obtain ⟨nodeCount, arcs, hcount, harcs, hfirst⟩ := ofValues_sound hoptions hstart
  obtain ⟨budget, hend, rfl, hstate⟩ := solve_ok h
  have hdone := (hfirst.reachable hreach).run_done budget hend
  have hpotentials : (s.run budget).solution.potentialOf = (s.run budget).solver.tree.potentialOf :=
    funext (s.run budget).potentialOf_solution
  obtain ⟨root, hname, hrooted⟩ := hdone.rooted
  rw [hstate, hpotentials]
  refine ⟨nodeCount, arcs, hcount, harcs, hdone.sound.carries, ?_,
    ⟨root, ?_, hdone.sound.equals_of_isRoot hname, hrooted.potentialOf_root⟩,
    (s.run budget).solver.network.flowOn arcs, flows_eq_ofFn hdone.sound,
    hdone.reducedCostOf_nonneg, hdone.reducedCostOf_nonpos, hdone.reducedCostOf_eq_zero,
    hdone.totalCost_eq_sum_min⟩
  · rw [← hdone.sound.nodeCount_eq, ← hdone.sound.sized.potential]
    exact Array.length_toList
  · rw [← hdone.sound.nodeCount_eq]
    exact hrooted.root_lt

set_option maxRecDepth 10000 in
theorem certificate_of_solve_triangle : ∃ start s : Solver, ∃ sol arcs,
    ofValues (.int 3) triangle checking = .ok start ∧ start.Reachable s ∧
      s.network.flows ≠ List.replicate 5 0 ∧ (s.solve .null (.int 100)).result = .ok sol ∧
      sol.flows = [3, 3, 2, 4, 1] ∧ sol.potentialOf 2 = 0 ∧ sol.totalCost = -27 ∧
      Arc.listOfValue triangle = .ok arcs ∧
      ∑ k, ((arcs.get k).capacity : Int) * min 0 (reducedCostOf arcs sol.potentialOf k) = -27 := by
  obtain ⟨start, s, sol, hstart, hreach, hmoved, hsol, hflows, hroot, hcost⟩ :
      ∃ start s : Solver, ∃ sol, ofValues (.int 3) triangle checking = .ok start ∧
        start.Reachable s ∧ s.network.flows ≠ List.replicate 5 0 ∧
        (s.solve .null (.int 100)).result = .ok sol ∧
        sol.flows = [3, 3, 2, 4, 1] ∧ sol.potentialOf 2 = 0 ∧ sol.totalCost = -27 :=
    ⟨_, _, _, rfl, .pivot (by decide : 6 < _) rfl (.find .start), by decide, rfl, rfl, rfl, rfl⟩
  obtain ⟨_, arcs, _, harcs, _, _, _, _, _, _, _, _, htotal⟩ :=
    certificate_of_solve ofValue_checking hstart hreach hsol
  exact ⟨start, s, sol, arcs, hstart, hreach, hmoved, hsol, hflows, hroot, hcost, harcs,
    htotal.symm.trans hcost⟩

end Solver

end Circulation
