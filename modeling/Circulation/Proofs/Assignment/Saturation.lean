import Circulation.Proofs.Assignment.Reading
import Circulation.Proofs.Connecting
import Circulation.Proofs.Requests

/-!
Solving an assignment problem. Its arcs connect all nodes, so the network can be built unless its
numbers are too large, and every solve that comes to an optimum has used up the supply. Main result:
a problem that could be posed is never found to be inconsistent.
-/

namespace Circulation.Assignment.Problem

variable {p : Problem}

section Network

variable (h : p.WellPosed)
include h

/-- Each node is connected to the source: points and the sink by an arc, and centers by way of the
first point. -/
theorem WellPosed.connected_source (s : Node p.pointCount p.centerCount) :
    ArcsConnect p.arcs (p.nodeOf .source) (p.nodeOf s) := by
  have hstep : ∀ l : Link p.pointCount p.centerCount,
      ArcsConnect p.arcs (p.nodeOf l.tail) (p.nodeOf l.head) := fun l =>
    ArcsConnect.of_mem (h.arcOf_mem l) (p.tail_arcOf l) (p.head_arcOf l)
  cases s with
  | source => exact Relation.EqvGen.refl _
  | point i => exact hstep (.supply i)
  | center j =>
    exact (hstep (.supply ⟨0, h.pointCount_pos⟩)).trans (hstep (.share ⟨0, h.pointCount_pos⟩ j))
  | sink => exact (hstep .back).symm

theorem WellPosed.connected {u v : Nat} (hu : u < p.nodeCount) (hv : v < p.nodeCount) :
    ArcsConnect p.arcs u v := by
  obtain ⟨s, rfl⟩ := p.exists_nodeOf_eq hu
  obtain ⟨t, rfl⟩ := p.exists_nodeOf_eq hv
  exact (h.connected_source s).symm.trans (h.connected_source t)

theorem WellPosed.category_of_network {fault : Fault} (hfault : p.network = .error fault) :
    fault.category = .overflow ∨ fault.category = .tooLarge ∨ fault.category = .outOfMemory ∨
      fault.category = .badValue :=
  Network.category_of_ofArcs (Nat.succ_pos _) (fun _ ha => h.endsIn ha)
    (fun _ hu _ hv => h.connected hu hv) hfault

end Network

section Solve

variable {options : Options} {choices : Value}

/-- What a solve of a problem comes to: an optimum that the solver leaves and from which a plan is
read, or a fault that does not concern the solver itself. -/
theorem WellPosed.solve_spec (h : p.WellPosed) (hoptions : Options.ofValue choices = .ok options)
    (maxIterations : Value) :
    (∃ (plan : Plan) (sol : Solution) (s : Solver),
      (p.solve options maxIterations).result = .ok plan ∧ p.planOf sol = .ok plan ∧
      s.Sound options p.nodeCount p.arcs ∧ sol.IsOptimum p.arcs (s.network.flowOn p.arcs)) ∨
    ∃ fault, (p.solve options maxIterations).result = .error fault ∧
      fault.category ≠ .internal := by
  simp only [solve]
  cases hnet : p.network with
  | error fault =>
    refine Or.inr ⟨fault, rfl, ?_⟩
    rcases h.category_of_network hnet with hcategory | hcategory | hcategory | hcategory <;>
      simp [hcategory]
  | ok net =>
    obtain ⟨hbuilt, hnodes⟩ := Network.ofArcs_ok hnet
    simp only [Solver.create]
    by_cases hbeyond : options.root.isAtLeast net.nodeCount = true
    · rw [if_pos hbeyond]
      exact Or.inr ⟨_, rfl, Fault.category_raised_ne (by simp [Fault.category]) (by decide)
        (by decide)⟩
    · rw [if_neg hbeyond]
      have hsound : (Solver.start options net).Sound options p.nodeCount p.arcs :=
        Solver.start_sound hbuilt hnodes (Options.root_of_ofValue hoptions) (by simpa using hbeyond)
      dsimp only
      cases hsolve : ((Solver.start options net).solve maxIterations
          (.int Solver.defaultInterval)).result with
      | error fault =>
        refine Or.inr ⟨fault, rfl, ?_⟩
        rcases hsound.category_of_failed_solve hsolve with hcategory | hcategory | hcategory |
          hcategory <;> simp [hcategory]
      | ok sol =>
        have hopt := hsound.isOptimum_flowOn hsolve
        obtain ⟨plan, hplan⟩ := h.exists_planOf hopt
        refine Or.inl ⟨plan, sol, _, ?_, hplan, hsound.solve _ _, hopt⟩
        simp only [hplan]

theorem WellPosed.exists_solver (h : p.WellPosed) (hoptions : Options.ofValue choices = .ok options)
    {maxIterations : Value} {plan : Plan}
    (hsolve : (p.solve options maxIterations).result = .ok plan) :
    ∃ (sol : Solution) (s : Solver), p.planOf sol = .ok plan ∧
      s.Sound options p.nodeCount p.arcs ∧ sol.IsOptimum p.arcs (s.network.flowOn p.arcs) := by
  rcases h.solve_spec hoptions maxIterations with
    ⟨plan', sol, s, hresult, hplan, hsound, hopt⟩ | ⟨fault, hresult, -⟩
  · rw [hresult] at hsolve
    cases hsolve
    exact ⟨sol, s, hplan, hsound, hopt⟩
  · rw [hresult] at hsolve
    cases hsolve

theorem WellPosed.solve_ok (h : p.WellPosed) (hoptions : Options.ofValue choices = .ok options)
    {maxIterations : Value} {plan : Plan}
    (hsolve : (p.solve options maxIterations).result = .ok plan) :
    ∃ sol x, p.planOf sol = .ok plan ∧ sol.IsOptimum p.arcs x := by
  obtain ⟨sol, s, hplan, -, hopt⟩ := h.exists_solver hoptions hsolve
  exact ⟨sol, _, hplan, hopt⟩

/-- Every optimum of a problem that could be posed uses up the supply. A solve is therefore never
found to be inconsistent: an optimum fills the way back, whether its values are integers or not, and
the cost that is read is what it costs and what the way back pays. The network is the one that is
built from the arcs as data, and it is refused neither for its arcs nor for being disconnected. -/
theorem optimum_saturated {points centers : Value} {terms : Terms}
    (hposed : ofValues points centers terms = .ok p)
    (hoptions : Options.ofValue choices = .ok options) (maxIterations : Value) :
    (∀ fault, (p.solve options maxIterations).result = .error fault →
      fault.category ≠ .internal) ∧
    (∀ plan, (p.solve options maxIterations).result = .ok plan → ∃ sol, plan.solution = some sol ∧
      sol.flows.toArray.getD p.returnArc 0 = p.totalSupply ∧
      plan.totalCost = sol.totalCost + p.returnCost * p.totalSupply) ∧
    (∀ (R : Type) [CommRing R] [LinearOrder R] [IsStrictOrderedRing R]
      (x : Fin p.arcs.length → R), IsCirculation p.arcs x →
      (∀ y, IsCirculation p.arcs y →
        Circulation.costOf p.arcs x ≤ Circulation.costOf p.arcs y) →
      ∃ hback : p.returnArc < p.arcs.length, x ⟨p.returnArc, hback⟩ = p.totalSupply) ∧
    (∀ x : Fin p.arcs.length → Int, IsCirculation p.arcs x →
      (∀ y, IsCirculation p.arcs y →
        Circulation.costOf p.arcs x ≤ Circulation.costOf p.arcs y) →
      p.costOf (List.ofFn x).toArray =
        Circulation.costOf p.arcs x + p.returnCost * p.totalSupply) ∧
    Network.ofValues (.int p.nodeCount) (.list (p.arcs.map Arc.toValue)) = p.network ∧
    ∀ fault, p.network = .error fault → fault.category ≠ .network ∧
      fault.category ≠ .endpoint ∧ fault.category ≠ .disconnected := by
  obtain ⟨h, -⟩ := ofValues_ok hposed
  refine ⟨fun fault hfault => ?_, fun plan hplan => ?_, fun R _ _ _ x hx hleast => ?_,
    fun x hx hleast => ?_, Network.ofValues_toValue (Nat.succ_pos _) p.arcs, fun fault hfault => ?_⟩
  · rcases h.solve_spec hoptions maxIterations with ⟨_, _, _, hresult, -⟩ | ⟨_, hresult, hcategory⟩
    · rw [hresult] at hfault
      cases hfault
    · rw [hresult] at hfault
      cases hfault
      exact hcategory
  · obtain ⟨sol, x, hread, hopt⟩ := h.solve_ok hoptions hplan
    obtain ⟨hsolution, hcost, -⟩ := planOf_ok hread
    obtain ⟨hback, htotal⟩ := h.read_of_isOptimum hopt
    exact ⟨sol, hsolution, hback, hcost.trans htotal⟩
  · have hplace : (h.place .back : Nat) = p.returnArc := h.val_place .back
    have hlt : p.returnArc < p.arcs.length := by
      rw [← hplace]
      exact (h.place .back).isLt
    refine ⟨hlt, ?_⟩
    rw [← h.saturated hx hleast]
    exact congrArg x (Fin.ext hplace.symm)
  · rw [h.costOf_ofFn, h.saturated hx hleast]
  · rcases h.category_of_network hfault with hcategory | hcategory | hcategory | hcategory <;>
      simp [hcategory]

def heavyPoints : Value :=
  .list [.list [.int 0, .int 0, .int 2], .list [.int 3, .int 0, .int 1],
    .list [.int 1, .int 1, .int 3]]

def heavyCenters : Value :=
  .list [.list [.int 1, .int 0, .int 10], .list [.int 0, .int 2, .int 7]]

/-- The weights count, and the second center takes one unit. -/
def heavyTerms : Terms := ⟨.text "weight", 1.0, false, .list [.int 5, .int 1]⟩

set_option maxRecDepth 20000 in
/-- The last point is split: two units go to the first center, one to the second. -/
theorem optimum_saturated_heavy : ∃ p plan sol,
    ofValues heavyPoints heavyCenters heavyTerms = .ok p ∧ p.totalSupply = 6 ∧
      p.costs = [[-9, -3], [-6, 6], [-9, -5]] ∧
      (p.solve .standard .null).result = .ok plan ∧ plan.totalCost = -47 ∧
      plan.solution = some sol ∧ sol.flows.toArray.getD p.returnArc 0 = 6 ∧
      sol.totalCost + p.returnCost * 6 = -47 := by
  obtain ⟨p, plan, hposed, hsupply, hcosts, hplan, hcost⟩ : ∃ p plan,
      ofValues heavyPoints heavyCenters heavyTerms = .ok p ∧ p.totalSupply = 6 ∧
        p.costs = [[-9, -3], [-6, 6], [-9, -5]] ∧
        (p.solve .standard .null).result = .ok plan ∧ plan.totalCost = -47 :=
    ⟨_, _, rfl, rfl, rfl, rfl, rfl⟩
  have hoptions : Options.ofValue .null = .ok .standard := rfl
  obtain ⟨-, hread, -⟩ := optimum_saturated hposed hoptions .null
  obtain ⟨sol, hsolution, hback, htotal⟩ := hread plan hplan
  rw [hsupply] at hback htotal
  exact ⟨p, plan, sol, hposed, hsupply, hcosts, hplan, hcost, hsolution, hback,
    htotal.symm.trans hcost⟩

end Solve

end Circulation.Assignment.Problem
