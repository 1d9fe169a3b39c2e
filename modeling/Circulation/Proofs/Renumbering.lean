import Mathlib.Data.Fintype.Fin
import Mathlib.Data.Set.Function
import Circulation.Proofs.Optimality

/-!
One problem that is presented in two ways, with the arcs in another order and other numbers for the
nodes. A circulation of one presentation is a circulation of the other one and costs the same there.
Main result: solves of both find the same cost, whatever their options and their budgets are.
-/

namespace Circulation

open Adjacency (Stored)

theorem exists_equiv_of_perm {α : Type} [DecidableEq α] {xs ys : List α} (h : xs.Perm ys) :
    ∃ place : Fin xs.length ≃ Fin ys.length, ∀ k, ys.get (place k) = xs.get k := by
  have hcount : ∀ (zs : List α) (a : α), Fintype.card { k // zs.get k = a } = zs.count a := by
    intro zs a
    rw [Fintype.card_subtype]
    exact Fin.card_filter_univ_eq_vector_get_eq_count a ⟨zs, rfl⟩
  have hplaces : ∀ a, Nonempty ({ k // xs.get k = a } ≃ { k // ys.get k = a }) := by
    intro a
    rw [← Fintype.card_eq, hcount, hcount, h.count_eq]
  exact ⟨Equiv.ofFiberEquiv fun a => (hplaces a).some, fun k => Equiv.ofFiberEquiv_map _ k⟩

def Arc.renumber (number : Int → Int) (a : Arc) : Arc :=
  { a with tail := number a.tail, head := number a.head }

/-- The second list has the arcs of the first one, each at a place of its own, with new numbers for
their ends. -/
structure Renumbers (number : Int → Int) (arcs arcs' : List Arc)
    (place : Fin arcs.length ≃ Fin arcs'.length) : Prop where
  get_place : ∀ k, arcs'.get (place k) = (arcs.get k).renumber number

namespace Renumbers

variable {number : Int → Int} {arcs arcs' : List Arc} {place : Fin arcs.length ≃ Fin arcs'.length}

theorem of_perm (h : arcs'.Perm (arcs.map (Arc.renumber number))) :
    ∃ place, Renumbers number arcs arcs' place := by
  obtain ⟨moved, hmoved⟩ := exists_equiv_of_perm h.symm
  refine ⟨(finCongr (List.length_map _).symm).trans moved, ⟨fun k => ?_⟩⟩
  have hget := hmoved (finCongr (List.length_map _).symm k)
  simpa using hget

theorem symm (h : Renumbers number arcs arcs' place) {former : Int → Int}
    (hformer : ∀ a ∈ arcs, former (number a.tail) = a.tail ∧ former (number a.head) = a.head) :
    Renumbers former arcs' arcs place.symm := by
  refine ⟨fun k => ?_⟩
  have hget := h.get_place (place.symm k)
  rw [Equiv.apply_symm_apply] at hget
  obtain ⟨htail, hhead⟩ := hformer _ (List.get_mem arcs (place.symm k))
  rw [hget]
  simp only [Arc.renumber]
  rw [htail, hhead]

theorem sum_eq (h : Renumbers number arcs arcs' place) (x : Fin arcs.length → Int)
    (value : Arc → Int) : ∑ k, x (place.symm k) * value (arcs'.get k) =
      ∑ k, x k * value ((arcs.get k).renumber number) := by
  rw [← place.sum_comp]
  refine Finset.sum_congr rfl fun k _ => ?_
  rw [Equiv.symm_apply_apply, h.get_place]

theorem costOf_eq (h : Renumbers number arcs arcs' place) (x : Fin arcs.length → Int) :
    costOf arcs' (fun k => x (place.symm k)) = costOf arcs x :=
  h.sum_eq x Arc.cost

theorem isCirculation (h : Renumbers number arcs arcs' place) {x : Fin arcs.length → Int}
    (hx : IsCirculation arcs x) : IsCirculation arcs' (fun k => x (place.symm k)) := by
  have hget : ∀ k, arcs'.get k = (arcs.get (place.symm k)).renumber number := by
    intro k
    rw [← h.get_place, Equiv.apply_symm_apply]
  refine ⟨fun k => hx.nonneg _, fun k => ?_, fun node => ?_⟩
  · rw [hget]
    exact hx.within (place.symm k)
  · have hin : ∑ k, x (place.symm k) * (if (arcs'.get k).head = node then 1 else 0) =
        ∑ k, x k * (if number (arcs.get k).head = node then 1 else 0) :=
      h.sum_eq x fun a => if a.head = node then 1 else 0
    have hout : ∑ k, x (place.symm k) * (if (arcs'.get k).tail = node then 1 else 0) =
        ∑ k, x k * (if number (arcs.get k).tail = node then 1 else 0) :=
      h.sum_eq x fun a => if a.tail = node then 1 else 0
    have hzero := sum_difference_of_balanced hx.balanced fun v => if number v = node then 1 else 0
    simp only [mul_sub, Finset.sum_sub_distrib] at hzero
    simp only [mul_ite, mul_one, mul_zero] at hin hout hzero
    simp only [inflow, outflow]
    omega

end Renumbers

/-- A circulation of the one presentation costs no less than an optimum of the other one. -/
theorem Solution.IsOptimum.totalCost_le {arcs arcs' : List Arc} {sol sol' : Solution}
    {x : Fin arcs.length → Int} {x' : Fin arcs'.length → Int} {number : Int → Int}
    {place : Fin arcs.length ≃ Fin arcs'.length} (h : sol.IsOptimum arcs x)
    (h' : sol'.IsOptimum arcs' x') (hrenumbers : Renumbers number arcs arcs' place) :
    sol'.totalCost ≤ sol.totalCost := by
  calc sol'.totalCost = costOf arcs' x' := h'.totalCost_eq
    _ ≤ costOf arcs' (fun k => x (place.symm k)) :=
        h'.least _ (hrenumbers.isCirculation h.circulates)
    _ = costOf arcs x := hrenumbers.costOf_eq x
    _ = sol.totalCost := h.totalCost_eq.symm

namespace Solver

variable {s : Solver} {options : Options} {nodeCount : Nat} {arcs : List Arc}

theorem Sound.ends_mem (h : s.Sound options nodeCount arcs) {a : Arc} (ha : a ∈ arcs) :
    a.tail ∈ Set.Ico 0 (nodeCount : Int) ∧ a.head ∈ Set.Ico 0 (nodeCount : Int) := by
  obtain ⟨k, hk, rfl⟩ := List.getElem_of_mem ha
  have hedge : k < s.network.edgeCount := by rwa [h.carries.edgeCount_eq]
  have htail := h.wellFormed.tail_lt _ (Stored.forward hedge)
  have hhead := h.wellFormed.head_lt (Stored.forward hedge)
  have hcount := h.nodeCount_eq
  rw [← h.carries.tail_eq k hk, ← h.carries.head_eq k hk, Set.mem_Ico, Set.mem_Ico]
  omega

end Solver

theorem exists_start_of_solveFlow {count items maxIterations interval : Value} {options : Options}
    {sol : Solution} (h : (solveFlow count items options maxIterations interval).result = .ok sol) :
    ∃ start, Solver.ofValues count items options = .ok start ∧
      (start.solve maxIterations interval).result = .ok sol := by
  rw [Solver.solveFlow_result] at h
  exact bind_eq_ok_iff.mp h

/-- What an optimum costs does not depend on how the problem is presented. If the arcs of a second
problem are those of a first one in any order, with other numbers for the nodes, and solves of both
return, the two have found the same cost, whatever their options and their limits are. -/
theorem solveFlow_renumbered {count items choices maxIterations interval : Value}
    {count' items' choices' maxIterations' interval' : Value} {options options' : Options}
    {sol sol' : Solution} {nodeCount : Nat} {arcs arcs' : List Arc} {number : Int → Int}
    (hoptions : Options.ofValue choices = .ok options)
    (hoptions' : Options.ofValue choices' = .ok options')
    (hcount : Network.nodeCountOf count = .ok nodeCount)
    (harcs : Arc.listOfValue items = .ok arcs) (harcs' : Arc.listOfValue items' = .ok arcs')
    (hnumber : (Set.Ico 0 (nodeCount : Int)).InjOn number)
    (hperm : arcs'.Perm (arcs.map (Arc.renumber number)))
    (h : (solveFlow count items options maxIterations interval).result = .ok sol)
    (h' : (solveFlow count' items' options' maxIterations' interval').result = .ok sol') :
    sol'.totalCost = sol.totalCost := by
  obtain ⟨start, hstart, hsolve⟩ := exists_start_of_solveFlow h
  obtain ⟨start', hstart', hsolve'⟩ := exists_start_of_solveFlow h'
  obtain ⟨_, _, hnodes, hlist, hsound⟩ := Solver.ofValues_sound hoptions hstart
  obtain ⟨_, _, _, hlist', hsound'⟩ := Solver.ofValues_sound hoptions' hstart'
  cases hcount.symm.trans hnodes
  cases harcs.symm.trans hlist
  cases harcs'.symm.trans hlist'
  obtain ⟨x, hopt⟩ := hsound.isOptimum_of_solve hsolve
  obtain ⟨x', hopt'⟩ := hsound'.isOptimum_of_solve hsolve'
  obtain ⟨place, hrenumbers⟩ := Renumbers.of_perm hperm
  have hback := hrenumbers.symm fun a ha =>
    ⟨hnumber.leftInvOn_invFunOn (hsound.ends_mem ha).1,
      hnumber.leftInvOn_invFunOn (hsound.ends_mem ha).2⟩
  exact (hopt.totalCost_le hopt' hrenumbers).antisymm (hopt'.totalCost_le hopt hback)

def turnedTriangle : Value :=
  .list [.list [.int 0, .int 2, .int 1, .int (-12)], .list [.int 1, .int 1, .int 4, .int (-1)],
    .list [.int 0, .int 2, .int 5, .int (-10)], .list [.int 1, .int 0, .int 3, .int 1],
    .list [.int 2, .int 1, .int 5, .int 2]]

set_option maxRecDepth 10000 in
theorem solveFlow_renumbered_triangle : ∃ sol sol' : Solution,
    (solveFlow (.int 3) Solver.triangle Solver.checking .null (.int 100)).result = .ok sol ∧
      (solveFlow (.int 3) turnedTriangle Options.standard (.int 50) (.int 1)).result = .ok sol' ∧
      sol.flows = [3, 3, 2, 4, 1] ∧ sol'.flows = [1, 4, 2, 3, 3] ∧
      sol'.totalCost = sol.totalCost := by
  obtain ⟨sol, hsol, hflows⟩ : ∃ sol : Solution,
      (solveFlow (.int 3) Solver.triangle Solver.checking .null (.int 100)).result = .ok sol ∧
        sol.flows = [3, 3, 2, 4, 1] := ⟨_, rfl, rfl⟩
  obtain ⟨sol', hsol', hflows'⟩ : ∃ sol' : Solution,
      (solveFlow (.int 3) turnedTriangle Options.standard (.int 50) (.int 1)).result = .ok sol' ∧
        sol'.flows = [1, 4, 2, 3, 3] := ⟨_, rfl, rfl⟩
  obtain ⟨arcs, arcs', harcs, harcs', hperm⟩ : ∃ arcs arcs' : List Arc,
      Arc.listOfValue Solver.triangle = .ok arcs ∧ Arc.listOfValue turnedTriangle = .ok arcs' ∧
        arcs'.Perm (arcs.map (Arc.renumber fun v => 2 - v)) :=
    ⟨_, _, rfl, rfl, by decide⟩
  have hoptions : Options.ofValue .null = .ok Options.standard := rfl
  have hcount : Network.nodeCountOf (.int 3) = .ok 3 := rfl
  have hnumber : (Set.Ico 0 ((3 : Nat) : Int)).InjOn fun v => 2 - v := fun u _ v _ heq => by
    simp only at heq
    omega
  exact ⟨sol, sol', hsol, hsol', hflows, hflows', solveFlow_renumbered Solver.ofValue_checking
    hoptions hcount harcs harcs' hnumber hperm hsol hsol'⟩

end Circulation
