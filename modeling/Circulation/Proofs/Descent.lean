import Circulation.Proofs.Effect
import Circulation.Proofs.Optimality
import Circulation.Proofs.Range
import Circulation.Proofs.Termination

/-!
How the total cost falls. A pivot of an arc that is found changes the cost by that arc's reduced
cost, which is negative, for each unit of flow that it moves. Main result: the cost never rises, and
at most as many pivots move flow as the cost falls by, so over the whole life of a solver at most as
many as all arcs cost when they are full.
-/

namespace Circulation

open Adjacency (Stored)

namespace Pivot

/-- The pivot does not raise the cost, and lowers it exactly if it moves flow. -/
structure Descends (p : Pivot) : Prop where
  delta_nonneg : 0 ≤ p.delta
  costChange_nonpos : p.costChange ≤ 0
  costChange_neg_iff : p.costChange < 0 ↔ 0 < p.delta

def moves (ps : List Pivot) : Nat := ps.countP fun p => !p.isDegenerate

theorem moves_add_countP (ps : List Pivot) :
    moves ps + ps.countP Pivot.isDegenerate = ps.length := by
  rw [List.length_eq_countP_add_countP Pivot.isDegenerate (l := ps), Nat.add_comm]
  simp [moves]

theorem moves_le {ps : List Pivot} (h : ∀ p ∈ ps, p.Descends) :
    (moves ps : Int) ≤ -intSum (ps.map Pivot.costChange) := by
  induction ps with
  | nil => exact Int.le_refl 0
  | cons p ps ih =>
    obtain ⟨hdelta, hchange, hiff⟩ := h p List.mem_cons_self
    have hrest := ih fun q hq => h q (List.mem_cons_of_mem p hq)
    simp only [moves] at hrest ⊢
    rw [List.map_cons, intSum_cons, List.countP_cons]
    by_cases hmoves : 0 < p.delta
    · have hless := hiff.mpr hmoves
      split <;> omega
    · have hdegenerate : p.isDegenerate = true := by
        simp only [isDegenerate, beq_iff_eq]
        omega
      rw [hdegenerate]
      simp only [Bool.not_true, Bool.false_eq_true, if_false]
      omega

end Pivot

namespace Solver

variable {s s' start : Solver} {options : Options} {nodeCount : Nat} {arcs : List Arc}

/-- The pivots of arcs that are found, one after another, and the solver after them. Between them
the solver may look for an arc and leave it at that. -/
inductive Trace : Solver → List Pivot → Solver → Prop where
  | stop (s : Solver) : Trace s [] s
  | look {s s' : Solver} {ps : List Pivot} (hrest : Trace s.find.2 ps s') : Trace s ps s'
  | turn {s looked after s' : Solver} {entering : Nat} {p : Pivot} {events : List Event}
      {ps : List Pivot} (hfind : s.find = (.ok (some entering), looked))
      (hpivot : looked.pivot entering = ⟨.ok p, after, events⟩) (hrest : Trace after ps s') :
      Trace s (p :: ps) s'

theorem Trace.of_find {looked : Solver} {result : Except Fault (Option Nat)}
    (hfind : s.find = (result, looked)) : s.Trace [] looked := by
  apply Trace.look
  rw [hfind]
  exact .stop _

namespace Sound

/-- A pivot of the arc that was found lowers the cost by what the flow that it moves saves. -/
theorem pivot_descends (h : s.Sound options nodeCount arcs) {looked after : Solver} {entering : Nat}
    {p : Pivot} {events : List Event} (hfind : s.find = (.ok (some entering), looked))
    (hpivot : looked.pivot entering = ⟨.ok p, after, events⟩) :
    p.Descends ∧ after.totalCost = s.totalCost + p.costChange := by
  obtain ⟨way, -, hentering, heffect⟩ := h.effect_of_find hfind hpivot
  obtain ⟨rfl, -, hselect⟩ := find_some hfind
  obtain ⟨hlt, heligible⟩ := Rule.isEligible_of_select hselect
  simp only [Network.isEligible, Bool.and_eq_true, decide_eq_true_eq] at heligible
  have hnegative := heligible.2
  rw [← hentering] at hnegative
  have hleaving : Stored s.refresh.2.network.arcCount p.leaving := by
    cases List.mem_cons.mp heffect.leaving_mem with
    | inl heq => exact ⟨by omega, by omega⟩
    | inr hmem => exact heffect.stored _ hmem
  have hdelta : 0 ≤ p.delta := by
    rw [heffect.delta_eq]
    exact h.refresh.circulates.capacity_nonneg _ hleaving
  refine ⟨⟨hdelta, ?_, ?_⟩, heffect.totalCost_eq⟩
  · rw [heffect.costChange_eq]
    exact Int.mul_nonpos_of_nonneg_of_nonpos hdelta (by omega)
  · rw [heffect.costChange_eq]
    constructor
    · intro hless
      by_contra hnone
      have hzero : p.delta = 0 := by omega
      rw [hzero, Int.zero_mul] at hless
      exact absurd hless (Int.lt_irrefl 0)
    · intro hpos
      exact Int.mul_neg_of_pos_of_neg hpos hnegative

theorem trace_descends (h : s.Sound options nodeCount arcs) {ps : List Pivot}
    (htrace : s.Trace ps s') : s'.Sound options nodeCount arcs ∧ (∀ p ∈ ps, p.Descends) ∧
      s'.totalCost = s.totalCost + intSum (ps.map Pivot.costChange) := by
  induction htrace with
  | stop s => exact ⟨h, nofun, (Int.add_zero _).symm⟩
  | look _ ih =>
    obtain ⟨hlast, hall, hcost⟩ := ih h.find
    refine ⟨hlast, hall, ?_⟩
    rw [find_solver] at hcost
    exact hcost
  | @turn s looked after s' entering p events ps hfind hpivot _ ih =>
    have hafter := h.pivot_found hfind
    rw [hpivot] at hafter
    obtain ⟨hlast, hall, hcost⟩ := ih hafter
    obtain ⟨hp, hstep⟩ := h.pivot_descends hfind hpivot
    refine ⟨hlast, fun q hq => ?_, ?_⟩
    · cases List.mem_cons.mp hq with
      | inl heq => exact heq ▸ hp
      | inr hmem => exact hall q hmem
    · rw [hcost, hstep, List.map_cons, intSum_cons]
      omega

theorem moves_le_of_trace (h : s.Sound options nodeCount arcs) {ps : List Pivot}
    (htrace : s.Trace ps s') : (Pivot.moves ps : Int) ≤ s.totalCost - s'.totalCost := by
  obtain ⟨-, hall, hcost⟩ := h.trace_descends htrace
  have hle := Pivot.moves_le hall
  omega

theorem trace_run (h : s.Sound options nodeCount arcs) (n : Nat) :
    s.Trace ((s.run n).ticks.map Tick.pivot) (s.run n).solver := by
  cases hlook : s.refresh.1 with
  | error fault =>
    rw [run_of_refresh hlook, ← find_solver]
    exact .look (.stop _)
  | ok _ =>
    apply Sound.run_induction (P := fun s _ r => s.Trace (r.ticks.map Tick.pivot) r.solver)
      ?_ ?_ ?_ h hlook
    · intro _ _ _ _ hfind
      exact .of_find hfind
    · intro _ _ _ _ hfind
      exact .of_find hfind
    · intro _ _ _ _ _ _ _ _ hfind hpivot ih
      exact .turn hfind hpivot ih

theorem trace_solve (h : s.Sound options nodeCount arcs) (maxIterations interval : Value) :
    ∃ ps, s.Trace ps (s.solve maxIterations interval).solver ∧
      (∀ sol, (s.solve maxIterations interval).result = .ok sol →
        sol.iterations = ps.length ∧ sol.degenerate = ps.countP Pivot.isDegenerate) ∧
      ∀ n cost, (s.solve maxIterations interval).result = .error (.iterationLimit n cost) →
        n = ps.length := by
  simp only [Solver.solve]
  cases hlimits : s.limits maxIterations interval with
  | error fault =>
    refine ⟨[], .stop s, fun sol hsol => ?_, fun n cost hcut => ?_⟩
    · cases hsol
    · cases hcut
      rcases category_of_limits hlimits with hcategory | hcategory | hcategory
      · cases hcategory
      · cases hcategory
      · cases hcategory
  | ok limits =>
    refine ⟨_, h.trace_run _, fun sol hsol => ?_, fun n cost hcut => ?_⟩
    · obtain ⟨-, rfl⟩ := Run.solution_of_result hsol
      rw [List.length_map, List.countP_map]
      exact ⟨rfl, rfl⟩
    · rw [List.length_map]
      exact (h.limit_of_run hcut).2

end Sound

/-- The cost never rises: a pivot of an arc that is found lowers it exactly if it moves flow, and
otherwise leaves it as it is. So it is never above zero, and as it is an integer, at most as many
pivots move flow as it falls by, in a solve, whether that returns or is cut off, and over the whole
life of a solver, in which it cannot fall by more than all arcs cost when they are full. -/
theorem descent_of_trace {count items choices : Value}
    (hoptions : Options.ofValue choices = .ok options)
    (hstart : ofValues count items options = .ok start) {ps : List Pivot}
    (htrace : start.Trace ps s) :
    ∃ arcs, Arc.listOfValue items = .ok arcs ∧
      (∀ p ∈ ps, p.costChange ≤ 0 ∧ (p.costChange < 0 ↔ 0 < p.delta)) ∧
      s.totalCost = intSum (ps.map Pivot.costChange) ∧ s.totalCost ≤ 0 ∧
      Pivot.moves ps ≤ NumericRange.costBound arcs ∧
      (∀ ps' s', s.Trace ps' s' → s'.totalCost ≤ s.totalCost ∧
        (Pivot.moves ps' : Int) ≤ s.totalCost - s'.totalCost) ∧
      ∀ maxIterations interval,
        let report := s.solve maxIterations interval
        ∃ ps', s.Trace ps' report.solver ∧
          (∀ sol, report.result = .ok sol → sol.iterations = ps'.length ∧
            sol.degenerate = ps'.countP Pivot.isDegenerate ∧
            (sol.iterations : Int) - sol.degenerate ≤ s.totalCost - report.solver.totalCost) ∧
          ∀ n cost, report.result = .error (.iterationLimit n cost) → n = ps'.length ∧
            (n : Int) - ps'.countP Pivot.isDegenerate ≤
              s.totalCost - report.solver.totalCost := by
  obtain ⟨_, arcs, _, harcs, hfirst⟩ := ofValues_sound hoptions hstart
  obtain ⟨hsound, hall, hcost⟩ := hfirst.trace_descends htrace
  have hmoves := Pivot.moves_le hall
  have hzero : start.totalCost = 0 := by
    obtain ⟨_, _, _, rfl⟩ := ofValues_eq_ok_iff.mp hstart
    rfl
  rw [hzero, Int.zero_add] at hcost
  have hbound := hsound.circulates.natAbs_gain_cost_le hsound.carries
  rw [← hsound.totalCost_eq] at hbound
  have hlater : ∀ ps' s', s.Trace ps' s' → (Pivot.moves ps' : Int) ≤ s.totalCost - s'.totalCost :=
    fun ps' s' hrest => hsound.moves_le_of_trace hrest
  refine ⟨arcs, harcs, fun p hp => ⟨(hall p hp).costChange_nonpos, (hall p hp).costChange_neg_iff⟩,
    hcost, by omega, by omega, fun ps' s' hrest => ?_, fun maxIterations interval => ?_⟩
  · have hfall := hlater ps' s' hrest
    exact ⟨by omega, hfall⟩
  · obtain ⟨ps', hrest, hsolved, hcut⟩ := hsound.trace_solve maxIterations interval
    have hfall := hlater ps' _ hrest
    have hsplit := Pivot.moves_add_countP ps'
    refine ⟨ps', hrest, fun sol hsol => ?_, fun n cost hlimit => ?_⟩
    · obtain ⟨hiterations, hdegenerate⟩ := hsolved sol hsol
      exact ⟨hiterations, hdegenerate, by omega⟩
    · have hiterations := hcut n cost hlimit
      exact ⟨hiterations, by omega⟩

set_option maxRecDepth 10000 in
theorem descent_of_trace_blocked : ∃ start s : Solver, ∃ sol arcs,
    ofValues (.int 3) blocked switching = .ok start ∧
      start.Trace [⟨8, 0, 0, 0⟩, ⟨6, 3, 0, 0⟩] s ∧ Arc.listOfValue blocked = .ok arcs ∧
      s.totalCost = 0 ∧ (s.solve .null (.int 100)).result = .ok sol ∧ sol.totalCost = -44 ∧
      ∃ ps, s.Trace ps (s.solve .null (.int 100)).solver ∧ sol.iterations = ps.length ∧
        (sol.iterations : Int) - sol.degenerate ≤
          s.totalCost - (s.solve .null (.int 100)).solver.totalCost := by
  have hoptions : Options.ofValue (.record [("degenerate_streak_limit", .int 1)]) =
      .ok switching := rfl
  obtain ⟨start, s, sol, hstart, htrace, hsolve, hcost⟩ : ∃ start s : Solver, ∃ sol,
      ofValues (.int 3) blocked switching = .ok start ∧
        start.Trace [⟨8, 0, 0, 0⟩, ⟨6, 3, 0, 0⟩] s ∧
        (s.solve .null (.int 100)).result = .ok sol ∧ sol.totalCost = -44 :=
    ⟨_, _, _, rfl, .turn rfl rfl (.turn rfl rfl (.stop _)), rfl, rfl⟩
  obtain ⟨arcs, harcs, -, htotal, -, -, -, hsolved⟩ := descent_of_trace hoptions hstart htrace
  obtain ⟨ps, hrest, hsol, -⟩ := hsolved .null (.int 100)
  obtain ⟨hiterations, -, hfall⟩ := hsol sol hsolve
  exact ⟨start, s, sol, arcs, hstart, htrace, harcs, htotal, hsolve, hcost, ps, hrest, hiterations,
    hfall⟩

end Solver

end Circulation
