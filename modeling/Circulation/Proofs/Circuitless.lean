import Circulation.Proofs.Switching

/-!
Networks in which no flow can go around. A flow that arrives at a node leaves it again, so where no
directed cycle of arcs with capacity runs there is no flow at all. Main result: in such a network
every pivot of an arc that is found moves nothing and changes the tree, and where turns come to an
end a solve returns without flow.
-/

namespace Circulation

open Adjacency (Stored)

def Leads (arcs : List Arc) (v w : Int) : Prop :=
  ∃ a ∈ arcs, 0 < a.capacity ∧ a.tail = v ∧ a.head = w

/-- The arcs that have capacity contain no directed cycle. -/
def Circuitless (arcs : List Arc) : Prop := ∀ v, ¬ Relation.TransGen (Leads arcs) v v

theorem circuitless_of_rank {arcs : List Arc} (rank : Int → Int)
    (h : ∀ a ∈ arcs, 0 < a.capacity → rank a.tail < rank a.head) : Circuitless arcs := by
  have hrise : ∀ {v w}, Relation.TransGen (Leads arcs) v w → rank v < rank w := by
    intro v w hpath
    induction hpath with
    | single hstep =>
      obtain ⟨a, ha, hroom, rfl, rfl⟩ := hstep
      exact h a ha hroom
    | tail _ hstep ih =>
      obtain ⟨a, ha, hroom, rfl, rfl⟩ := hstep
      exact ih.trans (h a ha hroom)
  exact fun v hcycle => absurd (hrise hcycle) (Int.lt_irrefl _)

namespace IsCirculation

variable {arcs : List Arc} {x : Fin arcs.length → Int}

theorem exists_pos_of_outflow_pos (h : IsCirculation arcs x) {node : Int}
    (hpos : 0 < outflow arcs x node) : ∃ k, (arcs.get k).tail = node ∧ 0 < x k := by
  obtain ⟨k, -, hk⟩ := Finset.exists_ne_zero_of_sum_ne_zero hpos.ne'
  rw [ne_eq, ite_eq_right_iff, Classical.not_imp] at hk
  exact ⟨k, hk.1, lt_of_le_of_ne (h.nonneg k) (Ne.symm hk.2)⟩

theorem outflow_head_pos (h : IsCirculation arcs x) {k : Fin arcs.length} (hk : 0 < x k) :
    0 < outflow arcs x (arcs.get k).head := by
  rw [← h.balanced]
  refine Finset.sum_pos' (fun l _ => ?_) ⟨k, Finset.mem_univ k, by rwa [if_pos rfl]⟩
  split
  · exact h.nonneg l
  · exact Int.le_refl 0

theorem leads_of_pos (h : IsCirculation arcs x) {k : Fin arcs.length} (hk : 0 < x k) :
    Leads arcs (arcs.get k).tail (arcs.get k).head := by
  have hwithin : x k ≤ ((arcs.get k).capacity : Int) := h.within k
  exact ⟨arcs.get k, List.get_mem arcs k, by omega, rfl, rfl⟩

/-- Where no cycle runs nothing flows: of the nodes that something leaves, finitely many as they
are, one would lead to no other one of them. -/
theorem eq_zero_of_circuitless (h : IsCirculation arcs x) (hnone : Circuitless arcs)
    (k : Fin arcs.length) : x k = 0 := by
  by_contra hk
  let busy : Set Int := {v | 0 < outflow arcs x v}
  have hfinite : busy.Finite := by
    refine (Set.finite_range fun k : Fin arcs.length => (arcs.get k).tail).subset fun v hv => ?_
    obtain ⟨l, hl, -⟩ := h.exists_pos_of_outflow_pos hv
    exact ⟨l, hl⟩
  have : Finite busy := hfinite
  let follows : busy → busy → Prop := fun v w => Relation.TransGen (Leads arcs) (w : Int) (v : Int)
  have : IsTrans busy follows := ⟨fun _ _ _ huv hvw => hvw.trans huv⟩
  have : Std.Irrefl follows := ⟨fun v => hnone v⟩
  have hfirst : (arcs.get k).head ∈ busy :=
    h.outflow_head_pos (lt_of_le_of_ne (h.nonneg k) (Ne.symm hk))
  obtain ⟨⟨v, hv⟩, -, hlast⟩ := (Finite.wellFounded_of_trans_of_irrefl follows).has_min Set.univ
    ⟨⟨_, hfirst⟩, trivial⟩
  obtain ⟨l, rfl, hl⟩ := h.exists_pos_of_outflow_pos hv
  exact hlast ⟨_, h.outflow_head_pos hl⟩ trivial (.single (h.leads_of_pos hl))

end IsCirculation

/-- The pivot moves nothing, costs nothing and changes the tree. -/
structure Pivot.Idle (p : Pivot) : Prop where
  isDegenerate : p.isDegenerate = true
  costChange_eq : p.costChange = 0
  treeChanged : p.treeChanged = true

namespace Solver

variable {start s s' : Solver} {options : Options} {nodeCount : Nat} {arcs : List Arc}

structure Still (s : Solver) : Prop where
  flow_eq : ∀ flow ∈ s.network.flows, flow = 0
  totalCost_eq : s.totalCost = 0

namespace Sound

theorem still (h : s.Sound options nodeCount arcs) (hnone : Circuitless arcs) : s.Still := by
  have hzero := (h.carries.isCirculation h.circulates).eq_zero_of_circuitless hnone
  refine ⟨fun flow hflow => ?_, ?_⟩
  · obtain ⟨k, hk, rfl⟩ := List.mem_map.mp hflow
    rw [List.mem_range, h.carries.edgeCount_eq] at hk
    exact hzero ⟨k, hk⟩
  · rw [h.totalCost_eq, ← h.carries.costOf_flowOn]
    exact Finset.sum_eq_zero fun k _ => by rw [hzero k, Int.zero_mul]

/-- A pivot that could move flow would lower the cost. -/
theorem idle_of_find (h : s.Sound options nodeCount arcs) (hnone : Circuitless arcs)
    {looked after : Solver} {entering : Nat} {p : Pivot} {events : List Event}
    (hfind : s.find = (.ok (some entering), looked))
    (hpivot : looked.pivot entering = ⟨.ok p, after, events⟩) :
    p.Idle ∧ after.network.treeSet ≠ s.network.treeSet := by
  obtain ⟨hdescends, hcost⟩ := h.pivot_descends hfind hpivot
  have hafter := h.pivot_found hfind
  rw [hpivot] at hafter
  rw [(h.still hnone).totalCost_eq, (hafter.still hnone).totalCost_eq, Int.zero_add] at hcost
  have hdelta : p.delta = 0 := by
    have hnonneg := hdescends.delta_nonneg
    have hiff := hdescends.costChange_neg_iff
    omega
  obtain ⟨way, -, hentering, heffect⟩ := h.effect_of_find hfind hpivot
  obtain ⟨rfl, -, hselect⟩ := find_some hfind
  obtain ⟨hlt, heligible⟩ := Rule.isEligible_of_select hselect
  simp only [Network.isEligible, Bool.and_eq_true, Bool.not_eq_true', decide_eq_true_eq]
    at heligible
  obtain ⟨⟨hoff, hroom⟩, -⟩ := heligible
  -- The entering arc has capacity left, so it is not the arc that takes nothing more.
  have hne : p.leaving ≠ p.entering := by
    intro heq
    have hfull := heffect.delta_eq
    rw [heq, hentering, hdelta] at hfull
    omega
  refine ⟨⟨by simp [Pivot.isDegenerate, hdelta], hcost.symm, by simpa [Pivot.treeChanged]⟩, ?_⟩
  rw [heffect.treeSet_eq, if_neg hne]
  intro hsame
  have hin : pairOf entering ∈ s.network.treeSet := by
    rw [← hsame, hentering]
    exact Set.mem_insert _ _
  have hon := (h.wellFormed.mem_treeSet ⟨by omega, Int.ofNat_lt.mpr hlt⟩).mp hin
  exact absurd (hon.symm.trans hoff) (by decide)

theorem idle_of_trace (h : s.Sound options nodeCount arcs) (hnone : Circuitless arcs)
    {ps : List Pivot} (htrace : s.Trace ps s') : s'.Still ∧ ∀ p ∈ ps, p.Idle := by
  refine ⟨(h.trace_descends htrace).1.still hnone, ?_⟩
  induction htrace with
  | stop s => exact nofun
  | look _ ih => exact ih h.find
  | turn hfind hpivot _ ih =>
    have hafter := h.pivot_found hfind
    rw [hpivot] at hafter
    exact List.forall_mem_cons.mpr ⟨(h.idle_of_find hnone hfind hpivot).1, ih hafter⟩

theorem solve_still (h : s.Sound options nodeCount arcs) (hnone : Circuitless arcs)
    {maxIterations interval : Value} {sol : Solution}
    (hsolve : (s.solve maxIterations interval).result = .ok sol) :
    sol.totalCost = 0 ∧ (∀ flow ∈ sol.flows, flow = 0) ∧ sol.degenerate = sol.iterations := by
  obtain ⟨ps, htrace, hcounts, -⟩ := h.trace_solve maxIterations interval
  obtain ⟨hstill, hidle⟩ := h.idle_of_trace hnone htrace
  obtain ⟨budget, -, rfl, hsolver⟩ := solve_ok hsolve
  rw [hsolver] at hstill
  obtain ⟨hiterations, hdegenerate⟩ := hcounts _ hsolve
  refine ⟨hstill.totalCost_eq, hstill.flow_eq, ?_⟩
  rw [hiterations, hdegenerate, List.countP_eq_length]
  exact fun p hp => (hidle p hp).isDegenerate

end Sound

/-- Where the arcs that have capacity contain no directed cycle there is nothing to solve. In every
state nothing flows and nothing is paid. Every pivot of an arc that is found, by whatever rule and
from whatever root, moves nothing and changes the tree, be it made by itself, as one of many, or by
a solve. And by the first-index rule, or if the rule may change, a solve with a large enough budget
returns an optimum without flow, all of whose pivots moved nothing. The choices are whole: this
leaves out a truth value or a number with a fraction as the root, and a limit with a fraction, all
of which can be read. -/
theorem still_of_circuitless {count items choices : Value}
    (hoptions : Options.ofValue choices = .ok options)
    (hstart : ofValues count items options = .ok start) (harcs : Arc.listOfValue items = .ok arcs)
    (hnone : Circuitless arcs) (hreach : start.Reachable s) :
    s.Still ∧
      (∀ looked p after events, ∀ entering : Nat, s.find = (.ok (some entering), looked) →
        looked.pivot entering = ⟨.ok p, after, events⟩ →
          p.Idle ∧ after.network.treeSet ≠ s.network.treeSet) ∧
      (∀ ps s', s.Trace ps s' → s'.Still ∧ ∀ p ∈ ps, p.Idle) ∧
      (∀ maxIterations interval,
        s.Trace (s.solvePivots maxIterations interval) (s.solve maxIterations interval).solver) ∧
      (options.Whole → options.rule = .bland ∨ options.antiCycling = true →
        ∃ enough : Nat, 0 < enough ∧ ∀ budget : Nat, enough ≤ budget → ∀ every : Int, 0 < every →
          ∃ sol, (s.solve (.int budget) (.int every)).result = .ok sol ∧
            sol.status = "optimal" ∧ sol.totalCost = 0 ∧ (∀ flow ∈ sol.flows, flow = 0) ∧
            sol.degenerate = sol.iterations) := by
  obtain ⟨_, arcs', _, harcs', hfirst⟩ := ofValues_sound hoptions hstart
  cases harcs.symm.trans harcs'
  have hsound := hfirst.reachable hreach
  refine ⟨hsound.still hnone, fun _ _ _ _ _ hfind hpivot => hsound.idle_of_find hnone hfind hpivot,
    fun _ _ htrace => hsound.idle_of_trace hnone htrace, fun maxIterations interval => ?_,
    fun hwhole hrule => ?_⟩
  · have hcourse := hsound.course_trace (Course.start.solve maxIterations interval)
    rwa [List.nil_append] at hcourse
  · obtain ⟨-, enough, hpos, hsolve⟩ := solve_terminates hoptions hwhole hrule hstart hreach
    refine ⟨enough, hpos, fun budget hbudget every hevery => ?_⟩
    obtain ⟨sol, hsol, hstatus⟩ := hsolve budget hbudget every hevery
    exact ⟨sol, hsol, hstatus, hsound.solve_still hnone hsol⟩

def oneWay : Value :=
  .list [.list [.int 0, .int 1, .int 5, .int (-2)], .list [.int 1, .int 2, .int 3, .int (-1)],
    .list [.int 0, .int 2, .int 4, .int (-7)], .list [.int 2, .int 0, .int 0, .int (-9)]]

set_option maxRecDepth 10000 in
theorem still_of_circuitless_oneWay : ∃ start looked after : Solver, ∃ events, ∃ sol : Solution,
    ofValues (.int 3) oneWay switching = .ok start ∧
      start.find = (.ok (some 4), looked) ∧
      looked.pivot (4 : Nat) = ⟨.ok ⟨4, 3, 0, 0⟩, after, events⟩ ∧
      Pivot.Idle ⟨4, 3, 0, 0⟩ ∧ after.network.treeSet ≠ start.network.treeSet ∧
      (∃ budget : Nat, (start.solve (.int budget) (.int 1)).result = .ok sol) ∧
      sol.status = "optimal" ∧ (∀ flow ∈ sol.flows, flow = 0) ∧
      sol.degenerate = sol.iterations := by
  have hoptions : Options.ofValue (.record [("degenerate_streak_limit", .int 1)]) =
      .ok switching := rfl
  have hwhole : switching.Whole := ⟨⟨0, rfl⟩, fun limit hlimit => ⟨1, by cases hlimit; rfl⟩⟩
  obtain ⟨start, looked, after, events, arcs, hstart, hfind, hpivot, harcs, hrise⟩ :
      ∃ (start looked after : Solver) (events : List Event) (arcs : List Arc),
        ofValues (.int 3) oneWay switching = .ok start ∧ start.find = (.ok (some 4), looked) ∧
        looked.pivot (4 : Nat) = ⟨.ok ⟨4, 3, 0, 0⟩, after, events⟩ ∧
        Arc.listOfValue oneWay = .ok arcs ∧ ∀ a ∈ arcs, 0 < a.capacity → a.tail < a.head :=
    ⟨_, _, _, _, _, rfl, rfl, rfl, rfl, by decide⟩
  obtain ⟨-, hidle, -, -, hsolve⟩ :=
    still_of_circuitless hoptions hstart harcs (circuitless_of_rank id hrise) .start
  obtain ⟨hp, htree⟩ := hidle _ _ _ _ _ hfind hpivot
  obtain ⟨enough, -, henough⟩ := hsolve hwhole (Or.inr rfl)
  obtain ⟨sol, hsol, hstatus, -, hflows, hdegenerate⟩ :=
    henough enough (Nat.le_refl _) 1 Int.one_pos
  exact ⟨start, looked, after, events, sol, hstart, hfind, hpivot, hp, htree, ⟨enough, hsol⟩,
    hstatus, hflows, hdegenerate⟩

end Solver

end Circulation
