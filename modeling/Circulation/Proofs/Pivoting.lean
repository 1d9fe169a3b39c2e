import Circulation.Proofs.Exchanging
import Circulation.Proofs.Refresh
import Circulation.Proofs.Seeding
import Circulation.Solver.Run

/-!
What the operations of a solver do to it. Looking at the tree changes nothing else, a pivot that is
refused changes nothing at all, and a pivot that is not refused is one step of the network. Main
result: from a sound solver every operation leads to a sound one.
-/

namespace Circulation

theorem Monitor.streakLimit_record (m : Monitor) (totalCost : Number) (degenerate : Bool) :
    (m.record totalCost degenerate).streakLimit = m.streakLimit := by
  cases degenerate <;> rfl

namespace Solver

open Adjacency (Stored)

/-- What holds between two operations on a solver for the given problem. -/
structure Sound (s : Solver) (options : Options) (nodeCount : Nat) (arcs : List Arc) : Prop where
  options_eq : s.options = options
  nodeCount_eq : s.network.nodeCount = nodeCount
  carries : s.network.Carries arcs
  wellFormed : s.network.WellFormed
  circulates : s.network.Circulates
  spanning : IsSpanningTree s.network.nodeCount s.network.ends s.network.treeSet
  atBounds : s.network.AtBounds
  totalCost_eq : s.totalCost = s.network.gain s.network.cost
  totals_eq : s.initialTotals = s.network.pairTotals
  sized : s.tree.Sized s.network.nodeCount
  root_eq : s.tree.root = options.root.toValue
  rootIn : s.tree.RootIn s.network.nodeCount
  limit_eq : s.monitor.streakLimit = options.streakLimit.getD (.int (max 1 nodeCount))
  useBland_of_rule : options.rule = .bland → s.useBland = true

variable {s : Solver} {options : Options} {nodeCount : Nat} {arcs : List Arc}

namespace Sound

theorem withTree (h : s.Sound options nodeCount arcs) {t : Tree}
    (hsized : t.Sized s.network.nodeCount) (hroot : t.root = s.tree.root) :
    ({ s with tree := t } : Solver).Sound options nodeCount arcs where
  options_eq := h.options_eq
  nodeCount_eq := h.nodeCount_eq
  carries := h.carries
  wellFormed := h.wellFormed
  circulates := h.circulates
  spanning := h.spanning
  atBounds := h.atBounds
  totalCost_eq := h.totalCost_eq
  totals_eq := h.totals_eq
  sized := hsized
  root_eq := hroot.trans h.root_eq
  rootIn root hname := h.rootIn root (by rwa [← hroot])
  limit_eq := h.limit_eq
  useBland_of_rule := h.useBland_of_rule

theorem refresh_linked (h : s.Sound options nodeCount arcs) :
    s.refresh.2.tree.Linked s.network :=
  (Tree.refresh_linked h.wellFormed h.sized h.rootIn).1

theorem root_refresh (h : s.Sound options nodeCount arcs) :
    s.refresh.2.tree.root = s.tree.root :=
  (Tree.refresh_linked h.wellFormed h.sized h.rootIn).2

theorem refresh (h : s.Sound options nodeCount arcs) : s.refresh.2.Sound options nodeCount arcs :=
  h.withTree h.refresh_linked.sized h.root_refresh

theorem nodeCount_refresh (h : s.Sound options nodeCount arcs) :
    s.refresh.2.tree.nodeCount = s.tree.nodeCount :=
  h.refresh.sized.depth.trans h.sized.depth.symm

end Sound

theorem find_solver (s : Solver) : s.find.2 = s.refresh.2 := by
  simp only [find]
  cases hrefresh : s.refresh with
  | mk result s' =>
    cases result with
    | error fault => rfl
    | ok _ => rfl

theorem isOptimal_solver (s : Solver) : s.isOptimal.2 = s.refresh.2 := find_solver s

theorem validate_solver (s : Solver) (requireOptimal : Bool) :
    (s.validate requireOptimal).2 = s ∨ (s.validate requireOptimal).2 = s.refresh.2 := by
  simp only [validate]
  by_cases hviolations : s.network.treeViolations.isEmpty = true
  · right
    cases hrefresh : s.refresh with
    | mk result s' =>
      cases result with
      | error fault => simp only [if_pos hviolations]
      | ok _ => simp only [if_pos hviolations]
  · left
    simp only [if_neg hviolations]

structure Pivots (s s' : Solver) (p : Pivot) (way : List Int) : Prop where
  step : s.network.Step s'.network s.useBland p.entering p.leaving way
  delta_eq : p.delta = s.network.capacity p.leaving
  totalCost_eq : s'.totalCost =
    s.totalCost + s.network.capacity p.leaving * s.network.cycleCost (way ++ [p.entering])
  tree_eq : s'.tree = s.tree
  options_eq : s'.options = s.options
  totals_eq : s'.initialTotals = s.initialTotals
  monitor_eq : s'.monitor = s.monitor.record (.int s'.totalCost) p.isDegenerate
  useBland_eq : s'.useBland = if s.options.rule == .bland || !s.options.antiCycling then s.useBland
    else s'.monitor.wantsBland

theorem updateRule_solver (s : Solver) : s.updateRule.1 = { s with
    useBland := if s.options.rule == .bland || !s.options.antiCycling then s.useBland
      else s.monitor.wantsBland } := by
  simp only [updateRule]
  by_cases hfixed : (s.options.rule == .bland || !s.options.antiCycling) = true
  · simp only [if_pos hfixed]
  · simp only [if_neg hfixed]
    by_cases hsame : (s.monitor.wantsBland == s.useBland) = true
    · rw [if_pos hsame, beq_iff_eq.mp hsame]
    · rw [if_neg hsame]
      cases hwants : s.monitor.wantsBland with
      | true => rfl
      | false => rfl

theorem wayBack_eq (s : Solver) (entering : Int) : s.wayBack entering =
    match s.tree.path (s.network.head entering) (s.network.tail entering) with
    | (_, .error fault) => if s.network.nodeCount < (s.tree.path (s.network.head entering)
        (s.network.tail entering)).1.length then .error .outOfBounds else .error fault
    | (steps, .ok ()) => if s.network.nodeCount ≤ steps.length ∨
        (steps.map s.tree.stepArc).any (fun arc => !s.network.hasArc arc) then .error .outOfBounds
      else .ok (steps.map s.tree.stepArc) := by
  simp only [wayBack]
  generalize s.tree.path (s.network.head entering) (s.network.tail entering) = found
  obtain ⟨steps, stop⟩ := found
  by_cases hlong : s.network.nodeCount < steps.length
  · have hlong' : s.network.nodeCount ≤ steps.length := by omega
    cases stop with
    | error fault =>
      simp only [if_pos hlong]
      rfl
    | ok _ =>
      simp only [if_pos hlong, if_pos (Or.inl hlong')]
      rfl
  · cases stop with
    | error fault =>
      simp only [if_neg hlong]
      rfl
    | ok _ =>
      simp only [if_neg hlong]
      by_cases hlong' : s.network.nodeCount ≤ steps.length
      · simp only [if_pos hlong', if_pos (Or.inl hlong')]
        rfl
      · by_cases hany : (steps.map s.tree.stepArc).any (fun arc => !s.network.hasArc arc) = true
        · simp only [if_neg hlong', if_pos hany, if_pos (Or.inr hany)]
          rfl
        · rw [if_neg (not_or.mpr ⟨hlong', hany⟩)]
          simp only [if_neg hlong', if_neg hany]
          rfl

theorem wayBack_steps {entering : Int} {way : List Int} (h : s.wayBack entering = .ok way) :
    ∃ steps, s.tree.path (s.network.head entering) (s.network.tail entering) = (steps, .ok ()) ∧
      way = steps.map s.tree.stepArc := by
  rw [wayBack_eq] at h
  generalize s.tree.path (s.network.head entering) (s.network.tail entering) = found at h ⊢
  obtain ⟨steps, stop⟩ := found
  cases stop with
  | error fault =>
    simp only at h
    split at h <;> cases h
  | ok _ =>
    simp only at h
    split at h
    · cases h
    · cases h
      exact ⟨steps, rfl, rfl⟩

theorem wayBack_isWay (hnet : s.network.WellFormed) (hlinked : s.tree.Linked s.network)
    {entering : Int} (harc : Stored s.network.arcCount entering) {way : List Int}
    (h : s.wayBack entering = .ok way) :
    s.network.IsWay (s.network.head entering) (s.network.tail entering) way := by
  obtain ⟨steps, hpath, rfl⟩ := wayBack_steps h
  exact hlinked.path_isWay hnet (hnet.head_lt harc) (hnet.tail_lt _ harc) hpath

theorem wayBack_ok (hnet : s.network.WellFormed) {root : Nat}
    (hrooted : s.tree.Rooted s.network root) {entering : Int}
    (harc : Stored s.network.arcCount entering) :
    ∃ way, s.wayBack entering = .ok way := by
  have hhead := hnet.head_lt harc
  have htail := hnet.tail_lt _ harc
  obtain ⟨steps, hpath⟩ := hrooted.path_ok hhead htail
  have hway := hrooted.linked.path_isWay hnet hhead htail hpath
  have hlength := hway.length_lt
  rw [List.length_map] at hlength
  have hall : ¬ (steps.map s.tree.stepArc).any (fun arc => !s.network.hasArc arc) = true := by
    intro hany
    obtain ⟨x, hx, hno⟩ := List.any_eq_true.mp hany
    rw [Network.hasArc_of_stored (hway.stored x hx)] at hno
    exact absurd hno (by decide)
  rw [wayBack_eq, hpath]
  exact ⟨_, if_neg (not_or.mpr ⟨by omega, hall⟩)⟩

theorem pivotAround_ok (hnet : s.network.WellFormed) {entering : Int} {way : List Int}
    (harc : Stored s.network.arcCount entering) (hoff : s.network.isTree entering = false)
    (hroom : 0 < s.network.capacity entering)
    (hway : s.network.IsWay (s.network.head entering) (s.network.tail entering) way) :
    ∃ p events s', s.pivotAround entering way = (.ok (p, events), s') ∧ p.entering = entering ∧
      s.Pivots s' p way := by
  obtain ⟨net', hexchange, hstep⟩ :=
    Network.step_of_isWay hnet s.useBland harc hoff hroom hway
  simp only [pivotAround]
  simp only [hexchange, note]
  refine ⟨_, _, _, rfl, rfl, ?_⟩
  rw [updateRule_solver]
  exact ⟨hstep, rfl, rfl, rfl, rfl, rfl, rfl, rfl⟩

/-- A pivot without the check of invariants is made, or it is refused and changes nothing. -/
theorem pivotUnchecked_spec (hnet : s.network.WellFormed) (hlinked : s.tree.Linked s.network)
    {entering : Int} (harc : Stored s.network.arcCount entering) :
    (∃ fault, s.pivotUnchecked entering = (.error fault, s)) ∨
      ∃ p events s' way, s.pivotUnchecked entering = (.ok (p, events), s') ∧
        p.entering = entering ∧ s.Pivots s' p way := by
  simp only [pivotUnchecked]
  by_cases hrefused : (s.network.isTree entering || decide (s.network.capacity entering ≤ 0)) = true
  · rw [if_pos hrefused]
    exact Or.inl ⟨_, rfl⟩
  · rw [if_neg hrefused]
    simp only [Bool.or_eq_true, decide_eq_true_eq, not_or, Bool.not_eq_true] at hrefused
    cases hback : s.wayBack entering with
    | error fault => exact Or.inl ⟨fault, rfl⟩
    | ok way =>
      obtain ⟨p, events, s', hpivot, hentering, hpivots⟩ := pivotAround_ok hnet harc hrefused.1
        (by omega) (wayBack_isWay hnet hlinked harc hback)
      exact Or.inr ⟨p, events, s', way, hpivot, hentering, hpivots⟩

/-- What a pivot leaves behind: the solver as it was, or as the pivot has made it, perhaps with a
new look at the tree. -/
theorem pivot_solver (hnet : s.network.WellFormed) (hlinked : s.tree.Linked s.network)
    {entering : Int} (harc : Stored s.network.arcCount entering) :
    (s.pivot entering).solver = s ∨ ∃ p s' way, p.entering = entering ∧ s.Pivots s' p way ∧
      ((s.pivot entering).solver = s' ∨ (s.pivot entering).solver = s'.refresh.2) := by
  simp only [pivot]
  rcases pivotUnchecked_spec hnet hlinked harc with ⟨fault, hpivot⟩ |
    ⟨p, events, s', way, hpivot, hentering, hpivots⟩
  · rw [hpivot]
    exact Or.inl rfl
  · right
    refine ⟨p, s', way, hentering, hpivots, ?_⟩
    rw [hpivot]
    by_cases hcheck : s'.options.checkInvariants = true
    · have hstate := s'.validate_solver false
      simp only [if_pos hcheck]
      generalize s'.validate false = outcome at hstate
      obtain ⟨result, s''⟩ := outcome
      cases result with
      | error fault => exact hstate
      | ok violations =>
        cases violations with
        | nil => exact hstate
        | cons v vs => exact hstate
    · left
      simp only [if_neg hcheck]

theorem pairTotals_eq {net net' : Network} (h : net.Circulates) (h' : net'.Circulates)
    (hedges : net'.edges = net.edges) : net'.pairTotals = net.pairTotals := by
  simp only [Network.pairTotals]
  rw [Network.edgeCount_congr hedges]
  refine List.map_congr_left fun k hk => ?_
  have hlt := List.mem_range.mp hk
  have hedge : net'.edgeOf (2 * k) = net.edgeOf (2 * k) := by
    simp [Network.edgeOf, Network.arcCount, hedges]
  rw [← Int64.ofInt_add, ← Int64.ofInt_add, h.pair_total k hlt,
    h'.pair_total k (by rwa [Network.edgeCount_congr hedges]), hedge]

namespace Sound

/-- A pivot that is made keeps a solver sound. -/
theorem pivots (h : s.Sound options nodeCount arcs) {s' : Solver} {p : Pivot} {way : List Int}
    (hpivots : s.Pivots s' p way) : s'.Sound options nodeCount arcs := by
  have hstep := hpivots.step
  have hnodes := hstep.nodeCount_eq
  have hcirculates := hstep.circulates h.wellFormed h.circulates
  constructor
  case options_eq => rw [hpivots.options_eq, h.options_eq]
  case nodeCount_eq => rw [hnodes, h.nodeCount_eq]
  case carries => exact h.carries.congr hstep.edges_eq
  case wellFormed => exact hstep.wellFormed
  case circulates => exact hcirculates
  case spanning => exact hstep.spanning h.wellFormed h.spanning
  case atBounds => exact hstep.atBounds h.wellFormed h.atBounds
  case totalCost_eq => rw [hpivots.totalCost_eq, hstep.gain_cost, h.totalCost_eq]
  case totals_eq =>
    rw [hpivots.totals_eq, h.totals_eq, pairTotals_eq h.circulates hcirculates hstep.edges_eq]
  case sized =>
    rw [hpivots.tree_eq, hnodes]
    exact h.sized
  case root_eq => rw [hpivots.tree_eq, h.root_eq]
  case rootIn =>
    rw [hpivots.tree_eq, hnodes]
    exact h.rootIn
  case limit_eq => rw [hpivots.monitor_eq, Monitor.streakLimit_record, h.limit_eq]
  case useBland_of_rule =>
    intro hbland
    have hfixed : (s.options.rule == .bland || !s.options.antiCycling) = true := by
      rw [h.options_eq, hbland]
      rfl
    rw [hpivots.useBland_eq, if_pos hfixed, h.useBland_of_rule hbland]

theorem pivot (h : s.Sound options nodeCount arcs) (hlinked : s.tree.Linked s.network)
    {entering : Int} (harc : Stored s.network.arcCount entering) :
    (s.pivot entering).solver.Sound options nodeCount arcs := by
  rcases pivot_solver h.wellFormed hlinked harc with hkept | ⟨p, s', way, _, hpivots, hstate⟩
  · rwa [hkept]
  · have hsound := h.pivots hpivots
    cases hstate with
    | inl hstate => rwa [hstate]
    | inr hstate =>
      rw [hstate]
      exact hsound.refresh

end Sound

end Solver

end Circulation
