import Circulation.Proofs.Requests
import Circulation.Proofs.Scaling

/-!
The same solve in other units. A solver of the problem in units that are so many times smaller does
at each step what the solver of the given problem does, with so many times the flow and the cost.
Main result: the two solves make the same pivots and come to the same end, and what they report
differs by the two factors only.
-/

namespace Circulation

variable {a b : Nat}

namespace Pivot

def scaled (a b : Nat) (p : Pivot) : Pivot :=
  { p with delta := b * p.delta, costChange := a * b * p.costChange }

theorem isDegenerate_scaled (hb : 0 < b) (p : Pivot) :
    (p.scaled a b).isDegenerate = p.isDegenerate := by
  have hzero : b * p.delta = 0 ↔ p.delta = 0 := by
    simpa using mul_natCast_eq_iff hb (m := p.delta) (n := 0)
  rw [Bool.eq_iff_iff]
  simpa [isDegenerate, scaled] using hzero

end Pivot

namespace Solver

variable {s s' looked made : Solver} {options : Options} {nodeCount : Nat} {arcs arcs' : List Arc}

/-- The second solver is the first one in other units, but for the costs that its monitor has
kept. -/
structure Scaled (a b : Nat) (s s' : Solver) : Prop where
  options_eq : s'.options = s.options
  network_eq : s'.network = s.network.scaled a b
  tree_eq : s'.tree = s.tree.scaled a
  useBland_eq : s'.useBland = s.useBland
  monitor_eq : s'.monitor = { s.monitor with history := s'.monitor.history }
  totalCost_eq : s'.totalCost = a * b * s.totalCost

namespace Scaled

theorem activeRule_eq (h : Scaled a b s s') : s'.activeRule = s.activeRule := by
  simp only [activeRule, h.useBland_eq, h.options_eq]

theorem wantsBland_eq (h : Scaled a b s s') : s'.monitor.wantsBland = s.monitor.wantsBland := by
  rw [h.monitor_eq]
  rfl

theorem refresh (h : Scaled a b s s') :
    s'.refresh.1 = s.refresh.1 ∧ Scaled a b s.refresh.2 s'.refresh.2 := by
  have hlook := Tree.refresh_scaled a b s.network s.tree
  rw [← h.tree_eq, ← h.network_eq] at hlook
  simp only [Solver.refresh]
  rw [hlook]
  exact ⟨rfl, h.options_eq, h.network_eq, rfl, h.useBland_eq, h.monitor_eq, h.totalCost_eq⟩

theorem find (h : Scaled a b s s') (ha : 0 < a) (hb : 0 < b)
    {result : Except Fault (Option Nat)} (hfind : s.find = (result, looked)) :
    ∃ looked', s'.find = (result, looked') ∧ Scaled a b looked looked' := by
  obtain ⟨hresult, hlooked⟩ := h.refresh
  simp only [Solver.find] at hfind ⊢
  generalize s'.refresh = outcome' at *
  generalize s.refresh = outcome at *
  obtain ⟨result', after'⟩ := outcome'
  obtain ⟨_, after⟩ := outcome
  simp only at hresult hlooked
  subst hresult
  cases result' with
  | error fault =>
    cases hfind
    exact ⟨after', rfl, hlooked⟩
  | ok _ =>
    cases hfind
    refine ⟨after', ?_, hlooked⟩
    simp only
    rw [hlooked.activeRule_eq, hlooked.network_eq, hlooked.tree_eq, Rule.select_scaled _ _ ha hb]

theorem wayBack_eq (h : Scaled a b s s') (entering : Int) :
    s'.wayBack entering = s.wayBack entering := by
  have hstep : (s.tree.scaled a).stepArc = s.tree.stepArc := by
    funext step
    cases step <;> rfl
  have hnodes : (s.network.scaled a b).nodeCount = s.network.nodeCount := rfl
  simp only [wayBack]
  rw [h.network_eq, h.tree_eq]
  simp only [Network.head_scaled, Network.tail_scaled, Network.hasArc_scaled, Tree.path_scaled,
    hstep, hnodes]

theorem note (h : Scaled a b s s') (hb : 0 < b) (p : Pivot) :
    Scaled a b (s.note p).1 (s'.note (p.scaled a b)).1 := by
  have hrecord : Scaled a b
      { s with
        pivotCount := s.pivotCount + 1
        monitor := s.monitor.record (.int s.totalCost) p.isDegenerate }
      { s' with
        pivotCount := s'.pivotCount + 1
        monitor := s'.monitor.record (.int s'.totalCost) (p.scaled a b).isDegenerate } := by
    refine ⟨h.options_eq, h.network_eq, h.tree_eq, h.useBland_eq, ?_, h.totalCost_eq⟩
    simp only
    rw [p.isDegenerate_scaled hb, h.monitor_eq]
    cases p.isDegenerate <;> rfl
  have hwants := hrecord.wantsBland_eq
  simp only [Solver.note, updateRule_solver]
  refine ⟨h.options_eq, h.network_eq, h.tree_eq, ?_, hrecord.monitor_eq, h.totalCost_eq⟩
  simp only at hwants ⊢
  rw [hwants, h.options_eq, h.useBland_eq]

theorem pivotAround (h : Scaled a b s s') (hb : 0 < b) {entering : Int} {way : List Int} {p : Pivot}
    {events : List Event} (hpivot : s.pivotAround entering way = (.ok (p, events), made)) :
    ∃ events' made', s'.pivotAround entering way = (.ok (p.scaled a b, events'), made') ∧
      Scaled a b made made' := by
  have hleaving : s'.network.bottleneck s'.useBland entering way =
      s.network.bottleneck s.useBland entering way := by
    rw [h.network_eq, h.useBland_eq, Network.bottleneck_scaled _ hb]
  have hdelta : ∀ arc, s'.network.capacity arc = b * s.network.capacity arc := by
    intro arc
    rw [h.network_eq, Network.capacity_scaled]
  have hexchange : ∀ delta cycle leaving,
      (s'.network.augment (b * delta) cycle).exchange entering leaving =
        (((s.network.augment delta cycle).exchange entering leaving).1,
          ((s.network.augment delta cycle).exchange entering leaving).2.scaled a b) := by
    intro delta cycle leaving
    rw [h.network_eq, Network.augment_scaled, Network.exchange_scaled]
  have hchange : ∀ (delta : Int) cycle, (b * delta) * s'.network.cycleCost cycle =
      a * b * (delta * s.network.cycleCost cycle) := by
    intro delta cycle
    rw [h.network_eq, Network.cycleCost_scaled]
    ring
  simp only [Solver.pivotAround] at hpivot ⊢
  rw [hleaving, hdelta, hexchange, hchange]
  generalize s.network.bottleneck s.useBland entering way = leaving at *
  generalize (s.network.augment _ _).exchange entering leaving = outcome at *
  obtain ⟨result, net⟩ := outcome
  cases result with
  | error fault => cases hpivot
  | ok _ =>
    cases hpivot
    refine ⟨_, _, rfl, note ?_ hb _⟩
    refine ⟨h.options_eq, rfl, h.tree_eq, h.useBland_eq, h.monitor_eq, ?_⟩
    simp only
    rw [h.totalCost_eq, Int.mul_add]

theorem pivotUnchecked (h : Scaled a b s s') (hb : 0 < b) {entering : Int} {p : Pivot}
    {events : List Event} (hpivot : s.pivotUnchecked entering = (.ok (p, events), made)) :
    ∃ events' made', s'.pivotUnchecked entering = (.ok (p.scaled a b, events'), made') ∧
      Scaled a b made made' := by
  obtain ⟨hoff, hroom, way, hback, haround⟩ := pivotUnchecked_eq_ok_iff.mp hpivot
  obtain ⟨events', made', haround', hmade⟩ := h.pivotAround hb haround
  have hroom' : 0 < b * s.network.capacity entering := by
    simpa using (mul_natCast_lt_iff hb (m := 0)).mpr hroom
  refine ⟨events', made', pivotUnchecked_eq_ok_iff.mpr ⟨?_, ?_, way, ?_, haround'⟩, hmade⟩
  · rw [h.network_eq]
    exact hoff
  · rwa [h.network_eq, Network.capacity_scaled]
  · rw [h.wayBack_eq, hback]

theorem pivot (h : Scaled a b s s') (ha : 0 < a) (hb : 0 < b) (hs : s.Sound options nodeCount arcs)
    (hs' : s'.Sound options nodeCount arcs') {entering : Nat}
    (hfind : s.find = (.ok (some entering), looked)) :
    ∃ p after events looked' after' events', looked.pivot entering = ⟨.ok p, after, events⟩ ∧
      s'.find = (.ok (some entering), looked') ∧
      looked'.pivot entering = ⟨.ok (p.scaled a b), after', events'⟩ ∧
      Scaled a b after after' := by
  obtain ⟨looked', hfind', hlooked⟩ := h.find ha hb hfind
  obtain ⟨p, events, made, _, hpivot, -, -, hmade⟩ := hs.pivotUnchecked_ok hfind
  obtain ⟨p', events', made', _, hpivot', -, -, hmade'⟩ := hs'.pivotUnchecked_ok hfind'
  obtain ⟨_, _, hscaled', hscaled⟩ := hlooked.pivotUnchecked hb hpivot
  cases hpivot'.symm.trans hscaled'
  obtain ⟨-, hok, -⟩ := find_some hfind
  refine ⟨p, _, events, looked', _, events',
    Sound.pivot_of_unchecked hmade (hs.sees hmade hok) hpivot, hfind',
    Sound.pivot_of_unchecked hmade' (hs.sees hmade' hok) hpivot', ?_⟩
  rw [hscaled.options_eq]
  cases made.options.checkInvariants with
  | true => exact hscaled.refresh.2
  | false => exact hscaled

end Scaled

structure Tick.Scaled (a b : Nat) (tick tick' : Tick) : Prop where
  pivot_eq : tick'.pivot = tick.pivot.scaled a b
  totalCost_eq : tick'.totalCost = a * b * tick.totalCost
  rule_eq : tick'.rule = tick.rule

/-- The second run makes the pivots of the first one in other units and ends as it does. -/
structure Run.Scaled (a b : Nat) (r r' : Run) : Prop where
  ticks : List.Forall₂ (Tick.Scaled a b) r.ticks r'.ticks
  ending_eq : r'.ending = r.ending
  solver : r.solver.Scaled a b r'.solver

theorem Scaled.run_of_stop (h : Scaled a b s s') (ha : 0 < a) (hb : 0 < b)
    {result : Except Fault (Option Nat)} (hfind : s.find = (result, looked))
    (hstop : ∀ entering, result ≠ .ok (some entering)) (n : Nat) :
    Run.Scaled a b (s.run n) (s'.run n) := by
  obtain ⟨looked', hfind', hlooked⟩ := h.find ha hb hfind
  cases result with
  | error fault =>
    rw [run_of_error hfind, run_of_error hfind']
    exact ⟨.nil, rfl, hlooked⟩
  | ok found =>
    cases found with
    | none =>
      rw [run_of_none hfind, run_of_none hfind']
      exact ⟨.nil, rfl, hlooked⟩
    | some entering => exact absurd rfl (hstop entering)

/-- Runs in two units take the same course. -/
theorem Scaled.run (h : Scaled a b s s') (ha : 0 < a) (hb : 0 < b)
    (hs : s.Sound options nodeCount arcs) (hs' : s'.Sound options nodeCount arcs') (n : Nat) :
    Run.Scaled a b (s.run n) (s'.run n) := by
  induction n generalizing s s' with
  | zero =>
    cases hfind : s.find with
    | mk result looked =>
      by_cases hfound : ∃ entering, result = .ok (some entering)
      · obtain ⟨entering, rfl⟩ := hfound
        obtain ⟨looked', hfind', hlooked⟩ := h.find ha hb hfind
        rw [run_zero_of_some hfind, run_zero_of_some hfind']
        exact ⟨.nil, rfl, hlooked⟩
      · exact h.run_of_stop ha hb hfind (not_exists.mp hfound) 0
  | succ n ih =>
    cases hfind : s.find with
    | mk result looked =>
      by_cases hfound : ∃ entering, result = .ok (some entering)
      · obtain ⟨entering, rfl⟩ := hfound
        obtain ⟨p, after, events, looked', after', events', hpivot, hfind', hpivot', hafter⟩ :=
          h.pivot ha hb hs hs' hfind
        have hsound := hs.pivot_found hfind
        have hsound' := hs'.pivot_found hfind'
        rw [hpivot] at hsound
        rw [hpivot'] at hsound'
        obtain ⟨hticks, hending, hsolver⟩ := ih hafter hsound hsound'
        rw [run_succ_of_pivot hfind hpivot, run_succ_of_pivot hfind' hpivot']
        exact ⟨.cons ⟨rfl, hafter.totalCost_eq, hafter.activeRule_eq⟩ hticks, hending, hsolver⟩
      · exact h.run_of_stop ha hb hfind (not_exists.mp hfound) (n + 1)

end Solver

def Solution.scaled (a b : Nat) (sol : Solution) : Solution :=
  { sol with
    totalCost := a * b * sol.totalCost
    flows := sol.flows.map fun flow : Int => b * flow
    residuals := sol.residuals.map fun capacity : Int => b * capacity
    potentials := sol.potentials.map fun potential : Int => a * potential }

/-- A fault of a solve in units that are so many times smaller: the cost that it tells is in these
units. -/
def Fault.scaled (a b : Nat) : Fault → Fault
  | .iterationLimit iterations totalCost => .iterationLimit iterations (a * b * totalCost)
  | fault => fault

theorem Fault.scaled_of_category {fault : Fault} (h : fault.category ≠ .iterationLimit) :
    fault.scaled a b = fault := by
  cases fault with
  | iterationLimit iterations totalCost => exact absurd rfl h
  | _ => rfl

def scaledOutcome (a b : Nat) (result : Except Fault Solution) : Except Fault Solution :=
  (result.map (Solution.scaled a b)).mapError (Fault.scaled a b)

namespace Solver

variable {s s' : Solver} {options : Options} {nodeCount : Nat} {arcs arcs' : List Arc}

namespace Run.Scaled

variable {r r' : Run}

theorem iterations_eq (h : Run.Scaled a b r r') : r'.iterations = r.iterations :=
  h.ticks.length_eq.symm

theorem degenerateCount_eq (hb : 0 < b) {ticks ticks' : List Tick}
    (h : List.Forall₂ (Tick.Scaled a b) ticks ticks') :
    degenerateCount ticks' = degenerateCount ticks := by
  simp only [degenerateCount]
  induction h with
  | nil => rfl
  | cons hhead _ ih =>
    rw [List.countP_cons, List.countP_cons, ih, hhead.pivot_eq, Pivot.isDegenerate_scaled hb]

theorem solution_eq (h : Run.Scaled a b r r') (hb : 0 < b) :
    r'.solution = r.solution.scaled a b := by
  simp only [Run.solution, Solution.scaled]
  rw [h.iterations_eq, degenerateCount_eq hb h.ticks, h.solver.totalCost_eq, h.solver.network_eq,
    h.solver.tree_eq, Network.flows_scaled, Network.residuals_scaled]
  simp [Tree.scaled]

theorem result_eq (h : Run.Scaled a b r r') (hb : 0 < b)
    (hfailed : ∀ fault events, r.ending = .failed fault events →
      fault.category ≠ .iterationLimit) : r'.result = scaledOutcome a b r.result := by
  simp only [Run.result]
  rw [h.ending_eq]
  cases hend : r.ending with
  | optimal =>
    simp only
    rw [h.solution_eq hb]
    rfl
  | limit =>
    simp only
    rw [h.iterations_eq, h.solver.totalCost_eq]
    rfl
  | failed fault events =>
    simp only [scaledOutcome, Except.map, Except.mapError]
    rw [Fault.scaled_of_category (hfailed fault events hend)]

end Run.Scaled

theorem Sound.category_of_failed (h : s.Sound options nodeCount arcs) {n : Nat} {fault : Fault}
    {events : List Event} (hend : (s.run n).ending = .failed fault events) :
    fault.category = .wrongKind ∨ fault.category = .badValue := by
  cases hlook : s.refresh.1 with
  | error refused =>
    rw [run_of_refresh hlook] at hend
    cases hend
    exact h.category_of_refresh hlook
  | ok _ => rcases h.run_ending hlook n with hend' | hend' <;> cases hend.symm.trans hend'

namespace Scaled

theorem limits_eq (h : Scaled a b s s') (maxIterations interval : Value) :
    s'.limits maxIterations interval = s.limits maxIterations interval := by
  simp only [limits, budgetOf, defaultBudget, h.options_eq, h.network_eq, Network.arcCount_scaled]

/-- Solves in two units come to the same. -/
theorem solve (h : Scaled a b s s') (ha : 0 < a) (hb : 0 < b)
    (hs : s.Sound options nodeCount arcs) (hs' : s'.Sound options nodeCount arcs')
    (maxIterations interval : Value) : (s'.solve maxIterations interval).result =
      scaledOutcome a b (s.solve maxIterations interval).result := by
  simp only [Solver.solve]
  rw [h.limits_eq]
  cases hlimits : s.limits maxIterations interval with
  | error fault =>
    have hcategory : fault.category ≠ .iterationLimit := by
      rcases category_of_limits hlimits with hcategory | hcategory | hcategory <;> simp [hcategory]
    simp only [scaledOutcome, Except.map, Except.mapError]
    rw [Fault.scaled_of_category hcategory]
  | ok limits =>
    refine (h.run ha hb hs hs' _).result_eq hb fun fault events hend => ?_
    rcases hs.category_of_failed hend with hcategory | hcategory <;> simp [hcategory]

theorem start (options : Options) (net : Network) :
    Scaled a b (start options net) (Solver.start options (net.scaled a b)) where
  options_eq := rfl
  network_eq := rfl
  tree_eq := (Tree.scaled_blank a net.nodeCount _).symm
  useBland_eq := rfl
  monitor_eq := rfl
  totalCost_eq := (Int.mul_zero _).symm

end Scaled

end Solver

section Choice

variable {count items items' choices : Value} {options : Options} {arcs : List Arc}
  {net net' : Network} (harcs : Arc.listOfValue items = .ok arcs)
  (harcs' : Arc.listOfValue items' = .ok (arcs.map (Arc.scaled a b)))
  (hnet : Network.ofValues count items = .ok net) (hnet' : Network.ofValues count items' = .ok net')
include harcs harcs' hnet hnet'

theorem Network.ofValues_scaled : net' = net.scaled a b := by
  obtain ⟨nodeCount, _, hcount, hlist, hbuild⟩ := ofValues_eq_ok_iff.mp hnet
  obtain ⟨_, _, hcount', hlist', hbuild'⟩ := ofValues_eq_ok_iff.mp hnet'
  cases harcs.symm.trans hlist
  cases harcs'.symm.trans hlist'
  cases hcount.symm.trans hcount'
  exact ofArcs_scaled a b hbuild hbuild'

theorem Solver.exists_scaled (hoptions : Options.ofValue choices = .ok options) {start : Solver}
    (hstart : ofValues count items options = .ok start) :
    ∃ start' nodeCount arcs', ofValues count items' options = .ok start' ∧
      start.Scaled a b start' ∧ start.Sound options nodeCount arcs ∧
      start'.Sound options nodeCount arcs' := by
  obtain ⟨_, hsame, hroot, rfl⟩ := ofValues_eq_ok_iff.mp hstart
  cases hnet.symm.trans hsame
  obtain rfl := Network.ofValues_scaled harcs harcs' hnet hnet'
  have hstart' : ofValues count items' options = .ok (start options (net.scaled a b)) :=
    ofValues_eq_ok_iff.mpr ⟨_, hnet', hroot, rfl⟩
  obtain ⟨_, _, hcount, hlist, hsound⟩ := ofValues_sound hoptions hstart
  obtain ⟨_, _, hcount', -, hsound'⟩ := ofValues_sound hoptions hstart'
  cases hcount.symm.trans hcount'
  cases harcs.symm.trans hlist
  exact ⟨_, _, _, hstart', .start options net, hsound, hsound'⟩

/-- The choice of units makes no difference. If every cost is multiplied by one factor and every
capacity by another, and both networks are accepted, then the two solves make the same pivots with
so many times the flow, by the same rules and within the same limits, and come to the same end; what
they report differs by the factors only. -/
theorem solveFlow_scaled (ha : 0 < a) (hb : 0 < b)
    (hoptions : Options.ofValue choices = .ok options) (maxIterations interval : Value) :
    (solveFlow count items' options maxIterations interval).result =
        scaledOutcome a b (solveFlow count items options maxIterations interval).result ∧
      ∀ start, Solver.ofValues count items options = .ok start → ∃ start',
        Solver.ofValues count items' options = .ok start' ∧
          start'.limits maxIterations interval = start.limits maxIterations interval ∧
          ∀ n, Solver.Run.Scaled a b (start.run n) (start'.run n) := by
  constructor
  · rw [Solver.solveFlow_result, Solver.solveFlow_result]
    by_cases hroot : options.root.isAtLeast net.nodeCount = true
    · -- the root is refused in both units
      obtain rfl := Network.ofValues_scaled harcs harcs' hnet hnet'
      have hroot' : options.root.isAtLeast (net.scaled a b).nodeCount = true := hroot
      have hcategory : (Fault.rootOutside options.root net.nodeCount).raised.category ≠
        .iterationLimit := Fault.category_raised_ne nofun nofun nofun
      rw [Solver.ofValues_of_outside hnet hroot, Solver.ofValues_of_outside hnet' hroot']
      exact congrArg Except.error (Fault.scaled_of_category hcategory).symm
    · have hstart := Solver.ofValues_eq_ok_iff.mpr ⟨net, hnet, by simpa using hroot, rfl⟩
      obtain ⟨start', _, _, hstart', hscaled, hsound, hsound'⟩ :=
        Solver.exists_scaled harcs harcs' hnet hnet' hoptions hstart
      rw [hstart, hstart']
      exact hscaled.solve ha hb hsound hsound' maxIterations interval
  · intro start hstart
    obtain ⟨start', _, _, hstart', hscaled, hsound, hsound'⟩ :=
      Solver.exists_scaled harcs harcs' hnet hnet' hoptions hstart
    exact ⟨start', hstart', hscaled.limits_eq maxIterations interval, fun n =>
      hscaled.run ha hb hsound hsound' n⟩

end Choice

def enlargedTriangle : Value :=
  .list [.list [.int 0, .int 1, .int 15, .int 4], .list [.int 1, .int 2, .int 9, .int 2],
    .list [.int 2, .int 0, .int 15, .int (-20)], .list [.int 1, .int 1, .int 12, .int (-2)],
    .list [.int 2, .int 0, .int 3, .int (-24)]]

set_option maxRecDepth 10000 in
theorem solveFlow_scaled_triangle : ∃ sol start start',
    (solveFlow (.int 3) Solver.triangle Solver.checking .null (.int 100)).result = .ok sol ∧
      sol.flows = [3, 3, 2, 4, 1] ∧ sol.totalCost = -27 ∧
      (solveFlow (.int 3) enlargedTriangle Solver.checking .null (.int 100)).result =
        .ok (sol.scaled 2 3) ∧
      Solver.ofValues (.int 3) Solver.triangle Solver.checking = .ok start ∧
      Solver.ofValues (.int 3) enlargedTriangle Solver.checking = .ok start' ∧
      Solver.Run.Scaled 2 3 (start.run 100) (start'.run 100) := by
  obtain ⟨arcs, net, net', harcs, harcs', hnet, hnet'⟩ : ∃ arcs net net',
      Arc.listOfValue Solver.triangle = .ok arcs ∧
        Arc.listOfValue enlargedTriangle = .ok (arcs.map (Arc.scaled 2 3)) ∧
        Network.ofValues (.int 3) Solver.triangle = .ok net ∧
        Network.ofValues (.int 3) enlargedTriangle = .ok net' := ⟨_, _, _, rfl, rfl, rfl, rfl⟩
  obtain ⟨sol, start, hsolve, hflows, hcost, hstart⟩ : ∃ sol start,
      (solveFlow (.int 3) Solver.triangle Solver.checking .null (.int 100)).result = .ok sol ∧
        sol.flows = [3, 3, 2, 4, 1] ∧ sol.totalCost = -27 ∧
        Solver.ofValues (.int 3) Solver.triangle Solver.checking = .ok start :=
    ⟨_, _, rfl, rfl, rfl, rfl⟩
  obtain ⟨hresult, hruns⟩ := solveFlow_scaled harcs harcs' hnet hnet' (by decide) (by decide)
    Solver.ofValue_checking .null (.int 100)
  obtain ⟨start', hstart', -, hrun⟩ := hruns start hstart
  rw [hsolve] at hresult
  exact ⟨sol, start, start', hsolve, hflows, hcost, hresult, hstart, hstart', hrun 100⟩

end Circulation
