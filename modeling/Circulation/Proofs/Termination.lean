import Circulation.Proofs.Cycling
import Circulation.Proofs.Invariants

/-!
Why a solve comes to its end. The cost never rises and cannot fall forever, so from some moment on
no pivot moves flow. Then the run of such pivots reaches its limit, the first-index rule stays in
effect, and by that rule such pivots do not go on. Main result: with a large enough budget a solve
ends at an optimum.
-/

namespace Circulation

open Adjacency (Stored)
open Finset (range)

theorem exists_constant (f : Nat → Int) (floor : Int) (hfloor : ∀ i, floor ≤ f i)
    (hfall : ∀ i, f (i + 1) ≤ f i) : ∃ start, ∀ i, f (start + i) = f start := by
  obtain ⟨least, hleast⟩ : ∃ least, ∀ i, (f least - floor).toNat ≤ (f i - floor).toNat :=
    ⟨_, fun i => Function.argmin_le (fun i => (f i - floor).toNat) i⟩
  have hbelow : ∀ i, f (least + i) ≤ f least := by
    intro i
    induction i with
    | zero => exact Int.le_refl _
    | succ i ih => exact (hfall (least + i)).trans ih
  refine ⟨least, fun i => ?_⟩
  have hle := hleast (least + i)
  have hupper := hbelow i
  have hlower := hfloor least
  have hlower' := hfloor (least + i)
  omega

namespace Network

/-- No flow within the capacities costs less. -/
def costFloor (net : Network) : Int :=
  ∑ k ∈ range net.edgeCount, -((net.edgeOf (2 * (k : Nat))).capacity * (net.cost (2 * k)).natAbs)

theorem costFloor_congr {net net' : Network} (h : net'.edges = net.edges) :
    net'.costFloor = net.costFloor := by
  simp only [costFloor]
  rw [edgeCount_congr h]
  refine Finset.sum_congr rfl fun k _ => ?_
  have hedge : net'.edgeOf (2 * k) = net.edgeOf (2 * k) := by
    simp [edgeOf, arcCount, h]
  rw [hedge, cost_congr h]

theorem Circulates.costFloor_le {net : Network} (h : net.Circulates) :
    net.costFloor ≤ net.gain net.cost := by
  refine Finset.sum_le_sum fun k hk => ?_
  have hlt := Finset.mem_range.mp hk
  have hroom := h.capacity_nonneg _ (Stored.forward hlt)
  have hback := h.capacity_nonneg _ (Stored.forward hlt).twin
  rw [twin_two_mul, ← h.flow_eq hlt] at hback
  have htotal := h.pair_total k hlt
  rw [← h.flow_eq hlt] at htotal
  have hcost : -((net.cost (2 * k)).natAbs : Int) ≤ net.cost (2 * k) := by omega
  calc -(((net.edgeOf (2 * k)).capacity : Int) * (net.cost (2 * k)).natAbs)
      ≤ -(net.flow k * (net.cost (2 * k)).natAbs) :=
        Int.neg_le_neg (Int.mul_le_mul_of_nonneg_right (by omega) (by omega))
    _ = net.flow k * -((net.cost (2 * k)).natAbs : Int) := (Int.mul_neg _ _).symm
    _ ≤ net.flow k * net.cost (2 * k) := Int.mul_le_mul_of_nonneg_left hcost hback

end Network

theorem Rule.first_of_select {net : Network} {t : Tree} {arc : Nat}
    (h : Rule.bland.select net t = some arc) (x : Nat) (hx : x < arc) :
    net.isEligible t x = false := by
  simp only [select, eligible, List.head?_filter, List.find?_range_eq_some] at h
  simpa using h.2.2 x hx

/-- The root and the limit are integers, as they are meant to be. Choices can be read that are not
whole: a root that is a truth value or a floating-point number, and a limit that is a
floating-point number with a fraction or none that is finite. -/
structure Options.Whole (options : Options) : Prop where
  root : ∃ root, options.root = .int root
  streakLimit : ∀ limit, options.streakLimit = some limit → ∃ n, limit.integer? = some n

theorem Number.isAtMost_of_integer {x : Number} {n : Int} (h : x.integer? = some n) (k : Int) :
    x.isAtMost k = decide (n ≤ k) := by
  cases x with
  | int m =>
    cases h
    exact isAtMost_int n k
  | truth b =>
    cases h
    exact isAtMost_int (ofTruth b) k
  | float x => cases h

namespace Solver

variable {s s' : Solver} {options : Options} {nodeCount : Nat} {arcs : List Arc} {root : Int}

def Turns (s s' : Solver) : Prop :=
  ∃ looked p events, ∃ entering : Nat, s.find = (.ok (some entering), looked) ∧
    looked.pivot entering = ⟨.ok p, s', events⟩

/-- What a turn does to the network, to the run of pivots without flow, and to the rule. -/
structure Turned (s s' : Solver) (entering leaving : Int) (way : List Int) : Prop where
  round : s.network.Round s'.network s.refresh.2.tree s.useBland entering leaving way
  streak_eq : s'.monitor.streak =
    if s.network.capacity leaving = 0 then s.monitor.streak + 1 else 0
  useBland_eq : s'.useBland = if s.options.rule == .bland || !s.options.antiCycling then s.useBland
    else s'.monitor.wantsBland

theorem Sound.turned (h : s.Sound options nodeCount arcs) (hroot : options.root = .int root)
    (hturns : s.Turns s') : s'.Sound options nodeCount arcs ∧
      ∃ entering leaving way, s.Turned s' entering leaving way := by
  obtain ⟨looked, p, events, entering, hfind, hpivot⟩ := hturns
  obtain ⟨p', made, way, after, events', hpivot', hentering, hpivots, hstate⟩ :=
    h.pivot_ok hfind
  cases hpivot.symm.trans hpivot'
  have hsound := h.pivot_found hfind
  rw [hpivot] at hsound
  refine ⟨hsound, entering, p.leaving, way, ?_⟩
  obtain ⟨rfl, -, hselect⟩ := find_some hfind
  obtain ⟨-, node, -, hrooted⟩ := h.refresh_ok hroot
  have hstep := hpivots.step
  rw [hentering] at hstep
  have hround :
      s.network.Round made.network s.refresh.2.tree s.useBland entering p.leaving way := by
    refine ⟨h.wellFormed, h.circulates, ⟨node, hrooted⟩, hstep, ?_, fun hbland x hpos hx => ?_⟩
    · have heligible := (Rule.isEligible_of_select hselect).2
      simp only [Network.isEligible, Bool.and_eq_true, decide_eq_true_eq] at heligible
      exact heligible.2
    · have hactive : s.refresh.2.activeRule = .bland := if_pos hbland
      rw [hactive] at hselect
      obtain ⟨n, rfl⟩ := Int.eq_ofNat_of_zero_le hpos
      exact Rule.first_of_select hselect n (by omega)
  have hstreak : made.monitor.streak =
      if s.network.capacity p.leaving = 0 then s.monitor.streak + 1 else 0 := by
    rw [hpivots.monitor_eq, Monitor.streak_record, Pivot.isDegenerate, hpivots.delta_eq]
    simp only [beq_iff_eq]
    rfl
  rcases hstate with rfl | rfl
  · exact ⟨hround, hstreak, hpivots.useBland_eq⟩
  · exact ⟨hround, hstreak, hpivots.useBland_eq⟩

structure Endless (states : Nat → Solver) (entering leaving : Nat → Int) (ways : Nat → List Int)
    (options : Options) (nodeCount : Nat) (arcs : List Arc) : Prop where
  sound (i : Nat) : (states i).Sound options nodeCount arcs
  turned (i : Nat) : (states i).Turned (states (i + 1)) (entering i) (leaving i) (ways i)

theorem Sound.endless (h : s.Sound options nodeCount arcs) (hroot : options.root = .int root)
    {states : Nat → Solver} (hstart : states 0 = s)
    (hturns : ∀ i, (states i).Turns (states (i + 1))) :
    ∃ entering leaving ways, Endless states entering leaving ways options nodeCount arcs := by
  have hsound : ∀ i, (states i).Sound options nodeCount arcs := by
    intro i
    induction i with
    | zero => rwa [hstart]
    | succ i ih => exact (ih.turned hroot (hturns i)).1
  choose entering leaving ways hturned using fun i => ((hsound i).turned hroot (hturns i)).2
  exact ⟨entering, leaving, ways, hsound, hturned⟩

theorem exists_wantsBland (hwhole : options.Whole) (nodeCount : Nat) : ∃ limit : Nat,
    ∀ {s : Solver} {arcs : List Arc}, s.Sound options nodeCount arcs →
      limit ≤ s.monitor.streak → s.monitor.wantsBland = true := by
  obtain ⟨n, hn⟩ : ∃ n, (options.streakLimit.getD (.int (max 1 nodeCount))).integer? = some n := by
    cases hlimit : options.streakLimit with
    | none => exact ⟨_, rfl⟩
    | some limit => exact hwhole.streakLimit limit hlimit
  refine ⟨n.toNat, fun {s _} hs hstreak => ?_⟩
  simp only [Monitor.wantsBland]
  rw [hs.limit_eq, Number.isAtMost_of_integer hn, decide_eq_true_eq]
  omega

namespace Endless

variable {states : Nat → Solver} {entering leaving : Nat → Int} {ways : Nat → List Int}

theorem exists_still (h : Endless states entering leaving ways options nodeCount arcs) :
    ∃ start, ∀ i, (states (start + i)).network.capacity (leaving (start + i)) = 0 := by
  have hedges : ∀ i, (states i).network.edges = (states 0).network.edges := by
    intro i
    induction i with
    | zero => rfl
    | succ i ih => rw [(h.turned i).round.step.edges_eq, ih]
  obtain ⟨start, hsame⟩ := exists_constant
    (fun i => (states i).network.gain (states i).network.cost) (states 0).network.costFloor
    (fun i => by
      rw [← Network.costFloor_congr (hedges i)]
      exact (h.sound i).circulates.costFloor_le)
    (fun i => (h.turned i).round.gain_cost_le.1)
  refine ⟨start, fun i => ?_⟩
  exact (h.turned (start + i)).round.gain_cost_le.2 ((hsame (i + 1)).trans (hsame i).symm)

theorem streak_eq (h : Endless states entering leaving ways options nodeCount arcs) {start : Nat}
    (hstill : ∀ i, (states (start + i)).network.capacity (leaving (start + i)) = 0) (i : Nat) :
    (states (start + i)).monitor.streak = (states start).monitor.streak + i := by
  induction i with
  | zero => rfl
  | succ i ih =>
    have hstreak := (h.turned (start + i)).streak_eq
    rw [if_pos (hstill i), ih] at hstreak
    exact hstreak

/-- From some moment on the first-index rule is in effect. -/
theorem exists_bland (h : Endless states entering leaving ways options nodeCount arcs)
    (hwhole : options.Whole) (hrule : options.rule = .bland ∨ options.antiCycling = true)
    {start : Nat}
    (hstill : ∀ i, (states (start + i)).network.capacity (leaving (start + i)) = 0) :
    ∃ later, ∀ i, (states (start + (later + i))).useBland = true := by
  by_cases hbland : options.rule = .bland
  · exact ⟨0, fun i => (h.sound _).useBland_of_rule hbland⟩
  · obtain ⟨limit, hlimit⟩ := exists_wantsBland hwhole nodeCount
    refine ⟨limit + 1, fun i => ?_⟩
    have hmoment : start + (limit + 1 + i) = start + (limit + i) + 1 := by omega
    have hstreak := h.streak_eq hstill (limit + i + 1)
    have hopen : ¬ ((states (start + (limit + i))).options.rule == .bland ||
        !(states (start + (limit + i))).options.antiCycling) = true := by
      rw [(h.sound _).options_eq, hrule.resolve_left hbland]
      simpa using hbland
    rw [hmoment, (h.turned _).useBland_eq, if_neg hopen]
    refine hlimit (h.sound _) ?_
    rw [← Nat.add_assoc] at hstreak
    rw [hstreak]
    omega

theorem false (h : Endless states entering leaving ways options nodeCount arcs)
    (hwhole : options.Whole) (hrule : options.rule = .bland ∨ options.antiCycling = true) :
    False := by
  obtain ⟨start, hstill⟩ := h.exists_still
  obtain ⟨later, hbland⟩ := h.exists_bland hwhole hrule hstill
  have hround : ∀ i, (states (start + (later + i))).network.Round
      (states (start + (later + (i + 1)))).network
      (states (start + (later + i))).refresh.2.tree true
      (entering (start + (later + i))) (leaving (start + (later + i)))
      (ways (start + (later + i))) := by
    intro i
    rw [← hbland i]
    exact (h.turned (start + (later + i))).round
  exact Network.Stalling.false ⟨hround, fun i => hstill (later + i)⟩

end Endless

/-- Turns come to an end. -/
theorem Sound.acc_turns (h : s.Sound options nodeCount arcs) (hwhole : options.Whole)
    (hrule : options.rule = .bland ∨ options.antiCycling = true) :
    Acc (fun after before => Turns before after) s := by
  obtain ⟨root, hroot⟩ := hwhole.root
  rw [acc_iff_isEmpty_descending_chain]
  constructor
  rintro ⟨states, hstart, hturns⟩
  obtain ⟨_, _, _, hendless⟩ := h.endless hroot hstart hturns
  exact hendless.false hwhole hrule

theorem Sound.run_optimal (hacc : Acc (fun after before => Turns before after) s)
    (h : s.Sound options nodeCount arcs) (hroot : options.root = .int root) :
    ∃ enough, ∀ budget, enough ≤ budget → (s.run budget).ending = .optimal := by
  induction hacc with
  | intro s _ ih =>
    rcases h.next (h.refresh_ok hroot).1 with
      ⟨_, hfind⟩ | ⟨looked, p, after, events, entering, hfind, hpivot, hafter, -⟩
    · refine ⟨0, fun budget _ => ?_⟩
      rw [run_of_none hfind]
    · obtain ⟨enough, hrest⟩ := ih after ⟨looked, p, events, entering, hfind, hpivot⟩ hafter
      refine ⟨enough + 1, fun budget hbudget => ?_⟩
      obtain ⟨more, rfl⟩ := Nat.exists_eq_add_of_le hbudget
      rw [Nat.add_right_comm, run_succ_of_pivot hfind hpivot]
      exact hrest (enough + more) (Nat.le_add_right _ _)

theorem limits_int (s : Solver) {budget every : Int} (hbudget : 0 < budget) (hevery : 0 < every) :
    s.limits (.int budget) (.int every) = .ok (.int budget, .int every) := by
  have hbudget' : ¬ (Number.int budget).isAtMost 0 = true := by simpa using hbudget
  have hevery' : ¬ (Number.int every).isAtMost 0 = true := by simpa using hevery
  simp only [limits, budgetOf]
  simp only [Value.toNumber, Value.number?, Option.map_some, Option.getD_some, bind, Except.bind,
    if_neg hbudget', if_neg hevery']
  rfl

/-- By the first-index rule, or if the rule may change, a solve comes to its end from every state:
no run of arcs that are found and pivoted goes on forever, and with a large enough budget the solve
returns an optimum. The choices are whole: this leaves out a truth value or a number with a fraction
as the root, and a limit with a fraction, all of which can be read. -/
theorem solve_terminates {start : Solver} {count items choices : Value}
    (hoptions : Options.ofValue choices = .ok options) (hwhole : options.Whole)
    (hrule : options.rule = .bland ∨ options.antiCycling = true)
    (hstart : ofValues count items options = .ok start) (hreach : start.Reachable s) :
    (¬ ∃ states : Nat → Solver, states 0 = s ∧ ∀ i, (states i).Turns (states (i + 1))) ∧
      ∃ enough : Nat, 0 < enough ∧ ∀ budget : Nat, enough ≤ budget → ∀ every : Int, 0 < every →
        ∃ sol, (s.solve (.int budget) (.int every)).result = .ok sol ∧ sol.status = "optimal" := by
  obtain ⟨_, _, _, _, hfirst⟩ := ofValues_sound hoptions hstart
  have hsound := hfirst.reachable hreach
  have hacc := hsound.acc_turns hwhole hrule
  refine ⟨?_, ?_⟩
  · rintro ⟨states, hzero, hturns⟩
    exact (acc_iff_isEmpty_descending_chain.mp hacc).false ⟨states, hzero, hturns⟩
  · obtain ⟨root, hroot⟩ := hwhole.root
    obtain ⟨enough, hrun⟩ := Sound.run_optimal hacc hsound hroot
    refine ⟨enough + 1, Nat.succ_pos _, fun budget hbudget every hevery => ?_⟩
    have hend := hrun budget (by omega)
    refine ⟨(s.run budget).solution, ?_, rfl⟩
    simp only [solve]
    rw [limits_int s (by omega) hevery]
    have hwithin : pivotsWithin (.int budget) = budget := rfl
    simp only [hwithin, Run.result, hend]

/-- A network whose first arc takes no flow, so that pivots around it move none. -/
def blocked : Value :=
  .list [.list [.int 0, .int 1, .int 0, .int (-2)], .list [.int 1, .int 2, .int 3, .int 1],
    .list [.int 2, .int 0, .int 5, .int (-10)], .list [.int 0, .int 2, .int 4, .int (-1)],
    .list [.int 1, .int 0, .int 1, .int (-12)]]

/-- Options by which one pivot without flow is too many. -/
def switching : Options := ⟨none, .dantzig, true, some (.int 1), .int 0, false⟩

set_option maxRecDepth 10000 in
theorem solve_terminates_blocked : ∃ start s : Solver,
    ofValues (.int 3) blocked switching = .ok start ∧ start.Reachable s ∧ s.useBland = true ∧
      s.totalCost = 0 ∧
      (¬ ∃ states : Nat → Solver, states 0 = s ∧ ∀ i, (states i).Turns (states (i + 1))) ∧
      ∃ budget : Nat, ∃ sol, (s.solve (.int budget) (.int 100)).result = .ok sol ∧
        sol.status = "optimal" := by
  have hoptions : Options.ofValue (.record [("degenerate_streak_limit", .int 1)]) =
      .ok switching := rfl
  have hwhole : switching.Whole := ⟨⟨0, rfl⟩, fun limit hlimit => ⟨1, by cases hlimit; rfl⟩⟩
  obtain ⟨start, s, hstart, hreach, hbland, hcost⟩ : ∃ start s : Solver,
      ofValues (.int 3) blocked switching = .ok start ∧ start.Reachable s ∧ s.useBland = true ∧
        s.totalCost = 0 :=
    ⟨_, _, rfl, .pivot (by decide : 8 < _) rfl (.find .start), rfl, rfl⟩
  obtain ⟨hend, enough, _, hsolve⟩ :=
    solve_terminates hoptions hwhole (Or.inr rfl) hstart hreach
  exact ⟨start, s, hstart, hreach, hbland, hcost, hend, enough,
    hsolve enough (Nat.le_refl _) 100 (by decide)⟩

end Solver

end Circulation
