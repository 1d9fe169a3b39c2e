import Circulation.Proofs.Optimality
import Circulation.Proofs.Requests

/-!
The same solve as seen from two roots. The tree looks different from each of them, in its depths and
in the order in which the arcs of a cycle are met. But there is one way only between two nodes, the
potentials differ by a constant, and the first-index rule does not look at any order. Main result:
by that rule a solve makes the same pivots from every root and comes to the same end.
-/

namespace Circulation

open Adjacency (Stored)

namespace Network

variable {net : Network} {entering : Int} {way way' : List Int}

theorem bottleneck_perm (hcycle : net.IsCycle (way ++ [entering])) (hperm : way.Perm way') :
    net.bottleneck true entering way' = net.bottleneck true entering way := by
  obtain ⟨hmem, hleast⟩ := net.bottleneck_spec true entering way
  obtain ⟨hmem', hleast'⟩ := net.bottleneck_spec true entering way'
  have hsame : ∀ x, x ∈ entering :: way' ↔ x ∈ entering :: way := fun x =>
    (hperm.symm.cons entering).mem_iff
  have hon : ∀ x, x ∈ entering :: way → x ∈ way ++ [entering] := by
    intro x hx
    rwa [List.mem_append, List.mem_singleton, or_comm, ← List.mem_cons]
  rw [hsame] at hmem'
  generalize net.bottleneck true entering way = one at *
  generalize net.bottleneck true entering way' = other at *
  obtain ⟨hle, hfirst⟩ := hleast other hmem'
  obtain ⟨hle', hfirst'⟩ := hleast' one ((hsame one).mpr hmem)
  have hforth := hfirst rfl (by omega)
  have hback := hfirst' rfl (by omega)
  refine List.inj_on_of_nodup_map hcycle.nodup (hon _ hmem') (hon _ hmem) ?_
  simp only [pairOf]
  omega

theorem augment_perm {cycle cycle' : List Int} (hnet : net.WellFormed) (hcycle : net.IsCycle cycle)
    (hperm : cycle.Perm cycle') (delta : Int) :
    net.augment delta cycle' = net.augment delta cycle := by
  have hsize := size_augment net delta cycle
  have hsize' := size_augment net delta cycle'
  have hcapacity : ∀ arc, 0 ≤ arc →
      (net.augment delta cycle').capacity arc = (net.augment delta cycle).capacity arc := by
    intro arc harc
    rw [capacity_augment hnet.size_residual delta hcycle.stored hcycle.nodup harc,
      capacity_augment hnet.size_residual delta
        (fun x hx => hcycle.stored x (hperm.mem_iff.mpr hx)) ((hperm.map pairOf).nodup hcycle.nodup)
        harc]
    simp only [hperm.mem_iff]
  rw [augment_eq net delta cycle', augment_eq net delta cycle]
  congr 1
  exact Row.eq_of_get_eq (hsize'.trans hsize.symm) fun i _ => hcapacity i (Int.natCast_nonneg i)

/-- Potentials that fall along each arc of a spanning tree by its cost differ by a constant. -/
theorem potentialOf_sub_eq {t t' : Tree}
    (hspanning : IsSpanningTree net.nodeCount net.ends net.treeSet)
    (hzero : ∀ arc, Stored net.arcCount arc → net.isTree arc = true → net.reducedCost t arc = 0)
    (hzero' : ∀ arc, Stored net.arcCount arc → net.isTree arc = true → net.reducedCost t' arc = 0)
    {a b : Nat} (ha : a < net.nodeCount) (hb : b < net.nodeCount) :
    t'.potentialOf a - t.potentialOf a = t'.potentialOf b - t.potentialOf b := by
  refine Joined.value_eq (fun v : Nat => t'.potentialOf v - t.potentialOf v) (fun k hk => ?_)
    (hspanning.connected a ha b hb)
  have hforth := hzero _ (Stored.forward hk.1) hk.2
  have hforth' := hzero' _ (Stored.forward hk.1) hk.2
  simp only [reducedCost] at hforth hforth'
  simp only [ends]
  omega

end Network

namespace Tree.Rooted

variable {net : Network} {t t' : Tree} {root root' : Nat}

theorem potentialOf_shift (h : t.Rooted net root) (h' : t'.Rooted net root')
    (hnet : net.WellFormed) (hspanning : IsSpanningTree net.nodeCount net.ends net.treeSet)
    {node : Nat} (hnode : node < net.nodeCount) :
    t'.potentialOf node = t.potentialOf node + t'.potentialOf root := by
  have hsame := Network.potentialOf_sub_eq hspanning
    (fun _ => Network.reducedCost_eq_zero hnet h) (fun _ => Network.reducedCost_eq_zero hnet h')
    hnode h.root_lt
  rw [h.potentialOf_root] at hsame
  omega

theorem reducedCost_eq (h : t.Rooted net root) (h' : t'.Rooted net root')
    (hnet : net.WellFormed) (hspanning : IsSpanningTree net.nodeCount net.ends net.treeSet)
    {arc : Int} (harc : Stored net.arcCount arc) :
    net.reducedCost t' arc = net.reducedCost t arc := by
  have htail := h.potentialOf_shift h' hnet hspanning (hnet.tail_lt arc harc)
  have hhead := h.potentialOf_shift h' hnet hspanning (hnet.head_lt harc)
  simp only [Network.reducedCost]
  omega

theorem eligible_eq (h : t.Rooted net root) (h' : t'.Rooted net root')
    (hnet : net.WellFormed) (hspanning : IsSpanningTree net.nodeCount net.ends net.treeSet) :
    Rule.eligible net t' = Rule.eligible net t := by
  refine List.filter_congr fun arc harc => ?_
  have hlt := List.mem_range.mp harc
  simp only [Network.isEligible]
  rw [h.reducedCost_eq h' hnet hspanning ⟨by omega, by omega⟩]

theorem potentials_eq (h : t.Rooted net root) (h' : t'.Rooted net root')
    (hnet : net.WellFormed) (hspanning : IsSpanningTree net.nodeCount net.ends net.treeSet) :
    ∃ shift : Int, t'.potential.toList = t.potential.toList.map (· + shift) := by
  refine ⟨t'.potentialOf root, List.ext_getElem ?_ fun v hv hv' => ?_⟩
  · simp [h.linked.sized.potential, h'.linked.sized.potential]
  · have hsize' : v < t'.potential.size := by simpa using hv
    have hsize : v < t.potential.size := by simpa using hv'
    have hlt : v < net.nodeCount := by rwa [h.linked.sized.potential] at hsize
    have hshift := h.potentialOf_shift h' hnet hspanning hlt
    simpa [potentialOf, Row.get_natCast, Array.getD_eq_getD_getElem?, hsize, hsize'] using hshift

end Tree.Rooted

def Options.rootedAt (options : Options) (root : Int) : Options :=
  { options with root := .int root }

namespace Solver

variable {s s' : Solver} {options : Options} {nodeCount : Nat} {arcs : List Arc} {root root' : Int}

theorem pivotAround_perm (h : s.network.WellFormed) (hbland : s.useBland = true) {entering : Int}
    {way way' : List Int} (hcycle : s.network.IsCycle (way ++ [entering]))
    (hperm : way.Perm way') : s.pivotAround entering way' = s.pivotAround entering way := by
  have hcycles := hperm.append_right [entering]
  have hcost : s.network.cycleCost (way' ++ [entering]) = s.network.cycleCost (way ++ [entering]) :=
    (intSum_perm (hcycles.map s.network.cost)).symm
  simp only [pivotAround]
  rw [hbland, Network.bottleneck_perm hcycle hperm, Network.augment_perm h hcycle hcycles, hcost,
    hcycles.length_eq]

/-- Two solvers for one problem that differ in the root from which they see the tree. -/
structure Rerooted (options : Options) (root root' : Int) (nodeCount : Nat) (arcs : List Arc)
    (s s' : Solver) : Prop where
  sound : s.Sound (options.rootedAt root) nodeCount arcs
  sound' : s'.Sound (options.rootedAt root') nodeCount arcs
  same : s' = s.withView (options.rootedAt root') s'.tree

namespace Rerooted

section Frame

variable (h : Rerooted options root root' nodeCount arcs s s')
include h

theorem network_eq : s'.network = s.network := by
  rw [h.same]
  rfl

theorem totalCost_eq : s'.totalCost = s.totalCost := by
  rw [h.same]
  rfl

theorem monitor_eq : s'.monitor = s.monitor := by
  rw [h.same]
  rfl

theorem activeRule_eq : s'.activeRule = s.activeRule := by
  have hrule : s'.options.rule = s.options.rule := by
    rw [h.sound.options_eq, h.sound'.options_eq]
    rfl
  have huse : s'.useBland = s.useBland := by
    rw [h.same]
    rfl
  simp only [activeRule, hrule, huse]

theorem limits_eq (maxIterations interval : Value) :
    s'.limits maxIterations interval = s.limits maxIterations interval := by
  have hdefault : s'.defaultBudget = s.defaultBudget := by
    simp only [defaultBudget]
    rw [h.network_eq, h.sound.options_eq, h.sound'.options_eq]
    rfl
  simp only [limits, budgetOf, hdefault]

theorem refresh : Rerooted options root root' nodeCount arcs s.refresh.2 s'.refresh.2 := by
  refine ⟨h.sound.refresh, h.sound'.refresh, ?_⟩
  change { s' with tree := s'.refresh.2.tree } = s.refresh.2.withView _ s'.refresh.2.tree
  generalize s'.refresh.2.tree = looked
  rw [h.same]
  rfl

end Frame

section Bland

variable (hbland : options.rule = .bland) (h : Rerooted options root root' nodeCount arcs s s')
include hbland h

theorem find : ∃ found, s.find = (.ok found, s.refresh.2) ∧
    s'.find = (.ok found, s'.refresh.2) := by
  obtain ⟨hok, node, -, hrooted⟩ := h.sound.refresh_ok rfl
  obtain ⟨hok', node', -, hrooted'⟩ := h.sound'.refresh_ok rfl
  rw [h.network_eq] at hrooted'
  have hrule : s.activeRule = .bland := if_pos (h.sound.useBland_of_rule hbland)
  refine ⟨_, find_of_refresh hok, ?_⟩
  rw [find_of_refresh hok', h.activeRule_eq, hrule, h.network_eq]
  simp only [Rule.select]
  rw [hrooted.eligible_eq hrooted' h.sound.wellFormed h.sound.spanning]

/-- Around the way back that is found from either root the same pivot is made: the two ways run
between the same nodes of one tree, so they differ in the order of their arcs at most. -/
theorem pivotAround_eq {entering : Nat} (harc : Stored s.network.arcCount entering)
    (hoff : s.network.isTree entering = false) {way way' : List Int}
    (hback : s.refresh.2.wayBack entering = .ok way)
    (hback' : s'.refresh.2.wayBack entering = .ok way') :
    s'.refresh.2.pivotAround entering way' = ((s.refresh.2.pivotAround entering way).1,
      (s.refresh.2.pivotAround entering way).2.withView (options.rootedAt root')
        s'.refresh.2.tree) := by
  have hlooked := h.refresh
  have hnet := hlooked.sound.wellFormed
  have hway := wayBack_isWay hnet h.sound.refresh_linked harc hback
  have hway' := wayBack_isWay hlooked.sound'.wellFormed h.sound'.refresh_linked
    (by rw [hlooked.network_eq]; exact harc) hback'
  rw [hlooked.network_eq] at hway'
  have hperm := hway.perm hnet hlooked.sound.spanning.acyclic hway'
  have hrule : (options.rootedAt root').rule = s.refresh.2.options.rule := by
    rw [hlooked.sound.options_eq]
    rfl
  have hanti : (options.rootedAt root').antiCycling = s.refresh.2.options.antiCycling := by
    rw [hlooked.sound.options_eq]
    rfl
  have hview := pivotAround_withView hrule hanti s'.refresh.2.tree entering way'
  rwa [← hlooked.same, pivotAround_perm hnet (hlooked.sound.useBland_of_rule hbland)
    (hway.isCycle hnet harc hoff) hperm] at hview

theorem pivot {looked looked' : Solver} {entering : Nat}
    (hfind : s.find = (.ok (some entering), looked))
    (hfind' : s'.find = (.ok (some entering), looked')) :
    ∃ p events after after', looked.pivot entering = ⟨.ok p, after, events⟩ ∧
      looked'.pivot entering = ⟨.ok p, after', events⟩ ∧
      Rerooted options root root' nodeCount arcs after after' := by
  obtain ⟨p, events, made, _, hpivot, -, -, hmade⟩ := h.sound.pivotUnchecked_ok hfind
  obtain ⟨p', events', made', _, hpivot', -, -, hmade'⟩ := h.sound'.pivotUnchecked_ok hfind'
  obtain ⟨rfl, -, hselect⟩ := find_some hfind
  obtain ⟨rfl, -, -⟩ := find_some hfind'
  obtain ⟨hoff, -, way, hback, haround⟩ := pivotUnchecked_eq_ok_iff.mp hpivot
  obtain ⟨-, -, way', hback', haround'⟩ := pivotUnchecked_eq_ok_iff.mp hpivot'
  have hstored : Stored s.network.arcCount entering := by
    have hlt := (Rule.isEligible_of_select hselect).1
    exact ⟨by omega, by change (entering : Int) < s.refresh.2.network.arcCount; omega⟩
  have hsame := h.pivotAround_eq hbland hstored hoff hback hback'
  rw [haround', haround] at hsame
  simp only [Prod.mk.injEq, Except.ok.injEq] at hsame
  obtain ⟨⟨rfl, rfl⟩, hstate⟩ := hsame
  have hnext : Rerooted options root root' nodeCount arcs made made' :=
    ⟨hmade, hmade', by rw [hstate]; rfl⟩
  have hcheck : made'.options.checkInvariants = made.options.checkInvariants := by
    rw [hmade.options_eq, hmade'.options_eq]
    rfl
  refine ⟨_, _, _, _, hmade.pivot_of_unchecked (hmade.refresh_ok rfl).1 hpivot,
    hmade'.pivot_of_unchecked (hmade'.refresh_ok rfl).1 hpivot', ?_⟩
  rw [hcheck]
  split
  · exact hnext.refresh
  · exact hnext

theorem run (budget : Nat) : (s'.run budget).ticks = (s.run budget).ticks ∧
    (s'.run budget).ending = (s.run budget).ending ∧
    Rerooted options root root' nodeCount arcs (s.run budget).solver (s'.run budget).solver := by
  induction budget generalizing s s' with
  | zero =>
    obtain ⟨found, hfind, hfind'⟩ := h.find hbland
    cases found with
    | none =>
      rw [run_of_none hfind, run_of_none hfind']
      exact ⟨rfl, rfl, h.refresh⟩
    | some entering =>
      rw [run_zero_of_some hfind, run_zero_of_some hfind']
      exact ⟨rfl, rfl, h.refresh⟩
  | succ budget ih =>
    obtain ⟨found, hfind, hfind'⟩ := h.find hbland
    cases found with
    | none =>
      rw [run_of_none hfind, run_of_none hfind']
      exact ⟨rfl, rfl, h.refresh⟩
    | some entering =>
      obtain ⟨p, events, after, after', hpivot, hpivot', hafter⟩ := h.pivot hbland hfind hfind'
      obtain ⟨hticks, hending, hlast⟩ := ih hafter
      rw [run_succ_of_pivot hfind hpivot, run_succ_of_pivot hfind' hpivot']
      refine ⟨?_, hending, hlast⟩
      simp only [Run.after]
      rw [hticks, hafter.totalCost_eq, hafter.activeRule_eq]

theorem solution_eq {budget : Nat} (hend : (s.run budget).ending = .optimal) :
    ∃ shift : Int, (s'.run budget).solution = { (s.run budget).solution with
      potentials := (s.run budget).solution.potentials.map (· + shift) } := by
  obtain ⟨hticks, hending, hlast⟩ := h.run hbland budget
  obtain ⟨node, -, hrooted⟩ := (h.sound.run_done budget hend).rooted
  obtain ⟨node', -, hrooted'⟩ := (h.sound'.run_done budget (hending.trans hend)).rooted
  rw [hlast.network_eq] at hrooted'
  obtain ⟨shift, hpotentials⟩ :=
    hrooted.potentials_eq hrooted' hlast.sound.wellFormed hlast.sound.spanning
  refine ⟨shift, ?_⟩
  simp only [Run.solution, Run.iterations]
  rw [hticks, hlast.network_eq, hlast.totalCost_eq, hpotentials]

/-- Solves from both roots report the same, but for a constant in the potentials. -/
theorem solve (maxIterations interval : Value) :
    (s'.solve maxIterations interval).progress = (s.solve maxIterations interval).progress ∧
      (s'.solve maxIterations interval).events = (s.solve maxIterations interval).events ∧
      ((∃ sol, ∃ shift : Int, (s.solve maxIterations interval).result = .ok sol ∧
          (s'.solve maxIterations interval).result =
            .ok { sol with potentials := sol.potentials.map (· + shift) }) ∨
        ∃ fault, (s.solve maxIterations interval).result = .error fault ∧
          (s'.solve maxIterations interval).result = .error fault) := by
  simp only [Solver.solve]
  rw [h.limits_eq]
  cases s.limits maxIterations interval with
  | error fault => exact ⟨rfl, rfl, Or.inr ⟨fault, rfl, rfl⟩⟩
  | ok limits =>
    obtain ⟨budget, every⟩ := limits
    dsimp only
    obtain ⟨hticks, hending, hlast⟩ := h.run hbland (pivotsWithin budget)
    refine ⟨?_, ?_, ?_⟩
    · simp only [Run.progress]
      rw [hticks]
    · simp only [Run.events, Run.iterations]
      rw [hticks, hending, hlast.totalCost_eq, hlast.monitor_eq, h.network_eq, h.activeRule_eq,
        h.totalCost_eq]
    · simp only [Run.result]
      rw [hending]
      cases hend : (s.run (pivotsWithin budget)).ending with
      | optimal =>
        obtain ⟨shift, hsolution⟩ := h.solution_eq hbland hend
        exact Or.inl ⟨_, shift, rfl, congrArg Except.ok hsolution⟩
      | limit =>
        simp only [Run.iterations]
        rw [hticks, hlast.totalCost_eq]
        exact Or.inr ⟨_, rfl, rfl⟩
      | failed fault events => exact Or.inr ⟨fault, rfl, rfl⟩

end Bland

end Rerooted

theorem ofValues_rootedAt {count items : Value} {net : Network}
    (hnet : Network.ofValues count items = .ok net) (options : Options) {root : Nat}
    (hroot : root < net.nodeCount) : ofValues count items (options.rootedAt root) =
      .ok (start (options.rootedAt root) net) := by
  have hbeyond : ¬ (options.rootedAt root).root.isAtLeast net.nodeCount = true := by
    simpa [Options.rootedAt] using hroot
  simp only [ofValues]
  rw [hnet]
  exact if_neg hbeyond

theorem rerooted_start {net : Network} (hnet : net.Built arcs) (options : Options)
    {root root' : Nat} (hroot : root < net.nodeCount) (hroot' : root' < net.nodeCount) :
    Rerooted options root root' net.nodeCount arcs (start (options.rootedAt root) net)
      (start (options.rootedAt root') net) := by
  have hsound : ∀ {node : Nat}, node < net.nodeCount →
      (start (options.rootedAt node) net).Sound (options.rootedAt node) net.nodeCount arcs := by
    intro node hnode
    refine start_sound hnet rfl ?_ ?_
    · simp [Options.rootedAt]
    · simpa [Options.rootedAt] using hnode
  exact ⟨hsound hroot, hsound hroot', rfl⟩

/-- By the first-index rule it does not matter from which node a solve sees the tree. For every node
as its root a solver can be made, and with any budget all of them make the same pivots one after
another and come to the same end: the same fault, or solutions that differ by a constant in the
potentials at most. -/
theorem solve_rootedAt {count items : Value} {net : Network}
    (hnet : Network.ofValues count items = .ok net) (hbland : options.rule = .bland)
    {root root' : Nat} (hroot : root < net.nodeCount) (hroot' : root' < net.nodeCount) :
    ∃ start start' : Solver, ofValues count items (options.rootedAt root) = .ok start ∧
      ofValues count items (options.rootedAt root') = .ok start' ∧
      (∀ budget, (start'.run budget).ticks = (start.run budget).ticks) ∧
      ∀ maxIterations interval,
        let report := start.solve maxIterations interval
        let report' := start'.solve maxIterations interval
        report'.progress = report.progress ∧ report'.events = report.events ∧
          ((∃ sol, ∃ shift : Int, report.result = .ok sol ∧
              report'.result = .ok { sol with potentials := sol.potentials.map (· + shift) }) ∨
            ∃ fault, report.result = .error fault ∧ report'.result = .error fault) := by
  obtain ⟨_, arcs, -, -, harcs⟩ := Network.ofValues_eq_ok_iff.mp hnet
  obtain ⟨hbuilt, -⟩ := Network.ofArcs_ok harcs
  have hstart := rerooted_start hbuilt options hroot hroot'
  exact ⟨_, _, ofValues_rootedAt hnet options hroot, ofValues_rootedAt hnet options hroot',
    fun budget => (hstart.run hbland budget).1,
    fun maxIterations interval => hstart.solve hbland maxIterations interval⟩

set_option maxRecDepth 10000 in
theorem solve_rootedAt_triangle : ∃ (start start' : Solver) (sol : Solution) (shift : Int),
    ofValues (.int 3) triangle (checking.rootedAt 0) = .ok start ∧
      ofValues (.int 3) triangle (checking.rootedAt 2) = .ok start' ∧
      (start.run 3).iterations = 3 ∧ (start'.run 3).ticks = (start.run 3).ticks ∧
      (start.solve .null (.int 100)).result = .ok sol ∧ sol.potentials = [0, -2, -10] ∧
      (start'.solve .null (.int 100)).result =
        .ok { sol with potentials := sol.potentials.map (· + shift) } := by
  obtain ⟨net, hnet, hfirst, hlast⟩ : ∃ net, Network.ofValues (.int 3) triangle = .ok net ∧
      0 < net.nodeCount ∧ 2 < net.nodeCount := ⟨_, rfl, by decide, by decide⟩
  obtain ⟨known, sol, hknown, hcount, hsol, hpotentials⟩ : ∃ (known : Solver) (sol : Solution),
      ofValues (.int 3) triangle (checking.rootedAt 0) = .ok known ∧
        (known.run 3).iterations = 3 ∧ (known.solve .null (.int 100)).result = .ok sol ∧
        sol.potentials = [0, -2, -10] := ⟨_, _, rfl, rfl, rfl, rfl⟩
  have hbland : checking.rule = .bland := rfl
  obtain ⟨start, start', hstart, hstart', hticks, hsolve⟩ :=
    solve_rootedAt hnet hbland hfirst hlast
  cases hstart.symm.trans hknown
  obtain ⟨-, -, hreport⟩ := hsolve .null (.int 100)
  rcases hreport with ⟨sol', shift, hok, hok'⟩ | ⟨fault, herror, -⟩
  · cases hok.symm.trans hsol
    exact ⟨known, start', sol, shift, hstart, hstart', hcount, hticks 3, hsol, hpotentials, hok'⟩
  · cases herror.symm.trans hsol

end Solver

end Circulation
