import Circulation.Proofs.Optimality
import Circulation.Proofs.Range

/-!
Capacities and flags that were written over. The lists of arcs stay as they are, so that a look at
the tree shows what it showed before, whatever the flags say. Main results: the check of the tree
finds nothing exactly if twins have one flag and the flagged edges span the network; and if the
check of everything finds nothing, the flags agree with the lists, the flow keeps to the capacities,
and nothing of the same balance at every node costs less.
-/

namespace Circulation

open Adjacency (Stored)

namespace Adjacency

variable (adj : Adjacency) (flags : Array Bool)

theorem chain_withFlags (fuel : Nat) (arc : Int) :
    { adj with onTree := flags }.chain fuel arc = adj.chain fuel arc := by
  induction fuel generalizing arc with
  | zero => rfl
  | succ fuel ih =>
    have hnext : { adj with onTree := flags }.nextOf arc = adj.nextOf arc := rfl
    simp only [chain, hnext, ih]

theorem list_withFlags (tree : Bool) (node : Nat) :
    { adj with onTree := flags }.list tree node = adj.list tree node :=
  adj.chain_withFlags flags adj.next.size (adj.head tree node)

end Adjacency

namespace Network

/-- The network with other capacities and flags, and the lists as they are. -/
def overwrite (net : Network) (capacities : Vector Int64 net.arcCount)
    (flags : Vector Bool net.arcCount) : Network :=
  { net with
    residual := (capacities.toList.map Int64.toInt).toArray
    adjacency := { net.adjacency with onTree := flags.toArray } }

section Frame

variable (net : Network) (capacities : Vector Int64 net.arcCount) (flags : Vector Bool net.arcCount)

theorem head_overwrite (arc : Int) :
    (net.overwrite capacities flags).head arc = net.head arc := rfl

theorem arcsFrom_overwrite (node : Nat) (tree : Bool) :
    (net.overwrite capacities flags).arcsFrom node tree = net.arcsFrom node tree :=
  net.adjacency.list_withFlags flags.toArray tree node

theorem capacity_overwrite (arc : Int) : (net.overwrite capacities flags).capacity arc =
    (Row.get capacities.toArray arc 0).toInt := by
  have hmap : (net.overwrite capacities flags).residual = capacities.toArray.map Int64.toInt := by
    simp [overwrite, Vector.toList, ← List.map_toArray]
  rw [capacity, hmap]
  exact Row.get_map Int64.toInt capacities.toArray arc 0

end Frame

end Network

namespace Tree

variable (net : Network) (capacities : Vector Int64 net.arcCount) (flags : Vector Bool net.arcCount)

theorem Walk.reach_overwrite (w : Walk) (node arc : Int) :
    w.reach (net.overwrite capacities flags) node arc = w.reach net node arc := rfl

theorem Walk.scan_overwrite (node : Int) (arcs : List Int) (w : Walk) :
    scan (net.overwrite capacities flags) node arcs w = scan net node arcs w := by
  induction arcs generalizing w with
  | nil => rfl
  | cons arc arcs ih => simp only [scan, Network.head_overwrite, reach_overwrite, ih]

theorem Walk.run_overwrite (fuel : Nat) (w : Walk) :
    w.run (net.overwrite capacities flags) fuel = w.run net fuel := by
  induction fuel generalizing w with
  | zero => rfl
  | succ fuel ih =>
    have hnodes : (net.overwrite capacities flags).nodeCount = net.nodeCount := rfl
    simp only [run, hnodes, Network.arcsFrom_overwrite, scan_overwrite, ih]

/-- A look at the tree shows what the lists say. -/
theorem refresh_overwrite (t : Tree) :
    t.refresh (net.overwrite capacities flags) = t.refresh net := by
  have hnodes : (net.overwrite capacities flags).nodeCount = net.nodeCount := rfl
  have hlink : ∀ root arc, t.clear.link (net.overwrite capacities flags) root arc =
      t.clear.link net root arc := fun _ _ => rfl
  simp only [refresh, refreshFrom, refreshFromTruth, Walk.run_overwrite, hnodes, hlink,
    Network.arcsFrom_overwrite, Network.head_overwrite]

theorem Rooted.isTree_of_links {t : Tree} {net written : Network} {root : Nat}
    (h : t.Rooted net root) (hnet : net.WellFormed)
    (htwin : ∀ arc, Stored net.arcCount arc → written.isTree (twin arc) = written.isTree arc)
    (hlinks : ∀ v < net.nodeCount, v ≠ root → written.isTree (t.upArcOf v) = true) {arc : Int}
    (harc : Stored net.arcCount arc) (htree : net.isTree arc = true) :
    written.isTree arc = true := by
  have hflag : ∀ x, Stored net.arcCount x → t.upArcOf (net.tail x) = x →
      written.isTree x = true := by
    intro x hx hup
    have hroot : net.tail x ≠ root := by
      intro heq
      have hpos := hx.1
      rw [heq, h.upArcOf_root] at hup
      omega
    rw [← hup]
    exact hlinks _ (hnet.tail_lt x hx) hroot
  cases h.covers arc harc htree with
  | inl hup => exact hflag arc harc hup
  | inr hup =>
    rw [← htwin arc harc]
    exact hflag _ harc.twin (by rwa [Network.tail_twin])

end Tree

namespace Network

variable {net : Network} {count items : Value}

theorem isTree_twin_of_pairs
    (h : ∀ k : Nat, k < net.edgeCount → net.isTree (2 * k) = net.isTree (2 * k + 1)) {arc : Int}
    (harc : Stored net.arcCount arc) : net.isTree (twin arc) = net.isTree arc := by
  have hpair := h (pairOf arc) harc.pairOf_lt
  cases eq_forward_or_twin harc.1 with
  | inl heq =>
    rw [heq, twin_two_mul]
    exact hpair.symm
  | inr heq =>
    rw [heq, twin_twin, twin_two_mul]
    exact hpair

/-- The check of the tree finds nothing exactly if twins have one flag and the flagged edges are a
spanning tree: one less than there are nodes, no loop among them. -/
theorem treeViolations_overwrite (hbuilt : ofValues count items = .ok net)
    (capacities : Vector Int64 net.arcCount) (flags : Vector Bool net.arcCount) :
    let written := net.overwrite capacities flags
    written.treeViolations = [] ↔
      (∀ k : Nat, k < net.edgeCount → written.isTree (2 * k) = written.isTree (2 * k + 1)) ∧
        written.treePairs.length = net.nodeCount - 1 ∧
        IsSpanningTree net.nodeCount net.ends written.treeSet ∧
        ∀ k ∈ written.treeSet, (net.ends k).1 ≠ (net.ends k).2 := by
  intro written
  obtain ⟨_, _, -, -, harcs⟩ := ofValues_eq_ok_iff.mp hbuilt
  have hmade := (ofArcs_ok harcs).1
  have hends : ∀ k < written.edgeCount, written.tail (2 * (k : Nat)) < written.nodeCount ∧
      written.head (2 * (k : Nat)) < written.nodeCount := fun k hk =>
    ⟨hmade.wellFormed.tail_lt _ (Stored.forward hk), hmade.wellFormed.head_lt (Stored.forward hk)⟩
  have hpos : 0 < written.nodeCount := hmade.pos
  rw [treeViolations_eq_nil_iff hends hpos]
  refine and_congr_right fun _ => ⟨fun hspanning => ?_, fun h => h.2.1⟩
  exact ⟨length_treePairs hends hpos hspanning, hspanning, fun k hk => hspanning.no_loop hk⟩

set_option maxRecDepth 10000 in
theorem treeViolations_overwrite_triangle : ∃ net : Network,
    ∃ capacities : Vector Int64 net.arcCount, ∃ flags : Vector Bool net.arcCount,
      ofValues (.int 3) Solver.triangle = .ok net ∧ net.treePairs = [0, 1] ∧
        (net.overwrite capacities flags).treePairs = [1, 4] ∧
        IsSpanningTree net.nodeCount net.ends (net.overwrite capacities flags).treeSet := by
  obtain ⟨net, capacities, flags, hbuilt, hfirst, hpairs, hnone⟩ : ∃ net : Network,
      ∃ capacities : Vector Int64 net.arcCount, ∃ flags : Vector Bool net.arcCount,
        ofValues (.int 3) Solver.triangle = .ok net ∧ net.treePairs = [0, 1] ∧
          (net.overwrite capacities flags).treePairs = [1, 4] ∧
          (net.overwrite capacities flags).treeViolations = [] :=
    ⟨_, ⟨Array.replicate 10 0, rfl⟩,
      ⟨#[false, false, true, true, false, false, false, false, true, true], rfl⟩,
      rfl, rfl, rfl, by decide⟩
  exact ⟨net, capacities, flags, hbuilt, hfirst, hpairs,
    ((treeViolations_overwrite hbuilt capacities flags).mp hnone).2.2.1⟩

end Network

theorem toInt_add_of_nonneg {a b : Int64} (ha : 0 ≤ a.toInt) (hb : 0 ≤ b.toInt)
    (hsum : 0 ≤ (a + b).toInt) : a.toInt + b.toInt = (a + b).toInt := by
  have ha' := a.toInt_lt
  have hb' := b.toInt_lt
  rw [Int64.toInt_add] at hsum ⊢
  simp only [Int.bmod] at hsum ⊢
  split at hsum <;> omega

namespace Solver

def overwrite (s : Solver) (capacities : Vector Int64 s.network.arcCount)
    (flags : Vector Bool s.network.arcCount) : Solver :=
  { s with network := s.network.overwrite capacities flags }

variable {s start : Solver} {options : Options} {nodeCount : Nat} {arcs : List Arc}
variable {count items choices : Value}
variable {capacities : Vector Int64 s.network.arcCount} {flags : Vector Bool s.network.arcCount}

theorem refresh_overwrite : (s.overwrite capacities flags).refresh =
    (s.refresh.1, { s.refresh.2 with network := s.network.overwrite capacities flags }) := by
  simp only [Solver.refresh, overwrite, Tree.refresh_overwrite]

namespace Sound

variable (h : s.Sound options nodeCount arcs)
  (hvalid : ((s.overwrite capacities flags).validate true).1 = .ok [])
include h hvalid

theorem tree_of_validate :
    (∀ arc, Stored s.network.arcCount arc →
      (s.network.overwrite capacities flags).isTree (twin arc) =
        (s.network.overwrite capacities flags).isTree arc) ∧
      IsSpanningTree s.network.nodeCount s.network.ends
        (s.network.overwrite capacities flags).treeSet := by
  obtain ⟨hlook, -, htree, -⟩ := validate_eq_nil_iff.mp hvalid
  rw [refresh_overwrite] at hlook
  have hends : ∀ k < (s.overwrite capacities flags).network.edgeCount,
      (s.overwrite capacities flags).network.tail (2 * (k : Nat)) < s.network.nodeCount ∧
        (s.overwrite capacities flags).network.head (2 * (k : Nat)) < s.network.nodeCount :=
    fun k hk => h.ends_lt hk
  obtain ⟨hpairs, hspanning⟩ :=
    (Network.treeViolations_eq_nil_iff hends (h.nodeCount_pos hlook)).mp htree
  exact ⟨fun arc harc => Network.isTree_twin_of_pairs hpairs harc, hspanning⟩

theorem isTree_of_validate {arc : Int} (harc : Stored s.network.arcCount arc) :
    (s.network.overwrite capacities flags).isTree arc = s.network.isTree arc := by
  obtain ⟨htwin, hspanning⟩ := h.tree_of_validate hvalid
  obtain ⟨hlook, -, -, hlinks, -⟩ := validate_eq_nil_iff.mp hvalid
  rw [refresh_overwrite] at hlook hlinks
  obtain ⟨root, hname, hrooted⟩ := h.refresh_rooted hlook
  have hlisted : ∀ x, Stored s.network.arcCount x → s.network.isTree x = true →
      (s.network.overwrite capacities flags).isTree x = true := by
    intro x hx
    refine hrooted.isTree_of_links h.wellFormed htwin (fun v hv hroot => ?_) hx
    have hsized : s.refresh.2.tree.Sized (s.network.overwrite capacities flags).nodeCount :=
      hrooted.linked.sized
    obtain ⟨-, hhangs⟩ := (Network.bookkeepingFrom_eq_nil_iff hsized).mp hlinks
    have hother : s.refresh.2.tree.isRoot v = false := by
      rw [hname, decide_eq_false_iff_not]
      omega
    obtain ⟨_, _, -, hhangs⟩ := hhangs v (List.mem_range.mpr hv) hother
    rw [hhangs.upArcOf_eq]
    exact hhangs.isTree
  have hsub : s.network.treeSet ⊆ (s.network.overwrite capacities flags).treeSet :=
    fun k hk => ⟨hk.1, hlisted _ (Stored.forward hk.1) hk.2⟩
  have hsame := h.spanning.eq_of_subset hspanning.acyclic hsub fun k hk => h.ends_lt hk.1
  have hflag : pairOf arc ∈ (s.network.overwrite capacities flags).treeSet ↔
      (s.network.overwrite capacities flags).isTree arc = true :=
    Network.mem_treeSet_of_twin htwin harc
  rw [Bool.eq_iff_iff, ← h.wellFormed.mem_treeSet harc, ← hsame, hflag]

theorem capacities_of_validate (hcheck : NumericRange.check arcs = .ok ()) :
    (∀ arc, Stored s.network.arcCount arc →
      0 ≤ (s.network.overwrite capacities flags).capacity arc) ∧
    ∀ k : Nat, k < s.network.edgeCount →
      (s.network.overwrite capacities flags).capacity (2 * k) +
        (s.network.overwrite capacities flags).capacity (2 * k + 1) =
          (s.network.edgeOf (2 * k)).capacity := by
  obtain ⟨-, hcapacities, -⟩ := validate_eq_nil_iff.mp hvalid
  have hlength : (s.overwrite capacities flags).initialTotals.length =
      (s.overwrite capacities flags).network.edgeCount := by
    change s.initialTotals.length = s.network.edgeCount
    rw [h.totals_eq]
    simp [Network.pairTotals]
  obtain ⟨htotals, hnonneg⟩ := (Network.capacityViolations_eq_nil_iff hlength).mp hcapacities
  have hpos : ∀ arc, Stored s.network.arcCount arc →
      0 ≤ (s.network.overwrite capacities flags).capacity arc := by
    intro arc harc
    obtain ⟨n, rfl⟩ := Int.eq_ofNat_of_zero_le harc.1
    exact hnonneg n (Int.ofNat_lt.mp harc.2)
  refine ⟨hpos, fun k hk => ?_⟩
  have hforward := hpos _ (Stored.forward hk)
  have hback := hpos _ (Stored.backward hk)
  have hkept := List.map_inj_left.mp (htotals.trans h.totals_eq) k (List.mem_range.mpr hk)
  -- the words add up to what they added up to before, which is in range
  have hedge := h.carries.edgeOf_capacity_le hcheck (Stored.forward hk)
  simp only [rangeLimit] at hedge
  simp only [overwrite, Network.capacity_overwrite, Int64.ofInt_toInt] at hforward hback hkept ⊢
  rw [← Int64.ofInt_add, h.circulates.pair_total k hk,
    Int64.toInt_ofInt_of_le (by omega) (by omega)] at hkept
  rw [toInt_add_of_nonneg hforward hback (by omega), hkept]

theorem flow_of_validate (hcheck : NumericRange.check arcs = .ok ()) (k : Fin arcs.length) :
    0 ≤ (s.network.overwrite capacities flags).flowOn arcs k ∧
      (s.network.overwrite capacities flags).flowOn arcs k ≤ (arcs.get k).capacity ∧
      (s.network.overwrite capacities flags).flowOn arcs k =
        (arcs.get k).capacity - (s.network.overwrite capacities flags).capacity (2 * (k : Nat)) ∧
      (s.network.overwrite capacities flags).flowOn arcs k =
        (s.network.overwrite capacities flags).capacity (2 * (k : Nat) + 1) := by
  have hk := h.carries.lt_edgeCount k
  obtain ⟨hpos, htotal⟩ := h.capacities_of_validate hvalid hcheck
  have hforward := hpos _ (Stored.forward hk)
  have hback := hpos _ (Stored.backward hk)
  have hsum := htotal k hk
  have hcapacity : ((s.network.edgeOf (2 * (k : Nat))).capacity : Int) = (arcs.get k).capacity :=
    congrArg Nat.cast (h.carries.capacity_eq k k.isLt)
  have hflow : (s.network.overwrite capacities flags).flowOn arcs k =
      (s.network.edgeOf (2 * (k : Nat))).capacity -
        (s.network.overwrite capacities flags).capacity (2 * (k : Nat)) :=
    (s.network.overwrite capacities flags).flow_eq_sub k
  omega

/-- What passes the check of optimality costs least among what has the same balance. -/
theorem least_of_validate (hcheck : NumericRange.check arcs = .ok ()) {y : Fin arcs.length → Int}
    (hbalance : SameBalance arcs ((s.network.overwrite capacities flags).flowOn arcs) y)
    (hnonneg : ∀ k, 0 ≤ y k) (hwithin : ∀ k, y k ≤ (arcs.get k).capacity) :
    costOf arcs ((s.network.overwrite capacities flags).flowOn arcs) ≤ costOf arcs y := by
  have hcarries : (s.network.overwrite capacities flags).Carries arcs := h.carries.congr rfl
  obtain ⟨-, -, -, -, hoptimal⟩ := validate_eq_nil_iff.mp hvalid
  rw [refresh_overwrite, Network.optimalityViolations_eq_nil_iff (by
    exact (h.refresh.withinRange hcheck h.refresh_within).reducedCost)] at hoptimal
  have hroom : ∀ arc, Stored s.network.arcCount arc →
      0 < (s.network.overwrite capacities flags).capacity arc →
        0 ≤ (s.network.overwrite capacities flags).reducedCost s.refresh.2.tree arc := by
    intro arc harc
    obtain ⟨n, rfl⟩ := Int.eq_ofNat_of_zero_le harc.1
    exact hoptimal n (Int.ofNat_lt.mp harc.2)
  have hreduced : ∀ k, reducedCostOf arcs s.refresh.2.tree.potentialOf k =
      (s.network.overwrite capacities flags).reducedCost s.refresh.2.tree (2 * (k : Nat)) :=
    fun k => by simpa using hcarries.reducedCostOf_eq (R := Int) s.refresh.2.tree k
  have hedge := h.carries.lt_edgeCount
  refine hbalance.costOf_le hnonneg hwithin s.refresh.2.tree.potentialOf (fun k hpos => ?_)
    (fun k hneg => ?_)
  · obtain ⟨hflow, -, -, hback⟩ := h.flow_of_validate hvalid hcheck k
    have hstored : Stored s.network.arcCount (twin (2 * (k : Nat))) :=
      (Stored.forward (hedge k)).twin
    have hless := hroom _ hstored
    rw [Network.reducedCost_twin, twin_two_mul] at hless
    rw [hreduced] at hpos
    omega
  · obtain ⟨-, hle, hforward, -⟩ := h.flow_of_validate hvalid hcheck k
    have hless := hroom _ (Stored.forward (hedge k))
    rw [hreduced] at hneg
    change _ = ((arcs.get k).capacity : Int)
    omega

end Sound

/-- To pass every check is to be of least cost, also for a solver whose capacities and flags were
written over. Then the flow keeps to the capacities and can be taken back, the flagged arcs are those
of the tree lists and span the network, and nothing within the capacities that leaves every node with
the same balance costs less. -/
theorem certified_of_validate (hoptions : Options.ofValue choices = .ok options)
    (hstart : ofValues count items options = .ok start) (hreach : start.Reachable s)
    (capacities : Vector Int64 s.network.arcCount) (flags : Vector Bool s.network.arcCount)
    (hvalid : ((s.overwrite capacities flags).validate true).1 = .ok []) :
    let net := s.network.overwrite capacities flags
    ∃ arcs, Arc.listOfValue items = .ok arcs ∧ net.Carries arcs ∧
      (∀ k, 0 ≤ net.flowOn arcs k ∧ net.flowOn arcs k ≤ (arcs.get k).capacity ∧
        net.flowOn arcs k = (arcs.get k).capacity - net.capacity (2 * (k : Nat)) ∧
        net.flowOn arcs k = net.capacity (2 * (k : Nat) + 1)) ∧
      (∀ arc : Nat, arc < net.arcCount → (net.isTree arc = true ↔
        ∃ node < net.nodeCount, (arc : Int) ∈ net.arcsFrom node true)) ∧
      (∀ k : Nat, k < net.edgeCount → net.isTree (2 * k) = net.isTree (2 * k + 1)) ∧
      IsSpanningTree net.nodeCount net.ends net.treeSet ∧
      ∀ y : Fin arcs.length → Int, (∀ k, 0 ≤ y k ∧ y k ≤ (arcs.get k).capacity) →
        (∀ node, outflow arcs y node - inflow arcs y node =
          outflow arcs (net.flowOn arcs) node - inflow arcs (net.flowOn arcs) node) →
        costOf arcs (net.flowOn arcs) ≤ costOf arcs y := by
  intro net
  obtain ⟨_, arcs, -, harcs, hfirst⟩ := ofValues_sound hoptions hstart
  have h := hfirst.reachable hreach
  have hcheck := check_of_ofValues hstart harcs
  obtain ⟨htwin, hspanning⟩ := h.tree_of_validate hvalid
  refine ⟨arcs, harcs, h.carries.congr rfl, h.flow_of_validate hvalid hcheck, fun arc harc => ?_,
    fun k hk => ?_, hspanning, fun y hy hbalance => ?_⟩
  · have hstored : Stored s.network.arcCount arc := ⟨Int.natCast_nonneg arc, Int.ofNat_lt.mpr harc⟩
    rw [h.isTree_of_validate hvalid hstored]
    constructor
    · intro htree
      refine ⟨s.network.tail arc, h.wellFormed.tail_lt _ hstored, ?_⟩
      rw [Network.arcsFrom_overwrite, h.wellFormed.mem_arcsFrom (h.wellFormed.tail_lt _ hstored)]
      exact ⟨hstored, rfl, htree⟩
    · rintro ⟨node, hnode, hmem⟩
      rw [Network.arcsFrom_overwrite, h.wellFormed.mem_arcsFrom hnode] at hmem
      exact hmem.2.2
  · have hflag := htwin _ (Stored.forward hk)
    rw [twin_two_mul] at hflag
    exact hflag.symm
  · exact h.least_of_validate hvalid hcheck hbalance (fun k => (hy k).1) fun k => (hy k).2

def doubled : Value :=
  .list [.list [.int 0, .int 1, .int 5, .int 1], .list [.int 0, .int 1, .int 5, .int 3]]

set_option maxRecDepth 10000 in
/-- Three units that are written onto the cheaper arc leave the one node and arrive at the other, for
the least that this can cost. -/
theorem certified_of_validate_doubled : ∃ s : Solver,
    ∃ capacities : Vector Int64 s.network.arcCount, ∃ flags : Vector Bool s.network.arcCount,
      ofValues (.int 2) doubled Options.standard = .ok s ∧
        (s.network.overwrite capacities flags).flows = [3, 0] ∧
        ∃ arcs, Arc.listOfValue doubled = .ok arcs ∧
          ∀ y : Fin arcs.length → Int, (∀ k, 0 ≤ y k ∧ y k ≤ (arcs.get k).capacity) →
            (∀ node, outflow arcs y node - inflow arcs y node =
              outflow arcs ((s.network.overwrite capacities flags).flowOn arcs) node -
                inflow arcs ((s.network.overwrite capacities flags).flowOn arcs) node) →
            costOf arcs ((s.network.overwrite capacities flags).flowOn arcs) ≤ costOf arcs y := by
  obtain ⟨s, capacities, flags, hstart, hflows, hvalid⟩ : ∃ s : Solver,
      ∃ capacities : Vector Int64 s.network.arcCount, ∃ flags : Vector Bool s.network.arcCount,
        ofValues (.int 2) doubled Options.standard = .ok s ∧
          (s.network.overwrite capacities flags).flows = [3, 0] ∧
          ((s.overwrite capacities flags).validate true).1 = .ok [] :=
    ⟨_, ⟨#[2, 3, 5, 0], rfl⟩, ⟨#[true, true, false, false], rfl⟩, rfl, rfl, rfl⟩
  have hoptions : Options.ofValue .null = .ok Options.standard := rfl
  obtain ⟨arcs, harcs, -, -, -, -, -, hleast⟩ :=
    certified_of_validate hoptions hstart .start capacities flags hvalid
  exact ⟨s, capacities, flags, hstart, hflows, arcs, harcs, hleast⟩

end Solver

end Circulation
