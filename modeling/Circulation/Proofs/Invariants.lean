import Circulation.Proofs.Checking

/-!
What a caller may rely on in every state of a solver: the flow and the tree in terms of the arcs
that the caller gave.
-/

namespace Circulation

open Adjacency (Stored)

namespace Network

variable {net : Network} {arcs : List Arc}

def flowOn (net : Network) (arcs : List Arc) (k : Fin arcs.length) : Int := net.flow k

theorem Carries.gain_eq (h : net.Carries arcs) (value : Int → Int) :
    net.gain value = ∑ k : Fin arcs.length, net.flow k * value (2 * (k : Nat)) := by
  simp only [gain]
  rw [h.edgeCount_eq, Finset.sum_range]

theorem Carries.costOf_flowOn (h : net.Carries arcs) :
    costOf arcs (net.flowOn arcs) = net.gain net.cost := by
  rw [h.gain_eq]
  simp only [costOf, flowOn]
  refine Finset.sum_congr rfl fun k _ => ?_
  rw [h.cost_eq k k.isLt]
  rfl

/-- What arrives at a node leaves it. -/
theorem Carries.balanced (h : net.Carries arcs) (hcirculates : net.Circulates) (node : Int) :
    inflow arcs (net.flowOn arcs) node = outflow arcs (net.flowOn arcs) node := by
  have hzero := hcirculates.balanced fun v => if (v : Int) = node then 1 else 0
  rw [h.gain_eq] at hzero
  have hsplit : ∀ k : Fin arcs.length, net.flow k *
      ((if (net.tail (2 * (k : Nat)) : Int) = node then 1 else 0) -
        (if (net.head (2 * (k : Nat)) : Int) = node then 1 else 0)) =
      (if (arcs.get k).tail = node then net.flow k else 0) -
        (if (arcs.get k).head = node then net.flow k else 0) := by
    intro k
    rw [h.tail_eq k k.isLt, h.head_eq k k.isLt, Int.mul_sub, mul_ite, mul_ite, mul_one, mul_zero]
    rfl
  simp only [hsplit, Finset.sum_sub_distrib] at hzero
  simp only [inflow, outflow, flowOn]
  omega

theorem Carries.lt_edgeCount (h : net.Carries arcs) (k : Fin arcs.length) :
    (k : Nat) < net.edgeCount := by
  rw [h.edgeCount_eq]
  exact k.isLt

theorem Carries.capacity_add_flow (h : net.Carries arcs) (hcirculates : net.Circulates)
    (k : Fin arcs.length) : net.capacity (2 * (k : Nat)) + net.flow k = (arcs.get k).capacity := by
  have hk := h.lt_edgeCount k
  rw [hcirculates.flow_eq hk, hcirculates.pair_total k hk, h.capacity_eq k k.isLt]
  rfl

theorem Carries.isCirculation (h : net.Carries arcs) (hcirculates : net.Circulates) :
    IsCirculation arcs (net.flowOn arcs) := by
  have hlt := h.lt_edgeCount
  refine ⟨fun k => ?_, fun k => ?_, h.balanced hcirculates⟩
  · have hstored : Stored net.arcCount (2 * (k : Nat)) := Stored.forward (hlt k)
    have hnonneg := hcirculates.capacity_nonneg _ hstored.twin
    rw [twin_two_mul] at hnonneg
    simp only [flowOn]
    rwa [hcirculates.flow_eq (hlt k)]
  · have hstored : Stored net.arcCount (2 * (k : Nat)) := Stored.forward (hlt k)
    have hnonneg := hcirculates.capacity_nonneg _ hstored
    have htotal := h.capacity_add_flow hcirculates k
    simp only [flowOn]
    omega

theorem nodeCountOf_pos {count : Value} {nodeCount : Nat} (h : nodeCountOf count = .ok nodeCount) :
    0 < nodeCount := by
  simp only [nodeCountOf] at h
  split at h
  · split at h
    · cases h
    · cases h
      omega
  · cases h

end Network

namespace Solver

variable {options : Options} {start s : Solver} {count items choices : Value}

def triangle : Value :=
  .list [.list [.int 0, .int 1, .int 5, .int 2], .list [.int 1, .int 2, .int 3, .int 1],
    .list [.int 2, .int 0, .int 5, .int (-10)], .list [.int 1, .int 1, .int 4, .int (-1)],
    .list [.int 2, .int 0, .int 1, .int (-12)]]

def checking : Options := ⟨none, .bland, true, none, .int 2, true⟩

theorem ofValue_checking : Options.ofValue (.record [("pricing_strategy", .text "bland"),
    ("root", .int 2), ("check_invariants", .bool true)]) = .ok checking := rfl

set_option maxRecDepth 10000 in
theorem reachable_triangle : ∃ start s : Solver,
    ofValues (.int 3) triangle checking = .ok start ∧ start.Reachable s ∧
      s.network.flows = [3, 3, 2, 4, 1] ∧ s.totalCost = -27 := by
  refine ⟨_, _, rfl, .solve .null (.int 1) (.solve (.int 1) (.int 1)
    (.pivot (by decide : 6 < _) rfl (.find .start))), ?_⟩
  exact ⟨rfl, rfl⟩

/-- In every state the two capacities of a pair are not negative and make up the capacity of its
arc, what flows along the arc can be taken back, the flow is balanced at every node, and the total
cost is the cost of the flow. -/
theorem circulation_of_reachable (hoptions : Options.ofValue choices = .ok options)
    (hstart : ofValues count items options = .ok start) (h : start.Reachable s) :
    ∃ arcs, Arc.listOfValue items = .ok arcs ∧ s.network.Carries arcs ∧
      (∀ k (hk : k < arcs.length), 0 ≤ s.network.capacity (2 * k) ∧
        0 ≤ s.network.capacity (2 * k + 1) ∧
        s.network.capacity (2 * k) + s.network.capacity (2 * k + 1) = arcs[k].capacity ∧
        s.network.capacity (2 * k + 1) = s.network.flow k) ∧
      (∀ node, inflow arcs (s.network.flowOn arcs) node =
        outflow arcs (s.network.flowOn arcs) node) ∧
      s.totalCost = costOf arcs (s.network.flowOn arcs) := by
  obtain ⟨_, arcs, _, harcs, hfirst⟩ := ofValues_sound hoptions hstart
  have hsound := hfirst.reachable h
  have hcirculates := hsound.circulates
  refine ⟨arcs, harcs, hsound.carries, fun k hk => ?_, hsound.carries.balanced hcirculates, ?_⟩
  · have hlt : k < s.network.edgeCount := by rwa [hsound.carries.edgeCount_eq]
    have hstored : Stored s.network.arcCount (2 * k) := Stored.forward hlt
    have hback := hcirculates.capacity_nonneg _ hstored.twin
    rw [twin_two_mul] at hback
    refine ⟨hcirculates.capacity_nonneg _ hstored, hback, ?_, (hcirculates.flow_eq hlt).symm⟩
    rw [hcirculates.pair_total k hlt, hsound.carries.capacity_eq k hk]
  · rw [hsound.totalCost_eq, hsound.carries.costOf_flowOn]

theorem circulation_of_reachable_triangle : ∃ start s : Solver, ∃ arcs,
    ofValues (.int 3) triangle checking = .ok start ∧ start.Reachable s ∧
      s.network.flows = [3, 3, 2, 4, 1] ∧ Arc.listOfValue triangle = .ok arcs ∧
      (∀ node, inflow arcs (s.network.flowOn arcs) node =
        outflow arcs (s.network.flowOn arcs) node) ∧
      costOf arcs (s.network.flowOn arcs) = -27 := by
  obtain ⟨start, s, hstart, hreach, hflows, hcost⟩ := reachable_triangle
  obtain ⟨arcs, harcs, _, _, hbalanced, htotal⟩ :=
    circulation_of_reachable ofValue_checking hstart hreach
  exact ⟨start, s, arcs, hstart, hreach, hflows, harcs, hbalanced, htotal.symm.trans hcost⟩

/-- An arc that carries flow and has room for more is on the tree. -/
theorem Sound.isTree_of_flow {nodeCount : Nat} {arcs : List Arc}
    (h : s.Sound options nodeCount arcs) (k : Fin arcs.length)
    (hflow : 0 < s.network.flowOn arcs k)
    (hroom : s.network.flowOn arcs k < (arcs.get k).capacity) :
    s.network.isTree (2 * (k : Nat)) = true := by
  by_contra hoff
  have hlt := h.carries.lt_edgeCount k
  have htotal := h.carries.capacity_add_flow h.circulates k
  have hback := h.circulates.flow_eq hlt
  simp only [Network.flowOn] at hflow hroom
  cases h.atBounds k hlt (by simpa using hoff) with
  | inl hzero => omega
  | inr hzero => omega

/-- In every state the two arcs of a pair have one flag, the flagged pairs are a spanning tree and
one less than there are nodes, and every other pair has a capacity that is used up. An arc that
carries flow and has room for more is on the tree. -/
theorem basis_of_reachable (hoptions : Options.ofValue choices = .ok options)
    (hstart : ofValues count items options = .ok start) (h : start.Reachable s) :
    ∃ nodeCount arcs, Network.nodeCountOf count = .ok nodeCount ∧
      Arc.listOfValue items = .ok arcs ∧ s.network.Carries arcs ∧
      (∀ k : Nat, k < arcs.length → s.network.isTree (2 * k) = s.network.isTree (2 * k + 1)) ∧
      s.network.treePairs.length = nodeCount - 1 ∧
      IsSpanningTree nodeCount s.network.ends s.network.treeSet ∧
      (∀ k ∈ s.network.treeSet, (s.network.ends k).1 ≠ (s.network.ends k).2) ∧
      (∀ k : Nat, k < arcs.length → s.network.isTree (2 * k) = false →
        s.network.capacity (2 * k) = 0 ∨ s.network.capacity (2 * k + 1) = 0) ∧
      ∀ k (hk : k < arcs.length), 0 < s.network.flow k → s.network.flow k < arcs[k].capacity →
        s.network.isTree (2 * k) = true := by
  obtain ⟨nodeCount, arcs, hcount, harcs, hfirst⟩ := ofValues_sound hoptions hstart
  have hsound := hfirst.reachable h
  have hnodes := hsound.nodeCount_eq
  have hedges := hsound.carries.edgeCount_eq
  have hspanning := hsound.spanning
  have hpos : 0 < s.network.nodeCount := by
    rw [hnodes]
    exact Network.nodeCountOf_pos hcount
  refine ⟨nodeCount, arcs, hcount, harcs, hsound.carries, fun k hk => ?_, ?_, ?_, ?_,
    fun k hk => ?_, fun k hk hflow hroom => ?_⟩
  · have hstored : Stored s.network.arcCount (2 * k) := Stored.forward (by rwa [← hedges] at hk)
    have htwin := hsound.wellFormed.isTree_twin _ hstored
    rw [twin_two_mul] at htwin
    exact htwin.symm
  · rw [Network.length_treePairs (fun k hk => hsound.ends_lt hk) hpos hspanning, hnodes]
  · rwa [hnodes] at hspanning
  · exact fun k hk => hspanning.no_loop hk
  · exact hsound.atBounds k (by rwa [hedges])
  · exact hsound.isTree_of_flow ⟨k, hk⟩ hflow hroom

theorem basis_of_reachable_triangle : ∃ start s : Solver,
    ofValues (.int 3) triangle checking = .ok start ∧ start.Reachable s ∧
      s.network.flows = [3, 3, 2, 4, 1] ∧ s.network.treePairs.length = 2 ∧
      IsSpanningTree 3 s.network.ends s.network.treeSet := by
  obtain ⟨start, s, hstart, hreach, hflows, -⟩ := reachable_triangle
  obtain ⟨nodeCount, _, hcount, _, _, _, hlength, hspanning, _⟩ :=
    basis_of_reachable ofValue_checking hstart hreach
  have hthree : (3 : Nat) = nodeCount := Except.ok.inj hcount
  subst hthree
  exact ⟨start, s, hstart, hreach, hflows, hlength, hspanning⟩

end Solver

end Circulation
