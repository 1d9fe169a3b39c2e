import Circulation.Proofs.Invariants

/-!
Why the bounds on the arcs are enough. A way through a tree passes each edge at most once, so that
no potential exceeds the sum of all costs, and no flow within the capacities costs more than all
arcs do when they are full. A number in range is what its word stands for. Main result: in every
state no number of the solver, and none that comes up while it is worked out, leaves the range.
-/

namespace Circulation

open Adjacency (Stored)
open Finset (range)

def InRange (n : Int) : Prop := n.natAbs ≤ rangeLimit

theorem InRange.of_le {n : Int} {m : Nat} (hpos : 0 ≤ n) (hle : n ≤ m) (hm : m ≤ rangeLimit) :
    InRange n := by
  simp only [InRange]
  omega

namespace Network

variable {net : Network} {t : Tree}

/-- Wrapping around at each step comes to the same as wrapping around at the end. -/
theorem wordCost_eq (net : Network) (t : Tree) (arc : Int) :
    net.wordCost t arc = .ofInt (net.reducedCost t arc) := by
  rw [wordCost, reducedCost, Int64.ofInt_add, Int64.ofInt_sub]

theorem toInt_wordCost {arc : Int} (h : InRange (net.reducedCost t arc)) :
    (net.wordCost t arc).toInt = net.reducedCost t arc := by
  simp only [InRange, rangeLimit] at h
  rw [wordCost_eq, Int64.toInt_ofInt_of_le (by omega) (by omega)]

theorem optimalityViolations_eq_nil_iff
    (hrange : ∀ arc < net.arcCount, InRange (net.reducedCost t (arc : Nat))) :
    net.optimalityViolations t = [] ↔
      ∀ arc < net.arcCount, 0 < net.capacity (arc : Nat) → 0 ≤ net.reducedCost t (arc : Nat) := by
  simp only [optimalityViolations, List.map_eq_nil_iff, List.take_eq_nil_iff, reportLimit,
    OfNat.ofNat_ne_zero, false_or, List.filter_eq_nil_iff, List.mem_range, Bool.and_eq_true,
    decide_eq_true_eq, not_and]
  refine forall₂_congr fun arc harc => imp_congr_right fun _ => ?_
  rw [Int64.lt_iff_toInt_lt, toInt_wordCost (hrange arc harc), Int64.toInt_zero, Int.not_lt]

end Network

namespace NumericRange

variable {arcs : List Arc}

theorem check_eq_ok_iff : check arcs = .ok () ↔
    (∀ a ∈ arcs, a.capacity ≤ rangeLimit) ∧ costBound arcs ≤ rangeLimit ∧
      3 * potentialBound arcs ≤ rangeLimit := by
  simp only [check]
  cases hlarge : arcs.find? fun a => rangeLimit < a.capacity with
  | some a =>
    have hmem := List.mem_of_find?_eq_some hlarge
    have hbeyond := List.find?_some hlarge
    rw [decide_eq_true_eq] at hbeyond
    exact iff_of_false nofun fun h => absurd (h.1 a hmem) (by omega)
  | none =>
    rw [List.find?_eq_none] at hlarge
    have hsmall : ∀ a ∈ arcs, a.capacity ≤ rangeLimit := fun a ha => by simpa using hlarge a ha
    by_cases hcost : rangeLimit < costBound arcs
    · simp only [if_pos hcost]
      exact iff_of_false nofun fun h => absurd h.2.1 (by omega)
    · by_cases hpotential : rangeLimit < 3 * potentialBound arcs
      · simp only [if_neg hcost, if_pos hpotential]
        exact iff_of_false nofun fun h => absurd h.2.2 (by omega)
      · simp only [if_neg hcost, if_neg hpotential]
        exact iff_of_true trivial ⟨hsmall, by omega, by omega⟩

theorem natSum_map_eq (arcs : List Arc) (f : Arc → Nat) :
    natSum (arcs.map f) = ∑ k : Fin arcs.length, f (arcs.get k) :=
  (Fin.sum_univ_fun_getElem arcs f).symm

end NumericRange

open NumericRange (costBound potentialBound)

namespace Network

variable {net : Network} {arcs : List Arc}

theorem natAbs_cost (net : Network) {arc : Int} (h : 0 ≤ arc) :
    (net.cost arc).natAbs = (net.cost (2 * pairOf arc)).natAbs := by
  cases eq_forward_or_twin h with
  | inl heq => rw [← heq]
  | inr heq =>
    conv_lhs => rw [heq, cost_twin, Int.natAbs_neg]

/-- Arcs of different edges cost no more together than all arcs do. -/
theorem natAbs_cycleCost_le (hcarries : net.Carries arcs) {way : List Int}
    (hstored : ∀ x ∈ way, Stored net.arcCount x) (hnodup : (way.map pairOf).Nodup) :
    (net.cycleCost way).natAbs ≤ potentialBound arcs := by
  have hsum : net.cycleCost way = ∑ x ∈ way.toFinset, net.cost x :=
    (List.sum_toFinset net.cost hnodup.of_map).symm
  have hinj : Set.InjOn pairOf (way.toFinset : Set Int) := fun x hx y hy =>
    List.inj_on_of_nodup_map hnodup (List.mem_toFinset.mp hx) (List.mem_toFinset.mp hy)
  have hpairs : way.toFinset.image pairOf ⊆ range net.edgeCount := by
    intro k hk
    obtain ⟨x, hx, rfl⟩ := Finset.mem_image.mp hk
    exact Finset.mem_range.mpr (hstored x (List.mem_toFinset.mp hx)).pairOf_lt
  calc (net.cycleCost way).natAbs
      ≤ ∑ x ∈ way.toFinset, (net.cost x).natAbs := hsum ▸ Int.natAbs_sum_le _ _
    _ = ∑ x ∈ way.toFinset, (net.cost (2 * pairOf x)).natAbs :=
        Finset.sum_congr rfl fun x hx =>
          net.natAbs_cost (hstored x (List.mem_toFinset.mp hx)).1
    _ = ∑ k ∈ way.toFinset.image pairOf, (net.cost (2 * k)).natAbs :=
        (Finset.sum_image (f := fun k : Nat => (net.cost (2 * k)).natAbs) hinj).symm
    _ ≤ ∑ k ∈ range net.edgeCount, (net.cost (2 * k)).natAbs :=
        Finset.sum_le_sum_of_subset hpairs
    _ = potentialBound arcs := by
        rw [potentialBound, NumericRange.natSum_map_eq, hcarries.edgeCount_eq, Finset.sum_range]
        refine Finset.sum_congr rfl fun k _ => ?_
        rw [hcarries.cost_eq k k.isLt]
        rfl

theorem natAbs_cost_le (hcarries : net.Carries arcs) {arc : Int} (harc : Stored net.arcCount arc) :
    (net.cost arc).natAbs ≤ potentialBound arcs := by
  have hone : (net.cycleCost [arc]).natAbs ≤ potentialBound arcs := natAbs_cycleCost_le hcarries
    (fun x hx => by rwa [List.mem_singleton.mp hx]) (List.nodup_singleton _)
  simpa [cycleCost] using hone

theorem Circulates.natAbs_gain_cost_le (h : net.Circulates) (hcarries : net.Carries arcs) :
    (net.gain net.cost).natAbs ≤ costBound arcs := by
  rw [hcarries.gain_eq, costBound, NumericRange.natSum_map_eq]
  refine (Int.natAbs_sum_le _ _).trans (Finset.sum_le_sum fun k _ => ?_)
  have hflow := (hcarries.isCirculation h).nonneg k
  have hroom := (hcarries.isCirculation h).within k
  have hcost := hcarries.cost_eq k k.isLt
  simp only [flowOn] at hflow hroom
  rw [Int.natAbs_mul, hcost, Nat.mul_comm]
  exact Nat.mul_le_mul_left _ (by omega)

theorem Circulates.capacity_add_twin (h : net.Circulates) {arc : Int}
    (harc : Stored net.arcCount arc) :
    net.capacity arc + net.capacity (twin arc) = (net.edgeOf arc).capacity := by
  have htotal := h.pair_total (pairOf arc) harc.pairOf_lt
  rw [← twin_two_mul] at htotal
  cases eq_forward_or_twin harc.1 with
  | inl heq => rwa [← heq] at htotal
  | inr heq =>
    have hback : twin arc = 2 * pairOf arc := by rw [heq, twin_twin, pairOf_twin, pairOf_two_mul]
    rw [← hback, twin_twin, edgeOf_twin] at htotal
    omega

theorem Circulates.capacity_le (h : net.Circulates) {arc : Int} (harc : Stored net.arcCount arc) :
    net.capacity arc ≤ (net.edgeOf arc).capacity := by
  have htotal := h.capacity_add_twin harc
  have hback := h.capacity_nonneg _ harc.twin
  omega

theorem Carries.edgeOf_capacity_le (hcarries : net.Carries arcs)
    (hcheck : NumericRange.check arcs = .ok ()) {arc : Int} (harc : Stored net.arcCount arc) :
    (net.edgeOf arc).capacity ≤ rangeLimit := by
  have hlt : pairOf arc < arcs.length := by
    rw [← hcarries.edgeCount_eq]
    exact harc.pairOf_lt
  have hsame : net.edgeOf arc = net.edgeOf (2 * pairOf arc) := by
    rw [edgeOf_eq _ harc.1, edgeOf_eq _ (by omega), pairOf_two_mul]
  rw [hsame, hcarries.capacity_eq _ hlt]
  exact (NumericRange.check_eq_ok_iff.mp hcheck).1 _ (List.getElem_mem hlt)

theorem capacity_augment_bounds (hnet : net.WellFormed) (h : net.Circulates) {cycle : List Int}
    (hcycle : net.IsCycle cycle) {delta : Int} (hpos : 0 ≤ delta)
    (hroom : ∀ x ∈ cycle, delta ≤ net.capacity x) {passed rest : List Int}
    (hsplit : cycle = passed ++ rest) {arc : Int} (harc : Stored net.arcCount arc) :
    0 ≤ (net.augment delta passed).capacity arc ∧
      (net.augment delta passed).capacity arc ≤ (net.edgeOf arc).capacity := by
  have hmem : ∀ x ∈ passed, x ∈ cycle := fun x hx => by
    rw [hsplit]
    exact List.mem_append_left _ hx
  have hnodup : (passed.map pairOf).Nodup := by
    have hall := hcycle.nodup
    rw [hsplit, List.map_append] at hall
    exact hall.of_append_left
  have hnonneg := h.capacity_nonneg arc harc
  have hnonneg' := h.capacity_nonneg _ harc.twin
  have htotal := h.capacity_add_twin harc
  rw [capacity_augment hnet.size_residual delta (fun x hx => hcycle.stored x (hmem x hx)) hnodup
    harc.1]
  by_cases hforward : arc ∈ passed
  · have hle := hroom arc (hmem arc hforward)
    rw [if_pos hforward]
    omega
  · rw [if_neg hforward]
    by_cases hback : twin arc ∈ passed
    · have hle := hroom _ (hmem _ hback)
      rw [if_pos hback]
      omega
    · rw [if_neg hback]
      omega

end Network

namespace Tree

variable {t : Tree} {net : Network} {arcs : List Arc} {root : Nat}

theorem Rooted.potentialOf_sub (h : t.Rooted net root) (hnet : net.WellFormed) {a b : Nat}
    {way : List Int} (hway : net.IsWay a b way) :
    t.potentialOf a - t.potentialOf b = net.cycleCost way := by
  have hcosts : way.map net.cost =
      way.map fun x => t.potentialOf (net.tail x) - t.potentialOf (net.head x) := by
    refine List.map_congr_left fun x hx => ?_
    have hzero := Network.reducedCost_eq_zero hnet h (hway.stored x hx) (hway.isTree x hx)
    simp only [Network.reducedCost] at hzero
    omega
  rw [Network.cycleCost, hcosts]
  exact (hway.telescopes fun v => t.potentialOf v).symm

def Within (t : Tree) (bound : Nat) : Prop := ∀ node, (t.potentialOf node).natAbs ≤ bound

theorem Rooted.within (h : t.Rooted net root) (hnet : net.WellFormed)
    (hcarries : net.Carries arcs) : t.Within (potentialBound arcs) := by
  intro node
  by_cases hplace : Row.place t.potential.size node < net.nodeCount
  · obtain ⟨steps, hpath⟩ := h.path_ok hplace h.root_lt
    have hway := h.linked.path_isWay hnet hplace h.root_lt hpath
    have hfall := h.potentialOf_sub hnet hway
    have hname : t.potentialOf node = t.potentialOf (Row.place t.potential.size node) := by
      rw [potentialOf, potentialOf, Row.get_natCast]
      rfl
    rw [h.potentialOf_root, Int.sub_zero] at hfall
    rw [hname, hfall]
    exact Network.natAbs_cycleCost_le hcarries hway.stored hway.nodup
  · have hnone : t.potentialOf node = 0 := by
      rw [← h.linked.sized.potential] at hplace
      simp [potentialOf, Row.get, Array.getD, hplace]
    rw [hnone]
    exact Nat.zero_le _

theorem potentialOf_refresh (t : Tree) (net : Network) (hroot : ∀ root, t.root ≠ .int root)
    (node : Int) : (t.refresh net).2.potentialOf node = 0 := by
  have hclear : t.clear.potentialOf node = 0 := potentialOf_blank _ _ node
  simp only [refresh]
  split
  · rename_i root hint
    exact absurd hint (hroot root)
  · simp only [refreshFromTruth]
    split
    · split
      · exact hclear
      · split <;> exact hclear
    · exact hclear
  · exact hclear

end Tree

namespace Solver

variable {s start : Solver} {options : Options} {nodeCount : Nat} {arcs : List Arc}
variable {count items choices : Value}

theorem Sound.refresh_within (h : s.Sound options nodeCount arcs) :
    s.refresh.2.tree.Within (potentialBound arcs) := by
  by_cases hroot : ∃ root, options.root = .int root
  · obtain ⟨root, hroot⟩ := hroot
    obtain ⟨-, node, -, hrooted⟩ := h.refresh_ok hroot
    exact hrooted.within h.wellFormed h.carries
  · have hname : ∀ root, s.tree.root ≠ .int root := by
      intro root heq
      rw [h.root_eq] at heq
      cases hvalue : options.root with
      | int n => exact hroot ⟨n, hvalue⟩
      | truth b => simp [hvalue, Number.toValue] at heq
      | float x => simp [hvalue, Number.toValue] at heq
    intro node
    change ((s.tree.refresh s.network).2.potentialOf node).natAbs ≤ _
    rw [Tree.potentialOf_refresh _ _ hname]
    exact Nat.zero_le _

/-- Potentials stay bounded in every state, also those of a tree that is no longer up to date. -/
theorem Sound.within_of_reachable (h : start.Sound options nodeCount arcs)
    (hblank : start.tree.Within (potentialBound arcs)) (hreach : start.Reachable s) :
    s.tree.Within (potentialBound arcs) := by
  refine (h.reachable_keeps (P := fun s => s.tree.Within (potentialBound arcs))
    (fun s hs _ => hs.refresh_within) (fun s s' p way _ hmade hwithin => ?_) hblank hreach).2
  rwa [hmade.tree_eq]

theorem check_of_ofValues (hstart : ofValues count items options = .ok start)
    (harcs : Arc.listOfValue items = .ok arcs) : NumericRange.check arcs = .ok () := by
  obtain ⟨net, hnet, -, -⟩ := ofValues_eq_ok_iff.mp hstart
  obtain ⟨_, _, -, harcs', hnet⟩ := Network.ofValues_eq_ok_iff.mp hnet
  cases harcs.symm.trans harcs'
  obtain ⟨_, -, hcheck, -⟩ := Network.ofArcsWithin_eq_ok_iff.mp hnet
  exact hcheck

/-- All numbers that a solver keeps are in range, and so are those that come up when arcs are
priced, in whichever order a reduced cost is worked out, and when flow is sent around the cycle of
an arc that enters. -/
structure WithinRange (s : Solver) : Prop where
  capacity : ∀ arc : Nat, arc < s.network.arcCount → InRange (s.network.capacity arc)
  edgeCapacity : ∀ arc : Nat, arc < s.network.arcCount → InRange (s.network.edgeOf arc).capacity
  cost : ∀ arc : Nat, arc < s.network.arcCount → InRange (s.network.cost arc)
  flow : ∀ k : Nat, k < s.network.edgeCount → InRange (s.network.flow k)
  pairTotal : ∀ k : Nat, k < s.network.edgeCount →
    InRange (s.network.capacity (2 * k) + s.network.capacity (2 * k + 1))
  potential : ∀ node, InRange (s.tree.potentialOf node)
  costLessTail : ∀ arc : Nat, arc < s.network.arcCount →
    InRange (s.network.cost arc - s.tree.potentialOf (s.network.tail arc))
  headLessTail : ∀ arc : Nat, arc < s.network.arcCount →
    InRange (s.tree.potentialOf (s.network.head arc) - s.tree.potentialOf (s.network.tail arc))
  reducedCost : ∀ arc : Nat, arc < s.network.arcCount →
    InRange (s.network.reducedCost s.tree arc)
  totalCost : InRange s.totalCost
  augment : (s.tree.refresh s.network).2 = s.tree →
    ∀ entering : Nat, entering < s.network.arcCount → s.network.isTree entering = false →
      ∀ way : List Int, s.wayBack entering = .ok way →
        ∀ passed rest, way ++ [(entering : Int)] = passed ++ rest →
          ∀ arc : Nat, arc < s.network.arcCount → InRange ((s.network.augment (s.network.capacity
            (s.network.bottleneck s.useBland entering way)) passed).capacity arc)

namespace Sound

theorem augment_inRange (h : s.Sound options nodeCount arcs)
    (hcheck : NumericRange.check arcs = .ok ())
    (hfresh : (s.tree.refresh s.network).2 = s.tree) {entering : Int}
    (hentering : Stored s.network.arcCount entering) (hoff : s.network.isTree entering = false)
    {way : List Int} (hback : s.wayBack entering = .ok way) {passed rest : List Int}
    (hsplit : way ++ [entering] = passed ++ rest) {arc : Int}
    (harc : Stored s.network.arcCount arc) : InRange ((s.network.augment (s.network.capacity
      (s.network.bottleneck s.useBland entering way)) passed).capacity arc) := by
  have hlinked := h.refresh_linked
  change (s.tree.refresh s.network).2.Linked s.network at hlinked
  rw [hfresh] at hlinked
  have hcycle := (wayBack_isWay h.wellFormed hlinked hentering hback).isCycle h.wellFormed hentering
    hoff
  obtain ⟨hmem, hleast⟩ := s.network.bottleneck_spec s.useBland entering way
  have hsame : ∀ x, x ∈ entering :: way ↔ x ∈ way ++ [entering] := by
    intro x
    rw [List.mem_append, List.mem_singleton, or_comm, ← List.mem_cons]
  have hdelta := h.circulates.capacity_nonneg _ (hcycle.stored _ ((hsame _).mp hmem))
  obtain ⟨hpos, hle⟩ := Network.capacity_augment_bounds h.wellFormed h.circulates hcycle hdelta
    (fun x hx => (hleast x ((hsame x).mpr hx)).1) hsplit harc
  exact .of_le hpos hle (h.carries.edgeOf_capacity_le hcheck harc)

theorem withinRange (h : s.Sound options nodeCount arcs)
    (hcheck : NumericRange.check arcs = .ok ()) (hwithin : s.tree.Within (potentialBound arcs)) :
    s.WithinRange := by
  obtain ⟨-, hcosts, hpotentials⟩ := NumericRange.check_eq_ok_iff.mp hcheck
  have hcirculates := h.circulates
  have hstored : ∀ {arc : Nat}, arc < s.network.arcCount → Stored s.network.arcCount arc :=
    fun harc => ⟨by omega, by omega⟩
  have hedge : ∀ {arc : Int}, Stored s.network.arcCount arc →
      (s.network.edgeOf arc).capacity ≤ rangeLimit := fun harc =>
    h.carries.edgeOf_capacity_le hcheck harc
  -- a reduced cost is made of three terms, each of which is at most the sum of all costs
  have hterms : ∀ {arc : Nat}, arc < s.network.arcCount →
      (s.network.cost arc).natAbs ≤ potentialBound arcs ∧
        (s.tree.potentialOf (s.network.tail arc)).natAbs ≤ potentialBound arcs ∧
        (s.tree.potentialOf (s.network.head arc)).natAbs ≤ potentialBound arcs := fun harc =>
    ⟨Network.natAbs_cost_le h.carries (hstored harc), hwithin _, hwithin _⟩
  exact {
    capacity := fun arc harc => .of_le (hcirculates.capacity_nonneg _ (hstored harc))
      (hcirculates.capacity_le (hstored harc)) (hedge (hstored harc))
    edgeCapacity := fun arc harc => .of_le (Int.natCast_nonneg _) (Int.le_refl _)
      (hedge (hstored harc))
    cost := fun arc harc => by
      obtain ⟨hcost, -, -⟩ := hterms harc
      simp only [InRange]
      omega
    flow := fun k hk => by
      have hforward : Stored s.network.arcCount (2 * k) := Stored.forward hk
      have hback := hcirculates.capacity_le hforward.twin
      rw [Network.edgeOf_twin, twin_two_mul] at hback
      rw [hcirculates.flow_eq hk]
      exact .of_le (hcirculates.capacity_nonneg _ (Stored.backward hk)) hback (hedge hforward)
    pairTotal := fun k hk => by
      rw [hcirculates.pair_total k hk]
      exact .of_le (Int.natCast_nonneg _) (Int.le_refl _) (hedge (Stored.forward hk))
    potential := fun node => by
      have hpotential := hwithin node
      simp only [InRange]
      omega
    costLessTail := fun arc harc => by
      obtain ⟨hcost, htail, -⟩ := hterms harc
      simp only [InRange]
      omega
    headLessTail := fun arc harc => by
      obtain ⟨-, htail, hhead⟩ := hterms harc
      simp only [InRange]
      omega
    reducedCost := fun arc harc => by
      obtain ⟨hcost, htail, hhead⟩ := hterms harc
      simp only [InRange, Network.reducedCost]
      omega
    totalCost := by
      rw [h.totalCost_eq]
      exact (hcirculates.natAbs_gain_cost_le h.carries).trans hcosts
    augment := fun hfresh _ hentering hoff _ hback _ _ hsplit _ harc =>
      h.augment_inRange hcheck hfresh (hstored hentering) hoff hback hsplit (hstored harc) }

end Sound

/-- If the arcs are not refused, no number leaves the range, whatever is asked of the solver: none
that it keeps, and none that comes up when it prices arcs or sends flow around a cycle. -/
theorem withinRange_of_reachable (hoptions : Options.ofValue choices = .ok options)
    (hstart : ofValues count items options = .ok start) (h : start.Reachable s) :
    s.WithinRange := by
  obtain ⟨nodeCount, arcs, _, harcs, hfirst⟩ := ofValues_sound hoptions hstart
  have hblank : start.tree.Within (potentialBound arcs) := by
    simp only [ofValues] at hstart
    obtain ⟨net, -, hstart⟩ := bind_eq_ok_iff.mp hstart
    simp only [create] at hstart
    split at hstart
    · cases hstart
    · cases hstart
      intro node
      simp [Solver.start]
  exact (hfirst.reachable h).withinRange (check_of_ofValues hstart harcs)
    (hfirst.within_of_reachable hblank h)

def brimming : Value :=
  .list [.list [.int 0, .int 1, .int 3, .int (-3074457345618258602)],
    .list [.int 1, .int 0, .int 9223372036854775807, .int 0]]

theorem withinRange_of_reachable_brimming : ∃ start s : Solver,
    ofValues (.int 2) brimming Options.standard = .ok start ∧ start.Reachable s ∧
      s.totalCost = -9223372036854775806 ∧ s.network.residuals = [0, 9223372036854775804] ∧
      s.WithinRange := by
  obtain ⟨start, s, hstart, hreach, hcost, hrooms⟩ : ∃ start s : Solver,
      ofValues (.int 2) brimming Options.standard = .ok start ∧ start.Reachable s ∧
        s.totalCost = -9223372036854775806 ∧ s.network.residuals = [0, 9223372036854775804] :=
    ⟨_, _, rfl, .solve .null (.int 100) .start, rfl, rfl⟩
  have hoptions : Options.ofValue .null = .ok Options.standard := rfl
  exact ⟨start, s, hstart, hreach, hcost, hrooms,
    withinRange_of_reachable hoptions hstart hreach⟩

end Solver

end Circulation
