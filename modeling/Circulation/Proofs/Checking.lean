import Circulation.Proofs.Roots

/-!
What the checks between pivots find. The tree is in order exactly if twins have one flag and the
flagged edges span the network, which takes one edge less than there are nodes. Main result: in a
sound solver whose tree can be seen from its root nothing is found, so no pivot of an arc that can
improve the flow is refused.
-/

namespace Circulation

open Adjacency (Stored)

namespace Network

variable {net : Network} {p : Partition} {done : Set Nat}

theorem union_mem_cons (done : Set Nat) (k : Nat) (ks : List Nat) :
    insert k done ∪ {x | x ∈ ks} = done ∪ {x | x ∈ k :: ks} := by
  ext x
  simp [or_left_comm, or_assoc]

/-- Joining pairs one after another joins what they join together, and each pair that closes no
cycle makes one part less. -/
theorem joinPairs_spec {ks : List Nat} (h : p.Represents net.nodeCount net.ends done)
    (hends : ∀ k ∈ ks, net.tail (2 * k) < net.nodeCount ∧ net.head (2 * k) < net.nodeCount) :
    (net.joinPairs ks p).1.Represents net.nodeCount net.ends (done ∪ {k | k ∈ ks}) ∧
      (net.joinPairs ks p).1.components + ks.length =
        p.components + (net.joinPairs ks p).2.length := by
  induction ks generalizing p done with
  | nil => simpa [joinPairs] using h
  | cons k ks ih =>
    obtain ⟨htail, hhead⟩ := hends k List.mem_cons_self
    obtain ⟨hnext, -, hcount⟩ := h.union (k := k) rfl htail hhead
    obtain ⟨hall, hrest⟩ := ih hnext fun l hl => hends l (List.mem_cons_of_mem k hl)
    rw [union_mem_cons] at hall
    refine ⟨hall, ?_⟩
    simp only [joinPairs, List.length_cons]
    rw [hcount] at hrest
    cases hjoined : (p.union (net.tail (2 * k)) (net.head (2 * k))).2 with
    | true =>
      rw [hjoined] at hrest
      simp only [if_true] at hrest ⊢
      omega
    | false =>
      rw [hjoined] at hrest
      simp only [Bool.false_eq_true, if_false, List.length_cons] at hrest ⊢
      omega

theorem joinPairs_closing {ks : List Nat} (h : p.Represents net.nodeCount net.ends done)
    (hends : ∀ k ∈ ks, net.tail (2 * k) < net.nodeCount ∧ net.head (2 * k) < net.nodeCount)
    (hnodup : ks.Nodup) (hnew : ∀ k ∈ ks, k ∉ done) (hacyclic : Acyclic net.ends done) :
    (net.joinPairs ks p).2 = [] ↔ Acyclic net.ends (done ∪ {k | k ∈ ks}) := by
  induction ks generalizing p done with
  | nil => simpa [joinPairs] using hacyclic
  | cons k ks ih =>
    obtain ⟨htail, hhead⟩ := hends k List.mem_cons_self
    obtain ⟨hfirst, hlater⟩ := List.nodup_cons.mp hnodup
    obtain ⟨hnext, hapart, -⟩ := h.union (k := k) rfl htail hhead
    have hnew' : ∀ l ∈ ks, l ∉ insert k done := by
      rintro l hl (hlk | hdone)
      · exact hfirst (hlk ▸ hl)
      · exact hnew l (List.mem_cons_of_mem k hl) hdone
    have hends' := fun l hl => hends l (List.mem_cons_of_mem k hl)
    by_cases hjoined : (p.union (net.tail (2 * k)) (net.head (2 * k))).2 = true
    · have hrest := ih hnext hends' hlater hnew' (hacyclic.insert (hapart.mp hjoined))
      rw [union_mem_cons] at hrest
      rw [← hrest]
      simp only [joinPairs, if_pos hjoined]
    · refine iff_of_false (by simp [joinPairs, if_neg hjoined]) fun hall => ?_
      have hjoin := not_not.mp fun hnot => hjoined (hapart.mpr hnot)
      have hsub : done ⊆ (done ∪ {x | x ∈ k :: ks}) \ {k} :=
        fun l hl => ⟨Or.inl hl, fun hlk => hnew k List.mem_cons_self (hlk ▸ hl)⟩
      exact hall k (Or.inr List.mem_cons_self) (hjoin.mono hsub)

def joinedTree (net : Network) : Partition × List Nat :=
  net.joinPairs net.treePairs (Partition.discrete net.nodeCount)

section Tree

variable (hends : ∀ k < net.edgeCount,
  net.tail (2 * (k : Nat)) < net.nodeCount ∧ net.head (2 * (k : Nat)) < net.nodeCount)

include hends

theorem joinedTree_spec : net.joinedTree.1.Represents net.nodeCount net.ends net.treeSet ∧
    net.joinedTree.1.components + net.treePairs.length =
      net.nodeCount + net.joinedTree.2.length ∧
    (net.joinedTree.2 = [] ↔ Acyclic net.ends net.treeSet) := by
  have hfirst := Partition.represents_discrete net.nodeCount net.ends
  have hall : ∀ k ∈ net.treePairs,
      net.tail (2 * (k : Nat)) < net.nodeCount ∧ net.head (2 * (k : Nat)) < net.nodeCount :=
    fun k hk => hends k ((net.mem_treePairs k).mp hk).1
  have hset : ∅ ∪ {k | k ∈ net.treePairs} = net.treeSet := by
    ext k
    simp [mem_treePairs]
  obtain ⟨hrepresents, hcount⟩ := joinPairs_spec hfirst hall
  have hclosing := joinPairs_closing hfirst hall (List.nodup_range.filter _) (by simp)
    (acyclic_empty net.ends)
  rw [hset] at hrepresents hclosing
  exact ⟨hrepresents, hcount, hclosing⟩

theorem isSpanningTree_iff (hpos : 0 < net.nodeCount) :
    IsSpanningTree net.nodeCount net.ends net.treeSet ↔
      net.joinedTree.2 = [] ∧ net.joinedTree.1.components = 1 := by
  obtain ⟨hrepresents, -, hclosing⟩ := joinedTree_spec hends
  rw [hclosing, hrepresents.components_eq_one_iff hpos]
  exact ⟨fun h => ⟨h.acyclic, h.connected⟩, fun h => ⟨h.2, h.1⟩⟩

theorem length_treePairs (hpos : 0 < net.nodeCount)
    (h : IsSpanningTree net.nodeCount net.ends net.treeSet) :
    net.treePairs.length = net.nodeCount - 1 := by
  obtain ⟨hclosing, hone⟩ := (isSpanningTree_iff hends hpos).mp h
  obtain ⟨-, hcount, -⟩ := joinedTree_spec hends
  rw [hclosing, hone, List.length_nil] at hcount
  omega

/-- Nothing is wrong with the tree exactly if twins have one flag and the tree spans the network. -/
theorem treeViolations_eq_nil_iff (hpos : 0 < net.nodeCount) : net.treeViolations = [] ↔
    (∀ k : Nat, k < net.edgeCount → net.isTree (2 * k) = net.isTree (2 * k + 1)) ∧
      IsSpanningTree net.nodeCount net.ends net.treeSet := by
  have hflags : ((((List.range net.edgeCount).filter fun k : Nat =>
        net.isTree (2 * k) != net.isTree (2 * k + 1)).take reportLimit).map
          Violation.flagMismatch) = [] ↔
      ∀ k : Nat, k < net.edgeCount → net.isTree (2 * k) = net.isTree (2 * k + 1) := by
    simp [List.take_eq_nil_iff, reportLimit, List.filter_eq_nil_iff]
  have hsplit : net.treeViolations = [] ↔
      (∀ k : Nat, k < net.edgeCount → net.isTree (2 * k) = net.isTree (2 * k + 1)) ∧
        net.treePairs.length = net.nodeCount - 1 ∧ net.joinedTree.2 = [] ∧
        net.joinedTree.1.components = 1 := by
    rw [← hflags]
    simp only [treeViolations]
    simp only [List.append_eq_nil_iff, List.map_eq_nil_iff]
    change ((_ ∧ _) ∧ net.joinedTree.2 = []) ∧ _ ↔ _
    have hlength : (if net.treePairs.length = net.nodeCount - 1 then [] else
        [Violation.pairCount net.treePairs.length (net.nodeCount - 1)]) = [] ↔
          net.treePairs.length = net.nodeCount - 1 := by
      split <;> simp_all
    have hone : (if net.joinedTree.1.components = 1 then [] else
        [Violation.components net.joinedTree.1.components]) = [] ↔
          net.joinedTree.1.components = 1 := by
      split <;> simp_all
    rw [hlength, and_assoc, and_assoc]
    exact and_congr_right fun _ => and_congr_right fun _ => and_congr_right fun _ => hone
  rw [hsplit]
  constructor
  · rintro ⟨hflag, -, htree⟩
    exact ⟨hflag, (isSpanningTree_iff hends hpos).mpr htree⟩
  · rintro ⟨hflag, hspanning⟩
    exact ⟨hflag, length_treePairs hends hpos hspanning,
      (isSpanningTree_iff hends hpos).mp hspanning⟩

end Tree

theorem capacityViolations_eq_nil_iff {expected : List Int}
    (hlength : expected.length = net.edgeCount) : net.capacityViolations expected = [] ↔
      net.pairTotals = expected ∧ ∀ arc : Nat, arc < net.arcCount → 0 ≤ net.capacity arc := by
  have htotals : net.pairTotals.length = net.edgeCount := by simp [pairTotals]
  have hmatched : (∀ x ∈ (net.pairTotals.zip expected).zipIdx, ¬ (x.1.1 != x.1.2) = true) ↔
      net.pairTotals = expected := by
    constructor
    · intro h
      refine List.ext_getElem (htotals.trans hlength.symm) fun k hk hk' => ?_
      have hmem : ((net.pairTotals[k], expected[k]), k) ∈ (net.pairTotals.zip expected).zipIdx := by
        rw [List.mem_zipIdx_iff_getElem?]
        simp [hk, hk']
      simpa using h _ hmem
    · rintro rfl ⟨⟨total, want⟩, k⟩ hx
      rw [List.mem_zipIdx_iff_getElem?] at hx
      simp only [List.getElem?_zip_eq_some] at hx
      have hsame : total = want := Option.some.inj (hx.1.symm.trans hx.2)
      simp [hsame]
  simp only [capacityViolations]
  simp only [List.append_eq_nil_iff, List.map_eq_nil_iff, List.take_eq_nil_iff, reportLimit,
    OfNat.ofNat_ne_zero, false_or, List.filter_eq_nil_iff, List.mem_range]
  rw [hmatched]
  simp

variable {t : Tree} {root : Nat}

theorem linkViolations_eq_nil_iff {node : Nat} {parent arc : Int} :
    net.linkViolations t node parent arc = [] ↔ t.depthOf node = t.depthOf parent + 1 ∧
      ((net.tail arc : Int) = node ∧ (net.head arc : Int) = parent) ∧ net.isTree arc = true := by
  simp only [linkViolations, List.append_eq_nil_iff, and_assoc, ite_eq_left_iff, List.cons_ne_nil,
    imp_false, not_not]

theorem exists_hangs_iff (hsized : t.Sized net.nodeCount) {node : Nat} :
    (∃ parent arc, parent < net.nodeCount ∧ t.Hangs net node parent arc) ↔
      (0 ≤ t.parentOf node ∧ 0 ≤ t.upArcOf node) ∧
      (t.hasNode (t.parentOf node) = true ∧ net.hasArc (t.upArcOf node) = true) ∧
      net.linkViolations t node (t.parentOf node) (t.upArcOf node) = [] := by
  rw [linkViolations_eq_nil_iff]
  constructor
  · rintro ⟨parent, arc, hparent, hhangs⟩
    rw [hhangs.parentOf_eq, hhangs.upArcOf_eq]
    exact ⟨⟨Int.natCast_nonneg parent, hhangs.stored.1⟩,
      ⟨hsized.hasNode hparent, hasArc_of_stored hhangs.stored⟩, hhangs.depthOf_eq,
      ⟨by rw [hhangs.tail_eq], by rw [hhangs.head_eq]⟩, hhangs.isTree⟩
  · rintro ⟨⟨hparent, harc⟩, ⟨hnode, hhas⟩, hdepth, ⟨htail, hhead⟩, htree⟩
    have hcount : t.nodeCount = net.nodeCount := hsized.depth
    simp only [Tree.hasNode, hasArc, Row.holds, Bool.and_eq_true, decide_eq_true_eq] at hnode hhas
    obtain ⟨parent, hname⟩ := Int.eq_ofNat_of_zero_le hparent
    rw [hname] at hdepth hhead hnode
    exact ⟨parent, _, by omega, hname, rfl, ⟨harc, hhas.2⟩, Int.natCast_inj.mp htail,
      Int.natCast_inj.mp hhead, htree, hdepth⟩

theorem bookkeepingFrom_eq_nil_iff (hsized : t.Sized net.nodeCount) {nodes : List Nat}
    {found : List Violation} : net.bookkeepingFrom t nodes found = .ok [] ↔
      found = [] ∧ ∀ v ∈ nodes, t.isRoot v = false →
        ∃ parent arc, parent < net.nodeCount ∧ t.Hangs net v parent arc := by
  induction nodes generalizing found with
  | nil => simp [bookkeepingFrom]
  | cons v nodes ih =>
    rw [List.forall_mem_cons, bookkeepingFrom]
    by_cases hroot : t.isRoot v = true
    · rw [if_pos hroot, ih]
      simp [hroot]
    have hother : t.isRoot v = false := by simpa using hroot
    rw [if_neg hroot, exists_hangs_iff hsized]
    simp only [hother, forall_const]
    by_cases hlacks : (decide (t.parentOf v < 0) || decide (t.upArcOf v < 0)) = true
    · rw [if_pos hlacks, ih]
      simp only [Bool.or_eq_true, decide_eq_true_eq] at hlacks
      exact iff_of_false (by simp) fun hall => by omega
    rw [if_neg hlacks]
    by_cases hgone : (!(t.hasNode (t.parentOf v) && net.hasArc (t.upArcOf v))) = true
    · rw [if_pos hgone]
      exact iff_of_false (by simp) fun hall => by simp [hall.2.1.2.1] at hgone
    rw [if_neg hgone]
    simp only [Bool.or_eq_true, decide_eq_true_eq, not_or, Int.not_lt] at hlacks
    simp only [Bool.not_eq_true', Bool.not_eq_false, Bool.and_eq_true] at hgone
    simp only [hlacks, hgone, and_self, true_and]
    by_cases hfull : reportLimit ≤
        (found ++ net.linkViolations t v (t.parentOf v) (t.upArcOf v)).length
    · -- a full report is not empty
      rw [if_pos hfull]
      have hsome : ¬ (found = [] ∧
          net.linkViolations t v (t.parentOf v) (t.upArcOf v) = []) := by
        rw [← List.append_eq_nil_iff]
        intro hnil
        rw [hnil] at hfull
        exact absurd hfull (by decide)
      rw [Except.ok.injEq, List.append_eq_nil_iff]
      exact iff_of_false hsome fun hall => hsome ⟨hall.1, hall.2.1⟩
    · rw [if_neg hfull, ih, List.append_eq_nil_iff, and_assoc]

theorem bookkeepingFrom_eq (h : t.Rooted net root)
    (hname : ∀ v : Int, t.isRoot v = decide ((root : Int) = v)) (nodes : List Nat)
    (hnodes : ∀ v ∈ nodes, v < net.nodeCount) : net.bookkeepingFrom t nodes [] = .ok [] := by
  refine (bookkeepingFrom_eq_nil_iff h.linked.sized).mpr ⟨rfl, fun v hv hroot => ?_⟩
  rw [hname, decide_eq_false_iff_not] at hroot
  exact h.hung.hangs v (hnodes v hv) fun heq => hroot (by rw [heq])

end Network

namespace Solver

variable {s : Solver} {options : Options} {nodeCount : Nat} {arcs : List Arc} {root : Int}

theorem find_of_refresh (hok : s.refresh.1 = .ok ()) :
    s.find = (.ok (s.activeRule.select s.network s.refresh.2.tree), s.refresh.2) := by
  have hrule : s.refresh.2.activeRule = s.activeRule := rfl
  have hnet : s.refresh.2.network = s.network := rfl
  simp only [Solver.find]
  rw [← hrule, ← hnet]
  generalize s.refresh = outcome at hok
  obtain ⟨result, looked⟩ := outcome
  simp only at hok
  subst hok
  rfl

theorem validate_eq_nil_iff : (s.validate true).1 = .ok [] ↔
    s.refresh.1 = .ok () ∧ s.network.capacityViolations s.initialTotals = [] ∧
      s.network.treeViolations = [] ∧ s.network.bookkeepingViolations s.refresh.2.tree = .ok [] ∧
      s.network.optimalityViolations s.refresh.2.tree = [] := by
  simp only [validate]
  cases s.network.treeViolations with
  | cons v vs => simp
  | nil =>
    rw [List.isEmpty_nil, if_pos rfl]
    cases hlook : s.refresh with
    | mk result looked =>
      have hkept : looked.network = s.network :=
        (congrArg (fun outcome => outcome.2.network) hlook).symm
      cases result with
      | error fault => simp
      | ok _ =>
        simp only [hkept, if_true]
        cases s.network.bookkeepingViolations looked.tree with
        | error fault => simp [Except.map]
        | ok links => simp [Except.map]

namespace Sound

theorem nodeCount_pos (h : s.Sound options nodeCount arcs) (hok : s.refresh.1 = .ok ()) :
    0 < s.network.nodeCount := by
  obtain ⟨node, -, hrooted⟩ := h.refresh_rooted hok
  exact Nat.zero_lt_of_lt hrooted.root_lt

theorem ends_lt (h : s.Sound options nodeCount arcs) {k : Nat} (hk : k < s.network.edgeCount) :
    s.network.tail (2 * k) < s.network.nodeCount ∧ s.network.head (2 * k) < s.network.nodeCount :=
  ⟨h.wellFormed.tail_lt _ (Stored.forward hk), h.wellFormed.head_lt (Stored.forward hk)⟩

theorem treeViolations_eq (h : s.Sound options nodeCount arcs) (hok : s.refresh.1 = .ok ()) :
    s.network.treeViolations = [] := by
  rw [Network.treeViolations_eq_nil_iff (fun k hk => h.ends_lt hk) (h.nodeCount_pos hok)]
  refine ⟨fun k hk => ?_, h.spanning⟩
  have htwin := h.wellFormed.isTree_twin _ (Stored.forward hk)
  rw [twin_two_mul] at htwin
  exact htwin.symm

theorem capacityViolations_eq (h : s.Sound options nodeCount arcs) :
    s.network.capacityViolations s.initialTotals = [] := by
  rw [h.totals_eq, Network.capacityViolations_eq_nil_iff (by simp [Network.pairTotals])]
  exact ⟨rfl, fun arc harc => h.circulates.capacity_nonneg arc ⟨by omega, by omega⟩⟩

theorem validate_of_refresh (h : s.Sound options nodeCount arcs) (hok : s.refresh.1 = .ok ())
    (requireOptimal : Bool) : s.validate requireOptimal =
      (.ok (if requireOptimal then s.network.optimalityViolations s.refresh.2.tree else []),
        s.refresh.2) := by
  obtain ⟨node, hname, hrooted⟩ := h.refresh_rooted hok
  have hlinks : s.network.bookkeepingViolations s.refresh.2.tree = .ok [] :=
    Network.bookkeepingFrom_eq hrooted hname _ fun v hv => List.mem_range.mp hv
  have hkept : s.refresh.2.network = s.network := rfl
  simp only [validate]
  rw [h.treeViolations_eq hok, h.capacityViolations_eq]
  generalize s.refresh = outcome at *
  obtain ⟨result, looked⟩ := outcome
  simp only at hok hlinks hkept
  subst hok
  simp only [List.isEmpty_nil, if_true, hkept, hlinks, Except.map, List.nil_append]

theorem find_ok (h : s.Sound options nodeCount arcs) (hroot : options.root = .int root) :
    ∃ found, s.find = (.ok found, s.refresh.2) :=
  ⟨_, find_of_refresh (h.refresh_ok hroot).1⟩

theorem pivotUnchecked_of_rooted (h : s.Sound options nodeCount arcs) {node : Nat}
    (hrooted : s.tree.Rooted s.network node) {entering : Int}
    (harc : Stored s.network.arcCount entering) (hoff : s.network.isTree entering = false)
    (hroom : 0 < s.network.capacity entering) :
    ∃ p events made way, s.wayBack entering = .ok way ∧
      s.pivotUnchecked entering = (.ok (p, events), made) ∧ p.entering = entering ∧
      s.Pivots made p way ∧ made.Sound options nodeCount arcs := by
  obtain ⟨way, hback⟩ := wayBack_ok h.wellFormed hrooted harc
  obtain ⟨p, events, made, hpivot, hentering, hpivots⟩ := pivotAround_ok h.wellFormed harc hoff
    hroom (wayBack_isWay h.wellFormed hrooted.linked harc hback)
  refine ⟨p, events, made, way, hback, ?_, hentering, hpivots, h.pivots hpivots⟩
  simp only [pivotUnchecked]
  rw [if_neg (by simp [hoff, hroom]), hback]
  exact hpivot

theorem pivotUnchecked_ok (h : s.Sound options nodeCount arcs) {looked : Solver} {entering : Nat}
    (hfind : s.find = (.ok (some entering), looked)) :
    ∃ p events made way, looked.pivotUnchecked entering = (.ok (p, events), made) ∧
      p.entering = entering ∧ looked.Pivots made p way ∧ made.Sound options nodeCount arcs := by
  obtain ⟨rfl, hok, hselect⟩ := find_some hfind
  obtain ⟨hlt, heligible⟩ := Rule.isEligible_of_select hselect
  simp only [Network.isEligible, Bool.and_eq_true, Bool.not_eq_true', decide_eq_true_eq]
    at heligible
  obtain ⟨node, -, hrooted⟩ := h.refresh_rooted hok
  obtain ⟨p, events, made, way, -, hpivot, hmade⟩ := h.refresh.pivotUnchecked_of_rooted hrooted
    ⟨by omega, by omega⟩ heligible.1.1 heligible.1.2
  exact ⟨p, events, made, way, hpivot, hmade⟩

theorem pivot_of_unchecked {made : Solver} (hmade : made.Sound options nodeCount arcs)
    (hok : made.refresh.1 = .ok ()) {entering : Int} {p : Pivot} {events : List Event}
    (h : s.pivotUnchecked entering = (.ok (p, events), made)) : s.pivot entering =
      ⟨.ok p, if made.options.checkInvariants then made.refresh.2 else made, events⟩ := by
  simp only [Solver.pivot]
  rw [h]
  by_cases hcheck : made.options.checkInvariants = true
  · simp only [if_pos hcheck, hmade.validate_of_refresh hok false]
    rfl
  · simp only [if_neg hcheck]

theorem pivot_ok (h : s.Sound options nodeCount arcs) {looked : Solver} {entering : Nat}
    (hfind : s.find = (.ok (some entering), looked)) :
    ∃ p made way after events, looked.pivot entering = ⟨.ok p, after, events⟩ ∧
      p.entering = entering ∧ looked.Pivots made p way ∧
      (after = made ∨ after = made.refresh.2) := by
  obtain ⟨p, events, made, way, hpivot, hentering, hpivots, hmade⟩ := h.pivotUnchecked_ok hfind
  obtain ⟨-, hok, -⟩ := find_some hfind
  refine ⟨p, made, way, _, events, pivot_of_unchecked hmade (h.sees hmade hok) hpivot, hentering,
    hpivots, ?_⟩
  split
  · exact Or.inr rfl
  · exact Or.inl rfl

/-- The next step of a run in a solver whose tree can be seen: no arc is found, or the pivot of the
one that is found is made and leads to such a solver. -/
theorem next (h : s.Sound options nodeCount arcs) (hok : s.refresh.1 = .ok ()) :
    (∃ looked, s.find = (.ok none, looked)) ∨
      ∃ looked p after events, ∃ entering : Nat, s.find = (.ok (some entering), looked) ∧
        looked.pivot entering = ⟨.ok p, after, events⟩ ∧ after.Sound options nodeCount arcs ∧
        after.refresh.1 = .ok () := by
  have hfind := find_of_refresh hok
  cases hselect : s.activeRule.select s.network s.refresh.2.tree with
  | none =>
    rw [hselect] at hfind
    exact Or.inl ⟨_, hfind⟩
  | some entering =>
    rw [hselect] at hfind
    obtain ⟨p, _, _, after, events, hpivot, -⟩ := h.pivot_ok hfind
    have hafter := h.pivot_found hfind
    rw [hpivot] at hafter
    exact Or.inr ⟨_, p, after, events, entering, hfind, hpivot, hafter, h.sees hafter hok⟩

end Sound

section Run

variable {looked : Solver}

theorem run_of_error {fault : Fault} (hfind : s.find = (.error fault, looked)) (budget : Nat) :
    s.run budget = ⟨[], .failed fault [], looked⟩ := by
  cases budget with
  | zero => rw [run, hfind]
  | succ budget => rw [run, hfind]

theorem run_of_none (hfind : s.find = (.ok none, looked)) (budget : Nat) :
    s.run budget = ⟨[], .optimal, looked⟩ := by
  cases budget with
  | zero => rw [run, hfind]
  | succ budget => rw [run, hfind]

theorem run_zero_of_some {entering : Nat} (hfind : s.find = (.ok (some entering), looked)) :
    s.run 0 = ⟨[], .limit, looked⟩ := by
  rw [run, hfind]

theorem run_succ_of_pivot {entering : Nat} (hfind : s.find = (.ok (some entering), looked))
    {p : Pivot} {after : Solver} {events : List Event}
    (hpivot : looked.pivot entering = ⟨.ok p, after, events⟩) (budget : Nat) :
    s.run (budget + 1) =
      (after.run budget).after ⟨p, after.totalCost, after.activeRule, events⟩ := by
  rw [run, hfind]
  simp only [hpivot]

theorem run_of_refresh {fault : Fault} (hfault : s.refresh.1 = .error fault) (budget : Nat) :
    s.run budget = ⟨[], .failed fault [], s.refresh.2⟩ := by
  have hfind : s.find = (.error fault, s.refresh.2) := by
    simp only [Solver.find]
    generalize s.refresh = outcome at *
    obtain ⟨result, looked⟩ := outcome
    simp only at hfault
    rw [hfault]
  rw [run_of_error hfind]

theorem refresh_of_run {n : Nat} (hend : ∀ fault, (s.run n).ending ≠ .failed fault []) :
    s.refresh.1 = .ok () := by
  cases hlook : s.refresh.1 with
  | error fault =>
    rw [run_of_refresh hlook] at hend
    exact absurd rfl (hend fault)
  | ok _ => rfl

/-- What holds of a run that finds no arc and of one whose budget is spent holds of every run, if a
pivot before a run keeps it. -/
theorem Sound.run_induction {P : Solver → Nat → Run → Prop}
    (hnone : ∀ s looked n, s.Sound options nodeCount arcs → s.find = (.ok none, looked) →
      P s n ⟨[], .optimal, looked⟩)
    (hlimit : ∀ s looked, ∀ entering : Nat, s.Sound options nodeCount arcs →
      s.find = (.ok (some entering), looked) → P s 0 ⟨[], .limit, looked⟩)
    (hturn : ∀ s looked p after events n, ∀ entering : Nat, s.Sound options nodeCount arcs →
      s.find = (.ok (some entering), looked) →
      looked.pivot entering = ⟨.ok p, after, events⟩ → P after n (after.run n) →
      P s (n + 1) ((after.run n).after ⟨p, after.totalCost, after.activeRule, events⟩))
    (h : s.Sound options nodeCount arcs) (hok : s.refresh.1 = .ok ()) (n : Nat) :
    P s n (s.run n) := by
  induction n generalizing s with
  | zero =>
    rcases h.next hok with ⟨looked, hfind⟩ | ⟨looked, _, _, _, entering, hfind, -⟩
    · rw [run_of_none hfind]
      exact hnone s looked 0 h hfind
    · rw [run_zero_of_some hfind]
      exact hlimit s looked entering h hfind
  | succ n ih =>
    rcases h.next hok with
      ⟨looked, hfind⟩ | ⟨looked, p, after, events, entering, hfind, hpivot, hafter, hok'⟩
    · rw [run_of_none hfind]
      exact hnone s looked (n + 1) h hfind
    · rw [run_succ_of_pivot hfind hpivot]
      exact hturn s looked p after events n entering h hfind hpivot (ih hafter hok')

end Run

end Solver

end Circulation
