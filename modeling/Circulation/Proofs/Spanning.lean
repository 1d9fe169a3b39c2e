import Circulation.Proofs.Effect
import Circulation.Proofs.Moving
import Circulation.Proofs.Rerooting

/-!
What a look at the tree comes to. A rooted tree has no arcs but its links, so that it spans the
network, each step along it changes the depth by one, and nothing is left open: the edges on the
tree and the root settle every entry. Main result: a refresh succeeds exactly if the edges on the
tree span the network, whatever has been moved before, and then describes the tree.
-/

namespace Circulation

open Adjacency (Stored)

namespace Network

variable {net net' : Network} {a b : Nat} {arc : Int} {arcs : List Int}

/-- Arcs of the tree that lead from one node to another, each from where the one before it ends. -/
structure TreeWalk (net : Network) (a : Nat) (arcs : List Int) (b : Nat) : Prop where
  passes : net.Passes a arcs b
  stored : ∀ x ∈ arcs, Stored net.arcCount x
  isTree : ∀ x ∈ arcs, net.isTree x = true

theorem TreeWalk.stop (net : Network) (a : Nat) : net.TreeWalk a [] a :=
  ⟨.stop a, by simp, by simp⟩

theorem TreeWalk.step (h : net.TreeWalk (net.head arc) arcs b) (htail : net.tail arc = a)
    (harc : Stored net.arcCount arc) (htree : net.isTree arc = true) :
    net.TreeWalk a (arc :: arcs) b where
  passes := .step htail h.passes
  stored := List.forall_mem_cons.mpr ⟨harc, h.stored⟩
  isTree := List.forall_mem_cons.mpr ⟨htree, h.isTree⟩

theorem TreeWalk.tail_eq (h : net.TreeWalk a (arc :: arcs) b) : net.tail arc = a := by
  cases h.passes with
  | step htail _ => exact htail

theorem TreeWalk.rest (h : net.TreeWalk a (arc :: arcs) b) :
    net.TreeWalk (net.head arc) arcs b where
  passes := by
    cases h.passes with
    | step _ hrest => exact hrest
  stored x hx := h.stored x (List.mem_cons_of_mem arc hx)
  isTree x hx := h.isTree x (List.mem_cons_of_mem arc hx)

/-- Two networks with the same nodes and the same edges on the tree. Their lists may differ. -/
structure SameTree (net net' : Network) : Prop where
  nodeCount_eq : net'.nodeCount = net.nodeCount
  edges_eq : net'.edges = net.edges
  isTree_eq : ∀ arc, Stored net.arcCount arc → net'.isTree arc = net.isTree arc

theorem SameTree.symm (h : net.SameTree net') : net'.SameTree net where
  nodeCount_eq := h.nodeCount_eq.symm
  edges_eq := h.edges_eq.symm
  isTree_eq arc harc := (h.isTree_eq arc (arcCount_congr h.edges_eq ▸ harc)).symm

theorem SameTree.treeWalk (h : net.SameTree net') (hwalk : net.TreeWalk a arcs b) :
    net'.TreeWalk a arcs b := by
  induction arcs generalizing a with
  | nil =>
    cases hwalk.passes
    exact .stop net' _
  | cons arc arcs ih =>
    have harc := hwalk.stored arc List.mem_cons_self
    have htree := hwalk.isTree arc List.mem_cons_self
    have hrest := ih hwalk.rest
    rw [← head_congr h.edges_eq] at hrest
    exact hrest.step ((tail_congr h.edges_eq arc).trans hwalk.tail_eq)
      (arcCount_congr h.edges_eq ▸ harc) ((h.isTree_eq arc harc).trans htree)

theorem SameTree.treeSet_eq (h : net.SameTree net') : net'.treeSet = net.treeSet := by
  ext k
  simp only [treeSet, Set.mem_ofPred_eq, edgeCount_congr h.edges_eq]
  refine and_congr_right fun hk => ?_
  rw [h.isTree_eq _ (Stored.forward hk)]

theorem Altered.sameTree {start : Network} (hstart : start.WellFormed) (h : start.Altered net)
    (h' : start.Altered net') (htree : net'.treeSet = net.treeSet) : net.SameTree net' := by
  obtain ⟨hwell, hcount, hedges⟩ := h.wellFormed hstart
  obtain ⟨hwell', hcount', hedges'⟩ := h'.wellFormed hstart
  have hsame : net'.edges = net.edges := hedges'.trans hedges.symm
  refine ⟨hcount'.trans hcount.symm, hsame, fun arc harc => ?_⟩
  have hmem := hwell'.mem_treeSet (arcCount_congr hsame ▸ harc)
  rw [htree, hwell.mem_treeSet harc] at hmem
  exact (Bool.eq_iff_iff.mpr hmem).symm

end Network

namespace Tree

variable {t t' : Tree} {net net' : Network} {root a b : Nat} {nodes arcs : List Int}

theorem Ascends.treeWalk (h : t.Ascends net a nodes b) :
    net.TreeWalk a (nodes.map t.upArcOf) b where
  passes := h.passes_up
  stored arc harc := by
    obtain ⟨x, hx, rfl⟩ := List.mem_map.mp harc
    obtain ⟨_, _, _, _, hhangs⟩ := h.hangs hx
    exact hhangs.stored
  isTree arc harc := by
    obtain ⟨x, hx, rfl⟩ := List.mem_map.mp harc
    obtain ⟨_, _, _, _, hhangs⟩ := h.hangs hx
    exact hhangs.isTree

/-- A climb from the node comes to the top one. -/
def Below (t : Tree) (net : Network) (top node : Nat) : Prop :=
  ∃ nodes, t.Ascends net node nodes top

theorem Hangs.below_iff {top node parent : Nat} {arc : Int} (h : t.Hangs net node parent arc)
    (hnode : node < net.nodeCount) (hne : node ≠ top) :
    t.Below net top node ↔ t.Below net top parent := by
  constructor
  · rintro ⟨nodes, hnodes⟩
    cases hnodes with
    | stay _ => exact absurd rfl hne
    | @step _ parent' _ _ nodes' _ hhangs hrest =>
      have hparent : (parent : Int) = parent' := h.parentOf_eq.symm.trans hhangs.parentOf_eq
      exact ⟨nodes', Int.natCast_inj.mp hparent ▸ hrest⟩
  · rintro ⟨nodes, hnodes⟩
    exact ⟨_, .step hnode h hnodes⟩

/-- What a tree says about the edges on the tree of a network, as seen from the root: the depths are
distances, the links lead toward the root, and the potentials fall along each arc by its cost. -/
structure Describes (t : Tree) (net : Network) (root : Nat) : Prop where
  depth_attained : ∀ v < net.nodeCount, ∃ arcs, net.TreeWalk v arcs root ∧
    t.depthOf v = arcs.length
  depth_le : ∀ v < net.nodeCount, ∀ arcs, net.TreeWalk v arcs root → t.depthOf v ≤ arcs.length
  upArcOf_root : t.upArcOf root = -1
  parentOf_root : t.parentOf root = -1
  /-- The only arc of the tree that leads from a node to one that is nearer to the root. -/
  upArcOf_eq_iff : ∀ v < net.nodeCount, v ≠ root → ∀ arc, t.upArcOf v = arc ↔
    Stored net.arcCount arc ∧ net.isTree arc = true ∧ net.tail arc = v ∧
      t.depthOf (net.head arc) < t.depthOf v
  parentOf_eq : ∀ v < net.nodeCount, v ≠ root → t.parentOf v = net.head (t.upArcOf v)
  potentialOf_root : t.potentialOf root = 0
  reducedCost_eq : ∀ arc, Stored net.arcCount arc → net.isTree arc = true →
    net.reducedCost t arc = 0

namespace Rooted

theorem exists_link (h : t.Rooted net root) (hnet : net.WellFormed) {arc : Int}
    (harc : Stored net.arcCount arc) (htree : net.isTree arc = true) :
    ∃ node parent link, node < net.nodeCount ∧ t.Hangs net node parent link ∧
      (link = arc ∨ link = twin arc) := by
  have htail := hnet.tail_lt arc harc
  have htail' := hnet.tail_lt _ harc.twin
  cases h.covers arc harc htree with
  | inl hup =>
    obtain ⟨parent, -, hhangs, -⟩ := h.hangs_of_upArc htail harc.1 hup
    exact ⟨_, parent, arc, htail, hhangs, Or.inl rfl⟩
  | inr hup =>
    rw [← Network.tail_twin] at hup
    obtain ⟨parent, -, hhangs, -⟩ := h.hangs_of_upArc htail' harc.twin.1 hup
    exact ⟨_, parent, twin arc, htail', hhangs, Or.inr rfl⟩

theorem depthOf_step (h : t.Rooted net root) (hnet : net.WellFormed) {arc : Int}
    (harc : Stored net.arcCount arc) (htree : net.isTree arc = true) :
    (t.upArcOf (net.tail arc) = arc ∧
        t.depthOf (net.tail arc) = t.depthOf (net.head arc) + 1) ∨
      t.depthOf (net.head arc) = t.depthOf (net.tail arc) + 1 := by
  obtain ⟨node, parent, link, -, hhangs, heq⟩ := h.exists_link hnet harc htree
  have hdepth := hhangs.depthOf_eq
  rw [← hhangs.tail_eq, ← hhangs.head_eq] at hdepth
  cases heq with
  | inl heq =>
    subst heq
    exact Or.inl ⟨hhangs.tail_eq ▸ hhangs.upArcOf_eq, hdepth⟩
  | inr heq =>
    rw [heq, Network.tail_twin, Network.head_twin] at hdepth
    exact Or.inr hdepth

/-- No walk along the tree is shorter than the depths of its ends are apart. -/
theorem depthOf_le (h : t.Rooted net root) (hnet : net.WellFormed) (hwalk : net.TreeWalk a arcs b) :
    t.depthOf a ≤ t.depthOf b + arcs.length := by
  induction arcs generalizing a with
  | nil =>
    cases hwalk.passes
    simp
  | cons arc arcs ih =>
    have hrest := ih hwalk.rest
    have hstep := h.depthOf_step hnet (hwalk.stored arc List.mem_cons_self)
      (hwalk.isTree arc List.mem_cons_self)
    rw [hwalk.tail_eq] at hstep
    rw [List.length_cons]
    omega

theorem exists_link_of_mem (h : t.Rooted net root) (hnet : net.WellFormed) {k : Nat}
    (hk : k ∈ net.treeSet) : ∃ node parent link, node < net.nodeCount ∧
      t.Hangs net node parent link ∧ pairOf link = k := by
  have hstored : Stored net.arcCount (2 * k) := Stored.forward hk.1
  obtain ⟨node, parent, link, hnode, hhangs, heq⟩ := h.exists_link hnet hstored hk.2
  have hpair := (pairOf_eq_iff hhangs.stored.1 hstored.1).mpr heq
  exact ⟨node, parent, link, hnode, hhangs, hpair.trans (pairOf_two_mul k)⟩

theorem not_joined_of_hangs (h : t.Rooted net root) (hnet : net.WellFormed) {node parent : Nat}
    {link : Int} (hnode : node < net.nodeCount) (hhangs : t.Hangs net node parent link) :
    ¬ Joined net.ends (net.treeSet \ {pairOf link}) node parent := by
  intro hjoined
  -- the other links lead from below the node to below it, or from elsewhere to elsewhere
  have hsame : t.Below net node node = t.Below net node parent := by
    refine hjoined.value_eq (t.Below net node) fun k hk => ?_
    obtain ⟨child, above, up, hchild, hup, rfl⟩ := h.exists_link_of_mem hnet hk.1
    have hother : child ≠ node := by
      rintro rfl
      have hlink : up = link := hup.upArcOf_eq.symm.trans hhangs.upArcOf_eq
      exact hk.2 (by rw [hlink]; rfl)
    have hkeep := propext (hup.below_iff hchild hother)
    cases net.ends_of_arc hup.stored.1 with
    | inl hends => rwa [hends, hup.tail_eq, hup.head_eq]
    | inr hends => rw [hends, hup.tail_eq, hup.head_eq, hkeep]
  obtain ⟨nodes, hnodes⟩ := hsame.mp ⟨[], .stay hnode⟩
  have hlow := hnodes.depth_mem.1
  have hdepth := hhangs.depthOf_eq
  omega

theorem isSpanningTree (h : t.Rooted net root) (hnet : net.WellFormed) :
    IsSpanningTree net.nodeCount net.ends net.treeSet where
  connected := by
    have hroot : ∀ v < net.nodeCount, Joined net.ends net.treeSet v root := by
      intro v hv
      refine joined_root (· < net.nodeCount) h.linked.depth_nonneg (fun u hu hne => ?_) hv
      obtain ⟨parent, arc, hparent, hhangs, -⟩ := h.hangs u hu hne
      exact ⟨parent, arc, hparent, hhangs, (hnet.mem_treeSet hhangs.stored).mpr hhangs.isTree⟩
    exact fun a ha b hb => (hroot a ha).trans (hroot b hb).symm
  acyclic := by
    intro k hk hjoined
    obtain ⟨node, parent, link, hnode, hhangs, rfl⟩ := h.exists_link_of_mem hnet hk
    rw [← net.joined_arc_iff hhangs.stored.1, hhangs.tail_eq, hhangs.head_eq] at hjoined
    exact h.not_joined_of_hangs hnet hnode hhangs hjoined

theorem describes (h : t.Rooted net root) (hnet : net.WellFormed) : t.Describes net root where
  depth_attained v hv := by
    obtain ⟨nodes, hnodes⟩ := h.hung.exists_ascends hv
    have hdepth := hnodes.depthOf_eq
    rw [h.depthOf_root] at hdepth
    exact ⟨_, hnodes.treeWalk, by rw [hdepth, List.length_map, Int.zero_add]⟩
  depth_le v _ arcs hwalk := by
    have hle := h.depthOf_le hnet hwalk
    rwa [h.depthOf_root, Int.zero_add] at hle
  upArcOf_root := h.upArcOf_root
  parentOf_root := h.parentOf_root
  upArcOf_eq_iff v hv hne arc := by
    constructor
    · rintro rfl
      obtain ⟨parent, arc, -, hhangs, -⟩ := h.hangs v hv hne
      have hdepth := hhangs.depthOf_eq
      rw [hhangs.upArcOf_eq]
      exact ⟨hhangs.stored, hhangs.isTree, hhangs.tail_eq, by rw [hhangs.head_eq]; omega⟩
    · rintro ⟨hstored, htree, rfl, hnear⟩
      cases h.depthOf_step hnet hstored htree with
      | inl hup => exact hup.1
      | inr hdown => omega
  parentOf_eq v hv hne := by
    obtain ⟨parent, arc, -, hhangs, -⟩ := h.hangs v hv hne
    rw [hhangs.parentOf_eq, hhangs.upArcOf_eq, hhangs.head_eq]
  potentialOf_root := h.potentialOf_root
  reducedCost_eq _ := Network.reducedCost_eq_zero hnet h

end Rooted

namespace Describes

theorem congr (h : t.Describes net' root) (hsame : net.SameTree net') : t.Describes net root := by
  have hcount := hsame.nodeCount_eq
  have hedges := hsame.edges_eq
  have harcs := Network.arcCount_congr hedges
  refine ⟨fun v hv => ?_, fun v hv arcs hwalk => ?_, h.upArcOf_root, h.parentOf_root,
    fun v hv hne arc => ?_, fun v hv hne => ?_, h.potentialOf_root, fun arc harc htree => ?_⟩
  · obtain ⟨arcs, hwalk, hlength⟩ := h.depth_attained v (hcount ▸ hv)
    exact ⟨arcs, hsame.symm.treeWalk hwalk, hlength⟩
  · exact h.depth_le v (hcount ▸ hv) arcs (hsame.treeWalk hwalk)
  · rw [h.upArcOf_eq_iff v (hcount ▸ hv) hne arc, harcs, Network.tail_congr hedges,
      Network.head_congr hedges]
    refine and_congr_right fun harc => ?_
    rw [hsame.isTree_eq arc harc]
  · rw [h.parentOf_eq v (hcount ▸ hv) hne, Network.head_congr hedges]
  · have hzero := h.reducedCost_eq arc (harcs ▸ harc) ((hsame.isTree_eq arc harc).trans htree)
    simpa only [Network.reducedCost, Network.cost_congr hedges, Network.tail_congr hedges,
      Network.head_congr hedges] using hzero

section Unique

variable (h : t.Describes net root) (h' : t'.Describes net root)
include h h'

theorem depthOf_eq {v : Nat} (hv : v < net.nodeCount) : t'.depthOf v = t.depthOf v := by
  obtain ⟨arcs, hwalk, hlength⟩ := h.depth_attained v hv
  obtain ⟨arcs', hwalk', hlength'⟩ := h'.depth_attained v hv
  have hle := h.depth_le v hv arcs' hwalk'
  have hle' := h'.depth_le v hv arcs hwalk
  omega

theorem upArcOf_eq (hnet : net.WellFormed) {v : Nat} (hv : v < net.nodeCount) :
    t'.upArcOf v = t.upArcOf v := by
  by_cases hroot : v = root
  · rw [hroot, h.upArcOf_root, h'.upArcOf_root]
  · obtain ⟨harc, htree, htail, hnear⟩ := (h.upArcOf_eq_iff v hv hroot _).mp rfl
    rw [← h.depthOf_eq h' hv, ← h.depthOf_eq h' (hnet.head_lt harc)] at hnear
    exact (h'.upArcOf_eq_iff v hv hroot _).mpr ⟨harc, htree, htail, hnear⟩

theorem parentOf_congr (hnet : net.WellFormed) {v : Nat} (hv : v < net.nodeCount) :
    t'.parentOf v = t.parentOf v := by
  by_cases hroot : v = root
  · rw [hroot, h.parentOf_root, h'.parentOf_root]
  · rw [h.parentOf_eq v hv hroot, h'.parentOf_eq v hv hroot, h.upArcOf_eq h' hnet hv]

theorem eq (hnet : net.WellFormed) (hspanning : IsSpanningTree net.nodeCount net.ends net.treeSet)
    (hroot : root < net.nodeCount) (hsized : t.Sized net.nodeCount)
    (hsized' : t'.Sized net.nodeCount) (hnamed : t'.root = t.root) : t' = t := by
  have hpotential : ∀ v < net.nodeCount, t'.potentialOf v = t.potentialOf v := by
    intro v hv
    have hshift := Network.potentialOf_sub_eq hspanning h.reducedCost_eq h'.reducedCost_eq hv hroot
    rw [h.potentialOf_root, h'.potentialOf_root] at hshift
    omega
  obtain ⟨name, depth, parent, upArc, potential⟩ := t
  obtain ⟨name', depth', parent', upArc', potential'⟩ := t'
  congr 1
  · exact Row.eq_of_get_eq (hsized'.depth.trans hsized.depth.symm) fun v hv =>
      h.depthOf_eq h' (hsized.depth ▸ hv)
  · exact Row.eq_of_get_eq (hsized'.parent.trans hsized.parent.symm) fun v hv =>
      h.parentOf_congr h' hnet (hsized.parent ▸ hv)
  · exact Row.eq_of_get_eq (hsized'.upArc.trans hsized.upArc.symm) fun v hv =>
      h.upArcOf_eq h' hnet (hsized.upArc ▸ hv)
  · exact Row.eq_of_get_eq (hsized'.potential.trans hsized.potential.symm) fun v hv =>
      hpotential v (hsized.potential ▸ hv)

end Unique

end Describes

namespace Walk

variable {w : Walk} {fault : Fault}

theorem run_more (fuel more : Nat)
    (h : (run net fuel w).1 = .ok () → (run net fuel w).2.stack = []) :
    run net (fuel + more) w = run net fuel w := by
  induction fuel generalizing w with
  | zero =>
    have hstack : w.stack = [] := h rfl
    cases more <;> simp [run, hstack]
  | succ fuel ih =>
    rw [Nat.add_right_comm, run, run]
    rw [run] at h
    cases hstack : w.stack with
    | nil => rfl
    | cons node rest =>
      simp only [hstack] at h
      simp only
      generalize scan net node (net.arcsFrom (Row.place net.nodeCount node) true)
        { w with stack := rest } = outcome at *
      obtain ⟨result, w'⟩ := outcome
      cases result with
      | error fault => rfl
      | ok _ => exact ih h

theorem scan_error {node : Int} (h : (scan net node arcs w).1 = .error fault) :
    ∃ child arc, fault = .treeCycle child arc := by
  induction arcs generalizing w with
  | nil => cases h
  | cons arc arcs ih =>
    rw [scan] at h
    split at h
    · exact ih h
    · split at h
      · cases h
        exact ⟨_, _, rfl⟩
      · exact ih h

theorem run_error (fuel : Nat) (h : (run net fuel w).1 = .error fault) :
    ∃ child arc, fault = .treeCycle child arc := by
  induction fuel generalizing w with
  | zero => cases h
  | succ fuel ih =>
    rw [run] at h
    cases hstack : w.stack with
    | nil =>
      rw [hstack] at h
      cases h
    | cons node rest =>
      simp only [hstack] at h
      split at h
      · exact ih h
      · next hscan =>
        cases h
        exact scan_error (congrArg Prod.fst hscan)

end Walk

theorem run_start_more (hnet : net.WellFormed) (hsized : t.Sized net.nodeCount)
    (hnamed : t.root = .int root) (hroot : root < net.nodeCount) (more : Nat) :
    (Walk.start t root).run net (t.nodeCount + more) =
      (Walk.start t root).run net t.nodeCount := by
  have hcount : t.nodeCount = net.nodeCount := hsized.depth
  have hfuel : net.nodeCount + (Walk.start t root).stack.length ≤
      t.nodeCount + (Walk.start t root).reached := by
    rw [hcount]
    exact Nat.le_refl _
  obtain ⟨_, _, hok, _⟩ :=
    Walk.run_sound hnet t.nodeCount (Walk.start_sound hsized hnamed hroot) hfuel
  exact Walk.run_more _ _ fun hdone => (hok hdone).2

/-- A tree that does not span the network is an inconsistency: there is a cycle that the walk runs
into, or nodes are out of its reach. -/
theorem category_of_refresh (hsized : t.Sized net.nodeCount) (hnamed : t.root = .int root)
    (hroot : root < net.nodeCount) {fault : Fault} (h : (t.refresh net).1 = .error fault) :
    fault.category = .internal := by
  simp only [refresh] at h
  rw [hnamed] at h
  simp only [refreshFrom] at h
  rw [if_pos (hsized.hasNode hroot)] at h
  split at h
  · next hrun =>
    cases h
    obtain ⟨_, _, rfl⟩ := Walk.run_error _ (congrArg Prod.fst hrun)
    rfl
  · simp only [checkReached] at h
    split at h
    · cases h
    · cases h
      rfl

/-- A look at the tree from a node succeeds exactly if the edges on the tree span the network. -/
theorem refresh_spec (hnet : net.WellFormed) (hsized : t.Sized net.nodeCount)
    (hnamed : t.root = .int root) (hroot : root < net.nodeCount) :
    (t.refresh net).2.root = t.root ∧
      ((t.refresh net).1 = .ok () → (t.refresh net).2.Rooted net root) ∧
      ((t.refresh net).1 = .ok () ↔ IsSpanningTree net.nodeCount net.ends net.treeSet) := by
  obtain ⟨-, hkept, hrooted, hok⟩ := refreshFrom_spec hnet hsized hnamed hroot
  simp only [refresh]
  rw [hnamed] at hkept ⊢
  exact ⟨hkept, hrooted, fun hdone => (hrooted hdone).isSpanningTree hnet, hok⟩

theorem refresh_eq (hnet : net.WellFormed) (hnet' : net'.WellFormed) (hsame : net.SameTree net')
    (hsized : t.Sized net.nodeCount) (hsized' : t'.Sized net.nodeCount)
    (hnamed : t.root = .int root) (hnamed' : t'.root = t.root) (hroot : root < net.nodeCount)
    (hok : (t.refresh net).1 = .ok ()) : t'.refresh net' = t.refresh net := by
  have hcount := hsame.nodeCount_eq
  obtain ⟨hkept, hrooted, hiff⟩ := refresh_spec hnet hsized hnamed hroot
  obtain ⟨hkept', hrooted', hiff'⟩ := refresh_spec hnet' (hcount ▸ hsized')
    (hnamed'.trans hnamed) (hcount ▸ hroot)
  have hspanning := hiff.mp hok
  have hok' : (t'.refresh net').1 = .ok () := by
    refine hiff'.mpr ⟨?_, ?_⟩
    · rw [hcount, Network.ends_congr hsame.edges_eq, hsame.treeSet_eq]
      exact hspanning.connected
    · rw [Network.ends_congr hsame.edges_eq, hsame.treeSet_eq]
      exact hspanning.acyclic
  have hfound := (hrooted' hok').linked.sized
  rw [hcount] at hfound
  have htree : (t'.refresh net').2 = (t.refresh net).2 :=
    ((hrooted hok).describes hnet).eq (((hrooted' hok').describes hnet').congr hsame) hnet hspanning
      hroot (hrooted hok).linked.sized hfound (hkept'.trans (hnamed'.trans hkept.symm))
  exact Prod.ext (hok'.trans hok.symm) htree

/-- Whatever has been moved before, a look at the tree from a node comes to an end. It succeeds
exactly if the edges on the tree span the network, and describes the tree then. Neither the order of
the lists nor what the tree has held before makes a difference. -/
theorem refresh_of_altered {count items : Value} {start : Network}
    (hbuilt : Network.ofValues count items = .ok start) (h : start.Altered net)
    (hsized : t.Sized start.nodeCount) (hnamed : t.root = .int root)
    (hroot : root < start.nodeCount) :
    (∀ more, (Walk.start t root).run net (t.nodeCount + more) =
      (Walk.start t root).run net t.nodeCount) ∧
    ((t.refresh net).1 = .ok () ↔ IsSpanningTree net.nodeCount net.ends net.treeSet) ∧
    (¬ IsSpanningTree net.nodeCount net.ends net.treeSet → ∃ fault,
      (t.refresh net).1 = .error fault ∧ fault.category = .internal) ∧
    ((t.refresh net).1 = .ok () → (t.refresh net).2.Describes net root ∧
      ∀ (net' : Network) (t' : Tree), start.Altered net' → net'.treeSet = net.treeSet →
        t'.Sized start.nodeCount → t'.root = t.root → t'.refresh net' = t.refresh net) := by
  have hstart := Network.wellFormed_of_ofValues hbuilt
  obtain ⟨hwell, hcount, -⟩ := h.wellFormed hstart
  rw [← hcount] at hsized hroot ⊢
  obtain ⟨-, hrooted, hiff⟩ := refresh_spec hwell hsized hnamed hroot
  refine ⟨run_start_more hwell hsized hnamed hroot, hiff, fun hbroken => ?_, fun hdone => ?_⟩
  · cases hresult : (t.refresh net).1 with
    | ok _ => exact absurd (hiff.mp hresult) hbroken
    | error fault => exact ⟨fault, rfl, category_of_refresh hsized hnamed hroot hresult⟩
  · refine ⟨(hrooted hdone).describes hwell, fun net' t' h' htree hsized' hnamed' => ?_⟩
    exact refresh_eq hwell (h'.wellFormed hstart).1 (h.sameTree hstart h' htree) hsized hsized'
      hnamed hnamed' hroot hdone

set_option maxRecDepth 10000 in
theorem altered_triangle : ∃ start net : Network,
    Network.ofValues (.int 3) Solver.triangle = .ok start ∧ start.Altered net ∧
      start.nodeCount = 3 ∧ ((blank 3 (.int 1)).refresh net).1 = .ok () ∧
      ((blank 3 (.int 1)).refresh net).2.pathArcs (.int 1) (.int 0) = .ok [4, 2] := by
  obtain ⟨start, off, net, hstart, hoff, hon, hroom, hroom', hrest⟩ :
      ∃ start off net : Network, Network.ofValues (.int 3) Solver.triangle = .ok start ∧
        start.setTreeStatus 0 false = (.ok (), off) ∧ off.setTreeStatus 4 true = (.ok (), net) ∧
        start.arcCount = 10 ∧ off.arcCount = 10 ∧ start.nodeCount = 3 ∧
        ((blank 3 (.int 1)).refresh net).1 = .ok () ∧
        ((blank 3 (.int 1)).refresh net).2.pathArcs (.int 1) (.int 0) = .ok [4, 2] :=
    ⟨_, _, _, rfl, rfl, rfl, rfl, rfl, rfl, rfl, rfl⟩
  have hfirst : Stored start.arcCount 0 := ⟨by decide, by rw [hroom]; decide⟩
  have hthird : Stored off.arcCount 4 := ⟨by decide, by rw [hroom']; decide⟩
  exact ⟨start, net, hstart, .move hthird hon (.move hfirst hoff .start), hrest⟩

theorem refresh_of_altered_triangle : ∃ start net : Network,
    Network.ofValues (.int 3) Solver.triangle = .ok start ∧ start.Altered net ∧
      IsSpanningTree net.nodeCount net.ends net.treeSet ∧
      ((blank 3 (.int 1)).refresh net).2.Describes net 1 ∧
      ((blank 3 (.int 1)).link start 2 0).refresh net = (blank 3 (.int 1)).refresh net := by
  obtain ⟨start, net, hstart, halter, hthree, hok, -⟩ := altered_triangle
  have hsized : (blank 3 (.int 1)).Sized start.nodeCount := hthree ▸ sized_blank 3 _
  have hnamed : (blank 3 (.int 1)).root = .int (1 : Nat) := rfl
  obtain ⟨-, hiff, -, hfound⟩ :=
    refresh_of_altered hstart halter hsized hnamed (by rw [hthree]; decide)
  obtain ⟨hdescribes, hsame⟩ := hfound hok
  exact ⟨start, net, hstart, halter, hiff.mp hok, hdescribes,
    hsame net _ halter rfl (hsized.link start 2 0) rfl⟩

end Tree

end Circulation
