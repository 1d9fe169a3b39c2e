import Circulation.Pricing
import Circulation.Proofs.WellFormed

/-!
Trees that describe a network's tree arcs. In a linked tree each node that has a parent hangs from
it by a tree arc, one step deeper; a rooted tree links all nodes below its root, knows all tree arcs
and has their potentials. Main result: the tree arcs of a rooted tree have reduced cost zero.
-/

namespace Circulation.Tree

open Adjacency (Stored)

/-- A node hangs from its parent by a tree arc. -/
structure Hangs (t : Tree) (net : Network) (node parent : Nat) (arc : Int) : Prop where
  parentOf_eq : t.parentOf node = parent
  upArcOf_eq : t.upArcOf node = arc
  stored : Stored net.arcCount arc
  tail_eq : net.tail arc = node
  head_eq : net.head arc = parent
  isTree : net.isTree arc = true
  depthOf_eq : t.depthOf node = t.depthOf parent + 1

structure Sized (t : Tree) (nodeCount : Nat) : Prop where
  depth : t.depth.size = nodeCount
  parent : t.parent.size = nodeCount
  upArc : t.upArc.size = nodeCount
  potential : t.potential.size = nodeCount

theorem Sized.hasNode {t : Tree} {nodeCount : Nat} (h : t.Sized nodeCount) {node : Nat}
    (hnode : node < nodeCount) : t.hasNode node = true := by
  have hcount : t.nodeCount = nodeCount := h.depth
  simp only [Tree.hasNode, Row.holds, Bool.and_eq_true, decide_eq_true_eq]
  omega

/-- Each node that has a parent hangs from it. Other nodes may be unknown. -/
structure Linked (t : Tree) (net : Network) : Prop where
  sized : t.Sized net.nodeCount
  hangs : ∀ node < net.nodeCount, t.parentOf node ≠ -1 →
    ∃ parent arc, parent < net.nodeCount ∧ t.Hangs net node parent arc
  depth_nonneg : ∀ node < net.nodeCount, 0 ≤ t.depthOf node
  depth_lt : ∀ node < net.nodeCount, t.depthOf node < net.nodeCount

/-- All nodes are linked to the root, and there are no tree arcs but the links. -/
structure Rooted (t : Tree) (net : Network) (root : Nat) : Prop where
  linked : t.Linked net
  root_lt : root < net.nodeCount
  upArcOf_root : t.upArcOf root = -1
  parentOf_root : t.parentOf root = -1
  depthOf_root : t.depthOf root = 0
  potentialOf_root : t.potentialOf root = 0
  hangs : ∀ node < net.nodeCount, node ≠ root → ∃ parent arc, parent < net.nodeCount ∧
    t.Hangs net node parent arc ∧ t.potentialOf node = t.potentialOf parent + net.cost arc
  covers : ∀ arc, Stored net.arcCount arc → net.isTree arc = true →
    t.upArcOf (net.tail arc) = arc ∨ t.upArcOf (net.head arc) = twin arc

namespace Hangs

variable {t : Tree} {net : Network} {node other parent parent' : Nat} {arc arc' : Int}

theorem eq_of_pairOf_eq (h : t.Hangs net node parent arc) (h' : t.Hangs net other parent' arc')
    (hpair : pairOf arc = pairOf arc') : node = other := by
  cases eq_or_eq_twin h.stored.1 h'.stored.1 hpair with
  | inl heq => rw [← h.tail_eq, ← h'.tail_eq, heq]
  | inr heq =>
    -- otherwise each of the two nodes would be the parent of the other one
    have hnode : node = parent' := by rw [← h.tail_eq, heq, Network.tail_twin, h'.head_eq]
    have hother : parent = other := by
      rw [← h.head_eq, heq, Network.head_twin, h'.tail_eq]
    have hdepth := h.depthOf_eq
    have hdepth' := h'.depthOf_eq
    rw [hnode, hother] at hdepth
    omega

end Hangs

theorem joined_root {t : Tree} {net : Network} {root : Nat} (known : Nat → Prop) {pairs : Set Nat}
    {low : Int} (hdepth : ∀ v, known v → low ≤ t.depthOf v)
    (hlink : ∀ v, known v → v ≠ root → ∃ parent arc, known parent ∧
      t.Hangs net v parent arc ∧ pairOf arc ∈ pairs) {node : Nat} (hnode : known node) :
    Joined net.ends pairs node root := by
  obtain ⟨n, hn⟩ := Int.eq_ofNat_of_zero_le (Int.sub_nonneg.mpr (hdepth node hnode))
  induction n using Nat.strong_induction_on generalizing node with
  | _ n ih =>
    by_cases hroot : node = root
    · rw [hroot]
      exact Joined.refl root
    · obtain ⟨parent, arc, hparent, hhangs, hpair⟩ := hlink node hnode hroot
      have hstep := net.joined_arc hhangs.stored.1 hpair
      rw [hhangs.tail_eq, hhangs.head_eq] at hstep
      have hless := hhangs.depthOf_eq
      have hpos := hdepth parent hparent
      exact hstep.trans (ih (t.depthOf parent - low).toNat (by omega) hparent (by omega))

namespace Rooted

variable {t : Tree} {net : Network} {root : Nat}

theorem hangs_of_upArc (h : t.Rooted net root) {arc : Int}
    (hnode : net.tail arc < net.nodeCount) (hpos : 0 ≤ arc)
    (hup : t.upArcOf (net.tail arc) = arc) : ∃ parent < net.nodeCount,
      t.Hangs net (net.tail arc) parent arc ∧
        t.potentialOf (net.tail arc) = t.potentialOf parent + net.cost arc := by
  have hroot : net.tail arc ≠ root := by
    intro heq
    rw [heq, h.upArcOf_root] at hup
    omega
  obtain ⟨parent, arc', hparent, hhangs, hpotential⟩ := h.hangs _ hnode hroot
  have harc : arc' = arc := hhangs.upArcOf_eq.symm.trans hup
  subst harc
  exact ⟨parent, hparent, hhangs, hpotential⟩

theorem reducedCost_of_upArc (h : t.Rooted net root) {arc : Int}
    (hnode : net.tail arc < net.nodeCount) (hpos : 0 ≤ arc)
    (hup : t.upArcOf (net.tail arc) = arc) : net.reducedCost t arc = 0 := by
  obtain ⟨parent, -, hhangs, hpotential⟩ := h.hangs_of_upArc hnode hpos hup
  simp only [Network.reducedCost]
  rw [hpotential, hhangs.head_eq]
  omega

end Rooted

end Circulation.Tree

namespace Circulation.Network

variable {net : Network} {t : Tree}

theorem reducedCost_twin (net : Network) (t : Tree) (arc : Int) :
    net.reducedCost t (twin arc) = -net.reducedCost t arc := by
  simp only [reducedCost]
  rw [cost_twin, tail_twin, head_twin]
  omega

theorem reducedCost_eq_zero {root : Nat} (hnet : net.WellFormed) (h : t.Rooted net root) {arc : Int}
    (harc : Adjacency.Stored net.arcCount arc) (htree : net.isTree arc = true) :
    net.reducedCost t arc = 0 := by
  cases h.covers arc harc htree with
  | inl hup => exact h.reducedCost_of_upArc (hnet.tail_lt arc harc) harc.1 hup
  | inr hup =>
    have hzero : net.reducedCost t (twin arc) = 0 :=
      h.reducedCost_of_upArc (hnet.tail_lt _ harc.twin) harc.twin.1 (by rwa [tail_twin])
    rw [reducedCost_twin] at hzero
    omega

end Circulation.Network
