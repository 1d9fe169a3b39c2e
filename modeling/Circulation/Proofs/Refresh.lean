import Mathlib.Algebra.Order.BigOperators.Group.Finset
import Circulation.Proofs.Rooted

/-!
The walk that derives a tree. At every moment the nodes reached hang from each other, and the tree
arcs of the nodes that are done with are known; a cycle stops the walk. Main results: what a refresh
leaves behind is linked, a refresh that succeeds leaves a rooted tree, and it succeeds if the tree
arcs span the network.
-/

namespace Circulation.Tree

open Adjacency (Stored)

section Reading

variable {t : Tree} {net : Network} {nodeCount : Nat} {arc : Int}

theorem Row.get_replicate {α : Type} (size : Nat) (i : Int) (x : α) :
    Row.get (Array.replicate size x) i x = x := by
  simp only [Row.get]
  rw [Array.getD_eq_getD_getElem?, Array.getElem?_replicate]
  split <;> rfl

@[simp] theorem depthOf_blank (nodeCount : Nat) (root : Value) (node : Int) :
    (blank nodeCount root).depthOf node = 0 :=
  Row.get_replicate nodeCount node 0

@[simp] theorem parentOf_blank (nodeCount : Nat) (root : Value) (node : Int) :
    (blank nodeCount root).parentOf node = -1 :=
  Row.get_replicate nodeCount node (-1)

@[simp] theorem upArcOf_blank (nodeCount : Nat) (root : Value) (node : Int) :
    (blank nodeCount root).upArcOf node = -1 :=
  Row.get_replicate nodeCount node (-1)

@[simp] theorem potentialOf_blank (nodeCount : Nat) (root : Value) (node : Int) :
    (blank nodeCount root).potentialOf node = 0 :=
  Row.get_replicate nodeCount node 0

theorem sized_blank (nodeCount : Nat) (root : Value) : (blank nodeCount root).Sized nodeCount := by
  constructor <;> simp [blank]

theorem Sized.adopt (h : t.Sized nodeCount) (net : Network) (node arc : Int) :
    (t.adopt net node arc).Sized nodeCount := by
  obtain ⟨hdepth, hparent, hupArc, hpotential⟩ := h
  constructor <;> simpa [Tree.adopt, Tree.link]

theorem Sized.link (h : t.Sized nodeCount) (net : Network) (node arc : Int) :
    (t.link net node arc).Sized nodeCount := by
  obtain ⟨hdepth, hparent, hupArc, hpotential⟩ := h
  constructor <;> simpa [Tree.link]

theorem depthOf_link (h : t.Sized nodeCount) (hchild : net.head arc < nodeCount) (node : Int)
    (v : Nat) :
    (t.link net node arc).depthOf v =
      if v = net.head arc then t.depthOf node + 1 else t.depthOf v := by
  simp only [link, depthOf]
  rw [Row.get_natCast, Row.get_natCast, Row.getD_setIfInBounds]
  simp [h.depth, hchild]

theorem parentOf_link (h : t.Sized nodeCount) (hchild : net.head arc < nodeCount) (node : Int)
    (v : Nat) :
    (t.link net node arc).parentOf v = if v = net.head arc then node else t.parentOf v := by
  simp only [link, parentOf]
  rw [Row.get_natCast, Row.get_natCast, Row.getD_setIfInBounds]
  simp [h.parent, hchild]

theorem upArcOf_link (h : t.Sized nodeCount) (hchild : net.head arc < nodeCount) (node : Int)
    (v : Nat) :
    (t.link net node arc).upArcOf v = if v = net.head arc then twin arc else t.upArcOf v := by
  simp only [link, upArcOf]
  rw [Row.get_natCast, Row.get_natCast, Row.getD_setIfInBounds]
  simp [h.upArc, hchild]

theorem potentialOf_adopt (h : t.Sized nodeCount) (hchild : net.head arc < nodeCount) (node : Int)
    (v : Nat) :
    (t.adopt net node arc).potentialOf v =
      if v = net.head arc then t.potentialOf node - net.cost arc else t.potentialOf v := by
  simp only [adopt, potentialOf]
  rw [Row.get_natCast, Row.getD_setIfInBounds, Row.get_natCast]
  simp [h.potential, hchild]

end Reading

theorem Hangs.link {t : Tree} {net : Network} {v parent : Nat} {node arc a : Int}
    (h : t.Hangs net v parent a) (hsized : t.Sized net.nodeCount)
    (hchild : net.head arc < net.nodeCount) (hv : v ≠ net.head arc)
    (hparent : parent ≠ net.head arc) :
    (t.link net node arc).Hangs net v parent a where
  parentOf_eq := by rw [parentOf_link hsized hchild, if_neg hv, h.parentOf_eq]
  upArcOf_eq := by rw [upArcOf_link hsized hchild, if_neg hv, h.upArcOf_eq]
  stored := h.stored
  tail_eq := h.tail_eq
  head_eq := h.head_eq
  isTree := h.isTree
  depthOf_eq := by
    rw [depthOf_link hsized hchild, depthOf_link hsized hchild, if_neg hv, if_neg hparent,
      h.depthOf_eq]

theorem hangs_link {t : Tree} {net : Network} (hnet : net.WellFormed) {arc : Int}
    (hsized : t.Sized net.nodeCount) (harc : Stored net.arcCount arc)
    (htree : net.isTree arc = true) (hne : net.tail arc ≠ net.head arc) :
    (t.link net (net.tail arc) arc).Hangs net (net.head arc) (net.tail arc) (twin arc) where
  parentOf_eq := by rw [parentOf_link hsized (hnet.head_lt harc), if_pos rfl]
  upArcOf_eq := by rw [upArcOf_link hsized (hnet.head_lt harc), if_pos rfl]
  stored := harc.twin
  tail_eq := net.tail_twin arc
  head_eq := net.head_twin arc
  isTree := by rw [hnet.isTree_twin arc harc, htree]
  depthOf_eq := by
    rw [depthOf_link hsized (hnet.head_lt harc), depthOf_link hsized (hnet.head_lt harc),
      if_pos rfl, if_neg hne]

theorem Hangs.adopt {t : Tree} {net : Network} {v parent : Nat} {node arc a : Int}
    (h : (t.link net node arc).Hangs net v parent a) :
    (t.adopt net node arc).Hangs net v parent a :=
  ⟨h.parentOf_eq, h.upArcOf_eq, h.stored, h.tail_eq, h.head_eq, h.isTree, h.depthOf_eq⟩

namespace Walk

def Known (w : Walk) (node : Nat) : Prop := w.visited.getD node false = true

instance (w : Walk) (node : Nat) : Decidable (w.Known node) :=
  inferInstanceAs (Decidable (_ = true))

/-- A walk on its way from the root. `pending` are the arcs of the node that is being looked at
which are still to come. -/
structure Sound (w : Walk) (net : Network) (root : Nat) (pending : List Int) : Prop where
  named : w.tree.root = .int root
  sized : w.tree.Sized net.nodeCount
  size_visited : w.visited.size = net.nodeCount
  known_root : w.Known root
  upArcOf_root : w.tree.upArcOf root = -1
  parentOf_root : w.tree.parentOf root = -1
  depthOf_root : w.tree.depthOf root = 0
  potentialOf_root : w.tree.potentialOf root = 0
  unknown : ∀ v : Nat, ¬ w.Known v → w.tree.parentOf v = -1 ∧ w.tree.depthOf v = 0
  hangs : ∀ v : Nat, w.Known v → v ≠ root → ∃ (parent : Nat) (arc : Int), w.Known parent ∧
    (parent : Int) ∉ w.stack ∧ twin arc ∉ pending ∧ w.tree.Hangs net v parent arc ∧
      w.tree.potentialOf v = w.tree.potentialOf parent + net.cost arc
  depth_nonneg : ∀ v : Nat, w.Known v → 0 ≤ w.tree.depthOf v
  depth_lt : ∀ v : Nat, w.Known v → w.tree.depthOf v < w.reached
  reached_eq : w.reached = ((Finset.range net.nodeCount).filter w.Known).card
  stacked : ∀ x ∈ w.stack, ∃ v : Nat, w.Known v ∧ x = v
  nodup : w.stack.Nodup
  covered : ∀ arc, Stored net.arcCount arc → net.isTree arc = true → w.Known (net.tail arc) →
    (net.tail arc : Int) ∉ w.stack → arc ∉ pending → w.tree.upArcOf (net.tail arc) = arc ∨
      (w.Known (net.head arc) ∧ w.tree.upArcOf (net.head arc) = twin arc)

variable {w : Walk} {net : Network} {root : Nat} {arc : Int} {pending : List Int}

theorem known_reach (hsize : w.visited.size = net.nodeCount) (hhead : net.head arc < net.nodeCount)
    (node : Int) (v : Nat) :
    (w.reach net node arc).Known v ↔ v = net.head arc ∨ w.Known v := by
  unfold Known reach
  simp only
  rw [Row.getD_setIfInBounds]
  by_cases hv : v = net.head arc
  · simp [hv, hsize, hhead]
  · simp [hv]

section Reach

variable (hsized : w.tree.Sized net.nodeCount) (hchild : net.head arc < net.nodeCount) (node : Int)
  (v : Nat)

include hsized hchild

theorem parentOf_reach : (w.reach net node arc).tree.parentOf v =
    if v = net.head arc then node else w.tree.parentOf v :=
  parentOf_link hsized hchild node v

theorem upArcOf_reach : (w.reach net node arc).tree.upArcOf v =
    if v = net.head arc then twin arc else w.tree.upArcOf v :=
  upArcOf_link hsized hchild node v

theorem depthOf_reach : (w.reach net node arc).tree.depthOf v =
    if v = net.head arc then w.tree.depthOf node + 1 else w.tree.depthOf v :=
  depthOf_link hsized hchild node v

theorem potentialOf_reach : (w.reach net node arc).tree.potentialOf v =
    if v = net.head arc then w.tree.potentialOf node - net.cost arc else w.tree.potentialOf v :=
  potentialOf_adopt hsized hchild node v

end Reach

theorem card_reach (hsize : w.visited.size = net.nodeCount) (hchild : net.head arc < net.nodeCount)
    (hnew : ¬ w.Known (net.head arc)) (node : Int) :
    ((Finset.range net.nodeCount).filter (w.reach net node arc).Known).card =
      ((Finset.range net.nodeCount).filter w.Known).card + 1 := by
  have hinsert : (Finset.range net.nodeCount).filter (w.reach net node arc).Known =
      insert (net.head arc) ((Finset.range net.nodeCount).filter w.Known) := by
    ext v
    simp only [Finset.mem_filter, Finset.mem_range, Finset.mem_insert,
      known_reach hsize hchild node]
    constructor
    · rintro ⟨hlt, hv | hv⟩
      · exact Or.inl hv
      · exact Or.inr ⟨hlt, hv⟩
    · rintro (hv | ⟨hlt, hv⟩)
      · exact ⟨hv ▸ hchild, Or.inl hv⟩
      · exact ⟨hlt, Or.inr hv⟩
  rw [hinsert, Finset.card_insert_of_notMem (by simp [hnew])]

namespace Sound

theorem lt_nodeCount (h : w.Sound net root pending) {v : Nat} (hv : w.Known v) :
    v < net.nodeCount := by
  rw [← h.size_visited]
  by_contra hlarge
  simp only [Known] at hv
  rw [Array.getD_eq_getD_getElem?, Array.getElem?_eq_none (by omega)] at hv
  cases hv

theorem reached_le (h : w.Sound net root pending) : w.reached ≤ net.nodeCount := by
  rw [h.reached_eq]
  simpa using Finset.card_filter_le (Finset.range net.nodeCount) w.Known

theorem skip (h : w.Sound net root (arc :: pending)) (hup : w.tree.upArcOf (net.tail arc) = arc) :
    w.Sound net root pending where
  named := h.named
  sized := h.sized
  size_visited := h.size_visited
  known_root := h.known_root
  upArcOf_root := h.upArcOf_root
  parentOf_root := h.parentOf_root
  depthOf_root := h.depthOf_root
  potentialOf_root := h.potentialOf_root
  unknown := h.unknown
  hangs v hv hroot := by
    obtain ⟨parent, a, hparent, hstack, hpending, hrest⟩ := h.hangs v hv hroot
    exact ⟨parent, a, hparent, hstack, fun hmem => hpending (List.mem_cons_of_mem _ hmem), hrest⟩
  depth_nonneg := h.depth_nonneg
  depth_lt := h.depth_lt
  reached_eq := h.reached_eq
  stacked := h.stacked
  nodup := h.nodup
  covered a ha htree hknown hstack hpending := by
    by_cases hsame : a = arc
    · subst hsame
      exact Or.inl hup
    · exact h.covered a ha htree hknown hstack (by simp [hsame, hpending])

theorem not_acyclic (h : w.Sound net root (arc :: pending)) (hnet : net.WellFormed)
    (harc : Stored net.arcCount arc) (htree : net.isTree arc = true)
    (htail : w.Known (net.tail arc)) (hhead : w.Known (net.head arc))
    (hup : w.tree.upArcOf (net.tail arc) ≠ arc) : ¬ Acyclic net.ends net.treeSet := by
  intro hacyclic
  have hjoined : ∀ {v : Nat}, w.Known v → Joined net.ends (net.treeSet \ {pairOf arc}) v root := by
    intro v hv
    refine joined_root w.Known h.depth_nonneg (fun u hu hroot => ?_) hv
    obtain ⟨parent, a, hparent, _, hpending, hhangs, _⟩ := h.hangs u hu hroot
    refine ⟨parent, a, hparent, hhangs, (hnet.mem_treeSet hhangs.stored).mpr hhangs.isTree, ?_⟩
    intro hpair
    cases eq_or_eq_twin hhangs.stored.1 harc.1 hpair with
    | inl hsame =>
      apply hup
      rw [← hsame, hhangs.tail_eq, hhangs.upArcOf_eq]
    | inr hsame =>
      apply hpending
      rw [hsame, twin_twin]
      exact List.mem_cons_self
  have hends := (hjoined htail).trans (hjoined hhead).symm
  have hmem := (hnet.mem_treeSet harc).mpr htree
  have hcycle := hacyclic _ hmem
  rw [← net.joined_arc_iff harc.1] at hcycle
  exact hcycle hends

theorem hangs_reach (h : w.Sound net root (arc :: pending)) (hnet : net.WellFormed)
    (harc : Stored net.arcCount arc) (htree : net.isTree arc = true)
    (htail : w.Known (net.tail arc)) (hnew : ¬ w.Known (net.head arc))
    (hstack : (net.tail arc : Int) ∉ w.stack) (hfresh : arc ∉ pending) (v : Nat)
    (hv : (w.reach net (net.tail arc) arc).Known v) (hvroot : v ≠ root) :
    ∃ (parent : Nat) (a : Int), (w.reach net (net.tail arc) arc).Known parent ∧
      (parent : Int) ∉ (w.reach net (net.tail arc) arc).stack ∧ twin a ∉ pending ∧
        (w.reach net (net.tail arc) arc).tree.Hangs net v parent a ∧
          (w.reach net (net.tail arc) arc).tree.potentialOf v =
            (w.reach net (net.tail arc) arc).tree.potentialOf parent + net.cost a := by
  have hchild := hnet.head_lt harc
  have hknown := known_reach (w := w) h.size_visited hchild (net.tail arc)
  have hpotentialOf := potentialOf_reach h.sized hchild (net.tail arc)
  have hapart : ∀ {v : Nat}, w.Known v → v ≠ net.head arc := fun hv heq => hnew (heq ▸ hv)
  have hpushed : ∀ {u : Nat}, w.Known u → (u : Int) ∉ w.stack →
      (u : Int) ∉ (w.reach net (net.tail arc) arc).stack := by
    intro u hu hout
    change (u : Int) ∉ (net.head arc : Int) :: w.stack
    rw [List.mem_cons, not_or]
    exact ⟨fun heq => hapart hu (by omega), hout⟩
  cases (hknown v).mp hv with
  | inl hv =>
    subst hv
    refine ⟨net.tail arc, twin arc, (hknown _).mpr (Or.inr htail), hpushed htail hstack,
      by rwa [twin_twin], (hangs_link hnet h.sized harc htree (hapart htail)).adopt, ?_⟩
    rw [hpotentialOf, hpotentialOf, if_pos rfl, if_neg (hapart htail), Network.cost_twin]
    omega
  | inr hv =>
    obtain ⟨parent, a, hparent, hout, hpending, hhangs, hpotential⟩ := h.hangs v hv hvroot
    refine ⟨parent, a, (hknown parent).mpr (Or.inr hparent), hpushed hparent hout,
      fun hmem => hpending (List.mem_cons_of_mem _ hmem),
      (hhangs.link h.sized hchild (hapart hv) (hapart hparent)).adopt, ?_⟩
    rw [hpotentialOf, hpotentialOf, if_neg (hapart hv), if_neg (hapart hparent), hpotential]

theorem covered_reach (h : w.Sound net root (arc :: pending))
    (hchild : net.head arc < net.nodeCount) (hnew : ¬ w.Known (net.head arc))
    (a : Int) (ha : Stored net.arcCount a) (hatree : net.isTree a = true)
    (htail : (w.reach net (net.tail arc) arc).Known (net.tail a))
    (hout : (net.tail a : Int) ∉ (w.reach net (net.tail arc) arc).stack) (hpending : a ∉ pending) :
    (w.reach net (net.tail arc) arc).tree.upArcOf (net.tail a) = a ∨
      ((w.reach net (net.tail arc) arc).Known (net.head a) ∧
        (w.reach net (net.tail arc) arc).tree.upArcOf (net.head a) = twin a) := by
  have hknown := known_reach (w := w) h.size_visited hchild (net.tail arc)
  have hupArcOf := upArcOf_reach h.sized hchild (net.tail arc)
  change (net.tail a : Int) ∉ (net.head arc : Int) :: w.stack at hout
  rw [List.mem_cons, not_or] at hout
  have hne : net.tail a ≠ net.head arc := fun heq => hout.1 (by rw [heq])
  rw [hupArcOf, hupArcOf, if_neg hne, hknown]
  by_cases hsame : a = arc
  · subst hsame
    exact Or.inr ⟨Or.inl rfl, if_pos rfl⟩
  · cases h.covered a ha hatree (((hknown _).mp htail).resolve_left hne) hout.2
        (by simp [hsame, hpending]) with
    | inl hup => exact Or.inl hup
    | inr hhead =>
      have hapart : net.head a ≠ net.head arc := fun heq => hnew (heq ▸ hhead.1)
      exact Or.inr ⟨Or.inr hhead.1, by rw [if_neg hapart, hhead.2]⟩

theorem reach (h : w.Sound net root (arc :: pending)) (hnet : net.WellFormed)
    (harc : Stored net.arcCount arc) (htree : net.isTree arc = true)
    (htail : w.Known (net.tail arc)) (hnew : ¬ w.Known (net.head arc))
    (hstack : (net.tail arc : Int) ∉ w.stack) (hfresh : arc ∉ pending) :
    (w.reach net (net.tail arc) arc).Sound net root pending := by
  have hchild := hnet.head_lt harc
  have hknown := known_reach (w := w) h.size_visited hchild (net.tail arc)
  have hparentOf := parentOf_reach h.sized hchild (net.tail arc)
  have hdepthOf := depthOf_reach h.sized hchild (net.tail arc)
  have hapart : ∀ {v : Nat}, w.Known v → v ≠ net.head arc := fun hv heq => hnew (heq ▸ hv)
  have hroot : root ≠ net.head arc := hapart h.known_root
  have hcount : (w.reach net (net.tail arc) arc).reached = w.reached + 1 := rfl
  have hpushed : (w.reach net (net.tail arc) arc).stack = (net.head arc : Int) :: w.stack := rfl
  constructor
  case named => exact h.named
  case sized => exact h.sized.adopt net _ arc
  case size_visited => simpa [Walk.reach] using h.size_visited
  case known_root => exact (hknown root).mpr (Or.inr h.known_root)
  case upArcOf_root => rw [upArcOf_reach h.sized hchild, if_neg hroot, h.upArcOf_root]
  case parentOf_root => rw [hparentOf, if_neg hroot, h.parentOf_root]
  case depthOf_root => rw [hdepthOf, if_neg hroot, h.depthOf_root]
  case potentialOf_root => rw [potentialOf_reach h.sized hchild, if_neg hroot, h.potentialOf_root]
  case unknown =>
    intro v hv
    rw [hknown, not_or] at hv
    rw [hparentOf, hdepthOf, if_neg hv.1, if_neg hv.1]
    exact h.unknown v hv.2
  case hangs => exact h.hangs_reach hnet harc htree htail hnew hstack hfresh
  case depth_nonneg =>
    intro v hv
    have hpos := h.depth_nonneg _ htail
    rw [hdepthOf]
    split
    · omega
    · next hne => exact h.depth_nonneg v (((hknown v).mp hv).resolve_left hne)
  case depth_lt =>
    intro v hv
    have hless := h.depth_lt _ htail
    rw [hdepthOf, hcount]
    split
    · omega
    · next hne =>
      have hless' := h.depth_lt v (((hknown v).mp hv).resolve_left hne)
      omega
  case reached_eq => rw [hcount, card_reach h.size_visited hchild hnew, h.reached_eq]
  case stacked =>
    intro x hx
    rw [hpushed, List.mem_cons] at hx
    cases hx with
    | inl hx => exact ⟨net.head arc, (hknown _).mpr (Or.inl rfl), hx⟩
    | inr hx =>
      obtain ⟨v, hv, hxv⟩ := h.stacked x hx
      exact ⟨v, (hknown v).mpr (Or.inr hv), hxv⟩
  case nodup =>
    rw [hpushed, List.nodup_cons]
    refine ⟨fun hmem => ?_, h.nodup⟩
    obtain ⟨v, hv, heq⟩ := h.stacked _ hmem
    exact hapart hv (by omega)
  case covered => exact h.covered_reach hchild hnew

end Sound

/-- Looking at all arcs of a node either reaches the far ends of all of them or finds a cycle. -/
theorem scan_sound (hnet : net.WellFormed) {node : Nat} {arcs : List Int} (hnodup : arcs.Nodup)
    (harcs : ∀ a ∈ arcs, Stored net.arcCount a ∧ net.tail a = node ∧ net.isTree a = true)
    (h : w.Sound net root arcs) (hnode : w.Known node) (hstack : (node : Int) ∉ w.stack) :
    ∃ rest, (scan net node arcs w).2.Sound net root rest ∧
      ((scan net node arcs w).1 = .ok () → rest = [] ∧
        (scan net node arcs w).2.stack.length + w.reached =
          w.stack.length + (scan net node arcs w).2.reached) ∧
      ((scan net node arcs w).1 ≠ .ok () → ¬ Acyclic net.ends net.treeSet) := by
  induction arcs generalizing w with
  | nil => exact ⟨[], h, fun _ => ⟨rfl, rfl⟩, fun hne => absurd rfl hne⟩
  | cons arc arcs ih =>
    rw [List.nodup_cons] at hnodup
    obtain ⟨harc, htail, htree⟩ := harcs arc List.mem_cons_self
    have harcs' := fun a ha => harcs a (List.mem_cons_of_mem arc ha)
    rw [scan]
    by_cases hup : arc = w.tree.upArcOf node
    · rw [if_pos hup]
      exact ih hnodup.2 harcs' (h.skip (by rw [htail]; exact hup.symm)) hnode hstack
    · rw [if_neg hup]
      by_cases hknown : w.visited.getD (net.head arc) false = true
      · rw [if_pos hknown]
        have hother : w.tree.upArcOf (net.tail arc) ≠ arc := by
          rw [htail]
          exact fun heq => hup heq.symm
        exact ⟨_, h, nofun, fun _ =>
          h.not_acyclic hnet harc htree (by rwa [htail]) hknown hother⟩
      · rw [if_neg hknown]
        subst htail
        have hreach := h.reach hnet harc htree hnode hknown hstack hnodup.1
        have hreached := known_reach (w := w) h.size_visited (hnet.head_lt harc) (net.tail arc)
        have hstack' : (net.tail arc : Int) ∉ (w.reach net (net.tail arc) arc).stack := by
          intro hmem
          cases List.mem_cons.mp hmem with
          | inl heq => exact hknown (by rwa [← Int.natCast_inj.mp heq])
          | inr hmem => exact hstack hmem
        obtain ⟨rest, hsound, hok, hcycle⟩ :=
          ih hnodup.2 harcs' hreach ((hreached _).mpr (Or.inr hnode)) hstack'
        refine ⟨rest, hsound, fun hscan => ?_, hcycle⟩
        obtain ⟨hrest, hlength⟩ := hok hscan
        have hpushed : (w.reach net (net.tail arc) arc).stack.length = w.stack.length + 1 := rfl
        have hcount : (w.reach net (net.tail arc) arc).reached = w.reached + 1 := rfl
        exact ⟨hrest, by omega⟩

theorem Sound.pop (h : w.Sound net root []) (hnet : net.WellFormed) {node : Nat} {rest : List Int}
    (hstack : w.stack = (node : Int) :: rest) :
    ({ w with stack := rest } : Walk).Sound net root (net.arcsFrom node true) := by
  have hnodup := h.nodup
  rw [hstack, List.nodup_cons] at hnodup
  obtain ⟨v, hv, heq⟩ := h.stacked node (by rw [hstack]; exact List.mem_cons_self)
  have hnode : node < net.nodeCount := by
    have hlt := h.lt_nodeCount hv
    omega
  have hout : ∀ {x : Nat}, (x : Int) ∉ w.stack → (x : Int) ∉ rest ∧ x ≠ node := by
    intro x hx
    rw [hstack, List.mem_cons, not_or] at hx
    exact ⟨hx.2, fun hsame => hx.1 (by rw [hsame])⟩
  exact {
    h with
    hangs := by
      intro v hv hroot
      obtain ⟨parent, a, hparent, hin, _, hhangs, hpotential⟩ := h.hangs v hv hroot
      refine ⟨parent, a, hparent, (hout hin).1, fun hmem => (hout hin).2 ?_, hhangs, hpotential⟩
      rw [hnet.mem_arcsFrom hnode, Network.tail_twin, hhangs.head_eq] at hmem
      exact hmem.2.1
    stacked := fun x hx => h.stacked x (by rw [hstack]; exact List.mem_cons_of_mem _ hx)
    nodup := hnodup.2
    covered := by
      intro a ha htree hknown hin hpending
      by_cases hsame : net.tail a = node
      · exact absurd ((hnet.mem_arcsFrom hnode true a).mpr ⟨ha, hsame, htree⟩) hpending
      · refine h.covered a ha htree hknown ?_ List.not_mem_nil
        rw [hstack, List.mem_cons, not_or]
        exact ⟨fun hcast => hsame (Int.natCast_inj.mp hcast), hin⟩ }

theorem run_sound (hnet : net.WellFormed) (fuel : Nat) (h : w.Sound net root [])
    (hfuel : net.nodeCount + w.stack.length ≤ fuel + w.reached) :
    ∃ rest, (run net fuel w).2.Sound net root rest ∧
      ((run net fuel w).1 = .ok () → rest = [] ∧ (run net fuel w).2.stack = []) ∧
      ((run net fuel w).1 ≠ .ok () → ¬ Acyclic net.ends net.treeSet) := by
  induction fuel generalizing w with
  | zero =>
    have hle := h.reached_le
    have hempty : w.stack = [] := List.eq_nil_of_length_eq_zero (by omega)
    exact ⟨[], h, fun _ => ⟨rfl, hempty⟩, fun hne => absurd rfl hne⟩
  | succ fuel ih =>
    rw [run]
    cases hstack : w.stack with
    | nil => exact ⟨[], h, fun _ => ⟨rfl, hstack⟩, fun hne => absurd rfl hne⟩
    | cons x rest =>
      obtain ⟨node, hknown, rfl⟩ := h.stacked x (by rw [hstack]; exact List.mem_cons_self)
      have hnode := h.lt_nodeCount hknown
      have hpop := h.pop hnet hstack
      have hin : (node : Int) ∉ rest := by
        have hnodup := h.nodup
        rw [hstack, List.nodup_cons] at hnodup
        exact hnodup.1
      obtain ⟨pending, hsound, hok, hcycle⟩ := scan_sound hnet (hnet.nodup_arcsFrom hnode true)
        (fun a ha => (hnet.mem_arcsFrom hnode true a).mp ha) hpop hknown hin
      simp only [Row.place_natCast]
      generalize scan net node (net.arcsFrom node true) { w with stack := rest } = outcome at *
      obtain ⟨result, w'⟩ := outcome
      cases result with
      | error fault => exact ⟨pending, hsound, nofun, fun _ => hcycle nofun⟩
      | ok _ =>
        obtain ⟨hpending, hlength⟩ := hok rfl
        subst hpending
        refine ih hsound ?_
        simp only [hstack, List.length_cons] at hfuel hlength
        omega

theorem known_start {t : Tree} (hsized : t.Sized net.nodeCount) (hroot : root < net.nodeCount)
    (v : Nat) : (start t root).Known v ↔ v = root := by
  have hcount : t.nodeCount = net.nodeCount := hsized.depth
  simp only [Known, start, Row.put]
  rw [Row.place_natCast, Row.getD_setIfInBounds]
  by_cases hv : v = root
  · simp [hv, hcount, hroot]
  · simp [hv, Array.getD_eq_getD_getElem?, Array.getElem?_replicate]
    split <;> rfl

theorem start_sound {t : Tree} (hsized : t.Sized net.nodeCount) (hnamed : t.root = .int root)
    (hroot : root < net.nodeCount) : (start t root).Sound net root [] := by
  have hcount : t.nodeCount = net.nodeCount := hsized.depth
  have hknown := known_start hsized hroot
  have hblank : (start t root).tree = blank net.nodeCount t.root := by
    simp [start, clear, hcount]
  have hstack : (start t root).stack = [(root : Int)] := rfl
  have hone : (Finset.range net.nodeCount).filter (start t root).Known = {root} := by
    ext v
    simp only [Finset.mem_filter, Finset.mem_range, hknown, Finset.mem_singleton]
    constructor
    · exact fun hv => hv.2
    · exact fun hv => ⟨hv ▸ hroot, hv⟩
  constructor
  case named => exact hnamed
  case sized =>
    rw [hblank]
    exact sized_blank _ _
  case size_visited => simp [start, hcount]
  case known_root => exact (hknown root).mpr rfl
  case upArcOf_root => simp [hblank]
  case parentOf_root => simp [hblank]
  case depthOf_root => simp [hblank]
  case potentialOf_root => simp [hblank]
  case unknown => simp [hblank]
  case hangs => exact fun v hv hne => absurd ((hknown v).mp hv) hne
  case depth_nonneg => simp [hblank]
  case depth_lt =>
    intro v _
    rw [hblank, depthOf_blank]
    exact Int.one_pos
  case reached_eq =>
    rw [hone]
    rfl
  case stacked =>
    intro x hx
    rw [hstack, List.mem_singleton] at hx
    exact ⟨root, (hknown root).mpr rfl, hx⟩
  case nodup => simp [hstack]
  case covered =>
    intro a _ _ htail hin
    rw [hknown] at htail
    rw [hstack, htail] at hin
    exact absurd List.mem_cons_self hin

namespace Sound

/-- What a walk has derived is linked at every moment. -/
theorem linked (h : w.Sound net root pending) : w.tree.Linked net where
  sized := h.sized
  hangs v _ hparent := by
    by_cases hv : w.Known v
    · have hne : v ≠ root := fun heq => hparent (by rw [heq, h.parentOf_root])
      obtain ⟨parent, a, hknown, _, _, hhangs, _⟩ := h.hangs v hv hne
      exact ⟨parent, a, h.lt_nodeCount hknown, hhangs⟩
    · exact absurd (h.unknown v hv).1 hparent
  depth_nonneg v _ := by
    by_cases hv : w.Known v
    · exact h.depth_nonneg v hv
    · rw [(h.unknown v hv).2]
  depth_lt v hlt := by
    by_cases hv : w.Known v
    · have hless := h.depth_lt v hv
      have hle := h.reached_le
      omega
    · rw [(h.unknown v hv).2]
      omega

theorem rooted (h : w.Sound net root []) (hstack : w.stack = []) (hall : w.reached = net.nodeCount)
    (hnet : net.WellFormed) : w.tree.Rooted net root := by
  have hknown : ∀ v < net.nodeCount, w.Known v := by
    intro v hv
    have hcard := h.reached_eq
    rw [hall] at hcard
    have hevery : (Finset.range net.nodeCount).filter w.Known = Finset.range net.nodeCount :=
      Finset.eq_of_subset_of_card_le (Finset.filter_subset _ _) (by rw [← hcard]; simp)
    have hmem : v ∈ (Finset.range net.nodeCount).filter w.Known := by
      rw [hevery]
      exact Finset.mem_range.mpr hv
    exact (Finset.mem_filter.mp hmem).2
  refine ⟨h.linked, h.lt_nodeCount h.known_root, h.upArcOf_root, h.parentOf_root, h.depthOf_root,
    h.potentialOf_root, fun v hv hne => ?_, fun a ha htree => ?_⟩
  · obtain ⟨parent, a, hparent, _, _, hhangs, hpotential⟩ := h.hangs v (hknown v hv) hne
    exact ⟨parent, a, h.lt_nodeCount hparent, hhangs, hpotential⟩
  · rcases h.covered a ha htree (hknown _ (hnet.tail_lt a ha)) (by simp [hstack])
      List.not_mem_nil with hup | ⟨_, hup⟩
    · exact Or.inl hup
    · exact Or.inr hup

theorem reached_of_connected (h : w.Sound net root []) (hstack : w.stack = [])
    (hnet : net.WellFormed)
    (hconnected : ∀ a < net.nodeCount, ∀ b < net.nodeCount, Joined net.ends net.treeSet a b) :
    w.reached = net.nodeCount := by
  have hstep : ∀ a, Stored net.arcCount a → net.isTree a = true → w.Known (net.tail a) →
      w.Known (net.head a) := by
    intro a ha htree htail
    rcases h.covered a ha htree htail (by simp [hstack]) List.not_mem_nil with hup | ⟨hhead, _⟩
    · have hne : net.tail a ≠ root := by
        intro heq
        rw [heq, h.upArcOf_root] at hup
        have hpos := ha.1
        omega
      obtain ⟨parent, b, hparent, _, _, hhangs, _⟩ := h.hangs _ htail hne
      have hsame : b = a := hhangs.upArcOf_eq.symm.trans hup
      rw [← hsame, hhangs.head_eq]
      exact hparent
    · exact hhead
  have hpairs : ∀ k ∈ net.treeSet, w.Known (net.ends k).1 = w.Known (net.ends k).2 := by
    intro k hk
    have hstored : Stored net.arcCount (2 * k) := Stored.forward hk.1
    refine propext ⟨hstep _ hstored hk.2, fun hhead => ?_⟩
    have hback := hstep (twin (2 * k)) hstored.twin
      (by rw [hnet.isTree_twin _ hstored, hk.2]) (by rwa [Network.tail_twin])
    rwa [Network.head_twin] at hback
  have hknown : ∀ v < net.nodeCount, w.Known v := by
    intro v hv
    have hsame := (hconnected root (h.lt_nodeCount h.known_root) v hv).value_eq w.Known hpairs
    exact hsame ▸ h.known_root
  rw [h.reached_eq, Finset.filter_true_of_mem fun v hv => hknown v (Finset.mem_range.mp hv)]
  simp

end Sound

end Walk

section Refresh

variable {t : Tree} {net : Network}

theorem clear_eq (hsized : t.Sized net.nodeCount) : t.clear = blank net.nodeCount t.root := by
  have hcount : t.nodeCount = net.nodeCount := hsized.depth
  simp [clear, hcount]

theorem linked_clear (hsized : t.Sized net.nodeCount) : t.clear.Linked net := by
  rw [clear_eq hsized]
  refine ⟨sized_blank _ _, fun v _ hparent => ?_, fun v _ => ?_, fun v hv => ?_⟩
  · simp at hparent
  · simp
  · simp only [depthOf_blank]
    omega

theorem refreshFrom_spec (hnet : net.WellFormed) (hsized : t.Sized net.nodeCount) {root : Nat}
    (hnamed : t.root = .int root) (hroot : root < net.nodeCount) :
    (t.refreshFrom net root).2.Linked net ∧ (t.refreshFrom net root).2.root = t.root ∧
      ((t.refreshFrom net root).1 = .ok () → (t.refreshFrom net root).2.Rooted net root) ∧
      (IsSpanningTree net.nodeCount net.ends net.treeSet →
        (t.refreshFrom net root).1 = .ok ()) := by
  have hcount : t.nodeCount = net.nodeCount := hsized.depth
  have hfuel : net.nodeCount + (Walk.start t root).stack.length ≤
      t.nodeCount + (Walk.start t root).reached := by
    rw [hcount]
    exact Nat.le_refl _
  obtain ⟨rest, hsound, hok, hcycle⟩ :=
    Walk.run_sound hnet t.nodeCount (Walk.start_sound hsized hnamed hroot) hfuel
  simp only [refreshFrom]
  rw [if_pos (hsized.hasNode hroot)]
  generalize (Walk.start t root).run net t.nodeCount = outcome at *
  obtain ⟨result, w⟩ := outcome
  cases result with
  | error fault =>
    exact ⟨hsound.linked, hsound.named.trans hnamed.symm, nofun,
      fun hspanning => absurd hspanning.acyclic (hcycle nofun)⟩
  | ok _ =>
    obtain ⟨hrest, hstack⟩ := hok rfl
    subst hrest
    refine ⟨hsound.linked, hsound.named.trans hnamed.symm, fun hreached => ?_,
      fun hspanning => ?_⟩
    · refine hsound.rooted hstack ?_ hnet
      by_contra hne
      simp [checkReached, hcount, hne] at hreached
    · have hall := hsound.reached_of_connected hstack hnet hspanning.connected
      simpa [checkReached, hcount] using hall

theorem rooted_clear (hnet : net.WellFormed) (hsized : t.Sized net.nodeCount) {root : Nat}
    (hroot : root < net.nodeCount) (hone : net.nodeCount = 1)
    (hnone : ∀ a, Stored net.arcCount a → net.tail a = root → net.isTree a = true → False) :
    t.clear.Rooted net root := by
  refine ⟨linked_clear hsized, hroot, ?_, ?_, ?_, ?_, fun v hv hne => ?_, fun a ha htree => ?_⟩
  · rw [clear_eq hsized, upArcOf_blank]
  · rw [clear_eq hsized, parentOf_blank]
  · rw [clear_eq hsized, depthOf_blank]
  · rw [clear_eq hsized, potentialOf_blank]
  · exact absurd (by omega) hne
  · have htail := hnet.tail_lt a ha
    exact (hnone a ha (by omega) htree).elim

theorem linked_link_clear (hnet : net.WellFormed) (hsized : t.Sized net.nodeCount) {arc : Int}
    (harc : Stored net.arcCount arc) (htree : net.isTree arc = true)
    (hne : net.tail arc ≠ net.head arc) : (t.clear.link net (net.tail arc) arc).Linked net := by
  have hhead := hnet.head_lt harc
  have htail := hnet.tail_lt arc harc
  have hsized' := (linked_clear hsized).sized
  refine ⟨hsized'.link net _ arc, fun v _ hparent => ?_, fun v _ => ?_, fun v hv => ?_⟩
  · by_cases hv : v = net.head arc
    · rw [hv]
      exact ⟨net.tail arc, twin arc, htail, hangs_link hnet hsized' harc htree hne⟩
    · rw [parentOf_link hsized' hhead, if_neg hv, clear_eq hsized, parentOf_blank] at hparent
      exact absurd rfl hparent
  · rw [depthOf_link hsized' hhead, clear_eq hsized]
    split <;> simp
  · rw [depthOf_link hsized' hhead, clear_eq hsized, depthOf_blank, depthOf_blank]
    split <;> omega

theorem refreshFromTruth_spec (hnet : net.WellFormed) (hsized : t.Sized net.nodeCount) {root : Nat}
    (hroot : root < net.nodeCount) :
    (t.refreshFromTruth net root).2.Linked net ∧ (t.refreshFromTruth net root).2.root = t.root ∧
      ((t.refreshFromTruth net root).1 = .ok () →
        (t.refreshFromTruth net root).2.Rooted net root) := by
  have hcount : t.nodeCount = net.nodeCount := hsized.depth
  simp only [refreshFromTruth]
  rw [if_pos (hsized.hasNode hroot), Row.place_natCast]
  have hmem := hnet.mem_arcsFrom hroot true
  generalize net.arcsFrom root true = arcs at *
  cases arcs with
  | nil =>
    refine ⟨linked_clear hsized, rfl, fun hreached => ?_⟩
    have hone : net.nodeCount = 1 := by
      by_contra hne
      simp [checkReached, hcount, Ne.symm hne] at hreached
    exact rooted_clear hnet hsized hroot hone fun a ha htail htree =>
      List.not_mem_nil ((hmem a).mpr ⟨ha, htail, htree⟩)
  | cons arc arcs =>
    by_cases hloop : (net.head arc : Int) = root
    · simp only [if_pos hloop]
      exact ⟨linked_clear hsized, rfl, nofun⟩
    · simp only [if_neg hloop]
      obtain ⟨harc, htail, htree⟩ := (hmem arc).mp List.mem_cons_self
      have hne : net.tail arc ≠ net.head arc := fun heq => hloop (by rw [← heq, htail])
      rw [← htail]
      exact ⟨linked_link_clear hnet hsized harc htree hne, rfl, nofun⟩

/-- The root is a node of the network, unless it is no integer. -/
def RootIn (t : Tree) (nodeCount : Nat) : Prop :=
  ∀ root, (t.root = .int root ∨ ∃ b, t.root = .bool b ∧ root = Number.ofTruth b) →
    0 ≤ root ∧ root < nodeCount

/-- What a refresh leaves behind is linked, be the network's tree in order or not. -/
theorem refresh_linked (hnet : net.WellFormed) (hsized : t.Sized net.nodeCount)
    (hin : t.RootIn net.nodeCount) :
    (t.refresh net).2.Linked net ∧ (t.refresh net).2.root = t.root := by
  simp only [refresh]
  split
  · rename_i root hroot
    obtain ⟨hpos, hlt⟩ := hin root (Or.inl hroot)
    obtain ⟨r, rfl⟩ := Int.eq_ofNat_of_zero_le hpos
    obtain ⟨hlinked, hkept, _, _⟩ :=
      refreshFrom_spec hnet hsized hroot (Int.ofNat_lt.mp hlt)
    exact ⟨hlinked, hkept⟩
  · rename_i b hroot
    obtain ⟨hpos, hlt⟩ := hin _ (Or.inr ⟨b, hroot, rfl⟩)
    obtain ⟨r, hr⟩ := Int.eq_ofNat_of_zero_le hpos
    rw [hr] at hlt ⊢
    obtain ⟨hlinked, hkept, _⟩ := refreshFromTruth_spec hnet hsized (Int.ofNat_lt.mp hlt)
    exact ⟨hlinked, hkept⟩
  · exact ⟨linked_clear hsized, rfl⟩

/-- A refresh that succeeds has found the tree, seen from the node that its root names. -/
theorem refresh_rooted (hnet : net.WellFormed) (hsized : t.Sized net.nodeCount)
    (hin : t.RootIn net.nodeCount) (hok : (t.refresh net).1 = .ok ()) :
    ∃ root : Nat, t.isRoot root = true ∧ (t.refresh net).2.Rooted net root := by
  simp only [refresh] at hok ⊢
  split at hok
  · rename_i root hroot
    obtain ⟨hpos, hlt⟩ := hin root (Or.inl hroot)
    obtain ⟨r, rfl⟩ := Int.eq_ofNat_of_zero_le hpos
    obtain ⟨_, _, hrooted, _⟩ := refreshFrom_spec hnet hsized hroot (Int.ofNat_lt.mp hlt)
    exact ⟨r, by simp [isRoot, hroot, Value.number?], hrooted hok⟩
  · rename_i b hroot
    obtain ⟨hpos, hlt⟩ := hin _ (Or.inr ⟨b, hroot, rfl⟩)
    obtain ⟨r, hr⟩ := Int.eq_ofNat_of_zero_le hpos
    rw [hr] at hlt hok ⊢
    obtain ⟨_, _, hrooted⟩ := refreshFromTruth_spec hnet hsized (Int.ofNat_lt.mp hlt)
    exact ⟨r, by simp [isRoot, hroot, Value.number?, hr], hrooted hok⟩
  · cases hok

theorem refresh_ok (hnet : net.WellFormed) (hsized : t.Sized net.nodeCount) {root : Nat}
    (hroot : t.root = .int root) (hlt : root < net.nodeCount)
    (hspanning : IsSpanningTree net.nodeCount net.ends net.treeSet) :
    (t.refresh net).1 = .ok () ∧ (t.refresh net).2.Rooted net root := by
  obtain ⟨_, _, hrooted, hok⟩ := refreshFrom_spec hnet hsized hroot hlt
  simp only [refresh]
  rw [hroot]
  exact ⟨hok hspanning, hrooted (hok hspanning)⟩

end Refresh

end Circulation.Tree
