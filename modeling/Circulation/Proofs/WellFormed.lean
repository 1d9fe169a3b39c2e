import Circulation.Network.Build
import Circulation.Proofs.Joining
import Circulation.Proofs.Listing

/-!
Networks whose lists are sound and whose twins have one flag. Moving an edge onto the tree or off it
keeps a network so and changes nothing but that edge's flags, and adding an edge changes nothing but
what is new.
-/

namespace Circulation

open Adjacency (Stored)

/-- The edge that an arc runs along, forward or back. -/
def pairOf (arc : Int) : Nat := (arc / 2).toNat

@[simp] theorem pairOf_twin (arc : Int) : pairOf (twin arc) = pairOf arc := by
  simp [pairOf, twin_div_two]

@[simp] theorem pairOf_two_mul (k : Nat) : pairOf (2 * k) = k := by
  simp [pairOf]

@[simp] theorem pairOf_two_mul_add_one (k : Nat) : pairOf (2 * k + 1) = k := by
  simp only [pairOf]
  omega

theorem eq_or_eq_twin {a b : Int} (ha : 0 ≤ a) (hb : 0 ≤ b) (h : pairOf a = pairOf b) :
    a = b ∨ a = twin b := by
  simp only [pairOf] at h
  simp only [twin]
  split <;> omega

theorem pairOf_eq_iff {a b : Int} (ha : 0 ≤ a) (hb : 0 ≤ b) :
    pairOf a = pairOf b ↔ a = b ∨ a = twin b := by
  refine ⟨eq_or_eq_twin ha hb, fun h => ?_⟩
  cases h with
  | inl heq => rw [heq]
  | inr heq => rw [heq, pairOf_twin]

theorem eq_forward_or_twin {a : Int} (ha : 0 ≤ a) : a = 2 * pairOf a ∨ a = twin (2 * pairOf a) :=
  eq_or_eq_twin ha (by omega) (by simp)

namespace Adjacency.Stored

variable {m : Nat} {arc : Int}

theorem twin (h : Stored (2 * m) arc) : Stored (2 * m) (twin arc) := by
  obtain ⟨hpos, hlt⟩ := h
  refine ⟨twin_nonneg hpos, ?_⟩
  simp only [Circulation.twin]
  split <;> omega

theorem pairOf_lt (h : Stored (2 * m) arc) : pairOf arc < m := by
  obtain ⟨hpos, hlt⟩ := h
  simp only [pairOf]
  omega

theorem forward {k : Nat} (hk : k < m) : Stored (2 * m) (2 * k) := by
  simp only [Stored]
  omega

theorem backward {k : Nat} (hk : k < m) : Stored (2 * m) (2 * k + 1) := by
  simp only [Stored]
  omega

end Adjacency.Stored

namespace Network

theorem edgeOf_eq (net : Network) {arc : Int} (h : 0 ≤ arc) :
    net.edgeOf arc = net.edges.getD (pairOf arc) ⟨0, 0, 0, 0⟩ := by
  have hplace : Row.place net.arcCount arc / 2 = pairOf arc := by
    rw [Row.place_of_nonneg h]
    simp only [pairOf]
    omega
  rw [edgeOf, hplace]

theorem flow_eq_sub (net : Network) (k : Nat) :
    net.flow k = (net.edgeOf (2 * k)).capacity - net.capacity (2 * k) := by
  rw [edgeOf_eq _ (by omega), pairOf_two_mul, flow]

theorem hasArc_of_stored {net : Network} {arc : Int} (h : Stored net.arcCount arc) :
    net.hasArc arc = true := by
  obtain ⟨hpos, hlt⟩ := h
  simp only [hasArc, Row.holds, Bool.and_eq_true, decide_eq_true_eq]
  omega

def ends (net : Network) (k : Nat) : Nat × Nat := (net.tail (2 * k), net.head (2 * k))

def treeSet (net : Network) : Set Nat := {k | k < net.edgeCount ∧ net.isTree (2 * k)}

theorem mem_treePairs (net : Network) (k : Nat) : k ∈ net.treePairs ↔ k ∈ net.treeSet := by
  simp [treePairs, treeSet]

theorem ends_of_arc (net : Network) {arc : Int} (h : 0 ≤ arc) :
    net.ends (pairOf arc) = (net.tail arc, net.head arc) ∨
      net.ends (pairOf arc) = (net.head arc, net.tail arc) := by
  simp only [ends]
  cases eq_forward_or_twin h with
  | inl harc =>
    left
    rw [← harc]
  | inr harc =>
    right
    conv_rhs => rw [harc]
    simp

theorem joined_arc (net : Network) {arc : Int} (h : 0 ≤ arc) {pairs : Set Nat}
    (hmem : pairOf arc ∈ pairs) : Joined net.ends pairs (net.tail arc) (net.head arc) := by
  have hjoined : Joined net.ends pairs (net.ends (pairOf arc)).1 (net.ends (pairOf arc)).2 :=
    Joined.of_mem hmem
  cases net.ends_of_arc h with
  | inl hends => rwa [hends] at hjoined
  | inr hends =>
    rw [hends] at hjoined
    exact hjoined.symm

theorem joined_arc_iff (net : Network) {arc : Int} (h : 0 ≤ arc) {pairs : Set Nat} :
    Joined net.ends pairs (net.tail arc) (net.head arc) ↔
      Joined net.ends pairs (net.ends (pairOf arc)).1 (net.ends (pairOf arc)).2 := by
  cases net.ends_of_arc h with
  | inl hends => rw [hends]
  | inr hends =>
    rw [hends]
    exact ⟨Joined.symm, Joined.symm⟩

theorem mem_treeSet_of_twin {net : Network}
    (htwin : ∀ arc, Stored net.arcCount arc → net.isTree (twin arc) = net.isTree arc) {arc : Int}
    (harc : Stored net.arcCount arc) : pairOf arc ∈ net.treeSet ↔ net.isTree arc = true := by
  have hlt : pairOf arc < net.edgeCount := harc.pairOf_lt
  have hflag : net.isTree (2 * pairOf arc) = net.isTree arc := by
    have hforward : Stored net.arcCount (2 * pairOf arc) := Adjacency.Stored.forward hlt
    cases eq_forward_or_twin harc.1 with
    | inl heq => rw [← heq]
    | inr heq =>
      conv_rhs => rw [heq]
      exact (htwin _ hforward).symm
  simp [treeSet, hlt, hflag]

/-- All ends are nodes, the lists are sound, and twins have one flag. -/
structure WellFormed (net : Network) : Prop where
  tail_lt : ∀ arc, Stored net.arcCount arc → net.tail arc < net.nodeCount
  size_residual : net.residual.size = net.arcCount
  holds : net.adjacency.Holds net.nodeCount net.arcCount net.tail {arc | Stored net.arcCount arc}
  isTree_twin : ∀ arc, Stored net.arcCount arc → net.isTree (twin arc) = net.isTree arc

namespace WellFormed

variable {net : Network}

theorem head_lt (h : net.WellFormed) {arc : Int} (harc : Stored net.arcCount arc) :
    net.head arc < net.nodeCount := by
  rw [← tail_twin]
  exact h.tail_lt _ harc.twin

theorem mem_arcsFrom (h : net.WellFormed) {node : Nat} (hnode : node < net.nodeCount) (tree : Bool)
    (arc : Int) : arc ∈ net.arcsFrom node tree ↔
      Stored net.arcCount arc ∧ net.tail arc = node ∧ net.isTree arc = tree :=
  h.holds.mem_iff tree node hnode arc

theorem nodup_arcsFrom (h : net.WellFormed) {node : Nat} (hnode : node < net.nodeCount)
    (tree : Bool) : (net.arcsFrom node tree).Nodup :=
  h.holds.nodup tree node hnode

theorem mem_treeSet (h : net.WellFormed) {arc : Int} (harc : Stored net.arcCount arc) :
    pairOf arc ∈ net.treeSet ↔ net.isTree arc = true :=
  mem_treeSet_of_twin h.isTree_twin harc

end WellFormed

theorem move_ok {net : Network}
    (h : net.adjacency.Holds net.nodeCount net.arcCount net.tail {arc | Stored net.arcCount arc})
    {arc : Int} (harc : Stored net.arcCount arc) {tree : Bool} (hflag : net.isTree arc = !tree) :
    ∃ adj, net.move arc tree = .ok { net with adjacency := adj } ∧
      adj.Holds net.nodeCount net.arcCount net.tail {arc | Stored net.arcCount arc} ∧
      (∀ x, 0 ≤ x → adj.isTree x = if x = arc then tree else net.isTree x) ∧
      ∀ t, ∀ u < net.nodeCount, adj.list t u =
        if t = tree ∧ u = net.tail arc then arc :: (net.arcsFrom u t).erase arc
        else (net.arcsFrom u t).erase arc := by
  have hflagged : net.adjacency.isTree arc = !tree := hflag
  have hpresent : arc ∈ {arc | Stored net.arcCount arc} := harc
  obtain ⟨hout, hflags, hlists⟩ := h.unlink hpresent
  have hnode := (h.stored arc harc).2
  have hnew : arc ∉ {arc | Stored net.arcCount arc} \ {arc} := fun hmem => hmem.2 rfl
  obtain ⟨hin, hflags', hlists'⟩ := hout.insert hnew harc hnode tree
  have hback : Insert.insert arc ({arc | Stored net.arcCount arc} \ {arc}) =
      {arc | Stored net.arcCount arc} := Set.insert_sdiff_self_of_mem harc
  rw [hback] at hin
  refine ⟨_, ?_, hin, fun x hx => ?_, fun t u hu => ?_⟩
  · have hremove : net.adjacency.remove (net.tail arc) arc (!tree) =
        .ok (net.adjacency.unlink (net.tail arc) arc (net.adjacency.isTree arc)) := by
      simp only [Adjacency.remove]
      rw [if_pos hflagged, hflagged]
    simp only [move, removeFromList]
    rw [hremove]
    rfl
  · rw [hflags' x hx, hflags x hx]
    rfl
  · rw [hlists' t u hu, hlists t u hu]
    rfl

theorem move_refused {net : Network} {arc : Int} {tree : Bool} (hflag : net.isTree arc = tree) :
    net.move arc tree = .error (.notInList arc !tree) := by
  have hother : ¬ net.adjacency.isTree arc = !tree := by
    change ¬ net.isTree arc = !tree
    simp [hflag]
  simp only [move, removeFromList, Adjacency.remove]
  rw [if_neg hother]
  rfl

/-- The arcs of an edge that leave a node, as they stand in the list that the edge is moved to. The
twin is moved last, so it comes first. -/
def newcomers (net : Network) (arc : Int) (node : Nat) : List Int :=
  [twin arc, arc].filter fun x => net.tail x = node

theorem erase_erase_twin {arcs : List Int} (hnodup : arcs.Nodup) (arc : Int) :
    (arcs.erase arc).erase (twin arc) = arcs.filter fun x => x ≠ arc ∧ x ≠ twin arc := by
  rw [hnodup.erase_eq_filter, (hnodup.filter _).erase_eq_filter, List.filter_filter]
  refine List.filter_congr fun x _ => ?_
  by_cases hx : x = arc <;> by_cases hx' : x = twin arc <;> simp [hx, hx']

/-- Moving an edge onto the tree or off it. Its arcs come to the front of their lists, and the other
arcs keep their order. -/
theorem WellFormed.setTreeStatus {net : Network} (h : net.WellFormed) {arc : Int}
    (harc : Stored net.arcCount arc) {tree : Bool} (hflag : net.isTree arc = !tree) :
    ∃ adj, net.setTreeStatus arc tree = (.ok (), { net with adjacency := adj }) ∧
      ({ net with adjacency := adj } : Network).WellFormed ∧
      (∀ x, 0 ≤ x → adj.isTree x = if pairOf x = pairOf arc then tree else net.isTree x) ∧
      ∀ t, ∀ u < net.nodeCount, adj.list t u = (if t = tree then net.newcomers arc u else []) ++
        (net.arcsFrom u t).filter fun x => x ≠ arc ∧ x ≠ twin arc := by
  obtain ⟨one, hmove, hone, hflags, hlists⟩ := move_ok h.holds harc hflag
  have htwin := harc.twin
  have hflag' : ({ net with adjacency := one } : Network).isTree (twin arc) = !tree := by
    have hkept := hflags (twin arc) htwin.1
    rw [if_neg (twin_ne arc), h.isTree_twin arc harc, hflag] at hkept
    exact hkept
  obtain ⟨two, hmove', htwo, hflags', hlists'⟩ :=
    @move_ok { net with adjacency := one } hone _ htwin _ hflag'
  have hall : ∀ x, 0 ≤ x →
      two.isTree x = if pairOf x = pairOf arc then tree else net.isTree x := by
    intro x hx
    rw [hflags' x hx]
    have hplain : ({ net with adjacency := one } : Network).isTree x = one.isTree x := rfl
    rw [hplain, hflags x hx]
    by_cases hpair : pairOf x = pairOf arc
    · cases eq_or_eq_twin hx harc.1 hpair with
      | inl hsame => simp [hsame]
      | inr hsame => simp [hsame]
    · have hne : x ≠ arc := fun heq => hpair (by rw [heq])
      have hne' : x ≠ twin arc := fun heq => hpair (by rw [heq, pairOf_twin])
      rw [if_neg hne', if_neg hne, if_neg hpair]
  refine ⟨two, ?_, ⟨h.tail_lt, h.size_residual, htwo, ?_⟩, hall, fun t u hu => ?_⟩
  · simp only [Network.setTreeStatus]
    rw [hmove]
    simp only
    rw [hmove']
  · intro x hx
    have hx' : Stored net.arcCount x := hx
    have hleft : ({ net with adjacency := two } : Network).isTree (twin x) = two.isTree (twin x) :=
      rfl
    have hright : ({ net with adjacency := two } : Network).isTree x = two.isTree x := rfl
    rw [hleft, hright, hall _ hx'.twin.1, hall x hx'.1, pairOf_twin, h.isTree_twin x hx']
  · have hmoved : ({ net with adjacency := one } : Network).arcsFrom u t = one.list t u := rfl
    have htail : ({ net with adjacency := one } : Network).tail (twin arc) = net.head arc :=
      net.tail_twin arc
    have hrest := erase_erase_twin (h.nodup_arcsFrom hu t) arc
    rw [hlists' t u hu, hmoved, hlists t u hu, htail, ← hrest]
    have hne : ¬ (arc == twin arc) = true := by simpa using (twin_ne arc).symm
    simp only [newcomers, List.filter_cons, List.filter_nil, tail_twin, decide_eq_true_eq,
      @eq_comm _ u]
    by_cases ht : t = tree
    · by_cases hleft : net.tail arc = u <;> by_cases hright : net.head arc = u <;>
        simp only [ht, hleft, hright, and_self, and_false, if_true, if_false,
          List.erase_cons_tail hne, List.cons_append, List.nil_append]
    · simp only [ht, false_and, if_false, List.nil_append]

end Network

end Circulation
