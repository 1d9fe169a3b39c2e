import Circulation.Proofs.Representative
import Circulation.Proofs.WellFormed

/-!
Networks under construction. Each edge that joins two parts goes on the tree, so the tree joins what
all edges join and has no cycle. Main result: a network that could be built is well formed, has no
flow, and its tree spans it.
-/

namespace Circulation

open Adjacency (Stored)

theorem bind_eq_ok_iff {ε α β : Type} {x : Except ε α} {f : α → Except ε β} {b : β} :
    (x >>= f) = .ok b ↔ ∃ a, x = .ok a ∧ f a = .ok b := by
  cases x with
  | error e => simp [bind, Except.bind]
  | ok a => simp [bind, Except.bind]

theorem bind_eq_error_iff {ε α β : Type} {x : Except ε α} {f : α → Except ε β} {e : ε} :
    (x >>= f) = .error e ↔ x = .error e ∨ ∃ a, x = .ok a ∧ f a = .error e := by
  cases x with
  | error e' => simp [bind, Except.bind]
  | ok a => simp [bind, Except.bind]

theorem Row.get_push_of_lt {α : Type} (xs : Array α) {i : Int} (hi : 0 ≤ i) (hlt : i < xs.size)
    (x standard : α) : Row.get (xs.push x) i standard = Row.get xs i standard := by
  simp only [Row.get]
  rw [Row.place_of_nonneg hi, Row.place_of_nonneg hi]
  have hnat : i.toNat < xs.size := by omega
  rw [Array.getD_eq_getD_getElem?, Array.getD_eq_getD_getElem?, Array.getElem?_push_lt hnat,
    Array.getElem?_eq_getElem hnat]

theorem Row.get_push_size {α : Type} (xs : Array α) (x standard : α) :
    Row.get (xs.push x) xs.size standard = x := by
  rw [Row.get_natCast, Array.getD_eq_getD_getElem?, Array.getElem?_push_size]
  rfl

theorem Adjacency.Holds.grow {adj : Adjacency} {nodeCount arcCount : Nat} {tailOf : Int → Nat}
    {present : Set Int} (h : adj.Holds nodeCount arcCount tailOf present) :
    adj.grow.Holds nodeCount (arcCount + 1) tailOf present ∧
      ∀ x, Stored arcCount x → adj.grow.isTree x = adj.isTree x := by
  have hflag : ∀ x, Stored arcCount x → adj.grow.isTree x = adj.isTree x := by
    intro x hx
    exact Row.get_push_of_lt adj.onTree hx.1 (by rw [h.sized.onTree]; exact hx.2) _ _
  have hnext : ∀ x, Stored arcCount x → adj.grow.nextOf x = adj.nextOf x := by
    intro x hx
    exact Row.get_push_of_lt adj.next hx.1 (by rw [h.sized.next]; exact hx.2) _ _
  have hprev : ∀ x, Stored arcCount x → adj.grow.prevOf x = adj.prevOf x := by
    intro x hx
    exact Row.get_push_of_lt adj.prev hx.1 (by rw [h.sized.prev]; exact hx.2) _ _
  have hinside : ∀ t, ∀ u < nodeCount, ∀ a ∈ adj.list t u, Stored arcCount a := by
    intro t u hu a ha
    exact (h.stored a ((h.mem_iff t u hu a).mp ha).1).1
  have hsized : adj.grow.Sized nodeCount (arcCount + 1) := by
    constructor
    · simp [Adjacency.grow, h.sized.onTree]
    · simp [Adjacency.grow, h.sized.next]
    · simp [Adjacency.grow, h.sized.prev]
    · exact h.sized.treeHead
    · exact h.sized.otherHead
  refine ⟨(Adjacency.Holds.of_runs hsized ?_ adj.list ?_ ?_ h.nodup).1, hflag⟩
  · intro arc harc
    obtain ⟨⟨hpos, hlt⟩, hnode⟩ := h.stored arc harc
    refine ⟨⟨hpos, ?_⟩, hnode⟩
    omega
  · intro t u hu
    exact (h.runs t u hu).frame (fun a ha => hnext a (hinside t u hu a ha))
      fun a ha => hprev a (hinside t u hu a ha)
  · intro t u hu a
    rw [h.mem_iff t u hu]
    constructor
    · rintro ⟨hpresent, htail, hold⟩
      exact ⟨hpresent, htail, (hflag a (h.stored a hpresent).1).trans hold⟩
    · rintro ⟨hpresent, htail, hnew⟩
      exact ⟨hpresent, htail, (hflag a (h.stored a hpresent).1).symm.trans hnew⟩

theorem Adjacency.Holds.congr_tail {adj : Adjacency} {nodeCount arcCount : Nat}
    {tailOf tailOf' : Int → Nat} {present : Set Int}
    (h : adj.Holds nodeCount arcCount tailOf present)
    (htail : ∀ a ∈ present, tailOf' a = tailOf a) :
    adj.Holds nodeCount arcCount tailOf' present := by
  refine ⟨h.sized, fun arc harc => ?_, h.runs, fun t u hu a => ?_, h.nodup⟩
  · rw [htail arc harc]
    exact h.stored arc harc
  · rw [h.mem_iff t u hu]
    constructor
    · rintro ⟨hpresent, htail', hflag⟩
      exact ⟨hpresent, (htail a hpresent).trans htail', hflag⟩
    · rintro ⟨hpresent, htail', hflag⟩
      exact ⟨hpresent, (htail a hpresent).symm.trans htail', hflag⟩

namespace Network

theorem edgeOf_push {net net' : Network} {e : Edge} (hedges : net'.edges = net.edges.push e)
    {arc : Int} (harc : Stored net.arcCount arc) : net'.edgeOf arc = net.edgeOf arc := by
  have hlt : pairOf arc < net.edges.size := harc.pairOf_lt
  rw [edgeOf_eq _ harc.1, edgeOf_eq _ harc.1, hedges, Array.getD_eq_getD_getElem?,
    Array.getD_eq_getD_getElem?, Array.getElem?_push_lt hlt, Array.getElem?_eq_getElem hlt]

theorem edgeOf_push_new {net net' : Network} {e : Edge} (hedges : net'.edges = net.edges.push e)
    {arc : Int} (hpos : 0 ≤ arc) (hpair : pairOf arc = net.edgeCount) : net'.edgeOf arc = e := by
  rw [edgeOf_eq _ hpos, hpair, hedges, Array.getD_eq_getD_getElem?]
  simp [edgeCount]

theorem tail_push {net net' : Network} {e : Edge} (hedges : net'.edges = net.edges.push e)
    {arc : Int} (harc : Stored net.arcCount arc) : net'.tail arc = net.tail arc := by
  simp [tail, edgeOf_push hedges harc]

theorem head_push {net net' : Network} {e : Edge} (hedges : net'.edges = net.edges.push e)
    {arc : Int} (harc : Stored net.arcCount arc) : net'.head arc = net.head arc := by
  simp [head, edgeOf_push hedges harc]

theorem arcCount_push {net net' : Network} {e : Edge} (hedges : net'.edges = net.edges.push e) :
    net'.arcCount = net.arcCount + 2 := by
  simp [arcCount, hedges]
  omega

section AddEdge

variable {net : Network} {e : Edge}

theorem edges_addEdge (net : Network) (e : Edge) (tree : Bool) :
    (net.addEdge e tree).edges = net.edges.push e := rfl

theorem stored_addEdge_iff (net : Network) (e : Edge) (tree : Bool) (x : Int) :
    Stored (net.addEdge e tree).arcCount x ↔
      Stored net.arcCount x ∨ x = net.arcCount ∨ x = net.arcCount + 1 := by
  rw [arcCount_push (net.edges_addEdge e tree)]
  simp only [Stored]
  omega

theorem arcCount_eq (net : Network) : (net.arcCount : Int) = 2 * (net.edgeCount : Int) := by
  simp [arcCount, edgeCount]

theorem tail_addEdge_new (net : Network) (e : Edge) (tree : Bool) :
    (net.addEdge e tree).tail net.arcCount = e.tail ∧
      (net.addEdge e tree).tail (net.arcCount + 1) = e.head := by
  have heven := net.arcCount_eq
  constructor
  · simp only [tail]
    rw [edgeOf_push_new (net.edges_addEdge e tree) (by omega) (by unfold pairOf; omega),
      if_pos (by omega)]
  · simp only [tail]
    rw [edgeOf_push_new (net.edges_addEdge e tree) (by omega) (by unfold pairOf; omega),
      if_neg (by omega)]

theorem WellFormed.holds_addEdge (h : net.WellFormed) (htail : e.tail < net.nodeCount)
    (hhead : e.head < net.nodeCount) (tree : Bool) :
    (net.addEdge e tree).adjacency.Holds net.nodeCount (net.addEdge e tree).arcCount
        (net.addEdge e tree).tail {x | Stored (net.addEdge e tree).arcCount x} ∧
      (∀ x, Stored net.arcCount x → (net.addEdge e tree).isTree x = net.isTree x) ∧
      (net.addEdge e tree).isTree net.arcCount = tree ∧
      (net.addEdge e tree).isTree (net.arcCount + 1) = tree := by
  obtain ⟨hforward, hback⟩ := net.tail_addEdge_new e tree
  obtain ⟨hone, hflag⟩ := h.holds.grow
  obtain ⟨htwo, hflag'⟩ := hone.grow
  have hgrown : net.adjacency.grow.grow.Holds net.nodeCount (net.arcCount + 2)
      (net.addEdge e tree).tail {x | Stored net.arcCount x} :=
    htwo.congr_tail fun arc harc => tail_push (net.edges_addEdge e tree) harc
  obtain ⟨hin, hflags, -⟩ := hgrown.insert (fun hmem => absurd hmem.2 (Int.lt_irrefl _))
    (⟨by omega, by omega⟩ : Stored (net.arcCount + 2) net.arcCount) (by rwa [hforward]) tree
  have hnew : (net.arcCount : Int) + 1 ∉
      (Insert.insert (net.arcCount : Int) {x | Stored net.arcCount x} : Set Int) := by
    rintro (heq | ⟨-, hlt⟩)
    · omega
    · omega
  obtain ⟨hin', hflags', -⟩ := hin.insert hnew
    (⟨by omega, by omega⟩ : Stored (net.arcCount + 2) (net.arcCount + 1)) (by rwa [hback]) tree
  have hpresent : Insert.insert ((net.arcCount : Int) + 1)
      (Insert.insert (net.arcCount : Int) {x | Stored net.arcCount x}) =
      {x | Stored (net.addEdge e tree).arcCount x} := by
    ext x
    have hiff := net.stored_addEdge_iff e tree x
    constructor
    · rintro (hx | hx | hx)
      · exact hiff.mpr (Or.inr (Or.inr hx))
      · exact hiff.mpr (Or.inr (Or.inl hx))
      · exact hiff.mpr (Or.inl hx)
    · intro hx
      rcases hiff.mp hx with hx | hx | hx
      · exact Or.inr (Or.inr hx)
      · exact Or.inr (Or.inl hx)
      · exact Or.inl hx
  rw [← arcCount_push (net.edges_addEdge e tree), hpresent] at hin'
  have hall : ∀ x, 0 ≤ x → (net.addEdge e tree).isTree x = if x = net.arcCount + 1 then tree
      else if x = net.arcCount then tree else net.adjacency.grow.grow.isTree x := by
    intro x hx
    have hplain := hflags' x hx
    rw [hflags x hx] at hplain
    exact hplain
  refine ⟨hin', fun x hx => ?_, ?_, ?_⟩
  · obtain ⟨hpos, hlt⟩ := hx
    rw [hall x hpos, if_neg (by omega), if_neg (by omega), hflag' x ⟨hpos, by omega⟩,
      hflag x ⟨hpos, hlt⟩]
    rfl
  · rw [hall _ (by omega), if_neg (by omega), if_pos rfl]
  · rw [hall _ (by omega), if_pos rfl]

theorem WellFormed.addEdge (h : net.WellFormed) (htail : e.tail < net.nodeCount)
    (hhead : e.head < net.nodeCount) (tree : Bool) : (net.addEdge e tree).WellFormed := by
  obtain ⟨hforward, hback⟩ := net.tail_addEdge_new e tree
  obtain ⟨hholds, hold, hflag, hflag'⟩ := h.holds_addEdge htail hhead tree
  have hcount := arcCount_push (net.edges_addEdge e tree)
  have htwin : twin net.arcCount = net.arcCount + 1 := by rw [net.arcCount_eq, twin_two_mul]
  have htwin' : twin (net.arcCount + 1) = net.arcCount := by rw [← htwin, twin_twin]
  refine ⟨fun arc harc => ?_, ?_, hholds, fun arc harc => ?_⟩
  · change _ < net.nodeCount
    rcases (net.stored_addEdge_iff e tree arc).mp harc with harc | rfl | rfl
    · rw [tail_push (net.edges_addEdge e tree) harc]
      exact h.tail_lt arc harc
    · rwa [hforward]
    · rwa [hback]
  · have hsize := h.size_residual
    rw [hcount]
    change ((net.residual.push _).push _).size = _
    simp [hsize]
  · rcases (net.stored_addEdge_iff e tree arc).mp harc with harc | rfl | rfl
    · rw [hold _ harc.twin, hold _ harc, h.isTree_twin arc harc]
    · rw [htwin, hflag', hflag]
    · rw [htwin', hflag', hflag]

theorem ends_addEdge (e : Edge) (tree : Bool) {k : Nat} (hk : k < net.edgeCount) :
    (net.addEdge e tree).ends k = net.ends k := by
  have hstored : Stored net.arcCount (2 * k) := Adjacency.Stored.forward hk
  simp [ends, tail_push (net.edges_addEdge e tree) hstored,
    head_push (net.edges_addEdge e tree) hstored]

theorem ends_addEdge_new (net : Network) (e : Edge) (tree : Bool) :
    (net.addEdge e tree).ends net.edgeCount = (e.tail, e.head) := by
  obtain ⟨hforward, hback⟩ := net.tail_addEdge_new e tree
  have heven := net.arcCount_eq
  rw [heven] at hforward hback
  rw [ends, hforward, ← tail_twin, twin_two_mul, hback]

theorem edgeCount_addEdge (net : Network) (e : Edge) (tree : Bool) :
    (net.addEdge e tree).edgeCount = net.edgeCount + 1 := by
  simp [edgeCount, net.edges_addEdge e tree]

theorem WellFormed.treeSet_addEdge (h : net.WellFormed) (htail : e.tail < net.nodeCount)
    (hhead : e.head < net.nodeCount) (tree : Bool) : (net.addEdge e tree).treeSet =
      if tree then insert net.edgeCount net.treeSet else net.treeSet := by
  obtain ⟨-, hold, hflag, -⟩ := h.holds_addEdge htail hhead tree
  rw [net.arcCount_eq] at hflag
  ext k
  by_cases hlast : k = net.edgeCount
  · subst hlast
    have hnew : net.edgeCount ∈ (net.addEdge e tree).treeSet ↔ tree = true := by
      simp only [treeSet]
      rw [edgeCount_addEdge]
      change _ < _ ∧ _ ↔ _
      rw [hflag]
      simp
    have hout : net.edgeCount ∉ net.treeSet := fun hmem => absurd hmem.1 (Nat.lt_irrefl _)
    rw [hnew]
    cases tree <;> simp [hout]
  · have hsame : k ∈ (net.addEdge e tree).treeSet ↔ k ∈ net.treeSet := by
      simp only [treeSet]
      rw [edgeCount_addEdge]
      change k < _ ∧ _ ↔ k < _ ∧ _
      constructor
      · rintro ⟨hk, htree⟩
        have hk' : k < net.edgeCount := by omega
        exact ⟨hk', by rwa [hold _ (Adjacency.Stored.forward hk')] at htree⟩
      · rintro ⟨hk, htree⟩
        exact ⟨by omega, by rwa [hold _ (Adjacency.Stored.forward hk)]⟩
    rw [hsame]
    cases tree <;> simp [hlast]

end AddEdge

theorem capacity_addEdge {net : Network} (h : net.WellFormed) (e : Edge) (tree : Bool) {x : Int}
    (hx : Stored net.arcCount x) : (net.addEdge e tree).capacity x = net.capacity x := by
  have hsize := h.size_residual
  have hlt := hx.2
  refine (Row.get_push_of_lt _ hx.1 (by rw [Array.size_push]; omega) 0 0).trans ?_
  exact Row.get_push_of_lt _ hx.1 (by omega) _ 0

theorem capacity_addEdge_new {net : Network} (h : net.WellFormed) (e : Edge) (tree : Bool) :
    (net.addEdge e tree).capacity net.arcCount = e.capacity ∧
      (net.addEdge e tree).capacity (net.arcCount + 1) = 0 := by
  have hsize := h.size_residual
  constructor
  · refine (Row.get_push_of_lt _ (by omega) (by rw [Array.size_push]; omega) 0 0).trans ?_
    rw [← hsize]
    exact Row.get_push_size _ _ _
  · have hlast := Row.get_push_size (net.residual.push (e.capacity : Int)) 0 0
    rw [Array.size_push, hsize] at hlast
    exact hlast

theorem wellFormed_empty (nodeCount : Nat) : (Network.empty nodeCount).WellFormed := by
  have hnone : ∀ arc, ¬ Stored (Network.empty nodeCount).arcCount arc := by
    rintro arc ⟨hpos, hlt⟩
    have hzero : (Network.empty nodeCount).arcCount = 0 := rfl
    omega
  refine ⟨fun arc harc => absurd harc (hnone arc), rfl, ?_, fun arc harc => absurd harc (hnone arc)⟩
  refine (Adjacency.Holds.of_runs ?_ (fun arc harc => absurd harc (hnone arc)) (fun _ _ => [])
    ?_ ?_ ?_).1
  · exact ⟨rfl, rfl, rfl, by simp [empty, Adjacency.empty], by simp [empty, Adjacency.empty]⟩
  · intro tree node hnode
    change (Network.empty nodeCount).adjacency.head tree node = Adjacency.noArc
    have hnode' : node < nodeCount := hnode
    cases tree <;> simp [empty, Adjacency.empty, Adjacency.head, Adjacency.noArc, hnode']
  · intro tree node _ arc
    constructor
    · exact fun hmem => absurd hmem (List.not_mem_nil)
    · exact fun hmem => absurd hmem.1 (hnone arc)
  · simp

/-- The edges of a network are the given arcs. -/
structure Carries (net : Network) (arcs : List Arc) : Prop where
  edgeCount_eq : net.edgeCount = arcs.length
  tail_eq : ∀ k (h : k < arcs.length), (net.tail (2 * k) : Int) = arcs[k].tail
  head_eq : ∀ k (h : k < arcs.length), (net.head (2 * k) : Int) = arcs[k].head
  capacity_eq : ∀ k (h : k < arcs.length), (net.edgeOf (2 * k)).capacity = arcs[k].capacity
  cost_eq : ∀ k (h : k < arcs.length), net.cost (2 * k) = arcs[k].cost

theorem Carries.congr {net net' : Network} {arcs : List Arc} (h : net.Carries arcs)
    (hedges : net'.edges = net.edges) : net'.Carries arcs := by
  have hedgeOf : ∀ arc, net'.edgeOf arc = net.edgeOf arc := by
    intro arc
    simp [edgeOf, arcCount, hedges]
  refine ⟨?_, ?_, ?_, ?_, ?_⟩
  · simpa [edgeCount, hedges] using h.edgeCount_eq
  · simpa [tail, hedgeOf] using h.tail_eq
  · simpa [head, hedgeOf] using h.head_eq
  · simpa [hedgeOf] using h.capacity_eq
  · simpa [cost, hedgeOf] using h.cost_eq

/-- A seed whose tree joins what its edges join. -/
structure Seed.Sound (s : Seed) (nodeCount : Nat) (edges : List Edge) : Prop where
  wellFormed : s.network.WellFormed
  nodeCount_eq : s.network.nodeCount = nodeCount
  edges_eq : s.network.edges.toList = edges
  represents : s.parts.Represents nodeCount s.network.ends {k | k < s.network.edgeCount}
  joins : ∀ k < s.network.edgeCount,
    Joined s.network.ends s.network.treeSet (s.network.ends k).1 (s.network.ends k).2
  acyclic : Acyclic s.network.ends s.network.treeSet
  unused : ∀ k : Nat, k < s.network.edgeCount →
    s.network.capacity (2 * k) = (s.network.edgeOf (2 * k)).capacity ∧
      s.network.capacity (2 * k + 1) = 0

theorem Seed.sound_start (nodeCount : Nat) : (Seed.start nodeCount).Sound nodeCount [] := by
  have hnone : {k | k < (Seed.start nodeCount).network.edgeCount} = (∅ : Set Nat) := by
    ext k
    have hzero : (Seed.start nodeCount).network.edgeCount = 0 := rfl
    simp [hzero]
  have hnoTree : (Seed.start nodeCount).network.treeSet = ∅ := by
    ext k
    have hzero : (Seed.start nodeCount).network.edgeCount = 0 := rfl
    simp [treeSet, hzero]
  refine ⟨wellFormed_empty nodeCount, rfl, rfl, ?_, ?_, ?_, ?_⟩
  · rw [hnone]
    exact Partition.represents_discrete nodeCount _
  · exact fun k hk => absurd hk (Nat.not_lt_zero k)
  · rw [hnoTree]
    exact acyclic_empty _
  · exact fun k hk => absurd hk (Nat.not_lt_zero k)

/-- A tree that joins what some pairs join does so with one more pair, which goes on the tree if it
joins what was apart. -/
theorem joins_insert {ends : Nat → Nat × Nat} {all tree tree' : Set Nat} {k : Nat} {joins : Bool}
    (hsub : tree ⊆ all) (hjoins : ∀ l ∈ all, Joined ends tree (ends l).1 (ends l).2)
    (hacyclic : Acyclic ends tree)
    (hapart : joins = true ↔ ¬ Joined ends all (ends k).1 (ends k).2)
    (htree : tree' = if joins then insert k tree else tree) :
    (∀ l ∈ insert k all, Joined ends tree' (ends l).1 (ends l).2) ∧ Acyclic ends tree' := by
  cases joins with
  | true =>
    rw [if_pos rfl] at htree
    subst htree
    refine ⟨fun l hl => ?_, hacyclic.insert fun hjoined => hapart.mp rfl (hjoined.mono hsub)⟩
    cases hl with
    | inl heq => exact Joined.of_mem (Or.inl heq)
    | inr hmem => exact (hjoins l hmem).mono (Set.subset_insert k tree)
  | false =>
    rw [if_neg Bool.false_ne_true] at htree
    subst htree
    refine ⟨fun l hl => ?_, hacyclic⟩
    cases hl with
    | inl heq =>
      have hjoined := not_not.mp (mt hapart.mpr Bool.false_ne_true)
      rw [heq]
      exact hjoined.absorb hjoins
    | inr hmem => exact hjoins l hmem

theorem unused_addEdge {net : Network} (h : net.WellFormed) (e : Edge) (tree : Bool)
    (hunused : ∀ k : Nat, k < net.edgeCount →
      net.capacity (2 * k) = (net.edgeOf (2 * k)).capacity ∧ net.capacity (2 * k + 1) = 0)
    (k : Nat) (hk : k < (net.addEdge e tree).edgeCount) :
    (net.addEdge e tree).capacity (2 * k) = ((net.addEdge e tree).edgeOf (2 * k)).capacity ∧
      (net.addEdge e tree).capacity (2 * k + 1) = 0 := by
  rw [edgeCount_addEdge] at hk
  by_cases hlast : k = net.edgeCount
  · rw [edgeOf_push_new (net.edges_addEdge e tree) (by omega) (by simp [hlast]), hlast,
      ← net.arcCount_eq]
    exact capacity_addEdge_new h e tree
  · have hk' : k < net.edgeCount := by omega
    have hforward : Stored net.arcCount (2 * k) := Adjacency.Stored.forward hk'
    have hbackward : Stored net.arcCount (2 * k + 1) := Adjacency.Stored.backward hk'
    rw [edgeOf_push (net.edges_addEdge e tree) hforward, capacity_addEdge h e tree hforward,
      capacity_addEdge h e tree hbackward]
    exact hunused k hk'

theorem Seed.Sound.union {s : Seed} {nodeCount : Nat} {edges : List Edge}
    (h : s.Sound nodeCount edges) {e : Edge} (htail : e.tail < nodeCount)
    (hhead : e.head < nodeCount) {parts : Partition} {joins : Bool}
    (hunion : s.parts.union e.tail e.head = (parts, joins)) :
    s.add e = ⟨s.network.addEdge e joins, parts⟩ ∧
      parts.Represents nodeCount (s.network.addEdge e joins).ends
        (insert s.network.edgeCount {k | k < s.network.edgeCount}) ∧
      (joins = true ↔
        ¬ Joined (s.network.addEdge e joins).ends {k | k < s.network.edgeCount} e.tail e.head) := by
  have hends : ∀ k < s.network.edgeCount, (s.network.addEdge e joins).ends k = s.network.ends k :=
    fun k hk => ends_addEdge e joins hk
  have hrepresents : s.parts.Represents nodeCount (s.network.addEdge e joins).ends
      {k | k < s.network.edgeCount} := by
    refine ⟨h.represents.size_eq, h.represents.forest, h.represents.components_eq, fun a b => ?_⟩
    rw [h.represents.root_eq_iff]
    exact ⟨Joined.congr fun k hk => (hends k hk).symm, Joined.congr fun k hk => hends k hk⟩
  obtain ⟨hunited, hapart, -⟩ :=
    hrepresents.union (s.network.ends_addEdge_new e joins) htail hhead
  rw [hunion] at hunited hapart
  refine ⟨?_, hunited, hapart⟩
  simp only [Seed.add]
  rw [hunion]

theorem Seed.Sound.add {s : Seed} {nodeCount : Nat} {edges : List Edge}
    (h : s.Sound nodeCount edges) {e : Edge} (htail : e.tail < nodeCount)
    (hhead : e.head < nodeCount) : (s.add e).Sound nodeCount (edges ++ [e]) := by
  have htail' : e.tail < s.network.nodeCount := by rwa [h.nodeCount_eq]
  have hhead' : e.head < s.network.nodeCount := by rwa [h.nodeCount_eq]
  obtain ⟨parts, joins, hunion⟩ : ∃ parts joins, s.parts.union e.tail e.head = (parts, joins) :=
    ⟨_, _, rfl⟩
  obtain ⟨hadd, hunited, hapart⟩ := h.union htail hhead hunion
  have hends : ∀ k < s.network.edgeCount, (s.network.addEdge e joins).ends k = s.network.ends k :=
    fun k hk => ends_addEdge e joins hk
  have hendsTree : ∀ k ∈ s.network.treeSet, s.network.ends k = (s.network.addEdge e joins).ends k :=
    fun k hk => (hends k hk.1).symm
  have hall : {k | k < (s.network.addEdge e joins).edgeCount} =
      insert s.network.edgeCount {k | k < s.network.edgeCount} := by
    ext k
    rw [edgeCount_addEdge]
    change k < _ ↔ _ ∨ k < _
    omega
  have hsub : s.network.treeSet ⊆ {k | k < s.network.edgeCount} := fun k hk => hk.1
  obtain ⟨hjoins, hacyclic⟩ := joins_insert hsub
    (fun k hk => by
      rw [hends k hk]
      exact (h.joins k hk).congr hendsTree)
    (h.acyclic.congr hendsTree) (by rw [s.network.ends_addEdge_new e joins]; exact hapart)
    (h.wellFormed.treeSet_addEdge htail' hhead' joins)
  rw [← hall] at hjoins hunited
  rw [hadd]
  refine ⟨h.wellFormed.addEdge htail' hhead' joins, h.nodeCount_eq, ?_, hunited, hjoins, hacyclic,
    unused_addEdge h.wellFormed e joins h.unused⟩
  change (s.network.edges.push e).toList = _
  rw [Array.toList_push, h.edges_eq]

theorem Seed.Sound.addAll {s : Seed} {nodeCount : Nat} {edges : List Edge}
    (h : s.Sound nodeCount edges) (more : List Edge)
    (hmore : ∀ e ∈ more, e.tail < nodeCount ∧ e.head < nodeCount) :
    (more.foldl Seed.add s).Sound nodeCount (edges ++ more) := by
  induction more generalizing s edges with
  | nil => simpa using h
  | cons e more ih =>
    obtain ⟨htail, hhead⟩ := hmore e (by simp)
    have hrest := ih (h.add htail hhead) fun e' he' => hmore e' (List.mem_cons_of_mem e he')
    simpa using hrest

theorem Seed.sound_ofEdges {nodeCount : Nat} {edges : List Edge}
    (hedges : ∀ e ∈ edges, e.tail < nodeCount ∧ e.head < nodeCount) :
    (Seed.ofEdges nodeCount edges).Sound nodeCount edges := by
  simpa [Seed.ofEdges] using (Seed.sound_start nodeCount).addAll edges hedges

end Network

/-- An edge has the data of an arc whose ends are nodes. -/
structure Edge.StandsFor (e : Edge) (nodeCount : Nat) (a : Arc) : Prop where
  tail_lt : e.tail < nodeCount
  head_lt : e.head < nodeCount
  tail_eq : (e.tail : Int) = a.tail
  head_eq : (e.head : Int) = a.head
  capacity_eq : e.capacity = a.capacity
  cost_eq : e.cost = a.cost

theorem Edge.ofArc_ok {nodeCount position : Nat} {a : Arc} {e : Edge}
    (h : Edge.ofArc nodeCount position a = .ok e) : e.StandsFor nodeCount a := by
  simp only [Edge.ofArc] at h
  by_cases htail : (decide (a.tail < 0) || decide ((nodeCount : Int) ≤ a.tail)) = true
  · rw [if_pos htail] at h
    cases h
  · rw [if_neg htail] at h
    by_cases hhead : (decide (a.head < 0) || decide ((nodeCount : Int) ≤ a.head)) = true
    · rw [if_pos hhead] at h
      cases h
    · rw [if_neg hhead] at h
      cases h
      simp only [Bool.or_eq_true, decide_eq_true_eq, not_or] at htail hhead
      constructor <;> simp only <;> omega

theorem Edge.ofArcs_ok {nodeCount position : Nat} {arcs : List Arc} {edges : List Edge}
    (h : Edge.ofArcs nodeCount position arcs = .ok edges) :
    List.Forall₂ (fun a e => Edge.StandsFor e nodeCount a) arcs edges := by
  induction arcs generalizing position edges with
  | nil =>
    cases h
    exact List.Forall₂.nil
  | cons a arcs ih =>
    simp only [Edge.ofArcs] at h
    obtain ⟨e, hfirst, h⟩ := bind_eq_ok_iff.mp h
    obtain ⟨es, hrest, h⟩ := bind_eq_ok_iff.mp h
    cases h
    exact List.Forall₂.cons (Edge.ofArc_ok hfirst) (ih hrest)

namespace Network

/-- A network as it is built: without flow, and with a tree that spans it. -/
structure Built (net : Network) (arcs : List Arc) : Prop where
  wellFormed : net.WellFormed
  pos : 0 < net.nodeCount
  carries : net.Carries arcs
  spanning : IsSpanningTree net.nodeCount net.ends net.treeSet
  unused : ∀ k : Nat, k < net.edgeCount →
    net.capacity (2 * k) = (net.edgeOf (2 * k)).capacity ∧ net.capacity (2 * k + 1) = 0

theorem Built.flow_eq_zero {net : Network} {arcs : List Arc} (h : net.Built arcs) {k : Nat}
    (hk : k < net.edgeCount) : net.flow k = 0 := by
  rw [flow_eq_sub, (h.unused k hk).1, Int.sub_self]

theorem carries_of_edges {net : Network} {nodeCount : Nat} {arcs : List Arc} {edges : List Edge}
    (hedges : net.edges.toList = edges)
    (h : List.Forall₂ (fun a e => Edge.StandsFor e nodeCount a) arcs edges) :
    net.Carries arcs := by
  have hlength : net.edgeCount = arcs.length := by
    rw [h.length_eq, ← hedges]
    simp [edgeCount]
  have hstands : ∀ k (hk : k < arcs.length),
      (net.edgeOf (2 * k)).StandsFor nodeCount arcs[k] := by
    intro k hk
    have hk' : k < edges.length := by rwa [← h.length_eq]
    have hedge : net.edgeOf (2 * k) = edges[k] := by
      rw [edgeOf_eq _ (by omega), pairOf_two_mul, Array.getD_eq_getD_getElem?,
        ← Array.getElem?_toList, hedges, List.getElem?_eq_getElem hk']
      rfl
    rw [hedge]
    exact h.get hk hk'
  have heven : ∀ k : Nat, (2 * (k : Int)) % 2 = 0 := fun k => by omega
  refine ⟨hlength, fun k hk => ?_, fun k hk => ?_, fun k hk => (hstands k hk).capacity_eq,
    fun k hk => ?_⟩
  · rw [tail, if_pos (heven k)]
    exact (hstands k hk).tail_eq
  · rw [head, if_pos (heven k)]
    exact (hstands k hk).head_eq
  · rw [cost, if_pos (heven k)]
    exact (hstands k hk).cost_eq

theorem lt_of_standsFor {nodeCount : Nat} {arcs : List Arc} {edges : List Edge}
    (h : List.Forall₂ (fun a e => Edge.StandsFor e nodeCount a) arcs edges) :
    ∀ e ∈ edges, e.tail < nodeCount ∧ e.head < nodeCount := by
  intro e he
  obtain ⟨k, hk, heq⟩ := List.getElem_of_mem he
  have hstands := h.get (by rwa [h.length_eq]) hk
  rw [List.get_eq_getElem, heq] at hstands
  exact ⟨hstands.tail_lt, hstands.head_lt⟩

theorem ofArcsWithin_eq_ok_iff {room nodeCount : Nat} {arcs : List Arc} {net : Network} :
    ofArcsWithin room nodeCount arcs = .ok net ↔
      ∃ edges, Edge.ofArcs nodeCount 0 arcs = .ok edges ∧
        NumericRange.check arcs = .ok () ∧ Row.checkRoom room nodeCount = .ok () ∧
        (Seed.ofEdges nodeCount edges).parts.components = 1 ∧
        net = (Seed.ofEdges nodeCount edges).network := by
  simp only [ofArcsWithin]
  constructor
  · intro h
    obtain ⟨edges, hedges, h⟩ := bind_eq_ok_iff.mp h
    obtain ⟨⟨⟩, hcheck, h⟩ := bind_eq_ok_iff.mp h
    obtain ⟨⟨⟩, hroom, h⟩ := bind_eq_ok_iff.mp h
    by_cases hone : (Seed.ofEdges nodeCount edges).parts.components = 1
    · simp only [hone, if_true] at h
      exact ⟨edges, hedges, hcheck, hroom, hone, (Except.ok.inj h).symm⟩
    · simp only [hone, if_false] at h
      cases h
  · rintro ⟨edges, hedges, hcheck, hroom, hone, rfl⟩
    refine bind_eq_ok_iff.mpr ⟨edges, hedges, bind_eq_ok_iff.mpr ⟨(), hcheck,
      bind_eq_ok_iff.mpr ⟨(), hroom, ?_⟩⟩⟩
    simp only [hone, if_true]
    rfl

/-- What can be built on one machine can be built wherever there is more room. -/
theorem ofArcs_of_within {room nodeCount : Nat} {arcs : List Arc} {net : Network}
    (h : ofArcsWithin room nodeCount arcs = .ok net) : ofArcs nodeCount arcs = .ok net := by
  obtain ⟨edges, hedges, hcheck, hroom, hone, hnet⟩ := ofArcsWithin_eq_ok_iff.mp h
  refine ofArcsWithin_eq_ok_iff.mpr ⟨edges, hedges, hcheck, ?_, hone, hnet⟩
  rw [Row.checkRoom_eq_ok_iff] at hroom ⊢
  omega

theorem ofValues_eq_ok_iff {count items : Value} {net : Network} :
    ofValues count items = .ok net ↔ ∃ nodeCount arcs, nodeCountOf count = .ok nodeCount ∧
      Arc.listOfValue items = .ok arcs ∧ ofArcs nodeCount arcs = .ok net := by
  simp only [ofValues, ofValuesWithin, ofArcs, bind_eq_ok_iff, exists_and_left]

theorem ofArcs_ok {nodeCount : Nat} {arcs : List Arc} {net : Network}
    (h : ofArcs nodeCount arcs = .ok net) : net.Built arcs ∧ net.nodeCount = nodeCount := by
  obtain ⟨edges, hedges, -, -, hone, rfl⟩ := ofArcsWithin_eq_ok_iff.mp h
  have hstand := Edge.ofArcs_ok hedges
  have hsound : (Seed.ofEdges nodeCount edges).Sound nodeCount edges :=
    Seed.sound_ofEdges (lt_of_standsFor hstand)
  generalize Seed.ofEdges nodeCount edges = s at *
  have hpos : 0 < nodeCount := by
    have hcard := hsound.represents.components_eq
    have hle := Finset.card_filter_le (Finset.range s.parts.size) fun a => s.parts.up a = a
    rw [Finset.card_range, hsound.represents.size_eq] at hle
    simp only [Partition.roots] at hcard
    rw [hsound.represents.size_eq, hone] at hcard
    omega
  refine ⟨⟨hsound.wellFormed, ?_, carries_of_edges hsound.edges_eq hstand, ⟨?_, hsound.acyclic⟩,
    hsound.unused⟩, hsound.nodeCount_eq⟩
  · rwa [hsound.nodeCount_eq]
  · rw [hsound.nodeCount_eq]
    intro a ha b hb
    exact ((hsound.represents.components_eq_one_iff hpos).mp hone a ha b hb).absorb hsound.joins

end Network

end Circulation
