import Circulation.Proofs.Connecting

/-!
The first tree of a network. Each arc goes on the tree if the arcs before it leave its ends apart,
whatever its capacity and its cost, so that the tree spans what the arcs connect. Main result: arcs
between nodes whose numbers are in range make a network exactly if they connect all nodes, and then
have this tree; otherwise the number of parts is reported.
-/

namespace Circulation

variable {nodeCount : Nat} {arcs : List Arc}

def ArcsConnect.setoid (nodeCount : Nat) (arcs : List Arc) : Setoid (Fin nodeCount) :=
  (⟨ArcsConnect arcs, equivalence arcs⟩ : Setoid Nat).comap Fin.val

/-- The number of parts of which a network with these arcs consists. -/
noncomputable def partCount (nodeCount : Nat) (arcs : List Arc) : Nat :=
  Nat.card (Quotient (ArcsConnect.setoid nodeCount arcs))

theorem Partition.Represents.components_eq_partCount {p : Partition} {ends : Nat → Nat × Nat}
    {pairs : Set Nat} (h : p.Represents nodeCount ends pairs)
    (hiff : ∀ u v, ArcsConnect arcs u v ↔ Joined ends pairs u v) :
    p.components = partCount nodeCount arcs :=
  h.components_eq_card hiff

namespace Arc

def ends (a : Arc) : Int × Int := (a.tail, a.head)

/-- The end of an arc that is found not to be a node. The tail is looked at first. -/
def strayEnd (a : Arc) (nodeCount : Nat) : Int :=
  if 0 ≤ a.tail ∧ a.tail < nodeCount then a.head else a.tail

end Arc

theorem ArcsConnect.congr {arcs' : List Arc} (hends : arcs'.map Arc.ends = arcs.map Arc.ends) :
    ArcsConnect arcs' = ArcsConnect arcs := by
  have hrel : ∀ (xs : List Arc) (u v : Nat),
      (∃ a ∈ xs, a.tail = u ∧ a.head = v) ↔ ((u : Int), (v : Int)) ∈ xs.map Arc.ends := by
    intro xs u v
    simp [Arc.ends]
  unfold ArcsConnect
  congr 1
  funext u v
  rw [hrel, hrel, hends]

namespace Edge

theorem ofArc_eq_error {a : Arc} (h : ¬ a.EndsIn nodeCount) (position : Nat) :
    Edge.ofArc nodeCount position a =
      .error (Fault.endpointOutside position a.tail a.head (a.strayEnd nodeCount)
        nodeCount).raised := by
  have hends : ¬ (0 ≤ a.tail ∧ a.tail < nodeCount ∧ 0 ≤ a.head ∧ a.head < nodeCount) :=
    fun hin => h ⟨hin.1, hin.2.1, hin.2.2.1, hin.2.2.2⟩
  simp only [Edge.ofArc, Arc.strayEnd, Bool.or_eq_true, decide_eq_true_eq]
  by_cases htail : 0 ≤ a.tail ∧ a.tail < nodeCount
  · rw [if_neg (by omega), if_pos (by omega), if_pos htail]
  · rw [if_pos (by omega), if_neg htail]

theorem ofArcs_eq_error (h : ∃ a ∈ arcs, ¬ a.EndsIn nodeCount) (position : Nat) :
    ∃ before a after, arcs = before ++ a :: after ∧ (∀ b ∈ before, b.EndsIn nodeCount) ∧
      ¬ a.EndsIn nodeCount ∧ Edge.ofArcs nodeCount position arcs =
        .error (Fault.endpointOutside (position + before.length) a.tail a.head
          (a.strayEnd nodeCount) nodeCount).raised := by
  induction arcs generalizing position with
  | nil => simp at h
  | cons first arcs ih =>
    by_cases hfirst : first.EndsIn nodeCount
    · have hrest : ∃ a ∈ arcs, ¬ a.EndsIn nodeCount := by
        obtain ⟨a, ha, hout⟩ := h
        cases List.mem_cons.mp ha with
        | inl heq => exact absurd (heq ▸ hfirst) hout
        | inr hmem => exact ⟨a, hmem, hout⟩
      obtain ⟨before, a, after, heq, hbefore, hout, herror⟩ := ih hrest (position + 1)
      obtain ⟨e, he⟩ := Edge.ofArc_eq_ok hfirst position
      refine ⟨first :: before, a, after, by rw [heq, List.cons_append],
        List.forall_mem_cons.mpr ⟨hfirst, hbefore⟩, hout, ?_⟩
      rw [List.length_cons, ← Nat.succ_add_eq_add_succ]
      simp only [Edge.ofArcs, he, herror, bind, Except.bind]
    · refine ⟨[], first, arcs, rfl, by simp, hfirst, ?_⟩
      simp only [Edge.ofArcs, ofArc_eq_error hfirst position, bind, Except.bind]
      rfl

end Edge

namespace Network

/-- An edge is on the tree if the edges before it leave its ends apart, and off it otherwise. -/
def Greedy (net : Network) : Prop :=
  ∀ k < net.edgeCount, k ∈ net.treeSet ↔
    ¬ Joined net.ends {j | j < k} (net.ends k).1 (net.ends k).2

namespace Seed

variable {s : Seed} {edges : List Edge}

theorem Sound.greedy_add (h : s.Sound nodeCount edges) (hgreedy : s.network.Greedy) {e : Edge}
    (htail : e.tail < nodeCount) (hhead : e.head < nodeCount) : (s.add e).network.Greedy := by
  obtain ⟨parts, joins, hunion⟩ : ∃ parts joins, s.parts.union e.tail e.head = (parts, joins) :=
    ⟨_, _, rfl⟩
  obtain ⟨hadd, -, hapart⟩ := h.union htail hhead hunion
  have htree := h.wellFormed.treeSet_addEdge (h.nodeCount_eq.symm ▸ htail)
    (h.nodeCount_eq.symm ▸ hhead) joins
  rw [hadd]
  intro k hk
  rw [edgeCount_addEdge] at hk
  rw [htree]
  by_cases hlast : k = s.network.edgeCount
  · have hout : s.network.edgeCount ∉ s.network.treeSet :=
      fun hmem => absurd hmem.1 (Nat.lt_irrefl _)
    rw [hlast, ends_addEdge_new, ← hapart]
    cases joins <;> simp [hout]
  · have hold : ∀ j < k + 1, (s.network.addEdge e joins).ends j = s.network.ends j :=
      fun j hj => ends_addEdge e joins (by omega)
    have hsame : k ∈ (if joins then insert s.network.edgeCount s.network.treeSet
        else s.network.treeSet) ↔ k ∈ s.network.treeSet := by
      cases joins <;> simp [hlast]
    rw [hsame, hgreedy k (by omega), hold k (Nat.lt_succ_self k)]
    refine not_congr ⟨Joined.congr fun j hj => ?_, Joined.congr fun j hj => ?_⟩
    · exact (hold j (Nat.lt_succ_of_lt hj)).symm
    · exact hold j (Nat.lt_succ_of_lt hj)

theorem Sound.greedy_addAll (h : s.Sound nodeCount edges) (hgreedy : s.network.Greedy)
    (more : List Edge) (hmore : ∀ e ∈ more, e.tail < nodeCount ∧ e.head < nodeCount) :
    (more.foldl Seed.add s).network.Greedy := by
  induction more generalizing s edges with
  | nil => exact hgreedy
  | cons e more ih =>
    obtain ⟨htail, hhead⟩ := hmore e List.mem_cons_self
    exact ih (h.add htail hhead) (h.greedy_add hgreedy htail hhead) fun e' he' =>
      hmore e' (List.mem_cons_of_mem e he')

theorem greedy_ofEdges (hedges : ∀ e ∈ edges, e.tail < nodeCount ∧ e.head < nodeCount) :
    (Seed.ofEdges nodeCount edges).network.Greedy :=
  (Seed.sound_start nodeCount).greedy_addAll (fun _ hk => absurd hk (Nat.not_lt_zero _)) edges
    hedges

end Seed

/-- A network as it is built from arcs: nothing flows, and an arc is on the tree exactly if the arcs
before it do not connect its ends. -/
structure Seeded (net : Network) (nodeCount : Nat) (arcs : List Arc) : Prop where
  nodeCount_eq : net.nodeCount = nodeCount
  carries : net.Carries arcs
  mem_treePairs : ∀ k (hk : k < arcs.length), k ∈ net.treePairs ↔
    ¬ ArcsConnect (arcs.take k) arcs[k].tail.toNat arcs[k].head.toNat
  flows_eq : net.flows = List.replicate arcs.length 0
  spanning : IsSpanningTree net.nodeCount net.ends net.treeSet

theorem seeded_of_ofArcs {net : Network} (h : ofArcs nodeCount arcs = .ok net) :
    net.Seeded nodeCount arcs := by
  obtain ⟨hbuilt, hcount⟩ := ofArcs_ok h
  obtain ⟨edges, hedges, -, -, -, rfl⟩ := ofArcsWithin_eq_ok_iff.mp h
  have hgreedy := Seed.greedy_ofEdges (lt_of_standsFor (Edge.ofArcs_ok hedges))
  have hcarries := hbuilt.carries
  generalize (Seed.ofEdges nodeCount edges).network = net at *
  refine ⟨hcount, hcarries, fun k hk => ?_, ?_, hbuilt.spanning⟩
  · have htail := hcarries.tail_eq k hk
    have hhead := hcarries.head_eq k hk
    rw [net.mem_treePairs, hgreedy k (hcarries.edgeCount_eq ▸ hk), ← htail, ← hhead,
      Int.toNat_natCast, Int.toNat_natCast, ArcsConnect.take_iff hcarries (Nat.le_of_lt hk)]
    rfl
  · refine List.eq_replicate_iff.mpr ⟨?_, fun x hx => ?_⟩
    · simp [flows, hcarries.edgeCount_eq]
    · obtain ⟨k, hk, rfl⟩ := List.mem_map.mp hx
      exact hbuilt.flow_eq_zero (List.mem_range.mp hk)

theorem Seeded.treePairs_eq {net net' : Network} {arcs' : List Arc} (h : net.Seeded nodeCount arcs)
    (h' : net'.Seeded nodeCount arcs') (hends : arcs'.map Arc.ends = arcs.map Arc.ends) :
    net'.treePairs = net.treePairs := by
  have hlength : arcs'.length = arcs.length := by simpa using congrArg List.length hends
  have hcount : net'.edgeCount = net.edgeCount := by
    rw [h'.carries.edgeCount_eq, h.carries.edgeCount_eq, hlength]
  have hmem : ∀ k, k < arcs.length → (k ∈ net'.treePairs ↔ k ∈ net.treePairs) := by
    intro k hk
    have hk' : k < arcs'.length := hlength ▸ hk
    have hsame : arcs'[k].ends = arcs[k].ends := by
      simpa [hk, hk'] using congrArg (·[k]?) hends
    have htake : (arcs'.take k).map Arc.ends = (arcs.take k).map Arc.ends := by
      rw [List.map_take, List.map_take, hends]
    simp only [Arc.ends, Prod.mk.injEq] at hsame
    rw [h.mem_treePairs k hk, h'.mem_treePairs k hk', ArcsConnect.congr htake, hsame.1, hsame.2]
  simp only [treePairs, hcount]
  refine List.filter_congr fun k hk => Bool.eq_iff_iff.mpr ?_
  have hlt := List.mem_range.mp hk
  have hiff := hmem k (h.carries.edgeCount_eq ▸ hlt)
  simpa [treePairs, hcount, hlt] using hiff

/-- Arcs between nodes leave as many parts as they connect the nodes to. If all numbers are in range
and the nodes find room, there has to be one part. -/
theorem ofArcsWithin_eq_ite {room : Nat} (hends : ∀ a ∈ arcs, a.EndsIn nodeCount)
    (hcheck : NumericRange.check arcs = .ok ()) (hroom : Row.checkRoom room nodeCount = .ok ()) :
    ∃ (net : Network) (components : Int), components = partCount nodeCount arcs ∧
      (0 < nodeCount → (components = 1 ↔
        ∀ u < nodeCount, ∀ v < nodeCount, ArcsConnect arcs u v)) ∧
      ofArcsWithin room nodeCount arcs =
        if components = 1 then .ok net else .error (.disconnected components nodeCount) := by
  obtain ⟨edges, hedges⟩ := Edge.ofArcs_eq_ok hends 0
  have hstand := Edge.ofArcs_ok hedges
  have hsound := Seed.sound_ofEdges (lt_of_standsFor hstand)
  have hcarries := carries_of_edges hsound.edges_eq hstand
  have hiff : ∀ u v, ArcsConnect arcs u v ↔ Joined (Seed.ofEdges nodeCount edges).network.ends
      {k | k < (Seed.ofEdges nodeCount edges).network.edgeCount} u v :=
    fun u v => ArcsConnect.iff_joined hcarries
  refine ⟨(Seed.ofEdges nodeCount edges).network, (Seed.ofEdges nodeCount edges).parts.components,
    hsound.represents.components_eq_partCount hiff, fun hpos => ?_, ?_⟩
  · rw [hsound.represents.components_eq_one_iff hpos]
    simp only [hiff]
  · simp only [ofArcsWithin, hedges, hcheck, hroom, bind, Except.bind]
    rfl

/-- When a network can be built and what it looks like then. An arc with an end that is no node is
refused, the first one of all and its tail before its head, as far as its numbers can be shown.
Otherwise the machine has room for the nodes or not. If it has, the arcs have to connect all nodes.
The first tree has the arcs whose ends are not connected by the arcs before them. -/
theorem ofValuesWithin_greedy (room : Nat) {items : Value} (hpos : 0 < nodeCount)
    (harcs : Arc.listOfValue items = .ok arcs) :
    ((∃ a ∈ arcs, ¬ a.EndsIn nodeCount) → ∃ before a after, arcs = before ++ a :: after ∧
      (∀ b ∈ before, b.EndsIn nodeCount) ∧ ¬ a.EndsIn nodeCount ∧
      ofValuesWithin room (.int nodeCount) items = .error (Fault.endpointOutside before.length
        a.tail a.head (a.strayEnd nodeCount) nodeCount).raised) ∧
    ((∀ a ∈ arcs, a.EndsIn nodeCount) → NumericRange.check arcs = .ok () →
      (∀ fault, Row.checkRoom room nodeCount = .error fault →
        ofValuesWithin room (.int nodeCount) items = .error fault) ∧
      (Row.checkRoom room nodeCount = .ok () →
        ((∃ net, ofValuesWithin room (.int nodeCount) items = .ok net) ↔
          ∀ u < nodeCount, ∀ v < nodeCount, ArcsConnect arcs u v) ∧
        ((¬ ∀ u < nodeCount, ∀ v < nodeCount, ArcsConnect arcs u v) →
          ofValuesWithin room (.int nodeCount) items =
            .error (.disconnected (partCount nodeCount arcs) nodeCount)))) ∧
    ∀ net, ofValuesWithin room (.int nodeCount) items = .ok net → net.Seeded nodeCount arcs ∧
      ∀ items' arcs' net', Arc.listOfValue items' = .ok arcs' →
        arcs'.map Arc.ends = arcs.map Arc.ends →
          ofValuesWithin room (.int nodeCount) items' = .ok net' →
            net'.treePairs = net.treePairs := by
  rw [ofValuesWithin_eq room hpos harcs]
  refine ⟨fun hout => ?_, fun hends hcheck => ⟨fun fault hroom => ?_, fun hroom => ?_⟩,
    fun net hok => ⟨seeded_of_ofArcs (ofArcs_of_within hok),
      fun items' arcs' net' harcs' hsame hok' => ?_⟩⟩
  · obtain ⟨before, a, after, heq, hbefore, hout, herror⟩ := Edge.ofArcs_eq_error hout 0
    refine ⟨before, a, after, heq, hbefore, hout, ?_⟩
    rw [Nat.zero_add] at herror
    simp only [ofArcsWithin, herror, bind, Except.bind]
  · obtain ⟨edges, hedges⟩ := Edge.ofArcs_eq_ok hends 0
    simp only [ofArcsWithin, hedges, hcheck, hroom, bind, Except.bind]
  · obtain ⟨net, components, hparts, hone, hresult⟩ := ofArcsWithin_eq_ite hends hcheck hroom
    rw [hresult, ← hone hpos, ← hparts]
    by_cases h : components = 1
    · simp [h]
    · simp [h]
  · rw [ofValuesWithin_eq room hpos harcs'] at hok'
    exact (seeded_of_ofArcs (ofArcs_of_within hok)).treePairs_eq
      (seeded_of_ofArcs (ofArcs_of_within hok')) hsame

/-- Two nodes with an arc in each direction, of which the first one is on the tree. With a third
node the same arcs leave two parts, and for a fourth one there is no room. -/
theorem ofValuesWithin_greedy_return : ∃ items arcs, ∃ net : Network,
    Arc.listOfValue items = .ok arcs ∧ ofValuesWithin 3 (.int (2 : Nat)) items = .ok net ∧
      net.Seeded 2 arcs ∧ net.treePairs = [0] ∧
      ofValuesWithin 3 (.int (3 : Nat)) items = .error (.disconnected (partCount 3 arcs) 3) ∧
      partCount 3 arcs = 2 ∧ ofValuesWithin 3 (.int (4 : Nat)) items = .error .outOfMemory := by
  obtain ⟨items, arcs, net, harcs, htwo, htree, hends, hcheck, hthree⟩ :
      ∃ items arcs, ∃ net : Network, Arc.listOfValue items = .ok arcs ∧
        ofValuesWithin 3 (.int (2 : Nat)) items = .ok net ∧ net.treePairs = [0] ∧
        (∀ a ∈ arcs, 0 ≤ a.tail ∧ a.tail < 3 ∧ 0 ≤ a.head ∧ a.head < 3) ∧
        NumericRange.check arcs = .ok () ∧
        ofValuesWithin 3 (.int (3 : Nat)) items = .error (.disconnected 2 3) :=
    ⟨.list [.list [.int 0, .int 1, .int 5, .int 2], .list [.int 1, .int 0, .int 3, .int 1]],
      _, _, rfl, rfl, rfl, by decide, rfl, rfl⟩
  have hin : ∀ a ∈ arcs, a.EndsIn 3 := fun a ha =>
    ⟨(hends a ha).1, (hends a ha).2.1, (hends a ha).2.2.1, (hends a ha).2.2.2⟩
  have hin' : ∀ a ∈ arcs, a.EndsIn 4 := fun a ha =>
    ⟨(hin a ha).tail_nonneg, (hin a ha).tail_lt.trans (by decide), (hin a ha).head_nonneg,
      (hin a ha).head_lt.trans (by decide)⟩
  have hseeded := ((ofValuesWithin_greedy 3 (by decide : 0 < 2) harcs).2.2 net htwo).1
  obtain ⟨-, hroom⟩ := (ofValuesWithin_greedy 3 (by decide : 0 < 3) harcs).2.1 hin hcheck
  obtain ⟨hfull, -⟩ := (ofValuesWithin_greedy 3 (by decide : 0 < 4) harcs).2.1 hin' hcheck
  obtain ⟨hok, hapart⟩ := hroom rfl
  have hparts : ofValuesWithin 3 (.int (3 : Nat)) items =
      .error (.disconnected (partCount 3 arcs) 3) := by
    refine hapart fun hconnected => ?_
    obtain ⟨net', hnet'⟩ := hok.mpr hconnected
    cases hthree.symm.trans hnet'
  refine ⟨items, arcs, net, harcs, htwo, hseeded, htree, hparts, ?_, hfull _ rfl⟩
  have hsame := hthree.symm.trans hparts
  simp only [Except.error.injEq, Fault.disconnected.injEq, and_true] at hsame
  omega

/-- If the nodes are too many to be held, it is not told how many parts there are. -/
theorem ofValues_beyond_room : Arc.listOfValue (.list []) = .ok [] ∧
    NumericRange.check [] = .ok () ∧ ¬ ArcsConnect [] 0 1 ∧
      ofValues (.int 100000000000000000000) (.list []) = .error .tooLarge ∧
      ∀ components nodeCount, Fault.tooLarge ≠ .disconnected components nodeCount := by
  refine ⟨rfl, rfl, fun hconnected => ?_, rfl, nofun⟩
  have hsame : (0 : Nat) = 1 :=
    eq_equivalence.eqvGen_iff.mp (Relation.EqvGen.mono (fun u v hstep => by simp at hstep) 0 1
      hconnected)
  cases hsame

end Network

end Circulation
