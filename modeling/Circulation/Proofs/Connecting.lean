import Circulation.Proofs.Seeding

/-!
When a network can be built. Main result: arcs that lead from node to node and connect all of them
make a network, unless the numbers are too large for the arithmetic or the nodes too many for the
memory.
-/

namespace Circulation

variable {nodeCount : Nat} {arcs : List Arc}

structure Arc.EndsIn (a : Arc) (nodeCount : Nat) : Prop where
  tail_nonneg : 0 ≤ a.tail
  tail_lt : a.tail < nodeCount
  head_nonneg : 0 ≤ a.head
  head_lt : a.head < nodeCount

/-- Nodes that are connected by arcs, whichever way these run. -/
def ArcsConnect (arcs : List Arc) : Nat → Nat → Prop :=
  Relation.EqvGen fun u v => ∃ a ∈ arcs, a.tail = u ∧ a.head = v

namespace ArcsConnect

theorem symm {u v : Nat} (h : ArcsConnect arcs u v) : ArcsConnect arcs v u :=
  Relation.EqvGen.symm u v h

theorem trans {u v w : Nat} (h : ArcsConnect arcs u v) (h' : ArcsConnect arcs v w) :
    ArcsConnect arcs u w :=
  Relation.EqvGen.trans u v w h h'

theorem of_mem {a : Arc} {u v : Nat} (ha : a ∈ arcs) (htail : a.tail = u) (hhead : a.head = v) :
    ArcsConnect arcs u v :=
  Relation.EqvGen.rel u v ⟨a, ha, htail, hhead⟩

theorem equivalence (arcs : List Arc) : Equivalence (ArcsConnect arcs) :=
  ⟨Relation.EqvGen.refl, symm, trans⟩

theorem take_iff {net : Network} (hcarries : net.Carries arcs) {n : Nat} (hn : n ≤ arcs.length)
    {u v : Nat} : ArcsConnect (arcs.take n) u v ↔ Joined net.ends {k | k < n} u v := by
  constructor
  · refine fun h => Relation.EqvGen.mono (fun u v hstep => ?_) u v h
    obtain ⟨a, ha, htail, hhead⟩ := hstep
    obtain ⟨k, hk, rfl⟩ := List.mem_take_iff_getElem.mp ha
    rw [Nat.lt_min] at hk
    have htail' := hcarries.tail_eq k hk.2
    have hhead' := hcarries.head_eq k hk.2
    refine ⟨k, hk.1, Prod.ext ?_ ?_⟩
    · simp only [Network.ends]
      omega
    · simp only [Network.ends]
      omega
  · refine fun h => h.lift _ (equivalence _) fun k hk => ?_
    have hlt : k < arcs.length := Nat.lt_of_lt_of_le hk hn
    have hmem : arcs[k] ∈ arcs.take n :=
      List.mem_take_iff_getElem.mpr ⟨k, Nat.lt_min.mpr ⟨hk, hlt⟩, rfl⟩
    exact of_mem hmem (hcarries.tail_eq k hlt).symm (hcarries.head_eq k hlt).symm

theorem iff_joined {net : Network} (hcarries : net.Carries arcs) {u v : Nat} :
    ArcsConnect arcs u v ↔ Joined net.ends {k | k < net.edgeCount} u v := by
  rw [hcarries.edgeCount_eq, ← take_iff hcarries (Nat.le_refl _), List.take_length]

end ArcsConnect

theorem Arc.ofItems_toValue (arcs : List Arc) (position : Nat) :
    ofItems position (arcs.map toValue) = .ok arcs := by
  induction arcs generalizing position with
  | nil => rfl
  | cons a arcs ih =>
    have hsize : ¬ (a.capacity : Int) < 0 := by omega
    have hfirst : ofValue position a.toValue = .ok a := by
      simp only [ofValue, toValue, Value.items?, ofMembers, Value.toInt, bind, Except.bind]
      rw [if_neg hsize]
      rfl
    rw [List.map_cons, ofItems]
    exact bind_eq_ok_iff.mpr ⟨a, hfirst, bind_eq_ok_iff.mpr ⟨arcs, ih (position + 1), rfl⟩⟩

theorem Network.ofValuesWithin_eq {items : Value} (room : Nat) (hpos : 0 < nodeCount)
    (harcs : Arc.listOfValue items = .ok arcs) :
    ofValuesWithin room (.int nodeCount) items = ofArcsWithin room nodeCount arcs := by
  have hcount : nodeCountOf (.int nodeCount) = .ok nodeCount := by
    simp only [nodeCountOf]
    rw [if_neg (by omega), Int.toNat_natCast]
  simp only [ofValuesWithin, hcount, harcs]
  rfl

theorem Network.ofValues_eq {items : Value} (hpos : 0 < nodeCount)
    (harcs : Arc.listOfValue items = .ok arcs) :
    ofValues (.int nodeCount) items = ofArcs nodeCount arcs :=
  ofValuesWithin_eq Row.placeLimit hpos harcs

theorem Network.ofValues_toValue (hpos : 0 < nodeCount) (arcs : List Arc) :
    ofValues (.int nodeCount) (.list (arcs.map Arc.toValue)) = ofArcs nodeCount arcs :=
  ofValues_eq hpos (Arc.ofItems_toValue arcs 0)

theorem Edge.ofArc_eq_ok {a : Arc} (h : a.EndsIn nodeCount) (position : Nat) :
    ∃ e, Edge.ofArc nodeCount position a = .ok e := by
  have htail := h.tail_nonneg
  have htail' := h.tail_lt
  have hhead := h.head_nonneg
  have hhead' := h.head_lt
  refine ⟨⟨a.tail.toNat, a.head.toNat, a.capacity, a.cost⟩, ?_⟩
  simp only [Edge.ofArc]
  rw [if_neg (by simp; omega), if_neg (by simp; omega)]

theorem Edge.ofArcs_eq_ok (h : ∀ a ∈ arcs, a.EndsIn nodeCount) (position : Nat) :
    ∃ edges, Edge.ofArcs nodeCount position arcs = .ok edges := by
  induction arcs generalizing position with
  | nil => exact ⟨[], rfl⟩
  | cons a arcs ih =>
    obtain ⟨e, he⟩ := Edge.ofArc_eq_ok (h a List.mem_cons_self) position
    obtain ⟨es, hes⟩ := ih (fun b hb => h b (List.mem_cons_of_mem a hb)) (position + 1)
    exact ⟨e :: es, bind_eq_ok_iff.mpr ⟨e, he, bind_eq_ok_iff.mpr ⟨es, hes, rfl⟩⟩⟩

namespace Network

theorem components_ofEdges (hpos : 0 < nodeCount) {edges : List Edge}
    (hedges : Edge.ofArcs nodeCount 0 arcs = .ok edges)
    (hconnected : ∀ u < nodeCount, ∀ v < nodeCount, ArcsConnect arcs u v) :
    (Seed.ofEdges nodeCount edges).parts.components = 1 := by
  have hstand := Edge.ofArcs_ok hedges
  have hsound := Seed.sound_ofEdges (lt_of_standsFor hstand)
  have hcarries := carries_of_edges hsound.edges_eq hstand
  exact (hsound.represents.components_eq_one_iff hpos).mpr fun u hu v hv =>
    (ArcsConnect.iff_joined hcarries).mp (hconnected u hu v hv)

theorem ofArcs_eq (hpos : 0 < nodeCount) (hends : ∀ a ∈ arcs, a.EndsIn nodeCount)
    (hconnected : ∀ u < nodeCount, ∀ v < nodeCount, ArcsConnect arcs u v) :
    ∃ net : Network, ofArcs nodeCount arcs =
      (do
        NumericRange.check arcs
        Row.checkRoom Row.placeLimit nodeCount
        return net) := by
  obtain ⟨edges, hedges⟩ := Edge.ofArcs_eq_ok hends 0
  refine ⟨(Seed.ofEdges nodeCount edges).network, ?_⟩
  have hone := components_ofEdges hpos hedges hconnected
  simp only [ofArcs, ofArcsWithin, hedges, bind, Except.bind, hone, if_true]

end Network

theorem NumericRange.category_of_check {fault : Fault} (h : check arcs = .error fault) :
    fault.category = .overflow ∨ fault.category = .tooLarge ∨ fault.category = .badValue := by
  simp only [check] at h
  split at h
  · cases h
    exact Fault.category_raised _
  · split at h
    · cases h
      exact Fault.category_raised _
    · split at h
      · cases h
        exact Fault.category_raised _
      · cases h

theorem Row.category_of_checkRoom {room : Nat} {size : Int} {fault : Fault}
    (h : checkRoom room size = .error fault) :
    fault.category = .tooLarge ∨ fault.category = .outOfMemory := by
  simp only [checkRoom] at h
  split at h
  · cases h
    exact Or.inl rfl
  · split at h
    · cases h
      exact Or.inr rfl
    · cases h

/-- Arcs between nodes that connect all of them make a network, or there is too much to hold or to
show. -/
theorem Network.category_of_ofArcs (hpos : 0 < nodeCount) (hends : ∀ a ∈ arcs, a.EndsIn nodeCount)
    (hconnected : ∀ u < nodeCount, ∀ v < nodeCount, ArcsConnect arcs u v) {fault : Fault}
    (h : ofArcs nodeCount arcs = .error fault) : fault.category = .overflow ∨
      fault.category = .tooLarge ∨ fault.category = .outOfMemory ∨ fault.category = .badValue := by
  obtain ⟨net, hnet⟩ := ofArcs_eq hpos hends hconnected
  rw [hnet] at h
  obtain hcheck | ⟨-, -, h⟩ := bind_eq_error_iff.mp h
  · rcases NumericRange.category_of_check hcheck with hover | hlarge | hbad
    · exact Or.inl hover
    · exact Or.inr (Or.inl hlarge)
    · exact Or.inr (Or.inr (Or.inr hbad))
  · obtain hroom | ⟨-, -, hdone⟩ := bind_eq_error_iff.mp h
    · exact (Or.inr (Row.category_of_checkRoom hroom)).imp_right (Or.imp_right Or.inl)
    · cases hdone

end Circulation
