import Circulation.Proofs.Reaching

/-!
From which roots the tree can be seen. An integer names a node, from which the whole tree is found.
A truth value names one as well, but no potential, so that nothing can be found below it. Main
result: what a look at the tree comes to depends on the root and the number of nodes alone, not on
the state of the solver.
-/

namespace Circulation

open Adjacency (Stored)

theorem Network.WellFormed.arcsFrom_ne_nil {net : Network} (h : net.WellFormed)
    (hspanning : IsSpanningTree net.nodeCount net.ends net.treeSet) {node other : Nat}
    (hnode : node < net.nodeCount) (hother : other < net.nodeCount) (hne : node ≠ other) :
    net.arcsFrom node true ≠ [] := by
  intro hnil
  have hnone : ∀ arc, Stored net.arcCount arc → net.isTree arc = true → net.tail arc ≠ node := by
    intro arc harc htree htail
    have hmem := (h.mem_arcsFrom hnode true arc).mpr ⟨harc, htail, htree⟩
    rw [hnil] at hmem
    cases hmem
  -- no pair of the tree leads to the node, so it is joined to no other one
  have hsame : decide (node = node) = decide (other = node) := by
    refine Joined.value_eq (fun v => decide (v = node)) (fun k hk => ?_)
      (hspanning.connected node hnode other hother)
    have hstored : Stored net.arcCount (2 * k) := Stored.forward hk.1
    have htail := hnone _ hstored hk.2
    have hhead := hnone _ hstored.twin ((h.isTree_twin _ hstored).trans hk.2)
    rw [Network.tail_twin] at hhead
    simp [Network.ends, htail, hhead]
  simp [hne.symm] at hsame

theorem Network.WellFormed.tail_ne_head {net : Network} (h : net.WellFormed)
    (hspanning : IsSpanningTree net.nodeCount net.ends net.treeSet) {arc : Int}
    (harc : Stored net.arcCount arc) (htree : net.isTree arc = true) :
    net.tail arc ≠ net.head arc := by
  have hends := hspanning.no_loop ((h.mem_treeSet harc).mpr htree)
  cases net.ends_of_arc harc.1 with
  | inl hpair => rwa [hpair] at hends
  | inr hpair =>
    rw [hpair] at hends
    exact hends.symm

theorem Network.WellFormed.arcsFrom_eq_nil {net : Network} (h : net.WellFormed)
    (hspanning : IsSpanningTree net.nodeCount net.ends net.treeSet) {node : Nat}
    (hnode : node < net.nodeCount) (hone : net.nodeCount = 1) : net.arcsFrom node true = [] := by
  refine List.eq_nil_iff_forall_not_mem.mpr fun arc hmem => ?_
  obtain ⟨hstored, -, htree⟩ := (h.mem_arcsFrom hnode true arc).mp hmem
  have htail := h.tail_lt arc hstored
  have hhead := h.head_lt hstored
  exact h.tail_ne_head hspanning hstored htree (by omega)

theorem Tree.isRoot_of_refresh {t : Tree} {net : Network} {root : Int}
    (hok : (t.refresh net).1 = .ok ()) (hroot : t.isRoot root = true) (node : Int) :
    t.isRoot node = decide (root = node) := by
  simp only [refresh] at hok
  split at hok
  · rename_i name hname
    have hsame : name = root := by simpa [isRoot, hname, Value.number?] using hroot
    simp [isRoot, hname, Value.number?, hsame]
  · rename_i b hname
    have hsame : Number.ofTruth b = root := by simpa [isRoot, hname, Value.number?] using hroot
    simp [isRoot, hname, Value.number?, hsame]
  · cases hok

/-- What a look at a spanning tree comes to. -/
def Options.lookResult (options : Options) (nodeCount : Nat) : Except Fault Unit :=
  match options.root with
  | .int _ => .ok ()
  | .truth _ => if nodeCount = 1 then .ok () else .error .badValue
  | .float _ => .error .wrongKind

theorem Options.lookResult_cases (options : Options) (nodeCount : Nat) :
    options.lookResult nodeCount = .ok () ∨ ∃ fault, options.lookResult nodeCount = .error fault ∧
      (fault.category = .wrongKind ∨ fault.category = .badValue) := by
  simp only [lookResult]
  cases options.root with
  | int root => exact Or.inl rfl
  | float x => exact Or.inr ⟨.wrongKind, rfl, Or.inl rfl⟩
  | truth b =>
    dsimp only
    split
    · exact Or.inl rfl
    · exact Or.inr ⟨.badValue, rfl, Or.inr rfl⟩

namespace Solver.Sound

variable {s : Solver} {options : Options} {nodeCount : Nat} {arcs : List Arc}
  (h : s.Sound options nodeCount arcs)
include h

theorem refresh_ok {root : Int} (hroot : options.root = .int root) :
    s.refresh.1 = .ok () ∧ ∃ node : Nat, s.refresh.2.tree.root = .int node ∧
      s.refresh.2.tree.Rooted s.network node := by
  have hname : s.tree.root = .int root := by
    rw [h.root_eq, hroot]
    rfl
  obtain ⟨hpos, hlt⟩ := h.rootIn root (Or.inl hname)
  obtain ⟨node, rfl⟩ := Int.eq_ofNat_of_zero_le hpos
  obtain ⟨hok, hrooted⟩ :=
    Tree.refresh_ok h.wellFormed h.sized hname (by omega) h.spanning
  exact ⟨hok, node, h.root_refresh.trans hname, hrooted⟩

/-- From a truth value the tree is seen only if there is nothing to see. -/
theorem refresh_truth {b : Bool} (hroot : options.root = .truth b) :
    s.refresh.1 = if nodeCount = 1 then .ok () else .error .badValue := by
  have htruth : s.tree.root = .bool b := by
    rw [h.root_eq, hroot]
    rfl
  obtain ⟨hpos, hlt⟩ := h.rootIn _ (Or.inr ⟨b, htruth, rfl⟩)
  obtain ⟨root, hnat⟩ := Int.eq_ofNat_of_zero_le hpos
  rw [hnat] at hlt
  have hlt : root < s.network.nodeCount := Int.ofNat_lt.mp hlt
  have hcount := h.nodeCount_eq
  simp only [Solver.refresh, Tree.refresh]
  rw [htruth]
  simp only [hnat, Tree.refreshFromTruth, Row.place_natCast, h.sized.hasNode hlt, if_true]
  by_cases hone : nodeCount = 1
  · have hsize : s.tree.nodeCount = 1 := h.sized.depth.trans (hcount.trans hone)
    rw [h.wellFormed.arcsFrom_eq_nil h.spanning hlt (hcount.trans hone)]
    simp only [Tree.checkReached, hsize, if_true, if_pos hone]
  · obtain ⟨other, hother, hne⟩ : ∃ other < s.network.nodeCount, root ≠ other :=
      ⟨if root = 0 then 1 else 0, by split <;> omega, by split <;> omega⟩
    obtain ⟨arc, rest, harc⟩ := List.exists_cons_of_ne_nil
      (h.wellFormed.arcsFrom_ne_nil h.spanning hlt hother hne)
    obtain ⟨hstored, htail, htree⟩ := (h.wellFormed.mem_arcsFrom hlt true arc).mp (by
      rw [harc]
      exact List.mem_cons_self)
    have hloop : (s.network.head arc : Int) ≠ root := by
      have hends := h.wellFormed.tail_ne_head h.spanning hstored htree
      omega
    simp only [harc, if_neg hloop, if_neg hone]

theorem refresh_result : s.refresh.1 = options.lookResult nodeCount := by
  simp only [Options.lookResult]
  cases hroot : options.root with
  | int root => exact (h.refresh_ok hroot).1
  | truth b => exact h.refresh_truth hroot
  | float x =>
    have hfloat : s.tree.root = .float x := by
      rw [h.root_eq, hroot]
      rfl
    simp only [Solver.refresh, Tree.refresh]
    rw [hfloat]

theorem category_of_refresh {fault : Fault} (hlook : s.refresh.1 = .error fault) :
    fault.category = .wrongKind ∨ fault.category = .badValue := by
  rw [h.refresh_result] at hlook
  rcases options.lookResult_cases nodeCount with hok | ⟨refused, hrefused, hcategory⟩
  · cases hok.symm.trans hlook
  · cases hrefused.symm.trans hlook
    exact hcategory

/-- If the tree can be seen in one state, it can be seen in every state. -/
theorem sees {s' : Solver} {arcs' : List Arc} (h' : s'.Sound options nodeCount arcs')
    (hok : s.refresh.1 = .ok ()) : s'.refresh.1 = .ok () := by
  rw [h'.refresh_result, ← h.refresh_result, hok]

theorem refresh_rooted (hok : s.refresh.1 = .ok ()) : ∃ node : Nat,
    (∀ v : Int, s.refresh.2.tree.isRoot v = decide ((node : Int) = v)) ∧
      s.refresh.2.tree.Rooted s.network node := by
  obtain ⟨node, hname, hrooted⟩ := Tree.refresh_rooted h.wellFormed h.sized h.rootIn hok
  refine ⟨node, fun v => ?_, hrooted⟩
  rw [← Tree.isRoot_of_refresh hok hname v]
  simp only [Tree.isRoot, h.root_refresh]

end Solver.Sound

end Circulation
