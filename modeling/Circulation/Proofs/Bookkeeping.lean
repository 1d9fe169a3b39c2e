import Circulation.Proofs.Overwriting
import Circulation.Proofs.SimplePath

/-!
Trees whose depths, parents and arcs may have been written by anyone. The check of the bookkeeping
compares each node with its parent alone, and a walk over the tree has no part in it. Main result:
if it finds nothing, the depths say how far it is to the root, the arcs to the parents join all
nodes, and there is a way between any two of them.
-/

namespace Circulation

open Adjacency (Stored)

theorem Number.eq_of_equals {x : Number} {j k : Int} (hj : x.equals j = true)
    (hk : x.equals k = true) : j = k := by
  cases x with
  | int n =>
    rw [equals_int, decide_eq_true_eq] at hj hk
    rw [← hj, hk]
  | truth b =>
    rw [equals_truth, decide_eq_true_eq] at hj hk
    rw [← hj, hk]
  | float x =>
    simp only [equals, compare?] at hj hk
    cases hread : Decimal.Reading.ofFloat x with
    | nan => simp [hread] at hj
    | infinite negative => cases negative <;> simp [hread] at hj
    | finite b =>
      have hpos : (b.denominator : Int) ≠ 0 := by simp [Decimal.Binary.denominator]
      simp only [hread, Option.any_some, Ordering.isEq_iff_eq_eq, Int.compare_eq_eq] at hj hk
      exact mul_right_cancel₀ hpos (hj.symm.trans hk)

namespace Tree

variable {t : Tree} {net : Network} {root a b : Nat}

theorem eq_of_isRoot {v w : Int} (hv : t.isRoot v = true) (hw : t.isRoot w = true) : v = w := by
  simp only [isRoot] at hv hw
  cases hname : t.root.number? with
  | none => simp [hname] at hv
  | some name =>
    rw [hname, Option.any_some] at hv hw
    exact Number.eq_of_equals hv hw

def others (t : Tree) : List Nat := (List.range t.nodeCount).filter fun v : Nat => !t.isRoot v

def links (t : Tree) : List Int := t.others.map fun v : Nat => t.upArcOf v

namespace Hung

variable (h : t.Hung net root) (hname : ∀ v : Nat, t.isRoot v = true ↔ v = root)
include h hname

theorem others_eq : t.others = (List.range net.nodeCount).erase root := by
  have hcount : t.nodeCount = net.nodeCount := h.sized.depth
  have hother : (fun v : Nat => !t.isRoot v) = (· != root) := by
    funext v
    rw [Bool.eq_iff_iff]
    simp [← hname]
  rw [others, hother, hcount, List.nodup_range.erase_eq_filter]

theorem mem_links {v : Nat} (hv : v < net.nodeCount) (hne : v ≠ root) : t.upArcOf v ∈ t.links := by
  rw [links, h.others_eq hname]
  exact List.mem_map_of_mem (List.nodup_range.mem_erase_iff.mpr ⟨hne, List.mem_range.mpr hv⟩)

theorem length_links : t.links.length = net.nodeCount - 1 := by
  rw [links, h.others_eq hname, List.length_map,
    List.length_erase_of_mem (List.mem_range.mpr h.root_lt), List.length_range]

theorem nodup_links : (t.links.map pairOf).Nodup := by
  rw [links, h.others_eq hname, List.map_map]
  refine (List.nodup_range.erase root).map_on fun v hv w hw hpair => ?_
  rw [List.nodup_range.mem_erase_iff, List.mem_range] at hv hw
  obtain ⟨_, _, -, hhangs⟩ := h.hangs v hv.2 hv.1
  obtain ⟨_, _, -, hhangs'⟩ := h.hangs w hw.2 hw.1
  simp only [Function.comp_apply, hhangs.upArcOf_eq, hhangs'.upArcOf_eq] at hpair
  exact hhangs.eq_of_pairOf_eq hhangs' hpair

theorem joined_links (ha : a < net.nodeCount) (hb : b < net.nodeCount) :
    Joined net.ends {k | k ∈ t.links.map pairOf} a b := by
  have hroot : ∀ v < net.nodeCount, Joined net.ends {k | k ∈ t.links.map pairOf} v root := by
    intro v hv
    refine joined_root (· < net.nodeCount) (fun u => h.depthOf_root_le) (fun u hu hne => ?_) hv
    obtain ⟨parent, arc, hparent, hhangs⟩ := h.hangs u hu hne
    have hlink := h.mem_links hname hu hne
    rw [hhangs.upArcOf_eq] at hlink
    exact ⟨parent, arc, hparent, hhangs, List.mem_map_of_mem hlink⟩
  exact (hroot a ha).trans (hroot b hb).symm

theorem pathArcs_ok (ha : a < net.nodeCount) (hb : b < net.nodeCount) :
    ∃ arcs, t.pathArcs (.int a) (.int b) = .ok arcs ∧
      ∀ x ∈ arcs, x ∈ t.links ∨ twin x ∈ t.links := by
  obtain ⟨steps, _, _, _, hway, hmeets⟩ := h.wayBetween_ok ha hb
  refine ⟨_, pathArcs_of_path (path_eq_ok_iff.mpr hway), fun x hx => ?_⟩
  obtain ⟨y, hy, heq⟩ := hmeets.mem_arcs hx
  obtain ⟨v, _, rfl, hv, -⟩ := hmeets.hangs hy
  have hne : v ≠ root := by
    rintro rfl
    have hdeeper := hmeets.depth_lt hy
    have hle := h.depthOf_root_le hmeets.left.last_lt
    omega
  have hlink := h.mem_links hname hv hne
  rcases heq with rfl | rfl
  · exact Or.inl hlink
  · exact Or.inr (by rwa [twin_twin])

end Hung

end Tree

namespace Network

variable {net : Network} {t : Tree}

/-- Where the parents and the arcs to them exist, the check of the bookkeeping comes to an end. -/
theorem bookkeepingViolations_ok (hsized : t.Sized net.nodeCount)
    (hrange : ∀ v < net.nodeCount, t.parentOf v < net.nodeCount ∧ t.upArcOf v < net.arcCount) :
    ∃ found, net.bookkeepingViolations t = .ok found := by
  have hall : ∀ nodes : List Nat, (∀ v ∈ nodes, v < net.nodeCount) → ∀ found,
      ∃ found', net.bookkeepingFrom t nodes found = .ok found' := by
    intro nodes
    induction nodes with
    | nil => exact fun _ found => ⟨found, rfl⟩
    | cons v nodes ih =>
      intro hnodes found
      have hrest := ih fun u hu => hnodes u (List.mem_cons_of_mem v hu)
      obtain ⟨hparent, harc⟩ := hrange v (hnodes v List.mem_cons_self)
      rw [bookkeepingFrom]
      split
      · exact hrest found
      split
      · exact hrest _
      next hknown =>
        have hcount : t.nodeCount = net.nodeCount := hsized.depth
        have hexist : (t.hasNode (t.parentOf v) && net.hasArc (t.upArcOf v)) = true := by
          simp only [Bool.or_eq_true, decide_eq_true_eq, not_or] at hknown
          simp only [Tree.hasNode, hasArc, Row.holds, Bool.and_eq_true, decide_eq_true_eq]
          omega
        simp only [hexist, Bool.not_true, Bool.false_eq_true, if_false]
        split
        · exact ⟨_, rfl⟩
        · exact hrest _
  exact hall _ (fun v hv => List.mem_range.mp hv) []

/-- If the check finds nothing, one node is the root and all others hang from it: among the nodes
that lie highest, no other one could hang. -/
theorem exists_hung (hsized : t.Sized net.nodeCount) (hpos : 0 < net.nodeCount)
    (hvalid : net.bookkeepingViolations t = .ok []) :
    ∃ root, t.Hung net root ∧ ∀ v : Nat, t.isRoot v = true ↔ v = root := by
  obtain ⟨-, hhangs⟩ := (bookkeepingFrom_eq_nil_iff hsized).mp hvalid
  obtain ⟨root, hlt, -, hnone⟩ := t.exists_top hpos
  have hroot : t.isRoot root = true := by
    by_contra hother
    obtain ⟨parent, arc, hparent, hlink⟩ :=
      hhangs root (List.mem_range.mpr hlt) (by simpa using hother)
    exact hnone parent hparent arc hlink
  have hname : ∀ v : Nat, t.isRoot v = true ↔ v = root := fun v =>
    ⟨fun hv => Int.natCast_inj.mp (Tree.eq_of_isRoot hv hroot), fun hv => hv ▸ hroot⟩
  refine ⟨root, ⟨hsized, hlt, fun v hv hne => hhangs v (List.mem_range.mpr hv) ?_⟩, hname⟩
  rwa [← Bool.not_eq_true, hname]

/-- Whatever is flagged and whatever has been written into the tree, a check of the bookkeeping that
finds nothing is right about the whole tree. From each node the parents lead to the root, in as many
steps as the node lies deeper, along flagged arcs. The arcs to the parents are those of different
edges and join all nodes, and they and their twins make up the way between any two nodes, which is
found without a fault. The check itself comes to an end if parents and arcs exist. -/
theorem spans_of_bookkeeping {count items : Value} (hbuilt : ofValues count items = .ok net)
    (capacities : Vector Int64 net.arcCount) (flags : Vector Bool net.arcCount)
    (hsized : t.Sized net.nodeCount) :
    let written := net.overwrite capacities flags
    ((∀ v < net.nodeCount, t.parentOf v < net.nodeCount ∧ t.upArcOf v < net.arcCount) →
      ∃ found, written.bookkeepingViolations t = .ok found) ∧
    (written.bookkeepingViolations t = .ok [] → ∃ root < net.nodeCount,
      (∀ v : Nat, t.isRoot v = true ↔ v = root) ∧
      (∀ v < net.nodeCount, ∃ nodes, t.Ascends written v nodes root ∧ (root : Int) ∉ nodes ∧
        (nodes.length : Int) = t.depthOf v - t.depthOf root) ∧
      t.links.length = net.nodeCount - 1 ∧ (t.links.map pairOf).Nodup ∧
      (∀ a < net.nodeCount, ∀ b < net.nodeCount,
        Joined net.ends {k | k ∈ t.links.map pairOf} a b) ∧
      ∀ a < net.nodeCount, ∀ b < net.nodeCount,
        (∀ rounds, net.nodeCount ≤ rounds → t.wayWithin rounds a b = t.wayBetween a b) ∧
        ∃ arcs, t.pathArcs (.int a) (.int b) = .ok arcs ∧
          ∀ x ∈ arcs, x ∈ t.links ∨ twin x ∈ t.links) := by
  intro written
  obtain ⟨_, _, -, -, harcs⟩ := ofValues_eq_ok_iff.mp hbuilt
  have hpos : 0 < written.nodeCount := (ofArcs_ok harcs).1.pos
  have hsized : t.Sized written.nodeCount := hsized
  refine ⟨bookkeepingViolations_ok hsized, fun hvalid => ?_⟩
  obtain ⟨root, h, hname⟩ := exists_hung hsized hpos hvalid
  refine ⟨root, h.root_lt, hname, fun v hv => ?_, h.length_links hname, h.nodup_links hname,
    fun a ha b hb => h.joined_links hname ha hb,
    fun a ha b hb => ⟨fun rounds => h.wayWithin_eq ha hb, h.pathArcs_ok hname ha hb⟩⟩
  obtain ⟨nodes, hnodes⟩ := h.exists_ascends hv
  have hdepth := hnodes.depthOf_eq
  exact ⟨nodes, hnodes, fun hmem => absurd (hnodes.depth_mem.2 _ hmem).1 (Int.lt_irrefl _),
    by omega⟩

set_option maxRecDepth 10000 in
/-- A tree of the triangle that no walk comes to: its depths are negative, its root has a parent,
and twins have different flags. -/
theorem spans_of_bookkeeping_triangle : ∃ net : Network,
    ∃ capacities : Vector Int64 net.arcCount, ∃ flags : Vector Bool net.arcCount, ∃ t : Tree,
      ofValues (.int 3) Solver.triangle = .ok net ∧ net.nodeCount = 3 ∧ t.Sized 3 ∧
        (net.overwrite capacities flags).bookkeepingViolations t = .ok [] ∧
        t.parentOf 1 = 2 ∧ t.links = [0, 4] ∧ Joined net.ends {k | k ∈ t.links.map pairOf} 1 2 ∧
        t.pathArcs (.int 1) (.int 2) = .ok [5, 1] ∧
        ∃ nodes, t.Ascends (net.overwrite capacities flags) 2 nodes 1 ∧ nodes.length = 2 := by
  obtain ⟨net, capacities, flags, t, hbuilt, hthree, hsized, hvalid, hrest⟩ : ∃ net : Network,
      ∃ capacities : Vector Int64 net.arcCount, ∃ flags : Vector Bool net.arcCount, ∃ t : Tree,
        ofValues (.int 3) Solver.triangle = .ok net ∧ net.nodeCount = 3 ∧ t.Sized 3 ∧
          (net.overwrite capacities flags).bookkeepingViolations t = .ok [] ∧
          t.parentOf 1 = 2 ∧ t.links = [0, 4] ∧ t.isRoot (1 : Nat) = true ∧
          t.depthOf (1 : Nat) = -5 ∧ t.depthOf (2 : Nat) = -3 ∧
          t.pathArcs (.int 1) (.int 2) = .ok [5, 1] :=
    ⟨_, ⟨Array.replicate 10 0, rfl⟩,
      ⟨#[true, false, false, false, true, false, false, false, false, false], rfl⟩,
      ⟨.int 1, #[-4, -5, -3], #[1, 2, 0], #[0, 7, 4], #[0, 0, 0]⟩, rfl, rfl, ⟨rfl, rfl, rfl, rfl⟩,
      rfl, rfl, rfl, rfl, rfl, rfl, rfl⟩
  obtain ⟨hparent, hlinks, hone, hhigh, hlow, harcs⟩ := hrest
  obtain ⟨-, hspans⟩ := spans_of_bookkeeping hbuilt capacities flags (hthree ▸ hsized)
  obtain ⟨root, -, hname, hclimb, -, -, hjoined, -⟩ := hspans hvalid
  obtain rfl := (hname 1).mp hone
  obtain ⟨nodes, hnodes, -, hlength⟩ := hclimb 2 (by omega)
  exact ⟨net, capacities, flags, t, hbuilt, hthree, hsized, hvalid, hparent, hlinks,
    hjoined 1 (by omega) 2 (by omega), harcs, nodes, hnodes, by omega⟩

end Network

end Circulation
