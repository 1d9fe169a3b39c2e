import Circulation.Proofs.Invariants
import Mathlib.Data.List.GetD

/-!
Edges that are moved onto the tree and off it, over and over. The lists of the nodes stay sound
whatever the order of the moves: the links run through each list in both directions, and each arc is
in one list. Main result: a move is refused exactly if the edge has its flag already, and then
nothing changes; any other move brings the two arcs of the edge to the front of their lists and
leaves all other arcs in their order.
-/

namespace Circulation

open Adjacency (Stored noArc)

namespace Adjacency

variable {adj : Adjacency} {before first : Int} {arcs : List Int}

namespace Runs

theorem nextOf_getElem (h : adj.Runs before first arcs) (i : Nat) (hi : i < arcs.length) :
    adj.nextOf arcs[i] = arcs.getD (i + 1) noArc := by
  induction arcs generalizing before first i with
  | nil => simp at hi
  | cons arc arcs ih =>
    obtain ⟨-, -, -, hrest⟩ := h
    cases i with
    | zero =>
      have hfirst := hrest.first_eq
      cases arcs <;> simpa using hfirst
    | succ i => simpa using ih hrest i (by simpa using hi)

theorem prevOf_getElem (h : adj.Runs before first arcs) (i : Nat) (hi : i < arcs.length) :
    adj.prevOf arcs[i] = (before :: arcs).getD i noArc := by
  induction arcs generalizing before first i with
  | nil => simp at hi
  | cons arc arcs ih =>
    obtain ⟨-, -, hprev, hrest⟩ := h
    cases i with
    | zero => simpa using hprev
    | succ i => simpa using ih hrest i (by simpa using hi)

end Runs

/-- The links run through the arcs of a list in both directions. From its first arc they lead to the
end of it, so that following them comes to an end. -/
structure IsLinked (adj : Adjacency) (first : Int) (arcs : List Int) : Prop where
  first_eq : first = arcs.headD noArc
  next_eq : ∀ i (hi : i < arcs.length), adj.nextOf arcs[i] = arcs.getD (i + 1) noArc
  prev_eq : ∀ i (hi : i < arcs.length), adj.prevOf arcs[i] = (noArc :: arcs).getD i noArc
  nodup : arcs.Nodup
  chain_eq : ∀ fuel, arcs.length ≤ fuel → adj.chain fuel first = arcs

theorem Runs.isLinked (h : adj.Runs noArc first arcs) (hnodup : arcs.Nodup) :
    adj.IsLinked first arcs :=
  ⟨h.first_eq, h.nextOf_getElem, h.prevOf_getElem, hnodup, fun _ hfuel => h.chain_eq hfuel⟩

namespace IsLinked

variable {x y : Int}

theorem prevOf_nextOf (h : adj.IsLinked first arcs) (hx : x ∈ arcs) (hnext : adj.nextOf x = y)
    (hy : y ≠ noArc) : adj.prevOf y = x := by
  obtain ⟨i, hi, rfl⟩ := List.getElem_of_mem hx
  rw [h.next_eq i hi] at hnext
  by_cases hlast : i + 1 < arcs.length
  · have hprev := h.prev_eq (i + 1) hlast
    rw [List.getD_eq_getElem _ _ hlast] at hnext
    rw [hnext] at hprev
    simpa [hi] using hprev
  · rw [List.getD_eq_default _ _ (by omega)] at hnext
    exact absurd hnext.symm hy

theorem nextOf_prevOf (h : adj.IsLinked first arcs) (hy : y ∈ arcs) (hprev : adj.prevOf y = x)
    (hx : x ≠ noArc) : adj.nextOf x = y := by
  obtain ⟨i, hi, rfl⟩ := List.getElem_of_mem hy
  rw [h.prev_eq i hi] at hprev
  cases i with
  | zero => exact absurd hprev.symm hx
  | succ i =>
    have hnext := h.next_eq i (by omega)
    rw [List.getD_eq_getElem _ _ hi] at hnext
    have hbefore : arcs[i] = x := by simpa [show i < arcs.length by omega] using hprev
    rwa [hbefore] at hnext

end IsLinked

end Adjacency

namespace Network

variable {start net : Network} {arc : Int} {tree : Bool}

/-- The networks that a network turns into as edges are moved onto the tree and off it, by calls
that may be refused, and as capacities are written. -/
inductive Altered (start : Network) : Network → Prop where
  | start : Altered start start
  | move {net net' : Network} {arc : Int} {tree : Bool} {result : Except Fault Unit}
      (harc : Stored net.arcCount arc) (hmove : net.setTreeStatus arc tree = (result, net')) :
      Altered start net → Altered start net'
  | write {net : Network} (arc capacity : Int) :
      Altered start net → Altered start (net.setCapacity arc capacity)

theorem setTreeStatus_refused (hflag : net.isTree arc = tree) :
    net.setTreeStatus arc tree = (.error (.notInList arc !tree), net) := by
  simp only [setTreeStatus]
  rw [move_refused hflag]

theorem WellFormed.setCapacity (h : net.WellFormed) (arc capacity : Int) :
    (net.setCapacity arc capacity).WellFormed :=
  ⟨h.tail_lt, (net.size_setCapacity arc capacity).trans h.size_residual, h.holds, h.isTree_twin⟩

theorem wellFormed_of_ofValues {count items : Value} (h : ofValues count items = .ok net) :
    net.WellFormed := by
  obtain ⟨_, _, -, -, harcs⟩ := ofValues_eq_ok_iff.mp h
  exact (ofArcs_ok harcs).1.wellFormed

/-- Moves and writes change nothing about the nodes and the edges, and keep the lists sound. -/
theorem Altered.wellFormed (h : start.Altered net) (hstart : start.WellFormed) :
    net.WellFormed ∧ net.nodeCount = start.nodeCount ∧ net.edges = start.edges := by
  induction h with
  | start => exact ⟨hstart, rfl, rfl⟩
  | @move net net' arc tree _ harc hmove _ ih =>
    by_cases hflag : net.isTree arc = tree
    · cases (setTreeStatus_refused hflag).symm.trans hmove
      exact ih
    · obtain ⟨adj, hset, hwell, -⟩ := ih.1.setTreeStatus harc (Bool.eq_not_of_ne hflag)
      cases hset.symm.trans hmove
      exact ⟨hwell, ih.2⟩
  | write arc capacity _ ih => exact ⟨ih.1.setCapacity arc capacity, ih.2⟩

/-- Each arc is in one list, and the links run through all lists in both directions. -/
structure Listed (net : Network) : Prop where
  linked : ∀ tree, ∀ node < net.nodeCount,
    net.adjacency.IsLinked (net.adjacency.head tree node) (net.arcsFrom node tree)
  inverse : ∀ x y, Stored net.arcCount x → Stored net.arcCount y →
    (net.adjacency.nextOf x = y ↔ net.adjacency.prevOf y = x)
  stored : ∀ tree, ∀ node < net.nodeCount, ∀ arc ∈ net.arcsFrom node tree, Stored net.arcCount arc
  tail_lt : ∀ arc, Stored net.arcCount arc → net.tail arc < net.nodeCount
  count_eq : ∀ arc, Stored net.arcCount arc → ∀ tree, ∀ node < net.nodeCount,
    (net.arcsFrom node tree).count arc =
      if net.isTree arc = tree ∧ net.tail arc = node then 1 else 0
  isTree_twin : ∀ arc, Stored net.arcCount arc → net.isTree (twin arc) = net.isTree arc

/-- An edge has been moved onto the tree or off it, and nothing else has changed. -/
structure Moved (net net' : Network) (arc : Int) (tree : Bool) : Prop where
  nodeCount_eq : net'.nodeCount = net.nodeCount
  edges_eq : net'.edges = net.edges
  residual_eq : net'.residual = net.residual
  isTree_eq : ∀ x, Stored net.arcCount x →
    net'.isTree x = if x = arc ∨ x = twin arc then tree else net.isTree x
  /-- The two arcs come to the front of the lists of their tails. The others keep their order. -/
  arcsFrom_eq : ∀ t, ∀ node < net.nodeCount, net'.arcsFrom node t =
    (if t = tree then net.newcomers arc node else []) ++
      (net.arcsFrom node t).filter fun x => x ≠ arc ∧ x ≠ twin arc

namespace WellFormed

theorem isLinked (h : net.WellFormed) (tree : Bool) {node : Nat} (hnode : node < net.nodeCount) :
    net.adjacency.IsLinked (net.adjacency.head tree node) (net.arcsFrom node tree) :=
  (h.holds.runs tree node hnode).isLinked (h.nodup_arcsFrom hnode tree)

theorem mem_own_list (h : net.WellFormed) (harc : Stored net.arcCount arc) :
    arc ∈ net.arcsFrom (net.tail arc) (net.isTree arc) :=
  (h.mem_arcsFrom (h.tail_lt arc harc) _ arc).mpr ⟨harc, rfl, rfl⟩

theorem listed (h : net.WellFormed) : net.Listed where
  linked tree _ hnode := h.isLinked tree hnode
  inverse x y hx hy := by
    constructor
    · intro hnext
      exact (h.isLinked _ (h.tail_lt x hx)).prevOf_nextOf (h.mem_own_list hx) hnext
        (Adjacency.ne_noArc hy.1)
    · intro hprev
      exact (h.isLinked _ (h.tail_lt y hy)).nextOf_prevOf (h.mem_own_list hy) hprev
        (Adjacency.ne_noArc hx.1)
  stored tree node hnode arc hmem := ((h.mem_arcsFrom hnode tree arc).mp hmem).1
  tail_lt := h.tail_lt
  count_eq arc harc tree node hnode := by
    have hmem := h.mem_arcsFrom hnode tree arc
    by_cases hplace : net.isTree arc = tree ∧ net.tail arc = node
    · rw [if_pos hplace]
      exact List.count_eq_one_of_mem (h.nodup_arcsFrom hnode tree)
        (hmem.mpr ⟨harc, hplace.2, hplace.1⟩)
    · rw [if_neg hplace]
      exact List.count_eq_zero_of_not_mem fun hin => hplace ⟨(hmem.mp hin).2.2, (hmem.mp hin).2.1⟩
  isTree_twin := h.isTree_twin

theorem moved (h : net.WellFormed) (harc : Stored net.arcCount arc)
    (hflag : net.isTree arc ≠ tree) :
    ∃ net', net.setTreeStatus arc tree = (.ok (), net') ∧ net.Moved net' arc tree := by
  obtain ⟨adj, hset, -, hflags, hlists⟩ := h.setTreeStatus harc (Bool.eq_not_of_ne hflag)
  refine ⟨_, hset, rfl, rfl, rfl, fun x hx => ?_, hlists⟩
  have hplain : ({ net with adjacency := adj } : Network).isTree x = adj.isTree x := rfl
  rw [hplain, hflags x hx.1]
  simp only [pairOf_eq_iff hx.1 harc.1]

end WellFormed

/-- Whatever moves a network has been through, each arc is in one list and its links run in both
directions. One more move is refused exactly if the edge has its flag already, and then nothing
changes; otherwise both arcs of the edge are moved, and nothing else. -/
theorem setTreeStatus_of_altered {count items : Value} (hbuilt : ofValues count items = .ok start)
    (h : start.Altered net) : net.Listed ∧
      ∀ arc, Stored net.arcCount arc → ∀ tree,
        (net.isTree arc = tree →
          net.setTreeStatus arc tree = (.error (.notInList arc !tree), net) ∧
            (Fault.notInList arc !tree).category = .internal) ∧
        (net.isTree arc ≠ tree →
          ∃ net', net.setTreeStatus arc tree = (.ok (), net') ∧ net.Moved net' arc tree) := by
  have hwell := (h.wellFormed (wellFormed_of_ofValues hbuilt)).1
  exact ⟨hwell.listed, fun arc harc tree =>
    ⟨fun hflag => ⟨setTreeStatus_refused hflag, rfl⟩, hwell.moved harc⟩⟩

set_option maxRecDepth 10000 in
theorem setTreeStatus_of_altered_triangle : ∃ start net : Network,
    ofValues (.int 3) Solver.triangle = .ok start ∧ start.Altered net ∧
      net.arcsFrom 1 true = [7, 6, 2] ∧ net.arcsFrom 1 false = [1] ∧ net.Listed ∧
      net.setTreeStatus 6 true = (.error (.notInList 6 false), net) ∧
      ∃ net', net.setTreeStatus 1 true = (.ok (), net') ∧ net.Moved net' 1 true := by
  obtain ⟨start, off, net, hstart, hoff, hagain, hon, hloop, hfree, hlist, hlist', hcount⟩ :
      ∃ start off net : Network, ofValues (.int 3) Solver.triangle = .ok start ∧
        start.setTreeStatus 0 false = (.ok (), off) ∧
        off.setTreeStatus 1 false = (.error (.notInList 1 true), off) ∧
        off.setTreeStatus 6 true = (.ok (), net) ∧ net.isTree 6 = true ∧ net.isTree 1 = false ∧
        net.arcsFrom 1 true = [7, 6, 2] ∧ net.arcsFrom 1 false = [1] ∧
        start.arcCount = 10 ∧ off.arcCount = 10 ∧ net.arcCount = 10 :=
    ⟨_, _, _, rfl, rfl, rfl, rfl, rfl, rfl, rfl, rfl, rfl, rfl, rfl⟩
  have hstored : ∀ net : Network, net.arcCount = 10 → ∀ arc : Int, 0 ≤ arc → arc < 10 →
      Stored net.arcCount arc := fun _ hten _ hlow hhigh => ⟨hlow, hten ▸ hhigh⟩
  obtain ⟨hstart10, hoff10, hnet10⟩ := hcount
  have halter : start.Altered off :=
    .move (hstored _ hstart10 0 (by decide) (by decide)) hoff .start
  have halter : start.Altered off :=
    .move (hstored _ hoff10 1 (by decide) (by decide)) hagain halter
  have halter : start.Altered net :=
    .move (hstored _ hoff10 6 (by decide) (by decide)) hon halter
  obtain ⟨hlisted, hmove⟩ := setTreeStatus_of_altered hstart halter
  have hrefused := ((hmove 6 (hstored _ hnet10 6 (by decide) (by decide)) true).1 hloop).1
  have hmade := (hmove 1 (hstored _ hnet10 1 (by decide) (by decide)) true).2 (by simp [hfree])
  exact ⟨start, net, hstart, halter, hlist, hlist', hlisted, hrefused, hmade⟩

end Network

end Circulation
