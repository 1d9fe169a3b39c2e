import Mathlib.Algebra.BigOperators.Intervals
import Mathlib.Tactic.Ring
import Circulation.Proofs.Way
import Circulation.Solver.Pivot

/-!
Flow that is sent around a cycle. A quantity that has opposite values on an arc and its twin gains
from each arc of the cycle what the flow brings to it, so the balance at the nodes is kept and the
cost changes by the cost of the cycle.
-/

namespace Circulation.Network

open Adjacency (Stored)
open Finset (range)

section Frame

variable {net net' : Network}

theorem tail_congr (h : net'.edges = net.edges) (arc : Int) : net'.tail arc = net.tail arc := by
  simp [tail, edgeOf, arcCount, h]

theorem head_congr (h : net'.edges = net.edges) (arc : Int) : net'.head arc = net.head arc := by
  simp [head, edgeOf, arcCount, h]

theorem cost_congr (h : net'.edges = net.edges) (arc : Int) : net'.cost arc = net.cost arc := by
  simp [cost, edgeOf, arcCount, h]

theorem ends_congr (h : net'.edges = net.edges) : net'.ends = net.ends := by
  funext k
  simp [ends, tail_congr h, head_congr h]

theorem arcCount_congr (h : net'.edges = net.edges) : net'.arcCount = net.arcCount := by
  simp [arcCount, h]

theorem edgeCount_congr (h : net'.edges = net.edges) : net'.edgeCount = net.edgeCount := by
  simp [edgeCount, h]

@[simp] theorem edges_push (net : Network) (amount arc : Int) :
    (net.push amount arc).edges = net.edges := rfl

theorem size_push (net : Network) (amount arc : Int) :
    (net.push amount arc).residual.size = net.residual.size := by
  simp [push, addCapacity, size_setCapacity]

/-- Sending flow around a cycle changes nothing but residual capacities. -/
theorem augment_eq (net : Network) (delta : Int) (cycle : List Int) :
    net.augment delta cycle = { net with residual := (net.augment delta cycle).residual } := by
  induction cycle generalizing net with
  | nil => rfl
  | cons arc cycle ih => exact ih (net.push delta arc)

theorem edges_augment (net : Network) (delta : Int) (cycle : List Int) :
    (net.augment delta cycle).edges = net.edges := by
  rw [augment_eq]

theorem nodeCount_augment (net : Network) (delta : Int) (cycle : List Int) :
    (net.augment delta cycle).nodeCount = net.nodeCount := by
  rw [augment_eq]

theorem isTree_augment (net : Network) (delta : Int) (cycle : List Int) (arc : Int) :
    (net.augment delta cycle).isTree arc = net.isTree arc := by
  rw [augment_eq]
  rfl

theorem size_augment (net : Network) (delta : Int) (cycle : List Int) :
    (net.augment delta cycle).residual.size = net.residual.size := by
  induction cycle generalizing net with
  | nil => rfl
  | cons arc cycle ih =>
    rw [augment, List.foldl_cons]
    exact (ih (net.push delta arc)).trans (size_push net delta arc)

theorem WellFormed.augment (h : net.WellFormed) (delta : Int) (cycle : List Int) :
    (net.augment delta cycle).WellFormed := by
  have hsize := size_augment net delta cycle
  rw [augment_eq]
  exact ⟨h.tail_lt, hsize.trans h.size_residual, h.holds, h.isTree_twin⟩

end Frame

/-- Arcs of different edges that lead back to where they start. -/
structure IsCycle (net : Network) (cycle : List Int) : Prop where
  stored : ∀ x ∈ cycle, Stored net.arcCount x
  nodup : (cycle.map pairOf).Nodup
  closes : ∀ value : Nat → Int,
    intSum (cycle.map fun x => value (net.tail x) - value (net.head x)) = 0

theorem IsCycle.twin_notMem {net : Network} {cycle : List Int} (h : net.IsCycle cycle) {x : Int}
    (hx : x ∈ cycle) : twin x ∉ cycle := by
  intro htwin
  exact twin_ne x (List.inj_on_of_nodup_map h.nodup htwin hx (pairOf_twin x))

theorem IsWay.isCycle {net : Network} {way : List Int} {entering : Int} (hnet : net.WellFormed)
    (h : net.IsWay (net.head entering) (net.tail entering) way)
    (harc : Stored net.arcCount entering) (hout : net.isTree entering = false) :
    net.IsCycle (way ++ [entering]) where
  stored x hx := by
    cases List.mem_append.mp hx with
    | inl hx => exact h.stored x hx
    | inr hx =>
      rw [List.mem_singleton.mp hx]
      exact harc
  nodup := by
    rw [List.map_append, List.nodup_append]
    refine ⟨h.nodup, List.nodup_singleton _, fun k hk l hl hkl => ?_⟩
    obtain ⟨x, hx, rfl⟩ := List.mem_map.mp hk
    rw [List.map_singleton, List.mem_singleton] at hl
    have hmem : pairOf x ∈ net.treeSet := (hnet.mem_treeSet (h.stored x hx)).mpr (h.isTree x hx)
    rw [hkl, hl, hnet.mem_treeSet harc, hout] at hmem
    cases hmem
  closes value := by
    rw [List.map_append, intSum_append, h.telescopes, List.map_singleton, intSum_cons, intSum_nil]
    omega

section Capacity

variable {net : Network} {cycle : List Int}

theorem capacity_augment (hsize : net.residual.size = net.arcCount) (delta : Int)
    (hstored : ∀ x ∈ cycle, Stored net.arcCount x) (hnodup : (cycle.map pairOf).Nodup) {y : Int}
    (hy : 0 ≤ y) : (net.augment delta cycle).capacity y =
      if y ∈ cycle then net.capacity y - delta
      else if twin y ∈ cycle then net.capacity y + delta else net.capacity y := by
  induction cycle generalizing net with
  | nil => simp [augment]
  | cons x cycle ih =>
    rw [List.map_cons, List.nodup_cons] at hnodup
    have hx := hstored x List.mem_cons_self
    have hpush : (net.push delta x).capacity y =
        net.capacity y - (if y = x then delta else 0) + (if y = twin x then delta else 0) :=
      net.capacity_push hx.1 (by rw [hsize]; exact hx.2) (by rw [hsize]; exact hx.twin.2) hy delta
    have hrest := @ih (net.push delta x) ((size_push net delta x).trans hsize)
      (fun z hz => hstored z (List.mem_cons_of_mem x hz)) hnodup.2
    rw [augment, List.foldl_cons]
    rw [augment] at hrest
    rw [hrest, hpush]
    have hapart : ∀ {z : Int}, pairOf z = pairOf x → z ∉ cycle := by
      intro z hz hmem
      exact hnodup.1 (hz ▸ List.mem_map_of_mem hmem)
    by_cases hself : y = x
    · have hout : y ∉ cycle := hapart (by rw [hself])
      have hout' : twin y ∉ cycle := hapart (by rw [pairOf_twin, hself])
      have hne : y ≠ twin x := by
        rw [hself]
        exact (twin_ne x).symm
      have hmem : y ∈ x :: cycle := by
        rw [hself]
        exact List.mem_cons_self
      rw [if_neg hout, if_neg hout', if_pos hself, if_neg hne, if_pos hmem]
      omega
    · by_cases hback : y = twin x
      · have hout : y ∉ cycle := hapart (by rw [hback, pairOf_twin])
        have hout' : twin y ∉ cycle := hapart (by rw [pairOf_twin, hback, pairOf_twin])
        have hmem : twin y ∈ x :: cycle := by
          rw [hback, twin_twin]
          exact List.mem_cons_self
        have hnone : y ∉ x :: cycle := by simp [hself, hout]
        rw [if_neg hout, if_neg hout', if_neg hself, if_pos hback, if_neg hnone, if_pos hmem]
        omega
      · have hback' : twin y ≠ x := fun heq => hback (by rw [← heq, twin_twin])
        simp [hself, hback, hback']

end Capacity

section Gain

variable {net : Network}

theorem flow_push (net : Network) {arc : Int} (hsize : net.residual.size = net.arcCount)
    (harc : Stored net.arcCount arc) (delta : Int) (k : Nat) :
    (net.push delta arc).flow k =
      net.flow k + if k = pairOf arc then (if arc % 2 = 0 then delta else -delta) else 0 := by
  have hpos : 0 ≤ 2 * (k : Int) := by omega
  have hpush := net.capacity_push harc.1 (by rw [hsize]; exact harc.2)
    (by rw [hsize]; exact harc.twin.2) hpos delta
  simp only [flow]
  rw [hpush, edges_push]
  have hforward : 2 * (k : Int) = arc ↔ k = pairOf arc ∧ arc % 2 = 0 := by
    simp only [pairOf]
    have hpos := harc.1
    omega
  have hbackward : 2 * (k : Int) = twin arc ↔ k = pairOf arc ∧ arc % 2 ≠ 0 := by
    simp only [pairOf, twin]
    have hpos := harc.1
    split <;> omega
  simp only [hforward, hbackward]
  by_cases hk : k = pairOf arc
  · by_cases heven : arc % 2 = 0
    · simp [hk, heven]
      omega
    · simp [hk, heven]
      omega
  · simp [hk]

def gain (net : Network) (value : Int → Int) : Int :=
  ∑ k ∈ range net.edgeCount, net.flow k * value (2 * k)

theorem gain_push {arc : Int} (hsize : net.residual.size = net.arcCount)
    (harc : Stored net.arcCount arc) (delta : Int) {value : Int → Int}
    (htwin : ∀ x, value (twin x) = -value x) :
    (net.push delta arc).gain value = net.gain value + delta * value arc := by
  have hlt : pairOf arc < net.edgeCount := harc.pairOf_lt
  have hvalue : (if arc % 2 = 0 then delta else -delta) * value (2 * pairOf arc) =
      delta * value arc := by
    cases eq_forward_or_twin harc.1 with
    | inl heq =>
      have heven : arc % 2 = 0 := by omega
      rw [if_pos heven, ← heq]
    | inr heq =>
      have hodd : ¬ arc % 2 = 0 := by
        rw [heq, twin_two_mul]
        omega
      rw [if_neg hodd]
      conv_rhs => rw [heq, htwin]
      ring
  have hedges : (net.push delta arc).edgeCount = net.edgeCount := rfl
  have hextra : ∑ k ∈ range net.edgeCount,
      (if k = pairOf arc then (if arc % 2 = 0 then delta else -delta) else 0) * value (2 * k) =
        delta * value arc := by
    rw [Finset.sum_eq_single_of_mem (pairOf arc) (Finset.mem_range.mpr hlt)
      (fun k _ hne => by rw [if_neg hne, Int.zero_mul]), if_pos rfl, hvalue]
  simp only [gain]
  rw [hedges, ← hextra, ← Finset.sum_add_distrib]
  refine Finset.sum_congr rfl fun k _ => ?_
  rw [flow_push net hsize harc, Int.add_mul]

theorem gain_augment {cycle : List Int} (hsize : net.residual.size = net.arcCount)
    (hstored : ∀ x ∈ cycle, Stored net.arcCount x) (delta : Int) {value : Int → Int}
    (htwin : ∀ x, value (twin x) = -value x) :
    (net.augment delta cycle).gain value = net.gain value + delta * intSum (cycle.map value) := by
  induction cycle generalizing net with
  | nil => simp [augment]
  | cons x cycle ih =>
    have hx := hstored x List.mem_cons_self
    have hrest := @ih (net.push delta x) ((size_push net delta x).trans hsize)
      (fun z hz => hstored z (List.mem_cons_of_mem x hz))
    rw [augment, List.foldl_cons]
    rw [augment] at hrest
    rw [hrest, gain_push hsize hx delta htwin, List.map_cons, intSum_cons]
    ring

end Gain

/-- The flow fits the capacities of the edges and is balanced at the nodes: no difference between
the two ends of the edges gains anything from it. -/
structure Circulates (net : Network) : Prop where
  capacity_nonneg : ∀ arc, Stored net.arcCount arc → 0 ≤ net.capacity arc
  pair_total : ∀ k : Nat, k < net.edgeCount →
    net.capacity (2 * k) + net.capacity (2 * k + 1) = (net.edgeOf (2 * k)).capacity
  balanced : ∀ value : Nat → Int,
    net.gain (fun x => value (net.tail x) - value (net.head x)) = 0

theorem Circulates.flow_eq {net : Network} (h : net.Circulates) {k : Nat} (hk : k < net.edgeCount) :
    net.flow k = net.capacity (2 * k + 1) := by
  have htotal := h.pair_total k hk
  rw [flow_eq_sub]
  omega

end Circulation.Network
