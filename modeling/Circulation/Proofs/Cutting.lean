import Mathlib.Algebra.BigOperators.Group.List.Lemmas
import Circulation.Proofs.Way

/-!
What the tree falls into without one of its arcs. A way through the tree passes the arc exactly if
it leads from the side of the arc's tail to the other side. Main result: there is one way only
between two nodes, up to the order in which its arcs are listed.
-/

namespace Circulation.Network

open Adjacency (Stored)

variable {net : Network} {a b : Nat} {way way' : List Int} {arc : Int}

/-- The node is on the side of the arc's tail if the tree is cut at the arc. -/
def Beside (net : Network) (arc : Int) (node : Nat) : Prop :=
  Joined net.ends (net.treeSet \ {pairOf arc}) (net.tail arc) node

theorem IsWay.value_sub (h : net.IsWay a b way) {x : Int} (hx : x ∈ way) (value : Nat → Int)
    (hothers : ∀ y ∈ way, pairOf y ≠ pairOf x → value (net.tail y) = value (net.head y)) :
    value a - value b = value (net.tail x) - value (net.head x) := by
  have hzero : ∀ y, y ≠ x → y ∈ way → value (net.tail y) - value (net.head y) = 0 := by
    intro y hne hy
    have hpair : pairOf y ≠ pairOf x := fun heq =>
      hne (List.inj_on_of_nodup_map h.nodup hy hx heq)
    rw [hothers y hy hpair]
    omega
  rw [← h.telescopes, intSum_eq_sum, List.sum_map_eq_nsmul_single x _ hzero,
    List.count_eq_one_of_mem (List.Nodup.of_map _ h.nodup) hx, one_nsmul]

theorem IsWay.value_eq (h : net.IsWay a b way) (value : Nat → Int)
    (hall : ∀ y ∈ way, value (net.tail y) = value (net.head y)) : value a = value b := by
  have hsum := h.telescopes value
  rw [intSum_eq_sum, List.sum_eq_zero] at hsum
  · omega
  · intro z hz
    obtain ⟨y, hy, rfl⟩ := List.mem_map.mp hz
    rw [hall y hy]
    omega

section Cut

variable (hnet : net.WellFormed) (hacyclic : Acyclic net.ends net.treeSet)
  (harc : Stored net.arcCount arc) (htree : net.isTree arc = true)
include hnet hacyclic harc htree

/-- An arc of the tree is passed by the ways that lead from its side to the other one. -/
theorem IsWay.mem_iff (h : net.IsWay a b way) :
    arc ∈ way ↔ net.Beside arc a ∧ ¬ net.Beside arc b := by
  classical
  let side : Nat → Int := fun v => if net.Beside arc v then 1 else 0
  have htail : side (net.tail arc) = 1 := if_pos (Joined.refl _)
  have hhead : side (net.head arc) = 0 := by
    refine if_neg ?_
    have hcut := hacyclic _ ((hnet.mem_treeSet harc).mpr htree)
    rwa [← net.joined_arc_iff harc.1] at hcut
  -- the other arcs of the tree stay on one side
  have hothers : ∀ y ∈ way, pairOf y ≠ pairOf arc → side (net.tail y) = side (net.head y) := by
    intro y hy hpair
    have hmem := (hnet.mem_treeSet (h.stored y hy)).mpr (h.isTree y hy)
    have hkept : pairOf y ∈ net.treeSet \ {pairOf arc} := ⟨hmem, hpair⟩
    have hjoined := net.joined_arc (h.stored y hy).1 hkept
    have hiff : net.Beside arc (net.tail y) ↔ net.Beside arc (net.head y) :=
      ⟨fun hbeside => hbeside.trans hjoined, fun hbeside => hbeside.trans hjoined.symm⟩
    simp only [side, hiff]
  have hsides : net.Beside arc a ∧ ¬ net.Beside arc b ↔ side a - side b = 1 := by
    simp only [side]
    by_cases ha : net.Beside arc a <;> by_cases hb : net.Beside arc b <;> simp [ha, hb]
  rw [hsides]
  constructor
  · intro hmem
    rw [h.value_sub hmem side hothers, htail, hhead]
    rfl
  · intro hsub
    by_contra hout
    by_cases hback : twin arc ∈ way
    · rw [← pairOf_twin arc] at hothers
      have hturned := h.value_sub hback side hothers
      rw [tail_twin, head_twin, htail, hhead] at hturned
      omega
    · have hsame := h.value_eq side fun y hy => hothers y hy fun hpair => by
        cases eq_or_eq_twin (h.stored y hy).1 harc.1 hpair with
        | inl heq => exact hout (heq ▸ hy)
        | inr heq => exact hback (heq ▸ hy)
      omega

end Cut

section Unique

variable (hnet : net.WellFormed) (hacyclic : Acyclic net.ends net.treeSet)
include hnet hacyclic

theorem IsWay.mem_of_mem (h : net.IsWay a b way) (h' : net.IsWay a b way') (hmem : arc ∈ way) :
    arc ∈ way' := by
  have harc := h.stored arc hmem
  have htree := h.isTree arc hmem
  exact (h'.mem_iff hnet hacyclic harc htree).mpr ((h.mem_iff hnet hacyclic harc htree).mp hmem)

theorem IsWay.perm (h : net.IsWay a b way) (h' : net.IsWay a b way') : way.Perm way' := by
  rw [List.perm_ext_iff_of_nodup h.nodup.of_map h'.nodup.of_map]
  exact fun arc => ⟨h.mem_of_mem hnet hacyclic h', h'.mem_of_mem hnet hacyclic h⟩

end Unique

end Circulation.Network
