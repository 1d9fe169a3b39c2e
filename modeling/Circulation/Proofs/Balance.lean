import Mathlib.Algebra.BigOperators.Fin
import Mathlib.Algebra.Order.BigOperators.Ring.Finset
import Mathlib.Data.Int.ConditionallyCompleteOrder
import Mathlib.Tactic.Linarith
import Mathlib.Tactic.Ring
import Circulation.Arc

/-!
Circulations on arcs as a caller describes them. The values of the arcs may be integers or come from
any larger ordered ring. Main result: a circulation costs least if there are node potentials for
which arcs of positive reduced cost are empty and arcs of negative reduced cost are full, and so do
values that are not balanced among all that leave every node with the same balance.
-/

namespace Circulation

section Definitions

variable {R : Type} [Ring R] (arcs : List Arc) (x : Fin arcs.length → R)

def inflow (node : Int) : R := ∑ k, if (arcs.get k).head = node then x k else 0

def outflow (node : Int) : R := ∑ k, if (arcs.get k).tail = node then x k else 0

def costOf : R := ∑ k, x k * ((arcs.get k).cost : R)

/-- Values within the capacities of the arcs that are balanced at every node. -/
structure IsCirculation [PartialOrder R] : Prop where
  nonneg : ∀ k, 0 ≤ x k
  within : ∀ k, x k ≤ ((arcs.get k).capacity : R)
  balanced : ∀ node, inflow arcs x node = outflow arcs x node

end Definitions

theorem sum_by_node {R : Type} [CommRing R] {m : Nat} (x : Fin m → R) (node : Fin m → Int)
    (value : Int → R) {nodes : Finset Int} (hnodes : ∀ k, node k ∈ nodes) :
    ∑ k, x k * value (node k) =
      ∑ v ∈ nodes, value v * ∑ k, if node k = v then x k else 0 := by
  have hpoint : ∀ k, x k * value (node k) =
      ∑ v ∈ nodes, value v * if node k = v then x k else 0 := by
    intro k
    rw [Finset.sum_eq_single_of_mem (node k) (hnodes k)
      (fun v _ hne => by rw [if_neg hne.symm, mul_zero]), if_pos rfl, mul_comm]
  simp only [hpoint, Finset.mul_sum]
  exact Finset.sum_comm

theorem costOf_intCast {R : Type} [Ring R] {arcs : List Arc} (z : Fin arcs.length → Int) :
    costOf arcs (fun k => (z k : R)) = ((costOf arcs z : Int) : R) := by
  simp [costOf]

section Balance

variable {R : Type} [CommRing R] {arcs : List Arc} {x y : Fin arcs.length → R}

theorem sum_difference_of_balanced (h : ∀ node, inflow arcs x node = outflow arcs x node)
    (value : Int → R) :
    ∑ k, x k * (value (arcs.get k).tail - value (arcs.get k).head) = 0 := by
  let nodes : Finset Int := Finset.univ.image (fun k : Fin arcs.length => (arcs.get k).tail) ∪
    Finset.univ.image (fun k : Fin arcs.length => (arcs.get k).head)
  have htail : ∀ k : Fin arcs.length, (arcs.get k).tail ∈ nodes := fun k =>
    Finset.mem_union_left _ (Finset.mem_image_of_mem _ (Finset.mem_univ k))
  have hhead : ∀ k : Fin arcs.length, (arcs.get k).head ∈ nodes := fun k =>
    Finset.mem_union_right _ (Finset.mem_image_of_mem _ (Finset.mem_univ k))
  have hout := sum_by_node x (fun k => (arcs.get k).tail) value htail
  have hin := sum_by_node x (fun k => (arcs.get k).head) value hhead
  simp only [mul_sub, Finset.sum_sub_distrib]
  rw [hout, hin, ← Finset.sum_sub_distrib]
  refine Finset.sum_eq_zero fun v _ => ?_
  have hbalanced := h v
  simp only [inflow, outflow] at hbalanced
  rw [hbalanced, sub_self]

def reducedCostOf (arcs : List Arc) (potential : Int → R) (k : Fin arcs.length) : R :=
  (arcs.get k).cost - potential (arcs.get k).tail + potential (arcs.get k).head

theorem costOf_eq_of_balanced (h : ∀ node, inflow arcs x node = outflow arcs x node)
    (potential : Int → R) : costOf arcs x = ∑ k, x k * reducedCostOf arcs potential k := by
  have hzero := sum_difference_of_balanced h potential
  calc
    costOf arcs x = ∑ k, x k * ((arcs.get k).cost : R) -
        ∑ k, x k * (potential (arcs.get k).tail - potential (arcs.get k).head) := by
      rw [hzero, sub_zero, costOf]
    _ = ∑ k, x k * reducedCostOf arcs potential k := by
      rw [← Finset.sum_sub_distrib]
      refine Finset.sum_congr rfl fun k _ => ?_
      simp only [reducedCostOf]
      ring

/-- Values that leave every node with the same balance. -/
def SameBalance (arcs : List Arc) (x y : Fin arcs.length → R) : Prop :=
  ∀ node, outflow arcs y node - inflow arcs y node = outflow arcs x node - inflow arcs x node

theorem SameBalance.balanced_sub (h : SameBalance arcs x y) (node : Int) :
    inflow arcs (fun k => y k - x k) node = outflow arcs (fun k => y k - x k) node := by
  have hsplit : ∀ (p : Prop) [Decidable p] (a b : R),
      (if p then a - b else 0) = (if p then a else 0) - if p then b else 0 := by
    intro p _ a b
    split <;> simp
  have hnode := h node
  simp only [inflow, outflow, hsplit, Finset.sum_sub_distrib] at hnode ⊢
  rw [sub_eq_sub_iff_add_eq_add] at hnode ⊢
  exact (add_comm _ _).trans hnode.symm

theorem SameBalance.costOf_sub (h : SameBalance arcs x y) (potential : Int → R) :
    costOf arcs y - costOf arcs x = ∑ k, (y k - x k) * reducedCostOf arcs potential k := by
  rw [← costOf_eq_of_balanced h.balanced_sub potential]
  simp only [costOf, sub_mul, Finset.sum_sub_distrib]

end Balance

section Duality

variable {R : Type} [CommRing R] [LinearOrder R] {arcs : List Arc} {x y : Fin arcs.length → R}

theorem IsCirculation.costOf_eq (h : IsCirculation arcs x) (potential : Int → R) :
    costOf arcs x = ∑ k, x k * reducedCostOf arcs potential k :=
  costOf_eq_of_balanced h.balanced potential

theorem SameBalance.of_isCirculation (h : IsCirculation arcs x) (h' : IsCirculation arcs y) :
    SameBalance arcs x y := by
  intro node
  rw [h.balanced, h'.balanced, sub_self, sub_self]

/-- Nothing within the capacities costs less than values of the same balance that use no arc of
positive reduced cost and fill all arcs of negative reduced cost. -/
theorem SameBalance.costOf_le [IsStrictOrderedRing R] (h : SameBalance arcs x y)
    (hnonneg : ∀ k, 0 ≤ y k) (hwithin : ∀ k, y k ≤ ((arcs.get k).capacity : R))
    (potential : Int → R) (hempty : ∀ k, 0 < reducedCostOf arcs potential k → x k = 0)
    (hfull : ∀ k, reducedCostOf arcs potential k < 0 → x k = (arcs.get k).capacity) :
    costOf arcs x ≤ costOf arcs y := by
  rw [← sub_nonneg, h.costOf_sub potential]
  refine Finset.sum_nonneg fun k _ => ?_
  rcases lt_trichotomy (reducedCostOf arcs potential k) 0 with hneg | hzero | hpos
  · rw [hfull k hneg]
    exact mul_nonneg_of_nonpos_of_nonpos (sub_nonpos.mpr (hwithin k)) hneg.le
  · rw [hzero, mul_zero]
  · rw [hempty k hpos, sub_zero]
    exact mul_nonneg (hnonneg k) hpos.le

theorem IsCirculation.costOf_le [IsStrictOrderedRing R] (h : IsCirculation arcs x)
    (h' : IsCirculation arcs y) (potential : Int → R)
    (hempty : ∀ k, 0 < reducedCostOf arcs potential k → x k = 0)
    (hfull : ∀ k, reducedCostOf arcs potential k < 0 → x k = (arcs.get k).capacity) :
    costOf arcs x ≤ costOf arcs y :=
  (SameBalance.of_isCirculation h h').costOf_le h'.nonneg h'.within potential hempty hfull

/-- A circulation that uses no arc of positive reduced cost and fills all arcs of negative reduced
cost costs what the negative reduced costs take off at most. -/
theorem IsCirculation.costOf_eq_sum_min [IsStrictOrderedRing R] (h : IsCirculation arcs x)
    (potential : Int → R) (hempty : ∀ k, 0 < reducedCostOf arcs potential k → x k = 0)
    (hfull : ∀ k, reducedCostOf arcs potential k < 0 → x k = (arcs.get k).capacity) :
    costOf arcs x =
      ∑ k, ((arcs.get k).capacity : R) * min 0 (reducedCostOf arcs potential k) := by
  rw [h.costOf_eq potential]
  refine Finset.sum_congr rfl fun k _ => ?_
  rcases lt_trichotomy (reducedCostOf arcs potential k) 0 with hneg | hzero | hpos
  · rw [hfull k hneg, min_eq_right hneg.le]
  · rw [hzero, min_self, mul_zero, mul_zero]
  · rw [hempty k hpos, min_eq_left hpos.le, zero_mul, mul_zero]

theorem IsCirculation.intCast [IsStrictOrderedRing R] {z : Fin arcs.length → Int}
    (h : IsCirculation arcs z) : IsCirculation arcs (fun k => (z k : R)) := by
  refine ⟨fun k => Int.cast_nonneg (h.nonneg k), fun k => ?_, fun node => ?_⟩
  · have hle : (z k : R) ≤ (((arcs.get k).capacity : Int) : R) := Int.cast_le.mpr (h.within k)
    simpa using hle
  · have hbalanced : ((inflow arcs z node : Int) : R) = ((outflow arcs z node : Int) : R) := by
      rw [h.balanced node]
    simpa [inflow, outflow, apply_ite] using hbalanced

end Duality

end Circulation
