import Circulation.Proofs.Assignment.Layout
import Circulation.Proofs.Balance

/-!
Circulations on the arcs of an assignment problem. They are balanced point by point and center by
center. Main results: a circulation of least cost fills the way back, and then its shares use up
every supply and fill every quota; what it costs is what the shares cost, less what the way back
pays.
-/

namespace Circulation.Assignment.Problem

section Definitions

variable {R : Type} [CommRing R] (p : Problem)

/-- Values of the arcs that are balanced at every point, every center, the sink and the source. -/
structure IsBalanced (z : Link p.pointCount p.centerCount → R) : Prop where
  point : ∀ i, z (.supply i) = ∑ j, z (.share i j)
  center : ∀ j, ∑ i, z (.share i j) = z (.quota j)
  sink : ∑ j, z (.quota j) = z .back
  source : z .back = ∑ i, z (.supply i)

/-- Shares of the points at the centers that use up every supply and fill every quota. -/
structure IsAllotment [PartialOrder R] (y : Fin p.pointCount → Fin p.centerCount → R) : Prop where
  nonneg : ∀ i j, 0 ≤ y i j
  row : ∀ i, ∑ j, y i j = p.supply i
  column : ∀ j, ∑ i, y i j = p.quota j

def shareCost (y : Fin p.pointCount → Fin p.centerCount → R) : R :=
  ∑ i, ∑ j, y i j * (p.cost i j : R)

def flowOf (y : Fin p.pointCount → Fin p.centerCount → R) : Link p.pointCount p.centerCount → R
  | .supply i => p.supply i
  | .share i j => y i j
  | .quota j => p.quota j
  | .back => p.totalSupply

/-- One unit from the source by way of a point and a center to the sink, and back. -/
def unitRound (i : Fin p.pointCount) (j : Fin p.centerCount) :
    Link p.pointCount p.centerCount → R
  | .supply i' => if i = i' then 1 else 0
  | .share i' j' => (if i = i' then 1 else 0) * if j = j' then 1 else 0
  | .quota j' => if j = j' then 1 else 0
  | .back => 1

end Definitions

section Balance

variable {R : Type} [CommRing R] {p : Problem} {y : Fin p.pointCount → Fin p.centerCount → R}
variable {z z' : Link p.pointCount p.centerCount → R}

theorem IsBalanced.add (hz : p.IsBalanced z) (hz' : p.IsBalanced z') :
    p.IsBalanced fun l => z l + z' l := by
  refine ⟨fun i => ?_, fun j => ?_, ?_, ?_⟩
  · rw [hz.point, hz'.point, Finset.sum_add_distrib]
  · rw [← hz.center, ← hz'.center, Finset.sum_add_distrib]
  · rw [← hz.sink, ← hz'.sink, Finset.sum_add_distrib]
  · rw [hz.source, hz'.source, Finset.sum_add_distrib]

theorem IsBalanced.smul (hz : p.IsBalanced z) (amount : R) :
    p.IsBalanced fun l => amount * z l := by
  refine ⟨fun i => ?_, fun j => ?_, ?_, ?_⟩
  · rw [hz.point, Finset.mul_sum]
  · rw [← hz.center, Finset.mul_sum]
  · rw [← hz.sink, Finset.mul_sum]
  · rw [hz.source, Finset.mul_sum]

theorem isBalanced_unitRound (i : Fin p.pointCount) (j : Fin p.centerCount) :
    p.IsBalanced (p.unitRound (R := R) i j) := by
  constructor <;> simp [unitRound]

variable [PartialOrder R]

theorem IsAllotment.isBalanced_flowOf (hp : p.WellPosed) (hy : p.IsAllotment y) :
    p.IsBalanced (p.flowOf y) := by
  refine ⟨fun i => (hy.row i).symm, fun j => hy.column j, ?_, ?_⟩
  · simp only [flowOf]
    rw [← Nat.cast_sum, hp.sum_quota]
  · simp only [flowOf]
    rw [← Nat.cast_sum, hp.sum_supply]

end Balance

namespace WellPosed

variable {R : Type} [CommRing R] {p : Problem} (h : p.WellPosed)
include h

theorem inflow_nodeOf (x : Fin p.arcs.length → R) (s : Node p.pointCount p.centerCount) :
    inflow p.arcs x (p.nodeOf s) = ∑ l : Link p.pointCount p.centerCount,
      if l.head = s then x (h.place l) else 0 := by
  simp only [inflow]
  rw [← h.place.sum_comp]
  simp only [h.get_place, head_arcOf, Nat.cast_inj, p.nodeOf_injective.eq_iff]

theorem outflow_nodeOf (x : Fin p.arcs.length → R) (s : Node p.pointCount p.centerCount) :
    outflow p.arcs x (p.nodeOf s) = ∑ l : Link p.pointCount p.centerCount,
      if l.tail = s then x (h.place l) else 0 := by
  simp only [outflow]
  rw [← h.place.sum_comp]
  simp only [h.get_place, tail_arcOf, Nat.cast_inj, p.nodeOf_injective.eq_iff]

theorem balanced_iff (x : Fin p.arcs.length → R) :
    (∀ node, inflow p.arcs x node = outflow p.arcs x node) ↔
      p.IsBalanced fun l => x (h.place l) := by
  have hnodes : (∀ s, inflow p.arcs x (p.nodeOf s) = outflow p.arcs x (p.nodeOf s)) ↔
      p.IsBalanced fun l => x (h.place l) := by
    simp only [h.inflow_nodeOf, h.outflow_nodeOf, Link.sum_eq, Link.head, Link.tail]
    constructor
    · intro hall
      refine ⟨fun i => ?_, fun j => ?_, ?_, ?_⟩
      · simpa using hall (.point i)
      · simpa [Finset.sum_comm] using hall (.center j)
      · simpa using hall .sink
      · simpa using hall .source
    · intro hbalanced s
      cases s with
      | source => simpa using hbalanced.source
      | point i => simpa using hbalanced.point i
      | center j => simpa using hbalanced.center j
      | sink => simpa using hbalanced.sink
  rw [← hnodes]
  refine ⟨fun hall s => hall _, fun hall node => ?_⟩
  by_cases hnode : ∃ s, (p.nodeOf s : Int) = node
  · obtain ⟨s, rfl⟩ := hnode
    exact hall s
  · -- no arc begins or ends at other numbers
    push Not at hnode
    simp only [inflow, outflow]
    rw [← h.place.sum_comp, ← h.place.sum_comp]
    simp only [h.get_place, head_arcOf, tail_arcOf, hnode, if_false]

theorem costOf_arcs (x : Fin p.arcs.length → R) : Circulation.costOf p.arcs x =
    p.shareCost (fun i j => x (h.place (.share i j))) - p.returnCost * x (h.place .back) := by
  simp only [Circulation.costOf]
  rw [h.sum_arcs]
  simp only [h.get_place, arcOf, shareCost, Int.cast_zero, mul_zero, Finset.sum_const_zero,
    Int.cast_neg]
  ring

theorem costOf_flowOf (y : Fin p.pointCount → Fin p.centerCount → R) :
    Circulation.costOf p.arcs (fun k => p.flowOf y (h.place.symm k)) =
      p.shareCost y - p.returnCost * p.totalSupply := by
  rw [h.costOf_arcs]
  simp only [Equiv.symm_apply_apply, flowOf]

theorem costOf_add_round (x : Fin p.arcs.length → R) (i : Fin p.pointCount) (j : Fin p.centerCount)
    (amount : R) :
    Circulation.costOf p.arcs (fun k => x k + amount * p.unitRound i j (h.place.symm k)) =
      Circulation.costOf p.arcs x + amount * ((p.cost i j : R) - p.returnCost) := by
  have hround :
      p.shareCost (fun i' j' => p.unitRound (R := R) i j (.share i' j')) = p.cost i j := by
    simp [shareCost, unitRound]
  have hshares : p.shareCost (fun i' j' => x (h.place (.share i' j')) +
      amount * p.unitRound i j (.share i' j')) =
        p.shareCost (fun i' j' => x (h.place (.share i' j'))) + amount * p.cost i j := by
    rw [← hround]
    simp only [shareCost, add_mul, mul_assoc, Finset.sum_add_distrib, Finset.mul_sum]
  rw [h.costOf_arcs, h.costOf_arcs]
  simp only [Equiv.symm_apply_apply]
  rw [hshares]
  simp only [unitRound]
  ring

variable [LinearOrder R]

theorem place_le {x : Fin p.arcs.length → R} (hx : IsCirculation p.arcs x)
    (l : Link p.pointCount p.centerCount) : x (h.place l) ≤ ((p.arcOf l).capacity : R) := by
  rw [← h.get_place]
  exact hx.within _

theorem isBalanced {x : Fin p.arcs.length → R} (hx : IsCirculation p.arcs x) :
    p.IsBalanced fun l => x (h.place l) :=
  (h.balanced_iff x).mp hx.balanced

variable [IsStrictOrderedRing R]

/-- Balanced values circulate if no supply and no quota is exceeded: then the shares of a point and
the way back are within their capacities, too. -/
theorem isCirculation_of_isBalanced {z : Link p.pointCount p.centerCount → R}
    (hbalanced : p.IsBalanced z) (hnonneg : ∀ l, 0 ≤ z l)
    (hsupply : ∀ i, z (.supply i) ≤ p.supply i) (hquota : ∀ j, z (.quota j) ≤ p.quota j) :
    IsCirculation p.arcs fun k => z (h.place.symm k) := by
  have hwithin : ∀ l, z l ≤ ((p.arcOf l).capacity : R) := by
    intro l
    cases l with
    | supply i => exact hsupply i
    | share i j =>
      calc
        z (.share i j) ≤ ∑ j', z (.share i j') :=
          Finset.single_le_sum (fun j' _ => hnonneg (.share i j')) (Finset.mem_univ j)
        _ = z (.supply i) := (hbalanced.point i).symm
        _ ≤ p.supply i := hsupply i
    | quota j => exact hquota j
    | back =>
      calc
        z .back = ∑ i, z (.supply i) := hbalanced.source
        _ ≤ ∑ i : Fin p.pointCount, (p.supply i : R) := Finset.sum_le_sum fun i _ => hsupply i
        _ = p.totalSupply := by rw [← Nat.cast_sum, h.sum_supply]
  refine ⟨fun k => hnonneg _, fun k => ?_, ?_⟩
  · have hk := hwithin (h.place.symm k)
    rwa [← h.get_place, h.place.apply_symm_apply] at hk
  · rw [h.balanced_iff]
    simpa only [Equiv.symm_apply_apply] using hbalanced

theorem isCirculation_flowOf {y : Fin p.pointCount → Fin p.centerCount → R}
    (hy : p.IsAllotment y) : IsCirculation p.arcs fun k => p.flowOf y (h.place.symm k) := by
  refine h.isCirculation_of_isBalanced (hy.isBalanced_flowOf h) (fun l => ?_) (fun i => le_rfl)
    fun j => le_rfl
  cases l with
  | share i j => exact hy.nonneg i j
  | _ => exact Nat.cast_nonneg _

section Saturation

variable {x : Fin p.arcs.length → R} (hx : IsCirculation p.arcs x)
include hx

theorem exists_point_of_lt (hlt : x (h.place .back) < p.totalSupply) :
    ∃ i, x (h.place (.supply i)) < p.supply i := by
  rw [(h.isBalanced hx).source, ← h.sum_supply, Nat.cast_sum] at hlt
  obtain ⟨i, -, hi⟩ := Finset.exists_lt_of_sum_lt hlt
  exact ⟨i, hi⟩

theorem exists_center_of_lt (hlt : x (h.place .back) < p.totalSupply) :
    ∃ j, x (h.place (.quota j)) < p.quota j := by
  rw [← (h.isBalanced hx).sink, ← h.sum_quota, Nat.cast_sum] at hlt
  obtain ⟨j, -, hj⟩ := Finset.exists_lt_of_sum_lt hlt
  exact ⟨j, hj⟩

/-- Where a point and a center have room, more flow fits on the round through both of them. -/
theorem isCirculation_add_round {i : Fin p.pointCount} {j : Fin p.centerCount} {amount : R}
    (hpos : 0 ≤ amount) (hi : x (h.place (.supply i)) + amount ≤ p.supply i)
    (hj : x (h.place (.quota j)) + amount ≤ p.quota j) :
    IsCirculation p.arcs fun k => x k + amount * p.unitRound i j (h.place.symm k) := by
  have hround : ∀ l, 0 ≤ p.unitRound (R := R) i j l := by
    intro l
    cases l <;> simp only [unitRound] <;> positivity
  have hsum := h.isCirculation_of_isBalanced
    ((h.isBalanced hx).add ((isBalanced_unitRound i j).smul amount))
    (fun l => add_nonneg (hx.nonneg _) (mul_nonneg hpos (hround l))) (fun i' => ?_) (fun j' => ?_)
  · simpa only [Equiv.apply_symm_apply] using hsum
  · simp only [unitRound]
    split
    · rename_i heq
      rwa [mul_one, ← heq]
    · rw [mul_zero, add_zero]
      exact h.place_le hx (.supply i')
  · simp only [unitRound]
    split
    · rename_i heq
      rwa [mul_one, ← heq]
    · rw [mul_zero, add_zero]
      exact h.place_le hx (.quota j')

/-- A circulation of least cost uses up the whole supply. Otherwise some point and some center would
have room, and so would the share between them: a round through both would lower the cost. -/
theorem saturated
    (hleast : ∀ y, IsCirculation p.arcs y →
      Circulation.costOf p.arcs x ≤ Circulation.costOf p.arcs y) :
    x (h.place .back) = p.totalSupply := by
  by_contra hne
  have hlt : x (h.place .back) < p.totalSupply := lt_of_le_of_ne (h.place_le hx .back) hne
  obtain ⟨i, hi⟩ := h.exists_point_of_lt hx hlt
  obtain ⟨j, hj⟩ := h.exists_center_of_lt hx hlt
  -- the most that fits on the round
  let amount := min ((p.supply i : R) - x (h.place (.supply i)))
    ((p.quota j : R) - x (h.place (.quota j)))
  have hamount : 0 < amount := lt_min (sub_pos.mpr hi) (sub_pos.mpr hj)
  have hround := h.isCirculation_add_round hx hamount.le
    (le_sub_iff_add_le'.mp (min_le_left _ _)) (le_sub_iff_add_le'.mp (min_le_right _ _))
  have hcost : (p.cost i j : R) < p.returnCost := Int.cast_lt.mpr (h.cost_lt_returnCost i j)
  have hless := mul_neg_of_pos_of_neg hamount (sub_neg.mpr hcost)
  have hle := hleast _ hround
  rw [h.costOf_add_round] at hle
  linarith

theorem supply_eq_of_saturated (hback : x (h.place .back) = p.totalSupply) (i : Fin p.pointCount) :
    x (h.place (.supply i)) = p.supply i := by
  rw [(h.isBalanced hx).source, ← h.sum_supply, Nat.cast_sum] at hback
  exact (Finset.sum_eq_sum_iff_of_le fun i _ => h.place_le hx (.supply i)).mp hback i
    (Finset.mem_univ i)

theorem quota_eq_of_saturated (hback : x (h.place .back) = p.totalSupply) (j : Fin p.centerCount) :
    x (h.place (.quota j)) = p.quota j := by
  rw [← (h.isBalanced hx).sink, ← h.sum_quota, Nat.cast_sum] at hback
  exact (Finset.sum_eq_sum_iff_of_le fun j _ => h.place_le hx (.quota j)).mp hback j
    (Finset.mem_univ j)

theorem isAllotment_of_saturated (hback : x (h.place .back) = p.totalSupply) :
    p.IsAllotment fun i j => x (h.place (.share i j)) := by
  refine ⟨fun i j => hx.nonneg _, fun i => ?_, fun j => ?_⟩
  · rw [← h.supply_eq_of_saturated hx hback i, (h.isBalanced hx).point]
  · rw [← h.quota_eq_of_saturated hx hback j, ← (h.isBalanced hx).center]

theorem shareCost_le
    (hleast : ∀ y, IsCirculation p.arcs y →
      Circulation.costOf p.arcs x ≤ Circulation.costOf p.arcs y)
    {y : Fin p.pointCount → Fin p.centerCount → R} (hy : p.IsAllotment y) :
    p.shareCost (fun i j => x (h.place (.share i j))) ≤ p.shareCost y := by
  have hle := hleast _ (h.isCirculation_flowOf hy)
  rw [h.costOf_flowOf, h.costOf_arcs, h.saturated hx hleast] at hle
  linarith

end Saturation

end WellPosed

end Circulation.Assignment.Problem
