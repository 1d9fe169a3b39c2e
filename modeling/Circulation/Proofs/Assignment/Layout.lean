import Mathlib.Algebra.BigOperators.Fin
import Mathlib.Logic.Equiv.Fin.Basic
import Circulation.Proofs.Assignment.Posing
import Circulation.Proofs.Connecting

/-!
The nodes and arcs of an assignment problem and their numbers. Each arc is the supply of a point,
the share of a point at a center, the quota of a center, or the way back. Main results: the nodes
and their numbers correspond to each other, one to one, and so do the arcs and the places that the
problem computes for them, at which they are listed.
-/

namespace Circulation.Assignment

/-- The nodes of a problem with `m` points and `n` centers. -/
inductive Node (m n : Nat) where
  | source
  | point (i : Fin m)
  | center (j : Fin n)
  | sink
deriving DecidableEq

/-- The arcs of a problem with `m` points and `n` centers. -/
inductive Link (m n : Nat) where
  | supply (i : Fin m)
  | share (i : Fin m) (j : Fin n)
  | quota (j : Fin n)
  | back
deriving DecidableEq

namespace Link

variable {m n : Nat}

def tail : Link m n → Node m n
  | supply _ => .source
  | share i _ => .point i
  | quota j => .center j
  | back => .sink

def head : Link m n → Node m n
  | supply i => .point i
  | share _ j => .center j
  | quota _ => .sink
  | back => .source

def equivSum : Link m n ≃ Fin m ⊕ (Fin m × Fin n) ⊕ Fin n ⊕ Fin 1 where
  toFun
    | supply i => .inl i
    | share i j => .inr (.inl (i, j))
    | quota j => .inr (.inr (.inl j))
    | back => .inr (.inr (.inr 0))
  invFun
    | .inl i => supply i
    | .inr (.inl (i, j)) => share i j
    | .inr (.inr (.inl j)) => quota j
    | .inr (.inr (.inr _)) => back
  left_inv l := by cases l <;> rfl
  right_inv
    | .inl _ => rfl
    | .inr (.inl _) => rfl
    | .inr (.inr (.inl _)) => rfl
    | .inr (.inr (.inr k)) => by rw [Subsingleton.elim k 0]

instance : Fintype (Link m n) := Fintype.ofEquiv _ equivSum.symm

/-- The arcs one after another: supplies, shares point by point, quotas, and the way back. -/
def equivFin (m n : Nat) : Link m n ≃ Fin (m + (m * n + (n + 1))) :=
  equivSum.trans <| ((Equiv.refl _).sumCongr <|
    (finProdFinEquiv.sumCongr finSumFinEquiv).trans finSumFinEquiv).trans finSumFinEquiv

theorem sum_eq {M : Type} [AddCommMonoid M] (f : Link m n → M) :
    ∑ l, f l = ∑ i, f (supply i) + (∑ i, ∑ j, f (share i j) + (∑ j, f (quota j) + f back)) := by
  rw [← equivSum.symm.sum_comp, Fintype.sum_sum_type, Fintype.sum_sum_type, Fintype.sum_sum_type,
    Fintype.sum_prod_type, Fin.sum_univ_one]
  rfl

end Link

/-- Rows of equal length behind one another: an item of a row lies as far from the start of the row
as in the row itself. -/
theorem getElem?_flatMap {α β : Type} {f : α → List β} {n : Nat} (xs : List α)
    (h : ∀ x ∈ xs, (f x).length = n) (i : Nat) {j : Nat} (hj : j < n) :
    (xs.flatMap f)[i * n + j]? = xs[i]?.bind fun x => (f x)[j]? := by
  induction xs generalizing i with
  | nil => simp
  | cons x xs ih =>
    have hx := h x List.mem_cons_self
    rw [List.flatMap_cons]
    cases i with
    | zero =>
      rw [Nat.zero_mul, Nat.zero_add, List.getElem?_append_left (by omega)]
      rfl
    | succ i =>
      have hplace : (i + 1) * n + j - n = i * n + j := by
        rw [Nat.succ_mul]
        omega
      rw [List.getElem?_append_right (by rw [Nat.succ_mul]; omega), hx, hplace,
        ih (fun y hy => h y (List.mem_cons_of_mem x hy)), List.getElem?_cons_succ]

theorem length_flatMap_eq_mul {α β : Type} {f : α → List β} {n : Nat} (xs : List α)
    (h : ∀ x ∈ xs, (f x).length = n) : (xs.flatMap f).length = xs.length * n := by
  induction xs with
  | nil => simp
  | cons x xs ih =>
    rw [List.flatMap_cons, List.length_append, h x List.mem_cons_self,
      ih fun y hy => h y (List.mem_cons_of_mem x hy), List.length_cons, Nat.succ_mul, Nat.add_comm]

theorem eq_ofFn_getD {α : Type} {xs : List α} {n : Nat} (h : xs.length = n) (standard : α) :
    xs = List.ofFn fun i : Fin n => xs.getD i standard := by
  refine List.ext_getElem (by simp [h]) fun k hk hk' => ?_
  simp [hk]

namespace Problem

variable (p : Problem)

def supply (i : Nat) : Nat := p.supplies.getD i 0

def quota (j : Nat) : Nat := p.quotas.getD j 0

def cost (i j : Nat) : Int := (p.costs.getD i []).getD j 0

def nodeOf : Node p.pointCount p.centerCount → Nat
  | .source => source
  | .point i => pointNode i
  | .center j => p.centerNode j
  | .sink => p.sink

theorem nodeOf_injective : Function.Injective p.nodeOf := by
  intro s t hst
  cases s <;> cases t <;>
    simp only [nodeOf, source, pointNode, centerNode, sink, Node.point.injEq, Node.center.injEq,
      reduceCtorEq] at hst ⊢ <;> omega

theorem nodeOf_lt (s : Node p.pointCount p.centerCount) : p.nodeOf s < p.nodeCount := by
  cases s <;> simp only [nodeOf, source, pointNode, centerNode, sink, nodeCount] <;> omega

theorem exists_nodeOf_eq {v : Nat} (hv : v < p.nodeCount) : ∃ s, p.nodeOf s = v := by
  simp only [nodeCount] at hv
  by_cases hsource : v = 0
  · exact ⟨.source, hsource.symm⟩
  by_cases hpoint : v ≤ p.pointCount
  · refine ⟨.point ⟨v - 1, by omega⟩, ?_⟩
    simp only [nodeOf, pointNode]
    omega
  by_cases hcenter : v ≤ p.pointCount + p.centerCount
  · refine ⟨.center ⟨v - 1 - p.pointCount, by omega⟩, ?_⟩
    simp only [nodeOf, centerNode]
    omega
  · refine ⟨.sink, ?_⟩
    simp only [nodeOf, sink]
    omega

/-- What a caller would give for an arc. -/
def arcOf : Link p.pointCount p.centerCount → Arc
  | .supply i => ⟨source, pointNode i, p.supply i, 0⟩
  | .share i j => ⟨pointNode i, p.centerNode j, p.supply i, p.cost i j⟩
  | .quota j => ⟨p.centerNode j, p.sink, p.quota j, 0⟩
  | .back => ⟨p.sink, source, p.totalSupply, -p.returnCost⟩

@[simp] theorem tail_arcOf (l : Link p.pointCount p.centerCount) :
    (p.arcOf l).tail = p.nodeOf l.tail := by
  cases l <;> rfl

@[simp] theorem head_arcOf (l : Link p.pointCount p.centerCount) :
    (p.arcOf l).head = p.nodeOf l.head := by
  cases l <;> rfl

/-- The place that the problem computes for an arc. -/
def placeOf : Link p.pointCount p.centerCount → Nat
  | .supply i => i
  | .share i j => p.assignmentArc i j
  | .quota j => p.quotaArc j
  | .back => p.returnArc

theorem val_equivFin (l : Link p.pointCount p.centerCount) :
    (Link.equivFin p.pointCount p.centerCount l : Nat) = p.placeOf l := by
  have hmul := Nat.mul_add p.pointCount 1 p.centerCount
  cases l with
  | supply i => rfl
  | share i j =>
    change p.pointCount + (j + p.centerCount * i) = p.pointCount + i * p.centerCount + j
    rw [Nat.mul_comm p.centerCount]
    omega
  | quota j =>
    change p.pointCount + (p.pointCount * p.centerCount + j) =
      p.pointCount * (1 + p.centerCount) + j
    omega
  | back =>
    change p.pointCount + (p.pointCount * p.centerCount + (p.centerCount + 0)) =
      p.pointCount * (1 + p.centerCount) + p.centerCount
    omega

namespace WellPosed

variable {p} (h : p.WellPosed)
include h

theorem supplies_eq_ofFn : p.supplies = List.ofFn fun i : Fin p.pointCount => p.supply i :=
  eq_ofFn_getD h.length_supplies 0

theorem quotas_eq_ofFn : p.quotas = List.ofFn fun j : Fin p.centerCount => p.quota j :=
  eq_ofFn_getD h.length_quotas 0

theorem costs_eq_ofFn : p.costs =
    List.ofFn fun i : Fin p.pointCount => List.ofFn fun j : Fin p.centerCount => p.cost i j := by
  refine (eq_ofFn_getD h.length_costs []).trans (congrArg List.ofFn (funext fun i => ?_))
  have hi : (i : Nat) < p.costs.length := by
    rw [h.length_costs]
    exact i.isLt
  have hrow : p.costs.getD i [] ∈ p.costs := by
    simp [hi]
  exact eq_ofFn_getD (h.length_row _ hrow) 0

theorem cost_lt_returnCost (i : Fin p.pointCount) (j : Fin p.centerCount) :
    p.cost i j < p.returnCost := by
  refine h.cost_lt (List.ofFn fun j : Fin p.centerCount => p.cost i j) ?_ _ (by simp)
  rw [h.costs_eq_ofFn]
  simp

theorem sum_supply : ∑ i : Fin p.pointCount, p.supply i = p.totalSupply := by
  rw [totalSupply, h.supplies_eq_ofFn]
  exact List.sum_ofFn.symm

theorem sum_quota : ∑ j : Fin p.centerCount, p.quota j = p.totalSupply := by
  rw [← h.sum_quotas, h.quotas_eq_ofFn]
  exact List.sum_ofFn.symm

theorem length_assignmentRow {entry : (Nat × List Int) × Nat}
    (hentry : entry ∈ (p.supplies.zip p.costs).zipIdx) :
    (p.rowArcs entry.2 entry.1.1 entry.1.2).length = p.centerCount := by
  have hmem := List.of_mem_zip (List.fst_mem_of_mem_zipIdx hentry)
  simpa [rowArcs] using h.length_row _ hmem.2

theorem length_assignmentArcs : p.assignmentArcs.length = p.pointCount * p.centerCount := by
  rw [assignmentArcs, length_flatMap_eq_mul _ fun entry hentry => h.length_assignmentRow hentry]
  simp [h.length_supplies, h.length_costs]

theorem length_arcs : p.arcs.length = p.pointCount + (p.pointCount * p.centerCount +
    (p.centerCount + 1)) := by
  simp only [arcs, List.length_append, h.length_assignmentArcs, supplyArcs, quotaArcs,
    List.length_map, List.length_zipIdx, h.length_supplies, h.length_quotas, List.length_singleton]
  omega

/-- At the place of each arc that arc is listed. -/
theorem arcs_getElem? (l : Link p.pointCount p.centerCount) :
    p.arcs[p.placeOf l]? = some (p.arcOf l) := by
  have hsupplies : p.supplyArcs.length = p.pointCount := by
    simp [supplyArcs, h.length_supplies]
  have hquotas : p.quotaArcs.length = p.centerCount := by
    simp [quotaArcs, h.length_quotas]
  have hshares := h.length_assignmentArcs
  have hmul := Nat.mul_add p.pointCount 1 p.centerCount
  simp only [arcs, List.append_assoc]
  -- each kind of arc has its own part of the list
  cases l with
  | supply i =>
    have hi := i.isLt
    simp only [placeOf, arcOf]
    rw [List.getElem?_append_left (by omega), supplyArcs, h.supplies_eq_ofFn]
    simp
  | share i j =>
    have hlt := (finProdFinEquiv (i, j)).isLt
    rw [finProdFinEquiv_apply_val, Nat.mul_comm p.centerCount] at hlt
    simp only at hlt
    have hpair : (p.supplies.zip p.costs)[(i : Nat)]? =
        some (p.supply i, List.ofFn fun j : Fin p.centerCount => p.cost i j) :=
      List.getElem?_zip_eq_some.mpr
        ⟨by rw [h.supplies_eq_ofFn]; simp, by rw [h.costs_eq_ofFn]; simp⟩
    simp only [placeOf, arcOf, assignmentArc]
    rw [List.getElem?_append_right (by omega), List.getElem?_append_left (by omega), hsupplies,
      Nat.add_assoc, Nat.add_sub_cancel_left, assignmentArcs,
      getElem?_flatMap _ (fun entry hentry => h.length_assignmentRow hentry) _ j.isLt,
      List.getElem?_zipIdx, hpair]
    simp [rowArcs]
  | quota j =>
    have hj := j.isLt
    have hplace : p.quotaArc j - p.pointCount - p.pointCount * p.centerCount = j := by
      simp only [quotaArc]
      omega
    simp only [placeOf, arcOf]
    rw [List.getElem?_append_right (by simp only [quotaArc]; omega),
      List.getElem?_append_right (by simp only [quotaArc]; omega), hsupplies, hshares, hplace,
      List.getElem?_append_left (by omega), quotaArcs, h.quotas_eq_ofFn]
    simp
  | back =>
    have hplace :
        p.returnArc - p.pointCount - p.pointCount * p.centerCount - p.centerCount = 0 := by
      simp only [returnArc]
      omega
    simp only [placeOf, arcOf]
    rw [List.getElem?_append_right (by simp only [returnArc]; omega),
      List.getElem?_append_right (by simp only [returnArc]; omega),
      List.getElem?_append_right (by simp only [returnArc]; omega), hsupplies, hshares, hquotas,
      hplace]
    rfl

/-- The arcs of a problem correspond to the places in its list of arcs. -/
def place : Link p.pointCount p.centerCount ≃ Fin p.arcs.length :=
  (Link.equivFin p.pointCount p.centerCount).trans (finCongr h.length_arcs.symm)

theorem val_place (l : Link p.pointCount p.centerCount) : (h.place l : Nat) = p.placeOf l :=
  p.val_equivFin l

theorem get_place (l : Link p.pointCount p.centerCount) : p.arcs.get (h.place l) = p.arcOf l := by
  have hlisted := h.arcs_getElem? l
  rw [← h.val_place, List.getElem?_eq_getElem (h.place l).isLt] at hlisted
  exact Option.some.inj hlisted

theorem arcOf_mem (l : Link p.pointCount p.centerCount) : p.arcOf l ∈ p.arcs :=
  List.mem_of_getElem? (h.arcs_getElem? l)

theorem endsIn {a : Arc} (ha : a ∈ p.arcs) : a.EndsIn p.nodeCount := by
  obtain ⟨k, hk, rfl⟩ := List.getElem_of_mem ha
  have hlink : p.arcs[k] = p.arcOf (h.place.symm ⟨k, hk⟩) := by
    rw [← h.get_place, Equiv.apply_symm_apply]
    rfl
  have htail := p.nodeOf_lt (h.place.symm ⟨k, hk⟩).tail
  have hhead := p.nodeOf_lt (h.place.symm ⟨k, hk⟩).head
  rw [hlink]
  constructor <;> simp only [tail_arcOf, head_arcOf] <;> omega

theorem placeOf_lt (l : Link p.pointCount p.centerCount) : p.placeOf l < p.arcs.length := by
  rw [← h.val_place]
  exact (h.place l).isLt

theorem existsUnique_placeOf {k : Nat} (hk : k < p.arcs.length) : ∃! l, p.placeOf l = k := by
  refine ⟨h.place.symm ⟨k, hk⟩, ?_, fun l hl => ?_⟩
  · change p.placeOf _ = k
    rw [← h.val_place, Equiv.apply_symm_apply]
  · rw [Equiv.eq_symm_apply]
    exact Fin.ext ((h.val_place l).trans hl)

theorem supplies_getElem? {i : Nat} (hi : i < p.pointCount) :
    p.supplies[i]? = some (p.supply i) := by
  rw [← h.length_supplies] at hi
  simp [supply, hi]

theorem quotas_getElem? {j : Nat} (hj : j < p.centerCount) : p.quotas[j]? = some (p.quota j) := by
  rw [← h.length_quotas] at hj
  simp [quota, hj]

theorem exists_costs_getElem? {i : Nat} (hi : i < p.pointCount) : ∃ row, p.costs[i]? = some row ∧
    ∀ j < p.centerCount, row[j]? = some (p.cost i j) := by
  rw [← h.length_costs] at hi
  refine ⟨p.costs[i], List.getElem?_eq_getElem hi, fun j hj => ?_⟩
  rw [← h.length_row _ (List.getElem_mem hi)] at hj
  simp [cost, hi, hj]

theorem sum_arcs {M : Type} [AddCommMonoid M] (f : Fin p.arcs.length → M) :
    ∑ k, f k = ∑ i, f (h.place (.supply i)) + (∑ i, ∑ j, f (h.place (.share i j)) +
      (∑ j, f (h.place (.quota j)) + f (h.place .back))) := by
  rw [← h.place.sum_comp, Link.sum_eq]

end WellPosed

/-- The arcs of a problem are as many as its points, its pairs, its centers and the way back, and
each place in their list belongs to one of them. It is listed there with its ends, its capacity and
its cost, and each number of a node belongs to one node as well. -/
theorem layout_of_ofValues {points centers : Value} {terms : Terms} {p : Problem}
    (hposed : ofValues points centers terms = .ok p) :
    p.arcs.length = p.pointCount + p.pointCount * p.centerCount + p.centerCount + 1 ∧
    (∀ a ∈ p.arcs, a.EndsIn p.nodeCount) ∧
    (∀ l, p.placeOf l < p.arcs.length) ∧ (∀ k < p.arcs.length, ∃! l, p.placeOf l = k) ∧
    (∀ s, p.nodeOf s < p.nodeCount) ∧ (∀ v < p.nodeCount, ∃! s, p.nodeOf s = v) ∧
    (∀ i < p.pointCount, ∃ supply row, p.supplies[i]? = some supply ∧ p.costs[i]? = some row ∧
      p.arcs[i]? = some ⟨source, pointNode i, supply, 0⟩ ∧
      ∀ j < p.centerCount, ∃ cost, row[j]? = some cost ∧
        p.arcs[p.assignmentArc i j]? = some ⟨pointNode i, p.centerNode j, supply, cost⟩) ∧
    (∀ j < p.centerCount, ∃ quota, p.quotas[j]? = some quota ∧
      p.arcs[p.quotaArc j]? = some ⟨p.centerNode j, p.sink, quota, 0⟩) ∧
    p.arcs[p.returnArc]? = some ⟨p.sink, source, p.totalSupply, -p.returnCost⟩ := by
  obtain ⟨h, -⟩ := ofValues_ok hposed
  refine ⟨?_, fun a ha => h.endsIn ha, h.placeOf_lt, fun k hk => h.existsUnique_placeOf hk,
    p.nodeOf_lt, fun v hv => ?_, fun i hi => ?_, fun j hj => ?_, h.arcs_getElem? .back⟩
  · rw [h.length_arcs]
    omega
  · obtain ⟨s, hs⟩ := p.exists_nodeOf_eq hv
    exact ⟨s, hs, fun r hr => p.nodeOf_injective (hr.trans hs.symm)⟩
  · obtain ⟨row, hrow, hcosts⟩ := h.exists_costs_getElem? hi
    exact ⟨_, row, h.supplies_getElem? hi, hrow, h.arcs_getElem? (.supply ⟨i, hi⟩),
      fun j hj => ⟨_, hcosts j hj, h.arcs_getElem? (.share ⟨i, hi⟩ ⟨j, hj⟩)⟩⟩
  · exact ⟨_, h.quotas_getElem? hj, h.arcs_getElem? (.quota ⟨j, hj⟩)⟩

def diagonalPoints : Value := .list [.list [.int 0, .int 0], .list [.int 1, .int 1]]

def cornerCenters : Value :=
  .list [.list [.int 1, .int 0], .list [.int 2, .int 0], .list [.int 0, .int 3]]

set_option maxRecDepth 10000 in
/-- The second point has its arc to the third center at place 7, of twelve. -/
theorem layout_of_ofValues_corners : ∃ p,
    ofValues diagonalPoints cornerCenters .standard = .ok p ∧ p.nodeCount = 7 ∧
      p.costs = [[1, 4, 9], [1, 2, 5]] ∧ p.arcs.length = 12 ∧
      p.arcs[(7 : Nat)]? = some ⟨2, 5, 1, 5⟩ ∧ (∃! l, p.placeOf l = 7) ∧
      ∃ quota, p.quotas[0]? = some quota ∧ p.arcs[(8 : Nat)]? = some ⟨3, 6, quota, 0⟩ := by
  obtain ⟨p, hposed, hpoints, hcenters, hsupplies, hcosts⟩ : ∃ p,
      ofValues diagonalPoints cornerCenters .standard = .ok p ∧ p.pointCount = 2 ∧
        p.centerCount = 3 ∧ p.supplies = [1, 1] ∧ p.costs = [[1, 4, 9], [1, 2, 5]] :=
    ⟨_, rfl, rfl, rfl, rfl, rfl⟩
  obtain ⟨hlength, -, -, hplaces, -, -, hshares, hquotas, -⟩ := layout_of_ofValues hposed
  rw [hpoints, hcenters] at hlength
  obtain ⟨supply, row, hsupply, hrow, -, hrowArcs⟩ := hshares 1 (by omega)
  obtain ⟨cost, hcost, hshare⟩ := hrowArcs 2 (by omega)
  obtain ⟨quota, hquota, harc⟩ := hquotas 0 (by omega)
  rw [hsupplies] at hsupply
  rw [hcosts] at hrow
  obtain rfl := Option.some.inj hsupply
  obtain rfl := Option.some.inj hrow
  obtain rfl := Option.some.inj hcost
  simp only [assignmentArc, quotaArc, pointNode, centerNode, sink, hpoints, hcenters] at hshare harc
  refine ⟨p, hposed, ?_, hcosts, hlength, hshare, hplaces 7 (by omega), quota, hquota, harc⟩
  simp only [nodeCount, hpoints, hcenters]

end Problem

end Circulation.Assignment
