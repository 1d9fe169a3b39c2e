import Circulation.Proofs.Assignment.Normalizing

/-!
How the costs of a point are ordered. The power distances are divided by a common divisor,
multiplied by the resolution and rounded up, and none of these steps exchanges two values. Main
result: a center that is not farther does not cost more, and a center that costs more than the first
cheapest one is farther.
-/

namespace Circulation

open Floating (value)

namespace Quantize

theorem value_div_le_value_div {x y d : Float} (hx : x.isFinite = true) (hy : y.isFinite = true)
    (hd : d.isFinite = true) (hpos : 0 < value d) (hx' : (x / d).isFinite = true)
    (hy' : (y / d).isFinite = true) (hle : value x ≤ value y) : value (x / d) ≤ value (y / d) := by
  rw [← Floating.rank_le_iff_value_le hx' hy']
  refine (Floating.approximates_div hx hd hpos.ne').mono
    (Floating.approximates_div hy hd hpos.ne') ?_
  gcongr

theorem divisor?_spec {values : List Float} (hvalues : ∀ x ∈ values, x.isFinite = true) {d : Float}
    (h : divisor? values = some d) : d.isFinite = true ∧ 0 < value d := by
  obtain ⟨x, hx, hlt, hdivisor, -⟩ | ⟨-, ⟨x, hx, hpos, hdivisor, -⟩ | ⟨hdivisor, -⟩⟩ :=
    divisor?_cases hvalues <;> rw [h] at hdivisor
  · obtain rfl := Option.some.inj hdivisor
    rw [Floating.isFinite_neg, Floating.value_neg]
    exact ⟨hvalues x hx, by linarith⟩
  · obtain rfl := Option.some.inj hdivisor
    exact ⟨hvalues d hx, hpos⟩
  · cases hdivisor

theorem exists_normalized_eq_map {values : List Float}
    (h : ∀ y ∈ normalized values, y.isFinite = true) : ∃ f : Float → Float,
      normalized values = values.map f ∧
        ∀ x ∈ values, ∀ y ∈ values, value x ≤ value y → value (f x) ≤ value (f y) := by
  have hvalues := isFinite_of_normalized h
  unfold normalized at h ⊢
  split at h
  next d hd =>
    obtain ⟨hfinite, hpos⟩ := divisor?_spec hvalues hd
    rw [List.forall_mem_map] at h
    exact ⟨fun x => x / d, rfl, fun x hx y hy =>
      value_div_le_value_div (hvalues x hx) (hvalues y hy) hfinite hpos (h x hx) (h y hy)⟩
  next => exact ⟨id, (List.map_id _).symm, fun _ _ _ _ hle => hle⟩

theorem ceil?_mono {x y resolution : Float} {a b : Int} (hpos : 0.0 < resolution)
    (ha : Decimal.ceil? (x * resolution) = some a) (hb : Decimal.ceil? (y * resolution) = some b)
    (hle : value x ≤ value y) : a ≤ b := by
  obtain ⟨hx', rfl⟩ := Floating.eq_ceil_of_ceil?_eq_some ha
  obtain ⟨hy', rfl⟩ := Floating.eq_ceil_of_ceil?_eq_some hb
  obtain ⟨hx, hresolution⟩ := Floating.isFinite_of_mul hx'
  have hy := (Floating.isFinite_of_mul hy').1
  rw [Floating.lt_iff_value_lt rfl hresolution, Floating.value_zero] at hpos
  refine Int.ceil_mono ((Floating.rank_le_iff_value_le hx' hy').mp ?_)
  refine (Floating.approximates_mul hx hresolution).mono
    (Floating.approximates_mul hy hresolution) ?_
  gcongr

variable {what : Text} {values : List Float} {resolution : Float} {normalize : Bool}
  {costs : List Int}

/-- What has costs can be scaled in one way that keeps the order, and each cost is what has been
scaled times the resolution, rounded up. -/
theorem exists_scaled (h : Quantize.costs what values resolution normalize = .ok costs) :
    (∀ x ∈ values, x.isFinite = true) ∧ ∃ f : Float → Float,
      List.Forall₂ (fun x cost => Decimal.ceil? (f x * resolution) = some cost) values costs ∧
        ∀ x ∈ values, ∀ y ∈ values, value x ≤ value y → value (f x) ≤ value (f y) := by
  have hcosts := costs_eq_ok h
  have hfinite : ∀ y ∈ if normalize then normalized values else values, y.isFinite = true := by
    refine ((List.forall₂_and_left _ _).mp (hcosts.imp fun y cost hcost => ⟨?_, hcost⟩)).1
    exact (Floating.isFinite_of_mul (Floating.eq_ceil_of_ceil?_eq_some hcost).1).1
  cases normalize with
  | false => exact ⟨hfinite, id, hcosts, fun _ _ _ _ hle => hle⟩
  | true =>
    obtain ⟨f, hmap, hmono⟩ := exists_normalized_eq_map hfinite
    rw [if_pos rfl, hmap, List.forall₂_map_left_iff] at hcosts
    exact ⟨isFinite_of_normalized hfinite, f, hcosts, hmono⟩

theorem costs_mono (hpos : 0.0 < resolution)
    (h : Quantize.costs what values resolution normalize = .ok costs) {i j : Nat}
    (hi : i < values.length) (hj : j < values.length) (hle : values[i] ≤ values[j]) :
    costs.getD i 0 ≤ costs.getD j 0 := by
  obtain ⟨hfinite, f, hcosts, hmono⟩ := exists_scaled h
  have hlength := hcosts.length_eq
  have hi' := List.getElem_mem hi
  have hj' := List.getElem_mem hj
  rw [Floating.le_iff_value_le (hfinite _ hi') (hfinite _ hj')] at hle
  rw [List.getD_eq_getElem _ _ (by omega), List.getD_eq_getElem _ _ (by omega)]
  exact ceil?_mono hpos (hcosts.get hi (by omega)) (hcosts.get hj (by omega))
    (hmono _ hi' _ hj' hle)

theorem lt_of_costs_lt (hpos : 0.0 < resolution)
    (h : Quantize.costs what values resolution normalize = .ok costs) {i j : Nat}
    (hi : i < values.length) (hj : j < values.length) (hlt : costs.getD i 0 < costs.getD j 0) :
    values[i] < values[j] := by
  obtain ⟨hfinite, -⟩ := exists_scaled h
  have hi' := hfinite _ (List.getElem_mem hi)
  have hj' := hfinite _ (List.getElem_mem hj)
  rw [Floating.lt_iff_value_lt hi' hj', ← not_le, ← Floating.le_iff_value_le hj' hi']
  exact fun hle => hlt.not_ge (costs_mono hpos h hj hi hle)

end Quantize

namespace Site

variable {p : Site} {centers : List Site} {resolution : Float} {normalize : Bool} {costs : List Int}

open Assignment.Problem (cheapest cheapest_spec)

/-- The costs of a point are in the order of its power distances. So no center that costs more than
the first cheapest one is as near as that one. -/
theorem quantizedCosts_ranked (hpos : 0.0 < resolution)
    (h : p.quantizedCosts centers resolution normalize = .ok costs) :
    costs.length = centers.length ∧
      (∀ i j (hi : i < centers.length) (hj : j < centers.length),
        p.powerDistance centers[i] ≤ p.powerDistance centers[j] →
          costs.getD i 0 ≤ costs.getD j 0) ∧
      (0 < centers.length → ∃ hbest : cheapest costs < centers.length,
        (∀ j < centers.length, costs.getD (cheapest costs) 0 ≤ costs.getD j 0) ∧
          (∀ j < cheapest costs, costs.getD (cheapest costs) 0 < costs.getD j 0) ∧
          ∀ j (hj : j < centers.length), costs.getD (cheapest costs) 0 < costs.getD j 0 →
            p.powerDistance centers[cheapest costs] < p.powerDistance centers[j]) := by
  have hlength : costs.length = centers.length := by
    obtain ⟨-, f, hscaled, -⟩ := Quantize.exists_scaled h
    rw [← hscaled.length_eq, List.length_map]
  have hmem {i : Nat} (hi : i < centers.length) : i < (centers.map p.powerDistance).length := by
    rwa [List.length_map]
  refine ⟨hlength, fun i j hi hj hle => ?_, fun hne => ?_⟩
  · refine Quantize.costs_mono hpos h (hmem hi) (hmem hj) ?_
    rwa [List.getElem_map, List.getElem_map]
  · rw [← hlength] at hne
    obtain ⟨hbest, hleast, hfirst⟩ := cheapest_spec hne
    have hbest' := hlength ▸ hbest
    refine ⟨hbest', fun j hj => hleast j (hlength ▸ hj), hfirst, fun j hj hlt => ?_⟩
    have hnear := Quantize.lt_of_costs_lt hpos h (hmem hbest') (hmem hj) hlt
    rwa [List.getElem_map, List.getElem_map] at hnear

set_option maxRecDepth 10000 in
/-- Power distances 4, -4 and 2 with normalization. -/
theorem quantizedCosts_ranked_mixed : ∃ p : Site, ∃ centers costs,
    (0.0 : Float) < 100.0 ∧ p.quantizedCosts centers 100.0 true = .ok costs ∧
      costs = [100, -100, 50] ∧ cheapest costs = 1 ∧ costs.length = centers.length ∧
        ∀ i j (hi : i < centers.length) (hj : j < centers.length),
          p.powerDistance centers[i] ≤ p.powerDistance centers[j] →
            costs.getD i 0 ≤ costs.getD j 0 := by
  have hpos : (0.0 : Float) < 100.0 := of_decide_eq_true rfl
  have hcosts : quantizedCosts ⟨0.0, 0.0, 1.0⟩ [⟨2.0, 0.0, 0.0⟩, ⟨1.0, 0.0, 5.0⟩, ⟨1.0, 1.0, 0.0⟩]
    100.0 true = .ok [100, -100, 50] := rfl
  obtain ⟨hlength, hmono, -⟩ := quantizedCosts_ranked hpos hcosts
  exact ⟨_, _, _, hpos, hcosts, rfl, rfl, hlength, hmono⟩

end Site

end Circulation
