import Circulation.Proofs.Assignment.Posing
import Circulation.Proofs.Floating.Least
import Circulation.Proofs.Floating.Reading

/-!
How large normalized costs are. Main result: with a whole resolution, no normalized cost is below
the resolution with the opposite sign, and none is above it if no power distance is negative, or if
no power distance is larger than the magnitude of the least one. A larger power distance beside a
negative one has no such bound.
-/

namespace Circulation

open Floating (value)

namespace Quantize

theorem isPositive_iff {x : Float} (hx : x.isFinite = true) : 0.0 < x ↔ 0 < value x := by
  rw [Floating.lt_iff_value_lt rfl hx, Floating.value_zero]

theorem isNegative_iff {x : Float} (hx : x.isFinite = true) : x < 0.0 ↔ value x < 0 := by
  rw [Floating.lt_iff_value_lt hx rfl, Floating.value_zero]

/-- The common divisor is the magnitude of the least value if that is negative, and otherwise the
greatest value. If that is zero, there is none. -/
theorem divisor?_cases {values : List Float} (hvalues : ∀ x ∈ values, x.isFinite = true) :
    (∃ x ∈ values, value x < 0 ∧ divisor? values = some (-x) ∧ ∀ y ∈ values, value x ≤ value y) ∨
      (∀ y ∈ values, 0 ≤ value y) ∧
        ((∃ x ∈ values, 0 < value x ∧ divisor? values = some x ∧ ∀ y ∈ values, value y ≤ value x) ∨
          divisor? values = none ∧ ∀ y ∈ values, value y ≤ 0) := by
  cases values with
  | nil => exact .inr ⟨by simp, .inr ⟨rfl, by simp⟩⟩
  | cons x xs =>
    have hleast := Spread.value_lowest_le hvalues
    have hgreatest := Spread.le_value_highest hvalues
    have hlow := Spread.lowest_mem (fun a b : Float => a < b) x xs
    have hhigh := Spread.highest_mem (fun a b : Float => a < b) x xs
    have hdivisor : divisor? (x :: xs) =
      let d := if Spread.lowest (fun a b : Float => a < b) x xs < 0.0 then
        -Spread.lowest (fun a b : Float => a < b) x xs
        else Spread.highest (fun a b : Float => a < b) x xs
      if 0.0 < d then some d else none := rfl
    rw [hdivisor]
    generalize Spread.lowest (fun a b : Float => a < b) x xs = low at hleast hlow ⊢
    generalize Spread.highest (fun a b : Float => a < b) x xs = high at hgreatest hhigh ⊢
    have hlow' := hvalues low hlow
    by_cases hnegative : low < 0.0
    · have hlt := (isNegative_iff hlow').mp hnegative
      have hpositive : 0.0 < -low := by
        rw [isPositive_iff (by rwa [Floating.isFinite_neg]), Floating.value_neg]
        linarith
      simp only [if_pos hnegative, if_pos hpositive]
      exact .inl ⟨low, hlow, hlt, rfl, hleast⟩
    · have hle := not_lt.mp ((isNegative_iff hlow').not.mp hnegative)
      refine .inr ⟨fun y hy => hle.trans (hleast y hy), ?_⟩
      simp only [if_neg hnegative]
      by_cases hpositive : 0.0 < high
      · rw [if_pos hpositive]
        exact .inl ⟨high, hhigh, (isPositive_iff (hvalues high hhigh)).mp hpositive, rfl, hgreatest⟩
      · rw [if_neg hpositive]
        have hzero := not_lt.mp ((isPositive_iff (hvalues high hhigh)).not.mp hpositive)
        exact .inr ⟨rfl, fun y hy => (hgreatest y hy).trans hzero⟩

theorem neg_one_le_value_div {x d : Float} (hx : x.isFinite = true) (hd : d.isFinite = true)
    (hpos : 0 < value d) (hfinite : (x / d).isFinite = true) (h : -value d ≤ value x) :
    -1 ≤ value (x / d) := by
  have hone : value (-1.0) = -1 := by rw [Floating.value_neg, Floating.value_one]
  rw [← hone]
  refine (Floating.approximates_div hx hd hpos.ne').value_le hfinite rfl ?_
  rwa [hone, le_div_iff₀ hpos, neg_one_mul]

theorem value_div_le_one {x d : Float} (hx : x.isFinite = true) (hd : d.isFinite = true)
    (hpos : 0 < value d) (hfinite : (x / d).isFinite = true) (h : value x ≤ value d) :
    value (x / d) ≤ 1 := by
  rw [← Floating.value_one]
  refine (Floating.approximates_div hx hd hpos.ne').le_value hfinite rfl ?_
  rwa [Floating.value_one, div_le_one hpos]

section Scaled

variable {y resolution : Float} {cost n : Int} (hn : 0 ≤ n)
  (hwhole : Decimal.whole? resolution = some n)
  (hcost : Decimal.ceil? (y * resolution) = some cost)
include hn hwhole hcost

theorem neg_le_of_ceil? (hy : -1 ≤ value y) : -n ≤ cost := by
  obtain ⟨hresolution, hvalue⟩ := Floating.value_eq_of_whole?_eq_some hwhole
  obtain ⟨hfinite, rfl⟩ := Floating.eq_ceil_of_ceil?_eq_some hcost
  have hproduct := Floating.approximates_mul (Floating.isFinite_of_mul hfinite).1 hresolution
  have hneg : value (-resolution) = -n := by rw [Floating.value_neg, hvalue]
  have hle : value (-resolution) ≤ value (y * resolution) := by
    refine hproduct.value_le hfinite (by rwa [Floating.isFinite_neg]) ?_
    rw [hneg, hvalue, ← neg_one_mul]
    gcongr
  have hceil := hle.trans (Int.le_ceil (value (y * resolution)))
  rw [hneg] at hceil
  exact_mod_cast hceil

theorem le_of_ceil? (hy : value y ≤ 1) : cost ≤ n := by
  obtain ⟨hresolution, hvalue⟩ := Floating.value_eq_of_whole?_eq_some hwhole
  obtain ⟨hfinite, rfl⟩ := Floating.eq_ceil_of_ceil?_eq_some hcost
  have hproduct := Floating.approximates_mul (Floating.isFinite_of_mul hfinite).1 hresolution
  rw [Int.ceil_le, ← hvalue]
  refine hproduct.le_value hfinite hresolution ?_
  nth_rewrite 2 [← one_mul (value resolution)]
  gcongr
  rw [hvalue]
  exact_mod_cast hn

end Scaled

theorem ceil?_of_roundUp_eq_ok {what : Text} {x : Float} {cost : Int}
    (h : NumericRange.roundUp what x = .ok cost) : Decimal.ceil? x = some cost := by
  unfold NumericRange.roundUp at h
  split at h
  · cases h
  next n hn =>
    split at h <;> cases h
    exact hn

theorem costs_eq_ok {what : Text} {values : List Float} {resolution : Float} {normalize : Bool}
    {costs : List Int} (h : Quantize.costs what values resolution normalize = .ok costs) :
    List.Forall₂ (fun y cost => Decimal.ceil? (y * resolution) = some cost)
      (if normalize then normalized values else values) costs :=
  (forall₂_of_mapM_eq_ok h).imp fun _ _ => ceil?_of_roundUp_eq_ok

theorem isFinite_of_normalized {values : List Float}
    (h : ∀ y ∈ normalized values, y.isFinite = true) : ∀ x ∈ values, x.isFinite = true := by
  intro x hx
  unfold normalized at h
  split at h
  next d hd => exact Floating.isFinite_of_div (h (x / d) (List.mem_map_of_mem hx))
  next => exact h x hx

/-- No value is larger than the magnitude of a negative one. -/
def IsBalanced (values : List Float) : Prop :=
  (∀ x ∈ values, 0 ≤ value x) ∨ ∃ x ∈ values, ∀ y ∈ values, value y ≤ -value x

theorem value_normalized_bounds {values : List Float}
    (h : ∀ y ∈ normalized values, y.isFinite = true) : ∀ y ∈ normalized values,
      -1 ≤ value y ∧ (IsBalanced values → value y ≤ 1) := by
  have hvalues := isFinite_of_normalized h
  obtain ⟨d, hd, hlt, hdivisor, hleast⟩ | ⟨hnonneg, ⟨d, hd, hpos, hdivisor, hgreatest⟩ |
    ⟨hdivisor, hzero⟩⟩ := divisor?_cases hvalues
  all_goals
    rw [normalized, hdivisor] at h ⊢
    simp only at h ⊢
  · have hfinite : (-d).isFinite = true := by
      rw [Floating.isFinite_neg]
      exact hvalues d hd
    have hpos : 0 < value (-d) := by
      rw [Floating.value_neg]
      linarith
    intro y hy
    obtain ⟨x, hx, rfl⟩ := List.mem_map.mp hy
    refine ⟨neg_one_le_value_div (hvalues x hx) hfinite hpos (h _ hy) ?_, fun hbalanced =>
      value_div_le_one (hvalues x hx) hfinite hpos (h _ hy) ?_⟩
    · rw [Floating.value_neg, neg_neg]
      exact hleast x hx
    · rw [Floating.value_neg]
      rcases hbalanced with hbalanced | ⟨z, hz, hbalanced⟩
      · linarith [hbalanced d hd]
      · linarith [hbalanced x hx, hleast z hz]
  · intro y hy
    obtain ⟨x, hx, rfl⟩ := List.mem_map.mp hy
    refine ⟨neg_one_le_value_div (hvalues x hx) (hvalues d hd) hpos (h _ hy) ?_, fun _ =>
      value_div_le_one (hvalues x hx) (hvalues d hd) hpos (h _ hy) (hgreatest x hx)⟩
    linarith [hnonneg x hx]
  · intro y hy
    have hle := hzero y hy
    have hge := hnonneg y hy
    exact ⟨by linarith, fun _ => by linarith⟩

end Quantize

namespace Site

variable {p : Site} {centers : List Site} {resolution : Float} {costs : List Int}

theorem isBalanced_powerDistance
    (hfinite : ∀ x ∈ centers.map p.powerDistance, x.isFinite = true)
    (h : (∀ c ∈ centers, 0.0 ≤ p.powerDistance c) ∨
      ∃ c ∈ centers, ∀ c' ∈ centers, p.powerDistance c' ≤ -p.powerDistance c) :
    Quantize.IsBalanced (centers.map p.powerDistance) := by
  rw [List.forall_mem_map] at hfinite
  refine h.imp (fun h => ?_) fun ⟨c, hc, h⟩ => ⟨_, List.mem_map_of_mem hc, ?_⟩
  · rw [List.forall_mem_map]
    exact fun c hc => (Floating.le_iff_value_le rfl (hfinite c hc)).mp (h c hc)
  · rw [List.forall_mem_map]
    intro c' hc'
    rw [← Floating.value_neg]
    refine (Floating.le_iff_value_le (hfinite c' hc') ?_).mp (h c' hc')
    rw [Floating.isFinite_neg]
    exact hfinite c hc

/-- Normalized costs are not below the whole resolution with the opposite sign. They are not above
the resolution if no power distance is negative, or if none is larger than the magnitude of a
negative one. -/
theorem quantizedCosts_bounds {n : Int} (hn : 1 ≤ n) (hwhole : Decimal.whole? resolution = some n)
    (h : p.quantizedCosts centers resolution true = .ok costs) : ∀ cost ∈ costs, -n ≤ cost ∧
      ((∀ c ∈ centers, 0.0 ≤ p.powerDistance c) ∨
          (∃ c ∈ centers, ∀ c' ∈ centers, p.powerDistance c' ≤ -p.powerDistance c) →
        cost ≤ n) := by
  have hcosts := Quantize.costs_eq_ok h
  rw [if_pos rfl] at hcosts
  have hfinite : ∀ y ∈ Quantize.normalized (centers.map p.powerDistance), y.isFinite = true := by
    refine ((List.forall₂_and_left _ _).mp (hcosts.imp fun y cost hcost => ⟨?_, hcost⟩)).1
    exact (Floating.isFinite_of_mul (Floating.eq_ceil_of_ceil?_eq_some hcost).1).1
  have hbalanced := isBalanced_powerDistance (Quantize.isFinite_of_normalized hfinite)
  have hbounds := Quantize.value_normalized_bounds hfinite
  intro cost hcost
  obtain ⟨y, hy, hceil⟩ : ∃ y ∈ Quantize.normalized (centers.map p.powerDistance),
      Decimal.ceil? (y * resolution) = some cost := by
    obtain ⟨k, hk, rfl⟩ := List.getElem_of_mem hcost
    have hk' : k < (Quantize.normalized (centers.map p.powerDistance)).length := by
      rwa [hcosts.length_eq]
    exact ⟨_, List.getElem_mem hk', hcosts.get hk' hk⟩
  obtain ⟨hlow, hhigh⟩ := hbounds y hy
  exact ⟨Quantize.neg_le_of_ceil? (by omega) hwhole hceil hlow, fun h =>
    Quantize.le_of_ceil? (by omega) hwhole hceil (hhigh (hbalanced h))⟩

set_option maxRecDepth 10000 in
/-- Power distances -4 and 4 become the bounds. -/
theorem quantizedCosts_bounds_even : ∃ p : Site, ∃ centers costs,
    Decimal.whole? 100.0 = some 100 ∧ p.quantizedCosts centers 100.0 true = .ok costs ∧
      costs = [-100, 100] ∧ ∀ cost ∈ costs, -100 ≤ cost ∧ cost ≤ 100 := by
  have hcosts : quantizedCosts ⟨0.0, 0.0, 1.0⟩ [⟨1.0, 0.0, 5.0⟩, ⟨2.0, 0.0, 0.0⟩] 100.0 true =
    .ok [-100, 100] := rfl
  have hwhole : Decimal.whole? 100.0 = some 100 := rfl
  refine ⟨_, _, _, hwhole, hcosts, rfl, fun cost hcost => ?_⟩
  obtain ⟨hlow, hhigh⟩ := quantizedCosts_bounds (by decide) hwhole hcosts cost hcost
  refine ⟨hlow, hhigh (.inr ⟨_, List.mem_cons_self, ?_⟩)⟩
  decide +kernel

set_option maxRecDepth 10000 in
/-- Power distances -1 and 100 are divided by the magnitude of the negative one, so the other one
keeps its size. -/
theorem quantizedCosts_unbalanced : ¬ ∀ (p : Site) (centers : List Site) (resolution : Float)
    (n : Int) (costs : List Int), centers ≠ [] → (∀ c ∈ centers, c.isFinite = true) →
      Decimal.whole? resolution = some n → 1 ≤ n →
        p.quantizedCosts centers resolution true = .ok costs →
          ∀ cost ∈ costs, -n ≤ cost ∧ cost ≤ n := by
  intro h
  have hcosts : quantizedCosts ⟨0.0, 0.0, 1.0⟩ [⟨1.0, 0.0, 2.0⟩, ⟨10.0, 0.0, 0.0⟩] 1.0 true =
    .ok [-1, 100] := rfl
  have hbound := h _ _ _ 1 _ (by simp) (by decide +kernel) rfl (by decide) hcosts 100 (by simp)
  omega

end Site

end Circulation
