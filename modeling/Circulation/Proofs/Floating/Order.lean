import Circulation.Proofs.Floating.Packing

/-!
The order of floating-point numbers. Main result: two numbers are compared by their places, integers
that are far from zero for large numbers; so where no number is undefined, the order is total.
-/

open Float.Model Float.Model.UnpackedFloat

namespace Circulation.Floating

theorem compare_neg (a b : Int) : compare (-a) (-b) = (compare a b).swap := by
  rw [Int.compare_swap]
  rcases lt_trichotomy a b with h | rfl | h
  · rw [Int.compare_eq_gt.mpr h, Int.compare_eq_gt]
    omega
  · simp
  · rw [Int.compare_eq_lt.mpr h, Int.compare_eq_lt]
    omega

theorem some_lt_eq {a b : Int} (h : a < b) : some Ordering.lt = some (compare a b) := by
  rw [Int.compare_eq_lt.mpr h]

theorem some_gt_eq {a b : Int} (h : b < a) : some Ordering.gt = some (compare a b) := by
  rw [Int.compare_eq_gt.mpr h]

/-- A larger exponent outweighs any mantissa. -/
theorem Shaped.compare_steps {m m' : Nat} {e e' : Int} (h : Shaped m e) (h' : Shaped m' e') :
    (compare e e').then (compare m m') = compare (steps m e : Int) (steps m' e') := by
  obtain ⟨hlt, hle, hfull⟩ := h
  obtain ⟨hlt', hle', hfull'⟩ := h'
  unfold steps
  rcases lt_trichotomy e e' with he | rfl | he
  · rw [Int.compare_eq_lt.mpr he, Ordering.lt_then, eq_comm, Int.compare_eq_lt]
    omega
  · rw [Int.compare_eq_eq.mpr rfl, Ordering.eq_then]
    rcases lt_trichotomy m m' with hm | rfl | hm
    · rw [Nat.compare_eq_lt.mpr hm, eq_comm, Int.compare_eq_lt]
      omega
    · rw [Nat.compare_eq_eq.mpr rfl, Int.compare_eq_eq.mpr rfl]
    · rw [Nat.compare_eq_gt.mpr hm, eq_comm, Int.compare_eq_gt]
      omega
  · rw [Int.compare_eq_gt.mpr he, Ordering.gt_then, eq_comm, Int.compare_eq_gt]
    omega

theorem place_finite_bounds {s : Sign} {m : Nat} {e : Int} {hm : 0 < m}
    (h : Canonical (.finite s m e hm)) :
    -(limit : Int) < place (.finite s m e hm) ∧ place (.finite s m e hm) < limit := by
  have hlt := h.1.steps_lt_limit.mpr h.2
  cases s <;> simp only [place, Sign.apply] <;> omega

/-- Numbers are compared by their places. -/
theorem compare_eq_compare_place {f g : UnpackedFloat} (hf : Canonical f) (hg : Canonical g)
    (hf' : f.isNaN = false) (hg' : g.isNaN = false) :
    f.compare g = some (compare (place f) (place g)) := by
  have hpos {m : Nat} (e : Int) (hm : 0 < m) : 0 < (steps m e : Int) := by
    unfold steps
    omega
  cases f with
  | notANumber => cases hf'
  | infinity s =>
    cases g with
    | notANumber => cases hg'
    | infinity t => cases s <;> cases t <;> rfl
    | zero t => cases s <;> rfl
    | finite t m e hm =>
      cases s with
      | negative => exact some_lt_eq (place_finite_bounds hg).1
      | positive => exact some_gt_eq (place_finite_bounds hg).2
  | zero s =>
    cases g with
    | notANumber => cases hg'
    | infinity t => cases t <;> rfl
    | zero t => rfl
    | finite t m e hm =>
      cases t with
      | negative => exact some_gt_eq (neg_neg_of_pos (hpos e hm))
      | positive => exact some_lt_eq (hpos e hm)
  | finite s m e hm =>
    cases g with
    | notANumber => cases hg'
    | infinity t =>
      cases t with
      | negative => exact some_gt_eq (place_finite_bounds hf).1
      | positive => exact some_lt_eq (place_finite_bounds hf).2
    | zero t =>
      cases s with
      | negative => exact some_lt_eq (neg_neg_of_pos (hpos e hm))
      | positive => exact some_gt_eq (hpos e hm)
    | finite t m' e' hm' =>
      have hcompare := hf.1.compare_steps hg.1
      cases s <;> cases t
      · simp only [UnpackedFloat.compare, hcompare, place, Sign.apply, compare_neg]
      · exact some_lt_eq ((neg_neg_of_pos (hpos e hm)).trans (hpos e' hm'))
      · exact some_gt_eq ((neg_neg_of_pos (hpos e' hm')).trans (hpos e hm))
      · simp only [UnpackedFloat.compare, hcompare, place, Sign.apply]

/-- The place of a number among all numbers. An undefined number has the one of zero. -/
def rank (x : Float) : Int :=
  place x.toModel.unpack

theorem canonical_toModel (x : Float) : Canonical x.toModel.unpack :=
  canonical_unpack _

section Order

variable {x y : Float} (hx : x.isNaN = false) (hy : y.isNaN = false)
include hx hy

theorem compare_eq_compare_rank :
    x.toModel.unpack.compare y.toModel.unpack = some (compare (rank x) (rank y)) :=
  compare_eq_compare_place (canonical_toModel x) (canonical_toModel y) hx hy

theorem lt_iff_rank_lt : x < y ↔ rank x < rank y := by
  have hlt : x < y ↔ (x.toModel.unpack.compare y.toModel.unpack == some .lt) = true :=
    decide_eq_true_iff
  rw [hlt, compare_eq_compare_rank hx hy, beq_iff_eq, Option.some_inj, Int.compare_eq_lt]

theorem le_iff_rank_le : x ≤ y ↔ rank x ≤ rank y := by
  have hle : x ≤ y ↔
      (x.toModel.unpack.compare y.toModel.unpack).any (·.isLE) = true := decide_eq_true_iff
  rw [hle, compare_eq_compare_rank hx hy, Option.any_some, Int.isLE_compare]

theorem beq_iff_rank_eq : (x == y) = true ↔ rank x = rank y := by
  have hbeq : (x == y) = (x.toModel.unpack.compare y.toModel.unpack == some .eq) := rfl
  rw [hbeq, compare_eq_compare_rank hx hy, beq_iff_eq, Option.some_inj, Int.compare_eq_eq]

end Order

end Circulation.Floating
