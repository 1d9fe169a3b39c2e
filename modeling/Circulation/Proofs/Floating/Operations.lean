import Circulation.Proofs.Floating.Order
import Circulation.Proofs.Floating.Rounding

/-!
Products and quotients of floating-point numbers. A number approximates a rational number if it is
what rounding makes of it. Main results: products and quotients approximate the exact ones, and of
two numbers the one that approximates less is not larger.
-/

open Float.Model Float.Model.UnpackedFloat

namespace Circulation.Floating

def signed : Sign → ℚ → ℚ
  | .negative, q => -q
  | .positive, q => q

theorem signed_mul (s t : Sign) (p q : ℚ) : signed (s * t) (p * q) = signed s p * signed t q := by
  cases s <;> cases t
  · exact (neg_mul_neg p q).symm
  · exact (neg_mul p q).symm
  · exact (mul_neg p q).symm
  · rfl

theorem signed_div (s t : Sign) (p q : ℚ) : signed (s / t) (p / q) = signed s p / signed t q := by
  cases s <;> cases t
  · exact (neg_div_neg_eq p q).symm
  · exact (neg_div q p).symm
  · exact (div_neg p).symm
  · rfl

def valueOf : UnpackedFloat → ℚ
  | .finite s m e _ => signed s (m * 2 ^ e)
  | _ => 0

/-- What rounding makes of a rational number. -/
def ApproximatedBy (q : ℚ) (f : UnpackedFloat) : Prop :=
  f.isNaN = false ∧ ∃ s p n, 0 ≤ p ∧ q = signed s p ∧ Rounds p n ∧
    place f = s.apply (min n limit : Nat)

theorem rounds_zero : Rounds 0 0 := by
  have h : Shaped 0 (-1074) := ⟨by omega, by omega, .inr rfl⟩
  simpa [steps] using h.rounds

theorem approximatedBy_zero (s : Sign) : ApproximatedBy 0 (.zero s) :=
  ⟨rfl, .positive, 0, 0, le_rfl, rfl, rounds_zero, rfl⟩

theorem ApproximatedBy.mono {q q' : ℚ} {f f' : UnpackedFloat} (h : ApproximatedBy q f)
    (h' : ApproximatedBy q' f') (hq : q ≤ q') : place f ≤ place f' := by
  obtain ⟨-, s, p, n, hp, rfl, hround, hplace⟩ := h
  obtain ⟨-, s', p', n', hp', rfl, hround', hplace'⟩ := h'
  rw [hplace, hplace']
  cases s <;> cases s' <;> simp only [signed, Sign.apply] at hq ⊢
  · have hn := hround'.mono hround (by linarith)
    omega
  · omega
  · have hn := hround.mono rounds_zero (by linarith)
    have hn' := hround'.mono rounds_zero (by linarith)
    omega
  · have hn := hround.mono hround' hq
    omega

theorem approximatedBy_valueOf {f : UnpackedFloat} (h : Canonical f) (hfinite : f.isFinite = true) :
    ApproximatedBy (valueOf f) f := by
  cases f with
  | infinity s => cases hfinite
  | notANumber => cases hfinite
  | zero s => exact approximatedBy_zero s
  | finite s m e hm =>
    have hlt := h.1.steps_lt_limit.mpr h.2
    refine ⟨rfl, s, m * 2 ^ e, steps m e, by positivity, rfl, h.1.rounds, ?_⟩
    rw [min_eq_left hlt.le]
    rfl

theorem approximatedBy_roundWithAccuracy (s : Sign) {m : Nat} {e : Int} {accuracy : Accuracy}
    {q : ℚ} (hnonneg : 0 ≤ q) (hq : Locates (.ofMantissaAndAccuracy m accuracy) (q / 2 ^ e))
    (hdigits : 2 ^ 52 ≤ m ∨ e ≤ -1074) :
    ApproximatedBy (signed s q) (stored (roundWithAccuracy Format.binary64 s m e accuracy)) := by
  obtain ⟨m', e', hshaped, hround, heq⟩ := roundWithAccuracy_eq s hq hdigits
  rw [heq]
  split
  next hzero =>
    subst hzero
    have he' : e' = -1074 := hshaped.full.resolve_left (by omega)
    rw [stored_of_canonical (f := .zero s) trivial]
    refine ⟨rfl, s, q, _, hnonneg, rfl, hround, ?_⟩
    subst he'
    cases s <;> rfl
  next hm' =>
    refine ⟨?_, s, q, _, hnonneg, rfl, hround, place_stored_finite s _ hshaped⟩
    rw [stored_finite s _ hshaped]
    split <;> rfl

theorem approximatedBy_mul {f g : UnpackedFloat} (hf : Canonical f) (hg : Canonical g)
    (hf' : f.isFinite = true) (hg' : g.isFinite = true) :
    ApproximatedBy (valueOf f * valueOf g) (stored (UnpackedFloat.mul Format.binary64 f g)) := by
  have hzero (s : Sign) : ApproximatedBy 0 (stored (.zero s)) := by
    rw [stored_of_canonical (f := .zero s) trivial]
    exact approximatedBy_zero s
  cases f with
  | infinity s => cases hf'
  | notANumber => cases hf'
  | zero s =>
    change ApproximatedBy (0 * valueOf g) _
    rw [zero_mul]
    cases g with
    | infinity t => cases hg'
    | notANumber => cases hg'
    | zero t => exact hzero _
    | finite t m e hm => exact hzero _
  | finite s m e hm =>
    cases g with
    | infinity t => cases hg'
    | notANumber => cases hg'
    | zero t =>
      change ApproximatedBy (_ * 0) _
      rw [mul_zero]
      exact hzero _
    | finite t m' e' hm' =>
      have hexact : Locates (.ofMantissaAndAccuracy (m * m') .exact)
          (((m * 2 ^ e) * (m' * 2 ^ e') : ℚ) / 2 ^ (e + e')) := by
        have hpos : (2 : ℚ) ^ e * 2 ^ e' ≠ 0 := by positivity
        change _ = ((m * m' : Nat) : ℚ)
        rw [zpow_add₀ (by norm_num), mul_mul_mul_comm, mul_div_cancel_right₀ _ hpos, Nat.cast_mul]
      have hdigits : 2 ^ 52 ≤ m * m' ∨ e + e' ≤ -1074 := by
        rcases hf.1.full with h | h
        · exact .inl (h.trans (Nat.le_mul_of_pos_right m hm'))
        · rcases hg.1.full with h' | h'
          · exact .inl (h'.trans (Nat.le_mul_of_pos_left m' hm))
          · exact .inr (by omega)
      have happrox := approximatedBy_roundWithAccuracy (s * t) (by positivity) hexact hdigits
      rwa [signed_mul] at happrox

/-- Where a quotient lies, as told by the remainder. -/
theorem locates_accuracyOfFraction (n : Nat) {d : Nat} (hd : 0 < d) :
    Locates (.ofMantissaAndAccuracy (n / d) (accuracyOfFraction (n % d) d)) ((n : ℚ) / d) := by
  have hd' : (0 : ℚ) < d := by exact_mod_cast hd
  have hsplit : (n : ℚ) = (n / d : Nat) * d + (n % d : Nat) := by
    exact_mod_cast (Nat.div_add_mod' n d).symm
  have hquotient : (n : ℚ) / d = (n / d : Nat) + ((n % d : Nat) : ℚ) / d := by
    rw [div_eq_iff hd'.ne', add_mul, div_mul_cancel₀ _ hd'.ne']
    exact hsplit
  have hlt : ((n % d : Nat) : ℚ) / d < 1 := by
    rw [div_lt_one hd']
    exact_mod_cast Nat.mod_lt n hd
  rw [hquotient]
  generalize n % d = r at hlt ⊢
  unfold accuracyOfFraction
  split
  next hr =>
    subst hr
    simp [Locates, ExtendedMantissa.ofMantissaAndAccuracy]
  next hr =>
    have hpos : (0 : ℚ) < (r : ℚ) / d := div_pos (by exact_mod_cast Nat.pos_of_ne_zero hr) hd'
    rcases lt_trichotomy (2 * r) d with h | h | h
    · have hhalf : (r : ℚ) / d < 1 / 2 := by
        rw [div_lt_iff₀ hd']
        have : (2 : ℚ) * r < d := by exact_mod_cast h
        linarith
      rw [Nat.compare_eq_lt.mpr h]
      exact ⟨by linarith, by linarith⟩
    · have hhalf : (r : ℚ) / d = 1 / 2 := by
        rw [div_eq_iff hd'.ne']
        have : (2 : ℚ) * r = d := by exact_mod_cast h
        linarith
      rw [Nat.compare_eq_eq.mpr h, hhalf]
      rfl
    · have hhalf : 1 / 2 < (r : ℚ) / d := by
        rw [lt_div_iff₀ hd']
        have : (d : ℚ) < 2 * r := by exact_mod_cast h
        linarith
      rw [Nat.compare_eq_gt.mpr h]
      exact ⟨by linarith, by linarith⟩

theorem digits_divCore {m₁ m₂ : Nat} (h₁ : 0 < m₁) (h₂ : 0 < m₂) {e₁ e₂ t : Int}
    (ht : t = min (e₁ - e₂) (max (m₁.log2 + 1 + e₁ - (m₂.log2 + 1 + e₂) - 53) (-1074))) :
    2 ^ 52 ≤ m₁ * 2 ^ (e₁ - e₂ - t).toNat / m₂ ∨ t ≤ -1074 := by
  refine or_iff_not_imp_right.mpr fun hlarge => ?_
  rw [Nat.le_div_iff_mul_le h₂]
  have hlog : 52 + (m₂.log2 + 1) ≤ m₁.log2 + (e₁ - e₂ - t).toNat := by omega
  calc
    2 ^ 52 * m₂ ≤ 2 ^ 52 * 2 ^ (m₂.log2 + 1) := Nat.mul_le_mul_left _ Nat.lt_log2_self.le
    _ = 2 ^ (52 + (m₂.log2 + 1)) := (Nat.pow_add ..).symm
    _ ≤ 2 ^ (m₁.log2 + (e₁ - e₂ - t).toNat) := Nat.pow_le_pow_right (by omega) hlog
    _ = 2 ^ m₁.log2 * 2 ^ (e₁ - e₂ - t).toNat := Nat.pow_add ..
    _ ≤ m₁ * 2 ^ (e₁ - e₂ - t).toNat := Nat.mul_le_mul_right _ (Nat.log2_self_le h₁.ne')

theorem approximatedBy_div {f g : UnpackedFloat} (hf : f.isFinite = true) (hg : g.isFinite = true)
    (hne : valueOf g ≠ 0) :
    ApproximatedBy (valueOf f / valueOf g) (stored (UnpackedFloat.div Format.binary64 f g)) := by
  cases g with
  | infinity t => cases hg
  | notANumber => cases hg
  | zero t => exact absurd rfl hne
  | finite t m₂ e₂ h₂ =>
    cases f with
    | infinity s => cases hf
    | notANumber => cases hf
    | zero s =>
      change ApproximatedBy (0 / _) (stored (.zero (s / t)))
      rw [zero_div, stored_of_canonical (f := .zero (s / t)) trivial]
      exact approximatedBy_zero (s / t)
    | finite s m₁ e₁ h₁ =>
      obtain ⟨k, hk⟩ : ∃ k : Int, k = min (e₁ - e₂)
        (max (m₁.log2 + 1 + e₁ - (m₂.log2 + 1 + e₂) - 53) (-1074)) := ⟨_, rfl⟩
      have hexact : (m₁ * 2 ^ e₁ / (m₂ * 2 ^ e₂) : ℚ) / 2 ^ k =
          (m₁ * 2 ^ (e₁ - e₂ - k).toNat : Nat) / m₂ := by
        have hsplit : e₁ = (e₁ - e₂ - k).toNat + e₂ + k := by omega
        have hpow : (2 : ℚ) ^ e₁ = 2 ^ (e₁ - e₂ - k).toNat * 2 ^ e₂ * 2 ^ k := by
          conv_lhs => rw [hsplit, zpow_add₀ (by norm_num), zpow_add₀ (by norm_num), zpow_natCast]
        rw [hpow]
        push_cast
        field_simp
      have hlocates := locates_accuracyOfFraction (m₁ * 2 ^ (e₁ - e₂ - k).toNat) h₂
      rw [← hexact] at hlocates
      have happrox := approximatedBy_roundWithAccuracy (s / t) (by positivity) hlocates
        (digits_divCore h₁ h₂ hk)
      rw [signed_div, hk] at happrox
      rw [← Nat.shiftLeft_eq] at happrox
      exact happrox

def value (x : Float) : ℚ :=
  valueOf x.toModel.unpack

/-- A floating-point number is what rounding makes of a rational number. -/
def Approximates (x : Float) (q : ℚ) : Prop :=
  ApproximatedBy q x.toModel.unpack

section Finite

variable {x y : Float} (hx : x.isFinite = true) (hy : y.isFinite = true)

include hx in
theorem approximates_value : Approximates x (value x) :=
  approximatedBy_valueOf (canonical_toModel x) hx

include hx hy

theorem approximates_mul : Approximates (x * y) (value x * value y) :=
  approximatedBy_mul (canonical_toModel x) (canonical_toModel y) hx hy

theorem approximates_div (hne : value y ≠ 0) : Approximates (x / y) (value x / value y) :=
  approximatedBy_div hx hy hne

end Finite

theorem Approximates.isNaN {x : Float} {q : ℚ} (h : Approximates x q) : x.isNaN = false :=
  h.1

theorem Approximates.mono {x y : Float} {q r : ℚ} (h : Approximates x q) (h' : Approximates y r)
    (hq : q ≤ r) : rank x ≤ rank y :=
  ApproximatedBy.mono h h' hq

theorem Shaped.steps_inj {m m' : Nat} {e e' : Int} (h : Shaped m e) (h' : Shaped m' e')
    (heq : steps m e = steps m' e') : m = m' ∧ e = e' := by
  obtain ⟨hlt, hle, hfull⟩ := h
  obtain ⟨hlt', hle', hfull'⟩ := h'
  unfold steps at heq
  omega

theorem valueOf_eq_of_place_eq {f g : UnpackedFloat} (hf : Canonical f) (hg : Canonical g)
    (hf' : f.isFinite = true) (hg' : g.isFinite = true) (h : place f = place g) :
    valueOf f = valueOf g := by
  have hpos {m : Nat} (e : Int) (hm : 0 < m) : 0 < (steps m e : Int) := by
    unfold steps
    omega
  cases f with
  | infinity s => cases hf'
  | notANumber => cases hf'
  | zero s =>
    cases g with
    | infinity t => cases hg'
    | notANumber => cases hg'
    | zero t => rfl
    | finite t m e hm =>
      have := hpos e hm
      cases t <;> simp only [place, Sign.apply] at h <;> omega
  | finite s m e hm =>
    have := hpos e hm
    cases g with
    | infinity t => cases hg'
    | notANumber => cases hg'
    | zero t => cases s <;> simp only [place, Sign.apply] at h <;> omega
    | finite t m' e' hm' =>
      have := hpos e' hm'
      have hinj := hf.1.steps_inj hg.1
      cases s <;> cases t <;> simp only [place, Sign.apply] at h
      · obtain ⟨rfl, rfl⟩ := hinj (by omega)
        rfl
      · omega
      · omega
      · obtain ⟨rfl, rfl⟩ := hinj (by omega)
        rfl

theorem isNaN_of_isFinite {x : Float} (hx : x.isFinite = true) : x.isNaN = false :=
  (approximates_value hx).isNaN

section Finite

variable {x y : Float} (hx : x.isFinite = true) (hy : y.isFinite = true)
include hx hy

theorem rank_le_iff_value_le : rank x ≤ rank y ↔ value x ≤ value y := by
  refine ⟨fun h => ?_, (approximates_value hx).mono (approximates_value hy)⟩
  by_contra hlt
  have hge := (approximates_value hy).mono (approximates_value hx) (not_le.mp hlt).le
  exact hlt (valueOf_eq_of_place_eq (canonical_toModel x) (canonical_toModel y) hx hy
    (le_antisymm h hge)).le

theorem le_iff_value_le : x ≤ y ↔ value x ≤ value y := by
  rw [le_iff_rank_le (isNaN_of_isFinite hx) (isNaN_of_isFinite hy), rank_le_iff_value_le hx hy]

theorem lt_iff_value_lt : x < y ↔ value x < value y := by
  rw [lt_iff_rank_lt (isNaN_of_isFinite hx) (isNaN_of_isFinite hy), ← not_le,
    rank_le_iff_value_le hy hx, not_le]

theorem beq_iff_value_eq : (x == y) = true ↔ value x = value y := by
  rw [beq_iff_rank_eq (isNaN_of_isFinite hx) (isNaN_of_isFinite hy), le_antisymm_iff,
    le_antisymm_iff, rank_le_iff_value_le hx hy, rank_le_iff_value_le hy hx]

theorem Approximates.le_value {q : ℚ} (h : Approximates x q) (hq : q ≤ value y) :
    value x ≤ value y :=
  (rank_le_iff_value_le hx hy).mp (h.mono (approximates_value hy) hq)

theorem Approximates.value_le {q : ℚ} (h : Approximates x q) (hq : value y ≤ q) :
    value y ≤ value x :=
  (rank_le_iff_value_le hy hx).mp ((approximates_value hy).mono h hq)

end Finite

theorem isFinite_of_stored {f : UnpackedFloat} (h : (stored f).isFinite = true) :
    f.isFinite = true := by
  cases f with
  | infinity s => rwa [stored_of_canonical (f := .infinity s) trivial] at h
  | notANumber => rwa [stored_of_canonical (f := .notANumber) trivial] at h
  | zero s => rfl
  | finite s m e hm => rfl

theorem isFinite_of_mul {x y : Float} (h : (x * y).isFinite = true) :
    x.isFinite = true ∧ y.isFinite = true := by
  have hmul : (UnpackedFloat.mul Format.binary64 x.toModel.unpack y.toModel.unpack).isFinite =
    true := isFinite_of_stored h
  change x.toModel.unpack.isFinite = true ∧ y.toModel.unpack.isFinite = true
  revert hmul
  cases x.toModel.unpack <;> cases y.toModel.unpack <;>
    first | exact fun _ => ⟨rfl, rfl⟩ | exact fun h => absurd h Bool.false_ne_true

theorem isFinite_of_div {x y : Float} (h : (x / y).isFinite = true) : x.isFinite = true := by
  have hdiv : (UnpackedFloat.div Format.binary64 x.toModel.unpack y.toModel.unpack).isFinite =
    true := isFinite_of_stored h
  change x.toModel.unpack.isFinite = true
  revert hdiv
  cases x.toModel.unpack <;> cases y.toModel.unpack <;>
    first | exact fun _ => rfl | exact fun h => absurd h Bool.false_ne_true

theorem eq_infinity {f : UnpackedFloat} (hf : f.isNaN = false) (hf' : ¬ f.isFinite = true) :
    ∃ s, f = .infinity s := by
  cases f with
  | infinity s => exact ⟨s, rfl⟩
  | notANumber => cases hf
  | zero s => exact absurd rfl hf'
  | finite s m e hm => exact absurd rfl hf'

theorem rank_bounds {x : Float} (hx : x.isFinite = true) :
    -(limit : Int) < rank x ∧ rank x < limit := by
  have hcanonical := canonical_toModel x
  change x.toModel.unpack.isFinite = true at hx
  unfold rank
  cases hf : x.toModel.unpack with
  | infinity s => rw [hf] at hx; cases hx
  | notANumber => rw [hf] at hx; cases hx
  | zero s => simp [place, limit]
  | finite s m e hm => exact place_finite_bounds (hf ▸ hcanonical)

theorem Approximates.isFinite {x y z : Float} {q : ℚ} (h : Approximates x q)
    (hy : y.isFinite = true) (hz : z.isFinite = true) (hlow : value y ≤ q) (hhigh : q ≤ value z) :
    x.isFinite = true := by
  have hbelow := (rank_bounds hy).1.trans_le ((approximates_value hy).mono h hlow)
  have habove := (h.mono (approximates_value hz) hhigh).trans_lt (rank_bounds hz).2
  by_contra hinfinite
  obtain ⟨s, hs⟩ := eq_infinity h.isNaN hinfinite
  rw [rank, hs] at hbelow habove
  cases s <;> simp only [place, Sign.apply] at hbelow habove <;> omega

theorem isNaN_div_infinity (s : Sign) {g : UnpackedFloat} (hg : g.isFinite = true) :
    (stored (UnpackedFloat.div Format.binary64 (.infinity s) g)).isNaN = false := by
  have hinfinite (t : Sign) : (stored (.infinity t)).isNaN = false := by
    rw [stored_of_canonical (f := .infinity t) trivial]
    rfl
  cases g with
  | infinity t => cases hg
  | notANumber => cases hg
  | zero t => exact hinfinite _
  | finite t m e hm => exact hinfinite _

theorem isNaN_div {x y : Float} (hx : x.isNaN = false) (hy : y.isFinite = true)
    (hne : value y ≠ 0) : (x / y).isNaN = false := by
  by_cases hfinite : x.isFinite = true
  · exact (approximates_div hfinite hy hne).isNaN
  · obtain ⟨s, hs⟩ := eq_infinity hx hfinite
    have hdiv := isNaN_div_infinity s hy
    rwa [← hs] at hdiv

theorem unpack_neg (x : Float) : (-x).toModel.unpack = x.toModel.unpack.neg := by
  refine stored_of_canonical ?_
  have h := canonical_toModel x
  cases hf : x.toModel.unpack with
  | finite s m e hm =>
    rw [hf] at h
    exact h
  | _ => trivial

theorem isFinite_neg (x : Float) : (-x).isFinite = x.isFinite := by
  change (-x).toModel.unpack.isFinite = x.toModel.unpack.isFinite
  rw [unpack_neg]
  cases x.toModel.unpack <;> rfl

theorem value_neg (x : Float) : value (-x) = -value x := by
  unfold value
  rw [unpack_neg]
  cases x.toModel.unpack with
  | finite s m e hm =>
    cases s
    · exact (neg_neg _).symm
    · rfl
  | _ => exact neg_zero.symm

section Literals

theorem value_zero : value 0.0 = 0 := rfl

theorem value_one : value 1.0 = 1 := by
  have hunpack : (1.0 : Float).toModel.unpack = .finite .positive (2 ^ 52) (-52) (by decide) := rfl
  rw [value, hunpack]
  norm_num [valueOf, signed]

theorem value_half : value 0.5 = 1 / 2 := by
  have hunpack : (0.5 : Float).toModel.unpack = .finite .positive (2 ^ 52) (-53) (by decide) := rfl
  rw [value, hunpack]
  norm_num [valueOf, signed]

end Literals

end Circulation.Floating
