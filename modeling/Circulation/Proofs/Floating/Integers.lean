import Circulation.Decimal.Places
import Circulation.Proofs.Floating.Reading

/-!
Integers as floating-point numbers. Main results: the floating-point number made of an integer is
what rounding makes of it, and it is finite for integers up to the middle between the largest finite
number and the next power of two, but not at that middle.
-/

open Float.Model Float.Model.UnpackedFloat

namespace Circulation.Floating

/-- The least magnitude that is rounded to infinity, `2 ^ 1024 - 2 ^ 970`. -/
def overflow : Nat :=
  (2 ^ 54 - 1) * 2 ^ 970

theorem overflow_eq : (overflow : ℚ) = (2 ^ 53 - 1 / 2) * 2 ^ (971 : Int) := by
  have hpow : (2 : ℚ) ^ (971 : Int) = 2 ^ 970 * 2 := by
    rw [← zpow_natCast, ← zpow_add_one₀ (by norm_num)]
    rfl
  rw [overflow, Nat.cast_mul, Nat.cast_pow, hpow]
  generalize ((2 : Nat) : ℚ) ^ 970 = p
  norm_num
  ring

theorem two_pow_le_overflow : 2 ^ 53 ≤ overflow :=
  Nat.le_trans (by norm_num) (Nat.le_mul_of_pos_right (2 ^ 54 - 1) (by positivity))

/-- The middle is rounded to the even neighbour, which is infinity. -/
theorem rounds_overflow : Rounds overflow limit := by
  have hpos : (0 : ℚ) < 2 ^ (971 : Int) := by positivity
  have hsteps : limit = steps (2 ^ 53) 971 := by
    unfold limit steps
    omega
  refine ⟨971, 2 ^ 53, ⟨by omega, .inl ?_, ?_, ?_⟩, hsteps⟩ <;> rw [overflow_eq]
  · rw [zpow_add₀ (by norm_num), mul_comm]
    gcongr
    norm_num
  · rw [zpow_add₀ (by norm_num), mul_comm ((2 : ℚ) ^ (971 : Int))]
    gcongr
    norm_num
  · rw [mul_div_cancel_right₀ _ hpos.ne']
    exact ⟨by norm_num, by norm_num, fun _ => ⟨2 ^ 52, by norm_num⟩⟩

theorem Rounds.limit_le_iff {q : ℚ} {n : Nat} (h : Rounds q n) : limit ≤ n ↔ overflow ≤ q := by
  refine ⟨fun hle => ?_, rounds_overflow.mono h⟩
  obtain ⟨e, r, hround, rfl⟩ := h
  have hr := hround.le_mantissa
  unfold steps limit at hle
  rw [overflow_eq]
  -- a larger exponent lies beyond the middle, at this one the mantissa must have been rounded up
  rcases (show 971 ≤ e by omega).lt_or_eq with he | rfl
  · have hfull := hround.full.resolve_right (by omega)
    calc
      ((2 : ℚ) ^ 53 - 1 / 2) * 2 ^ (971 : Int) ≤ 2 ^ (53 : Int) * 2 ^ (971 : Int) := by
        gcongr
        norm_num
      _ = 2 ^ (53 + 971 : Int) := (zpow_add₀ (by norm_num) _ _).symm
      _ ≤ 2 ^ (e + 52) := zpow_le_zpow_right₀ (by norm_num) (by omega)
      _ ≤ q := hfull
  · have hmantissa : (2 : ℚ) ^ 53 ≤ r := by exact_mod_cast (show 2 ^ 53 ≤ r by omega)
    have hnearest := hround.nearest.le
    rw [← le_div_iff₀ (by positivity)]
    linarith

theorem abs_signed (s : Sign) {q : ℚ} (hq : 0 ≤ q) : |signed s q| = q := by
  cases s
  · exact (abs_neg q).trans (abs_of_nonneg hq)
  · exact abs_of_nonneg hq

theorem natAbs_place_lt_limit_iff {f : UnpackedFloat} (hf : Canonical f) (hf' : f.isNaN = false) :
    (place f).natAbs < limit ↔ f.isFinite = true := by
  cases f with
  | notANumber => cases hf'
  | infinity s => cases s <;> simp [place, Sign.apply, UnpackedFloat.isFinite]
  | zero s => simp [place, limit, UnpackedFloat.isFinite]
  | finite s m e hm =>
    have hbounds := place_finite_bounds hf
    refine iff_of_true ?_ rfl
    omega

/-- What rounding makes of a number is finite below the middle between the largest finite number and
the next power of two. -/
theorem Approximates.isFinite_iff {x : Float} {q : ℚ} (h : Approximates x q) :
    x.isFinite = true ↔ |q| < overflow := by
  obtain ⟨hnan, s, p, n, hp, rfl, hround, hplace⟩ := h
  have hiff := natAbs_place_lt_limit_iff (canonical_toModel x) hnan
  have hlimit := hround.limit_le_iff
  rw [abs_signed s hp, ← not_le, ← hlimit]
  refine hiff.symm.trans ?_
  rw [hplace]
  cases s <;> simp only [Sign.apply] <;> omega

theorem ApproximatedBy.congr {q : ℚ} {f g : UnpackedFloat} (h : ApproximatedBy q f)
    (hg : g.isNaN = false) (hplace : place f = place g) : ApproximatedBy q g :=
  ⟨hg, hplace ▸ h.2⟩

theorem digits_decreaseExponent {m k : Nat} {e t : Int} (hm : 0 < m)
    (ht : t = max (m.log2 + 1 + e - 53 : Int) (-1074)) (hk : k = (e - t).toNat) :
    2 ^ 52 ≤ m * 2 ^ k ∨ e - k ≤ -1074 := by
  refine or_iff_not_imp_right.mpr fun hlarge => ?_
  calc
    2 ^ 52 ≤ 2 ^ (m.log2 + k) := Nat.pow_le_pow_right (by omega) (by omega)
    _ = 2 ^ m.log2 * 2 ^ k := Nat.pow_add ..
    _ ≤ m * 2 ^ k := Nat.mul_le_mul_right _ (Nat.log2_self_le hm.ne')

theorem approximatedBy_round (s : Sign) {m : Nat} (e : Int) (hm : 0 < m) :
    ApproximatedBy (signed s (m * 2 ^ e))
      (stored (UnpackedFloat.round Format.binary64 s m e)) := by
  obtain ⟨k, hk⟩ : ∃ k, k = (e - max (m.log2 + 1 + e - 53 : Int) (-1074)).toNat := ⟨_, rfl⟩
  have hround : UnpackedFloat.round Format.binary64 s m e =
      roundWithAccuracy Format.binary64 s (m * 2 ^ k) (e - k) .exact := by
    rw [hk, ← Nat.shiftLeft_eq]
    rfl
  have hexact : Locates (.ofMantissaAndAccuracy (m * 2 ^ k) .exact)
      ((m * 2 ^ e : ℚ) / 2 ^ (e - k)) := by
    change _ = ((m * 2 ^ k : Nat) : ℚ)
    rw [zpow_sub₀ (by norm_num), zpow_natCast]
    push_cast
    field_simp
  rw [hround]
  exact approximatedBy_roundWithAccuracy s (by positivity) hexact
    (digits_decreaseExponent hm rfl hk)

theorem approximatedBy_ofNat (n : Nat) :
    ApproximatedBy n (stored (UnpackedFloat.ofNat Format.binary64 n)) := by
  rcases Nat.eq_zero_or_pos n with rfl | hn
  · rw [Nat.cast_zero]
    exact approximatedBy_zero .positive
  · have hround : UnpackedFloat.ofNat Format.binary64 n =
        UnpackedFloat.round Format.binary64 .positive n 0 := by
      have hcompare : compare (n : Int) 0 = .gt := Int.compare_eq_gt.mpr (by omega)
      rw [UnpackedFloat.ofNat, UnpackedFloat.ofInt, UnpackedFloat.normalize, hcompare]
      rfl
    have happrox := approximatedBy_round .positive 0 hn
    rw [zpow_zero, mul_one] at happrox
    rw [hround]
    exact happrox

theorem approximatedBy_ofScientific {n : Nat} (hn : 0 < n) :
    ApproximatedBy n (stored (UnpackedFloat.ofScientific Format.binary64 n 0)) := by
  have hbits : (2 : Int) ^ Format.binary64.exponentBits = 2048 := rfl
  have hproduct : UnpackedFloat.ofScientific Format.binary64 n 0 =
      roundWithAccuracy Format.binary64 .positive (n <<< 53 * 1) (-53) .exact := by
    rw [UnpackedFloat.ofScientific, dif_neg hn.ne', hbits, if_neg (by omega), if_neg (by omega),
      if_pos le_rfl]
    rfl
  have hexact : Locates (.ofMantissaAndAccuracy (n * 2 ^ 53) .exact)
      ((n : ℚ) / 2 ^ (-53 : Int)) := by
    change _ = ((n * 2 ^ 53 : Nat) : ℚ)
    rw [zpow_neg, div_inv_eq_mul]
    push_cast
    rfl
  rw [hproduct, mul_one, Nat.shiftLeft_eq]
  exact approximatedBy_roundWithAccuracy .positive (by positivity) hexact (.inl (by omega))

theorem rank_mul_of_value_eq_one {x y : Float} (hx : x.isFinite = true) (hy : y.isFinite = true)
    (hone : value y = 1) : rank (x * y) = rank x := by
  have hproduct := approximates_mul hx hy
  rw [hone, mul_one] at hproduct
  exact le_antisymm (hproduct.mono (approximates_value hx) le_rfl)
    ((approximates_value hx).mono hproduct le_rfl)

theorem approximates_ofNat (n : Nat) : Approximates (Float.ofNat n) n := by
  change Approximates (Float.ofScientific n false 0) n
  unfold Float.ofScientific
  split
  next h =>
    -- a small one is converted as a machine word, and multiplied by the zeroth power of ten
    have hword : n.toUInt64.toNat = n := Nat.mod_eq_of_lt (by omega)
    have hconvert : Approximates n.toUInt64.toFloat (n.toUInt64.toNat : ℚ) :=
      approximatedBy_ofNat n.toUInt64.toNat
    rw [hword] at hconvert
    have hfinite : n.toUInt64.toFloat.isFinite = true := by
      rw [hconvert.isFinite_iff, Nat.abs_cast]
      exact_mod_cast h.1.trans_le two_pow_le_overflow
    change Approximates (n.toUInt64.toFloat * Float.ofBits 0x3FF0000000000000) n
    have hunpack : (Float.ofBits 0x3FF0000000000000).toModel.unpack =
      .finite .positive (2 ^ 52) (-52) (by decide) := rfl
    have hone : value (Float.ofBits 0x3FF0000000000000) = 1 := by
      rw [value, hunpack]
      norm_num [valueOf, signed]
    have hrank := rank_mul_of_value_eq_one hfinite rfl hone
    exact hconvert.congr (approximates_mul hfinite rfl).isNaN hrank.symm
  next h =>
    have hn : 0 < n := by omega
    exact approximatedBy_ofScientific hn

theorem place_neg (f : UnpackedFloat) : place f.neg = -place f := by
  cases f with
  | notANumber => rfl
  | zero s => rfl
  | infinity s =>
    cases s
    · exact (neg_neg _).symm
    · rfl
  | finite s m e hm =>
    cases s
    · exact (neg_neg _).symm
    · rfl

theorem ApproximatedBy.neg {q : ℚ} {f : UnpackedFloat} (h : ApproximatedBy q f) :
    ApproximatedBy (-q) f.neg := by
  obtain ⟨hnan, s, p, n, hp, rfl, hround, hplace⟩ := h
  refine ⟨?_, ?_⟩
  · cases f with
    | notANumber => cases hnan
    | _ => rfl
  rw [place_neg, hplace]
  cases s
  · exact ⟨.positive, p, n, hp, neg_neg p, hround, neg_neg _⟩
  · exact ⟨.negative, p, n, hp, rfl, hround, rfl⟩

theorem approximates_ofInt (n : Int) : Approximates (Float.ofInt n) n := by
  cases n with
  | ofNat n => exact approximates_ofNat n
  | negSucc n =>
    have hneg : Approximates (-Float.ofNat (n + 1)) (-((n + 1 : Nat) : ℚ)) := by
      unfold Approximates
      rw [unpack_neg]
      exact (approximates_ofNat (n + 1)).neg
    rw [Int.cast_negSucc]
    exact hneg

/-- An integer that floating point holds, if not exactly. -/
def Fits (n : Int) : Prop :=
  n.natAbs < overflow

instance (n : Int) : Decidable (Fits n) :=
  inferInstanceAs (Decidable (n.natAbs < overflow))

theorem isFinite_ofInt (n : Int) : (Float.ofInt n).isFinite = true ↔ Fits n := by
  rw [(approximates_ofInt n).isFinite_iff, Fits, ← Int.cast_abs, ← Int.natCast_natAbs]
  norm_cast

theorem ofInt?_eq (n : Int) :
    Decimal.ofInt? n = if Fits n then some (Float.ofInt n) else none := by
  simp only [Decimal.ofInt?, isFinite_ofInt]

theorem isSome_exponential? (n : Int) :
    (Decimal.exponential? n).isSome = true ↔ Fits n := by
  rw [Decimal.exponential?, ofInt?_eq]
  split
  next hfits =>
    obtain ⟨b, hb⟩ := exists_ofFloat_eq ((isFinite_ofInt n).mpr hfits)
    simp [hb, hfits]
  next hfits => simp [hfits]

end Circulation.Floating
