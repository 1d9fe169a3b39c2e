import Circulation.Proofs.Floating.Packing

/-!
Rounding to the nearest number that can be stored, the even one of two. Main results: the larger of
two numbers is not rounded to the smaller place, and the shifts that are made on a mantissa with two
more bits round in this way.
-/

open Float.Model Float.Model.UnpackedFloat

namespace Circulation.Floating

/-- Where a number lies that has been cut off at the units, as told by the two bits that are kept of
the rest. -/
def Locates : ExtendedMantissa → ℚ → Prop
  | ⟨m, false, false⟩, q => q = m
  | ⟨m, false, true⟩, q => m < q ∧ q < m + 1 / 2
  | ⟨m, true, false⟩, q => q = m + 1 / 2
  | ⟨m, true, true⟩, q => m + 1 / 2 < q ∧ q < m + 1

theorem Locates.bounds {em : ExtendedMantissa} {q : ℚ} (h : Locates em q) :
    em.mantissa ≤ q ∧ q < em.mantissa + 1 := by
  obtain ⟨m, half, rest⟩ := em
  cases half <;> cases rest <;> simp only [Locates] at h ⊢ <;> constructor <;> linarith

theorem Locates.shiftRightOne {em : ExtendedMantissa} {q : ℚ} (h : Locates em q) :
    Locates em.shiftRightOne (q / 2) := by
  obtain ⟨m, half, rest⟩ := em
  obtain ⟨k, rfl | rfl⟩ := m.even_or_odd'
  · have hshift : ExtendedMantissa.shiftRightOne ⟨2 * k, half, rest⟩ =
        ⟨k, false, half || rest⟩ := by
      simp [ExtendedMantissa.shiftRightOne]
    rw [hshift]
    cases half <;> cases rest <;> simp only [Locates, Bool.or_true, Bool.or_false] at h ⊢ <;>
      push_cast at h <;> first | linarith | constructor <;> linarith
  · have hshift : ExtendedMantissa.shiftRightOne ⟨2 * k + 1, half, rest⟩ =
        ⟨k, true, half || rest⟩ := by
      simp [ExtendedMantissa.shiftRightOne]
      omega
    rw [hshift]
    cases half <;> cases rest <;> simp only [Locates, Bool.or_true, Bool.or_false] at h ⊢ <;>
      push_cast at h <;> first | linarith | constructor <;> linarith

theorem Locates.shiftRight {em : ExtendedMantissa} {q : ℚ} (h : Locates em q) (n : Nat) :
    Locates (em >>> n) (q / 2 ^ n) := by
  change Locates (n.repeat ExtendedMantissa.shiftRightOne em) _
  induction n with
  | zero =>
    rw [pow_zero, div_one]
    exact h
  | succ n ih =>
    rw [pow_succ, ← div_div]
    exact ih.shiftRightOne

/-- An integer nearest to a number, the even one of two. -/
structure Nearest (q : ℚ) (r : Nat) : Prop where
  le : 2 * (r : ℚ) - 1 ≤ 2 * q
  ge : 2 * q ≤ 2 * r + 1
  even : 2 * q = 2 * r - 1 ∨ 2 * q = 2 * r + 1 → Even r

theorem nearest_natCast (r : Nat) : Nearest r r :=
  ⟨by linarith, by linarith, by rintro (h | h) <;> linarith⟩

theorem Nearest.mono {q q' : ℚ} {r r' : Nat} (h : Nearest q r) (h' : Nearest q' r')
    (hq : q ≤ q') : r ≤ r' := by
  by_contra hlt
  have hstep : (r' : ℚ) + 1 ≤ r := by exact_mod_cast Nat.lt_of_not_le hlt
  have hle := h.le
  have hge := h'.ge
  -- both numbers are the middle between two neighbours then, and both neighbours are even
  have hr : r = r' + 1 := by
    have : (r : ℚ) = r' + 1 := by linarith
    exact_mod_cast this
  have heven := h.even (.inl (by linarith))
  rw [hr, Nat.even_add_one] at heven
  exact heven (h'.even (.inr (by linarith)))

theorem Locates.nearest {em : ExtendedMantissa} {q : ℚ} (h : Locates em q) :
    Nearest q em.roundedMantissa := by
  obtain ⟨m, half, rest⟩ := em
  cases half <;> cases rest <;> simp only [Locates] at h
  · subst h
    exact nearest_natCast m
  · change Nearest q m
    exact ⟨by linarith, by linarith, by rintro (h' | h') <;> linarith⟩
  · change Nearest q (m + m % 2)
    rcases m.even_or_odd with hm | hm
    · rw [Nat.even_iff.mp hm]
      exact ⟨by push_cast; linarith, by push_cast; linarith, fun _ => hm⟩
    · rw [Nat.odd_iff.mp hm]
      exact ⟨by push_cast; linarith, by push_cast; linarith, fun _ => hm.add_one⟩
  · change Nearest q (m + 1)
    refine ⟨by push_cast; linarith, by push_cast; linarith, ?_⟩
    rintro (h' | h') <;> push_cast at h' <;> linarith

/-- The exponent and the mantissa that a number that is not negative is rounded to. -/
structure RoundsAt (q : ℚ) (e : Int) (r : Nat) : Prop where
  le : -1074 ≤ e
  full : 2 ^ (e + 52) ≤ q ∨ e = -1074
  lt : q < 2 ^ (e + 53)
  nearest : Nearest (q / 2 ^ e) r

theorem RoundsAt.le_mantissa {q : ℚ} {e : Int} {r : Nat} (h : RoundsAt q e r) : r ≤ 2 ^ 53 := by
  refine h.nearest.mono (nearest_natCast _) ?_
  rw [div_le_iff₀ (by positivity)]
  have hlt := h.lt
  rw [zpow_add₀ (by norm_num)] at hlt
  push_cast
  linarith

theorem RoundsAt.full_mantissa {q : ℚ} {e : Int} {r : Nat} (h : RoundsAt q e r) :
    2 ^ 52 ≤ r ∨ e = -1074 := by
  refine h.full.imp_left fun hfull => (nearest_natCast _).mono h.nearest ?_
  rw [le_div_iff₀ (by positivity)]
  rw [zpow_add₀ (by norm_num)] at hfull
  push_cast
  linarith

/-- The number of steps from zero to what a number that is not negative is rounded to. -/
def Rounds (q : ℚ) (n : Nat) : Prop :=
  ∃ e r, RoundsAt q e r ∧ n = steps r e

theorem Rounds.mono {q q' : ℚ} {n n' : Nat} (h : Rounds q n) (h' : Rounds q' n') (hq : q ≤ q') :
    n ≤ n' := by
  obtain ⟨e, r, h, rfl⟩ := h
  obtain ⟨e', r', h', rfl⟩ := h'
  have hle := h.le
  have hle' := h'.le
  unfold steps
  rcases lt_trichotomy e e' with he | rfl | he
  · -- the mantissa may be rounded up to the first one of the next exponent
    have hr := h.le_mantissa
    have hr' := h'.full_mantissa.resolve_right (by omega)
    omega
  · have hr := h.nearest.mono h'.nearest (by gcongr)
    omega
  · have hfull := h.full.resolve_right (by omega)
    have hpow : (2 : ℚ) ^ (e' + 53) ≤ 2 ^ (e + 52) :=
      zpow_le_zpow_right₀ (by norm_num) (by omega)
    linarith [h'.lt]

theorem Shaped.rounds {m : Nat} {e : Int} (h : Shaped m e) : Rounds (m * 2 ^ e) (steps m e) := by
  have hpos : (0 : ℚ) < 2 ^ e := by positivity
  refine ⟨e, m, ⟨h.le, h.full.imp_left fun hfull => ?_, ?_, ?_⟩, rfl⟩
  · rw [zpow_add₀ (by norm_num), mul_comm]
    gcongr
    exact_mod_cast hfull
  · rw [zpow_add₀ (by norm_num), mul_comm]
    gcongr
    exact_mod_cast h.lt
  · rw [mul_div_cancel_right₀ _ hpos.ne']
    exact nearest_natCast m

theorem shiftToTargetExponent_eq (m : Nat) (e : Int) (accuracy : Accuracy) :
    shiftToTargetExponent Format.binary64 m e accuracy =
      (ExtendedMantissa.ofMantissaAndAccuracy m accuracy >>>
          (max (m.log2 + 1 + e - 53) (-1074) - e).toNat,
        e + (max (m.log2 + 1 + e - 53) (-1074) - e).toNat) := rfl

/-- After rounding, at most one digit is too many, and it is zero. -/
theorem shiftToTargetExponent_rounded {r : Nat} {t : Int} (hr : r ≤ 2 ^ 53) (ht : -1074 ≤ t)
    (hfull : 2 ^ 52 ≤ r ∨ t = -1074) : ∃ m e, Shaped m e ∧ steps m e = steps r t ∧
      (shiftToTargetExponent Format.binary64 r t .exact).1.mantissa = m ∧
      (shiftToTargetExponent Format.binary64 r t .exact).2 = e := by
  rw [shiftToTargetExponent_eq]
  rcases hr.lt_or_eq with hr | rfl
  · have hlog : r.log2 < 53 := by
      rcases Nat.eq_zero_or_pos r with rfl | hpos
      · simp
      · exact (Nat.log2_lt hpos.ne').mpr hr
    have hshift : (max (r.log2 + 1 + t - 53) (-1074) - t).toNat = 0 := by omega
    rw [hshift]
    exact ⟨r, t, ⟨hr, ht, hfull⟩, rfl, rfl, by simp⟩
  · have hshift : (max (((2 ^ 53 : Nat).log2 : Int) + 1 + t - 53) (-1074) - t).toNat = 1 := by
      rw [Nat.log2_two_pow]
      omega
    rw [hshift]
    refine ⟨2 ^ 52, t + 1, ⟨by omega, by omega, .inl le_rfl⟩, ?_, rfl, rfl⟩
    unfold steps
    omega

theorem mantissa_ofMantissaAndAccuracy (m : Nat) (accuracy : Accuracy) :
    (ExtendedMantissa.ofMantissaAndAccuracy m accuracy).mantissa = m := by
  cases accuracy with
  | exact => rfl
  | inexact o => cases o <;> rfl

/-- A mantissa with enough digits is rounded as the number that it was cut off from. -/
theorem Locates.roundsAt {m k : Nat} {e t : Int} {accuracy : Accuracy} {q : ℚ}
    (hq : Locates (.ofMantissaAndAccuracy m accuracy) (q / 2 ^ e))
    (hdigits : 2 ^ 52 ≤ m ∨ e ≤ -1074) (ht : t = max (m.log2 + 1 + e - 53 : Int) (-1074))
    (hk : t = e + k) :
    RoundsAt q t (ExtendedMantissa.ofMantissaAndAccuracy m accuracy >>> k).roundedMantissa := by
  have hpos : (0 : ℚ) < 2 ^ e := by positivity
  obtain ⟨hlow, hhigh⟩ := hq.bounds
  rw [mantissa_ofMantissaAndAccuracy, le_div_iff₀ hpos] at hlow
  rw [mantissa_ofMantissaAndAccuracy, div_lt_iff₀ hpos] at hhigh
  refine ⟨by omega, ?_, ?_, ?_⟩
  · rcases Nat.eq_zero_or_pos m with rfl | hm
    · exact .inr (by simp at hdigits ht; omega)
    refine or_iff_not_imp_right.mpr fun hne => ?_
    have hpow : (2 : ℚ) ^ m.log2 ≤ m := by exact_mod_cast Nat.log2_self_le hm.ne'
    calc
      (2 : ℚ) ^ (t + 52) = 2 ^ ((m.log2 : Int) + e) := by
        congr 1
        omega
      _ = 2 ^ m.log2 * 2 ^ e := by rw [zpow_add₀ (by norm_num), zpow_natCast]
      _ ≤ m * 2 ^ e := by gcongr
      _ ≤ q := hlow
  · have hpow : (m : ℚ) + 1 ≤ 2 ^ (m.log2 + 1) := by exact_mod_cast Nat.lt_log2_self
    calc
      q < (m + 1) * 2 ^ e := hhigh
      _ ≤ 2 ^ (m.log2 + 1) * 2 ^ e := by gcongr
      _ = 2 ^ (((m.log2 + 1 : Nat) : Int) + e) := by rw [zpow_add₀ (by norm_num), zpow_natCast]
      _ ≤ 2 ^ (t + 53) := zpow_le_zpow_right₀ (by norm_num) (by omega)
  · have hcut := (hq.shiftRight k).nearest
    rwa [div_div, ← zpow_natCast, ← zpow_add₀ (by norm_num), ← hk] at hcut

/-- What rounding makes of a number is as many steps from zero as the exact number rounds to. -/
theorem roundWithAccuracy_eq (s : Sign) {m : Nat} {e : Int} {accuracy : Accuracy} {q : ℚ}
    (hq : Locates (.ofMantissaAndAccuracy m accuracy) (q / 2 ^ e))
    (hdigits : 2 ^ 52 ≤ m ∨ e ≤ -1074) : ∃ m' e', Shaped m' e' ∧ Rounds q (steps m' e') ∧
      roundWithAccuracy Format.binary64 s m e accuracy =
        if h : m' = 0 then .zero s else .finite s m' e' (Nat.pos_of_ne_zero h) := by
  have hlog : 2 ^ 52 ≤ m → 52 ≤ m.log2 := fun h => (Nat.le_log2 (by omega)).mpr h
  obtain ⟨t, ht⟩ : ∃ t, t = max (m.log2 + 1 + e - 53 : Int) (-1074) := ⟨_, rfl⟩
  obtain ⟨k, hk⟩ : ∃ k : Nat, t = e + k := ⟨(t - e).toNat, by omega⟩
  have hround := hq.roundsAt hdigits ht hk
  obtain ⟨m', e', hshaped, hsteps, rfl, rfl⟩ :=
    shiftToTargetExponent_rounded hround.le_mantissa hround.le hround.full_mantissa
  refine ⟨_, _, hshaped, hsteps ▸ ⟨t, _, hround, rfl⟩, ?_⟩
  have hshift : (t - e).toNat = k := by omega
  simp only [roundWithAccuracy]
  rw [shiftToTargetExponent_eq m e, ← ht, hshift, ← hk]

end Circulation.Floating
