import Circulation.Decimal.Binary
import Circulation.Proofs.Floating.Operations

/-!
Floating-point numbers read from their bits. Main results: what is read is the rational number that
the number is, and a finite number is rounded up to the least integer that is not below it.
-/

open Float.Model Float.Model.UnpackedFloat

namespace Circulation.Floating

section Bits

variable (bits : BitVec 64)

theorem toNat_unpackMantissa :
    (@unpackMantissa .binary64 bits).toNat = bits.toNat % 2 ^ 52 := by
  simp [unpackMantissa]

theorem toNat_unpackExponent :
    (@unpackExponent .binary64 bits).toNat = bits.toNat / 2 ^ 52 % 2 ^ 11 := by
  simp [unpackExponent, Nat.shiftRight_eq_div_pow]

theorem ofBitVec_unpackSign : Sign.ofBitVec (@unpackSign .binary64 bits) =
    if bits.toNat / 2 ^ 63 == 1 then .negative else .positive := by
  have hlt := bits.isLt
  have hsign : (@unpackSign .binary64 bits).toNat = bits.toNat / 2 ^ 63 := by
    simp [unpackSign, Nat.shiftRight_eq_div_pow]
    omega
  have hzero : @unpackSign .binary64 bits = 0#1 ↔ bits.toNat / 2 ^ 63 = 0 := by
    rw [← hsign]
    exact BitVec.toNat_inj.symm
  simp only [Sign.ofBitVec, hzero, beq_iff_eq]
  split_ifs <;> first | rfl | omega

end Bits

theorem unpack_eq (x : Float) : x.toModel.unpack =
    ofParts (if x.toBits.toNat / 2 ^ 63 == 1 then .negative else .positive)
      (x.toBits.toNat / 2 ^ 52 % 2 ^ 11) (x.toBits.toNat % 2 ^ 52) := by
  refine (unpack_eq_ofParts x.toBits.toBitVec).trans ?_
  rw [toNat_unpackMantissa, toNat_unpackExponent, ofBitVec_unpackSign]
  rfl

def readingOfParts (negative : Bool) (exponent fraction : Nat) : Decimal.Reading :=
  if exponent == 2047 then
    if fraction == 0 then .infinite negative else .nan
  else if exponent == 0 then
    .finite ⟨negative, fraction, -1074, false⟩
  else
    .finite ⟨negative, 2 ^ 52 + fraction, (exponent : Int) - 1075, fraction == 0 && exponent > 1⟩

theorem ofFloat_eq (x : Float) : Decimal.Reading.ofFloat x =
    readingOfParts (x.toBits.toNat / 2 ^ 63 == 1) (x.toBits.toNat / 2 ^ 52 % 2 ^ 11)
      (x.toBits.toNat % 2 ^ 52) := rfl

theorem zpow_eq_div (e : Int) : (2 : ℚ) ^ e = 2 ^ e.toNat / 2 ^ (-e).toNat := by
  rw [← zpow_natCast, ← zpow_natCast, ← zpow_sub₀ (by norm_num)]
  congr 1
  omega

theorem numerator_div_denominator (b : Decimal.Binary) : (b.numerator : ℚ) / b.denominator =
    signed (if b.negative then .negative else .positive) (b.mantissa * 2 ^ b.exponent) := by
  rw [zpow_eq_div, mul_div_assoc']
  unfold Decimal.Binary.numerator Decimal.Binary.denominator
  cases b.negative
  · simp [signed]
  · simp [signed, neg_div]

theorem valueOf_ofParts {negative : Bool} {exponent fraction : Nat} {b : Decimal.Binary}
    (h : readingOfParts negative exponent fraction = .finite b) :
    (ofParts (if negative then .negative else .positive) exponent fraction).isFinite = true ∧
      valueOf (ofParts (if negative then .negative else .positive) exponent fraction) =
        b.numerator / b.denominator := by
  rw [numerator_div_denominator]
  unfold readingOfParts at h
  unfold ofParts
  split at h
  · split at h <;> cases h
  next hfinite =>
    rw [if_neg (by simpa using hfinite)]
    split at h
    next hzero =>
      rw [if_pos (by simpa using hzero)]
      obtain rfl := Decimal.Reading.finite.inj h
      split
      · exact ⟨rfl, rfl⟩
      next hfraction =>
        obtain rfl : fraction = 0 := by omega
        cases negative <;> simp [signed, valueOf, UnpackedFloat.isFinite]
    next hzero =>
      rw [if_neg (by simpa using hzero)]
      obtain rfl := Decimal.Reading.finite.inj h
      exact ⟨rfl, rfl⟩

theorem value_eq_of_ofFloat_eq {x : Float} {b : Decimal.Binary}
    (h : Decimal.Reading.ofFloat x = .finite b) :
    x.isFinite = true ∧ value x = b.numerator / b.denominator := by
  have hparts := valueOf_ofParts ((ofFloat_eq x).symm.trans h)
  rwa [← unpack_eq] at hparts

theorem exists_readingOfParts_eq {s : Sign} {exponent fraction : Nat}
    (h : (ofParts s exponent fraction).isFinite = true) (negative : Bool) :
    ∃ b, readingOfParts negative exponent fraction = .finite b := by
  unfold ofParts at h
  unfold readingOfParts
  split at h
  · split at h <;> cases h
  next hfinite =>
    rw [if_neg (by simpa using hfinite)]
    split <;> exact ⟨_, rfl⟩

theorem exists_ofFloat_eq {x : Float} (hx : x.isFinite = true) :
    ∃ b, Decimal.Reading.ofFloat x = .finite b := by
  change x.toModel.unpack.isFinite = true at hx
  rw [unpack_eq] at hx
  rw [ofFloat_eq]
  exact exists_readingOfParts_eq hx _

theorem eq_ceil_of_ceil?_eq_some {x : Float} {n : Int} (h : Decimal.ceil? x = some n) :
    x.isFinite = true ∧ n = ⌈value x⌉ := by
  unfold Decimal.ceil? at h
  split at h
  next b hb =>
    obtain ⟨hfinite, hvalue⟩ := value_eq_of_ofFloat_eq hb
    refine ⟨hfinite, ?_⟩
    rw [hvalue, Rat.ceil_intCast_div_natCast]
    exact (Option.some.inj h).symm
  next => cases h

theorem value_eq_of_whole?_eq_some {x : Float} {n : Int} (h : Decimal.whole? x = some n) :
    x.isFinite = true ∧ value x = n := by
  unfold Decimal.whole? at h
  split at h
  next b hb =>
    split at h
    next hwhole =>
      obtain ⟨hfinite, hvalue⟩ := value_eq_of_ofFloat_eq hb
      have hdvd : (b.denominator : Int) ∣ b.numerator :=
        Int.dvd_of_emod_eq_zero (by simpa [Decimal.Binary.isWhole] using hwhole)
      have hne : (b.denominator : ℚ) ≠ 0 := by
        simp [Decimal.Binary.denominator]
      obtain rfl := Option.some.inj h
      refine ⟨hfinite, hvalue.trans ?_⟩
      rw [div_eq_iff hne]
      exact_mod_cast (Int.tdiv_mul_cancel hdvd).symm
    next => cases h
  next => cases h

end Circulation.Floating
