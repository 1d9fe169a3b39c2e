import Mathlib

/-!
Floating-point numbers and what they are stored as. A number is `± m * 2 ^ e` with at most 53 binary
digits, all of them used unless the exponent is the least one, so neighbours get places that are one
step apart. Main results: what is read back from a stored number has this shape, and a number of this
shape is stored as it is, or as infinity if it is too large.
-/

open Float.Model Float.Model.UnpackedFloat

namespace Circulation.Floating

/-- A mantissa and an exponent that belong together: no digit is wasted. -/
structure Shaped (m : Nat) (e : Int) : Prop where
  lt : m < 2 ^ 53
  le : -1074 ≤ e
  full : 2 ^ 52 ≤ m ∨ e = -1074

def steps (m : Nat) (e : Int) : Nat :=
  m + 2 ^ 52 * (e + 1074).toNat

def limit : Nat := 2 ^ 52 * 2047

/-- What can be read back from a stored number. -/
def Canonical : UnpackedFloat → Prop
  | .finite _ m e _ => Shaped m e ∧ e ≤ 971
  | _ => True

/-- The place of a number among all numbers, with zero in the middle. -/
def place : UnpackedFloat → Int
  | .infinity s => s.apply limit
  | .finite s m e _ => s.apply (steps m e)
  | .zero _ | .notANumber => 0

theorem Shaped.steps_lt_limit {m : Nat} {e : Int} (h : Shaped m e) :
    steps m e < limit ↔ e ≤ 971 := by
  obtain ⟨hlt, hle, hfull⟩ := h
  unfold steps limit
  omega

theorem Shaped.log2_eq {m : Nat} {e : Int} (h : Shaped m e) (hm : 2 ^ 52 ≤ m) : m.log2 = 52 := by
  have hne : m ≠ 0 := by omega
  have hlt := (Nat.log2_lt hne).mpr h.lt
  have hle := (Nat.le_log2 hne).mpr hm
  omega

def ofParts (s : Sign) (exponent fraction : Nat) : UnpackedFloat :=
  if exponent = 2047 then if fraction = 0 then .infinity s else .notANumber
  else if exponent = 0 then
    if h : 0 < fraction then .finite s fraction (-1074) h else .zero s
  else .finite s (2 ^ 52 + fraction) (exponent - 1075) (by omega)

theorem toNat_leading (fraction : BitVec 52) :
    (1#1 ++ fraction).toNat = 2 ^ 52 + fraction.toNat := by
  rw [BitVec.toNat_append, ← Nat.shiftLeft_add_eq_or_of_lt fraction.isLt]
  rfl

theorem unpack_eq_ofParts (bits : BitVec 64) :
    UnpackedFloat.unpack Format.binary64 bits =
      ofParts (Sign.ofBitVec (@unpackSign .binary64 bits))
        (@unpackExponent .binary64 bits).toNat
        (@unpackMantissa .binary64 bits).toNat := by
  have hbias : (Format.binary64.exponentBias : Int) + (52 : Nat) = 1075 := rfl
  generalize hx : @unpackExponent .binary64 bits = x
  generalize hf : @unpackMantissa .binary64 bits = f
  have hmost : x = -1#11 ↔ x.toNat = 2047 := BitVec.toNat_inj.symm
  have hleast : x = 0#11 ↔ x.toNat = 0 := BitVec.toNat_inj.symm
  have hfraction : f = 0#52 ↔ f.toNat = 0 := BitVec.toNat_inj.symm
  simp only [UnpackedFloat.unpack, ofParts, hx, hf, hmost, hleast, hfraction, hbias, toNat_leading]
  split
  · rfl
  · split
    · split
      · simp [*]
      · simp [Nat.pos_of_ne_zero, *]
    · rfl

theorem canonical_ofParts (s : Sign) {exponent fraction : Nat} (hexponent : exponent < 2 ^ 11)
    (hfraction : fraction < 2 ^ 52) : Canonical (ofParts s exponent fraction) := by
  unfold ofParts
  split
  · split <;> trivial
  · split
    · split
      · exact ⟨⟨by omega, by omega, .inr rfl⟩, by omega⟩
      · trivial
    · exact ⟨⟨by omega, by omega, .inl (by omega)⟩, by omega⟩

theorem canonical_unpack (bits : BitVec 64) :
    Canonical (UnpackedFloat.unpack Format.binary64 bits) := by
  rw [unpack_eq_ofParts]
  exact canonical_ofParts _ (BitVec.isLt _) (BitVec.isLt _)

/-- What is read back from a stored number. -/
def stored (f : UnpackedFloat) : UnpackedFloat :=
  UnpackedFloat.unpack Format.binary64 (UnpackedFloat.pack Format.binary64 f)

theorem unpack_packComponents (s : Sign) (exponent : BitVec 11) (fraction : BitVec 52) :
    UnpackedFloat.unpack Format.binary64 (packComponents Format.binary64 s exponent fraction) =
      ofParts s exponent.toNat fraction.toNat := by
  rw [unpack_eq_ofParts, unpackSign_packComponents, Sign.ofBitVec_toBitVec,
    unpackExponent_packComponents, unpackMantissa_packComponents]

theorem pack_finite (s : Sign) {m : Nat} {e : Int} (hm : 0 < m) (hle : -1074 ≤ e) :
    UnpackedFloat.pack Format.binary64 (.finite s m e hm) =
      if 971 < e then packedInfinity Format.binary64 s
      else packComponents Format.binary64 s
        (if m.log2 = 52 then BitVec.ofNat 11 (e + 1075).toNat else 0#11) (BitVec.ofNat 52 m) := by
  have hbias : (e + Format.binary64.exponentBias + (52 : Nat)).toNat = (e + 1075).toNat := by
    change (e + 1023 + 52).toNat = _
    omega
  have hlarge : 2 ^ 11 ≤ (e + 1075).toNat + 1 ↔ 971 < e := by omega
  have hfull : m.log2 + 1 = Format.binary64.mantissaBits ↔ m.log2 = 52 := Nat.succ_inj
  simp only [UnpackedFloat.pack, hbias, hlarge, hfull]
  split_ifs <;> rfl

theorem stored_finite (s : Sign) {m : Nat} {e : Int} (hm : 0 < m) (h : Shaped m e) :
    stored (.finite s m e hm) = if 971 < e then .infinity s else .finite s m e hm := by
  have hle := h.le
  have hlt := h.lt
  rw [stored, pack_finite s hm h.le]
  split
  · exact unpack_packComponents s _ _
  rw [unpack_packComponents, BitVec.toNat_ofNat]
  rcases Nat.lt_or_ge m (2 ^ 52) with hsmall | hfull
  · have hlog := (Nat.log2_lt hm.ne').mpr hsmall
    obtain rfl : e = -1074 := h.full.resolve_left (by omega)
    rw [if_neg (by omega), Nat.mod_eq_of_lt hsmall]
    simp [ofParts, hm]
  · have hexponent : (e + 1075).toNat % 2 ^ 11 = (e + 1075).toNat := Nat.mod_eq_of_lt (by omega)
    have hfraction : 2 ^ 52 + m % 2 ^ 52 = m := by omega
    have he : ((e + 1075).toNat : Int) - 1075 = e := by omega
    rw [h.log2_eq hfull, if_pos rfl, BitVec.toNat_ofNat, hexponent]
    unfold ofParts
    rw [if_neg (by omega), if_neg (by omega)]
    simp only [hfraction, he]

theorem stored_of_canonical {f : UnpackedFloat} (h : Canonical f) : stored f = f := by
  cases f with
  | infinity s => exact unpack_packComponents s _ _
  | notANumber => exact unpack_packComponents .positive _ _
  | zero s => exact unpack_packComponents s _ _
  | finite s m e hm =>
    rw [stored_finite s hm h.1, if_neg (by have := h.2; omega)]

theorem place_stored_finite (s : Sign) {m : Nat} {e : Int} (hm : 0 < m) (h : Shaped m e) :
    place (stored (.finite s m e hm)) = s.apply (min (steps m e) limit : Nat) := by
  have hlimit := h.steps_lt_limit
  rw [stored_finite s hm h]
  split
  · rw [min_eq_right (by omega)]
    rfl
  · rw [min_eq_left (by omega)]
    rfl

end Circulation.Floating
