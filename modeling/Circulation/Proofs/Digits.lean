import Circulation.Decimal.Layout
import Circulation.Decimal.Reading
import Mathlib.Tactic.Ring

/-!
Decimal digits, written and read. The digits of a number read back as the number, whatever follows
them that is no digit. Main results: an integer is short if it has no more digits than a text may
give one, and every integer is that comes from digits within the limit or from a floating-point
number.
-/

namespace Circulation.Decimal

theorem spanDigits_append {ds rest : List Char} (hds : ∀ c ∈ ds, c.isDigit = true)
    (hrest : ∀ c ∈ rest.head?, c.isDigit = false) : spanDigits (ds ++ rest) = (ds, rest) := by
  induction ds with
  | nil =>
    cases rest with
    | nil => rfl
    | cons c rest => simp [spanDigits, hrest c rfl]
  | cons d ds ih =>
    have htail := ih fun c hc => hds c (List.mem_cons_of_mem d hc)
    simp [spanDigits, hds d List.mem_cons_self, htail]

theorem isDigit_of_mem_spanDigits (cs : List Char) : ∀ c ∈ (spanDigits cs).1, c.isDigit = true := by
  induction cs with
  | nil => simp [spanDigits]
  | cons d cs ih =>
    rw [spanDigits]
    split
    · next hd => simpa [hd] using ih
    · simp

theorem isDigit_of_mem_digitChars {n : Nat} {c : Char} (h : c ∈ digitChars n) :
    c.isDigit = true :=
  Nat.isDigit_of_mem_toDigits (by decide) (by decide) h

theorem digitChars_ne_nil (n : Nat) : digitChars n ≠ [] :=
  Nat.toDigits_ne_nil

theorem digitChar_eq_zero : ∀ d < 10, Nat.digitChar d = '0' → d = 0 := by
  decide

theorem head_digitChars {n : Nat} {rest : List Char} (h : digitChars n = '0' :: rest) :
    n = 0 := by
  induction n using Nat.strongRecOn generalizing rest with
  | ind n ih =>
    rw [digitChars, Nat.toDigits_eq_if (by decide)] at h
    split at h
    · next hlt => exact digitChar_eq_zero n hlt (List.cons.inj h).1
    · next hge =>
      cases hdiv : digitChars (n / 10) with
      | nil => exact absurd hdiv (digitChars_ne_nil _)
      | cons c cs =>
        have hhead : c = '0' := by
          rw [digitChars] at hdiv
          rw [hdiv] at h
          exact (List.cons.inj h).1
        have hzero := ih (n / 10) (by omega) (hhead ▸ hdiv)
        omega

theorem ofDigits_eq (ds : List Char) : ofDigits ds = Nat.ofDigitChars 10 ds 0 :=
  Nat.ofDigitChars_eq_foldl.symm

theorem ofDigits_digitChars (n : Nat) : ofDigits (digitChars n) = n := by
  rw [ofDigits_eq]
  exact Nat.ofDigitChars_ten_toDigits

theorem ofDigits_lt {ds : List Char} (hds : ∀ c ∈ ds, c.isDigit = true) :
    ofDigits ds < 10 ^ ds.length := by
  rw [ofDigits_eq]
  induction ds with
  | nil => simp
  | cons d ds ih =>
    have htail := ih fun c hc => hds c (List.mem_cons_of_mem d hc)
    have hdigit : d.toNat - '0'.toNat ≤ 9 := by
      have hd := hds d List.mem_cons_self
      simp only [Char.isDigit, Bool.and_eq_true, decide_eq_true_eq] at hd
      have := UInt32.le_iff_toNat_le.mp hd.2
      simp at this ⊢
      omega
    rw [Nat.ofDigitChars_cons, Nat.ofDigitChars_eq_ofDigitChars_zero]
    calc 10 ^ ds.length * (10 * 0 + (d.toNat - '0'.toNat)) + Nat.ofDigitChars 10 ds 0
        < 10 ^ ds.length * 9 + 10 ^ ds.length :=
          Nat.add_lt_add_of_le_of_lt (Nat.mul_le_mul_left _ (by omega)) htail
      _ = 10 ^ (d :: ds).length := by rw [List.length_cons, pow_succ]; ring

/-- The integer has no more digits than a text may give one. -/
def IsShort (n : Int) : Prop :=
  (digitChars n.natAbs).length ≤ integerDigitLimit

instance : DecidablePred IsShort :=
  fun n => inferInstanceAs (Decidable ((digitChars n.natAbs).length ≤ integerDigitLimit))

theorem isShort_iff {n : Int} : IsShort n ↔ n.natAbs < 10 ^ integerDigitLimit :=
  Nat.length_toDigits_le_iff (by decide) (by decide)

theorem hasText_iff {n : Int} : hasText n = true ↔ IsShort n :=
  decide_eq_true_iff

theorem IsShort.neg {n : Int} (h : IsShort n) : IsShort (-n) := by
  rwa [IsShort, Int.natAbs_neg]

theorem isShort_ofDigits {ds : List Char} (hds : ∀ c ∈ ds, c.isDigit = true)
    (hlength : ds.length ≤ integerDigitLimit) : IsShort (ofDigits ds) := by
  rw [isShort_iff, Int.natAbs_natCast]
  exact (ofDigits_lt hds).trans_le (Nat.pow_le_pow_right (by decide) hlength)

/-- A floating-point number has fewer binary digits than a text may give decimal ones. -/
theorem Reading.size_lt {x : Float} {b : Binary} (h : Reading.ofFloat x = .finite b) :
    b.mantissa * 2 ^ b.exponent.toNat < 2 ^ integerDigitLimit := by
  have hbits : b.mantissa < 2 ^ 53 ∧ b.exponent ≤ 971 := by
    simp only [Reading.ofFloat, Nat.pow_eq] at h
    split at h
    · split at h
      · cases h
      · cases h
    · next hspecial =>
      simp only [beq_iff_eq] at hspecial
      split at h
      · cases h
        exact ⟨by dsimp only; omega, by dsimp only; omega⟩
      · cases h
        exact ⟨by dsimp only; omega, by dsimp only; omega⟩
  have hexponent : 53 + b.exponent.toNat ≤ integerDigitLimit := by
    rw [integerDigitLimit]
    omega
  calc b.mantissa * 2 ^ b.exponent.toNat
      < 2 ^ 53 * 2 ^ b.exponent.toNat :=
        Nat.mul_lt_mul_of_pos_right hbits.1 (Nat.two_pow_pos _)
    _ = 2 ^ (53 + b.exponent.toNat) := (pow_add 2 53 _).symm
    _ ≤ 2 ^ integerDigitLimit := Nat.pow_le_pow_right (by decide) hexponent

theorem Binary.natAbs_truncate_le (b : Binary) :
    b.truncate.natAbs ≤ b.mantissa * 2 ^ b.exponent.toNat := by
  have hsize : b.numerator.natAbs = b.mantissa * 2 ^ b.exponent.toNat := by
    simp only [Binary.numerator]
    split
    · exact Int.natAbs_neg _
    · rfl
  rw [Binary.truncate, Int.natAbs_tdiv, ← hsize]
  exact Nat.div_le_self _ _

theorem isShort_of_whole? {x : Float} {n : Int} (h : whole? x = some n) : IsShort n := by
  rw [whole?] at h
  split at h
  · next b hb =>
    split at h
    · cases h
      rw [isShort_iff]
      calc b.truncate.natAbs
          ≤ b.mantissa * 2 ^ b.exponent.toNat := b.natAbs_truncate_le
        _ < 2 ^ integerDigitLimit := Reading.size_lt hb
        _ ≤ 10 ^ integerDigitLimit := Nat.pow_le_pow_left (by decide) _
    · cases h
  · cases h

end Circulation.Decimal
