import Circulation.Proofs.ReadingBack
import Circulation.Proofs.Seeding

/-!
The integers of data that is read from a text. Main result: none has more digits than a text may
give one, since the reader refuses a number with more. Values, items and members are read by each
other, so one induction on the fuel carries the three.
-/

namespace Circulation

/-- Data as a text gives it, with integers of no more digits than a text may give one. -/
inductive Value.IsShort : Value → Prop
  | null : IsShort .null
  | bool (b : Bool) : IsShort (.bool b)
  | int {n : Int} (h : Decimal.IsShort n) : IsShort (.int n)
  | float (x : Float) : IsShort (.float x)
  | text (t : Text) : IsShort (.text t)
  | list {vs : List Value} (h : ∀ v ∈ vs, IsShort v) : IsShort (.list vs)
  | record {ms : List (Text × Value)} (h : ∀ m ∈ ms, IsShort m.2) : IsShort (.record ms)

namespace Json

theorem itemsFlaw?_eq_none {vs : List Value} (h : ∀ v ∈ vs, flaw? v = none) :
    itemsFlaw? vs = none := by
  induction vs with
  | nil => rfl
  | cons v vs ih =>
    rw [itemsFlaw?, h v List.mem_cons_self]
    exact ih fun w hw => h w (List.mem_cons_of_mem v hw)

theorem membersFlaw?_eq_none {ms : List (Text × Value)} (h : ∀ m ∈ ms, flaw? m.2 = none) :
    membersFlaw? ms = none := by
  induction ms with
  | nil => rfl
  | cons m ms ih =>
    rw [membersFlaw?, h m List.mem_cons_self]
    exact ih fun m' hm => h m' (List.mem_cons_of_mem m hm)

theorem flaw?_eq_none {v : Value} (h : v.IsShort) : flaw? v = none := by
  induction h with
  | int hn => rw [flaw?, if_pos (Decimal.hasText_iff.mpr hn)]
  | list _ ih => rw [flaw?, itemsFlaw?_eq_none ih]
  | record _ ih => rw [flaw?, membersFlaw?_eq_none ih]
  | _ => rfl

theorem isDigit_of_mem_wholeDigits (cs : List Char) :
    ∀ c ∈ (wholeDigits cs).1, c.isDigit = true := by
  unfold wholeDigits
  split
  · simp
  · exact Decimal.isDigit_of_mem_spanDigits cs

theorem isShort_unsignedNumber {negative : Bool} {cs rest : List Char} {v : Value}
    (h : unsignedNumber negative cs = .ok (v, rest)) : v.IsShort := by
  have hwhole := isDigit_of_mem_wholeDigits cs
  unfold unsignedNumber at h
  split at h
  · cases h
  · next whole rest' _ heq =>
    rw [heq] at hwhole
    dsimp only at h hwhole
    split at h
    · split at h
      · cases h
      · next hlimit =>
        cases h
        have hshort := Decimal.isShort_ofDigits hwhole (by omega)
        cases negative with
        | true => exact .int hshort.neg
        | false => exact .int hshort
    · cases h
      exact .float _

theorem isShort_word? {cs rest : List Char} {v : Value} (h : word? cs = some (v, rest)) :
    v.IsShort := by
  unfold word? at h
  split at h
  · cases h; exact .null
  · cases h; exact .bool true
  · cases h; exact .bool false
  · cases h; exact .float _
  · cases h; exact .float _
  · cases h; exact .float _
  · cases h

theorem isShort_scalar {cs rest : List Char} {v : Value} (h : scalar cs = .ok (v, rest)) :
    v.IsShort := by
  unfold scalar at h
  split at h
  · next r hword =>
    cases h
    exact isShort_word? hword
  · split at h
    · exact isShort_unsignedNumber h
    · exact isShort_unsignedNumber h

theorem isShort_setMember {ms : List (Text × Value)} (hms : ∀ m ∈ ms, m.2.IsShort) (name : Text)
    {v : Value} (hv : v.IsShort) : ∀ m ∈ setMember ms name v, m.2.IsShort := by
  intro m hm
  unfold setMember at hm
  split at hm
  · obtain ⟨m', hm', rfl⟩ := List.mem_map.mp hm
    split
    · exact hv
    · exact hms m' hm'
  · rcases List.mem_append.mp hm with hm | hm
    · exact hms m hm
    · cases List.mem_singleton.mp hm
      exact hv

/-- What is read with some fuel is short. -/
structure ReadsShort (fuel : Nat) : Prop where
  value : ∀ {levels cs v rest}, value fuel levels cs = .ok (v, rest) → v.IsShort
  items : ∀ {levels cs vs rest}, items fuel levels cs = .ok (vs, rest) → ∀ v ∈ vs, v.IsShort
  members : ∀ {levels before cs ms rest}, (∀ m ∈ before, m.2.IsShort) →
    members fuel levels before cs = .ok (ms, rest) → ∀ m ∈ ms, m.2.IsShort

namespace ReadsShort

variable {fuel levels : Nat} {cs rest : List Char}

theorem value_succ (h : ReadsShort fuel) {v : Value}
    (hv : Json.value (fuel + 1) levels cs = .ok (v, rest)) : v.IsShort := by
  unfold Json.value at hv
  split at hv
  · obtain ⟨⟨t, _⟩, -, hv⟩ := bind_eq_ok_iff.mp hv
    cases hv
    exact .text t
  · split at hv
    · cases hv
    · split at hv
      · cases hv
        exact .list (by simp)
      · obtain ⟨⟨vs, _⟩, hvs, hv⟩ := bind_eq_ok_iff.mp hv
        cases hv
        exact .list (h.items hvs)
  · split at hv
    · cases hv
    · split at hv
      · cases hv
        exact .record (by simp)
      · obtain ⟨⟨ms, _⟩, hms, hv⟩ := bind_eq_ok_iff.mp hv
        cases hv
        exact .record (h.members (by simp) hms)
  · exact isShort_scalar hv

theorem items_succ (h : ReadsShort fuel) {vs : List Value}
    (hvs : Json.items (fuel + 1) levels cs = .ok (vs, rest)) : ∀ v ∈ vs, v.IsShort := by
  rw [Json.items] at hvs
  obtain ⟨⟨v, cs'⟩, hv, hvs⟩ := bind_eq_ok_iff.mp hvs
  dsimp only at hvs
  split at hvs
  · obtain ⟨⟨ws, _⟩, hws, hvs⟩ := bind_eq_ok_iff.mp hvs
    cases hvs
    exact List.forall_mem_cons.mpr ⟨h.value hv, h.items hws⟩
  · cases hvs
    exact List.forall_mem_cons.mpr ⟨h.value hv, by simp⟩
  · cases hvs

theorem members_succ (h : ReadsShort fuel) {before ms : List (Text × Value)}
    (hbefore : ∀ m ∈ before, m.2.IsShort)
    (hms : Json.members (fuel + 1) levels before cs = .ok (ms, rest)) : ∀ m ∈ ms, m.2.IsShort := by
  unfold Json.members at hms
  split at hms
  · obtain ⟨⟨name, _⟩, -, hms⟩ := bind_eq_ok_iff.mp hms
    dsimp only at hms
    split at hms
    · obtain ⟨⟨v, _⟩, hv, hms⟩ := bind_eq_ok_iff.mp hms
      have hnow := isShort_setMember hbefore name (h.value hv)
      dsimp only at hms
      split at hms
      · exact h.members hnow hms
      · cases hms
        exact hnow
      · cases hms
    · cases hms
  · cases hms

end ReadsShort

theorem readsShort (fuel : Nat) : ReadsShort fuel := by
  induction fuel with
  | zero =>
    constructor
    case value => rintro _ _ _ _ ⟨⟩
    case items => rintro _ _ _ _ ⟨⟩
    case members => rintro _ _ _ _ _ _ ⟨⟩
  | succ fuel ih => exact ⟨ih.value_succ, ih.items_succ, ih.members_succ⟩

theorem isShort_readBytes {bytes : ByteArray} {v : Value} (h : readBytes bytes = .ok v) :
    v.IsShort := by
  unfold readBytes at h
  split at h
  · obtain ⟨⟨w, rest⟩, hw, h⟩ := bind_eq_ok_iff.mp h
    dsimp only at h
    split at h
    · cases h
      exact (readsShort _).value hw
    · cases h
  · cases h

end Json

end Circulation
