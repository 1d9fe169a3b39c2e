import Circulation.Proofs.Assignment.Posing
import Circulation.Proofs.Floating.Integers
import Circulation.Proofs.ShortData

/-!
How points and centers are read from data. Each item is read by itself, and the first one that is
refused ends the reading. Main result: what is read has finite members only, and an item is refused
as a bad item, but for two cases: a coordinate may be an integer beyond floating point, and the
refusal may have to show an integer of too many digits.
-/

namespace Circulation

open Floating (overflow Fits)

theorem Floating.Fits.isShort {n : Int} (h : Fits n) : Decimal.IsShort n := by
  have hle : overflow ≤ 10 ^ Decimal.integerDigitLimit := by decide +kernel
  rw [Decimal.isShort_iff]
  exact lt_of_lt_of_le h hle

namespace Value

@[simp] theorem mem_itemIntegers {n : Int} {vs : List Value} :
    n ∈ itemIntegers vs ↔ ∃ v ∈ vs, n ∈ v.integers := by
  induction vs with
  | nil => simp [itemIntegers]
  | cons v vs ih => simp [itemIntegers, ih]

@[simp] theorem mem_memberIntegers {n : Int} {ms : List (Text × Value)} :
    n ∈ memberIntegers ms ↔ ∃ m ∈ ms, n ∈ m.2.integers := by
  induction ms with
  | nil => simp [memberIntegers]
  | cons m ms ih => simp [memberIntegers, ih]

theorem mem_memberIntegers_of_member? {n : Int} {ms : List (Text × Value)} {name : Text}
    (h : member? ms name = some (.int n)) : n ∈ memberIntegers ms := by
  obtain ⟨m, hm, heq⟩ := Option.map_eq_some_iff.mp h
  refine mem_memberIntegers.mpr ⟨m, List.mem_of_find?_eq_some hm, ?_⟩
  rw [heq]
  exact List.mem_singleton_self n

theorem mem_integers_of_items? {n : Int} {v : Value} {us : List Value} (h : v.items? = some us)
    (hmem : .int n ∈ us) : n ∈ v.integers := by
  cases v with
  | list items =>
    obtain rfl := Option.some.inj h
    exact mem_itemIntegers.mpr ⟨.int n, hmem, List.mem_singleton_self n⟩
  | text t =>
    obtain rfl := Option.some.inj h
    simp at hmem
  | record members =>
    obtain rfl := Option.some.inj h
    simp at hmem
  | _ => cases h

theorem IsShort.integers {v : Value} (h : v.IsShort) : ∀ n ∈ v.integers, Decimal.IsShort n := by
  induction h with
  | int hn => simpa [Value.integers] using hn
  | list hvs ih => simpa [Value.integers] using fun n v hv => ih v hv n
  | record hms ih => simpa [Value.integers] using fun n name v hv => ih (name, v) hv n
  | _ => simp [Value.integers]

theorem toFloat_int (n : Int) :
    toFloat (.int n) = if Fits n then .ok (Float.ofInt n) else .error .tooLarge := by
  rw [toFloat, Floating.ofInt?_eq]
  split <;> rfl

theorem toFloat_eq_tooLarge {v : Value} (h : v.toFloat = .error .tooLarge) :
    ∃ n, v = .int n ∧ ¬ Fits n := by
  cases v with
  | int n =>
    refine ⟨n, rfl, fun hfits => ?_⟩
    rw [toFloat_int, if_pos hfits] at h
    cases h
  | text t =>
    rw [toFloat] at h
    cases ht : t.toString?.bind Decimal.ofText? <;> rw [ht] at h <;> cases h
  | _ => cases h

end Value

namespace Site

variable {role : Role} {v item : Value} {fault : Fault}

/-- The values that an item has for the coordinates and for the weight, in the order in which they
are read. -/
def coordinates? (role : Role) (v : Value) : Option (List Value) :=
  match v with
  | .record members =>
    match member? members "x", member? members "y" with
    | some x, some y => some [x, y, (member? members "weight").getD (.float role.defaultWeight)]
    | _, _ => none
  | v =>
    match v.items? with
    | some [x, y] => some [x, y, .float role.defaultWeight]
    | some [x, y, w] => some [x, y, w]
    | _ => none

/-- How an item is refused: as a bad item, for an integer beyond floating point that is met before
anything else is wrong, or for an integer of so many digits that the refusal cannot show the
item. -/
inductive Refused (role : Role) (v : Value) : Fault → Prop
  | problem (fault : Fault) (h : fault.category = .problem) : Refused role v fault
  | tooLarge (front : List Value) (n : Int) (back : List Value)
      (hcoordinates : coordinates? role v = some (front ++ .int n :: back))
      (hfront : ∀ u ∈ front, ∃ x, u.toFloat = .ok x) (hlarge : ¬ Fits n) : Refused role v .tooLarge
  | unshown (n : Int) (hmem : n ∈ v.integers) (hlong : ¬ Decimal.IsShort n) :
      Refused role v .badValue

theorem refused_raised {refused : Fault}
    (h : refused = .siteNotNumeric role v ∨ refused = .siteWrongLength role v) :
    Refused role v refused.raised := by
  obtain ⟨hcategory, hbounds, hintegers⟩ : refused.category = .problem ∧
      refused.shownBounds = [] ∧ refused.shownIntegers = v.integers := by
    rcases h with rfl | rfl
    · exact ⟨rfl, rfl, rfl⟩
    · exact ⟨rfl, rfl, rfl⟩
  rcases Fault.raised_cases hbounds with hraised | ⟨hraised, n, hmem, hlong⟩
  · rw [hraised]
    exact .problem refused hcategory
  · rw [hraised]
    rw [hintegers] at hmem
    exact .unshown n hmem (Decimal.hasText_iff.not.mp hlong)

theorem coordinate_eq_ok_iff {x : Float} :
    coordinate role item v = .ok x ↔ v.toFloat = .ok x := by
  unfold coordinate
  split <;> simp [*]

theorem coordinate_eq_error (h : coordinate role item v = .error fault) :
    (fault = .tooLarge ∧ ∃ n, v = .int n ∧ ¬ Fits n) ∨
      fault = (Fault.siteNotNumeric role item).raised := by
  unfold coordinate at h
  split at h
  · cases h
  next hlarge =>
    cases h
    exact .inl ⟨rfl, Value.toFloat_eq_tooLarge hlarge⟩
  next =>
    cases h
    exact .inr rfl

/-- The coordinates and the weight are read one after the other. -/
theorem ofMembers_eq_error_iff {x y w : Value} :
    ofMembers role item x y w = .error fault ↔
      [x, y, w].mapM (coordinate role item) = .error fault := by
  simp only [ofMembers, List.mapM_cons, List.mapM_nil]
  cases coordinate role item x <;> cases coordinate role item y <;>
    cases coordinate role item w <;> simp [bind, Except.bind, pure, Except.pure]

theorem ofParts_cases (role : Role) (v : Value) :
    (∃ x y w, coordinates? role v = some [x, y, w] ∧ ofParts role v = ofMembers role v x y w) ∨
      coordinates? role v = none ∧ ∃ refused : Fault,
        (refused = .siteNotNumeric role v ∨ refused = .siteWrongLength role v) ∧
          ofParts role v = .error refused.raised := by
  cases v with
  | record members =>
    simp only [coordinates?, ofParts]
    cases member? members "x" with
    | none => exact .inr ⟨rfl, .siteNotNumeric role _, .inl rfl, rfl⟩
    | some x =>
      cases member? members "y" with
      | none => exact .inr ⟨rfl, .siteNotNumeric role _, .inl rfl, rfl⟩
      | some y => exact .inl ⟨x, y, _, rfl, rfl⟩
  | _ =>
    -- whatever else it is, only its items matter, two or three of them
    simp only [coordinates?, ofParts]
    generalize Value.items? _ = items
    obtain _ | _ | ⟨x, _ | ⟨y, _ | ⟨w, _ | ⟨z, rest⟩⟩⟩⟩ := items
    · exact .inr ⟨rfl, .siteNotNumeric role _, .inl rfl, rfl⟩
    · exact .inr ⟨rfl, .siteWrongLength role _, .inr rfl, rfl⟩
    · exact .inr ⟨rfl, .siteWrongLength role _, .inr rfl, rfl⟩
    · exact .inl ⟨x, y, _, rfl, rfl⟩
    · exact .inl ⟨x, y, w, rfl, rfl⟩
    · exact .inr ⟨rfl, .siteWrongLength role _, .inr rfl, rfl⟩

theorem refused_of_ofParts (h : ofParts role v = .error fault) : Refused role v fault := by
  obtain ⟨x, y, w, hcoordinates, heq⟩ | ⟨-, refused, hrefused, heq⟩ := ofParts_cases role v
  · rw [heq, ofMembers_eq_error_iff, mapM_eq_error_iff] at h
    obtain ⟨front, u, back, hsplit, hfront, hu⟩ := h
    obtain ⟨rfl, n, rfl, hlarge⟩ | rfl := coordinate_eq_error hu
    · exact .tooLarge front n back (hsplit ▸ hcoordinates)
        (fun u hu => (hfront u hu).imp fun _ => coordinate_eq_ok_iff.mp) hlarge
    · exact refused_raised (.inl rfl)
  · obtain rfl := Except.error.inj (h.symm.trans heq)
    exact refused_raised hrefused

theorem refused_of_checked {s : Site} (h : checked role s = .error fault) :
    Refused role v fault := by
  unfold checked at h
  split at h
  · cases h
  · cases h
    exact .problem _ rfl

theorem isFinite_of_checked {s s' : Site} (h : checked role s = .ok s') : s'.isFinite = true := by
  unfold checked at h
  split at h
  next hfinite =>
    cases h
    exact hfinite
  next => cases h

theorem ofValue_cases (role : Role) (v : Value) :
    (∃ r s, v = .site r s ∧
      ofValue role v = if r = role then checked role s else .error (.siteNotNumeric role v)) ∨
      ofValue role v = ofParts role v >>= checked role := by
  cases v with
  | site r s => exact .inl ⟨r, s, rfl, rfl⟩
  | _ => exact .inr rfl

theorem refused_of_ofValue (h : ofValue role v = .error fault) : Refused role v fault := by
  obtain ⟨r, s, -, heq⟩ | heq := ofValue_cases role v
  · rw [heq] at h
    split at h
    · exact refused_of_checked h
    · cases h
      exact .problem _ rfl
  · rw [heq] at h
    obtain hparts | ⟨s, -, hchecked⟩ := bind_eq_error_iff.mp h
    · exact refused_of_ofParts hparts
    · exact refused_of_checked hchecked

theorem isFinite_of_ofValue {s : Site} (h : ofValue role v = .ok s) : s.isFinite = true := by
  obtain ⟨r, s', -, heq⟩ | heq := ofValue_cases role v
  · rw [heq] at h
    split at h
    · exact isFinite_of_checked h
    · cases h
  · rw [heq] at h
    obtain ⟨s', -, hchecked⟩ := bind_eq_ok_iff.mp h
    exact isFinite_of_checked hchecked

theorem ofValue_eq_tooLarge {front back : List Value} {n : Int}
    (hcoordinates : coordinates? role v = some (front ++ .int n :: back))
    (hfront : ∀ u ∈ front, ∃ x, u.toFloat = .ok x) (hlarge : ¬ Fits n) :
    ofValue role v = .error .tooLarge := by
  have hparts : ofParts role v = .error .tooLarge := by
    obtain ⟨x, y, w, hread, heq⟩ | ⟨hnone, -⟩ := ofParts_cases role v
    · rw [heq, ofMembers_eq_error_iff, mapM_eq_error_iff]
      refine ⟨front, .int n, back, Option.some.inj (hread.symm.trans hcoordinates), fun u hu =>
        (hfront u hu).imp fun _ => coordinate_eq_ok_iff.mpr, ?_⟩
      rw [coordinate, Value.toFloat_int, if_neg hlarge]
    · rw [hnone] at hcoordinates
      cases hcoordinates
  obtain ⟨r, s, rfl, -⟩ | heq := ofValue_cases role v
  · cases hcoordinates
  · rw [heq, hparts]
    rfl

theorem mem_integers_of_coordinates? {us : List Value} (h : coordinates? role v = some us) {n : Int}
    (hmem : .int n ∈ us) : n ∈ v.integers := by
  unfold coordinates? at h
  split at h
  next members =>
    split at h
    next x y hx hy =>
      obtain rfl := Option.some.inj h
      simp only [List.mem_cons, List.not_mem_nil, or_false] at hmem
      obtain rfl | rfl | hweight := hmem
      · exact Value.mem_memberIntegers_of_member? hx
      · exact Value.mem_memberIntegers_of_member? hy
      · cases hw : member? members "weight" with
        | none =>
          rw [hw] at hweight
          cases hweight
        | some w =>
          rw [hw] at hweight
          obtain rfl : Value.int n = w := hweight
          exact Value.mem_memberIntegers_of_member? hw
    next => cases h
  next =>
    split at h
    next x y hitems =>
      obtain rfl := Option.some.inj h
      exact Value.mem_integers_of_items? hitems (by simpa using hmem)
    next x y w hitems =>
      obtain rfl := Option.some.inj h
      exact Value.mem_integers_of_items? hitems hmem
    next => cases h

theorem Refused.category_eq (h : Refused role v fault) (hfits : ∀ n ∈ v.integers, Fits n) :
    fault.category = .problem := by
  cases h with
  | problem fault h => exact h
  | tooLarge front n back hcoordinates hfront hlarge =>
    exact absurd (hfits n (mem_integers_of_coordinates? hcoordinates (by simp))) hlarge
  | unshown n hmem hlong => exact absurd (hfits n hmem).isShort hlong

theorem Refused.of_isShort (h : Refused role v fault) (hv : v.IsShort) :
    fault.category = .problem ∨ fault = .tooLarge := by
  cases h with
  | problem fault h => exact .inl h
  | tooLarge front n back hcoordinates hfront hlarge => exact .inr rfl
  | unshown n hmem hlong => exact absurd (hv.integers n hmem) hlong

/-- A list of items is read item by item, to sites of finite members, or the first item that is
refused ends the reading. An item whose integers floating point holds is refused as a bad item. Any
other item is too, unless an integer beyond floating point is one of its coordinates, or it holds an
integer of too many digits, which no text gives. -/
theorem listOfValue_outcome (role : Role) (vs : List Value) :
    ((∃ sites, listOfValue role (.list vs) = .ok sites ∧ sites.length = vs.length ∧
        List.Forall₂ (fun v s => ofValue role v = .ok s ∧ s.isFinite = true) vs sites) ∨
      ∃ before v after fault, vs = before ++ v :: after ∧
        (∀ u ∈ before, ∃ s, ofValue role u = .ok s) ∧ ofValue role v = .error fault ∧
          listOfValue role (.list vs) = .error fault ∧ Refused role v fault ∧
            ((∀ n ∈ v.integers, Fits n) → fault.category = .problem) ∧
              (v.IsShort → fault.category = .problem ∨ fault = .tooLarge)) ∧
      ∀ v front n back, coordinates? role v = some (front ++ .int n :: back) →
        (∀ u ∈ front, ∃ x, u.toFloat = .ok x) → ¬ Fits n → ofValue role v = .error .tooLarge := by
  refine ⟨?_, fun v front n back => ofValue_eq_tooLarge⟩
  have hlist : listOfValue role (.list vs) = vs.mapM (ofValue role) := rfl
  rw [hlist]
  cases hread : vs.mapM (ofValue role) with
  | ok sites =>
    have hitems := forall₂_of_mapM_eq_ok hread
    exact .inl ⟨sites, rfl, hitems.length_eq.symm,
      hitems.imp fun v s hs => ⟨hs, isFinite_of_ofValue hs⟩⟩
  | error fault =>
    obtain ⟨before, v, after, hsplit, hbefore, hv⟩ := mapM_eq_error_iff.mp hread
    have hrefused := refused_of_ofValue hv
    exact .inr ⟨before, v, after, fault, hsplit, hbefore, hv, rfl, hrefused,
      hrefused.category_eq, hrefused.of_isShort⟩

/-- A sequence and a record are read as centers. An item whose second coordinate is beyond floating
point is refused for it, though its weight is no number either. -/
theorem listOfValue_outcome_mixed : ∃ (vs : List Value) (sites : List Site) (v : Value) (n : Int),
    listOfValue .center (.list vs) = .ok sites ∧ vs.length = 2 ∧ sites.length = 2 ∧
      (∀ s ∈ sites, s.isFinite = true) ∧ ¬ Fits n ∧
        coordinates? .center v = some ([.bool true] ++ .int n :: [.null]) ∧
          ofValue .center v = .error .tooLarge := by
  have hread : ∃ sites, listOfValue .center (.list [.list [.float 0.5, .bool true],
      .record [("y", .float 2.0), ("x", .float 1.0)]]) = .ok sites := ⟨_, rfl⟩
  have hlarge : ¬ Fits overflow := (Nat.lt_irrefl overflow ·)
  have hcoordinates (n : Int) : coordinates? .center (.list [.bool true, .int n, .null]) =
    some ([.bool true] ++ .int n :: [.null]) := rfl
  obtain ⟨sites, hsites⟩ := hread
  obtain ⟨houtcome, hbeyond⟩ := listOfValue_outcome .center [.list [.float 0.5, .bool true],
    .record [("y", .float 2.0), ("x", .float 1.0)]]
  obtain ⟨sites', hsites', hlength, hitems⟩ | ⟨_, _, _, _, -, -, -, herror, -⟩ := houtcome
  · refine ⟨_, sites', _, overflow, hsites', rfl, hlength, ?_, hlarge, hcoordinates _, ?_⟩
    · exact ((List.forall₂_and_left _ _).mp (hitems.flip.imp fun _ _ h => ⟨h.2, h.1⟩)).1
    · exact hbeyond _ _ _ _ (hcoordinates _) (by simp [Value.toFloat]) hlarge
  · rw [hsites] at herror
    cases herror

/-- The coordinate `10 ^ 400` is refused, but not as a bad item. -/
theorem listOfValue_beyond_floating : ¬ ∀ (role : Role) (vs : List Value) (fault : Fault),
    listOfValue role (.list vs) = .error fault → fault.category = .problem := by
  intro h
  have hcoordinates (n : Int) : coordinates? .point (.list [.int n, .int 0]) =
    some ([] ++ .int n :: [.int 0, .float Role.point.defaultWeight]) := rfl
  have hlist (n : Int) (hlarge : ¬ Fits n) :
      listOfValue .point (.list [.list [.int n, .int 0]]) = .error .tooLarge :=
    mapM_eq_error_iff.mpr ⟨[], _, [], rfl, by simp,
      ofValue_eq_tooLarge (hcoordinates n) (by simp) hlarge⟩
  have hlarge : ¬ Fits (10 ^ 400 : Nat) := by
    rw [Fits, Int.natAbs_natCast]
    decide +kernel
  exact absurd (h _ _ _ (hlist _ hlarge)) (by decide)

end Site

end Circulation
