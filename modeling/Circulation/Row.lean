import Circulation.Fault

/-!
Rows of values that are read and written place by place. A place is named by its number, or by a
negative number that counts from the end of the row. What a row holds after a write is what it held
before, except at the place written.
-/

namespace Circulation.Row

theorem getD_setIfInBounds {α : Type} (xs : Array α) (i j : Nat) (x standard : α) :
    (xs.setIfInBounds i x).getD j standard =
      if j = i ∧ i < xs.size then x else xs.getD j standard := by
  rw [Array.getD_eq_getD_getElem?, Array.getD_eq_getD_getElem?, Array.getElem?_setIfInBounds]
  by_cases hij : i = j
  · subst hij
    by_cases hi : i < xs.size
    · simp [hi]
    · simp [hi]
  · have hji : ¬ j = i := fun h => hij h.symm
    simp [hij, hji]

/-- The most places that any row has: their addresses, of 8 bytes each, take up no more bytes than
an index can count. -/
def placeLimit : Nat := rangeLimit / 8

/-- Whether a row of some size can be made on a machine that has room for so many places. -/
def checkRoom (room : Nat) (size : Int) : Except Fault Unit :=
  if rangeLimit < size then .error .tooLarge
  else if (min room placeLimit : Nat) < size then .error .outOfMemory
  else .ok ()

theorem checkRoom_eq_ok_iff {room : Nat} {size : Int} :
    checkRoom room size = .ok () ↔ size ≤ (min room placeLimit : Nat) := by
  have hlimit : placeLimit ≤ rangeLimit := Nat.div_le_self rangeLimit 8
  unfold checkRoom
  by_cases hrange : (rangeLimit : Int) < size
  · rw [if_pos hrange]
    exact ⟨nofun, fun hfits => by omega⟩
  · rw [if_neg hrange]
    by_cases hroom : ((min room placeLimit : Nat) : Int) < size
    · rw [if_pos hroom]
      exact ⟨nofun, fun hfits => by omega⟩
    · rw [if_neg hroom]
      exact ⟨fun _ => by omega, fun _ => rfl⟩

def holds (size : Nat) (i : Int) : Bool :=
  -(size : Int) ≤ i && i < size

/-- The place that a number names in a row with `size` places. -/
def place (size : Nat) (i : Int) : Nat :=
  if i < 0 then (i + size).toNat else i.toNat

@[simp] theorem place_natCast (size n : Nat) : place size n = n := by
  have h : ¬ (n : Int) < 0 := by omega
  simp [place, h]

theorem place_of_nonneg {size : Nat} {i : Int} (h : 0 ≤ i) : place size i = i.toNat := by
  have hneg : ¬ i < 0 := by omega
  simp [place, hneg]

theorem place_lt {size : Nat} {i : Int} (h : holds size i) : place size i < size := by
  simp only [holds, Bool.and_eq_true, decide_eq_true_eq] at h
  unfold place
  split <;> omega

def get {α : Type} (xs : Array α) (i : Int) (standard : α) : α :=
  xs.getD (place xs.size i) standard

def put {α : Type} (xs : Array α) (i : Int) (x : α) : Array α :=
  xs.setIfInBounds (place xs.size i) x

@[simp] theorem size_put {α : Type} (xs : Array α) (i : Int) (x : α) :
    (put xs i x).size = xs.size := by
  simp [put]

theorem get_natCast {α : Type} (xs : Array α) (n : Nat) (standard : α) :
    get xs n standard = xs.getD n standard := by
  simp [get]

theorem eq_of_get_eq {α : Type} {xs ys : Array α} {standard : α} (hsize : ys.size = xs.size)
    (h : ∀ i < xs.size, get ys (i : Nat) standard = get xs (i : Nat) standard) : ys = xs := by
  refine Array.ext hsize fun i hi hi' => ?_
  simpa [get_natCast, Array.getD_eq_getD_getElem?, hi, hi'] using h i hi'

theorem get_put {α : Type} (xs : Array α) {i : Int} (h : holds xs.size i) (j : Int)
    (x standard : α) :
    get (put xs i x) j standard =
      if place xs.size j = place xs.size i then x else get xs j standard := by
  unfold get
  rw [size_put]
  unfold put
  rw [getD_setIfInBounds]
  simp [place_lt h]

theorem get_map {α β : Type} (f : α → β) (xs : Array α) (i : Int) (standard : α) :
    get (xs.map f) i (f standard) = f (get xs i standard) := by
  simp only [get, Array.size_map, Array.getD_eq_getD_getElem?, Array.getElem?_map, Option.getD_map]

end Circulation.Row
