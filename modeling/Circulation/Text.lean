/-!
Texts as data holds them. A character above the basic plane may be written as two halves, and data
may hold one half without the other. Such a half is no character, so it has no place in a `String`;
a `Text` keeps it, and keeps two texts apart that differ in their halves only.
-/

namespace Circulation

/-- A member of a text: a character, or a half of one that stands alone. -/
inductive CodePoint where
  | char (c : Char)
  | half (unit : Nat)
deriving DecidableEq, Repr

/-- A text as data holds it. -/
structure Text where
  points : List CodePoint
deriving DecidableEq, Repr

namespace Text

def ofString (s : String) : Text :=
  ⟨s.toList.map .char⟩

instance : Coe String Text := ⟨ofString⟩

instance : Append Text := ⟨fun s t => ⟨s.points ++ t.points⟩⟩

def char? : CodePoint → Option Char
  | .char c => some c
  | .half _ => none

def toString? (t : Text) : Option String :=
  (t.points.mapM char?).map String.ofList

def isEmpty (t : Text) : Bool := t.points.isEmpty

def singles (t : Text) : List Text :=
  t.points.map fun p => ⟨[p]⟩

end Text

end Circulation
