import Circulation.Fault

/-!
The text form of data, written: one item to a line, indented by two blanks for each level, with all
characters outside printable ASCII escaped.
-/

namespace Circulation.Json

def unitEscape (n : Nat) : List Char :=
  ['\\', 'u'] ++ Text.hexChars 4 n

/-- A character inside a string. One above the basic plane is written as its two halves. -/
def escapedChar (c : Char) : List Char :=
  if c == '"' || c == '\\' then ['\\', c]
  else if c == '\n' then ['\\', 'n']
  else if c == '\r' then ['\\', 'r']
  else if c == '\t' then ['\\', 't']
  else if c == '\x08' then ['\\', 'b']
  else if c == '\x0c' then ['\\', 'f']
  else if 0x20 ≤ c.toNat && c.toNat < 0x7f then [c]
  else if c.toNat < 0x10000 then unitEscape c.toNat
  else
    unitEscape (0xD800 + (c.toNat - 0x10000) / 0x400) ++
      unitEscape (0xDC00 + (c.toNat - 0x10000) % 0x400)

def escapedPoint : CodePoint → List Char
  | .char c => escapedChar c
  | .half unit => unitEscape unit

def stringChars (t : Text) : List Char :=
  '"' :: t.points.flatMap escapedPoint ++ ['"']

def intChars (n : Int) : List Char :=
  if n < 0 then '-' :: Decimal.digitChars n.natAbs else Decimal.digitChars n.natAbs

def floatChars (x : Float) : List Char :=
  if x.isNaN then "NaN".toList
  else if x.isInf then (if x < 0.0 then "-Infinity" else "Infinity").toList
  else (Decimal.text x).toList

def newline (level : Nat) : List Char :=
  '\n' :: List.replicate (2 * level) ' '

mutual

/-- A value at a level. Arcs and sites are written as the lists of their members. -/
def chars (level : Nat) : Value → List Char
  | .null => "null".toList
  | .bool b => (if b then "true" else "false").toList
  | .int n => intChars n
  | .float x => floatChars x
  | .text t => stringChars t
  | .list [] => ['[', ']']
  | .list (v :: vs) =>
    '[' :: newline (level + 1) ++ chars (level + 1) v ++ itemChars (level + 1) vs ++
      newline level ++ [']']
  | .record [] => ['\x7b', '\x7d']
  | .record ((name, v) :: ms) =>
    '\x7b' :: newline (level + 1) ++ stringChars name ++ [':', ' '] ++ chars (level + 1) v ++
      memberChars (level + 1) ms ++ newline level ++ ['\x7d']
  | .arc a =>
    '[' :: newline (level + 1) ++ intChars a.tail ++
      ([a.head, a.capacity, a.cost].flatMap fun n => ',' :: newline (level + 1) ++ intChars n) ++
      newline level ++ [']']
  | .site _ s =>
    '[' :: newline (level + 1) ++ floatChars s.x ++
      ([s.y, s.weight].flatMap fun x => ',' :: newline (level + 1) ++ floatChars x) ++
      newline level ++ [']']

def itemChars (level : Nat) : List Value → List Char
  | [] => []
  | v :: vs => ',' :: newline level ++ chars level v ++ itemChars level vs

def memberChars (level : Nat) : List (Text × Value) → List Char
  | [] => []
  | (name, v) :: ms =>
    ',' :: newline level ++ stringChars name ++ [':', ' '] ++ chars level v ++ memberChars level ms

end

mutual

/-- Why a value cannot be written, by the first part of it that a file cannot say: an integer with
too many digits for a text, or an arc or a site as such. -/
def flaw? : Value → Option Fault
  | .int n => if Decimal.hasText n then none else some .badValue
  | .list items => itemsFlaw? items
  | .record members => membersFlaw? members
  | .arc _ => some .wrongKind
  | .site _ _ => some .wrongKind
  | _ => none

def itemsFlaw? : List Value → Option Fault
  | [] => none
  | v :: vs => (flaw? v).orElse fun _ => itemsFlaw? vs

def membersFlaw? : List (Text × Value) → Option Fault
  | [] => none
  | (_, v) :: ms => (flaw? v).orElse fun _ => membersFlaw? ms

end

def write (v : Value) : String :=
  String.ofList (chars 0 v)

def save (v : Value) : Except Fault String :=
  match flaw? v with
  | none => .ok (write v)
  | some fault => .error fault

end Circulation.Json
