import Circulation.Decimal.Reading
import Circulation.Fault

/-!
The text form of data, read. The grammar is strict JSON with the additional words `NaN`,
`Infinity` and `-Infinity`. A number with a point or an exponent is a floating-point number, any
other number an integer of any size up to a limit of digits. Of two members of one name the later
value counts, at the place of the earlier one.
-/

namespace Circulation.Json

def isSpace (c : Char) : Bool :=
  c == ' ' || c == '\t' || c == '\n' || c == '\r'

def skipSpace (cs : List Char) : List Char :=
  cs.dropWhile isSpace

def hexValue? (c : Char) : Option Nat :=
  if '0' ≤ c && c ≤ '9' then some (c.toNat - 48)
  else if 'a' ≤ c && c ≤ 'f' then some (c.toNat - 87)
  else if 'A' ≤ c && c ≤ 'F' then some (c.toNat - 55)
  else none

def unit? (a b c d : Char) : Option Nat := do
  return 4096 * (← hexValue? a) + 256 * (← hexValue? b) + 16 * (← hexValue? c) + (← hexValue? d)

def isHighHalf (n : Nat) : Bool := 0xD800 ≤ n && n < 0xDC00

def isLowHalf (n : Nat) : Bool := 0xDC00 ≤ n && n < 0xE000

def pointOfUnit (n : Nat) : CodePoint :=
  if isHighHalf n || isLowHalf n then .half n else .char (Char.ofNat n)

/-- The text of code units; two halves in a row make one character. -/
def joinHalves : List Nat → List CodePoint
  | [] => []
  | [n] => [pointOfUnit n]
  | n :: m :: rest =>
    if isHighHalf n && isLowHalf m then
      .char (Char.ofNat (0x10000 + 0x400 * (n - 0xD800) + (m - 0xDC00))) :: joinHalves rest
    else pointOfUnit n :: joinHalves (m :: rest)

def shortEscape? : Char → Option Char
  | '"' => some '"'
  | '\\' => some '\\'
  | '/' => some '/'
  | 'b' => some '\x08'
  | 'f' => some '\x0c'
  | 'n' => some '\n'
  | 'r' => some '\r'
  | 't' => some '\t'
  | _ => none

def stringRest : List Char → Option (List Nat × List Char)
  | [] => none
  | '"' :: rest => some ([], rest)
  | '\\' :: 'u' :: a :: b :: c :: d :: rest => do
    let n ← unit? a b c d
    let (ns, rest) ← stringRest rest
    return (n :: ns, rest)
  | '\\' :: c :: rest => do
    let c ← shortEscape? c
    let (ns, rest) ← stringRest rest
    return (c.toNat :: ns, rest)
  | c :: rest =>
    if c.toNat < 0x20 || c == '\\' then none
    else do
      let (ns, rest) ← stringRest rest
      return (c.toNat :: ns, rest)

def wholeDigits (cs : List Char) : List Char × List Char :=
  match cs with
  | '0' :: rest => (['0'], rest)
  | _ => Decimal.spanDigits cs

def fractionDigits (cs : List Char) : List Char × List Char :=
  match cs with
  | '.' :: rest =>
    match Decimal.spanDigits rest with
    | ([], _) => ([], cs)
    | (ds, rest) => (ds, rest)
  | _ => ([], cs)

def exponentPart (cs : List Char) : Option Int × List Char :=
  match cs with
  | c :: rest =>
    if c == 'e' || c == 'E' then
      let (negative, digits) := Decimal.takeSign rest
      match Decimal.spanDigits digits with
      | ([], _) => (none, cs)
      | (ds, rest) =>
        (some (if negative then -(Decimal.ofDigits ds : Int) else Decimal.ofDigits ds), rest)
    else (none, cs)
  | [] => (none, cs)

def unsignedNumber (negative : Bool) (cs : List Char) : Except Fault (Value × List Char) :=
  match wholeDigits cs with
  | ([], _) => .error .notJson
  | (whole, rest) =>
    let (fraction, rest) := fractionDigits rest
    let (exponent, rest) := exponentPart rest
    if fraction.isEmpty && exponent.isNone then
      if Decimal.integerDigitLimit < whole.length then .error .badValue
      else
        let n : Int := Decimal.ofDigits whole
        .ok (.int (if negative then -n else n), rest)
    else
      let x := Decimal.nearest (Decimal.ofDigits (whole ++ fraction))
        (exponent.getD 0 - fraction.length)
      .ok (.float (if negative then -x else x), rest)

def word? : List Char → Option (Value × List Char)
  | 'n' :: 'u' :: 'l' :: 'l' :: rest => some (.null, rest)
  | 't' :: 'r' :: 'u' :: 'e' :: rest => some (.bool true, rest)
  | 'f' :: 'a' :: 'l' :: 's' :: 'e' :: rest => some (.bool false, rest)
  | 'N' :: 'a' :: 'N' :: rest => some (.float (0.0 / 0.0), rest)
  | 'I' :: 'n' :: 'f' :: 'i' :: 'n' :: 'i' :: 't' :: 'y' :: rest => some (.float (1.0 / 0.0), rest)
  | '-' :: 'I' :: 'n' :: 'f' :: 'i' :: 'n' :: 'i' :: 't' :: 'y' :: rest =>
    some (.float (-(1.0 / 0.0)), rest)
  | _ => none

def scalar (cs : List Char) : Except Fault (Value × List Char) :=
  match word? cs with
  | some r => .ok r
  | none =>
    match cs with
    | '-' :: rest => unsignedNumber true rest
    | _ => unsignedNumber false cs

def string (cs : List Char) : Except Fault (Text × List Char) :=
  match stringRest cs with
  | some (units, rest) => .ok (⟨joinHalves units⟩, rest)
  | none => .error .notJson

/-- How deep lists and records may nest. It stands for what the interpreter leaves to the reader of
the 1000 calls that it allows within one another, if 13 are under way where a file is read. -/
def levelLimit : Nat := 987

mutual

/-- A value in front of a text, and what follows it. Each step takes up at least one character, so
`fuel` need not exceed the length of the text. A list or a record takes up one of the levels. -/
def value : Nat → Nat → List Char → Except Fault (Value × List Char)
  | 0, _, _ => .error .notJson
  | fuel + 1, levels, cs =>
    match cs with
    | '"' :: rest => do
      let (t, rest) ← string rest
      return (.text t, rest)
    | '[' :: rest =>
      match levels with
      | 0 => .error .tooDeep
      | levels + 1 =>
        match skipSpace rest with
        | ']' :: rest => .ok (.list [], rest)
        | rest => do
          let (vs, rest) ← items fuel levels rest
          return (.list vs, rest)
    | '\x7b' :: rest =>
      match levels with
      | 0 => .error .tooDeep
      | levels + 1 =>
        match skipSpace rest with
        | '\x7d' :: rest => .ok (.record [], rest)
        | rest => do
          let (ms, rest) ← members fuel levels [] rest
          return (.record ms, rest)
    | _ => scalar cs

def items : Nat → Nat → List Char → Except Fault (List Value × List Char)
  | 0, _, _ => .error .notJson
  | fuel + 1, levels, cs => do
    let (v, rest) ← value fuel levels cs
    match skipSpace rest with
    | ',' :: rest =>
      let (vs, rest) ← items fuel levels (skipSpace rest)
      return (v :: vs, rest)
    | ']' :: rest => return ([v], rest)
    | _ => throw .notJson

def members : Nat → Nat → List (Text × Value) → List Char →
    Except Fault (List (Text × Value) × List Char)
  | 0, _, _, _ => .error .notJson
  | fuel + 1, levels, before, cs =>
    match cs with
    | '"' :: rest => do
      let (name, rest) ← string rest
      match skipSpace rest with
      | ':' :: rest =>
        let (v, rest) ← value fuel levels (skipSpace rest)
        let now := setMember before name v
        match skipSpace rest with
        | ',' :: rest => members fuel levels now (skipSpace rest)
        | '\x7d' :: rest => return (now, rest)
        | _ => throw .notJson
      | _ => throw .notJson
    | _ => .error .notJson

end

def read (s : String) : Except Fault Value := do
  let cs := skipSpace s.toList
  let (v, rest) ← value (cs.length + 1) levelLimit cs
  if (skipSpace rest).isEmpty then return v else throw .notJson

def readBytes (bytes : ByteArray) : Except Fault Value :=
  match String.fromUTF8? bytes with
  | some s => read s
  | none => .error .notUtf8

end Circulation.Json
