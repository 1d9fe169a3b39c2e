import Circulation.Text
import Circulation.Text.Printable

/-!
Texts as they are quoted in messages. Single quotes stand around the text, double quotes if it
holds a single quote and no double quote. Characters that are not printable and halves of characters
are escaped.
-/

namespace Circulation.Text

/-- The lower-case hexadecimal digits of `n`, at least `width` of them. -/
def hexChars (width n : Nat) : List Char :=
  let digits := Nat.toDigits 16 n
  List.replicate (width - digits.length) '0' ++ digits

def quotedChar (quote c : Char) : List Char :=
  if c == quote || c == '\\' then ['\\', c]
  else if c == '\n' then ['\\', 'n']
  else if c == '\r' then ['\\', 'r']
  else if c == '\t' then ['\\', 't']
  else if isPrintable c then [c]
  else if c.toNat < 0x100 then ['\\', 'x'] ++ hexChars 2 c.toNat
  else if c.toNat < 0x10000 then ['\\', 'u'] ++ hexChars 4 c.toNat
  else ['\\', 'U'] ++ hexChars 8 c.toNat

def quotedPoint (quote : Char) : CodePoint → List Char
  | .char c => quotedChar quote c
  | .half unit => ['\\', 'u'] ++ hexChars 4 unit

def quoteOf (t : Text) : Char :=
  if t.points.contains (.char '\'') && !t.points.contains (.char '"') then '"' else '\''

def quoted (t : Text) : String :=
  let quote := quoteOf t
  String.ofList (quote :: t.points.flatMap (quotedPoint quote) ++ [quote])

end Circulation.Text
