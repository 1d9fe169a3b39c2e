import Circulation.Arc
import Circulation.Decimal.Layout
import Circulation.Site
import Circulation.Text.Quoted

/-!
Data whose shape is only known when it is read: arc lists, point lists and files arrive in this
form. `Value.literal` is the form in which messages show such data.
-/

namespace Circulation

/-- Data of any shape. A record keeps its members in the order in which they were given. -/
inductive Value where
  | null
  | bool (b : Bool)
  | int (n : Int)
  | float (x : Float)
  | text (t : Text)
  | list (items : List Value)
  | record (members : List (Text × Value))
  | arc (a : Arc)
  | site (role : Role) (s : Site)

def member? (members : List (Text × Value)) (name : Text) : Option Value :=
  (members.find? fun m => m.1 == name).map (·.2)

/-- Sets a member. A new one goes to the end, a known one keeps its place. -/
def setMember (members : List (Text × Value)) (name : Text) (v : Value) :
    List (Text × Value) :=
  if members.any fun m => m.1 == name then
    members.map fun m => if m.1 == name then (name, v) else m
  else members ++ [(name, v)]

def Site.literal (role : Role) (s : Site) : String :=
  let kind := match role with
    | .point => "Point"
    | .center => "Center"
  kind ++ "(x=" ++ Decimal.text s.x ++ ", y=" ++ Decimal.text s.y ++ ", weight=" ++
    Decimal.text s.weight ++ ")"

def Arc.literal (a : Arc) : String :=
  "ArcSpec(start=" ++ toString a.tail ++ ", end=" ++ toString a.head ++ ", capacity=" ++
    toString a.capacity ++ ", cost=" ++ toString a.cost ++ ")"

def Arc.toValue (a : Arc) : Value :=
  .list [.int a.tail, .int a.head, .int a.capacity, .int a.cost]

namespace Value

mutual

def literal : Value → String
  | .null => "None"
  | .bool b => if b then "True" else "False"
  | .int n => toString n
  | .float x => Decimal.text x
  | .text t => t.quoted
  | .list items => "[" ++ ", ".intercalate (literals items) ++ "]"
  | .record members => "\x7b" ++ ", ".intercalate (memberLiterals members) ++ "\x7d"
  | .arc a => a.literal
  | .site role s => s.literal role

def literals : List Value → List String
  | [] => []
  | v :: vs => literal v :: literals vs

def memberLiterals : List (Text × Value) → List String
  | [] => []
  | (name, v) :: ms => (name.quoted ++ ": " ++ literal v) :: memberLiterals ms

end

mutual

/-- The integers that the form in which messages show data holds. -/
def integers : Value → List Int
  | .int n => [n]
  | .list items => itemIntegers items
  | .record members => memberIntegers members
  | .arc a => [a.tail, a.head, a.capacity, a.cost]
  | _ => []

def itemIntegers : List Value → List Int
  | [] => []
  | v :: vs => integers v ++ itemIntegers vs

def memberIntegers : List (Text × Value) → List Int
  | [] => []
  | (_, v) :: ms => integers v ++ memberIntegers ms

end

def plain : Value → Text
  | .text t => t
  | v => v.literal

def isText (v : Value) (s : String) : Bool :=
  match v with
  | .text t => t == s
  | _ => false

def kindName : Value → String
  | .null => "NoneType"
  | .bool _ => "bool"
  | .int _ => "int"
  | .float _ => "float"
  | .text _ => "str"
  | .list _ => "list"
  | .record _ => "dict"
  | .arc _ => "ArcSpec"
  | .site .point _ => "Point"
  | .site .center _ => "Center"

/-- A value counts as false if it is missing, false, zero or empty. -/
def isTrue (v : Value) : Bool :=
  match v with
  | .null => false
  | .bool b => b
  | .int n => n != 0
  | .float x => !(x == 0.0)
  | .text t => !t.isEmpty
  | .list items => !items.isEmpty
  | .record members => !members.isEmpty
  | .arc _ => true
  | .site _ _ => true

/-- What a value holds when it is gone through item by item: a text holds its characters, a record
the names of its members. Other values hold no items. -/
def items? : Value → Option (List Value)
  | .list items => some items
  | .text t => some (t.singles.map .text)
  | .record members => some (members.map fun m => .text m.1)
  | _ => none

end Value

end Circulation
