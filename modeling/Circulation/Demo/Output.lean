import Circulation.Fault

/-!
What a demonstration leaves behind: the text that it printed, the file that it saved, and the reason
why it broke off, if it did.
-/

namespace Circulation.Demo

structure Output where
  printed : String
  saved : Option String
  fault : Option Fault

def Output.broken (fault : Fault) : Output :=
  ⟨"", none, some fault⟩

/-- Lines of text. The first fault among them ends the print. -/
def printLines (saved : Option String) : List (Except Fault String) → Output
  | [] => ⟨"", saved, none⟩
  | .error fault :: _ => ⟨"", saved, some fault⟩
  | .ok l :: rest =>
    let output := printLines saved rest
    { output with printed := l ++ "\n" ++ output.printed }

end Circulation.Demo
