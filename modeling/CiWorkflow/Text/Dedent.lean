import CiWorkflow.Text.Blank
import CiWorkflow.Text.Split

set_option autoImplicit false

namespace CiWorkflow.Text

def leadingSpaces (line : List Char) : Nat := (line.takeWhile (· = ' ')).length

def isBlankLine (line : List Char) : Bool := line.all isBlank

/-- Drops at most `n` spaces in front; a blank line becomes empty. -/
def dedentLine (n : Nat) (line : List Char) : List Char :=
  if isBlankLine line then [] else line.drop (min n (leadingSpaces line))

def dedentLines : List (List Char) → List (List Char)
  | [] => []
  | first :: rest =>
    let n := ((rest.find? fun l => !isBlankLine l).map leadingSpaces).getD 0
    dedentLine 0 first :: rest.map (dedentLine n)

def dedent (script : String) : String :=
  String.ofList (['\n'].intercalate (dedentLines (splitAt '\n' (trimStart script.toList))))

end CiWorkflow.Text
