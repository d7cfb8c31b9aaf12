import CiWorkflow.Text.Blank
import CiWorkflow.Text.Split

set_option autoImplicit false

namespace CiWorkflow.Path

open Text

/-- A path behind a directory; an absolute path stands alone. -/
def join (dir path : String) : String :=
  let cs := dir.toList
  if path.toList.head? = some '/' then path
  else if cs.isEmpty || cs.getLast? = some '/' then dir ++ path
  else dir ++ "/" ++ path

def start : List Char → List Char
  | '/' :: _ => ['/']
  | ['.'] => ['.']
  | '.' :: '/' :: _ => ['.']
  | _ => []

def isVoid (piece : List Char) : Bool := piece.isEmpty || piece = ['.']

def dropVoidEnd (pieces : List (List Char)) : List (List Char) :=
  (pieces.reverse.dropWhile isVoid).reverse

/-- The pieces behind the start; the last of them has a meaning. -/
def pieces (cs : List Char) : List (List Char) :=
  dropVoidEnd (splitAt '/' (cs.drop (start cs).length))

def ofPieces (start : List Char) (pieces : List (List Char)) : String :=
  String.ofList (start ++ ['/'].intercalate pieces)

def parent? (path : String) : Option String :=
  let cs := path.toList
  let ps := pieces cs
  if !ps.isEmpty then some (ofPieces (start cs) (dropVoidEnd ps.dropLast))
  else if start cs = ['.'] then some ""
  else none

def fileName? (path : String) : Option String :=
  match (pieces path.toList).getLast? with
  | some piece => if piece = ['.', '.'] then none else some (String.ofList piece)
  | none => none

/-- The part of a name before its last dot and the part behind it. A dot at the very start does not
divide. -/
def splitName (name : String) : List Char × Option (List Char) :=
  let cs := name.toList
  let back := cs.reverse.takeWhile (· ≠ '.')
  let front := (cs.reverse.drop (back.length + 1)).reverse
  if front.isEmpty then (cs, none) else (front, some back.reverse)

def stem (path : String) : String :=
  match fileName? path with
  | some name => String.ofList (splitName name).1
  | none => ""

def withFileName (path name : String) : String :=
  join (if (fileName? path).isSome then (parent? path).getD path else path) name

end CiWorkflow.Path
