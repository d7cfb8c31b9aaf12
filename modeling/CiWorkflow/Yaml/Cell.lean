import CiWorkflow.Yaml.Character

set_option autoImplicit false

namespace CiWorkflow.Yaml

/-- A character with the number of characters in front of it, its line and its column. -/
structure Cell where
  char : Char
  index : Nat
  line : Nat
  column : Nat
  deriving DecidableEq, Repr

namespace Cell

def isBlank (c : Cell) : Bool := isSpaceOrTab c.char
def isLineEnd (c : Cell) : Bool := isBreak c.char

end Cell

/-- Line ends other than the line and paragraph separators are line feeds. -/
def normalBreak (c : Char) : Char := if c = '\r' || c = '\u0085' then '\n' else c

def cellsFrom (index line column : Nat) : List Char → List Cell
  | [] => []
  | '\r' :: '\n' :: rest => ⟨'\n', index, line, column⟩ :: cellsFrom (index + 2) (line + 1) 0 rest
  | c :: rest =>
    if isBreak c then ⟨normalBreak c, index, line, column⟩ :: cellsFrom (index + 1) (line + 1) 0 rest
    else ⟨c, index, line, column⟩ :: cellsFrom (index + 1) line (column + 1) rest

/-- The positions in a text. A text with a character that no document may hold has none. -/
def cells? (cs : List Char) : Option (List Cell) :=
  if cs.all isAllowed then some (cellsFrom 0 0 0 cs) else none

def nextIs (p : Char → Bool) : List Cell → Bool
  | [] => false
  | c :: _ => p c.char

def atWordEnd : List Cell → Bool
  | [] => true
  | c :: _ => c.isBlank || c.isLineEnd

def isMarker (mark : Char) : List Cell → Bool
  | a :: b :: c :: rest =>
    a.column = 0 && a.char = mark && b.char = mark && c.char = mark && atWordEnd rest
  | _ => false

def atDocumentMarker (cs : List Cell) : Bool := isMarker '-' cs || isMarker '.' cs

def skipBlanks (cs : List Cell) : List Cell := cs.dropWhile Cell.isBlank

def skipLine (cs : List Cell) : List Cell := cs.dropWhile fun c => !c.isLineEnd

/-- Blanks, a comment and the line end; nothing else may stand there. -/
def skipRestOfLine? (cs : List Cell) : Option (List Cell) :=
  let rest := skipBlanks cs
  match if nextIs (· = '#') rest then skipLine rest else rest with
  | [] => some []
  | c :: rest => if c.isLineEnd then some rest else none

def chars (cs : List Cell) : List Char := cs.map Cell.char

end CiWorkflow.Yaml
