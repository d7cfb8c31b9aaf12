import CiWorkflow.Yaml.Token.Plain

set_option autoImplicit false

namespace CiWorkflow.Yaml

inductive Chomp where
  | strip
  | clip
  | keep
  deriving DecidableEq, Repr

structure BlockHeader where
  chomp : Chomp
  /-- The indentation relative to the collection around, if given. -/
  increment : Option Nat
  deriving DecidableEq, Repr

def chompSign? (c : Char) : Option Chomp :=
  if c = '+' then some .keep else if c = '-' then some .strip else none

def readChomp : List Cell → Chomp × List Cell
  | [] => (.clip, [])
  | c :: rest =>
    match chompSign? c.char with
    | some chomp => (chomp, rest)
    | none => (.clip, c :: rest)

def readIncrement? : List Cell → Option (Option Nat × List Cell)
  | [] => some (none, [])
  | c :: rest =>
    if c.char.isDigit then
      if c.char = '0' then none else some (some (c.char.toNat - '0'.toNat), rest)
    else some (none, c :: rest)

def readHeader? (cs : List Cell) : Option (BlockHeader × List Cell) := do
  let (before, cs) := readChomp cs
  let (increment, cs) ← readIncrement? cs
  let (after, cs) := if before = .clip then readChomp cs else (before, cs)
  let rest ← skipRestOfLine? cs
  return (⟨after, increment⟩, rest)

structure Block where
  /-- In reverse. -/
  out : List Char
  /-- The line end of the line before. -/
  lineEnd : List Char
  /-- The line ends of the empty lines since. -/
  emptyLines : List Char
  /-- Whether the line before starts with a blank. -/
  blankLine : Bool

namespace Block

/-- Joins the next line, which starts with `c`, to the lines before. Folding turns a line feed between
two lines into a space unless one of them starts with a blank. -/
def join (folded : Bool) (c : Cell) (b : Block) : List Char :=
  let glue :=
    if folded && b.lineEnd = ['\n'] && !b.blankLine && !c.isBlank then
      if b.emptyLines.isEmpty then [' '] else []
    else b.lineEnd
  (glue ++ b.emptyLines).reverse ++ b.out

def finish (chomp : Chomp) (b : Block) : List Char :=
  b.out.reverse ++ (match chomp with
    | .strip => []
    | .clip => b.lineEnd
    | .keep => b.lineEnd ++ b.emptyLines)

end Block

/-- Reads the lines of a block. `indent` is absent until a line decides it; it is at least `least`
and at least the number of spaces on the empty lines before, `seen`. -/
def readBlock (folded : Bool) (chomp : Chomp) (least : Nat) (indent : Option Nat) (seen : Nat)
    (inLine : Bool) (b : Block) : List Cell → Option (List Char × List Cell)
  | [] => some (b.finish chomp, [])
  | c :: rest =>
    if inLine then
      if c.isLineEnd then
        readBlock folded chomp least indent seen false { b with lineEnd := [c.char] } rest
      else readBlock folded chomp least indent seen true { b with out := c.char :: b.out } rest
    else
      let before := indent.all (c.column < ·)
      let seen := max seen c.column
      if before && c.char = ' ' then
        readBlock folded chomp least indent (max seen (c.column + 1)) false b rest
      else if before && c.char = '\t' then none
      else if c.isLineEnd then
        readBlock folded chomp least indent seen false { b with emptyLines := b.emptyLines ++ [c.char] } rest
      else
        let column := indent.getD (max seen least)
        if c.column = column then
          readBlock folded chomp least (some column) seen true
            ⟨c.char :: b.join folded c, [], [], c.isBlank⟩ rest
        else some (b.finish chomp, c :: rest)

/-- A block behind its `|` or `>`; `parent` is the column of the collection around it. -/
def readBlockScalar? (folded : Bool) (parent : Option Nat) (cs : List Cell) :
    Option (List Char × List Cell) := do
  let (header, rest) ← readHeader? cs
  let indent := header.increment.map (parent.getD 0 + ·)
  readBlock folded header.chomp (max 1 ((parent.map (· + 1)).getD 0)) indent 0 false ⟨[], [], [], false⟩ rest

end CiWorkflow.Yaml
