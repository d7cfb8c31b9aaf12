import CiWorkflow.Json.Quoted
import CiWorkflow.Render.Marker

set_option autoImplicit false

namespace CiWorkflow.Render

open Text

def isQuoteChar (c : Char) : Bool := c = '"' || c = '\''

def takeQuote : List Char → List Char × List Char
  | [] => ([], [])
  | c :: rest => if isQuoteChar c then ([c], rest) else ([], c :: rest)

def takeDashes : List Char → Nat × List Char
  | '-' :: ' ' :: rest =>
    let (n, rest) := takeDashes rest
    (n + 1, rest)
  | cs => (0, cs)

def spaces (n : Nat) : List Char := List.replicate n ' '

def chompSign (trailing : Nat) : List Char :=
  if trailing = 0 then ['-'] else if trailing = 1 then [] else ['+']

/-- The indentation has to be given where the first line starts with a space. -/
def indentSign (indent : Nat) (lines : List (List Char)) : List Char :=
  match lines.find? fun l => !l.isEmpty with
  | some (' ' :: _) => (toString indent).toList
  | _ => []

def splitTrailing (cs : List Char) : List Char × Nat :=
  let body := dropEndWhile (· = '\n') cs
  (body, cs.length - body.length)

/-- The `run` entry behind `lead` spaces and `dashes` dashes with the script as a literal block. -/
def literalEntry (lead dashes indent : Nat) (script : String) : List Char :=
  let width := max indent 1
  let pad := spaces (lead + 2 * dashes + width)
  let (body, trailing) := splitTrailing script.toList
  let lines := splitAt '\n' body
  spaces lead ++ (List.replicate dashes ['-', ' ']).flatten ++ "run: |".toList ++ indentSign width lines ++
    chompSign trailing ++ '\n' ::
    (lines.flatMap fun l => (if l.isEmpty then [] else pad ++ l) ++ ['\n']) ++
    List.replicate (trailing - 1) '\n'

namespace Blocks

/-- The literal block for a line that is a `run` entry with one reference in matching quotes. -/
def blockLine? (b : Blocks) (indent : Nat) (line : List Char) : Option (List Char) := do
  let lead := (line.takeWhile (· = ' ')).length
  let (dashes, rest) := takeDashes (line.dropWhile (· = ' '))
  let rest ← stripPrefix? "run: ".toList rest
  let (opening, rest) := takeQuote rest
  let (number, index, rest) ← readReference? rest
  let (closing, rest) := takeQuote rest
  if rest.isEmpty && opening = closing then
    let script ← b.find? number index
    return literalEntry lead dashes indent script
  else none

/-- A reference here, with the quotes around it: its text and the rest, and the quoted script in its
place if it is one of these. -/
def quotedScript? (b : Blocks) (cs : List Char) : Option (Option (List Char) × List Char) := do
  let (_, rest) := takeQuote cs
  let (number, index, rest) ← readReference? rest
  let (_, rest) := takeQuote rest
  return ((b.find? number index).map fun s => Json.quoted s.toList, rest)

/-- The line with quoted scripts in place of references. `skip` characters belong to the reference read
last, and `keep` tells whether they stay. -/
def restoreInLine (b : Blocks) : Nat → Bool → List Char → List Char
  | _, _, [] => []
  | skip + 1, keep, c :: rest =>
    if keep then c :: restoreInLine b skip keep rest else restoreInLine b skip keep rest
  | 0, _, c :: rest =>
    match b.quotedScript? (c :: rest) with
    | none => c :: restoreInLine b 0 true rest
    | some (none, after) => c :: restoreInLine b (rest.length - after.length) true rest
    | some (some text, after) => text ++ restoreInLine b (rest.length - after.length) false rest

def restoreLine (b : Blocks) (indent : Nat) (line ending : List Char) : List Char :=
  match b.blockLine? indent line with
  | some block => block
  | none => b.restoreInLine 0 true line ++ ending

def restoreLines (b : Blocks) (indent : Nat) : List (List Char) → List Char
  | [] => []
  | [line] => b.restoreLine indent line []
  | line :: rest => b.restoreLine indent line ['\n'] ++ b.restoreLines indent rest

/-- The text with all scripts put back; blocks are indented further than their key. -/
def restore (b : Blocks) (indent : Nat) (text : String) : String :=
  if b.scripts.isEmpty then text
  else String.ofList (b.restoreLines indent (splitAt '\n' text.toList))

end Blocks

end CiWorkflow.Render
