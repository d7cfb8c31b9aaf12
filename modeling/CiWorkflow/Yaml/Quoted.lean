import CiWorkflow.Yaml.Style

set_option autoImplicit false

namespace CiWorkflow.Yaml

def spaces (n : Nat) : List Char := List.replicate n ' '

def hexDigit (n : Nat) : Char := if n < 10 then .ofNat ('0'.toNat + n) else .ofNat ('A'.toNat + n - 10)

def hexDigits : Nat → Nat → List Char
  | 0, _ => []
  | places + 1, n => hexDigits places (n / 16) ++ [hexDigit (n % 16)]

def escapeName? (c : Char) : Option Char :=
  match c.toNat with
  | 0x00 => some '0'
  | 0x07 => some 'a'
  | 0x08 => some 'b'
  | 0x09 => some 't'
  | 0x0A => some 'n'
  | 0x0B => some 'v'
  | 0x0C => some 'f'
  | 0x0D => some 'r'
  | 0x1B => some 'e'
  | 0x22 => some '"'
  | 0x5C => some '\\'
  | 0x85 => some 'N'
  | 0x2028 => some 'L'
  | 0x2029 => some 'P'
  | _ => none

def needsEscape (c : Char) : Bool := !isPrintable c || isBreak c || c = '"' || c = '\\'

def escape (c : Char) : List Char :=
  if !needsEscape c then [c]
  else
    match escapeName? c with
    | some name => ['\\', name]
    | none =>
      let n := c.toNat
      if n ≤ 0xFF then '\\' :: 'x' :: hexDigits 2 n
      else if n ≤ 0xFFFF then '\\' :: 'u' :: hexDigits 4 n
      else '\\' :: 'U' :: hexDigits 8 n

def doubleQuoted (cs : List Char) : List Char := '"' :: cs.flatMap escape ++ ['"']

/-- The lines of a scalar as they are written: a line end is kept, and the next line is indented
unless it is empty. `fresh` tells whether a line is about to start. -/
def indentLines (width : Nat) (fresh : Bool) : List Char → List Char
  | [] => []
  | c :: rest =>
    if isBreak c then c :: indentLines width true rest
    else (if fresh then spaces width else []) ++ c :: indentLines width false rest

def doubleApostrophes (cs : List Char) : List Char :=
  cs.flatMap fun c => if c = '\'' then ['\'', '\''] else [c]

def singleQuoted (width : Nat) (cs : List Char) : List Char :=
  '\'' :: indentLines width false (doubleApostrophes cs) ++
    (if endsIn isBreak cs then spaces width else []) ++ ['\'']

def indentHint : List Char → List Char
  | [] => []
  | c :: _ => if isSpace c || isBreak c then ['2'] else []

/-- What becomes of the line ends after the last line: `-` drops them, `+` keeps them all, and
without a sign exactly one is kept. -/
def chomping (cs : List Char) : List Char :=
  match cs.reverse with
  | [] => ['-']
  | c :: before =>
    if !isBreak c then ['-']
    else if before.isEmpty || startsWith isBreak before then ['+']
    else []

def literalBlock (width : Nat) (cs : List Char) : List Char :=
  '|' :: indentHint cs ++ chomping cs ++ '\n' :: indentLines width true cs

/-- The text of a scalar; on the first line it stands behind whatever is there already. -/
def scalarText (width : Nat) (s : String) : List Char :=
  let cs := s.toList
  match style s with
  | .plain => cs
  | .single => singleQuoted width cs
  | .double => doubleQuoted cs
  | .literal => literalBlock width cs

end CiWorkflow.Yaml
