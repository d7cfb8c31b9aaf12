import CiWorkflow.Toml.Date
import CiWorkflow.Toml.Number

set_option autoImplicit false

namespace CiWorkflow.Toml

abbrev Key := List String

def depthLimit : Nat := 80

/-- A value as it is written; the keys of an inline table are not put together yet. -/
inductive Term where
  | scalar (v : Value)
  | array (items : List Term)
  | inlineTable (entries : List (Key × Term))
  deriving Repr, Inhabited

inductive Statement where
  | assign (key : Key) (value : Term)
  | header (key : Key)
  | arrayHeader (key : Key)
  deriving Repr, Inhabited

def skipSpaces (cs : List Char) : List Char := cs.dropWhile isSpace

def isKeyChar (c : Char) : Bool := c.isAlphanum || c = '-' || c = '_'

def readKeyPart? (cs : List Char) : Option (String × List Char) := do
  let cs := skipSpaces cs
  let (part, rest) ← match cs with
    | '"' :: _ => readLine? cs
    | '\'' :: _ => readLine? cs
    | _ =>
      let bare := cs.takeWhile isKeyChar
      if bare.isEmpty then none else some (String.ofList bare, cs.dropWhile isKeyChar)
  return (part, skipSpaces rest)

def readParts? : Nat → List Char → Option (Key × List Char)
  | 0, _ => none
  | fuel + 1, cs => do
    let (part, rest) ← readKeyPart? cs
    match rest with
    | '.' :: rest =>
      let (parts, rest) ← readParts? fuel rest
      return (part :: parts, rest)
    | _ => return ([part], rest)

def readKey? (cs : List Char) : Option (Key × List Char) := readParts? (depthLimit - 1) cs

def skipComment : List Char → List Char
  | '#' :: rest => rest.dropWhile isPlain
  | cs => cs

/-- Blanks, comments and line ends. A comment ends with its line. -/
def skipLines? : Nat → List Char → Option (List Char)
  | 0, _ => none
  | fuel + 1, cs =>
    match skipSpaces cs with
    | '#' :: rest => (takeLineEnd? (rest.dropWhile isPlain)).bind (skipLines? fuel)
    | rest =>
      match takeLineEnd? rest with
      | some rest => skipLines? fuel rest
      | none => some rest

def isWordChar (c : Char) : Bool := c.isAlphanum || "+-._:".toList.contains c

/-- A number, a truth value, a date or a time as far as it reaches; one blank may stand between a date and
a time. -/
def takeWord (cs : List Char) : List Char × List Char :=
  let word := cs.takeWhile isWordChar
  let rest := cs.dropWhile isWordChar
  match rest with
  | ' ' :: d :: rest' =>
    if isDate word && d.isDigit then (word ++ ' ' :: (d :: rest').takeWhile isWordChar, (d :: rest').dropWhile isWordChar)
    else (word, rest)
  | _ => (word, rest)

def wordValue? (word : List Char) : Option Value :=
  if word = "true".toList then some (.boolean true)
  else if word = "false".toList then some (.boolean false)
  else if isDateTime word then some (.dateTime (String.ofList word))
  else
    match float? word, integer? word with
    | some x, _ => some (.float x)
    | none, some n => some (.integer n)
    | none, none => none

mutual

def readTerm? : Nat → Nat → List Char → Option (Term × List Char)
  | 0, _, _ => none
  | fuel + 1, depth, cs =>
    match cs with
    | '"' :: _ => (readString? cs).map fun (s, rest) => (.scalar (.string s), rest)
    | '\'' :: _ => (readString? cs).map fun (s, rest) => (.scalar (.string s), rest)
    | '[' :: rest =>
      if depth = 0 then none
      else (readItems? fuel (depth - 1) rest).map fun (items, rest) => (.array items, rest)
    | '\x7b' :: rest =>
      if depth = 0 then none
      else
        match skipSpaces rest with
        | '\x7d' :: rest => some (.inlineTable [], rest)
        | rest => (readPairs? fuel (depth - 1) rest).map fun (es, rest) => (.inlineTable es, rest)
    | _ =>
      let (word, rest) := takeWord cs
      (wordValue? word).map fun v => (.scalar v, rest)

/-- The items of an array up to its closing bracket; the last may have a comma behind it. -/
def readItems? : Nat → Nat → List Char → Option (List Term × List Char)
  | 0, _, _ => none
  | fuel + 1, depth, cs => do
    match ← skipLines? (cs.length + 1) cs with
    | ']' :: rest => return ([], rest)
    | cs =>
      let (item, rest) ← readTerm? fuel depth cs
      match ← skipLines? (rest.length + 1) rest with
      | ']' :: rest => return ([item], rest)
      | ',' :: rest =>
        let (items, rest) ← readItems? fuel depth rest
        return (item :: items, rest)
      | _ => none

/-- The entries of an inline table up to its closing brace, all on one line. -/
def readPairs? : Nat → Nat → List Char → Option (List (Key × Term) × List Char)
  | 0, _, _ => none
  | fuel + 1, depth, cs => do
    let (key, rest) ← readKey? cs
    let rest ← mark? '=' rest
    let (value, rest) ← readTerm? fuel depth (skipSpaces rest)
    match skipSpaces rest with
    | '\x7d' :: rest => return ([(key, value)], rest)
    | ',' :: rest =>
      let (pairs, rest) ← readPairs? fuel depth rest
      return ((key, value) :: pairs, rest)
    | _ => none

end

def endLine? (cs : List Char) : Option (List Char) :=
  match skipComment (skipSpaces cs) with
  | [] => some []
  | rest => takeLineEnd? rest

def readAssign? (cs : List Char) : Option (Statement × List Char) := do
  let (key, rest) ← readKey? cs
  let rest ← mark? '=' rest
  let (value, rest) ← readTerm? (2 * rest.length + 2) (depthLimit - 1) (skipSpaces rest)
  return (.assign key value, rest)

def readStatement? : List Char → Option (Statement × List Char)
  | '[' :: '[' :: rest => do
    let (key, rest) ← readKey? rest
    let rest ← mark? ']' rest
    let rest ← mark? ']' rest
    return (.arrayHeader key, rest)
  | '[' :: rest => do
    let (key, rest) ← readKey? rest
    let rest ← mark? ']' rest
    return (.header key, rest)
  | cs => readAssign? cs

def readStatements? : Nat → List Char → Option (List Statement)
  | 0, _ => none
  | fuel + 1, cs =>
    match skipSpaces cs with
    | [] => some []
    | c :: rest =>
      if c = '#' || (takeLineEnd? (c :: rest)).isSome then do
        let rest ← endLine? (c :: rest)
        readStatements? fuel rest
      else do
        let (s, rest) ← readStatement? (c :: rest)
        let rest ← endLine? rest
        let ss ← readStatements? fuel rest
        return s :: ss

/-- The statements of a document; a byte order mark in front of them means nothing. -/
def statements? (text : String) : Option (List Statement) :=
  let cs := match text.toList with
    | '\ufeff' :: rest => rest
    | cs => cs
  readStatements? (cs.length + 1) cs

end CiWorkflow.Toml
