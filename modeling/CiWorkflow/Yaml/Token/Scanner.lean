import CiWorkflow.Yaml.Token.Block
import CiWorkflow.Yaml.Token.Plain
import CiWorkflow.Yaml.Token.Property
import CiWorkflow.Yaml.Token.Quoted

/-!
The tokens of a document. Indentation opens and closes block collections. Whether a scalar or a
collection is a key shows only at the colon behind it; so the place of every possible key is kept, and
the key token, with the start of a mapping where one is due, is put in front of it later.
-/
set_option autoImplicit false

namespace CiWorkflow.Yaml

structure PossibleKey where
  /-- A colon has to follow, since the place is where the keys of the block stand. -/
  required : Bool
  /-- The number of tokens in front of it. -/
  position : Nat
  index : Nat
  line : Nat
  column : Nat
  deriving DecidableEq, Repr

structure Scanner where
  rest : List Cell
  /-- The columns of the open block collections, innermost first. -/
  columns : List Nat
  /-- The possible key inside each open bracket, innermost first. -/
  brackets : List (Option PossibleKey)
  /-- The possible key outside all brackets. -/
  blockKey : Option PossibleKey
  /-- Whether a key, or the dash of an entry, may start here. -/
  keyAllowed : Bool
  /-- In reverse. -/
  tokens : List Token

namespace Scanner

def start (cs : List Cell) : Scanner := ⟨cs, [], [], none, true, []⟩

def inFlow (s : Scanner) : Bool := !s.brackets.isEmpty

def column (s : Scanner) : Nat := (s.rest.head?.map Cell.column).getD 0

def parent (s : Scanner) : Option Nat := s.columns.head?

def emit (t : Token) (s : Scanner) : Scanner := { s with tokens := t :: s.tokens }

def emitAt (position : Nat) (t : Token) (s : Scanner) : Scanner :=
  { s with tokens := s.tokens.insertIdx (s.tokens.length - position) t }

def skip (n : Nat) (s : Scanner) : Scanner := { s with rest := s.rest.drop n }

def allowKey (b : Bool) (s : Scanner) : Scanner := { s with keyAllowed := b }

def currentKey (s : Scanner) : Option PossibleKey :=
  match s.brackets with
  | [] => s.blockKey
  | k :: _ => k

def setKey (k : Option PossibleKey) (s : Scanner) : Scanner :=
  match s.brackets with
  | [] => { s with blockKey := k }
  | _ :: others => { s with brackets := k :: others }

/-- A key stands on one line with its colon, and not too far in front of it. -/
def isStale (c : Cell) (k : PossibleKey) : Bool := k.line < c.line || k.index + 1024 < c.index

/-- Forgets keys that have become stale; a required one cannot be. -/
def dropStale? (s : Scanner) : Option Scanner :=
  match s.rest with
  | [] => some s
  | c :: _ =>
    let fresh := Option.filter fun k => !isStale c k
    if s.blockKey.any fun k => k.required && isStale c k then none
    else some { s with blockKey := fresh s.blockKey, brackets := s.brackets.map fresh }

/-- Forgets the possible key; a required one cannot be. -/
def dropKey? (s : Scanner) : Option Scanner :=
  if s.currentKey.any (·.required) then none else some (s.setKey none)

def saveKey? (s : Scanner) : Option Scanner :=
  match s.rest with
  | [] => some s
  | c :: _ =>
    if s.keyAllowed then do
      let required := !s.inFlow && s.parent = some c.column
      let s ← s.dropKey?
      return s.setKey (some ⟨required, s.tokens.length, c.index, c.line, c.column⟩)
    else some s

def openBlock (column position : Nat) (t : Token) (s : Scanner) : Scanner :=
  if s.inFlow || s.parent.any (column ≤ ·) then s
  else { s.emitAt position t with columns := column :: s.columns }

/-- The columns left of, or at, a given one stay open; all are closed without one. -/
def remaining (column : Option Nat) (columns : List Nat) : List Nat :=
  columns.dropWhile fun n => match column with
    | some c => c < n
    | none => true

theorem remaining_none (columns : List Nat) : remaining none columns = [] := by
  induction columns with
  | nil => rfl
  | cons n rest ih => exact ih

def closeBlocks (column : Option Nat) (s : Scanner) : Scanner :=
  if s.inFlow then s
  else
    let kept := remaining column s.columns
    { s with
      columns := kept
      tokens := List.replicate (s.columns.length - kept.length) .blockEnd ++ s.tokens }

/-- Skips blanks, comments and line ends in front of a token; the text starts anew after a line end.
A tab is a blank only where no key can start, a byte order mark only at the start of a line. -/
def skipToToken (inFlow keyAllowed comment : Bool) : List Cell → Bool × List Cell
  | [] => (keyAllowed, [])
  | c :: rest =>
    if c.isLineEnd then skipToToken inFlow (keyAllowed || !inFlow) false rest
    else if comment then skipToToken inFlow keyAllowed true rest
    else if c.char = ' ' || (c.char = '\t' && (inFlow || !keyAllowed)) || (c.column = 0 && c.char = '\ufeff') then
      skipToToken inFlow keyAllowed false rest
    else if c.char = '#' then skipToToken inFlow keyAllowed true rest
    else (keyAllowed, c :: rest)

/-- A directive or the marker of a document, which ends all collections. -/
def leaveBlocks? (s : Scanner) : Option Scanner := do
  let s ← (s.closeBlocks none).dropKey?
  return s.allowKey false

def marker? (t : Token) (s : Scanner) : Option Scanner := do
  let s ← s.leaveBlocks?
  return (s.emit t).skip 3

def directive? (s : Scanner) : Option Scanner := do
  let s ← s.leaveBlocks?
  let (t, rest) ← readDirective? (s.rest.drop 1)
  return { s.emit t with rest := rest }

def openBracket? (t : Token) (s : Scanner) : Option Scanner := do
  let s ← s.saveKey?
  return ({ s.emit t with brackets := none :: s.brackets }.allowKey true).skip 1

def closeBracket? (t : Token) (s : Scanner) : Option Scanner := do
  let s ← s.dropKey?
  return ({ s.emit t with brackets := s.brackets.drop 1 }.allowKey false).skip 1

def flowEntry? (s : Scanner) : Option Scanner := do
  let s ← s.dropKey?
  return ((s.emit .flowEntry).allowKey true).skip 1

/-- The dash of an entry or the question mark of a key; outside brackets it may open a block. -/
def opener? (block t : Token) (s : Scanner) : Option Scanner :=
  if !s.inFlow && !s.keyAllowed then none
  else do
    let s ← (s.openBlock s.column s.tokens.length block).dropKey?
    return (s.emit t).skip 1

def blockEntry? (s : Scanner) : Option Scanner := do
  let s ← s.opener? .blockSequence .blockEntry
  return s.allowKey true

def explicitKey? (s : Scanner) : Option Scanner := do
  let s ← s.opener? .blockMapping .key
  return s.allowKey (!s.inFlow)

def value? (s : Scanner) : Option Scanner :=
  match s.currentKey with
  | some k =>
    let s := (s.emitAt k.position .key).openBlock k.column k.position .blockMapping
    some ((((s.setKey none).emit .value).allowKey false).skip 1)
  | none =>
    if !s.inFlow && !s.keyAllowed then none
    else
      let s := s.openBlock s.column s.tokens.length .blockMapping
      some (((s.emit .value).allowKey (!s.inFlow)).skip 1)

def leaf? (read : List Cell → Option (Token × List Cell)) (s : Scanner) : Option Scanner := do
  let s ← s.saveKey?
  let (t, rest) ← read s.rest
  return { (s.emit t).allowKey false with rest := rest }

def readName (make : String → Token) (cs : List Cell) : Option (Token × List Cell) :=
  (readAnchor? (cs.drop 1)).map fun (name, rest) => (make name, rest)

def scalarToken (form : ScalarForm) (r : Option (List Char × List Cell)) : Option (Token × List Cell) :=
  r.map fun (text, rest) => (.scalar form (String.ofList text), rest)

def block? (folded : Bool) (s : Scanner) : Option Scanner := do
  let s ← s.dropKey?
  let (t, rest) ← scalarToken (if folded then .folded else .literal)
    (readBlockScalar? folded s.parent (s.rest.drop 1))
  return { (s.emit t).allowKey true with rest := rest }

/-- A plain scalar; behind line ends a key may start. -/
def plain? (s : Scanner) : Option Scanner := do
  let s ← s.saveKey?
  let (text, crossed, rest) ← readPlain s.inFlow ((s.parent.map (· + 1)).getD 0) [] .none s.rest
  return { (s.emit (.scalar .plain (String.ofList text))).allowKey crossed with rest := rest }

def startsPlain (inFlow : Bool) (c : Char) (rest : List Cell) : Bool :=
  !(isSpaceOrTab c || isBreak c || "-?:,[]\x7b\x7d#&*!|>'\"%@\x60".toList.contains c) ||
    (c = '-' && !nextIs isSpaceOrTab rest) ||
    (!inFlow && (c = '?' || c = ':') && !atWordEnd rest)

def token? (c : Cell) (rest : List Cell) (s : Scanner) : Option Scanner :=
  if c.column = 0 && c.char = '%' then s.directive?
  else if isMarker '-' (c :: rest) then s.marker? .documentStart
  else if isMarker '.' (c :: rest) then s.marker? .documentEnd
  else
    match c.char with
    | '[' => s.openBracket? .flowSequence
    | '\x7b' => s.openBracket? .flowMapping
    | ']' => s.closeBracket? .flowSequenceEnd
    | '\x7d' => s.closeBracket? .flowMappingEnd
    | ',' => s.flowEntry?
    | '*' => s.leaf? (readName .alias)
    | '&' => s.leaf? (readName .anchor)
    | '!' => s.leaf? (readTag? s.inFlow)
    | '\'' => s.leaf? fun cs => scalarToken .quoted (readSingle false [] .none (cs.drop 1))
    | '"' => s.leaf? fun cs => scalarToken .quoted (readDouble .no [] .none (cs.drop 1))
    | x =>
      if x = '-' && atWordEnd rest then s.blockEntry?
      else if x = '?' && (s.inFlow || atWordEnd rest) then s.explicitKey?
      else if x = ':' && (s.inFlow || atWordEnd rest) then s.value?
      else if x = '|' && !s.inFlow then s.block? false
      else if x = '>' && !s.inFlow then s.block? true
      else if startsPlain s.inFlow x rest then s.plain?
      else none

/-- The tokens from here on. Each token takes at least one character, so as many steps as characters
are enough. -/
def run : Nat → Scanner → Option (List Token)
  | 0, _ => none
  | steps + 1, s =>
    let (keyAllowed, rest) := skipToToken s.inFlow s.keyAllowed false s.rest
    match ({ s with keyAllowed := keyAllowed, rest := rest } : Scanner).dropStale? with
    | none => none
    | some s =>
      match s.rest with
      | [] => (s.closeBlocks none).dropKey?.map fun s => s.tokens.reverse
      | c :: rest =>
        match (s.closeBlocks (some c.column)).token? c rest with
        | none => none
        | some s => run steps s

end Scanner

def tokens? (s : String) : Option (List Token) := do
  let cs ← cells? s.toList
  (Scanner.start cs).run (cs.length + 1)

end CiWorkflow.Yaml
