import CiWorkflow.Yaml.Character
import CiWorkflow.Yaml.Scalar

/-!
How a scalar is spelled: plain, in single or double quotes, or as a literal block. A text with line
feeds asks for a block, a text that would be taken for something else asks for quotes, and every
other text asks to stay plain. What cannot be read back in the wanted style moves on: plain to
single quotes, those to double quotes, and so does a block. Double quotes can hold any text.
-/
set_option autoImplicit false

namespace CiWorkflow.Yaml

inductive Style where
  | plain
  | single
  | double
  | literal
  deriving DecidableEq, Repr

def indicators : List Char :=
  ['#', ',', '[', ']', '\x7b', '\x7d', '&', '*', '!', '|', '>', '\'', '"', '%', '@', '\x60']

def opensSyntax : List Char → Bool
  | '-' :: '-' :: '-' :: _ => true
  | '.' :: '.' :: '.' :: _ => true
  | c :: rest => indicators.contains c || ((c = '?' || c = ':' || c = '-') && endsWord rest)
  | [] => false

/-- Whether a colon before a blank or a `#` after one comes later; `afterBlank` tells about the
character in front. -/
def hasSyntax (afterBlank : Bool) : List Char → Bool
  | [] => false
  | c :: rest =>
    (c = ':' && endsWord rest) || (c = '#' && afterBlank) || hasSyntax (isSpaceOrTab c || isBreak c) rest

def adjacent (p q : Char → Bool) : List Char → Bool
  | a :: b :: rest => (p a && q b) || adjacent p q (b :: rest)
  | _ => false

def isSpace (c : Char) : Bool := c = ' '

def startsWith (p : Char → Bool) (cs : List Char) : Bool := cs.head?.any p
def endsIn (p : Char → Bool) (cs : List Char) : Bool := cs.getLast?.any p

/-- Texts that need escapes: a character that cannot stand as it is, or spaces before a line end. -/
def needsEscapes (cs : List Char) : Bool :=
  cs.any (fun c => !isPrintable c) || adjacent isSpace isBreak cs

def allowsSingle (cs : List Char) : Bool := !needsEscapes cs && !adjacent isBreak isSpace cs

def allowsLiteral (cs : List Char) : Bool := !cs.isEmpty && !needsEscapes cs && !endsIn isSpace cs

def allowsPlain (cs : List Char) : Bool :=
  !cs.isEmpty && !needsEscapes cs && !cs.any isBreak && !startsWith isSpace cs && !endsIn isSpace cs &&
    !opensSyntax cs && !hasSyntax false (cs.drop 1)

def wantedStyle (s : String) : Style :=
  if s.toList.contains '\n' then .literal
  else if meaning s = .text && !isZeroPadded s.toList then .plain
  else .single

def style (s : String) : Style :=
  let cs := s.toList
  match wantedStyle s with
  | .literal => if allowsLiteral cs then .literal else .double
  | .plain => if allowsPlain cs then .plain else if allowsSingle cs then .single else .double
  | .single => if allowsSingle cs then .single else .double
  | .double => .double

end CiWorkflow.Yaml
