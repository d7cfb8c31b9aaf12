import CiWorkflow.Yaml.Cell

set_option autoImplicit false

namespace CiWorkflow.Yaml

inductive Gap where
  | sameLine (blanks : List Char)
  /-- The first line end, absent after an escaped one, and the others. -/
  | newLines (first : Option Char) (others : List Char)
  deriving DecidableEq, Repr

namespace Gap

def none : Gap := .sameLine []

def isNone (g : Gap) : Bool := g = Gap.none

def crossesLines : Gap → Bool
  | .sameLine _ => false
  | .newLines .. => true

def push (c : Cell) : Gap → Gap
  | .sameLine blanks => if c.isLineEnd then .newLines (some c.char) [] else .sameLine (blanks ++ [c.char])
  | .newLines first others =>
    if c.isLineEnd then .newLines first (others ++ [c.char]) else .newLines first others

def text : Gap → List Char
  | .sameLine blanks => blanks
  | .newLines (some '\n') [] => [' ']
  | .newLines (some '\n') others => others
  | .newLines first others => first.toList ++ others

end Gap

def isFlowEnd (c : Char) : Bool := c = ',' || c = '[' || c = ']' || c = '\x7b' || c = '\x7d'

/-- The text, whether line ends follow it, and the rest behind them. Further lines start at least in
column `indent`, except inside brackets. -/
def readPlain (inFlow : Bool) (indent : Nat) (out : List Char) (gap : Gap) :
    List Cell → Option (List Char × Bool × List Cell)
  | [] => some (out.reverse, gap.crossesLines, [])
  | c :: rest =>
    let stop := some (out.reverse, gap.crossesLines, c :: rest)
    if c.isBlank || c.isLineEnd then
      if gap.crossesLines && c.column < indent && c.char = '\t' then none
      else readPlain inFlow indent out (gap.push c) rest
    else if !gap.isNone && ((!inFlow && c.column < indent) || c.char = '#') then stop
    else if atDocumentMarker (c :: rest) then stop
    else if inFlow && c.char = ':' && nextIs (fun d => isFlowEnd d || d = '?') rest then none
    else if (c.char = ':' && atWordEnd rest) || (inFlow && isFlowEnd c.char) then stop
    else readPlain inFlow indent (c.char :: (gap.text.reverse ++ out)) .none rest

end CiWorkflow.Yaml
