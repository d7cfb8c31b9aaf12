import CiWorkflow.Decimal.Layout
import CiWorkflow.Expression.Fragment

set_option autoImplicit false

namespace CiWorkflow

open Text Decimal

namespace Expression

inductive Argument where
  | fragment (f : Fragment)
  | wrapped (w : Wrapped)
  /-- A context path, the text of a complete expression, or any other text. -/
  | text (s : String)
  | bool (b : Bool)
  | int (n : Int)
  | float (x : Binary64)
  /-- A value that was not there. -/
  | missing
  deriving DecidableEq, Repr

def floatLayout : Layout := ⟨none, false, false, "NaN", "inf", "-inf"⟩

def looksComposed (text : String) : Bool :=
  text.toList.any fun c => "()|&<>!=".toList.contains c || isBlank c

namespace Argument

/-- The text of a value, with `plain` for texts that are not complete expressions; nothing for a missing
value. -/
def innerWith (plain : String → String) : Argument → Except Error (Option String)
  | .fragment f => .ok (some f.inner)
  | .wrapped w => .ok (some w.inner)
  | .text s =>
    if openMark.toList.isPrefixOf s.toList then (unwrap s).map some else .ok (some (plain s))
  | .bool b => .ok (some (if b then "true" else "false"))
  | .int n => .ok (some (toString n))
  | .float x => .ok (some (floatLayout.write x))
  | .missing => .ok none

def inTemplate (a : Argument) : Except Error (Option String) :=
  a.innerWith fun s => if isTokenPath s then s else quote s

def inCall (a : Argument) : Except Error (Option String) :=
  a.innerWith fun s => if isTokenPath s || looksComposed s then s else quote s

end Argument

end Expression

end CiWorkflow
