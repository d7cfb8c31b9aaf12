import CiWorkflow.Decimal.Read
import CiWorkflow.Log.Event
import CiWorkflow.Text.Alphanumeric
import CiWorkflow.Text.Blank

set_option autoImplicit false

namespace CiWorkflow.Log

open Text

structure Directive where
  /-- The verbosity up to which events are let through; zero lets none through. -/
  verbosity : Nat
  target : Option String
  /-- The span inside which the directive holds. -/
  span : Option String
  /-- Field names, and whether a value is asked for. -/
  fields : List (String × Bool)
  deriving DecidableEq, Repr

def fullVerbosity : Nat := Level.trace.verbosity

def readCount? (cs : List Char) : Option Nat :=
  let ds := match cs with
    | '+' :: rest => rest
    | _ => cs
  if ds.isEmpty || !ds.all Char.isDigit then none else some (Decimal.digitsValue ds)

def levelNames : List (String × Nat) :=
  ("OFF", 0) :: [Level.error, .warn, .info, .debug, .trace].map fun l => (l.name, l.verbosity)

def readLevel? (cs : List Char) : Option Nat :=
  match readCount? cs with
  | some n => if n ≤ fullVerbosity then some n else none
  | none => levelNames.lookup (String.ofList (cs.map Char.toUpper))

namespace Directive

/-- How far the text of a directive is read. Numbers are places at which a part starts. -/
inductive Stage where
  | start
  | levelOrTarget (place : Nat)
  | span (place : Nat)
  | field (place : Nat)
  | fieldsEnd
  | target
  | level (place : Nat)
  | complete
  deriving DecidableEq, Repr

def part (text : List Char) (first last : Nat) : List Char := (text.take last).drop first

def isStart (c : Char) : Bool := c = '-' || c = ':' || c = '_' || alphanumericRanges.holds c

def withLevel? (d : Directive) (cs : List Char) : Option Directive :=
  if cs.isEmpty then some { d with verbosity := fullVerbosity }
  else (readLevel? cs).map fun n => { d with verbosity := n }

def withLevelOrTarget (d : Directive) (cs : List Char) : Directive :=
  match readLevel? cs with
  | some n => { d with verbosity := n, target := none }
  | none => { d with verbosity := fullVerbosity, target := some (String.ofList cs) }

def withField? (d : Directive) (cs : List Char) : Option Directive :=
  if cs.isEmpty then none
  else
    some { d with fields := d.fields ++ [(String.ofList (cs.takeWhile (· ≠ '=')), cs.contains '=')] }

/-- One character further, which stands at place `i`. Parts are cut out of `text`. -/
def step? (text : List Char) (d : Directive) (i : Nat) (c : Char) : Stage → Option (Directive × Stage)
  | .start =>
    if c = '[' then some (d, .span (i + 1))
    else if isStart c then some (d, .levelOrTarget i)
    else none
  | .levelOrTarget p =>
    let target := some (String.ofList (part text p i))
    if c = '=' then some ({ d with target := target }, .level (i + 1))
    else if c = '[' then some ({ d with target := target }, .span (i + 1))
    else if c = ',' then some (d.withLevelOrTarget (text.drop p), .complete)
    else some (d, .levelOrTarget p)
  | .span p =>
    let name := String.ofList (part text p i)
    if c = ']' then some ({ d with span := some name }, .target)
    else if c = '\x7b' then some ({ d with span := if name.isEmpty then none else some name }, .field (i + 1))
    else some (d, .span p)
  | .field p =>
    if c = '\x7d' then (d.withField? (part text p i)).map fun d => (d, .fieldsEnd)
    else if c = ',' then (d.withField? (part text p i)).map fun d => (d, .field (i + 1))
    else some (d, .field p)
  | .fieldsEnd => if c = ']' then some (d, .target) else none
  | .target => if c = '=' then some (d, .level (i + 1)) else none
  | .level p =>
    if c = ',' then (d.withLevel? (part text p i)).map fun d => (d, .complete) else some (d, .level p)
  | .complete => none

def readFrom? (text : List Char) (d : Directive) (stage : Stage) : Nat → List Char → Option (Directive × Stage)
  | _, [] => some (d, stage)
  | i, c :: rest => do
    let (d, stage) ← step? text d i c stage
    readFrom? text d stage (i + 1) rest

def finish? (text : List Char) (d : Directive) : Stage → Option Directive
  | .levelOrTarget p => some (d.withLevelOrTarget (text.drop p))
  | .level p => d.withLevel? (text.drop p)
  | .target => some d
  | .complete => some d
  | _ => none

/-- The directive that a text spells out. Blanks around it do not stop the reading, but they move the
parts that are cut out. -/
def read? (s : String) : Option Directive := do
  let text := s.toList
  let (d, stage) ← readFrom? text ⟨fullVerbosity, none, none, []⟩ .start 0 (trim text)
  finish? text d stage

end Directive

end CiWorkflow.Log
