import CiWorkflow.Log.Directive
import CiWorkflow.Text.Split

set_option autoImplicit false

namespace CiWorkflow.Log

open Text

namespace Directive

def isStatic (d : Directive) : Bool := d.span.isNone && d.fields.all fun f => !f.2

def fieldNames (d : Directive) : List String := d.fields.map Prod.fst

def applies (d : Directive) (e : Event) : Bool :=
  (match d.target with
    | some t => t.toList.isPrefixOf e.target.toList
    | none => true) &&
    d.fieldNames.all e.fieldNames.contains

def targetSize (d : Directive) : Nat :=
  match d.target with
  | some t => t.utf8ByteSize + 1
  | none => 0

/-- Whether the first directive is more specific: a longer target, more fields, then the text. -/
def outranks (a b : Directive) : Bool :=
  if a.targetSize ≠ b.targetSize then b.targetSize < a.targetSize
  else if a.fields.length ≠ b.fields.length then b.fields.length < a.fields.length
  else if a.target ≠ b.target then b.target.getD "" < a.target.getD ""
  else b.fieldNames < a.fieldNames

end Directive

structure Filter where
  directives : List Directive
  deriving DecidableEq, Repr

namespace Filter

def errorsOnly : Filter := ⟨[⟨Level.error.verbosity, none, none, []⟩]⟩

/-- The filter that a text spells out. A text without directives asks for errors only. -/
def read? (s : String) : Option Filter := do
  let pieces := (splitAt ',' s.toList).filter fun piece => !piece.isEmpty
  let ds ← pieces.mapM fun piece => Directive.read? (String.ofList piece)
  return if ds.isEmpty then errorsOnly else ⟨ds⟩

/-- Of two directives the one that decides; among equals the one given last. -/
def prefer (best : Option Directive) (d : Directive) : Option Directive :=
  match best with
  | none => some d
  | some b => if b.outranks d then some b else some d

def deciding? (f : Filter) (e : Event) : Option Directive :=
  (f.directives.filter fun d => d.isStatic && d.applies e).foldl prefer none

def admits (f : Filter) (e : Event) : Bool :=
  match f.deciding? e with
  | some d => e.level.verbosity ≤ d.verbosity
  | none => false

end Filter

end CiWorkflow.Log
