import CiWorkflow.Render.Block
import CiWorkflow.Render.Format
import CiWorkflow.Yaml.Reader

set_option autoImplicit false

namespace CiWorkflow.Render

open Text Yaml

def defaultHeader : String :=
  "# Do not modify!\n# Generated by ghaflow; edit the workflow definition instead.\n"

def defaultIndent : Nat := 2

/-- The lines of a text; a carriage return before a line feed belongs to the line end. -/
def headerLines (cs : List Char) : List (List Char) :=
  let pieces := splitAt '\n' cs
  let ended := pieces.dropLast.map fun l => if l.getLast? = some '\r' then l.dropLast else l
  ended ++ (pieces.getLast?.toList.filter fun l => !l.isEmpty)

def commentLine (line : List Char) : List Char :=
  (if line.isEmpty || line.head? = some '#' then line else '#' :: ' ' :: line) ++ ['\n']

def commentBlock (header : String) : String :=
  String.ofList ((headerLines header.toList).flatMap commentLine)

/-- Ends a text in one line feed, unless more of them belong to the data. -/
def finishBody (body : String) : Except Error String :=
  let (trimmed, trailing) := splitTrailing body.toList
  let candidate := String.ofList (trimmed ++ ['\n'])
  if trailing ≤ 1 then .ok candidate
  else
    match Yaml.read? body, Yaml.read? candidate with
    | some a, some b => .ok (if a.same b then candidate else body)
    | _, _ => .error (.yaml .unreadable)

structure Renderer where
  header : String
  encoder : Encoder
  indent : Nat

namespace Renderer

def standard : Renderer := ⟨defaultHeader, Format.yaml.encoder, defaultIndent⟩

def ofFormat (f : Format) : Renderer := { standard with encoder := f.encoder }

def width (r : Renderer) : Nat := max r.indent 1

def body (r : Renderer) (v : Value) : Except Error String := do
  let (marked, blocks) := mark v
  let encoded ← r.encoder marked r.width
  finishBody (blocks.restore r.width encoded)

def render (r : Renderer) (w : Workflow) : Except Error String := do
  let v ← w.canonical
  let text ← r.body v
  return commentBlock r.header ++ text

end Renderer

def render (w : Workflow) : Except Error String := Renderer.standard.render w

end CiWorkflow.Render
