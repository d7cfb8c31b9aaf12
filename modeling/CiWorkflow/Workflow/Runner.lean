import CiWorkflow.Yaml.Fields
import CiWorkflow.Yaml.Source

set_option autoImplicit false

namespace CiWorkflow

open Yaml

structure Machine where
  name : Option String
  group : Option String
  labels : Option (List String)
  deriving DecidableEq, Repr

namespace Machine

def fieldNames : List String := ["name", "group", "labels"]

def readLabels? {σ : Type} [Source σ] : σ → Option (List String) :=
  readOneOf? [fun v => v.text?.map fun s => [s], fun v => readTexts? v]

def read? {σ : Type} [Source σ] (s : σ) : Option Machine := do
  let r ← Record.read? fieldNames s
  let name ← r.optional? "name" Source.text?
  let group ← r.optional? "group" Source.text?
  let labels ← r.optional? "labels" readLabels?
  return ⟨name, group, labels⟩

/-- The group if there is one, else the labels, else the name; the empty text is no label. -/
def label? (m : Machine) : Option String :=
  ((m.group.or (m.labels.map fun ls => ",".intercalate ls)).or m.name).filter fun s => !s.isEmpty

end Machine

inductive Runner where
  | label (s : String)
  | machine (m : Machine)
  deriving DecidableEq, Repr

namespace Runner

def read? {σ : Type} [Source σ] : σ → Option Runner :=
  readOneOf? [fun v => v.text?.map .label, fun v => (Machine.read? v).map .machine]

def label? : Runner → Option String
  | .label s => some s
  | .machine m => m.label?

end Runner

inductive RunsOn where
  | one (r : Runner)
  | many (rs : List Runner)
  deriving DecidableEq, Repr

inductive RunnerLabel where
  | one (s : String)
  | many (ss : List String)
  deriving DecidableEq, Repr

namespace RunnerLabel

def value : RunnerLabel → Value
  | .one s => .string s
  | .many ss => ofTexts ss

end RunnerLabel

namespace RunsOn

/-- A text is a label. A list of as many elements as a machine has fields is tried as a machine first. -/
def read? {σ : Type} [Source σ] : σ → Option RunsOn :=
  readOneOf?
    [fun v => v.text?.map fun s => .one (.label s), fun v => (Machine.read? v).map fun m => .one (.machine m),
      fun v => (readList? Runner.read? v).map .many]

/-- The labels; there are none if a machine has none. -/
def labels? : RunsOn → Option RunnerLabel
  | .one r => r.label?.map .one
  | .many rs => (rs.mapM Runner.label?).map .many

def value? (r : RunsOn) : Option Value := r.labels?.map RunnerLabel.value

end RunsOn

end CiWorkflow
