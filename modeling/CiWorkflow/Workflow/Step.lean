import CiWorkflow.Workflow.Setting

set_option autoImplicit false

namespace CiWorkflow

open Yaml

inductive StepKind where
  | run
  | uses
  deriving DecidableEq, Repr

structure Step where
  name : Option String
  id : Option String
  condition : Option String
  uses : Option String
  inputs : Entries Value
  run : Option String
  shell : Option String
  workingDirectory : Option String
  env : Entries String
  continueOnError : Option Flag
  timeoutMinutes : Option Count

namespace Step

def empty : Step := ⟨none, none, none, none, .empty, none, none, none, .empty, none, none⟩

def ofScript (script : String) : Step := { empty with run := some script }
def ofAction (action : String) : Step := { empty with uses := some action }

def kind? (s : Step) : Option StepKind :=
  match s.run, s.uses with
  | some _, none => some .run
  | none, some _ => some .uses
  | _, _ => none

def fieldNames : List String :=
  ["name", "id", "if", "uses", "with", "run", "shell", "working-directory", "env", "continue-on-error",
    "timeout-minutes"]

def read? {σ : Type} [Source σ] (s : σ) : Option Step := do
  let r ← Record.read? fieldNames s
  let name ← r.optional? "name" Source.text?
  let id ← r.optional? "id" Source.text?
  let condition ← r.optional? "if" Source.text?
  let uses ← r.optional? "uses" Source.text?
  let inputs ← r.defaulted? "with" .empty readValueEntries?
  let run ← r.optional? "run" Source.text?
  let shell ← r.optional? "shell" Source.text?
  let workingDirectory ← r.optional? "working-directory" Source.text?
  let env ← r.defaulted? "env" .empty readTextEntries?
  let continueOnError ← r.optional? "continue-on-error" Flag.read?
  let timeoutMinutes ← r.optional? "timeout-minutes" Count.read?
  return ⟨name, id, condition, uses, inputs, run, shell, workingDirectory, env, continueOnError,
    timeoutMinutes⟩

def value (s : Step) : Value :=
  Fields.value
    [.ifText "name" s.name, .ifText "id" s.id, .ifText "if" s.condition, .ifText "uses" s.uses,
      .ifEntries "with" Value.rebuilt s.inputs, .ifText "run" s.run, .ifText "shell" s.shell,
      .ifText "working-directory" s.workingDirectory, .ifEntries "env" .string s.env,
      .ifSome "continue-on-error" Flag.value s.continueOnError,
      .ifSome "timeout-minutes" Count.value s.timeoutMinutes]

end Step

end CiWorkflow
