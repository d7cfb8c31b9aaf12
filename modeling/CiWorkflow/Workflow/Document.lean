import CiWorkflow.Error
import CiWorkflow.Workflow.Job
import CiWorkflow.Workflow.Trigger

set_option autoImplicit false

namespace CiWorkflow

open Yaml

structure Workflow where
  name : String
  runName : Option String
  on : Triggers
  env : Entries String
  permissions : Option Permissions
  concurrency : Option Concurrency
  defaults : Option Defaults
  jobs : Entries Job

namespace Workflow

def new (name : String) (on : Triggers) : Workflow := ⟨name, none, on, .empty, none, none, none, .empty⟩

def fieldNames : List String :=
  ["name", "run-name", "on", "env", "permissions", "concurrency", "defaults", "jobs"]

def read? {σ : Type} [Source σ] (s : σ) : Option Workflow := do
  let r ← Record.read? fieldNames s
  let name ← r.required? "name" Source.text?
  let runName ← r.optional? "run-name" Source.text?
  let on ← r.required? "on" Triggers.read?
  let env ← r.defaulted? "env" .empty readTextEntries?
  let permissions ← r.optional? "permissions" Permissions.read?
  let concurrency ← r.optional? "concurrency" Concurrency.read?
  let defaults ← r.optional? "defaults" Defaults.read?
  let jobs ← r.defaulted? "jobs" .empty (readEntries? Job.read?)
  return ⟨name, runName, on, env, permissions, concurrency, defaults, jobs⟩

def jobEntries? : List (String × Job) → Option Fields
  | [] => some []
  | (id, j) :: rest => do
    let v ← j.value?
    let es ← jobEntries? rest
    return (.string id, v) :: es

/-- The value with its fields in their fixed order, jobs always included. -/
def value? (w : Workflow) : Option Value := do
  let jobs ← jobEntries? w.jobs.toList
  return Fields.value
    [.always "name" (.string w.name), .ifText "run-name" w.runName, .always "on" w.on.value,
      .ifEntries "env" .string w.env, .ifSome "permissions" Permissions.value w.permissions,
      .ifSome "concurrency" Concurrency.value w.concurrency, .ifSome "defaults" Defaults.value w.defaults,
      .always "jobs" (.mapping jobs)]

end Workflow

def readDocument? {α : Type} (read : Node → Option α) (text : String) : Option α :=
  (Node.read? text).bind read

end CiWorkflow
