import CiWorkflow.Workflow.Container
import CiWorkflow.Workflow.Runner
import CiWorkflow.Workflow.Step

set_option autoImplicit false

namespace CiWorkflow

open Yaml

inductive JobKind where
  | runner
  | call
  deriving DecidableEq, Repr

structure Job where
  name : Option String
  needs : Option Needs
  condition : Option String
  runsOn : Option RunsOn
  permissions : Option Permissions
  environment : Option Environment
  concurrency : Option Concurrency
  outputs : Entries String
  env : Entries String
  defaults : Option Defaults
  timeoutMinutes : Option Count
  continueOnError : Option Flag
  strategy : Option Strategy
  container : Option Container
  services : Entries Container
  uses : Option String
  inputs : Entries Value
  secrets : Option Secrets
  steps : Option (List Step)

namespace Job

def empty : Job where
  name := none
  needs := none
  condition := none
  runsOn := none
  permissions := none
  environment := none
  concurrency := none
  outputs := .empty
  env := .empty
  defaults := none
  timeoutMinutes := none
  continueOnError := none
  strategy := none
  container := none
  services := .empty
  uses := none
  inputs := .empty
  secrets := none
  steps := none

def onRunner (runsOn : RunsOn) : Job := { empty with runsOn := some runsOn, steps := some [] }

def ofCall (workflow : String) : Job := { empty with uses := some workflow }

def kind? (j : Job) : Option JobKind :=
  match j.steps, j.uses with
  | some _, _ => some .runner
  | none, some _ => some .call
  | none, none => none

def fieldNames : List String :=
  ["name", "needs", "if", "runs-on", "permissions", "environment", "concurrency", "outputs", "env", "defaults",
    "timeout-minutes", "continue-on-error", "strategy", "container", "services", "uses", "with", "secrets",
    "steps"]

def read? {σ : Type} [Source σ] (s : σ) : Option Job := do
  let r ← Record.read? fieldNames s
  let name ← r.optional? "name" Source.text?
  let needs ← r.optional? "needs" Needs.read?
  let condition ← r.optional? "if" Source.text?
  let runsOn ← r.optional? "runs-on" RunsOn.read?
  let permissions ← r.optional? "permissions" Permissions.read?
  let environment ← r.optional? "environment" Environment.read?
  let concurrency ← r.optional? "concurrency" Concurrency.read?
  let outputs ← r.defaulted? "outputs" .empty readTextEntries?
  let env ← r.defaulted? "env" .empty readTextEntries?
  let defaults ← r.optional? "defaults" Defaults.read?
  let timeoutMinutes ← r.optional? "timeout-minutes" Count.read?
  let continueOnError ← r.optional? "continue-on-error" Flag.read?
  let strategy ← r.optional? "strategy" Strategy.read?
  let container ← r.optional? "container" Container.read?
  let services ← r.defaulted? "services" .empty (readEntries? Container.read?)
  let uses ← r.optional? "uses" Source.text?
  let inputs ← r.defaulted? "with" .empty readValueEntries?
  let secrets ← r.optional? "secrets" Secrets.read?
  let steps ← r.optional? "steps" (readList? Step.read?)
  return ⟨name, needs, condition, runsOn, permissions, environment, concurrency, outputs, env, defaults,
    timeoutMinutes, continueOnError, strategy, container, services, uses, inputs, secrets, steps⟩

def runsOnFields? (j : Job) : Option Fields :=
  match j.runsOn with
  | none => some []
  | some r => r.value?.map (Fields.always "runs-on")

def value? (j : Job) : Option Value := do
  let runsOn ← j.runsOnFields?
  return Fields.value
    [.ifText "name" j.name, .ifSome "needs" Needs.value j.needs, .ifText "if" j.condition, runsOn,
      .ifSome "permissions" Permissions.value j.permissions,
      .ifSome "environment" Environment.value j.environment,
      .ifSome "concurrency" Concurrency.value j.concurrency, .ifEntries "outputs" .string j.outputs,
      .ifEntries "env" .string j.env, .ifSome "defaults" Defaults.value j.defaults,
      .ifSome "timeout-minutes" Count.value j.timeoutMinutes,
      .ifSome "continue-on-error" Flag.value j.continueOnError,
      .ifSome "strategy" Strategy.value j.strategy, .ifSome "container" Container.value j.container,
      .ifEntries "services" Container.value j.services, .ifText "uses" j.uses,
      .ifEntries "with" Value.rebuilt j.inputs, .ifSome "secrets" Secrets.value j.secrets,
      .ifSome "steps" (fun ss => .sequence (ss.map Step.value)) j.steps]

end Job

end CiWorkflow
