import CiWorkflow.Yaml.Fields
import CiWorkflow.Yaml.Source

set_option autoImplicit false

namespace CiWorkflow

open Yaml

structure PushTrigger where
  branches : List String
  branchesIgnore : List String
  tags : List String
  tagsIgnore : List String
  paths : List String
  pathsIgnore : List String
  deriving DecidableEq, Repr, Inhabited

namespace PushTrigger

def fieldNames : List String :=
  ["branches", "branches-ignore", "tags", "tags-ignore", "paths", "paths-ignore"]

def read? {σ : Type} [Source σ] (s : σ) : Option PushTrigger := do
  let r ← Record.read? fieldNames s
  let branches ← r.defaulted? "branches" [] readTexts?
  let branchesIgnore ← r.defaulted? "branches-ignore" [] readTexts?
  let tags ← r.defaulted? "tags" [] readTexts?
  let tagsIgnore ← r.defaulted? "tags-ignore" [] readTexts?
  let paths ← r.defaulted? "paths" [] readTexts?
  let pathsIgnore ← r.defaulted? "paths-ignore" [] readTexts?
  return ⟨branches, branchesIgnore, tags, tagsIgnore, paths, pathsIgnore⟩

def value (t : PushTrigger) : Value :=
  Fields.value
    [.ifTexts "branches" t.branches, .ifTexts "branches-ignore" t.branchesIgnore, .ifTexts "tags" t.tags,
      .ifTexts "tags-ignore" t.tagsIgnore, .ifTexts "paths" t.paths, .ifTexts "paths-ignore" t.pathsIgnore]

def ofBranches (branches : List String) : PushTrigger := { (default : PushTrigger) with branches := branches }
def ofTags (tags : List String) : PushTrigger := { (default : PushTrigger) with tags := tags }

end PushTrigger

structure PullRequestTrigger where
  types : List String
  branches : List String
  branchesIgnore : List String
  paths : List String
  pathsIgnore : List String
  deriving DecidableEq, Repr, Inhabited

namespace PullRequestTrigger

def fieldNames : List String := ["types", "branches", "branches-ignore", "paths", "paths-ignore"]

def read? {σ : Type} [Source σ] (s : σ) : Option PullRequestTrigger := do
  let r ← Record.read? fieldNames s
  let types ← r.defaulted? "types" [] readTexts?
  let branches ← r.defaulted? "branches" [] readTexts?
  let branchesIgnore ← r.defaulted? "branches-ignore" [] readTexts?
  let paths ← r.defaulted? "paths" [] readTexts?
  let pathsIgnore ← r.defaulted? "paths-ignore" [] readTexts?
  return ⟨types, branches, branchesIgnore, paths, pathsIgnore⟩

def value (t : PullRequestTrigger) : Value :=
  Fields.value
    [.ifTexts "types" t.types, .ifTexts "branches" t.branches, .ifTexts "branches-ignore" t.branchesIgnore,
      .ifTexts "paths" t.paths, .ifTexts "paths-ignore" t.pathsIgnore]

def ofBranches (branches : List String) : PullRequestTrigger :=
  { (default : PullRequestTrigger) with branches := branches }

end PullRequestTrigger

structure TypesTrigger where
  types : List String
  deriving DecidableEq, Repr, Inhabited

namespace TypesTrigger

def fieldNames : List String := ["types"]

def read? {σ : Type} [Source σ] (s : σ) : Option TypesTrigger := do
  let r ← Record.read? fieldNames s
  let types ← r.defaulted? "types" [] readTexts?
  return ⟨types⟩

def value (t : TypesTrigger) : Value := Fields.value [.ifTexts "types" t.types]

end TypesTrigger

structure Schedule where
  crons : List String
  deriving DecidableEq, Repr

namespace Schedule

def entryFieldNames : List String := ["cron"]

def readCron? {σ : Type} [Source σ] (s : σ) : Option String := do
  let r ← Record.read? entryFieldNames s
  r.required? "cron" Source.text?

def readWrapped? : Value → Option (List String)
  | .mapping es => do
    let found ← Record.collect? false entryFieldNames [] es
    let v ← found.lookup "cron"
    readTexts? v
  | _ => none

/-- A list of times, a list of records with a time each, or a record with a list of times. -/
def read? {σ : Type} [Source σ] (s : σ) : Option Schedule :=
  (readOneOf? [fun v => readTexts? v, fun v => readList? readCron? v, readWrapped?] s).map Schedule.mk

def value (s : Schedule) : Value :=
  .sequence (s.crons.map fun cron => Fields.value [.always "cron" (.string cron)])

end Schedule

inductive InputType where
  | string
  | boolean
  | number
  | choice
  | environment
  deriving DecidableEq, Repr

namespace InputType

def word : InputType → String
  | .string => "string"
  | .boolean => "boolean"
  | .number => "number"
  | .choice => "choice"
  | .environment => "environment"

def all : List InputType := [.string, .boolean, .number, .choice, .environment]

def read? {σ : Type} [Source σ] (s : σ) : Option InputType :=
  (Source.word? (all.map word) s).bind fun w => all.find? fun t => t.word = w

def value (t : InputType) : Value := .string t.word

end InputType

structure WorkflowInput where
  description : Option String
  required : Option Bool
  type : Option InputType
  default : Option Value
  options : List String

namespace WorkflowInput

def fieldNames : List String := ["description", "required", "type", "default", "options"]

def read? {σ : Type} [Source σ] (s : σ) : Option WorkflowInput := do
  let r ← Record.read? fieldNames s
  let description ← r.optional? "description" Source.text?
  let required ← r.optional? "required" Source.bool?
  let type ← r.optional? "type" InputType.read?
  let default ← r.optional? "default" Source.value?
  let options ← r.defaulted? "options" [] readTexts?
  return ⟨description, required, type, default, options⟩

def value (i : WorkflowInput) : Value :=
  Fields.value
    [.ifText "description" i.description, .ifSome "required" .bool i.required,
      .ifSome "type" InputType.value i.type, .ifSome "default" Value.rebuilt i.default, .ifTexts "options" i.options]

end WorkflowInput

structure WorkflowDispatch where
  inputs : Entries WorkflowInput
  deriving Inhabited

namespace WorkflowDispatch

def fieldNames : List String := ["inputs"]

def read? {σ : Type} [Source σ] (s : σ) : Option WorkflowDispatch := do
  let r ← Record.read? fieldNames s
  let inputs ← r.defaulted? "inputs" .empty (readEntries? WorkflowInput.read?)
  return ⟨inputs⟩

def value (d : WorkflowDispatch) : Value := Fields.value [.ifEntries "inputs" WorkflowInput.value d.inputs]

end WorkflowDispatch

structure CallSecret where
  description : Option String
  required : Option Bool
  deriving DecidableEq, Repr

namespace CallSecret

def fieldNames : List String := ["description", "required"]

def read? {σ : Type} [Source σ] (s : σ) : Option CallSecret := do
  let r ← Record.read? fieldNames s
  let description ← r.optional? "description" Source.text?
  let required ← r.optional? "required" Source.bool?
  return ⟨description, required⟩

def value (c : CallSecret) : Value :=
  Fields.value [.ifText "description" c.description, .ifSome "required" .bool c.required]

end CallSecret

structure CallOutput where
  description : Option String
  value : String
  deriving DecidableEq, Repr

namespace CallOutput

def fieldNames : List String := ["description", "value"]

def read? {σ : Type} [Source σ] (s : σ) : Option CallOutput := do
  let r ← Record.read? fieldNames s
  let description ← r.optional? "description" Source.text?
  let value ← r.required? "value" Source.text?
  return ⟨description, value⟩

def toValue (c : CallOutput) : Value :=
  Fields.value [.ifText "description" c.description, .always "value" (.string c.value)]

end CallOutput

structure WorkflowCall where
  inputs : Entries WorkflowInput
  secrets : Entries CallSecret
  outputs : Entries CallOutput
  deriving Inhabited

namespace WorkflowCall

def fieldNames : List String := ["inputs", "secrets", "outputs"]

def read? {σ : Type} [Source σ] (s : σ) : Option WorkflowCall := do
  let r ← Record.read? fieldNames s
  let inputs ← r.defaulted? "inputs" .empty (readEntries? WorkflowInput.read?)
  let secrets ← r.defaulted? "secrets" .empty (readEntries? CallSecret.read?)
  let outputs ← r.defaulted? "outputs" .empty (readEntries? CallOutput.read?)
  return ⟨inputs, secrets, outputs⟩

def value (c : WorkflowCall) : Value :=
  Fields.value
    [.ifEntries "inputs" WorkflowInput.value c.inputs, .ifEntries "secrets" CallSecret.value c.secrets,
      .ifEntries "outputs" CallOutput.toValue c.outputs]

end WorkflowCall

structure WorkflowRun where
  workflows : List String
  types : List String
  branches : List String
  branchesIgnore : List String
  deriving DecidableEq, Repr, Inhabited

namespace WorkflowRun

def fieldNames : List String := ["workflows", "types", "branches", "branches-ignore"]

def read? {σ : Type} [Source σ] (s : σ) : Option WorkflowRun := do
  let r ← Record.read? fieldNames s
  let workflows ← r.required? "workflows" readTexts?
  let types ← r.defaulted? "types" [] readTexts?
  let branches ← r.defaulted? "branches" [] readTexts?
  let branchesIgnore ← r.defaulted? "branches-ignore" [] readTexts?
  return ⟨workflows, types, branches, branchesIgnore⟩

def value (t : WorkflowRun) : Value :=
  Fields.value
    [.always "workflows" (ofTexts t.workflows), .ifTexts "types" t.types, .ifTexts "branches" t.branches,
      .ifTexts "branches-ignore" t.branchesIgnore]

end WorkflowRun

structure TriggerSpec where
  push : Option PushTrigger
  pullRequest : Option PullRequestTrigger
  pullRequestTarget : Option PullRequestTrigger
  mergeGroup : Option TypesTrigger
  schedule : Option Schedule
  workflowDispatch : Option WorkflowDispatch
  workflowCall : Option WorkflowCall
  workflowRun : Option WorkflowRun
  release : Option TypesTrigger
  issues : Option TypesTrigger
  issueComment : Option TypesTrigger
  other : Entries Value

namespace TriggerSpec

def empty : TriggerSpec :=
  ⟨none, none, none, none, none, none, none, none, none, none, none, .empty⟩

def fieldNames : List String :=
  ["push", "pull_request", "pull_request_target", "merge_group", "schedule", "workflow_dispatch",
    "workflow_call", "workflow_run", "release", "issues", "issue_comment"]

/-- Sorts events into those with settings of their own, none twice, and the others. -/
def sortEvents? {σ : Type} [Source σ] (found : List (String × σ)) (other : Entries Value) :
    List (σ × σ) → Option (List (String × σ) × Entries Value)
  | [] => some (found, other)
  | (k, v) :: rest => do
    let name ← Source.text? k
    if fieldNames.contains name then
      if (found.lookup name).isSome then none else sortEvents? (found ++ [(name, v)]) other rest
    else
      let settings ← (Source.buffer? v).filter Value.wellFormed
      sortEvents? found (other.insert name settings) rest

/-- The settings of an event; null gives the default ones. -/
def readEvent? {σ α : Type} [Source σ] [Inhabited α] (name : String) (read : σ → Option α)
    (found : List (String × σ)) : Option (Option α) :=
  match found.lookup name with
  | none => some none
  | some s => (readOptional? read s).map fun x => some (x.getD default)

/-- The times of a schedule; null stands for no schedule. -/
def readSchedule? {σ : Type} [Source σ] (found : List (String × σ)) : Option (Option Schedule) :=
  match found.lookup "schedule" with
  | none => some none
  | some s => readOptional? Schedule.read? s

def ofFound? {σ : Type} [Source σ] (found : List (String × σ)) (other : Entries Value) :
    Option TriggerSpec := do
  let push ← readEvent? "push" PushTrigger.read? found
  let pullRequest ← readEvent? "pull_request" PullRequestTrigger.read? found
  let pullRequestTarget ← readEvent? "pull_request_target" PullRequestTrigger.read? found
  let mergeGroup ← readEvent? "merge_group" TypesTrigger.read? found
  let schedule ← readSchedule? found
  let workflowDispatch ← readEvent? "workflow_dispatch" WorkflowDispatch.read? found
  let workflowCall ← readEvent? "workflow_call" WorkflowCall.read? found
  let workflowRun ← readEvent? "workflow_run" WorkflowRun.read? found
  let release ← readEvent? "release" TypesTrigger.read? found
  let issues ← readEvent? "issues" TypesTrigger.read? found
  let issueComment ← readEvent? "issue_comment" TypesTrigger.read? found
  return ⟨push, pullRequest, pullRequestTarget, mergeGroup, schedule, workflowDispatch, workflowCall,
    workflowRun, release, issues, issueComment, other⟩

def read? {σ : Type} [Source σ] (s : σ) : Option TriggerSpec :=
  match Source.shape s with
  | .blank => some empty
  | .entries es => do
    let (found, other) ← sortEvents? [] .empty es
    ofFound? found other
  | _ => none

def ownFields (t : TriggerSpec) : Fields :=
  Fields.concat
    [.ifSome "push" PushTrigger.value t.push, .ifSome "pull_request" PullRequestTrigger.value t.pullRequest,
      .ifSome "pull_request_target" PullRequestTrigger.value t.pullRequestTarget,
      .ifSome "merge_group" TypesTrigger.value t.mergeGroup, .ifSome "schedule" Schedule.value t.schedule,
      .ifSome "workflow_dispatch" WorkflowDispatch.value t.workflowDispatch,
      .ifSome "workflow_call" WorkflowCall.value t.workflowCall,
      .ifSome "workflow_run" WorkflowRun.value t.workflowRun, .ifSome "release" TypesTrigger.value t.release,
      .ifSome "issues" TypesTrigger.value t.issues,
      .ifSome "issue_comment" TypesTrigger.value t.issueComment]

/-- Another event named like one with settings of its own takes its place. -/
def value (t : TriggerSpec) : Value :=
  .mapping (t.other.toList.foldl (fun es e => Value.putEntry (.string e.1) e.2.rebuilt es) t.ownFields)

def isActive (t : TriggerSpec) : Bool :=
  t.push.isSome || t.pullRequest.isSome || t.pullRequestTarget.isSome || t.mergeGroup.isSome ||
    t.schedule.isSome || t.workflowDispatch.isSome || t.workflowCall.isSome || t.workflowRun.isSome ||
    t.release.isSome || t.issues.isSome || t.issueComment.isSome || !t.other.isEmpty

end TriggerSpec

inductive Triggers where
  | event (name : String)
  | events (names : List String)
  | spec (t : TriggerSpec)

namespace Triggers

def read? {σ : Type} [Source σ] : σ → Option Triggers :=
  readOneOf?
    [fun v => v.text?.map .event, fun v => (readTexts? v).map .events, fun v => (TriggerSpec.read? v).map .spec]

def value : Triggers → Value
  | .event name => .string name
  | .events names => ofTexts names
  | .spec t => t.value

end Triggers

end CiWorkflow
