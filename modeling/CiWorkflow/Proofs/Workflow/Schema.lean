import CiWorkflow.Proofs.Yaml.Content
import CiWorkflow.Workflow.Document

/-!
# Where a document may have keys

A schema tells which places of a document hold records, which keys a record declares, and where keys are
free. A key anywhere else is a stray one: under a record that does not declare it, or where nothing with keys
belongs. Tags do not hide a place.
-/
set_option autoImplicit false

namespace CiWorkflow

namespace Yaml

inductive Schema where
  /-- Anything at all, with free keys. -/
  | free
  /-- Texts, numbers and lists of them, without any keys. -/
  | plain
  /-- A mapping with free keys. -/
  | entries (item : Schema)
  /-- A mapping with declared keys, or the list of its fields. -/
  | record (fields : List (String × Schema))
  /-- A mapping with declared keys and free ones besides. -/
  | openRecord (fields : List (String × Schema))
  /-- A list, or something else. -/
  | listOr (item other : Schema)

namespace Schema

def list (item : Schema) : Schema := .listOr item .plain

def openMap (item : Schema) : Schema := .listOr .plain (.entries item)

def ofNames (names : List String) : Schema := .record (names.map (·, .plain))

end Schema

/-- Somewhere in the value there is a key that does not belong there. -/
inductive HasStrayKey : Schema → Value → Prop where
  | unexpected {v w : Value} {es : List (Value × Value)} {name : String} (hv : v.bare = .mapping es)
      (he : (.string name, w) ∈ es) : HasStrayKey .plain v
  | inside {v w : Value} {items : List Value} (hv : v.bare = .sequence items) (hw : w ∈ items)
      (h : HasStrayKey .plain w) : HasStrayKey .plain v
  | entry {sch : Schema} {v : Value} {e : Value × Value} {es : List (Value × Value)}
      (hv : v.bare = .mapping es) (he : e ∈ es) (h : HasStrayKey sch e.2) : HasStrayKey (.entries sch) v
  | undeclared {fields : List (String × Schema)} {v w : Value} {es : List (Value × Value)} {name : String}
      (hv : v.bare = .mapping es) (he : (.string name, w) ∈ es) (hn : name ∉ fields.map Prod.fst) :
      HasStrayKey (.record fields) v
  | field {fields : List (String × Schema)} {v w : Value} {es : List (Value × Value)} {name : String}
      {sch : Schema} (hv : v.bare = .mapping es) (he : (.string name, w) ∈ es) (hf : (name, sch) ∈ fields)
      (h : HasStrayKey sch w) : HasStrayKey (.record fields) v
  | place {fields : List (String × Schema)} {v w : Value} {items : List Value} {i : Nat} {name : String}
      {sch : Schema} (hv : v.bare = .sequence items) (hi : items[i]? = some w)
      (hf : fields[i]? = some (name, sch)) (h : HasStrayKey sch w) : HasStrayKey (.record fields) v
  | known {fields : List (String × Schema)} {v w : Value} {es : List (Value × Value)} {name : String}
      {sch : Schema} (hv : v.bare = .mapping es) (he : (.string name, w) ∈ es) (hf : (name, sch) ∈ fields)
      (h : HasStrayKey sch w) : HasStrayKey (.openRecord fields) v
  | item {sch other : Schema} {v w : Value} {items : List Value} (hv : v.bare = .sequence items) (hw : w ∈ items)
      (h : HasStrayKey sch w) : HasStrayKey (.listOr sch other) v
  | other {sch other : Schema} {v : Value} {es : List (Value × Value)} (hv : v.bare = .mapping es)
      (h : HasStrayKey other v) : HasStrayKey (.listOr sch other) v

namespace HasStrayKey

variable {sch : Schema} {v : Value}

theorem isCollection (h : HasStrayKey sch v) : v.isCollection := by
  cases h <;> simp_all [Value.isCollection]

theorem not_free : ¬ HasStrayKey .free v := nofun

theorem not_flat {items : List Value} (hv : v.bare = .sequence items)
    (hflat : ∀ w ∈ items, ∀ sch, ¬ HasStrayKey sch w) : ¬ HasStrayKey sch v := by
  intro h
  cases h with
  | inside hv' hw h =>
    cases hv.symm.trans hv'
    exact hflat _ hw _ h
  | place hv' hi _ h =>
    cases hv.symm.trans hv'
    exact hflat _ (List.mem_of_getElem? hi) _ h
  | item hv' hw h =>
    cases hv.symm.trans hv'
    exact hflat _ hw _ h
  | unexpected hv' => cases hv.symm.trans hv'
  | entry hv' => cases hv.symm.trans hv'
  | undeclared hv' => cases hv.symm.trans hv'
  | field hv' => cases hv.symm.trans hv'
  | known hv' => cases hv.symm.trans hv'
  | other hv' => cases hv.symm.trans hv'

end HasStrayKey

end Yaml

open Yaml

def PermissionLevel.schema : Schema := .ofNames (all.map word)

def InputType.schema : Schema := .ofNames (all.map word)

def Permissions.schema : Schema := .openMap PermissionLevel.schema

def Concurrency.schema : Schema := .ofNames ConcurrencySpec.fieldNames

def Defaults.schema : Schema := .record [("run", .ofNames RunDefaults.fieldNames)]

def Environment.schema : Schema := .ofNames EnvironmentSpec.fieldNames

def Strategy.schema : Schema :=
  .record [("matrix", .openMap .free), ("fail-fast", .plain), ("max-parallel", .plain)]

namespace Schedule

/-- A list of records with one time each, or a record with all times; the latter may be `closed` to other
keys or not. -/
def schema (closed : Bool) : Schema :=
  .listOr (.ofNames entryFieldNames) (if closed then .ofNames entryFieldNames else .openRecord [("cron", .plain)])

end Schedule

def WorkflowInput.schema : Schema :=
  .record
    [("description", .plain), ("required", .plain), ("type", InputType.schema), ("default", .free),
      ("options", .plain)]

def WorkflowDispatch.schema : Schema := .record [("inputs", .openMap WorkflowInput.schema)]

def WorkflowCall.schema : Schema :=
  .record
    [("inputs", .openMap WorkflowInput.schema), ("secrets", .openMap (.ofNames CallSecret.fieldNames)),
      ("outputs", .openMap (.ofNames CallOutput.fieldNames))]

/-- Events with settings of their own; any other event is free, and so are its settings. -/
def TriggerSpec.events (closed : Bool) : List (String × Schema) :=
  [("push", .ofNames PushTrigger.fieldNames), ("pull_request", .ofNames PullRequestTrigger.fieldNames),
    ("pull_request_target", .ofNames PullRequestTrigger.fieldNames),
    ("merge_group", .ofNames TypesTrigger.fieldNames), ("schedule", Schedule.schema closed),
    ("workflow_dispatch", WorkflowDispatch.schema), ("workflow_call", WorkflowCall.schema),
    ("workflow_run", .ofNames WorkflowRun.fieldNames), ("release", .ofNames TypesTrigger.fieldNames),
    ("issues", .ofNames TypesTrigger.fieldNames), ("issue_comment", .ofNames TypesTrigger.fieldNames)]

def Triggers.schema (closed : Bool) : Schema := .listOr .plain (.openRecord (TriggerSpec.events closed))

def Machine.schema : Schema := .ofNames fieldNames

def RunsOn.schema : Schema := .listOr Machine.schema Machine.schema

def Container.schema : Schema :=
  .record
    [("image", .plain), ("credentials", .ofNames Credentials.fieldNames), ("env", .openMap .plain),
      ("ports", .plain), ("volumes", .plain), ("options", .plain)]

def Step.schema : Schema :=
  .record
    [("name", .plain), ("id", .plain), ("if", .plain), ("uses", .plain), ("with", .openMap .free),
      ("run", .plain), ("shell", .plain), ("working-directory", .plain), ("env", .openMap .plain),
      ("continue-on-error", .plain), ("timeout-minutes", .plain)]

def Job.schema : Schema :=
  .record
    [("name", .plain), ("needs", .plain), ("if", .plain), ("runs-on", RunsOn.schema),
      ("permissions", Permissions.schema), ("environment", Environment.schema),
      ("concurrency", Concurrency.schema), ("outputs", .openMap .plain), ("env", .openMap .plain),
      ("defaults", Defaults.schema), ("timeout-minutes", .plain), ("continue-on-error", .plain),
      ("strategy", Strategy.schema), ("container", Container.schema),
      ("services", .openMap Container.schema), ("uses", .plain), ("with", .openMap .free),
      ("secrets", .openMap .plain), ("steps", .list Step.schema)]

def Workflow.schema (closed : Bool) : Schema :=
  .record
    [("name", .plain), ("run-name", .plain), ("on", Triggers.schema closed), ("env", .openMap .plain),
      ("permissions", Permissions.schema), ("concurrency", Concurrency.schema), ("defaults", Defaults.schema),
      ("jobs", .openMap Job.schema)]

end CiWorkflow
