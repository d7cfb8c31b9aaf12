import CiWorkflow.Text.Blank
import CiWorkflow.Workflow.Document

set_option autoImplicit false

namespace CiWorkflow

open Text

namespace Triggers

def isActive : Triggers → Bool
  | .event name => !isBlankText name
  | .events names => names.any fun name => !isBlankText name
  | .spec t => t.isActive

def validate (t : Triggers) : Except Error Unit :=
  if t.isActive then .ok () else .error .emptyTriggerSet

end Triggers

namespace Step

def fault? (s : Step) : Option StepFault :=
  match s.kind? with
  | some .run => if s.inputs.isEmpty then none else some .inputsOnRun
  | some .uses =>
    if s.shell.isSome then some .shellOnUses
    else if s.workingDirectory.isSome then some .directoryOnUses
    else none
  | none => if s.run.isSome then some .runAndUses else some .neitherRunNorUses

def validate (job : String) (index : Nat) (s : Step) : Except Error Unit :=
  match s.fault? with
  | some fault => .error (.invalidStep job index fault)
  | none => .ok ()

def validateAll (job : String) (index : Nat) : List Step → Except Error Unit
  | [] => .ok ()
  | s :: rest => do
    s.validate job index
    validateAll job (index + 1) rest

end Step

namespace Job

def runnerFault? (j : Job) : Option JobFault :=
  match j.runsOn with
  | none => some .noRunner
  | some r =>
    if r.labels?.isNone then some .emptyMachine
    else if !j.inputs.isEmpty then some .inputsOnRunner
    else if j.secrets.isSome then some .secretsOnRunner
    else if (j.steps.getD []).isEmpty then some .noSteps
    else none

/-- The fields that need a runner, in the order in which they are reported. -/
def runnerFields (j : Job) : List RunnerField :=
  [(.runsOn, j.runsOn.isSome), (.environment, j.environment.isSome), (.outputs, !j.outputs.isEmpty),
    (.defaults, j.defaults.isSome), (.container, j.container.isSome),
    (.services, !j.services.isEmpty)].filterMap fun (field, given) => if given then some field else none

def fault? (j : Job) : Option JobFault :=
  if j.steps.isSome && j.uses.isSome then some .stepsAndUses
  else
    match j.kind? with
    | some .runner => j.runnerFault?
    | some .call => j.runnerFields.head?.map .runnerFieldOnCall
    | none => some .neitherStepsNorUses

def validate (id : String) (j : Job) : Except Error Unit :=
  match j.fault? with
  | some fault => .error (.invalidJob id fault)
  | none => Step.validateAll id 0 (j.steps.getD [])

def validateAll : List (String × Job) → Except Error Unit
  | [] => .ok ()
  | (id, j) :: rest => do
    j.validate id
    validateAll rest

end Job

namespace Workflow

def validateNeeded (ids : List String) (id : String) : List String → Except Error Unit
  | [] => .ok ()
  | name :: rest =>
    if name = id then .error (.invalidJob id .needsItself)
    else if !ids.contains name then .error (.unknownJobDependency id name)
    else validateNeeded ids id rest

def validateNeeds (ids : List String) : List (String × Job) → Except Error Unit
  | [] => .ok ()
  | (id, j) :: rest => do
    validateNeeded ids id ((j.needs.map Needs.names).getD [])
    validateNeeds ids rest

def validate (w : Workflow) : Except Error Unit := do
  w.on.validate
  Job.validateAll w.jobs.toList
  validateNeeds w.jobs.names w.jobs.toList

def canonical (w : Workflow) : Except Error Yaml.Value := do
  w.validate
  match w.value? with
  | some v => .ok v
  | none => .error (.yaml .emptyMachine)

def load (path text : String) : Except Error Workflow :=
  match readDocument? read? text with
  | none => .error (.invalidDefinition path)
  | some w => do
    w.validate
    return w

end Workflow

end CiWorkflow
