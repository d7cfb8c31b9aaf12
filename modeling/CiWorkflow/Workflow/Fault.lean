set_option autoImplicit false

namespace CiWorkflow

inductive StepFault where
  | runAndUses
  | neitherRunNorUses
  | inputsOnRun
  | shellOnUses
  | directoryOnUses
  deriving DecidableEq, Repr

def StepFault.reason : StepFault → String
  | .runAndUses => "cannot have both run and uses"
  | .neitherRunNorUses => "must have run or uses"
  | .inputsOnRun => "with is only valid on uses steps"
  | .shellOnUses => "shell is only valid on run steps"
  | .directoryOnUses => "working-directory is only valid on run steps"

inductive RunnerField where
  | runsOn
  | environment
  | outputs
  | defaults
  | container
  | services
  deriving DecidableEq, Repr

def RunnerField.name : RunnerField → String
  | .runsOn => "runs-on"
  | .environment => "environment"
  | .outputs => "outputs"
  | .defaults => "defaults"
  | .container => "container"
  | .services => "services"

inductive JobFault where
  | stepsAndUses
  | neitherStepsNorUses
  | noRunner
  | emptyMachine
  | inputsOnRunner
  | secretsOnRunner
  | noSteps
  | runnerFieldOnCall (field : RunnerField)
  | needsItself
  deriving DecidableEq, Repr

def emptyMachineReason : String := "runs-on machine needs a group, labels or name"

def JobFault.reason : JobFault → String
  | .stepsAndUses => "cannot have both steps and uses"
  | .neitherStepsNorUses => "must have steps (runner job) or uses (reusable workflow call)"
  | .noRunner => "runner job requires runs-on"
  | .emptyMachine => emptyMachineReason
  | .inputsOnRunner => "with is only valid on reusable workflow calls"
  | .secretsOnRunner => "secrets is only valid on reusable workflow calls"
  | .noSteps => "runner job must have at least one step"
  | .runnerFieldOnCall field => field.name ++ " is not allowed on a reusable workflow call"
  | .needsItself => "a job cannot need itself"

end CiWorkflow
