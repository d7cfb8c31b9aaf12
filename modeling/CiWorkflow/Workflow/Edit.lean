import CiWorkflow.Workflow.Document

set_option autoImplicit false

namespace CiWorkflow

open Yaml

inductive StepEdit where
  | name (s : String)
  | id (s : String)
  | condition (s : String)
  | uses (s : String)
  | input (key : String) (v : Value)
  | run (s : String)
  | shell (s : String)
  | workingDirectory (s : String)
  | env (key value : String)
  | continueOnError (f : Flag)
  | timeoutMinutes (c : Count)

def Step.edit (e : StepEdit) (s : Step) : Step :=
  match e with
  | .name x => { s with name := some x }
  | .id x => { s with id := some x }
  | .condition x => { s with condition := some x }
  | .uses x => { s with uses := some x }
  | .input k v => { s with inputs := s.inputs.insert k v }
  | .run x => { s with run := some x }
  | .shell x => { s with shell := some x }
  | .workingDirectory x => { s with workingDirectory := some x }
  | .env k v => { s with env := s.env.insert k v }
  | .continueOnError f => { s with continueOnError := some f }
  | .timeoutMinutes c => { s with timeoutMinutes := some c }

inductive JobEdit where
  | name (s : String)
  | needs (n : Needs)
  | condition (s : String)
  | runsOn (r : RunsOn)
  | permissions (p : Permissions)
  | environment (e : Environment)
  | concurrency (c : Concurrency)
  | output (key value : String)
  | env (key value : String)
  | defaults (d : Defaults)
  | timeoutMinutes (c : Count)
  | continueOnError (f : Flag)
  | strategy (s : Strategy)
  | container (c : Container)
  | service (key : String) (c : Container)
  | uses (s : String)
  | input (key : String) (v : Value)
  | secrets (s : Secrets)
  /-- One more step at the end. -/
  | step (s : Step)

def Job.edit (e : JobEdit) (j : Job) : Job :=
  match e with
  | .name x => { j with name := some x }
  | .needs n => { j with needs := some n }
  | .condition x => { j with condition := some x }
  | .runsOn r => { j with runsOn := some r }
  | .permissions p => { j with permissions := some p }
  | .environment x => { j with environment := some x }
  | .concurrency c => { j with concurrency := some c }
  | .output k v => { j with outputs := j.outputs.insert k v }
  | .env k v => { j with env := j.env.insert k v }
  | .defaults d => { j with defaults := some d }
  | .timeoutMinutes c => { j with timeoutMinutes := some c }
  | .continueOnError f => { j with continueOnError := some f }
  | .strategy s => { j with strategy := some s }
  | .container c => { j with container := some c }
  | .service k c => { j with services := j.services.insert k c }
  | .uses x => { j with uses := some x }
  | .input k v => { j with inputs := j.inputs.insert k v }
  | .secrets s => { j with secrets := some s }
  | .step s => { j with steps := some (j.steps.getD [] ++ [s]) }

inductive WorkflowEdit where
  | runName (s : String)
  | env (key value : String)
  | permissions (p : Permissions)
  | concurrency (c : Concurrency)
  | defaults (d : Defaults)
  | job (id : String) (j : Job)

def Workflow.edit (e : WorkflowEdit) (w : Workflow) : Workflow :=
  match e with
  | .runName x => { w with runName := some x }
  | .env k v => { w with env := w.env.insert k v }
  | .permissions p => { w with permissions := some p }
  | .concurrency c => { w with concurrency := some c }
  | .defaults d => { w with defaults := some d }
  | .job id j => { w with jobs := w.jobs.insert id j }

inductive TriggerEdit where
  | push (t : PushTrigger)
  | pullRequest (t : PullRequestTrigger)
  | schedule (s : Schedule)
  | workflowDispatch (d : WorkflowDispatch)
  /-- Any other event with its settings. -/
  | event (name : String) (settings : Value)

def TriggerSpec.edit (e : TriggerEdit) (t : TriggerSpec) : TriggerSpec :=
  match e with
  | .push x => { t with push := some x }
  | .pullRequest x => { t with pullRequest := some x }
  | .schedule s => { t with schedule := some s }
  | .workflowDispatch d => { t with workflowDispatch := some d }
  | .event name v => { t with other := t.other.insert name v }

end CiWorkflow
