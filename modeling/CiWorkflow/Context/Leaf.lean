import CiWorkflow.Context.Path

set_option autoImplicit false

namespace CiWorkflow

open Expression

namespace Context

structure Leaf where
  /-- The group and the name of the value in it. -/
  name : String
  path : String
  deriving DecidableEq, Repr

namespace Leaf

def named (group : String) (names : List String) : List Leaf :=
  names.map fun n => ⟨group ++ "." ++ n, group ++ "." ++ n⟩

def below (group base : String) (fields : List (String × String)) : List Leaf :=
  fields.map fun (n, f) => ⟨group ++ "." ++ n, base ++ "." ++ f⟩

def github : List Leaf :=
  named "github"
    ["action", "action_path", "action_ref", "action_repository", "action_status", "actor", "actor_id",
      "api_url", "base_ref", "env", "event_name", "event_path", "graphql_url", "head_ref", "job", "path",
      "ref", "ref_name", "ref_protected", "ref_type", "repository", "repository_id", "repository_owner",
      "repository_owner_id", "retention_days", "run_id", "run_number", "run_attempt", "secret_source",
      "server_url", "sha", "token", "triggering_actor", "workflow", "workflow_ref", "workflow_sha",
      "workspace"] ++
    below "github" "github" [("repository_url", "repositoryUrl")]

def pullRequest : List Leaf :=
  below "pull_request" "github.event.pull_request"
    [("title", "title"), ("number", "number"), ("body", "body"), ("draft", "draft"),
      ("head_ref", "head.ref"), ("head_sha", "head.sha"), ("base_ref", "base.ref"),
      ("base_sha", "base.sha")]

def mergeGroup : List Leaf :=
  below "merge_group" "github.event.merge_group"
    [("head_ref", "head_ref"), ("base_ref", "base_ref"), ("head_sha", "head_sha"),
      ("base_sha", "base_sha")]

def runner : List Leaf :=
  named "runner" ["name", "os", "arch", "temp", "tool_cache", "debug", "environment"]

def job : List Leaf :=
  named "job" ["status", "container"] ++
    below "job" "job" [("container_id", "container.id"), ("container_network", "container.network")]

def strategy : List Leaf :=
  below "strategy" "strategy"
    [("fail_fast", "fail-fast"), ("job_index", "job-index"), ("job_total", "job-total"),
      ("max_parallel", "max-parallel")]

def all : List Leaf := github ++ pullRequest ++ mergeGroup ++ runner ++ job ++ strategy

def find? (name : String) : Option Leaf := all.find? fun l => l.name = name

def fragment (l : Leaf) : Fragment := .ofPath l.path

end Leaf

inductive Member where
  | env (name : String)
  | secret (name : String)
  | configVariable (name : String)
  | input (name : String)
  | matrix (name : String)
  | stepOutput (step name : String)
  | stepOutcome (step : String)
  | stepConclusion (step : String)
  | neededOutput (job name : String)
  | neededResult (job : String)
  | jobOutput (job name : String)
  | jobResult (job : String)
  | serviceId (service : String)
  | serviceNetwork (service : String)
  | servicePorts (service : String)
  deriving DecidableEq, Repr

namespace Member

def parts : Member → String × List String
  | .env n => ("env", [n])
  | .secret n => ("secrets", [n])
  | .configVariable n => ("vars", [n])
  | .input n => ("inputs", [n])
  | .matrix n => ("matrix", [n])
  | .stepOutput s n => ("steps", [s, "outputs", n])
  | .stepOutcome s => ("steps", [s, "outcome"])
  | .stepConclusion s => ("steps", [s, "conclusion"])
  | .neededOutput j n => ("needs", [j, "outputs", n])
  | .neededResult j => ("needs", [j, "result"])
  | .jobOutput j n => ("jobs", [j, "outputs", n])
  | .jobResult j => ("jobs", [j, "result"])
  | .serviceId s => ("job.services", [s, "id"])
  | .serviceNetwork s => ("job.services", [s, "network"])
  | .servicePorts s => ("job.services", [s, "ports"])

def fragment (m : Member) : Except Error Fragment :=
  (descend m.parts.1 m.parts.2).map .ofPath

end Member

end Context

end CiWorkflow
