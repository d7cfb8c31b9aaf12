import CiWorkflow.Json.Writer
import CiWorkflow.Workflow.Validate
import CiWorkflow.Yaml.Writer

set_option autoImplicit false

namespace CiWorkflow.Render

open Yaml

abbrev Encoder := Value → Nat → Except Error String

inductive Format where
  | yaml
  | json
  deriving DecidableEq, Repr

namespace Format

def encoder : Format → Encoder
  | .yaml => fun v _ =>
    match Yaml.write? v with
    | some text => .ok text
    | none => .error (.yaml (if v.hasNestedTags then .nestedTags else .hiddenMapping))
  | .json => fun v indent =>
    match Json.write indent v with
    | .ok text => .ok text
    | .error fault => .error (.json fault)

def ofName (name : String) : Except String Format :=
  let lower := String.ofList (name.toList.map Char.toLower)
  if lower = "yaml" || lower = "yml" then .ok .yaml
  else if lower = "json" then .ok .json
  else .error ("unknown output format `" ++ lower ++ "` (expected yaml or json)")

end Format

end CiWorkflow.Render
