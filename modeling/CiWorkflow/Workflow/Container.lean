import CiWorkflow.Workflow.Setting

set_option autoImplicit false

namespace CiWorkflow

open Yaml

structure Credentials where
  username : String
  password : String
  deriving DecidableEq, Repr

namespace Credentials

def fieldNames : List String := ["username", "password"]

def read? {σ : Type} [Source σ] (s : σ) : Option Credentials := do
  let r ← Record.read? fieldNames s
  let username ← r.required? "username" Source.text?
  let password ← r.required? "password" Source.text?
  return ⟨username, password⟩

def value (c : Credentials) : Value :=
  Fields.value [.always "username" (.string c.username), .always "password" (.string c.password)]

end Credentials

inductive Port where
  | word (n : UInt32)
  | mapping (s : String)
  deriving DecidableEq, Repr

namespace Port

def number (n : Nat) : Port := .word n.toUInt32

def read? {σ : Type} [Source σ] : σ → Option Port :=
  readOneOf? [fun v => (readNatural? UInt32.size v).map number, fun v => v.text?.map .mapping]

def value : Port → Value
  | .word n => .int n.toNat
  | .mapping s => .string s

end Port

structure ContainerSpec where
  image : String
  credentials : Option Credentials
  env : Entries String
  ports : List Port
  volumes : List String
  options : Option String
  deriving DecidableEq

namespace ContainerSpec

def fieldNames : List String := ["image", "credentials", "env", "ports", "volumes", "options"]

def read? {σ : Type} [Source σ] (s : σ) : Option ContainerSpec := do
  let r ← Record.read? fieldNames s
  let image ← r.required? "image" Source.text?
  let credentials ← r.optional? "credentials" Credentials.read?
  let env ← r.defaulted? "env" .empty readTextEntries?
  let ports ← r.defaulted? "ports" [] (readList? Port.read?)
  let volumes ← r.defaulted? "volumes" [] readTexts?
  let options ← r.optional? "options" Source.text?
  return ⟨image, credentials, env, ports, volumes, options⟩

def value (c : ContainerSpec) : Value :=
  Fields.value
    [.always "image" (.string c.image), .ifSome "credentials" Credentials.value c.credentials,
      .ifEntries "env" .string c.env,
      if c.ports.isEmpty then [] else .always "ports" (.sequence (c.ports.map Port.value)),
      .ifTexts "volumes" c.volumes, .ifText "options" c.options]

end ContainerSpec

inductive Container where
  | image (s : String)
  | spec (c : ContainerSpec)
  deriving DecidableEq

namespace Container

def read? {σ : Type} [Source σ] : σ → Option Container :=
  readOneOf? [fun v => v.text?.map .image, fun v => (ContainerSpec.read? v).map .spec]

def value : Container → Value
  | .image s => .string s
  | .spec c => c.value

end Container

end CiWorkflow
