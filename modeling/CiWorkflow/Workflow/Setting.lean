import CiWorkflow.Yaml.Fields
import CiWorkflow.Yaml.Source

set_option autoImplicit false

namespace CiWorkflow

open Yaml

inductive Flag where
  | bool (b : Bool)
  | text (s : String)
  deriving DecidableEq, Repr

namespace Flag

def read? {σ : Type} [Source σ] : σ → Option Flag :=
  readOneOf? [fun v => v.bool?.map .bool, fun v => v.text?.map .text]

def value : Flag → Value
  | .bool b => .bool b
  | .text s => .string s

end Flag

def readNatural? (bound : Nat) : Value → Option Nat
  | .int (.ofNat n) => if n < bound then some n else none
  | _ => none

inductive Count where
  | word (n : UInt64)
  | text (s : String)
  deriving DecidableEq, Repr

namespace Count

def number (n : Nat) : Count := .word n.toUInt64

def read? {σ : Type} [Source σ] : σ → Option Count :=
  readOneOf? [fun v => (readNatural? UInt64.size v).map number, fun v => v.text?.map .text]

def value : Count → Value
  | .word n => .int n.toNat
  | .text s => .string s

end Count

inductive PermissionLevel where
  | read
  | write
  | none
  deriving DecidableEq, Repr

namespace PermissionLevel

def word : PermissionLevel → String
  | .read => "read"
  | .write => "write"
  | .none => "none"

def all : List PermissionLevel := [.read, .write, .none]

def read? {σ : Type} [Source σ] (s : σ) : Option PermissionLevel :=
  (Source.word? (all.map word) s).bind fun w => all.find? fun l => l.word = w

def value (l : PermissionLevel) : Value := .string l.word

end PermissionLevel

inductive Permissions where
  | readAll
  | writeAll
  /-- A level for each scope. -/
  | scoped (levels : Entries PermissionLevel)
  deriving DecidableEq

namespace Permissions

def readWord? (v : Value) : Option Permissions :=
  match v.word? ["read-all", "write-all"] with
  | some w => some (if w = "read-all" then .readAll else .writeAll)
  | none => none

def read? {σ : Type} [Source σ] : σ → Option Permissions :=
  readOneOf? [readWord?, fun v => (readEntries? PermissionLevel.read? v).map .scoped]

def value : Permissions → Value
  | .readAll => .string "read-all"
  | .writeAll => .string "write-all"
  | .scoped levels => ofEntries PermissionLevel.value levels

end Permissions

structure ConcurrencySpec where
  group : String
  cancelInProgress : Option Flag
  deriving DecidableEq, Repr

namespace ConcurrencySpec

def fieldNames : List String := ["group", "cancel-in-progress"]

def read? {σ : Type} [Source σ] (s : σ) : Option ConcurrencySpec := do
  let r ← Record.read? fieldNames s
  let group ← r.required? "group" Source.text?
  let cancel ← r.optional? "cancel-in-progress" Flag.read?
  return ⟨group, cancel⟩

def value (c : ConcurrencySpec) : Value :=
  Fields.value
    [.always "group" (.string c.group), .ifSome "cancel-in-progress" Flag.value c.cancelInProgress]

end ConcurrencySpec

inductive Concurrency where
  | group (name : String)
  | spec (s : ConcurrencySpec)
  deriving DecidableEq, Repr

namespace Concurrency

def read? {σ : Type} [Source σ] : σ → Option Concurrency :=
  readOneOf? [fun v => v.text?.map .group, fun v => (ConcurrencySpec.read? v).map .spec]

def value : Concurrency → Value
  | .group name => .string name
  | .spec s => s.value

end Concurrency

structure RunDefaults where
  shell : Option String
  workingDirectory : Option String
  deriving DecidableEq, Repr

namespace RunDefaults

def fieldNames : List String := ["shell", "working-directory"]

def read? {σ : Type} [Source σ] (s : σ) : Option RunDefaults := do
  let r ← Record.read? fieldNames s
  let shell ← r.optional? "shell" Source.text?
  let directory ← r.optional? "working-directory" Source.text?
  return ⟨shell, directory⟩

def value (d : RunDefaults) : Value :=
  Fields.value [.ifText "shell" d.shell, .ifText "working-directory" d.workingDirectory]

end RunDefaults

structure Defaults where
  run : Option RunDefaults
  deriving DecidableEq, Repr

namespace Defaults

def fieldNames : List String := ["run"]

def read? {σ : Type} [Source σ] (s : σ) : Option Defaults := do
  let r ← Record.read? fieldNames s
  let run ← r.optional? "run" RunDefaults.read?
  return ⟨run⟩

def value (d : Defaults) : Value := Fields.value [.ifSome "run" RunDefaults.value d.run]

end Defaults

structure EnvironmentSpec where
  name : String
  url : Option String
  deriving DecidableEq, Repr

namespace EnvironmentSpec

def fieldNames : List String := ["name", "url"]

def read? {σ : Type} [Source σ] (s : σ) : Option EnvironmentSpec := do
  let r ← Record.read? fieldNames s
  let name ← r.required? "name" Source.text?
  let url ← r.optional? "url" Source.text?
  return ⟨name, url⟩

def value (e : EnvironmentSpec) : Value :=
  Fields.value [.always "name" (.string e.name), .ifText "url" e.url]

end EnvironmentSpec

inductive Environment where
  | name (s : String)
  | spec (e : EnvironmentSpec)
  deriving DecidableEq, Repr

namespace Environment

def read? {σ : Type} [Source σ] : σ → Option Environment :=
  readOneOf? [fun v => v.text?.map .name, fun v => (EnvironmentSpec.read? v).map .spec]

def value : Environment → Value
  | .name s => .string s
  | .spec e => e.value

end Environment

inductive Matrix where
  | text (s : String)
  | axes (es : Entries Value)

namespace Matrix

def read? {σ : Type} [Source σ] : σ → Option Matrix :=
  readOneOf? [fun v => v.text?.map .text, fun v => (readValueEntries? v).map .axes]

def value : Matrix → Value
  | .text s => .string s
  | .axes es => ofEntries Value.rebuilt es

end Matrix

structure Strategy where
  matrix : Option Matrix
  failFast : Option Flag
  maxParallel : Option Count

namespace Strategy

def fieldNames : List String := ["matrix", "fail-fast", "max-parallel"]

def read? {σ : Type} [Source σ] (s : σ) : Option Strategy := do
  let r ← Record.read? fieldNames s
  let matrix ← r.optional? "matrix" Matrix.read?
  let failFast ← r.optional? "fail-fast" Flag.read?
  let maxParallel ← r.optional? "max-parallel" Count.read?
  return ⟨matrix, failFast, maxParallel⟩

def value (s : Strategy) : Value :=
  Fields.value
    [.ifSome "matrix" Matrix.value s.matrix, .ifSome "fail-fast" Flag.value s.failFast,
      .ifSome "max-parallel" Count.value s.maxParallel]

end Strategy

inductive Needs where
  | one (name : String)
  | many (names : List String)
  deriving DecidableEq, Repr

namespace Needs

def names : Needs → List String
  | .one name => [name]
  | .many names => names

def read? {σ : Type} [Source σ] : σ → Option Needs :=
  readOneOf? [fun v => v.text?.map .one, fun v => (readTexts? v).map .many]

def value : Needs → Value
  | .one name => .string name
  | .many names => ofTexts names

end Needs

inductive Secrets where
  | inherit
  | given (es : Entries String)
  deriving DecidableEq

namespace Secrets

def read? {σ : Type} [Source σ] : σ → Option Secrets :=
  readOneOf?
    [fun v => (v.word? ["inherit"]).map fun _ => .inherit, fun v => (readTextEntries? v).map .given]

def value : Secrets → Value
  | .inherit => .string "inherit"
  | .given es => ofEntries .string es

end Secrets

end CiWorkflow
