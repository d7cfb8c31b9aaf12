import CiWorkflow.Json.Fault
import CiWorkflow.Workflow.Fault

set_option autoImplicit false

namespace CiWorkflow

open Json

inductive FileFault where
  | missing
  | notDirectory
  | isDirectory
  | alreadyExists
  | nameTooLong
  | nulInName
  | notText
  /-- Another reason, in the words of the system. -/
  | other (reason : String)
  deriving DecidableEq, Repr

def FileFault.reason : FileFault → String
  | .missing => "No such file or directory (os error 2)"
  | .notDirectory => "Not a directory (os error 20)"
  | .isDirectory => "Is a directory (os error 21)"
  | .alreadyExists => "File exists (os error 17)"
  | .nameTooLong => "File name too long (os error 36)"
  | .nulInName => "file name contained an unexpected NUL byte"
  | .notText => "stream did not contain valid UTF-8"
  | .other reason => reason

inductive YamlFault where
  | unreadable
  /-- A tag stands on a tag. -/
  | nestedTags
  /-- The only key of a mapping takes the place of the mapping. -/
  | hiddenMapping
  | emptyMachine
  deriving DecidableEq, Repr

def YamlFault.reason : YamlFault → String
  | .unreadable => "text is not YAML"
  | .nestedTags => "serializing nested enums in YAML is not supported yet"
  | .hiddenMapping => "expected SCALAR, SEQUENCE-START, MAPPING-START, or ALIAS"
  | .emptyMachine => emptyMachineReason

inductive SettingsFault where
  /-- The file does not spell out settings. -/
  | unreadable
  | blankSuffix
  | suffixWithSeparator
  | suffixExtension
  | indentRange
  deriving DecidableEq, Repr

/-- The broken rule; a file that cannot be read breaks none. -/
def SettingsFault.rule? : SettingsFault → Option String
  | .unreadable => none
  | .blankSuffix => some "generate.suffix cannot be empty"
  | .suffixWithSeparator => some "generate.suffix cannot contain path separators"
  | .suffixExtension => some "generate.suffix must end in .yml or .yaml"
  | .indentRange => some "generate.indent must be between 1 and 8"

/-- What is said of text that is not TOML, or not the TOML that settings need. -/
def tomlFaultText : String := "TOML parse error"

inductive Error where
  | invalidTokenPrefix (path : String)
  | alreadyWrapped (text inner : String)
  | malformedExpression (text : String)
  | emptyExpression
  | invalidContextName (path name : String)
  | undefinedInterpolation (template : String) (index : Nat)
  | interpolationCount (template : String) (expected got : Nat)
  | missingPlaceholder (template : String)
  | missingArgument (function : String)
  | invalidStep (job : String) (index : Nat) (fault : StepFault)
  | invalidJob (job : String) (fault : JobFault)
  | unknownJobDependency (job needs : String)
  | emptyTriggerSet
  | invalidDefinition (path : String)
  | yaml (fault : YamlFault)
  | json (fault : JsonFault)
  | io (path : String) (fault : FileFault)
  | settings (path : String) (fault : SettingsFault)
  deriving DecidableEq, Repr

inductive ErrorCategory where
  | expression
  | validation
  | serialization
  | io
  | config
  deriving DecidableEq, Repr

def contextNames : List String :=
  ["github", "env", "vars", "secrets", "matrix", "steps", "needs", "jobs", "runner", "job", "strategy",
    "inputs"]

def openMark : String := "$\x7b\x7b"

def closeMark : String := "\x7d\x7d"

namespace Error

def category : Error → ErrorCategory
  | .invalidTokenPrefix _ => .expression
  | .alreadyWrapped .. => .expression
  | .malformedExpression _ => .expression
  | .emptyExpression => .expression
  | .invalidContextName .. => .expression
  | .undefinedInterpolation .. => .expression
  | .interpolationCount .. => .expression
  | .missingPlaceholder _ => .expression
  | .missingArgument _ => .expression
  | .invalidStep .. => .validation
  | .invalidJob .. => .validation
  | .unknownJobDependency .. => .validation
  | .emptyTriggerSet => .validation
  | .invalidDefinition _ => .validation
  | .yaml _ => .serialization
  | .json _ => .serialization
  | .io .. => .io
  | .settings .. => .config

def code : Error → String
  | .invalidTokenPrefix _ => "GHA-EXPR-001"
  | .alreadyWrapped .. => "GHA-EXPR-002"
  | .malformedExpression _ => "GHA-EXPR-003"
  | .emptyExpression => "GHA-EXPR-004"
  | .undefinedInterpolation .. => "GHA-EXPR-005"
  | .interpolationCount .. => "GHA-EXPR-006"
  | .invalidContextName .. => "GHA-EXPR-007"
  | .missingPlaceholder _ => "GHA-FN-001"
  | .missingArgument _ => "GHA-FN-002"
  | .invalidStep .. => "GHA-WF-001"
  | .invalidJob .. => "GHA-WF-002"
  | .unknownJobDependency .. => "GHA-WF-003"
  | .emptyTriggerSet => "GHA-WF-004"
  | .invalidDefinition _ => "GHA-WF-005"
  | .yaml _ => "GHA-RENDER-001"
  | .json _ => "GHA-RENDER-002"
  | .io .. => "GHA-IO-001"
  | .settings .. => "GHA-CONFIG-001"

def mark (s : String) : String := "`" ++ s ++ "`"

def message : Error → String
  | .invalidTokenPrefix path =>
    "invalid token prefix in " ++ mark path ++ ": expected `<namespace>.<name>` with namespace one of " ++
      ", ".intercalate contextNames
  | .alreadyWrapped text inner =>
    "expression already wrapped: " ++ mark text ++ ". Did you mean to use " ++ mark inner ++
      "? Use unwrap() to unwrap explicitly"
  | .malformedExpression text =>
    "cannot unwrap " ++ mark text ++ ": expression must start with \"" ++ openMark ++ " \" and end with \" " ++
      closeMark ++ "\""
  | .emptyExpression => "cannot wrap an empty expression"
  | .invalidContextName path name =>
    "invalid name " ++ mark name ++ " under " ++ mark path ++
      ": expected one non-empty path segment without whitespace, `.`, " ++ mark openMark ++ " or " ++
      mark closeMark
  | .undefinedInterpolation template index =>
    "interpolation #" ++ toString index ++ " in template " ++ mark template ++ " has no value"
  | .interpolationCount template expected got =>
    "template " ++ mark template ++ " has " ++ toString expected ++ " interpolation slot(s) but " ++
      toString got ++ " value(s) were supplied"
  | .missingPlaceholder template =>
    "format template " ++ mark template ++ " must contain placeholders like \x7b0\x7d"
  | .missingArgument function => function ++ "() requires at least one argument"
  | .invalidStep job index fault =>
    "invalid step (job=" ++ job ++ " index=" ++ toString index ++ "): " ++ fault.reason
  | .invalidJob job fault => "invalid job " ++ mark job ++ ": " ++ fault.reason
  | .unknownJobDependency job needs => "job " ++ mark job ++ " needs unknown job " ++ mark needs
  | .emptyTriggerSet => "workflow `on` must specify at least one trigger"
  | .invalidDefinition path => "cannot load workflow definition " ++ path
  | .yaml fault => "YAML error: " ++ fault.reason
  | .json fault => "JSON error: " ++ fault.reason
  | .io path _ => "failed to access " ++ path
  | .settings path fault =>
    match fault.rule? with
    | some rule => "invalid configuration in " ++ path ++ ": " ++ rule
    | none => "invalid configuration in " ++ path ++ ": " ++ tomlFaultText

end Error

theorem bind_eq_ok {α β ε : Type} {x : Except ε α} {f : α → Except ε β} {b : β} :
    (x >>= f) = .ok b ↔ ∃ a, x = .ok a ∧ f a = .ok b := by
  cases x with
  | error e => exact ⟨nofun, by rintro ⟨a, ⟨⟩, -⟩⟩
  | ok a => exact ⟨fun h => ⟨a, rfl, h⟩, by rintro ⟨a, ⟨⟩, h⟩; exact h⟩

theorem bind_eq_error {α β ε : Type} {x : Except ε α} {f : α → Except ε β} {e : ε} :
    (x >>= f) = .error e ↔ x = .error e ∨ ∃ a, x = .ok a ∧ f a = .error e := by
  cases x with
  | error e' => simp [bind, Except.bind]
  | ok a => simp [bind, Except.bind]

theorem map_eq_ok {α β ε : Type} {x : Except ε α} {f : α → β} {b : β} :
    x.map f = .ok b ↔ ∃ a, x = .ok a ∧ f a = b := by
  cases x with
  | error e => exact ⟨nofun, by rintro ⟨a, ⟨⟩, -⟩⟩
  | ok a => exact ⟨fun h => ⟨a, rfl, Except.ok.inj h⟩, by rintro ⟨a, ⟨⟩, rfl⟩; rfl⟩

theorem keeps_of_foldlM {α β ε : Type} {P : α → Prop} {step : α → β → Except ε α}
    (hstep : ∀ a x b, P a → step a x = .ok b → P b) {xs : List β} {a b : α} (ha : P a)
    (h : xs.foldlM step a = .ok b) : P b := by
  induction xs generalizing a with
  | nil => exact Except.ok.inj h ▸ ha
  | cons x rest ih =>
    rw [List.foldlM_cons] at h
    obtain ⟨next, hnext, h⟩ := bind_eq_ok.mp h
    exact ih (hstep a x next ha hnext) h

end CiWorkflow
