import CiWorkflow.Generate.Settings
import CiWorkflow.Log.Filter
import CiWorkflow.Log.Line

set_option autoImplicit false

namespace CiWorkflow.Log

structure LogSettings where
  /-- The filter that holds where the environment gives none. -/
  defaultLevel : String
  console : Console
  format : LineFormat
  deriving DecidableEq, Repr

inductive LogFault where
  | unreadableFile (path : String) (fault : FileFault)
  | unreadableSettings (path : String)
  | invalidLevel
  | invalidFilter
  deriving DecidableEq, Repr

namespace LogFault

def message : LogFault → String
  | .unreadableFile path _ => "failed to read logging config " ++ path
  | .unreadableSettings path => "failed to parse logging config " ++ path
  | .invalidLevel => "logging.default_level must be a valid tracing directive"
  | .invalidFilter => "failed to configure tracing level"

def cause? : LogFault → Option String
  | .unreadableFile _ fault => some fault.reason
  | .unreadableSettings _ => some tomlFaultText
  | .invalidLevel => none
  | .invalidFilter => some "invalid filter directive"

end LogFault

namespace LogSettings

def standard : LogSettings := ⟨"info", .stderr, .plain⟩

def fieldNames : List String := ["default_level", "console_output", "format"]

/-- A section of the settings file that is an array has to give the level. -/
def givesLevel : Toml.Value → Bool
  | .array [] => false
  | _ => true

def withSection? (s : LogSettings) (v : Toml.Value) : Option LogSettings := do
  if !givesLevel v then none
  let fields ← Toml.section? fieldNames false v
  let defaultLevel ← fields.defaulted? "default_level" s.defaultLevel Toml.Value.text?
  let console ← fields.defaulted? "console_output" s.console
    (Toml.Value.choice? [("stderr", .stderr), ("none", .none)])
  let format ← fields.defaulted? "format" s.format (Toml.Value.choice? [("plain", .plain), ("json", .json)])
  return ⟨defaultLevel, console, format⟩

def withText? (s : LogSettings) (text : String) : Option LogSettings := do
  let entries ← Toml.read? text
  match entries.lookup "logging" with
  | some v => s.withSection? v
  | none => return s

def withFile {m : Type → Type} [Monad m] [Files m] (s : LogSettings) (path : String) :
    m (Except LogFault LogSettings) := do
  if !(← Files.isPresent path) then return .ok s
  match ← Files.read path with
  | .error fault => return .error (.unreadableFile path fault)
  | .ok text =>
    match s.withText? text with
    | some s => return .ok s
    | none => return .error (.unreadableSettings path)

def withVariables (s : LogSettings) (vars : Variables) : LogSettings :=
  match vars "GHAFLOW_LOG_FORMAT" with
  | some text => { s with format := (LineFormat.ofText text).toOption.getD s.format }
  | none => s

def load {m : Type → Type} [Monad m] [Files m] (root : Option String) (vars : Variables) :
    m (Except LogFault LogSettings) := do
  let file ← match root with
    | some root => standard.withFile (Path.join root settingsFileName)
    | none => pure (.ok standard)
  match file with
  | .error fault => return .error fault
  | .ok s =>
    let s := s.withVariables vars
    return if (Directive.read? s.defaultLevel).isSome then .ok s else .error .invalidLevel

def filter (s : LogSettings) (vars : Variables) : Except LogFault Filter :=
  match ((vars "GHAFLOW_LOG").bind Filter.read?).or (Filter.read? s.defaultLevel) with
  | some f => .ok f
  | none => .error .invalidFilter

def lines (s : LogSettings) (f : Filter) (events : List Event) : List String :=
  match s.console with
  | .none => []
  | .stderr => (events.filter f.admits).map fun e => e.line s.format

end LogSettings

end CiWorkflow.Log
