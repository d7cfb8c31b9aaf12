import CiWorkflow.Files.Path
import CiWorkflow.Generate.Scan
import CiWorkflow.Generate.Settings

set_option autoImplicit false

namespace CiWorkflow

open Log

variable {ε : Type} {m : Type → Type} [Monad m] [Files m]

def counted : Nat → Event
  | 0 => ⟨.warn, "ghaflow::core::generate", "No GitHub Actions workflows found", []⟩
  | 1 => ⟨.info, "ghaflow::core::generate", "1 GitHub Actions workflow was generated", []⟩
  | n => ⟨.info, "ghaflow::core::generate", toString n ++ " GitHub Actions workflows were generated", []⟩

/-- Handles definitions in order, up to the first failure, and gives what came of each. -/
def handleAll {α : Type} (handle : Definition → Task ε m α) (ds : List Definition) :
    Task ε m (List α) := do
  let results ← ds.mapM handle
  Task.report (counted ds.length)
  return results

def written (path text : String) : Event :=
  ⟨.info, "ghaflow::core::generate", "wrote workflow",
    [("path", .text path), ("bytes", .number text.utf8ByteSize)]⟩

def writeOutput (path text : String) : Task Error m Unit := do
  match Path.parent? path with
  | some parent =>
    if !parent.isEmpty then Task.access parent (Files.createDirectories parent)
  | none => pure ()
  Task.access path (Files.write path text)
  Task.report (written path text)

inductive OutputStatus where
  | upToDate
  | missing
  | stale
  deriving DecidableEq, Repr

namespace OutputStatus

def name : OutputStatus → String
  | .upToDate => "UpToDate"
  | .missing => "Missing"
  | .stale => "Stale"

end OutputStatus

def checkOutput (path text : String) : Task Error m OutputStatus := do
  if !(← (Files.isPresent path : m Bool)) then return .missing
  let current ← Task.read path
  return if current = text then .upToDate else .stale

def outOfDate (path : String) (status : OutputStatus) : Event :=
  ⟨.warn, "ghaflow::cli::commands", "generated workflow is out of date",
    [("path", .text path), ("status", .text status.name)]⟩

def writeDefinition (s : GeneratorSettings) (d : Definition) : Task Error m Unit := do
  let text ← Task.renderWorkflow s.renderer d.workflow
  writeOutput d.output text

def checkDefinition (s : GeneratorSettings) (d : Definition) : Task Error m Bool := do
  let text ← Task.renderWorkflow s.renderer d.workflow
  let status ← checkOutput d.output text
  if status = .upToDate then return false
  Task.report (outOfDate d.output status)
  return true

end CiWorkflow
