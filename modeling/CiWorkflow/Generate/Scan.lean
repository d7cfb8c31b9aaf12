import CiWorkflow.Generate.Name
import CiWorkflow.Generate.Task

set_option autoImplicit false

namespace CiWorkflow

open Log

structure Definition where
  source : String
  output : String
  workflow : Workflow

namespace Definition

def extensions : List String := ["yml", "yaml", "json"]

def isName (suffix name : String) : Bool :=
  name.toList.head? ≠ some '.' && !suffix.toList.isSuffixOf name.toList &&
    match (Path.splitName name).2 with
    | some ext => extensions.contains (String.ofList (ext.map Char.toLower))
    | none => false

variable {m : Type → Type} [Monad m] [Files m]

/-- The names of the definitions among the names in a directory, in order. -/
def select (dir suffix : String) (names : List String) : m (List String) := do
  let files ← names.filterM fun name => Files.isFile (Path.join dir name)
  return (files.filter (isName suffix)).mergeSort fun a b => a ≤ b

def loaded (source output : String) : Event :=
  ⟨.debug, "ghaflow::core::generate", "loaded workflow definition",
    [("source", .text source), ("out_file", .text output)]⟩

def load (source outputDir suffix : String) : Task Error m Definition := do
  let w ← Task.loadWorkflow source
  let output := Path.join outputDir (outputFileName (Path.stem source) suffix)
  Task.report (loaded source output)
  return ⟨source, output, w⟩

def scan (sourceDir outputDir suffix : String) : Task Error m (List Definition) := do
  let names ← Task.access sourceDir (Files.names sourceDir)
  let selected ← (select sourceDir suffix names : m (List String))
  selected.mapM fun name => load (Path.join sourceDir name) outputDir suffix

end Definition

end CiWorkflow
