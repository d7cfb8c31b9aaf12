import CiWorkflow.CommandLine.Arguments
import CiWorkflow.CommandLine.Failure
import CiWorkflow.Generate.Output

set_option autoImplicit false

namespace CiWorkflow.CommandLine

open Log Render

def programVersion : String := "0.3.2"

def helpText : String :=
  "ghaflow " ++ programVersion ++ "\n" ++
    "Generate CI workflow files from typed workflow definitions\n\n" ++
    "USAGE:\n    ghaflow <COMMAND>\n\n" ++
    "COMMANDS:\n" ++
    "  generate  Generate workflow files from a definition directory\n" ++
    "            [--root DIR] [--src DIR] [--out DIR] [--format FORMAT] [--check]\n" ++
    "  render    Print one rendered workflow to stdout\n" ++
    "            FILE [--format FORMAT] [--no-header]\n"

structure Invocation where
  arguments : List String
  vars : Variables
  /-- The directory in which it is called. -/
  directory : String

structure Outcome where
  status : Nat
  output : String
  report : String
  deriving DecidableEq, Repr

section

variable {m : Type → Type} [Monad m] [Files m]

def because {α : Type} (f : Error → Failure) (t : Task Error m α) : Task Failure m α := ExceptT.adapt f t

def silently {α : Type} (act : m (Except Error α)) : Task Error m α := ExceptT.mk (liftM act)

namespace GenerateOptions

def started (source output : String) (check : Bool) : Event :=
  ⟨.debug, "ghaflow::cli::commands", "generating workflows",
    [("src_dir", .text source), ("out_dir", .text output), ("check", .flag check)]⟩

/-- The settings of a project; options come before everything else. -/
def settings (o : GenerateOptions) (root : String) (vars : Variables) : Task Error m GeneratorSettings := do
  let s ← silently (GeneratorSettings.load root vars)
  return s.override o.sourceDir o.outputDir o.format

def outdated (s : GeneratorSettings) (ds : List Definition) : Task Error m (List String) := do
  let found ← handleAll (fun d => do return if ← checkDefinition s d then [d.output] else []) ds
  return found.flatten

def perform (o : GenerateOptions) (root : String) (vars : Variables) : Task Failure m Unit := do
  let s ← because .error (o.settings root vars)
  let source := s.sourcePath root
  let output := s.outputPath root
  Task.report (started source output o.check)
  let ds ← because (.definitions source) (Definition.scan source output s.suffix)
  if o.check then
    let paths ← because .error (outdated s ds)
    if !paths.isEmpty then throw (.outOfDate paths)
  else
    let _ ← because .error (handleAll (writeDefinition s) ds)

end GenerateOptions

namespace RenderOptions

def renderer (o : RenderOptions) : Renderer :=
  let standard := Renderer.ofFormat o.format
  if o.header then standard else { standard with header := "" }

def perform (o : RenderOptions) : Task Error m String := do
  let w ← Task.loadWorkflow o.file
  Task.renderWorkflow o.renderer w

end RenderOptions

namespace Command

def root (c : Command) (directory : String) : String :=
  match c with
  | .generate o => o.root.getD directory
  | .render _ => directory

def perform (c : Command) (root : String) (vars : Variables) : Task Failure m String :=
  match c with
  | .generate o => do
    o.perform root vars
    return ""
  | .render o => because .error o.perform

end Command

end

namespace Outcome

def ofHalt : Halt → Outcome
  | .usage => ⟨2, "", "error: these arguments are not understood\n\n" ++ helpText⟩
  | .help => ⟨0, helpText, ""⟩
  | .version => ⟨0, "ghaflow " ++ programVersion ++ "\n", ""⟩

def ofFailure (lines : List String) (f : Failure) : Outcome :=
  ⟨1, "", String.join (lines.map (· ++ "\n")) ++ f.report⟩

def ofOutput (lines : List String) (text : String) : Outcome :=
  ⟨0, text, String.join (lines.map (· ++ "\n"))⟩

end Outcome

variable {m : Type → Type} [Monad m] [Files m]

def runCommand (c : Command) (directory : String) (vars : Variables) : m Outcome := do
  let root := c.root directory
  match ← LogSettings.load (some root) vars with
  | .error fault => return .ofFailure [] (.log fault)
  | .ok s =>
    match s.filter vars with
    | .error fault => return .ofFailure [] (.log fault)
    | .ok filter =>
      let (result, events) ← (c.perform root vars).run
      let lines := s.lines filter events
      match result with
      | .ok text => return .ofOutput lines text
      | .error failure => return .ofFailure lines failure

def run (i : Invocation) : m Outcome :=
  match Command.read i.arguments with
  | .error h => return .ofHalt h
  | .ok c => runCommand c i.directory i.vars

end CiWorkflow.CommandLine
