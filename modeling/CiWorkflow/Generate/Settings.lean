import CiWorkflow.Files.Access
import CiWorkflow.Files.Path
import CiWorkflow.Render.Document
import CiWorkflow.Toml.Document
import CiWorkflow.Toml.Value

set_option autoImplicit false

namespace CiWorkflow

open Render Text

abbrev Variables := String → Option String

def settingsFileName : String := "ghaflow.toml"

structure GeneratorSettings where
  /-- The directory of the definitions, seen from the root. -/
  sourceDir : String
  outputDir : String
  /-- What the name of each generated file ends in. -/
  suffix : String
  header : String
  format : Format
  indent : Nat
  deriving DecidableEq, Repr

namespace GeneratorSettings

def standard : GeneratorSettings where
  sourceDir := ".github/workflows-src"
  outputDir := ".github/workflows"
  suffix := ".generated.yml"
  header := defaultHeader
  format := .yaml
  indent := defaultIndent

def sourcePath (s : GeneratorSettings) (root : String) : String := Path.join root s.sourceDir

def outputPath (s : GeneratorSettings) (root : String) : String := Path.join root s.outputDir

def fieldNames : List String := ["src_dir", "out_dir", "suffix", "header", "format", "indent"]

def formatWords : List (String × Format) := [("yaml", .yaml), ("json", .json)]

def ofSection? (v : Toml.Value) : Option GeneratorSettings := do
  let s ← Toml.section? fieldNames true v
  let sourceDir ← s.defaulted? "src_dir" standard.sourceDir Toml.Value.text?
  let outputDir ← s.defaulted? "out_dir" standard.outputDir Toml.Value.text?
  let suffix ← s.defaulted? "suffix" standard.suffix Toml.Value.text?
  let header ← s.defaulted? "header" standard.header Toml.Value.text?
  let format ← s.defaulted? "format" standard.format (Toml.Value.choice? formatWords)
  let indent ← s.defaulted? "indent" standard.indent Toml.Value.count?
  return ⟨sourceDir, outputDir, suffix, header, format, indent⟩

/-- The settings in the text of a settings file; a file without a section for them gives none. -/
def ofText? (text : String) : Option (Option GeneratorSettings) := do
  let entries ← Toml.read? text
  Toml.Section.optional? entries "generate" ofSection?

/-- The settings in a file. A file that is not there gives none. -/
def inFile {m : Type → Type} [Monad m] [Files m] (path : String) :
    m (Except Error (Option GeneratorSettings)) := do
  if !(← Files.isPresent path) then return .ok none
  match ← Files.read path with
  | .error fault => return .error (.io path fault)
  | .ok text =>
    match ofText? text with
    | some s => return .ok s
    | none => return .error (.settings path .unreadable)

/-- A directory given by a variable; blanks alone give none. -/
def directory? (text : Option String) : Option String := text.filter fun s => !isBlankText s

/-- A format given by a variable; a text that names no format gives none. -/
def format? (text : Option String) : Option Format := text.bind fun s => (Format.ofName s).toOption

/-- The settings with directories and format replaced where others are given. -/
def override (s : GeneratorSettings) (sourceDir outputDir : Option String) (format : Option Format) :
    GeneratorSettings :=
  { s with
    sourceDir := sourceDir.getD s.sourceDir
    outputDir := outputDir.getD s.outputDir
    format := format.getD s.format }

def withVariables (s : GeneratorSettings) (vars : Variables) : GeneratorSettings :=
  s.override (directory? (vars "GHAFLOW_SRC_DIR")) (directory? (vars "GHAFLOW_OUT_DIR"))
    (format? (vars "GHAFLOW_FORMAT"))

def variableNotes : List String :=
  ["GHAFLOW_SRC_DIR - Override the workflow definition directory",
    "GHAFLOW_OUT_DIR - Override the generated workflow directory",
    "GHAFLOW_FORMAT - Override the output format (yaml/json)",
    "GHAFLOW_LOG - Tracing filter directive, e.g. ghaflow=debug"]

def endsIn (post s : String) : Bool := post.toList.isSuffixOf s.toList

def fault? (s : GeneratorSettings) : Option SettingsFault :=
  if isBlankText s.suffix then some .blankSuffix
  else if s.suffix.toList.any fun c => c = '/' || c = '\\' then some .suffixWithSeparator
  else if !(endsIn ".yml" s.suffix || endsIn ".yaml" s.suffix) then some .suffixExtension
  else if !(1 ≤ s.indent && s.indent ≤ 8) then some .indentRange
  else none

def load {m : Type → Type} [Monad m] [Files m] (root : String) (vars : Variables) :
    m (Except Error GeneratorSettings) := do
  let path := Path.join root settingsFileName
  match ← inFile path with
  | .error e => return .error e
  | .ok file =>
    let s := (file.getD standard).withVariables vars
    match s.fault? with
    | some fault => return .error (.settings path fault)
    | none => return .ok s

def renderer (s : GeneratorSettings) : Renderer := ⟨s.header, s.format.encoder, s.indent⟩

end GeneratorSettings

end CiWorkflow
