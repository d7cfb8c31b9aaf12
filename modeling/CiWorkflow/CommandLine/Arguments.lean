import CiWorkflow.Render.Format
import CiWorkflow.Text.Split

set_option autoImplicit false

namespace CiWorkflow.CommandLine

open Render

structure GenerateOptions where
  root : Option String
  sourceDir : Option String
  outputDir : Option String
  format : Option Format
  /-- Compare the generated files instead of writing them. -/
  check : Bool
  deriving DecidableEq, Repr

structure RenderOptions where
  file : String
  format : Format
  header : Bool
  deriving DecidableEq, Repr

inductive Command where
  | generate (o : GenerateOptions)
  | render (o : RenderOptions)
  deriving DecidableEq, Repr

inductive Halt where
  | usage
  | help
  | version
  deriving DecidableEq, Repr

structure Grammar where
  valued : List String
  flags : List String
  files : Nat
  deriving DecidableEq, Repr

structure Given where
  values : List (String × String)
  flags : List String
  files : List String
  deriving DecidableEq, Repr

namespace Given

def empty : Given := ⟨[], [], []⟩

def accepts (name value : String) : Bool :=
  if name = "format" then (Format.ofName value).toOption.isSome else !value.isEmpty

def withValue (g : Given) (name value : String) : Except Halt Given :=
  if (g.values.lookup name).isSome || !accepts name value then .error .usage
  else .ok { g with values := (name, value) :: g.values }

def withFlag (g : Given) (name : String) : Except Halt Given :=
  if g.flags.contains name then .error .usage else .ok { g with flags := name :: g.flags }

def withFile (g : Given) (grammar : Grammar) (file : String) : Except Halt Given :=
  if grammar.files ≤ g.files.length || file.isEmpty then .error .usage
  else .ok { g with files := g.files ++ [file] }

def withFiles (g : Given) (grammar : Grammar) : List String → Except Halt Given
  | [] => .ok g
  | file :: rest => do
    let g ← g.withFile grammar file
    g.withFiles grammar rest

end Given

inductive Form where
  | separator
  | long (name : String) (value : Option String)
  | short (first : Char)
  | plain
  deriving DecidableEq, Repr

def Form.of (arg : String) : Form :=
  match arg.toList with
  | ['-', '-'] => .separator
  | '-' :: '-' :: rest =>
    let name := String.ofList (rest.takeWhile (· ≠ '='))
    match rest.dropWhile (· ≠ '=') with
    | _ :: value => .long name (some (String.ofList value))
    | [] => .long name none
  | '-' :: c :: _ => .short c
  | _ => .plain

/-- Reads options and files up to the first that is not understood or asks for help. -/
def readGiven (grammar : Grammar) (g : Given) : List String → Except Halt Given
  | [] => .ok g
  | arg :: rest =>
    match Form.of arg with
    | .separator => g.withFiles grammar rest
    | .short c => .error (if c = 'h' then .help else .usage)
    | .plain => do
      let g ← g.withFile grammar arg
      readGiven grammar g rest
    | .long name (some value) =>
      if grammar.valued.contains name then do
        let g ← g.withValue name value
        readGiven grammar g rest
      else .error .usage
    | .long name none =>
      if name = "help" then .error .help
      else if grammar.flags.contains name then do
        let g ← g.withFlag name
        readGiven grammar g rest
      else if grammar.valued.contains name then
        match rest with
        | value :: rest =>
          if Form.of value = .plain then do
            let g ← g.withValue name value
            readGiven grammar g rest
          else .error .usage
        | [] => .error .usage
      else .error .usage

def format? (g : Given) : Option Format := (g.values.lookup "format").bind fun s => (Format.ofName s).toOption

def generateGrammar : Grammar := ⟨["root", "src", "out", "format"], ["check"], 0⟩

def renderGrammar : Grammar := ⟨["format"], ["no-header"], 1⟩

def GenerateOptions.ofGiven (g : Given) : GenerateOptions :=
  ⟨g.values.lookup "root", g.values.lookup "src", g.values.lookup "out", format? g, g.flags.contains "check"⟩

def RenderOptions.ofGiven (g : Given) : Except Halt RenderOptions :=
  match g.files.head? with
  | some file => .ok ⟨file, (format? g).getD .yaml, !g.flags.contains "no-header"⟩
  | none => .error .usage

namespace Command

def names : List String := ["generate", "render", "help"]

def helpOn : List String → Halt
  | [] => .help
  | [name] => if names.contains name then .help else .usage
  | _ => .usage

def read : List String → Except Halt Command
  | [] => .error .usage
  | arg :: rest =>
    if arg = "generate" then do
      let g ← readGiven generateGrammar .empty rest
      return .generate (.ofGiven g)
    else if arg = "render" then do
      let g ← readGiven renderGrammar .empty rest
      let o ← RenderOptions.ofGiven g
      return .render o
    else if arg = "help" then .error (helpOn rest)
    else
      match Form.of arg with
      | .long name none =>
        .error (if name = "version" then .version else if name = "help" then .help else .usage)
      | .short c => .error (if c = 'V' then .version else if c = 'h' then .help else .usage)
      | _ => .error .usage

end Command

end CiWorkflow.CommandLine
