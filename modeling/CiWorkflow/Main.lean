import CiWorkflow.CommandLine.Run

set_option autoImplicit false

namespace CiWorkflow

def faultOf (e : IO.Error) : FileFault :=
  match e with
  | .noFileOrDirectory .. => .missing
  | .inappropriateType _ 20 _ => .notDirectory
  | .inappropriateType .. => .isDirectory
  | .alreadyExists .. => .alreadyExists
  | e => .other (toString e)

def attempt {α : Type} (act : IO α) : BaseIO (Except FileFault α) := do
  match ← act.toBaseIO with
  | .ok a => return .ok a
  | .error e => return .error (faultOf e)

def holds (act : IO Bool) : BaseIO Bool := do
  match ← act.toBaseIO with
  | .ok b => return b
  | .error _ => return false

def readText (path : String) : BaseIO (Except FileFault String) := do
  match ← attempt (IO.FS.readBinFile path) with
  | .error fault => return .error fault
  | .ok bytes =>
    match String.fromUTF8? bytes with
    | some text => return .ok text
    | none => return .error .notText

def entryNames (path : String) : IO (List String) := do
  let entries ← (← IO.FS.realPath path).readDir
  return entries.toList.map fun e => e.fileName

instance : Files BaseIO where
  isPresent path := holds do
    let _ ← (← IO.FS.realPath path).metadata
    return true
  isFile path := holds do
    let data ← (← IO.FS.realPath path).metadata
    return data.type == .file
  read := readText
  names path := attempt (entryNames path)
  createDirectories path := attempt (IO.FS.createDirAll path)
  write path text := attempt (IO.FS.writeFile path text)

def variableNames : List String :=
  ["GHAFLOW_SRC_DIR", "GHAFLOW_OUT_DIR", "GHAFLOW_FORMAT", "GHAFLOW_LOG", "GHAFLOW_LOG_FORMAT"]

def readVariables : BaseIO Variables := do
  let found ← variableNames.filterMapM fun name => do
    return (← IO.getEnv name).map fun value => (name, value)
  return fun name => found.lookup name

end CiWorkflow

open CiWorkflow in
def main (arguments : List String) : IO UInt32 := do
  let vars ← readVariables
  let directory ← IO.currentDir
  let outcome ← (CommandLine.run ⟨arguments, vars, directory.toString⟩ : BaseIO CommandLine.Outcome)
  IO.print outcome.output
  IO.eprint outcome.report
  return outcome.status.toUInt32
