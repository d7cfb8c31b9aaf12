import CiWorkflow.Log.Settings

set_option autoImplicit false

namespace CiWorkflow

def Error.cause? : Error → Option String
  | .yaml fault => some fault.reason
  | .json fault => some fault.reason
  | .io _ fault => some fault.reason
  | _ => none

namespace CommandLine

open Log

inductive Failure where
  | error (e : Error)
  /-- The definitions in a directory cannot be loaded. -/
  | definitions (dir : String) (e : Error)
  | outOfDate (paths : List String)
  | log (fault : LogFault)
  deriving DecidableEq, Repr

namespace Failure

def errorChain (e : Error) : List String := e.message :: e.cause?.toList

def chain : Failure → List String
  | .error e => errorChain e
  | .definitions dir e => ("failed to load workflow definitions from " ++ dir) :: errorChain e
  | .outOfDate paths =>
    [toString paths.length ++ " generated workflow(s) out of date, run `ghaflow generate`: " ++
      ", ".intercalate paths]
  | .log fault => fault.message :: fault.cause?.toList

/-- A text behind its first indentation, with further lines indented as deep. -/
def indented (first : String) (text : String) : String :=
  let width := String.ofList (List.replicate first.length ' ')
  first ++ ("\n" ++ width).intercalate (text.splitOn "\n")

def causeLines : List String → List String
  | [cause] => [indented "    " cause]
  | causes => causes.zipIdx.map fun (cause, i) => indented ("    " ++ toString i ++ ": ") cause

def report (f : Failure) : String :=
  match f.chain with
  | [] => ""
  | first :: causes =>
    "Error: " ++ first ++
      (if causes.isEmpty then "" else "\n\nCaused by:\n" ++ "\n".intercalate (causeLines causes)) ++ "\n"

end Failure

end CommandLine

end CiWorkflow
