set_option autoImplicit false

namespace CiWorkflow.Log

inductive Level where
  | error
  | warn
  | info
  | debug
  | trace
  deriving DecidableEq, Repr

namespace Level

def verbosity : Level → Nat
  | .error => 1
  | .warn => 2
  | .info => 3
  | .debug => 4
  | .trace => 5

def name : Level → String
  | .error => "ERROR"
  | .warn => "WARN"
  | .info => "INFO"
  | .debug => "DEBUG"
  | .trace => "TRACE"

end Level

inductive FieldValue where
  | text (s : String)
  | number (n : Nat)
  | flag (b : Bool)
  deriving DecidableEq, Repr

structure Event where
  level : Level
  target : String
  message : String
  fields : List (String × FieldValue)
  deriving DecidableEq, Repr

namespace Event

def fieldNames (e : Event) : List String := "message" :: e.fields.map Prod.fst

end Event

end CiWorkflow.Log
