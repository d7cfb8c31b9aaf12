set_option autoImplicit false

namespace CiWorkflow.Yaml

inductive ScalarForm where
  | plain
  | quoted
  | literal
  | folded
  deriving DecidableEq, Repr

inductive Token where
  | version (major minor : Nat)
  /-- A shorthand for tags that start with `lead`. -/
  | tagHandle (handle lead : String)
  | documentStart
  | documentEnd
  | blockSequence
  | blockMapping
  | blockEnd
  | flowSequence
  | flowSequenceEnd
  | flowMapping
  | flowMappingEnd
  | blockEntry
  | flowEntry
  | key
  | value
  | alias (name : String)
  | anchor (name : String)
  | tag (handle suffix : String)
  | scalar (form : ScalarForm) (text : String)
  deriving DecidableEq, Repr

end CiWorkflow.Yaml
