set_option autoImplicit false

namespace CiWorkflow.Json

inductive JsonFault where
  | keyNotText
  | keyNotFinite
  deriving DecidableEq, Repr

def JsonFault.reason : JsonFault → String
  | .keyNotText => "key must be a string"
  | .keyNotFinite => "float key must be finite (got NaN or +/-inf)"

end CiWorkflow.Json
