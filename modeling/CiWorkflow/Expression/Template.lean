import CiWorkflow.Expression.Argument

set_option autoImplicit false

namespace CiWorkflow

open Text

namespace Expression

def slotMark : String := "\x7b\x7d"

/-- Parts and values in turn; every slot needs a value. -/
def fillSlots (template : String) (index : Nat) : List String → List Argument → Except Error String
  | [], _ => .ok ""
  | [part], _ => .ok part
  | _ :: _ :: _, [] => .error (.undefinedInterpolation template index)
  | part :: next :: parts, value :: values => do
    match ← value.inTemplate with
    | none => .error (.undefinedInterpolation template index)
    | some text =>
      let rest ← fillSlots template (index + 1) (next :: parts) values
      return part ++ text ++ rest

def fill (template : String) (parts : List String) (values : List Argument) : Except Error Wrapped :=
  let slots := parts.length - 1
  if slots < values.length then .error (.interpolationCount template slots values.length)
  else fillSlots template 0 parts values >>= wrap

def ofParts (parts : List String) (values : List Argument) : Except Error Wrapped :=
  fill (slotMark.intercalate parts) parts values

def ofTemplate (template : String) (values : List Argument) : Except Error Wrapped :=
  fill template ((splitSeq slotMark.toList template.toList).map String.ofList) values

end Expression

end CiWorkflow
