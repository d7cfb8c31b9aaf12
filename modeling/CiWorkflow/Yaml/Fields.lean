import CiWorkflow.Entries
import CiWorkflow.Yaml.Value

set_option autoImplicit false

namespace CiWorkflow.Yaml

abbrev Fields := List (Value × Value)

namespace Fields

variable {α : Type}

def always (name : String) (v : Value) : Fields := [(.string name, v)]

def ifSome (name : String) (toValue : α → Value) (x : Option α) : Fields :=
  match x with
  | some a => always name (toValue a)
  | none => []

def ifText (name : String) (x : Option String) : Fields := ifSome name .string x

end Fields

def ofTexts (texts : List String) : Value := .sequence (texts.map .string)

def ofEntries {α : Type} (toValue : α → Value) (es : Entries α) : Value :=
  .mapping (es.toList.map fun (name, a) => (.string name, toValue a))

namespace Fields

variable {α : Type}

def ifTexts (name : String) (texts : List String) : Fields :=
  if texts.isEmpty then [] else always name (ofTexts texts)

def ifEntries (name : String) (toValue : α → Value) (es : Entries α) : Fields :=
  if es.isEmpty then [] else always name (ofEntries toValue es)

def concat (groups : List Fields) : Fields := groups.flatten

def value (groups : List Fields) : Value := .mapping (concat groups)

end Fields

end CiWorkflow.Yaml
