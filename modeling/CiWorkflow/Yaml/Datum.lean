import CiWorkflow.Yaml.Source

set_option autoImplicit false

namespace CiWorkflow.Yaml

structure Datum where
  value : Value

namespace Datum

mutual

/-- The value built anew, entries as they come; a tag loses the exclamation mark it still starts with. -/
def copied : Value → Value
  | .sequence items => .sequence (copiedItems items)
  | .mapping entries => .mapping (copiedEntries entries)
  | .tagged t v => .tagged (Value.tagName t) (copied v)
  | v => v

def copiedItems : List Value → List Value
  | [] => []
  | v :: rest => copied v :: copiedItems rest

def copiedEntries : List (Value × Value) → List (Value × Value)
  | [] => []
  | (k, v) :: rest => (copied k, copied v) :: copiedEntries rest

end

def shape (d : Datum) : Shape Datum :=
  match d.value.bare with
  | .null => .blank
  | .sequence items => .items (items.map mk)
  | .mapping entries => .entries (entries.map fun e => (⟨e.1⟩, ⟨e.2⟩))
  | _ => .other

def text? (d : Datum) : Option String := d.value.bare.text?

def field? (names : List String) (d : Datum) : Option (Option String) :=
  d.text?.map fun s => if names.contains s then some s else none

def word? (words : List String) (d : Datum) : Option String :=
  match d.value with
  | .string s => if words.contains s then some s else none
  | .tagged t .null => if words.contains t then some t else none
  | _ => none

instance : Source Datum where
  shape := shape
  text? := text?
  bool? d := d.value.bare.bool?
  present? d := some !d.value.isNull
  field? := field?
  word? := word?
  value? d := if (copied d.value).wellFormed then some (copied d.value) else none
  buffer? d := if d.value.tagFree then some d.value else none

end Datum

end CiWorkflow.Yaml
