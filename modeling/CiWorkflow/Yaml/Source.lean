import CiWorkflow.Entries
import CiWorkflow.Yaml.Reader

/-!
Reading data of known shape. There are two sources: the nodes of a document, whose scalars still have
their spelling, and open values, whose scalars have got their meaning. Where several shapes are
allowed the node is turned into an open value first, and each shape is tried on that value; from then
on a text has to be a text, while from a node any scalar will do.
-/
set_option autoImplicit false

namespace CiWorkflow.Yaml

inductive Shape (σ : Type) where
  /-- Nothing at all, which counts as a collection without elements. -/
  | blank
  | items (elements : List σ)
  | entries (elements : List (σ × σ))
  | other

class Source (σ : Type) where
  shape : σ → Shape σ
  text? : σ → Option String
  bool? : σ → Option Bool
  /-- Whether anything is there; fails where a tag asks for null and the text is another. -/
  present? : σ → Option Bool
  /-- The field that a key names, if it is one of the given ones; fails where it cannot be a key. -/
  field? : List String → σ → Option (Option String)
  /-- The word of the given ones that the data stands for. -/
  word? : List String → σ → Option String
  /-- Data of any shape. -/
  value? : σ → Option Value
  /-- Data of any shape without tags, to try several shapes on. -/
  buffer? : σ → Option Value

namespace Node

def shape : Node → Shape Node
  | .scalar _ form text => if form = .plain && text.isEmpty then .blank else .other
  | .sequence _ items => .items items
  | .mapping _ entries => .entries entries

def text? : Node → Option String
  | .scalar _ _ text => some text
  | _ => none

def bool? : Node → Option Bool
  | .scalar tag form text =>
    if form = .plain || (form = .literal && tag = some boolTag) then boolWord? text else none
  | _ => none

def present? : Node → Option Bool
  | .scalar tag form text =>
    if form ≠ .plain then some true
    else
      match tag with
      | none => some (!text.isEmpty && !isNullWord text)
      | some t => if t = nullTag then if isNullWord text then some false else none else some true
  | _ => some true

def field? (names : List String) (n : Node) : Option (Option String) :=
  n.text?.map fun s => if names.contains s then some s else none

/-- A word is the text of a scalar, or the tag of a scalar without text. -/
def word? (words : List String) : Node → Option String
  | .scalar tag form text =>
    match localTag? tag with
    | some name =>
      if form = .plain && (text.isEmpty || isNullWord text) && words.contains name then some name else none
    | none => if words.contains text then some text else none
  | _ => none

instance : Source Node where
  shape := shape
  text? := text?
  bool? := bool?
  present? := present?
  field? := field?
  word? := word?
  value? := value?
  buffer? n := n.content?.filter Value.tagFree

end Node

namespace Value

def shape : Value → Shape Value
  | .sequence items => .items items
  | .mapping entries => .entries entries
  | _ => .other

def text? : Value → Option String
  | .string s => some s
  | _ => none

def bool? : Value → Option Bool
  | .bool b => some b
  | _ => none

def isNull : Value → Bool
  | .null => true
  | _ => false

def field? (names : List String) : Value → Option (Option String)
  | .string s => some (if names.contains s then some s else none)
  | .int (.ofNat n) => some names[n]?
  | _ => none

/-- A word is a text or the only key of a mapping to null, where its position may stand for it. -/
def word? (words : List String) : Value → Option String
  | .string s => if words.contains s then some s else none
  | .mapping [(k, .null)] => (field? words k).join
  | _ => none

instance : Source Value where
  shape := shape
  text? := text?
  bool? := bool?
  present? v := some !v.isNull
  field? := field?
  word? := word?
  value? v := if v.wellFormed then some v else none
  buffer? v := some v

end Value

section

variable {σ α : Type} [Source σ]

def readOptional? (read : σ → Option α) (s : σ) : Option (Option α) :=
  match Source.present? s with
  | none => none
  | some false => some none
  | some true => (read s).map some

def readList? (read : σ → Option α) (s : σ) : Option (List α) :=
  match Source.shape s with
  | .blank => some []
  | .items items => items.mapM read
  | _ => none

def readNamed? (read : σ → Option α) (e : σ × σ) : Option (String × α) := do
  let name ← Source.text? e.1
  let value ← read e.2
  return (name, value)

/-- A mapping with free keys; of several values under one key the last counts. -/
def readEntries? (read : σ → Option α) (s : σ) : Option (Entries α) :=
  match Source.shape s with
  | .blank => some .empty
  | .entries es => (es.mapM (readNamed? read)).map .ofList
  | _ => none

def readTexts? (s : σ) : Option (List String) := readList? Source.text? s

def readTextEntries? (s : σ) : Option (Entries String) := readEntries? Source.text? s

def readValueEntries? (s : σ) : Option (Entries Value) := readEntries? Source.value? s

def readOneOf? (reads : List (Value → Option α)) (s : σ) : Option α :=
  (Source.buffer? s).bind fun v => reads.findSome? (· v)

end

/-- The fields of a record that were found, by name; `positional` tells that they came as a list. -/
structure Record (σ : Type) where
  positional : Bool
  found : List (String × σ)

namespace Record

section

variable {σ α : Type} [Source σ]

/-- Fields by name: none twice, and where `closed` none but the given ones. -/
def collect? (closed : Bool) (names : List String) :
    List (String × σ) → List (σ × σ) → Option (List (String × σ))
  | found, [] => some found
  | found, (k, v) :: rest =>
    match Source.field? names k with
    | none => none
    | some none => if closed then none else collect? closed names found rest
    | some (some name) =>
      if (found.lookup name).isSome then none else collect? closed names (found ++ [(name, v)]) rest

/-- The record with the given fields, from a mapping or from a list of the fields in their order. -/
def read? (names : List String) (s : σ) : Option (Record σ) :=
  match Source.shape s with
  | .blank => some ⟨false, []⟩
  | .items items => if items.length ≤ names.length then some ⟨true, names.zip items⟩ else none
  | .entries es => (collect? true names [] es).map fun found => ⟨false, found⟩
  | .other => none

def required? (name : String) (read : σ → Option α) (r : Record σ) : Option α :=
  (r.found.lookup name).bind read

def optional? (name : String) (read : σ → Option α) (r : Record σ) : Option (Option α) :=
  match r.found.lookup name with
  | some s => readOptional? read s
  | none => if r.positional then none else some none

def defaulted? (name : String) (default : α) (read : σ → Option α) (r : Record σ) : Option α :=
  match r.found.lookup name with
  | some s => read s
  | none => some default

end

end Record

end CiWorkflow.Yaml
