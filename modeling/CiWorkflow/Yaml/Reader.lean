import CiWorkflow.Yaml.Node
import CiWorkflow.Yaml.Scalar
import CiWorkflow.Yaml.Value

set_option autoImplicit false

namespace CiWorkflow.Yaml

def boolTag : String := "tag:yaml.org,2002:bool"
def intTag : String := "tag:yaml.org,2002:int"
def floatTag : String := "tag:yaml.org,2002:float"
def nullTag : String := "tag:yaml.org,2002:null"

/-- The name of a tag that starts with an exclamation mark. One that is no text has none. -/
def localTag? (tag : Option String) : Option String :=
  match tag.map String.toList with
  | some ('!' :: []) => some "!"
  | some ('!' :: rest) => if rest.contains '\x00' then none else some (Value.tagName (String.ofList rest))
  | _ => none

def Meaning.value? (text : String) : Meaning → Option Value
  | .null => some .null
  | .bool b => some (.bool b)
  | .int n => some (.int n)
  | .wideInt _ => none
  | .float x => some (.float x)
  | .text => some (.string text)

/-- A scalar without a tag of the document's own. The mark of a tag that is no text leaves a plain scalar its
meaning. -/
def scalarValue? (tag : Option String) (form : ScalarForm) (text : String) : Option Value :=
  match tag with
  | none => if form = .plain then (meaning text).value? text else some (.string text)
  | some tag =>
    if tag = boolTag then (boolWord? text).map .bool
    else if tag = intTag then (integerMeaning? text.toList).bind (·.value? text)
    else if tag = floatTag then (floatMeaning? text.toList).map .float
    else if tag = nullTag then if isNullWord text then some .null else none
    else if form = .plain && tag.toList.head? = some '!' then (meaning text).value? text
    else some (.string text)

def withTag (tag : Option String) (v : Value) : Value :=
  match localTag? tag with
  | some name => .tagged name v
  | none => v

mutual

/-- The value of a node; keys of a mapping may still be the same. -/
def Node.content? : Node → Option Value
  | .scalar tag form text =>
    (scalarValue? (if (localTag? tag).isSome then none else tag) form text).map (withTag tag)
  | .sequence tag items => (itemContents? items).map fun vs => withTag tag (.sequence vs)
  | .mapping tag entries => (entryContents? entries).map fun es => withTag tag (.mapping es)

def itemContents? : List Node → Option (List Value)
  | [] => some []
  | n :: rest => do
    let v ← Node.content? n
    let vs ← itemContents? rest
    return v :: vs

def entryContents? : List (Node × Node) → Option (List (Value × Value))
  | [] => some []
  | (k, v) :: rest => do
    let k ← Node.content? k
    let v ← Node.content? v
    let es ← entryContents? rest
    return (k, v) :: es

end

def Node.value? (n : Node) : Option Value := n.content?.filter Value.wellFormed

def read? (s : String) : Option Value := do
  let n ← Node.read? s
  n.value?

end CiWorkflow.Yaml
