import CiWorkflow.Decimal.Read
import CiWorkflow.Text.Blank
import CiWorkflow.Text.Digit
import CiWorkflow.Text.Split
import CiWorkflow.Yaml.Value

set_option autoImplicit false

namespace CiWorkflow.Render

open Text Yaml

def markerStem : String := "__ghaflow_block_"

def marker (n : Nat) : String := markerStem ++ toString n ++ "__"

/-- The scripts that were taken out, and the number of the marker that stands for them. -/
structure Blocks where
  number : Nat
  scripts : List String
  deriving DecidableEq, Repr

mutual

def texts : Value → List String
  | .string s => [s]
  | .sequence items => itemTexts items
  | .mapping entries => entryTexts entries
  | .tagged _ v => texts v
  | _ => []

def itemTexts : List Value → List String
  | [] => []
  | v :: rest => texts v ++ itemTexts rest

def entryTexts : List (Value × Value) → List String
  | [] => []
  | (k, v) :: rest => texts k ++ texts v ++ entryTexts rest

end

def isFresh (ts : List String) (n : Nat) : Bool := ts.all fun t => !contains t (marker n)

/-- The first marker that no text contains. Texts have room for no more markers than characters. -/
def freshNumber (ts : List String) : Nat :=
  let room := ts.foldl (fun n t => n + t.length) 0
  ((List.range (room + 1)).find? (isFresh ts)).getD 0

/-- Whether a literal block gives a text back exactly: no characters that it cannot show, no line that
ends in a blank, and not blank altogether. -/
def isBlockSafe (s : String) : Bool :=
  let cs := s.toList
  !cs.all isBlank &&
    cs.all (fun c =>
      c = '\n' || c = '\t' ||
        !(isControl c || c = '\u0085' || c = '\u2028' || c = '\u2029' || c = '\ufeff')) &&
    (splitAt '\n' cs).all fun line => !line.getLast?.any fun c => c = ' ' || c = '\t'

def isRunKey : Value → Bool
  | .string s => s = "run"
  | .tagged _ v => isRunKey v
  | _ => false

def script? (key value : Value) : Option String :=
  match value with
  | .string s => if isRunKey key && s.toList.contains '\n' && isBlockSafe s then some s else none
  | _ => none

def reference (number i : Nat) : String := marker number ++ ":" ++ toString i

mutual

/-- The value with references in place of its scripts, and the scripts, numbered from `i`. -/
def markFrom (number i : Nat) : Value → Value × List String
  | .sequence items =>
    let (items, scripts) := markItems number i items
    (.sequence items, scripts)
  | .mapping entries =>
    let (entries, scripts) := markEntries number i entries
    (.mapping entries, scripts)
  | .tagged t v =>
    let (v, scripts) := markFrom number i v
    (.tagged t v, scripts)
  | v => (v, [])

def markItems (number i : Nat) : List Value → List Value × List String
  | [] => ([], [])
  | v :: rest =>
    let (v, scripts) := markFrom number i v
    let (rest, others) := markItems number (i + scripts.length) rest
    (v :: rest, scripts ++ others)

def markEntries (number i : Nat) : List (Value × Value) → List (Value × Value) × List String
  | [] => ([], [])
  | (k, v) :: rest =>
    let (v, scripts) := match script? k v with
      | some s => (Value.string (reference number i), [s])
      | none => markFrom number i v
    let (rest, others) := markEntries number (i + scripts.length) rest
    ((k, v) :: rest, scripts ++ others)

end

def mark (v : Value) : Value × Blocks :=
  let number := freshNumber (texts v)
  let (marked, scripts) := markFrom number 0 v
  (marked, ⟨number, scripts⟩)

/-- A marker and an index at the start of a text: the number, the index and the rest. -/
def readReference? (cs : List Char) : Option (List Char × List Char × List Char) := do
  let rest ← stripPrefix? markerStem.toList cs
  let number := rest.takeWhile isDecimalDigit
  let rest ← stripPrefix? ['_', '_', ':'] (rest.dropWhile isDecimalDigit)
  let index := rest.takeWhile isDecimalDigit
  if number.isEmpty || index.isEmpty then none
  else some (number, index, rest.dropWhile isDecimalDigit)

def Blocks.find? (b : Blocks) (number index : List Char) : Option String :=
  if number = (toString b.number).toList && index.all Char.isDigit then b.scripts[Decimal.digitsValue index]?
  else none

end CiWorkflow.Render
