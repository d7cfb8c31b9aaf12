import CiWorkflow.Decimal.Layout
import CiWorkflow.Yaml.Quoted
import CiWorkflow.Yaml.Value

/-!
The block style text of an open value. Mappings below a key are indented by two, sequences below a
key by nothing; below a `-` or a `?` the first entry continues the line. The text of a collection is
first built as lines that all start in the same column; where it continues a line, that first
indentation is dropped again.
-/
set_option autoImplicit false

namespace CiWorkflow.Yaml

open Decimal

def floatLayout : Layout := ⟨some (-5, 15), true, false, ".nan", ".inf", "-.inf"⟩

/-- Where a node stands. The number is the column of the collection around it. -/
inductive Place where
  | root
  /-- After a key and its colon. -/
  | value (column : Nat)
  /-- After the dash of a sequence. -/
  | item (column : Nat)
  /-- After a question mark, or after the colon that answers one. -/
  | slot (column : Nat)
  deriving DecidableEq, Repr

namespace Place

def scalarWidth : Place → Nat
  | .root => 2
  | .value n => n + 2
  | .item n => n + 2
  | .slot n => n + 2

def mappingColumn : Place → Nat
  | .root => 0
  | .value n => n + 2
  | .item n => n + 2
  | .slot n => n + 2

def sequenceColumn (hasTag : Bool) : Place → Nat
  | .root => 0
  | .value n => n
  | .item n => n + 2
  | .slot n => if hasTag then n else n + 2

def gap : Place → List Char
  | .root => []
  | _ => [' ']

def continuesLine : Place → Bool
  | .value _ => false
  | _ => true

end Place

def isTagChar (c : Char) : Bool :=
  c.isAlphanum || "-_;/?:@&=+$,.~*'()[]".toList.contains c

/-- The characters of a tag, those that cannot stand in it as their bytes. -/
def escapeTag (cs : List Char) : List Char :=
  cs.flatMap fun c =>
    if isTagChar c then [c]
    else (String.singleton c).toUTF8.toList.flatMap fun b => '%' :: hexDigits 2 b.toNat

def fullTag (tag : String) : List Char :=
  let name := match tag.toList with
    | '!' :: rest => rest
    | cs => cs
  '!' :: name.takeWhile (· ≠ '\x00')

/-- A lone exclamation mark is given in full, every other tag behind its mark. -/
def tagText (tag : String) : List Char :=
  match fullTag tag with
  | ['!'] => '!' :: '<' :: escapeTag ['!'] ++ ['>']
  | full => '!' :: escapeTag (full.drop 1)

def atomText? (width : Nat) : Value → Option (List Char)
  | .null => some "null".toList
  | .bool b => some (if b then "true".toList else "false".toList)
  | .int n => some (toString n).toList
  | .float x => some (floatLayout.write x).toList
  | .string s => some (scalarText width s)
  | .sequence [] => some "[]".toList
  | .mapping [] => some ['\x7b', '\x7d']
  | _ => none

def closeLine (cs : List Char) : List Char := if endsIn isBreak cs then cs else cs ++ ['\n']

def untag : Value → Option String × Value
  | .tagged t v => (some t, v)
  | v => (none, v)

def keySize (tag : Option String) (v : Value) : Nat :=
  let tagSize := match tag with
    | some t => (String.ofList (fullTag t)).utf8ByteSize
    | none => 0
  let size := match v with
    | .string s => s.utf8ByteSize
    | .sequence [] => 0
    | .mapping [] => 0
    | v => ((atomText? 0 v).getD []).length
  tagSize + size

/-- The text of a key that stands on one line with its value; other keys follow a question mark. -/
def simpleKey? (key : Value) : Option (List Char) :=
  let (tag, v) := untag key
  let hasBreak := match v with
    | .string s => s.toList.any isBreak
    | _ => false
  match atomText? 0 v with
  | some text =>
    if hasBreak || 128 < keySize tag v then none
    else some (match tag with
      | some t => tagText t ++ ' ' :: text
      | none => text)
  | none => none

/-- The text of a collection whose lines start in column `n`, behind what stands in front. -/
def placeBlock (p : Place) (tag : Option String) (n : Nat) (block : List Char) : List Char :=
  match tag with
  | some t => p.gap ++ tagText t ++ '\n' :: block
  | none => if p.continuesLine then p.gap ++ block.drop n else '\n' :: block

mutual

def nodeText (p : Place) (tag : Option String) : Value → List Char
  | .tagged t v => nodeText p (some t) v
  | .sequence (v :: rest) =>
    let n := p.sequenceColumn tag.isSome
    placeBlock p tag n (itemsText n (v :: rest))
  | .mapping (e :: rest) =>
    let n := p.mappingColumn
    placeBlock p tag n (entriesText n (e :: rest))
  | v =>
    let lead := match tag with
      | some t => p.gap ++ tagText t ++ [' ']
      | none => p.gap
    closeLine (lead ++ (atomText? p.scalarWidth v).getD [])

def itemsText (n : Nat) : List Value → List Char
  | [] => []
  | v :: rest => spaces n ++ '-' :: nodeText (.item n) none v ++ itemsText n rest

def entriesText (n : Nat) : List (Value × Value) → List Char
  | [] => []
  | (k, v) :: rest =>
    (match simpleKey? k with
      | some key => spaces n ++ key ++ ':' :: nodeText (.value n) none v
      | none =>
        spaces n ++ '?' :: nodeText (.slot n) none k ++ spaces n ++ ':' :: nodeText (.slot n) none v) ++
      entriesText n rest

end

def hidesMapping : Value → Bool
  | .mapping [_] => true
  | .tagged .. => true
  | _ => false

mutual

/-- Whether a value can be written. A tag cannot stand on a tag, and the only key of a mapping without
tag can neither be tagged nor be a mapping of one entry. -/
def writable (hasTag : Bool) : Value → Bool
  | .tagged _ v => !hasTag && writable true v
  | .sequence items => writableItems items
  | .mapping entries =>
    (hasTag || (match entries with
      | [(k, _)] => !hidesMapping k
      | _ => true)) && writableEntries entries
  | _ => true

def writableItems : List Value → Bool
  | [] => true
  | v :: rest => writable false v && writableItems rest

def writableEntries : List (Value × Value) → Bool
  | [] => true
  | (k, v) :: rest => writable false k && writable false v && writableEntries rest

end

def write? (v : Value) : Option String :=
  if writable false v then some (String.ofList (nodeText .root none v)) else none

end CiWorkflow.Yaml
