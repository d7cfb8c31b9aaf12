import CiWorkflow.Decimal.Binary64

set_option autoImplicit false

namespace CiWorkflow.Yaml

open Decimal

inductive Value where
  | null
  | bool (b : Bool)
  | int (n : Int)
  | float (x : Binary64)
  | string (s : String)
  | sequence (items : List Value)
  | mapping (entries : List (Value × Value))
  /-- The tag is kept without the exclamation mark that starts it. -/
  | tagged (tag : String) (value : Value)
  deriving Repr, Inhabited, BEq

namespace Value

def shownTag (tag : String) : String := "!" ++ tag

/-- A tag given with or without its exclamation mark; a lone mark is a name of its own. -/
def tagName (tag : String) : String :=
  match tag.toList with
  | '!' :: c :: rest => String.ofList (c :: rest)
  | _ => tag

def bare : Value → Value
  | .tagged _ v => v.bare
  | v => v

mutual

/-- Equality of data: the order of mapping entries does not count, nor does the spelling of NaN or
the sign of zero. Keys of one mapping are distinct. -/
def same : Value → Value → Bool
  | .null, .null => true
  | .bool a, .bool b => a = b
  | .int a, .int b => a = b
  | .float a, .float b => a.same b
  | .string a, .string b => a = b
  | .sequence xs, .sequence ys => sameItems xs ys
  | .mapping es, .mapping fs => es.length = fs.length && sameEntries es fs
  | .tagged t x, .tagged u y => t = u && same x y
  | _, _ => false

def sameItems : List Value → List Value → Bool
  | [], [] => true
  | x :: xs, y :: ys => same x y && sameItems xs ys
  | _, _ => false

def sameEntries : List (Value × Value) → List (Value × Value) → Bool
  | [], _ => true
  | (k, v) :: rest, fs => fs.any (fun f => same k f.1 && same v f.2) && sameEntries rest fs

end

def distinctKeys : List (Value × Value) → Bool
  | [] => true
  | (k, _) :: rest => rest.all (fun e => !same k e.1) && distinctKeys rest

mutual

def wellFormed : Value → Bool
  | .sequence items => wellFormedItems items
  | .mapping entries => distinctKeys entries && wellFormedEntries entries
  | .tagged _ v => wellFormed v
  | _ => true

def wellFormedItems : List Value → Bool
  | [] => true
  | v :: rest => wellFormed v && wellFormedItems rest

def wellFormedEntries : List (Value × Value) → Bool
  | [] => true
  | (k, v) :: rest => wellFormed k && wellFormed v && wellFormedEntries rest

end

mutual

def tagFree : Value → Bool
  | .sequence items => tagFreeItems items
  | .mapping entries => tagFreeEntries entries
  | .tagged .. => false
  | _ => true

def tagFreeItems : List Value → Bool
  | [] => true
  | v :: rest => tagFree v && tagFreeItems rest

def tagFreeEntries : List (Value × Value) → Bool
  | [] => true
  | (k, v) :: rest => tagFree k && tagFree v && tagFreeEntries rest

end

mutual

def hasNestedTags : Value → Bool
  | .sequence items => anyNestedTags items
  | .mapping entries => entriesNestTags entries
  | .tagged _ (.tagged ..) => true
  | .tagged _ v => hasNestedTags v
  | _ => false

def anyNestedTags : List Value → Bool
  | [] => false
  | v :: rest => hasNestedTags v || anyNestedTags rest

def entriesNestTags : List (Value × Value) → Bool
  | [] => false
  | (k, v) :: rest => hasNestedTags k || hasNestedTags v || entriesNestTags rest

end

/-- Puts an entry: a key that is there already keeps its place and gets the new value. -/
def putEntry (key value : Value) : List (Value × Value) → List (Value × Value)
  | [] => [(key, value)]
  | e :: rest => if same e.1 key then (e.1, value) :: rest else e :: putEntry key value rest

def ofList (es : List (Value × Value)) : Value := .mapping (es.foldl (fun m e => putEntry e.1 e.2 m) [])

mutual

/-- The value built anew from its parts. A tag that still starts with an exclamation mark loses it. -/
def rebuilt : Value → Value
  | .sequence items => .sequence (rebuiltItems items)
  | .mapping entries => ofList (rebuiltEntries entries)
  | .tagged t v => .tagged (tagName t) (rebuilt v)
  | v => v

def rebuiltItems : List Value → List Value
  | [] => []
  | v :: rest => rebuilt v :: rebuiltItems rest

def rebuiltEntries : List (Value × Value) → List (Value × Value)
  | [] => []
  | (k, v) :: rest => (rebuilt k, rebuilt v) :: rebuiltEntries rest

end

end Value

end CiWorkflow.Yaml
