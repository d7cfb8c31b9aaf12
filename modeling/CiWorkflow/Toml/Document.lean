import CiWorkflow.Toml.Statement

set_option autoImplicit false

namespace CiWorkflow.Toml

inductive Item where
  | value (v : Value)
  /-- A table; `implicit` means that no header has defined it, `dotted` that a dotted key has. -/
  | table (implicit dotted : Bool) (entries : List (String × Item))
  /-- Tables of one array. -/
  | tables (ts : List (List (String × Item)))
  deriving Inhabited

abbrev Items := List (String × Item)

def putItem (name : String) (item : Item) : Items → Items
  | [] => [(name, item)]
  | e :: rest => if e.1 = name then (name, item) :: rest else e :: putItem name item rest

mutual

def Item.toValue : Item → Value
  | .value v => v
  | .table _ _ entries => .table (entryValues entries)
  | .tables ts => .array (tableValues ts)

def entryValues : Items → List (String × Value)
  | [] => []
  | (name, item) :: rest => (name, item.toValue) :: entryValues rest

def tableValues : List Items → List Value
  | [] => []
  | entries :: rest => .table (entryValues entries) :: tableValues rest

end

/-- Changes the table that a key leads to, starting in a table that is or is not `dotted`. Missing tables
are added on the way. The last table of an array stands for the array. A dotted key passes through no
table that a header has defined. -/
def change? (byKey : Bool) (f : Bool → Items → Option Items) : Key → Bool → Items → Option Items
  | [], dotted, items => f dotted items
  | name :: rest, _, items =>
    match items.lookup name with
    | none => (change? byKey f rest byKey []).map fun sub => putItem name (.table true byKey sub) items
    | some (.value _) => none
    | some (.table implicit dotted sub) =>
      if byKey && !implicit then none
      else (change? byKey f rest dotted sub).map fun sub => putItem name (.table implicit dotted sub) items
    | some (.tables ts) => do
      let last ← ts.getLast?
      let last ← change? byKey f rest false last
      return putItem name (.tables (ts.dropLast ++ [last])) items

def assign? (key : Key) (v : Value) (dotted : Bool) (items : Items) : Option Items := do
  let name ← key.getLast?
  let path := key.dropLast
  change? true (fun dotted entries =>
    if dotted = path.isEmpty || (entries.lookup name).isSome then none
    else some (putItem name (.value v) entries)) path dotted items

mutual

/-- The value of a term, with the keys of its inline tables put together. -/
def Term.value? : Term → Option Value
  | .scalar v => some v
  | .array items => (termValues? items).map .array
  | .inlineTable entries => (assignAll? [] entries).map fun items => .table (entryValues items)

def termValues? : List Term → Option (List Value)
  | [] => some []
  | t :: rest => do
    let v ← t.value?
    let vs ← termValues? rest
    return v :: vs

def assignAll? (items : Items) : List (Key × Term) → Option Items
  | [] => some items
  | (key, t) :: rest => do
    let v ← t.value?
    let items ← assign? key v false items
    assignAll? items rest

end

def openTable? (key : Key) (items : Items) : Option Items := do
  let name ← key.getLast?
  change? false (fun _ entries =>
    match entries.lookup name with
    | none => some (putItem name (.table false false []) entries)
    | some (.table true false sub) => some (putItem name (.table false false sub) entries)
    | _ => none) key.dropLast false items

def openArray? (key : Key) (items : Items) : Option Items := do
  let name ← key.getLast?
  change? false (fun _ entries =>
    match entries.lookup name with
    | none => some (putItem name (.tables [[]]) entries)
    | some (.tables ts) => some (putItem name (.tables (ts ++ [[]])) entries)
    | _ => none) key.dropLast false items

/-- The items of a document, read on from some that are there and from the table of the last header. -/
def build? : Key → Items → List Statement → Option Items
  | _, items, [] => some items
  | current, items, .assign key t :: rest => do
    let v ← t.value?
    let items ← change? false (assign? key v) current false items
    build? current items rest
  | _, items, .header key :: rest => do
    let items ← openTable? key items
    build? key items rest
  | _, items, .arrayHeader key :: rest => do
    let items ← openArray? key items
    build? key items rest

def read? (text : String) : Option (List (String × Value)) := do
  let ss ← statements? text
  let items ← build? [] [] ss
  return entryValues items

end CiWorkflow.Toml
