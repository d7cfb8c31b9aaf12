import CiWorkflow.Yaml.Token.Scanner
import CiWorkflow.Yaml.Tree

set_option autoImplicit false

namespace CiWorkflow.Yaml

inductive Node where
  | scalar (tag : Option String) (form : ScalarForm) (text : String)
  | sequence (tag : Option String) (items : List Node)
  | mapping (tag : Option String) (entries : List (Node × Node))
  deriving Inhabited, Repr

namespace Tree

abbrev Names := List (String × Nat)

def Names.insert (name : String) (names : Names) : Names :=
  (name, names.length) :: names.filter (·.1 ≠ name)

def numberAnchor (names : Names) : Option String → Names × Option Nat
  | none => (names, none)
  | some name => (names.insert name, some names.length)

mutual

/-- Numbers the anchors; an alias needs an anchor in front of it. -/
def number? (names : Names) : Tree String → Option (Tree Nat × Names)
  | .alias name => (names.lookup name).map fun n => (.alias n, names)
  | .scalar anchor tag form text =>
    let (names, anchor) := numberAnchor names anchor
    some (.scalar anchor tag form text, names)
  | .sequence anchor tag items => do
    let (names, anchor) := numberAnchor names anchor
    let (items, names) ← numberItems? names items
    return (.sequence anchor tag items, names)
  | .mapping anchor tag entries => do
    let (names, anchor) := numberAnchor names anchor
    let (entries, names) ← numberEntries? names entries
    return (.mapping anchor tag entries, names)

def numberItems? (names : Names) : List (Tree String) → Option (List (Tree Nat) × Names)
  | [] => some ([], names)
  | t :: rest => do
    let (t, names) ← number? names t
    let (rest, names) ← numberItems? names rest
    return (t :: rest, names)

def numberEntries? (names : Names) :
    List (Tree String × Tree String) → Option (List (Tree Nat × Tree Nat) × Names)
  | [] => some ([], names)
  | (k, v) :: rest => do
    let (k, names) ← number? names k
    let (v, names) ← number? names v
    let (rest, names) ← numberEntries? names rest
    return ((k, v) :: rest, names)

end

mutual

def anchored : Tree Nat → List (Nat × Tree Nat)
  | .alias _ => []
  | .scalar anchor tag form text => anchor.toList.map (·, .scalar anchor tag form text)
  | .sequence anchor tag items =>
    anchor.toList.map (·, .sequence anchor tag items) ++ anchoredItems items
  | .mapping anchor tag entries =>
    anchor.toList.map (·, .mapping anchor tag entries) ++ anchoredEntries entries

def anchoredItems : List (Tree Nat) → List (Nat × Tree Nat)
  | [] => []
  | t :: rest => anchored t ++ anchoredItems rest

def anchoredEntries : List (Tree Nat × Tree Nat) → List (Nat × Tree Nat)
  | [] => []
  | (k, v) :: rest => anchored k ++ anchored v ++ anchoredEntries rest

end

mutual

def eventCount : Tree Nat → Nat
  | .alias _ => 1
  | .scalar .. => 1
  | .sequence _ _ items => 2 + eventCountItems items
  | .mapping _ _ entries => 2 + eventCountEntries entries

def eventCountItems : List (Tree Nat) → Nat
  | [] => 0
  | t :: rest => eventCount t + eventCountItems rest

def eventCountEntries : List (Tree Nat × Tree Nat) → Nat
  | [] => 0
  | (k, v) :: rest => eventCount k + eventCount v + eventCountEntries rest

end

/-- Follows an alias; the state counts down how many may still be followed. -/
def follow (table : List (Nat × Tree Nat)) : Tree Nat → StateT Nat Option (Tree Nat)
  | .alias n => do
    match ← get, table.lookup n with
    | left + 1, some t =>
      set left
      return t
    | _, _ => failure
  | t => return t

/-- Collections nest at most `depth` deep, those inside followed aliases included. -/
def expand (table : List (Nat × Tree Nat)) : Nat → Tree Nat → StateT Nat Option Node
  | 0, t => do
    match ← follow table t with
    | .scalar _ tag form text => return .scalar tag form text
    | _ => failure
  | depth + 1, t => do
    match ← follow table t with
    | .scalar _ tag form text => return .scalar tag form text
    | .sequence _ tag items => return .sequence tag (← items.mapM (expand table depth))
    | .mapping _ tag entries =>
      return .mapping tag (← entries.mapM fun (k, v) => do
        return (← expand table depth k, ← expand table depth v))
    | .alias _ => failure

def maxDepth : Nat := 128

def maxRepetition : Nat := 100

def resolve? (t : Tree String) : Option Node := do
  let (t, _) ← number? [] t
  let limit := maxRepetition * t.eventCount
  ((expand t.anchored.reverse maxDepth t).run limit).map (·.1)

end Tree

def Node.read? (s : String) : Option Node := do
  let ts ← tokens? s
  let t ← parse? ts
  t.resolve?

end CiWorkflow.Yaml
