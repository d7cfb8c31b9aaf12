import CiWorkflow.Decimal.Binary64

set_option autoImplicit false

namespace CiWorkflow.Toml

open Decimal

inductive Value where
  | string (s : String)
  | integer (n : Int)
  | float (x : Binary64)
  | boolean (b : Bool)
  | dateTime (text : String)
  | array (items : List Value)
  | table (entries : List (String × Value))
  deriving Repr, Inhabited

abbrev Section := List (String × Value)

/-- The fields of a section. A table of a closed section has no other names. Dates and times stand for a
table of one name that no section has. -/
def section? (names : List String) (closed : Bool) : Value → Option Section
  | .table entries => if closed && entries.any fun e => !names.contains e.1 then none else some entries
  | .array items => some (names.zip items)
  | .dateTime _ => if closed then none else some []
  | _ => none

namespace Value

def text? : Value → Option String
  | .string s => some s
  | _ => none

def count? : Value → Option Nat
  | .integer n => if 0 ≤ n then some n.toNat else none
  | _ => none

def isEmptyCollection : Value → Bool
  | .array [] => true
  | .table [] => true
  | _ => false

/-- A word of a fixed choice: a string, or a table with the word as its one name and nothing in it. -/
def word? : Value → Option String
  | .string s => some s
  | .table [(name, v)] => if v.isEmptyCollection then some name else none
  | _ => none

def choice? {α : Type} (choices : List (String × α)) (v : Value) : Option α :=
  v.word?.bind fun word => choices.lookup word

end Value

namespace Section

variable {α : Type}

/-- A field that may be missing; one that is there has to be readable. -/
def optional? (s : Section) (name : String) (read : Value → Option α) : Option (Option α) :=
  match s.lookup name with
  | none => some none
  | some v => (read v).map some

def defaulted? (s : Section) (name : String) (value : α) (read : Value → Option α) : Option α :=
  (s.optional? name read).map fun x => x.getD value

end Section

end CiWorkflow.Toml
