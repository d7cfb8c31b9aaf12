import CiWorkflow.Decimal.Read

set_option autoImplicit false

namespace CiWorkflow.Toml

open Decimal

def field? (n low high : Nat) (cs : List Char) : Option (Nat × List Char) :=
  let ds := cs.take n
  if ds.length = n && ds.all Char.isDigit && low ≤ digitsValue ds && digitsValue ds ≤ high then
    some (digitsValue ds, cs.drop n)
  else none

def mark? (c : Char) : List Char → Option (List Char)
  | [] => none
  | d :: rest => if c = d then some rest else none

def isLeapYear (year : Nat) : Bool := year % 4 = 0 && (year % 100 ≠ 0 || year % 400 = 0)

def monthLength (year month : Nat) : Nat :=
  if month = 2 then (if isLeapYear year then 29 else 28)
  else if month ∈ [4, 6, 9, 11] then 30
  else 31

def takeDate? (cs : List Char) : Option (List Char) := do
  let (year, cs) ← field? 4 0 9999 cs
  let cs ← mark? '-' cs
  let (month, cs) ← field? 2 1 12 cs
  let cs ← mark? '-' cs
  let (_, cs) ← field? 2 1 (monthLength year month) cs
  return cs

def takeHourMinute? (cs : List Char) : Option (List Char) := do
  let (_, cs) ← field? 2 0 23 cs
  let cs ← mark? ':' cs
  let (_, cs) ← field? 2 0 59 cs
  return cs

/-- The text behind a time of day. A minute can have a leap second. -/
def takeTime? (cs : List Char) : Option (List Char) := do
  let cs ← takeHourMinute? cs
  let cs ← mark? ':' cs
  let (_, cs) ← field? 2 0 60 cs
  match cs with
  | '.' :: d :: rest => if d.isDigit then return rest.dropWhile Char.isDigit else none
  | _ => return cs

def isOffset (cs : List Char) : Bool :=
  match cs with
  | [] => true
  | ['Z'] => true
  | ['z'] => true
  | '+' :: rest => takeHourMinute? rest = some []
  | '-' :: rest => takeHourMinute? rest = some []
  | _ => false

def isDate (cs : List Char) : Bool := takeDate? cs = some []

def isTime (cs : List Char) : Bool := takeTime? cs = some []

def isOffsetTime (cs : List Char) : Bool := (takeTime? cs).any isOffset

/-- A date, a time, or both with one of `T`, `t` and a blank between them. -/
def isDateTime (cs : List Char) : Bool :=
  isTime cs ||
    match takeDate? cs with
    | some [] => true
    | some (c :: rest) => (c = 'T' || c = 't' || c = ' ') && isOffsetTime rest
    | none => false

end CiWorkflow.Toml
