import CiWorkflow.Decimal.Read
import CiWorkflow.Text.Split

set_option autoImplicit false

namespace CiWorkflow.Yaml

open Decimal Text

inductive Meaning where
  | null
  | bool (b : Bool)
  | int (n : Int)
  /-- An integer of more than 64 but at most 128 bits, which no value can hold. -/
  | wideInt (n : Int)
  | float (x : Binary64)
  | text
  deriving DecidableEq, Repr

def isNullWord (s : String) : Bool := s = "null" || s = "Null" || s = "NULL" || s = "~"

def boolWord? (s : String) : Option Bool :=
  if s = "true" || s = "True" || s = "TRUE" then some true
  else if s = "false" || s = "False" || s = "FALSE" then some false
  else none

def digitValue? (radix : Nat) (c : Char) : Option Nat :=
  let v :=
    if c.isDigit then some (c.toNat - '0'.toNat)
    else if 'a' ≤ c ∧ c ≤ 'z' then some (c.toNat - 'a'.toNat + 10)
    else if 'A' ≤ c ∧ c ≤ 'Z' then some (c.toNat - 'A'.toNat + 10)
    else none
  v.filter (· < radix)

def readRadix? (radix : Nat) (cs : List Char) : Option Nat :=
  if cs.isEmpty then none
  else cs.foldlM (fun n c => (digitValue? radix c).map (radix * n + ·)) 0

def readPrefixed? : List Char → Option Nat
  | '0' :: 'x' :: ds => readRadix? 16 ds
  | '0' :: 'o' :: ds => readRadix? 8 ds
  | '0' :: 'b' :: ds => readRadix? 2 ds
  | _ => none

def isZeroPadded (cs : List Char) : Bool :=
  let body := match cs with
    | '-' :: rest => rest
    | '+' :: rest => rest
    | _ => cs
  match body with
  | '0' :: d :: rest => (d :: rest).all Char.isDigit
  | _ => false

def readUnsigned? (cs : List Char) : Option Nat :=
  let body := match cs with
    | '+' :: rest => rest
    | _ => cs
  (readPrefixed? body).or (if isZeroPadded cs then none else readRadix? 10 body)

def readNegative? : List Char → Option Nat
  | '-' :: body => (readPrefixed? body).or (if isZeroPadded ('-' :: body) then none else readRadix? 10 body)
  | _ => none

def integerMeaning? (cs : List Char) : Option Meaning :=
  match readUnsigned? cs, readNegative? cs with
  | some n, _ =>
    if n < Nat.pow 2 64 then some (.int n) else if n < Nat.pow 2 128 then some (.wideInt n) else none
  | none, some n =>
    if n ≤ Nat.pow 2 63 then some (.int (-n)) else if n ≤ Nat.pow 2 127 then some (.wideInt (-n)) else none
  | none, none => none

/-- A number that need not be whole. Words such as `inf` without the point are no numbers, and a
number too large for double precision is none either. -/
def floatMeaning? (cs : List Char) : Option Binary64 :=
  let body? := match cs with
    | '+' :: '+' :: _ => none
    | '+' :: '-' :: _ => none
    | '+' :: rest => some rest
    | _ => some cs
  match body? with
  | none => none
  | some body =>
    let word := String.ofList body
    let whole := String.ofList cs
    if word = ".inf" || word = ".Inf" || word = ".INF" then some (.infinity false)
    else if whole = "-.inf" || whole = "-.Inf" || whole = "-.INF" then some (.infinity true)
    else if whole = ".nan" || whole = ".NaN" || whole = ".NAN" then some .nan
    else
      match readDecimal? body with
      | some x =>
        match x.kind with
        | .finite .. => some x
        | _ => none
      | none => none

def meaning (s : String) : Meaning :=
  let cs := s.toList
  if cs.isEmpty || isNullWord s then .null
  else
    match boolWord? s with
    | some b => .bool b
    | none =>
      match integerMeaning? cs with
      | some m => m
      | none =>
        if isZeroPadded cs then .text
        else
          match floatMeaning? cs with
          | some x => .float x
          | none => .text

end CiWorkflow.Yaml
