import CiWorkflow.Decimal.Read
import CiWorkflow.Toml.Text

set_option autoImplicit false

namespace CiWorkflow.Toml

open Decimal

/-- The digits of a text in which every underscore stands between two of them. -/
def digits? (isDigit : Char → Bool) : List Char → Option (List Char)
  | [] => none
  | [d] => if isDigit d then some [d] else none
  | d :: '_' :: rest => if isDigit d then (digits? isDigit rest).map (d :: ·) else none
  | d :: rest => if isDigit d then (digits? isDigit rest).map (d :: ·) else none

def wholeDigits? (cs : List Char) : Option (List Char) :=
  if cs.head? = some '0' && cs.length ≠ 1 then none else digits? Char.isDigit cs

def inRange? (n : Int) : Option Int :=
  if -(Nat.pow 2 63 : Int) ≤ n ∧ n < Nat.pow 2 63 then some n else none

def baseValue? (base : Nat) (cs : List Char) : Option Int := do
  let ds ← digits? (fun c => (hexDigit? c).any (· < base)) cs
  let n ← ds.foldlM (fun n d => (hexDigit? d).map (base * n + ·)) 0
  inRange? n

def integer? : List Char → Option Int
  | '0' :: 'x' :: rest => baseValue? 16 rest
  | '0' :: 'o' :: rest => baseValue? 8 rest
  | '0' :: 'b' :: rest => baseValue? 2 rest
  | cs => do
    let (negative, body) := takeSign cs
    let ds ← wholeDigits? body
    inRange? (if negative then -digitsValue ds else digitsValue ds)

def exponent? (cs : List Char) : Option Int := do
  let (negative, body) := takeSign cs
  let ds ← digits? Char.isDigit body
  return if negative then -digitsValue ds else digitsValue ds

def isExponentMark (c : Char) : Bool := c = 'e' || c = 'E'

def splitExponent? (cs : List Char) : Option (List Char × Option Int) :=
  let front := cs.takeWhile fun c => !isExponentMark c
  match cs.dropWhile fun c => !isExponentMark c with
  | [] => some (front, none)
  | _ :: rest => (exponent? rest).map fun x => (front, some x)

def finite? (cs : List Char) : Option Binary64 := do
  let (negative, body) := takeSign cs
  let (mantissa, x) ← splitExponent? body
  let whole ← wholeDigits? (mantissa.takeWhile (· ≠ '.'))
  match mantissa.dropWhile (· ≠ '.'), x with
  | [], none => none
  | [], some x => return .ofDecimal negative (digitsValue whole) x
  | _ :: fraction, x =>
    let fraction ← digits? Char.isDigit fraction
    return .ofDecimal negative (digitsValue (whole ++ fraction)) (x.getD 0 - fraction.length)

/-- A number too large is refused; one too small is infinite. -/
def float? (cs : List Char) : Option Binary64 :=
  let (negative, body) := takeSign cs
  if body = "inf".toList then some (.infinity negative)
  else if body = "nan".toList then some .nan
  else (finite? cs).filter (· ≠ .infinity false)

end CiWorkflow.Toml
