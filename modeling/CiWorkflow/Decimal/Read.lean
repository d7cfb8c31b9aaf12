import CiWorkflow.Decimal.Binary64

set_option autoImplicit false

namespace CiWorkflow.Decimal

def digitsValue (ds : List Char) : Nat :=
  ds.foldl (fun n d => 10 * n + (d.toNat - '0'.toNat)) 0

def spanDigits (cs : List Char) : List Char × List Char :=
  (cs.takeWhile Char.isDigit, cs.dropWhile Char.isDigit)

def takeSign : List Char → Bool × List Char
  | '-' :: rest => (true, rest)
  | '+' :: rest => (false, rest)
  | cs => (false, cs)

def readExponent? : List Char → Option Int
  | [] => some 0
  | c :: rest =>
    if c = 'e' || c = 'E' then
      let (negative, ds) := takeSign rest
      if ds.isEmpty || !ds.all Char.isDigit then none
      else some (if negative then -digitsValue ds else digitsValue ds)
    else none

def readMantissa? (cs : List Char) : Option (List Char × Nat × List Char) :=
  let (whole, rest) := spanDigits cs
  match rest with
  | '.' :: rest =>
    let (fraction, rest) := spanDigits rest
    if whole.isEmpty && fraction.isEmpty then none
    else some (whole ++ fraction, fraction.length, rest)
  | _ => if whole.isEmpty then none else some (whole, 0, rest)

def readDecimal? (cs : List Char) : Option Binary64 := do
  let (negative, body) := takeSign cs
  let (ds, places, rest) ← readMantissa? body
  let x ← readExponent? rest
  return Binary64.ofDecimal negative (digitsValue ds) (x - places)

end CiWorkflow.Decimal
