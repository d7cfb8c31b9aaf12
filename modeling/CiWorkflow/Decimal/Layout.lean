import CiWorkflow.Decimal.Shortest

set_option autoImplicit false

namespace CiWorkflow.Decimal

structure Layout where
  /-- Powers of ten of the first digit that are written without exponent; all of them if absent. -/
  positional : Option (Int × Int)
  /-- Whether a whole number ends in `.0`. -/
  pointZero : Bool
  /-- Whether an exponent that is not negative has a plus sign. -/
  plus : Bool
  nan : String
  infinity : String
  minusInfinity : String

def padZeros (n : Nat) : List Char := List.replicate n '0'

/-- The digits without the zeros at their end, which move into the exponent. -/
def Scientific.normal (s : Scientific) : List Char × Int :=
  let ds := Nat.toDigits 10 s.digits
  let kept := (ds.reverse.dropWhile (· = '0')).reverse
  if kept.isEmpty then (['0'], 0) else (kept, s.exponent + (ds.length - kept.length))

def positionalText (pointZero : Bool) (ds : List Char) (x : Int) : List Char :=
  let tail := if pointZero then ['.', '0'] else []
  if 0 ≤ x then ds ++ padZeros x.toNat ++ tail
  else
    let places := (-x).toNat
    if places < ds.length then ds.take (ds.length - places) ++ '.' :: ds.drop (ds.length - places)
    else '0' :: '.' :: padZeros (places - ds.length) ++ ds

def exponentText (plus : Bool) (ds : List Char) (e : Int) : List Char :=
  let mantissa := match ds with
    | [] => []
    | [d] => [d]
    | d :: rest => d :: '.' :: rest
  let sign := if e < 0 then ['-'] else if plus then ['+'] else []
  mantissa ++ 'e' :: sign ++ Nat.toDigits 10 e.natAbs

def Layout.write (l : Layout) (x : Binary64) : String :=
  match x.kind with
  | .nan => l.nan
  | .infinite negative => if negative then l.minusInfinity else l.infinity
  | .finite negative m q =>
    let (ds, e) := (if m = 0 then (⟨0, 0⟩ : Scientific) else Scientific.shortest m q).normal
    let first := e + (ds.length - 1)
    let around := match l.positional with
      | none => true
      | some (least, most) => decide (least ≤ first ∧ first ≤ most)
    let body := if around then positionalText l.pointZero ds e else exponentText l.plus ds first
    String.ofList (if negative then '-' :: body else body)

end CiWorkflow.Decimal
