set_option autoImplicit false

namespace CiWorkflow.Decimal

structure Binary64 where
  bits : UInt64
  deriving DecidableEq, Repr, Inhabited

namespace Binary64

inductive Kind where
  | nan
  | infinite (negative : Bool)
  | finite (negative : Bool) (m : Nat) (q : Int)
  deriving DecidableEq, Repr

def isNegative (x : Binary64) : Bool := Nat.pow 2 63 ≤ x.bits.toNat

def magnitude (x : Binary64) : Nat := x.bits.toNat % Nat.pow 2 63

def kind (x : Binary64) : Kind :=
  let field : Nat := x.magnitude / Nat.pow 2 52
  let fraction : Nat := x.magnitude % Nat.pow 2 52
  if field = 2047 then
    if fraction = 0 then .infinite x.isNegative else .nan
  else if field = 0 then .finite x.isNegative fraction (-1074)
  else .finite x.isNegative (fraction + Nat.pow 2 52) ((field : Int) - 1075)

def isNan (x : Binary64) : Bool := x.kind = .nan

def ofMagnitude (negative : Bool) (n : Nat) : Binary64 :=
  ⟨.ofNat (n + if negative then Nat.pow 2 63 else 0)⟩

def infinity (negative : Bool) : Binary64 := ofMagnitude negative (2047 * Nat.pow 2 52)
def nan : Binary64 := ofMagnitude false (2047 * Nat.pow 2 52 + Nat.pow 2 51)

def roundQuotient (n d : Nat) : Nat :=
  let low := n / d
  let rest := 2 * (n % d)
  if rest < d then low
  else if d < rest then low + 1
  else low + low % 2

def scaled (n d : Nat) (q : Int) : Nat × Nat :=
  if 0 ≤ q then (n, d * Nat.pow 2 q.toNat) else (n * Nat.pow 2 (-q).toNat, d)

/-- The least exponent at which `n / d` has at most 53 bits before the point. -/
def exponentOf (n d : Nat) : Int :=
  let q : Int := max (-1074) ((n.log2 : Int) - d.log2 - 52)
  let (a, b) := scaled n d q
  if a / b < Nat.pow 2 52 then max (-1074) (q - 1) else q

/-- The number nearest to `n / d`; past the largest finite number it is infinite. -/
def ofRatio (negative : Bool) (n d : Nat) : Binary64 :=
  let q := exponentOf n d
  let (a, b) := scaled n d q
  ofMagnitude negative (min (2047 * Nat.pow 2 52) ((q + 1074).toNat * Nat.pow 2 52 + roundQuotient a b))

/-- The number nearest to `n * 10 ^ x`. Exponents far outside the range are settled by the number
of digits. -/
def ofDecimal (negative : Bool) (n : Nat) (x : Int) : Binary64 :=
  let size : Int := (Nat.toDigits 10 n).length
  if n = 0 then ofMagnitude negative 0
  else if 310 < size + x then infinity negative
  else if size + x < -330 then ofMagnitude negative 0
  else if 0 ≤ x then ofRatio negative (n * Nat.pow 10 x.toNat) 1
  else ofRatio negative n (Nat.pow 10 (-x).toNat)

def same (x y : Binary64) : Bool :=
  x = y || (x.isNan && y.isNan) || (x.magnitude = 0 && y.magnitude = 0)

end Binary64

end CiWorkflow.Decimal
