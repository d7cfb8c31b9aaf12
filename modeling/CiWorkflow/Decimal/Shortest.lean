import CiWorkflow.Decimal.Binary64

/-!
The shortest decimal that reads back as a given number. A positive number `m * 2 ^ q` owns the
interval of reals that round to it, ends included when `m` is even. On the decimal grids of 1, 2, …,
17 digits the two grid points next to the number are tried; the first grid with a point in the
interval wins, and of two points the nearer.
-/
set_option autoImplicit false

namespace CiWorkflow.Decimal

structure Scientific where
  digits : Nat
  exponent : Int
  deriving DecidableEq, Repr

namespace Scientific

structure Ratio where
  num : Nat
  den : Nat

def Ratio.ofScaled (n : Nat) (base : Nat) (x : Int) : Ratio :=
  if 0 ≤ x then ⟨n * Nat.pow base x.toNat, 1⟩ else ⟨n, Nat.pow base (-x).toNat⟩

def Ratio.le (a b : Ratio) : Bool := a.num * b.den ≤ b.num * a.den
def Ratio.lt (a b : Ratio) : Bool := a.num * b.den < b.num * a.den

def Ratio.gap (a b : Ratio) : Ratio :=
  ⟨(a.num * b.den - b.num * a.den) + (b.num * a.den - a.num * b.den), a.den * b.den⟩

/-- The reals that round to `m * 2 ^ q`, as lower and upper end. Below a power of two the next
number is only half as far. -/
def owned (m : Nat) (q : Int) : Ratio × Ratio :=
  let below := if m = Nat.pow 2 52 && -1074 < q then 1 else 2
  (.ofScaled (4 * m - below) 2 (q - 2), .ofScaled (4 * m + 2) 2 (q - 2))

def within (m : Nat) (q : Int) (x : Ratio) : Bool :=
  let (low, high) := owned m q
  if m % 2 = 0 then low.le x && x.le high else low.lt x && x.lt high

def leading (v : Ratio) : Int :=
  if v.den ≤ v.num then (Nat.toDigits 10 (v.num / v.den)).length - 1
  else -((Nat.toDigits 10 ((v.den + v.num - 1) / v.num - 1)).length : Int)

def toRatio (s : Scientific) : Ratio := .ofScaled s.digits 10 s.exponent

def onGrid? (m : Nat) (q : Int) (n : Nat) : Option Scientific :=
  let v := Ratio.ofScaled m 2 q
  let x := leading v - n + 1
  let unit := Ratio.ofScaled 1 10 x
  let low : Nat := v.num * unit.den / (v.den * unit.num)
  let a : Scientific := ⟨low, x⟩
  let b : Scientific := ⟨low + 1, x⟩
  match within m q a.toRatio, within m q b.toRatio with
  | true, true => some (if (v.gap b.toRatio).lt (v.gap a.toRatio) then b else a)
  | true, false => some a
  | false, true => some b
  | false, false => none

/-- Seventeen digits always suffice; the last case is never reached. -/
def shortest (m : Nat) (q : Int) : Scientific :=
  ((List.range 17).findSome? fun n => onGrid? m q (n + 1)).getD ⟨m, q⟩

end Scientific

end CiWorkflow.Decimal
