import Galley.Text.Basic
/-!
# Exact values of floating-point numbers

A finite number is a whole number of halves, quarters, and so on: a numerator
over a power of two, read off its bits. Rounding to decimal places works on
that value in exact arithmetic, so no digit depends on an approximation.
-/

namespace Galley.Decimal

/-- What a float stands for. -/
inductive Value where
  | notNumber
  | infinite (negative : Bool)
  /-- `mantissa · 2 ^ exponent`, and whether the next smaller float is at half the usual distance. -/
  | finite (negative : Bool) (mantissa : Nat) (exponent : Int) (narrowBelow : Bool)
  deriving Repr

def Value.of (x : Float) : Value :=
  let bits : Nat := x.toBits.toNat
  let negative : Bool := bits / Nat.pow 2 63 = 1
  let e : Nat := bits / Nat.pow 2 52 % 2048
  let f : Nat := bits % Nat.pow 2 52
  if e = 2047 then if f = 0 then .infinite negative else .notNumber
  else if e = 0 then .finite negative f (-1074) false
  else .finite negative (Nat.pow 2 52 + f) ((e : Int) - 1075) (f = 0 && e > 1)

/-- A nonnegative fraction; the denominator is not zero. -/
structure Fraction where
  num : Nat
  den : Nat
  deriving Repr

namespace Fraction

/-- `m · b ^ e`. -/
def scaled (m b : Nat) (e : Int) : Fraction :=
  match e with
  | .ofNat n => ⟨m * b.pow n, 1⟩
  | .negSucc n => ⟨m, b.pow (n + 1)⟩

def mul (a b : Fraction) : Fraction := ⟨a.num * b.num, a.den * b.den⟩

def le (a b : Fraction) : Bool := a.num * b.den ≤ b.num * a.den

def lt (a b : Fraction) : Bool := a.num * b.den < b.num * a.den

/-- Distance of two fractions. -/
def dist (a b : Fraction) : Fraction :=
  let x := a.num * b.den
  let y := b.num * a.den
  ⟨if x ≤ y then y - x else x - y, a.den * b.den⟩

def floor (a : Fraction) : Nat := a.num / a.den

/-- The nearest whole number; a half goes to the even neighbour. -/
def round (a : Fraction) : Nat :=
  let q := a.num / a.den
  let r := 2 * (a.num % a.den)
  if r < a.den then q else if r > a.den then q + 1 else if q % 2 = 0 then q else q + 1

/-- The least `j` up to `fuel` with `1 ≤ a · 10 ^ j`. -/
def leadingZeros : (fuel : Nat) → Fraction → Nat
  | 0, _ => 0
  | n + 1, a => if a.den ≤ a.num then 0 else leadingZeros n ⟨a.num * 10, a.den⟩ + 1

/-- The exponent of the leading decimal digit of a positive fraction. -/
def magnitude (a : Fraction) : Int :=
  if a.den ≤ a.num then ((Text.ofNat a.floor).length : Int) - 1
  else - (leadingZeros 400 a : Int)

end Fraction

end Galley.Decimal
