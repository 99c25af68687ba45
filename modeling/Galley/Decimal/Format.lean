import Galley.Decimal.Exact
/-!
# Writing numbers

Three notations: the fewest digits that read back as the number, a fixed number
of decimal places, and six significant digits without trailing zeros. The last
two round the exact value, a half going to the even neighbour.
-/

namespace Galley.Decimal

/-- Digits of a positive number and the power of ten of its last digit. -/
structure Digits where
  value : Nat
  power : Int
  deriving Repr

/-- Drops zeros at the end. -/
def Digits.trim : (fuel : Nat) → Digits → Digits
  | 0, d => d
  | n + 1, d => if d.value ≠ 0 && d.value % 10 = 0 then trim n ⟨d.value / 10, d.power + 1⟩ else d

/-! ## The fewest digits -/

/-- The numbers that round to a float: bounds, and whether the bounds themselves do. -/
structure Interval where
  low : Fraction
  high : Fraction
  closed : Bool

def Interval.contains (i : Interval) (a : Fraction) : Bool :=
  if i.closed then i.low.le a && a.le i.high else i.low.lt a && a.lt i.high

def intervalOf (mantissa : Nat) (exponent : Int) (narrowBelow : Bool) : Interval where
  low :=
    if narrowBelow then .scaled (4 * mantissa - 1) 2 (exponent - 2)
    else .scaled (2 * mantissa - 1) 2 (exponent - 1)
  high := .scaled (2 * mantissa + 1) 2 (exponent - 1)
  closed := mantissa % 2 = 0

/-- The better of the two neighbours of `v` with `n` digits, if one lies in the interval. -/
def shortestAt? (v : Fraction) (i : Interval) (n : Nat) : Option Digits :=
  let power := v.magnitude - n + 1
  let below := (v.mul (.scaled 1 10 (-power))).floor
  let candidates := [below, below + 1].filter fun c => c ≠ 0 && i.contains (.scaled c 10 power)
  match candidates with
  | [] => none
  | [c] => some ⟨c, power⟩
  | a :: b :: _ =>
    let da := v.dist (.scaled a 10 power)
    let db := v.dist (.scaled b 10 power)
    if da.lt db then some ⟨a, power⟩
    else if db.lt da then some ⟨b, power⟩
    else some ⟨if a % 2 = 0 then a else b, power⟩

/-- The fewest digits, from `n` on, that lie in the interval. -/
def shortestFrom (v : Fraction) (i : Interval) : (fuel n : Nat) → Digits
  | 0, n => ⟨(v.mul (.scaled 1 10 (n - 1 - v.magnitude))).round, v.magnitude - n + 1⟩
  | f + 1, n =>
    match shortestAt? v i n with
    | some d => d
    | none => shortestFrom v i f (n + 1)

def shortestDigits (mantissa : Nat) (exponent : Int) (narrowBelow : Bool) : Digits :=
  (shortestFrom (.scaled mantissa 2 exponent) (intervalOf mantissa exponent narrowBelow) 17 1).trim 20

/-! ## Notation -/

def sign (negative : Bool) : Text := if negative then "-" else []

/-- Digits with a point before the last `places`. -/
def withPoint (value places : Nat) : Text :=
  if places = 0 then Text.ofNat value
  else
    let ds := Text.ofNatPadded (places + 1) value
    ds.take (ds.length - places) ++ "." ++ ds.drop (ds.length - places)

/-- An exponent with its sign and at least two digits. -/
def exponentText (e : Int) : Text :=
  (if e < 0 then "-" else "+") ++ Text.ofNatPadded 2 e.natAbs

/-- Digits in scientific notation. -/
def scientific (d : Digits) : Text :=
  let ds := Text.ofNat d.value
  let e := (ds.length : Int) - 1 + d.power
  let tail := ds.drop 1
  ds.take 1 ++ (if tail.isEmpty then [] else '.' :: tail) ++ "e" ++ exponentText e

/-- Digits written out, with no point if they are whole. -/
def positional (d : Digits) : Text :=
  match d.power with
  | .ofNat n => Text.ofNat (d.value * Nat.pow 10 n)
  | .negSucc n => withPoint d.value (n + 1)

/-- The fewest digits that read back: written out from 0.0001 up to below 10¹⁶, with a point and a
    zero if whole, and in scientific notation otherwise. -/
def shortest (x : Float) : Text :=
  match Value.of x with
  | .notNumber => "nan"
  | .infinite negative => sign negative ++ "inf"
  | .finite negative mantissa exponent narrowBelow =>
    if mantissa = 0 then sign negative ++ "0.0"
    else
      let d := shortestDigits mantissa exponent narrowBelow
      let e := ((Text.ofNat d.value).length : Int) - 1 + d.power
      sign negative ++
        (if -4 ≤ e && e < 16 then
          (match d.power with
          | .ofNat n => Text.ofNat (d.value * Nat.pow 10 n) ++ ".0"
          | .negSucc _ => positional d)
        else scientific d)

/-- A fixed number of decimal places. -/
def fixed (places : Nat) (x : Float) : Text :=
  match Value.of x with
  | .notNumber => "nan"
  | .infinite negative => sign negative ++ "inf"
  | .finite negative mantissa exponent _ =>
    let v := (Fraction.scaled mantissa 2 exponent).mul ⟨Nat.pow 10 places, 1⟩
    sign negative ++ withPoint v.round places

/-- Six significant digits, zeros at the end dropped: written out while the exponent is from -4 to
    5, in scientific notation otherwise. -/
def general (x : Float) : Text :=
  match Value.of x with
  | .notNumber => "nan"
  | .infinite negative => sign negative ++ "inf"
  | .finite negative mantissa exponent _ =>
    if mantissa = 0 then sign negative ++ "0"
    else
      let v := Fraction.scaled mantissa 2 exponent
      let digits := (v.mul (.scaled 1 10 (5 - v.magnitude))).round
      let d : Digits := ⟨digits, v.magnitude - 5⟩
      let e := ((Text.ofNat digits).length : Int) - 1 + d.power
      let d := d.trim 10
      sign negative ++ (if -4 ≤ e && e < 6 then positional d else scientific d)

end Galley.Decimal
