import Galley.Decimal.Format
import Galley.Text.Case
/-!
# Reading numbers

Reads decimal numbers with digits of any script: sign, digits with a point,
exponent. Between digits one underscore may stand; white space around the
number does not count. The result is the float nearest to the number written.
-/

namespace Galley.Decimal

/-- `value · 10 ^ power`. -/
def Digits.toFloat (d : Digits) : Float :=
  match d.power with
  | .ofNat n => Float.ofScientific d.value false n
  | .negSucc n => Float.ofScientific d.value true (n + 1)

/-- Digits at the head of a text, an underscore allowed between two of them. -/
def digitRun : (afterDigit : Bool) → Text → Text × Text
  | _, [] => ([], [])
  | afterDigit, '_' :: c :: s =>
    if afterDigit && isDecimalDigit c then
      let (ds, rest) := digitRun true s
      (c :: ds, rest)
    else ([], '_' :: c :: s)
  | _, c :: s =>
    if isDecimalDigit c then
      let (ds, rest) := digitRun true s
      (c :: ds, rest)
    else ([], c :: s)

/-- An exponent mark with its digits, signed. -/
def exponent? : Text → Option (Option Int)
  | [] => some none
  | e :: s =>
    if e = 'e' || e = 'E' then
      let (negative, s) := match s with
        | '-' :: s => (true, s)
        | '+' :: s => (false, s)
        | s => (false, s)
      match digitRun false s with
      | ([], _) => none
      | (ds, []) =>
        let n : Int := Text.digitsValue ds
        some (some (if negative then -n else n))
      | _ => none
    else none

/-- An exponent within the range in which it makes a difference. -/
def clampExponent (e : Int) : Int := if e > 5000 then 5000 else if e < -5000 then -5000 else e

/-- An unsigned number. -/
def unsigned? (s : Text) : Option Float :=
  let lowered := Text.lower s
  if lowered = "inf" || lowered = "infinity" then some (1.0 / 0.0)
  else if lowered = "nan" then some (0.0 / 0.0)
  else
    let (whole, rest) := digitRun false s
    let (places, rest) := match rest with
      | '.' :: rest => digitRun false rest
      | rest => ([], rest)
    if whole.isEmpty && places.isEmpty then none
    else do
      let e ← exponent? rest
      let e := clampExponent (e.getD 0)
      some (Digits.toFloat ⟨Text.digitsValue (whole ++ places), e - places.length⟩)

/-- A signed number with white space around it. -/
def read? (s : Text) : Option Float :=
  match Text.strip s with
  | '-' :: s => (unsigned? s).map (- ·)
  | '+' :: s => unsigned? s
  | s => unsigned? s

/-- The number at the head of a text, digits with perhaps a point before the last of them, and what
    follows it. -/
def leading? (s : Text) : Option (Text × Text) :=
  let (whole, rest) := s.span isDecimalDigit
  match rest with
  | '.' :: more =>
    let (places, rest') := more.span isDecimalDigit
    if places.isEmpty then (if whole.isEmpty then none else some (whole, rest))
    else some (whole ++ "." ++ places, rest')
  | _ => if whole.isEmpty then none else some (whole, rest)

/-- Rounds to decimal places, by writing the number so and reading it back. -/
def roundTo (places : Nat) (x : Float) : Float :=
  if x.isNaN || x.isInf then x else (read? (fixed places x)).getD x

end Galley.Decimal
