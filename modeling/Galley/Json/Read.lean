import Galley.Decimal.Read
import Galley.Json.Basic
/-!
# Reading JSON

A recursive reader over the characters of a text. A number with a point or an
exponent is a float, any other an integer of any size.
-/

namespace Galley.Json

def isJsonBlank (c : Char) : Bool := c = ' ' || c = '\t' || c = '\n' || c = '\r'

def skip (s : Text) : Text := s.dropWhile isJsonBlank

def hexDigitValue? (c : Char) : Option Nat :=
  if '0' ≤ c && c ≤ '9' then some (c.toNat - 48)
  else if 'a' ≤ c && c ≤ 'f' then some (c.toNat - 87)
  else if 'A' ≤ c && c ≤ 'F' then some (c.toNat - 55)
  else none

/-- Four hexadecimal digits. -/
def codeUnit? : Text → Option (Nat × Text)
  | a :: b :: c :: d :: s => do
    let a ← hexDigitValue? a
    let b ← hexDigitValue? b
    let c ← hexDigitValue? c
    let d ← hexDigitValue? d
    some (((a * 16 + b) * 16 + c) * 16 + d, s)
  | _ => none

/-- An escaped character whose backslash and `u` have been read; two halves of a pair make one. -/
def escapedChar? (s : Text) : Option (Char × Text) := do
  let (high, rest) ← codeUnit? s
  if 0xD800 ≤ high && high < 0xDC00 then
    match rest with
    | '\\' :: 'u' :: more =>
      match codeUnit? more with
      | some (low, rest') =>
        if 0xDC00 ≤ low && low < 0xE000 then
          some (Char.ofNat (0x10000 + (high - 0xD800) * 0x400 + (low - 0xDC00)), rest')
        else some (Char.ofNat 0xFFFD, rest)
      | none => some (Char.ofNat 0xFFFD, rest)
    | _ => some (Char.ofNat 0xFFFD, rest)
  else if 0xDC00 ≤ high && high < 0xE000 then some (Char.ofNat 0xFFFD, rest)
  else some (Char.ofNat high, rest)

/-- A string whose opening quote has been read. -/
def stringRest : (fuel : Nat) → (read : Text) → Text → Option (Text × Text)
  | 0, _, _ => none
  | n + 1, read, s =>
    match s with
    | [] => none
    | '"' :: s => some (read.reverse, s)
    | '\\' :: c :: s =>
      match c with
      | 'n' => stringRest n ('\n' :: read) s
      | 't' => stringRest n ('\t' :: read) s
      | 'r' => stringRest n ('\r' :: read) s
      | 'b' => stringRest n (Char.ofNat 8 :: read) s
      | 'f' => stringRest n (Char.ofNat 12 :: read) s
      | 'u' =>
        match escapedChar? s with
        | some (c, s) => stringRest n (c :: read) s
        | none => none
      | c => if c = '"' || c = '\\' || c = '/' then stringRest n (c :: read) s else none
    | c :: s => if c.toNat < 32 then none else stringRest n (c :: read) s

def isNumberChar (c : Char) : Bool :=
  c.isDigit || c = '-' || c = '+' || c = '.' || c = 'e' || c = 'E'

def number? (s : Text) : Option Json :=
  let (negative, digits) := match s with
    | '-' :: s => (true, s)
    | s => (false, s)
  if digits.isEmpty then none
  else if digits.all Char.isDigit then
    let n : Int := Text.digitsValue digits
    some (.int (if negative then -n else n))
  else match digits with
    | c :: _ => if c.isDigit then (Decimal.read? s).map Json.float else none
    | [] => none

mutual

def value? : (fuel : Nat) → Text → Option (Json × Text)
  | 0, _ => none
  | n + 1, s =>
    match skip s with
    | [] => none
    | '"' :: s => (stringRest (s.length + 1) [] s).map fun (t, s) => (.str t, s)
    | '[' :: s =>
      match skip s with
      | ']' :: s => some (.arr [], s)
      | s => items? n [] s
    | '{' :: s =>
      match skip s with
      | '}' :: s => some (.obj [], s)
      | s => fields? n [] s
    | s =>
      match Text.after? "true" s, Text.after? "false" s, Text.after? "null" s with
      | some s, _, _ => some (.bool true, s)
      | _, some s, _ => some (.bool false, s)
      | _, _, some s => some (.null, s)
      | none, none, none =>
        let (digits, s) := s.span isNumberChar
        (number? digits).map fun j => (j, s)

def items? : (fuel : Nat) → (read : List Json) → Text → Option (Json × Text)
  | 0, _, _ => none
  | n + 1, read, s =>
    match value? n s with
    | none => none
    | some (j, s) =>
      match skip s with
      | ',' :: s => items? n (j :: read) s
      | ']' :: s => some (.arr (j :: read).reverse, s)
      | _ => none

def fields? : (fuel : Nat) → (read : List (Text × Json)) → Text → Option (Json × Text)
  | 0, _, _ => none
  | n + 1, read, s =>
    match skip s with
    | '"' :: s =>
      match stringRest (s.length + 1) [] s with
      | none => none
      | some (name, s) =>
        match skip s with
        | ':' :: s =>
          match value? n s with
          | none => none
          | some (j, s) =>
            match skip s with
            | ',' :: s => fields? n ((name, j) :: read) s
            | '}' :: s => some (.obj (setFields [] ((name, j) :: read).reverse), s)
            | _ => none
        | _ => none
    | _ => none

end

/-- The value that a whole text stands for. -/
def parse? (s : Text) : Option Json :=
  match value? (2 * s.length + 2) s with
  | some (j, rest) => if (skip rest).isEmpty then some j else none
  | none => none

end Galley.Json
