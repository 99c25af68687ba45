import Galley.Decimal.Format
import Galley.Decimal.Read
/-!
# Picture options

Options are separated by commas. Braces, brackets and double quotes protect the
commas in them. An option is a key, possibly with a value behind an equals sign;
of two options with one key the last is in effect.
-/

namespace Galley.Diagram

/-! ## Splitting -/

/-- Puts a character in front of the first part. -/
def keep (c : Char) : List Text → List Text
  | [] => [[c]]
  | part :: parts => (c :: part) :: parts

/-- The parts between top-level commas, when `depth` more delimiters have opened than closed. -/
def partsFrom : (depth : Int) → (quoted : Bool) → Text → List Text
  | _, _, [] => [[]]
  | d, q, c :: s =>
    if c = '"' then keep c (partsFrom d (!q) s)
    else if q then keep c (partsFrom d q s)
    else if c = '{' || c = '[' then keep c (partsFrom (d + 1) q s)
    else if c = '}' || c = ']' then keep c (partsFrom (d - 1) q s)
    else if c = ',' && d = 0 then [] :: partsFrom d q s
    else keep c (partsFrom d q s)

/-- A text without the brackets around it. -/
def unbracket (s : Text) : Text :=
  match s with
  | '[' :: inner => if inner.getLast? = some ']' then inner.dropLast else s
  | s => s

/-- The options of a list that may stand in brackets; empty ones do not count. -/
def optionList (options : Text) : List Text :=
  ((partsFrom 0 false (unbracket (Text.strip options))).map Text.strip).filter (!·.isEmpty)

/-- The options as they are written behind the begin marker. -/
def joinOptions (options : List Text) : Text := ['['] ++ Text.joinWith ", " options ++ [']']

/-! ## Keys and values -/

def isKeyChar (c : Char) : Bool := isAsciiLetter c || c = ' ' || c = '/' || c = '.'

/-- The rest of a key, up to the equals sign or the end. -/
def keyRest? : Text → Option Text
  | [] => some []
  | c :: s =>
    match (c :: s).dropWhile isBlank with
    | [] => some []
    | '=' :: _ => some []
    | _ => if isKeyChar c then (keyRest? s).map (c :: ·) else none

/-- The key of an option; an option that begins otherwise is its own key. -/
def key (option : Text) : Text :=
  match option.dropWhile isBlank with
  | c :: s =>
    if isAsciiLetter c then
      match keyRest? s with
      | some t => c :: t
      | none => Text.strip option
    else Text.strip option
  | [] => []

/-- What stands behind the first equals sign. -/
def value (option : Text) : Text := Text.strip ((option.dropWhile (· ≠ '=')).drop 1)

/-- The value of the last option with a key. -/
def value? (options : List Text) (k : Text) : Option Text :=
  ((options.filter (key · = k)).getLast?).map value

def has (options : List Text) (k : Text) : Bool := options.any (key · = k)

def without (options keys : List Text) : List Text := options.filter fun o => !keys.contains (key o)

/-! ## Numbers -/

/-- The number that a value begins with. -/
def numberAhead? (v : Text) : Option Float :=
  match v.dropWhile isBlank with
  | '-' :: s => (Decimal.leading? s).bind fun (digits, _) => Decimal.read? ('-' :: digits)
  | s => (Decimal.leading? s).bind fun (digits, _) => Decimal.read? digits

/-- A number in few characters: four decimal places at most, six digits. -/
def short (x : Float) : Text := Decimal.general (Decimal.roundTo 4 x)

end Galley.Diagram
