import Galley.Html.Entity
/-!
# Character references

Escaping writes the characters that markup gives a meaning as references;
reading puts the characters back. References in text and references in
attribute values follow different rules: in text a number below 256 names a
byte of the Western European code page, an unknown name loses its semicolon,
and what is no reference is left to the text; in attribute values the longest
known name counts, with or without a semicolon.
-/

namespace Galley.Html

/-! ## Writing -/

/-- Escapes text for use between tags. -/
def escapeChar (c : Char) : Text :=
  if c = '&' then "&amp;" else if c = '<' then "&lt;" else if c = '>' then "&gt;" else [c]

def escape (s : Text) : Text := s.flatMap escapeChar

/-- Escapes text for use in a quoted attribute value as well. -/
def escapeQuotedChar (c : Char) : Text :=
  if c = '"' then "&quot;" else if c = '\'' then "&#x27;" else escapeChar c

def escapeQuoted (s : Text) : Text := s.flatMap escapeQuotedChar

/-! ## Numbers -/

def isAsciiDigit (c : Char) : Bool := '0' ≤ c && c ≤ '9'

def hexValue? (c : Char) : Option Nat :=
  if '0' ≤ c && c ≤ '9' then some (c.toNat - 48)
  else if 'a' ≤ c && c ≤ 'f' then some (c.toNat - 87)
  else if 'A' ≤ c && c ≤ 'F' then some (c.toNat - 55)
  else none

def isHexDigit (c : Char) : Bool := (hexValue? c).isSome

def decimalOf (s : Text) : Nat := s.foldl (fun n c => 10 * n + (c.toNat - 48)) 0

def hexOf (s : Text) : Nat := s.foldl (fun n c => 16 * n + (hexValue? c).getD 0) 0

/-- The characters of the code page that its bytes 128 to 159 stand for; 0 where there is none. -/
def codePage : List Nat :=
  [8364, 0, 8218, 402, 8222, 8230, 8224, 8225, 710, 8240, 352, 8249, 338, 0, 381, 0, 0, 8216,
    8217, 8220, 8221, 8226, 8211, 8212, 732, 8482, 353, 8250, 339, 0, 382, 376]

def codePageChar (n : Nat) : Option Char :=
  if 128 ≤ n && n < 160 then
    match codePage[n - 128]? with
    | some m => if m = 0 then none else some (Char.ofNat m)
    | none => none
  else none

def replacementChar : Char := Char.ofNat 65533

/-- The character of a numeric reference in text. -/
def numberedChar (n : Nat) : Char :=
  match codePageChar n with
  | some c => c
  | none => if n.isValidChar then Char.ofNat n else replacementChar

/-- Code points that no numeric reference in an attribute value may name. -/
def refusedRanges : List (Nat × Nat) :=
  [(1, 8), (11, 11), (14, 31), (127, 159), (64976, 65007)]

def isRefused (n : Nat) : Bool :=
  refusedRanges.any (fun r => r.1 ≤ n && n ≤ r.2) || (n % 65536 ≥ 65534 && n ≤ 1114111)

/-- The text of a numeric reference in an attribute value. -/
def numberedText (n : Nat) : Text :=
  if n = 0 then [replacementChar]
  else match codePageChar n with
    | some c => [c]
    | none =>
      if n = 13 || (128 ≤ n && n < 160) then [Char.ofNat n]
      else if !n.isValidChar then [replacementChar]
      else if isRefused n then []
      else [Char.ofNat n]

/-! ## References in attribute values -/

def isNameChar (c : Char) : Bool :=
  !(c = '\t' || c = '\n' || c = Char.ofNat 12 || c = ' ' || c = '<' || c = '&' || c = '#' || c = ';')

/-- The text of the longest beginning of `name`, of at most `n` characters and at least two, that
    is known without a semicolon, with the rest of the name after it. -/
def longestBare (name : Text) : (n : Nat) → Option Text
  | 0 => none
  | n + 1 =>
    if n < 1 then none
    else match Entity.find? (name.take (n + 1)) with
      | some e => if e.bare then some (e.characters ++ name.drop (n + 1)) else longestBare name n
      | none => longestBare name n

def namedText (name : Text) (closed : Bool) : Text :=
  let tail : Text := if closed then ";" else []
  match Entity.find? name with
  | some e =>
    if closed || e.bare then e.characters
    else (longestBare name (name.length - 1)).getD (['&'] ++ name)
  | none =>
    match longestBare name (if closed then name.length else name.length - 1) with
    | some t => t ++ tail
    | none => ['&'] ++ name ++ tail

/-- Drops one semicolon; tells whether there was one. -/
def semicolon : Text → Bool × Text
  | ';' :: s => (true, s)
  | s => (false, s)

/-- A reference in an attribute value: the text it stands for. -/
def valueReference : Reader Text
  | _, '&' :: '#' :: s =>
    let (digits, rest) := s.span isAsciiDigit
    if !digits.isEmpty then some (numberedText (decimalOf digits), (semicolon rest).2)
    else match s with
      | x :: s =>
        let (digits, rest) := s.span isHexDigit
        if (x = 'x' || x = 'X') && !digits.isEmpty then
          some (numberedText (hexOf digits), (semicolon rest).2)
        else none
      | [] => none
  | _, '&' :: s =>
    let name := (s.takeWhile isNameChar).take 32
    if name.isEmpty then none
    else
      let (closed, rest) := semicolon (s.drop name.length)
      some (namedText name closed, rest)
  | _, _ => none

/-- The value that an attribute's source stands for. -/
def unescapeValue (s : Text) : Text := s.replaceAll valueReference id

end Galley.Html
