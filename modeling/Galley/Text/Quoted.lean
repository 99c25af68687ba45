import Galley.Text.Basic
/-!
# Quoted text in messages

A message shows a text between quotes: single ones, or double ones when the text
holds a single quote and no double quote. The backslash and the quote used are
escaped, line ends and tabs get letters, and characters that do not print get
their code point in hexadecimal.
-/

namespace Galley

namespace Quoted

/-- Code points from U+0080 on that do not print: controls, format characters, separators,
    private use. -/
def unprintedRanges : List (Nat × Nat) :=
  [(128, 160), (173, 173), (1536, 1541), (1564, 1564), (1757, 1757), (1807, 1807), (2192, 2193),
    (2274, 2274), (5760, 5760), (6158, 6158), (8192, 8207), (8232, 8239), (8287, 8292),
    (8294, 8303), (12288, 12288), (55296, 63743), (65279, 65279), (65529, 65531),
    (69821, 69821), (69837, 69837), (78896, 78904), (113824, 113827), (119155, 119162),
    (917505, 917505), (917536, 917631), (983040, 1048573), (1048576, 1114109)]

def hexDigit (n : Nat) : Char := if n < 10 then Char.ofNat (48 + n) else Char.ofNat (87 + n)

/-- The last `width` hexadecimal digits of `n`. -/
def hex : (width n : Nat) → Text
  | 0, _ => []
  | w + 1, n => hex w (n / 16) ++ [hexDigit (n % 16)]

def escapeChar (quote c : Char) : Text :=
  if c = quote || c = '\\' then ['\\', c]
  else if c = '\n' then "\\n"
  else if c = '\r' then "\\r"
  else if c = '\t' then "\\t"
  else if c.toNat < 32 || c.toNat = 127 then "\\x" ++ hex 2 c.toNat
  else if inRanges unprintedRanges c then
    if c.toNat < 256 then "\\x" ++ hex 2 c.toNat
    else if c.toNat < 65536 then "\\u" ++ hex 4 c.toNat
    else "\\U" ++ hex 8 c.toNat
  else [c]

def quoteFor (s : Text) : Char := if s.contains '\'' && !s.contains '"' then '"' else '\''

def encode (s : Text) : Text :=
  let q := quoteFor s
  [q] ++ s.flatMap (escapeChar q) ++ [q]

end Quoted

end Galley
