import Galley.Decimal.Format
import Galley.Json.Basic
import Galley.Text.Quoted
/-!
# Writing JSON

One line, without white space. Characters beyond ASCII are escaped.
-/

namespace Galley.Json

/-- A code unit as an escape. -/
def unitEscape (n : Nat) : Text := "\\u" ++ Quoted.hex 4 n

def escapeChar (c : Char) : Text :=
  if c = '"' then "\\\""
  else if c = '\\' then "\\\\"
  else if c = '\n' then "\\n"
  else if c.toNat < 32 || (127 ≤ c.toNat && c.toNat < 65536) then unitEscape c.toNat
  else if c.toNat < 127 then [c]
  else
    let n := c.toNat - 65536
    unitEscape (0xD800 + n / 1024) ++ unitEscape (0xDC00 + n % 1024)

def printString (s : Text) : Text := ['"'] ++ s.flatMap escapeChar ++ ['"']

mutual

def print : Json → Text
  | .null => "null"
  | .bool true => "true"
  | .bool false => "false"
  | .int n => Text.ofInt n
  | .float x => Decimal.shortest x
  | .str s => printString s
  | .arr items => "[" ++ printItems items ++ "]"
  | .obj fields => "\x7b" ++ printFields fields ++ "\x7d"

def printItems : List Json → Text
  | [] => []
  | [j] => print j
  | j :: js => print j ++ "," ++ printItems js

def printFields : List (Text × Json) → Text
  | [] => []
  | [(name, j)] => printString name ++ ":" ++ print j
  | (name, j) :: fs => printString name ++ ":" ++ print j ++ "," ++ printFields fs

end

end Galley.Json
