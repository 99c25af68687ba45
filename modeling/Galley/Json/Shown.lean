import Galley.Decimal.Format
import Galley.Json.Basic
import Galley.Text.Quoted
/-!
# Values in texts

How a value reads in a sentence or on a page, and whether it counts as set.
-/

namespace Galley.Json

mutual

/-- A value inside a list or a record, where a text stands in quotes. -/
def literal : Json → Text
  | .null => "None"
  | .bool true => "True"
  | .bool false => "False"
  | .int n => Text.ofInt n
  | .float x => Decimal.shortest x
  | .str s => Quoted.encode s
  | .arr items => "[" ++ literalItems items ++ "]"
  | .obj fields => "\x7b" ++ literalFields fields ++ "\x7d"

def literalItems : List Json → Text
  | [] => []
  | [j] => literal j
  | j :: js => literal j ++ ", " ++ literalItems js

def literalFields : List (Text × Json) → Text
  | [] => []
  | [(name, j)] => Quoted.encode name ++ ": " ++ literal j
  | (name, j) :: fs => Quoted.encode name ++ ": " ++ literal j ++ ", " ++ literalFields fs

end

/-- A text stands as it is, without quotes. -/
def shown : Json → Text
  | .str s => s
  | j => literal j

/-- Null, false, zero and what is empty count as not set. -/
def isSet : Json → Bool
  | .null => false
  | .bool b => b
  | .int n => n ≠ 0
  | .float x => !(x == 0)
  | .str s => !s.isEmpty
  | .arr items => !items.isEmpty
  | .obj fields => !fields.isEmpty

end Galley.Json
