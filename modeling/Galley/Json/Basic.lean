import Galley.Text.Basic
/-!
# JSON values

The values that requests, answers, error details and log lines are made of.
-/

namespace Galley

inductive Json where
  | null
  | bool (b : Bool)
  | int (n : Int)
  | float (x : Float)
  | str (s : Text)
  | arr (items : List Json)
  | obj (fields : List (Text × Json))
  deriving Inhabited

namespace Json

instance : Coe Text Json := ⟨Json.str⟩

def nat (n : Nat) : Json := .int n

def strs (ts : List Text) : Json := .arr (ts.map .str)

/-- The value of a field. -/
def get? (name : Text) : Json → Option Json
  | .obj fields => fields.lookup name
  | _ => none

def str? : Json → Option Text
  | .str s => some s
  | _ => none

/-- Sets fields, each in its place if it is there and behind the others if not. -/
def setField (fields : List (Text × Json)) (f : Text × Json) : List (Text × Json) :=
  if fields.any (·.1 = f.1) then fields.map fun g => if g.1 = f.1 then f else g else fields ++ [f]

def setFields (fields more : List (Text × Json)) : List (Text × Json) := more.foldl setField fields

end Json

end Galley
