import Galley.Text.Quoted
/-!
# Faults

Why the rendering of a construct stops. A fault ends the document it arises in,
except in a table, which is then shown as failed.
-/

namespace Galley

inductive Fault where
  /-- A restoring mark names a piece that was never set aside. -/
  | pieceMissing
  /-- A restoring mark has a number of more digits than are read. -/
  | longNumber (digits : Nat)
  /-- A piece set aside contains its own mark, so restoring it never ends. -/
  | endlessPiece
  /-- A pseudocode command whose lower-case name is no command. -/
  | unknownCommand (name : Text)
  /-- A construct is opened and never closed. -/
  | unclosed (message : Text)
  deriving DecidableEq

def Fault.message : Fault → Text
  | pieceMissing => "list index out of range"
  | longNumber digits =>
    "Exceeds the limit (4300 digits) for integer string conversion: value has " ++ Text.ofNat digits ++
      " digits; use sys.set_int_max_str_digits() to increase the limit"
  | endlessPiece => "piece contains itself"
  | unknownCommand name => Quoted.encode name
  | unclosed m => m

end Galley
