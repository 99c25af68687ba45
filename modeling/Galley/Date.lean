import Galley.Text.Basic
/-!
# Dates
-/

namespace Galley

structure Date where
  year : Nat
  month : Nat
  day : Nat
  deriving DecidableEq, Repr

namespace Date

def monthNames : List Text :=
  ["January", "February", "March", "April", "May", "June", "July", "August", "September", "October",
    "November", "December"]

/-- The long form, as in "February 29, 2024". -/
def long (d : Date) : Text :=
  monthNames.getD (d.month - 1) [] ++ " " ++ Text.ofNat d.day ++ ", " ++ Text.ofNat d.year

/-- Reads the form "2024-02-29". -/
def read? (s : Text) : Option Date :=
  match Text.splitOnChar '-' s with
  | [y, m, d] => some ⟨Text.digitsValue y, Text.digitsValue m, Text.digitsValue d⟩
  | _ => none

end Date

end Galley
