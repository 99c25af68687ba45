import Galley.Fault
import Galley.Text.Cut
/-!
# Pieces set aside

While a text is rewritten, finished pieces are set aside and a mark with the
piece's number stands for each. At the end the marks are replaced by the pieces,
and the marks in these by theirs, until none is left.
-/

namespace Galley.Inline

/-- The pieces set aside so far. -/
abbrev Stash := List Text

namespace Stash

def opening : Char := Char.ofNat 0xE000

def closing : Char := Char.ofNat 0xE001

def mark (n : Nat) : Text := [opening] ++ Text.ofNat n ++ [closing]

/-- Sets a piece aside and gives its mark. -/
def put (piece : Text) : StateM Stash Text := do
  let pieces ← get
  set (pieces ++ [piece])
  pure (mark pieces.length)

/-- A mark: the digits of its number. -/
def reader : Reader Text
  | _, c :: s =>
    if c = opening then
      let (digits, rest) := s.span isDecimalDigit
      match rest with
      | d :: rest => if d = closing && !digits.isEmpty then some (digits, rest) else none
      | [] => none
    else none
  | _, [] => none

/-- How many digits a number is read of: 4300, and those of any number that was given out. -/
def mostDigits (pieces : Stash) : Nat := max 4300 (Text.ofNat pieces.length).length

/-- The piece that a mark names. -/
def named (pieces : Stash) (digits : Text) : Except Fault Text :=
  if mostDigits pieces < digits.length then .error (.longNumber digits.length)
  else match pieces[Text.digitsValue digits]? with
    | some piece => .ok piece
    | none => .error .pieceMissing

/-- Puts the pieces in the places of the marks once. -/
def restoreOnce (pieces : Stash) (s : Text) : Except Fault Text := s.replaceAllM reader (named pieces)

/-- Restores until no mark is left. A piece that does not contain itself is restored after as many
    rounds as there are pieces. -/
def restoreWithin (pieces : Stash) : (rounds : Nat) → Text → Except Fault Text
  | 0, s => if s.occurs reader then .error .endlessPiece else .ok s
  | n + 1, s =>
    if s.occurs reader then do restoreWithin pieces n (← restoreOnce pieces s) else .ok s

def restore (pieces : Stash) (s : Text) : Except Fault Text :=
  restoreWithin pieces (pieces.length + 1) s

end Stash

end Galley.Inline
