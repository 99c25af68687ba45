import Galley.Failure
import Galley.Markup.Environment
import Galley.Notice
/-!
# Integrity

A document that was cut off has begin markers without end markers. The two are
counted, and a document in which they differ by more than a tolerance is
refused.
-/

namespace Galley.Integrity

/-- A marker up to the brace that opens the name. -/
def marker (word : Text) : Reader Unit := fun _ s => do
  let s ← Text.after? ('\\' :: word) s
  let s ← Text.after? "\x7b" (s.dropWhile isBlank)
  some ((), s)

structure Report where
  begins : Nat
  ends : Nat
  deriving DecidableEq, Repr

namespace Report

def imbalance (r : Report) : Nat := (r.begins - r.ends) + (r.ends - r.begins)

def fields (r : Report) : List (Text × Json) :=
  [("begins", .nat r.begins), ("ends", .nat r.ends), ("imbalance", .nat r.imbalance)]

def failure (r : Report) : Failure :=
  .make .integrity
    ("Content Integrity Error: Unbalanced LaTeX environments detected (Begin: " ++ Text.ofNat r.begins ++
      ", End: " ++ Text.ofNat r.ends ++ "). This usually indicates content truncation.")
    r.fields

end Report

def count (s : Text) : Report := ⟨(s.readAll (marker "begin")).length, (s.readAll (marker "end")).length⟩

/-- Whether a document is let through. -/
def accepts (tolerance : Int) (r : Report) : Bool := (r.imbalance : Int) ≤ tolerance

def check (tolerance : Int) (s : Text) : Except Failure Report :=
  let r := count s
  if accepts tolerance r then .ok r else .error r.failure

/-- The notice that a refused document gives. -/
def notices (tolerance : Int) (s : Text) : List Notice :=
  let r := count s
  if accepts tolerance r then [] else [.unbalanced r.begins r.ends tolerance]

end Galley.Integrity
