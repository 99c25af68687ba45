import Galley.Block.Table
import Galley.Inline.Format
/-!
# The bench

What an extractor works with: the block table of the document, the number of
constructs taken out, and the notices so far. All three outlive a fault.
-/

namespace Galley

/-- Settings and converter that a document is rendered with. -/
structure Kit where
  settings : Settings := {}
  engine : Formula.Engine := Formula.convert

structure BenchState where
  table : Block.Table := {}
  extracted : Nat := 0
  /-- The last number given in each kind of theorem. -/
  theoremNumbers : List (Text × Nat) := []
  /-- The last number given to an algorithm float. -/
  algorithmNumber : Nat := 0
  /-- How many constructs each finished stage took out. -/
  counts : List (Text × Nat) := []
  notices : List Notice := []

/-- Work on a document that may end with a fault. -/
abbrev Bench := ExceptT Fault (StateM BenchState)

namespace Bench

def notify (n : Notice) : Bench Unit := modify fun b => { b with notices := b.notices ++ [n] }

def notifyAll (ns : List Notice) : Bench Unit := modify fun b => { b with notices := b.notices ++ ns }

/-- Stores a fragment and gives the text that takes the construct's place: its token, which a block
    fragment has on lines of its own. -/
def register (kind : Block.Kind) (fragment : Text) (ownLine : Bool := true) : Bench Text := do
  let b ← get
  let (token, table) := b.table.register kind fragment
  set { b with table, extracted := b.extracted + 1 }
  pure (if ownLine then "\n\n" ++ token ++ "\n\n" else token)

/-- Formats inline text. -/
def inline (kit : Kit) (s : Text) : Bench Text := do
  notifyAll (Inline.notices kit.settings kit.engine s)
  match Inline.format kit.settings kit.engine s with
  | .ok t => pure t
  | .error e => throw e

/-- The next number of a kind of theorem. -/
def nextTheorem (kind : Text) : Bench Nat := do
  let b ← get
  let n := (b.theoremNumbers.lookup kind).getD 0 + 1
  set { b with theoremNumbers := (kind, n) :: b.theoremNumbers.filter (·.1 ≠ kind) }
  pure n

/-- The next number of an algorithm float. -/
def nextAlgorithm : Bench Nat := do
  let b ← get
  set { b with algorithmNumber := b.algorithmNumber + 1 }
  pure (b.algorithmNumber + 1)

/-- Work whose result is taken in whole or not at all: a fault gives its message. -/
def attempt {α : Type} (work : Bench α) : Bench (Except Text α) := do
  try pure (.ok (← work)) catch e => pure (.error e.message)

/-- Formats the paragraphs of a text. -/
def paragraphs (kit : Kit) (s : Text) : Bench Text := do
  let parts ← (Inline.chunks s).mapM fun chunk => do
    if Block.Token.isToken chunk then pure chunk
    else pure ("<p>" ++ (← inline kit chunk) ++ "</p>")
  pure parts.flatten

/-- Renders a formula. -/
def math (kit : Kit) (source : Text) (display : Formula.Display) : Bench Text := do
  let r := Formula.render kit.settings kit.engine source display
  notifyAll r.notice.toList
  pure r.html

/-- Repeats `step` until it finds nothing more to do, at most `cap` times. At the cap it gives
    notice, whether or not anything is left. -/
def rounds {α : Type} (construct : Text) (cap : Int) (step : α → Bench (Option α)) (a : α) : Bench α :=
  go cap.toNat a
where
  go : Nat → α → Bench α
    | 0, a => do
      notify (.capReached construct cap)
      pure a
    | n + 1, a => do
      match ← step a with
      | none => pure a
      | some a => go n a

end Bench

end Galley
