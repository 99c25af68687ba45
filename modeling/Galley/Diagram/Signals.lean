import Galley.Diagram.Subset
import Galley.Json.Basic
/-!
# Signals

What the layout of a diagram goes by: how much is drawn, how long the labels are
and how far the coordinates reach.
-/

namespace Galley.Diagram

structure Signals where
  nodeCount : Nat := 0
  drawCount : Nat := 0
  arrowCount : Nat := 0
  labelChars : Float := 0
  hspan : Float := 0
  vspan : Float := 0
  nodeDistance : Option Float := none

namespace Signals

/-- Width over height, zero without height. -/
def aspect (s : Signals) : Float := if s.vspan > 0 then s.hspan / s.vspan else 0

/-- Whether the nodes are placed without coordinates. -/
def lacksCoordinates (s : Signals) : Bool := s.hspan == 0

/-- Whether the labels are long. -/
def textHeavy (s : Signals) (c : Calibration) : Bool := s.labelChars > c.textHeavyLabelChars

def fields (s : Signals) : List (Text × Json) :=
  [("node_count", .nat s.nodeCount), ("draw_count", .nat s.drawCount),
    ("arrow_count", .nat s.arrowCount),
    ("avg_label_chars", .float (Decimal.roundTo 2 s.labelChars)),
    ("hspan", .float s.hspan), ("vspan", .float s.vspan),
    ("aspect", .float (Decimal.roundTo 3 s.aspect)),
    ("node_distance", match s.nodeDistance with
      | some d => .float d
      | none => .null)]

end Signals

/-! ## Measuring -/

def countOf (part s : Text) : Nat := (s.readAll (literal part)).length

/-- The text of the last brace that closes, among those before the next semicolon. -/
def lastLabel? : Text → Option (Text × Text)
  | [] => none
  | c :: s =>
    if c = ';' then none
    else match lastLabel? s with
      | some r => some r
      | none => if c = '{' then Text.closedBy '}' s else none

def nodeLabel : Reader Text := fun _ s => (Text.after? "\\node" s).bind lastLabel?

/-- How many characters of a label are shown. -/
def shownLength (label : Text) : Nat :=
  ((label.removeAll Formula.commandName).filter fun c => c ≠ '{' && c ≠ '}').length

/-- A signed run of digits and points. -/
def coordinate? (s : Text) : Option (Text × Text) :=
  let s := s.dropWhile isBlank
  let (sign, s) : Text × Text := match s with
    | '-' :: s => (['-'], s)
    | s => ([], s)
  let (run, rest) := s.span fun c => isDecimalDigit c || c = '.'
  if run.isEmpty then none else some (sign ++ run, rest.dropWhile isBlank)

def point : Reader (Text × Text) := fun _ s => do
  let s ← Text.after? "(" s
  let (x, s) ← coordinate? s
  let s ← Text.after? "," s
  let (y, s) ← coordinate? s
  let s ← Text.after? ")" s
  some ((x, y), s)

/-- The distance from the least to the greatest number, zero if there is none. -/
def span : List Float → Float
  | [] => 0
  | x :: xs =>
    xs.foldl (fun m y => if y > m then y else m) x - xs.foldl (fun m y => if y < m then y else m) x

/-- The signals of a body in the safe subset. -/
def measure (body options : Text) : Signals :=
  let nodes := countOf "\\node" body
  let labels := (body.readAll nodeLabel).foldl (fun n label => n + shownLength label) 0
  let points := body.readAll point
  { nodeCount := nodes
    drawCount := countOf "\\draw" body
    arrowCount := countOf "->" body
    labelChars := if nodes = 0 then 0 else labels.toFloat / nodes.toFloat
    hspan := span (points.filterMap fun p => Decimal.read? p.1)
    vspan := span (points.filterMap fun p => Decimal.read? p.2)
    nodeDistance := (value? (optionList options) "node distance").bind numberAhead? }

end Galley.Diagram
