import Galley.Diagram.Options
import Galley.Formula.Render
/-!
# The safe subset

What the picture engine of the browser can draw. A body is cut down to ASCII on
one line without comments; font commands become switches, lists in nodes become
bullets, ampersands are escaped, and braces that decorate a line are drawn as
curves. The result never holds the two characters that would close the element
it is put into.
-/

namespace Galley.Diagram

/-- Whether a body holds a plot, which the picture engine cannot draw. -/
def isPlot (body : Text) : Bool :=
  body.includes "\\begin\x7baxis\x7d" || body.includes "\\addplot"

/-! ## Text in nodes -/

def literal (t : Text) : Reader Unit := fun _ s => (Text.after? t s).map ((), ·)

/-- A command up to the brace that opens its argument. -/
def opened (command : Text) : Reader Unit := fun _ s => do
  let s ← Text.after? command s
  let s ← Text.after? "\x7b" (s.dropWhile isBlank)
  some ((), s)

def familyNames : List Text := ["sffamily", "rmfamily", "ttfamily"]

/-- The begin marker of a list with options. -/
def listOptions : Reader Unit := fun _ s => do
  let s ← Text.after? "\\begin\x7bitemize\x7d[" s
  let (_, s) ← Text.closedBy ']' s
  some ((), s)

/-- A list item up to its text. -/
def listItem : Reader Unit := fun _ s => do
  let s ← Text.after? "\\item" s
  match s with
  | c :: s => if isBlank c then some ((), s.dropWhile isBlank) else none
  | [] => none

def flattenLists (s : Text) : Text :=
  let s := s.replaceAll listOptions fun _ => "\\begin\x7bitemize\x7d"
  if s.includes "\\begin\x7bitemize\x7d" then
    let s := (s.replace "\\begin\x7bitemize\x7d" []).replace "\\end\x7bitemize\x7d" []
    s.replaceAll listItem fun _ => "\\par $\\bullet$ "
  else s

def bareAmpersand : Reader Unit
  | some '\\', _ => none
  | _, '&' :: s => some ((), s)
  | _, _ => none

/-! ## Braces -/

/-- A line with a brace and a labelled node on it. -/
structure Brace where
  options : Text
  start : Text
  stop : Text
  nodeOptions : Text
  label : Text

/-- Reads words with white space between them. -/
def spaced (words : List Text) (s : Text) : Option Text :=
  words.foldlM (fun s w => Text.after? w (s.dropWhile isBlank)) s

/-- Reads a nonempty text in parentheses. -/
def parenthesised? (s : Text) : Option (Text × Text) := do
  let s ← spaced [['(']] s
  let (inside, s) ← Text.closedBy ')' s
  if inside.isEmpty then none else some (inside, s)

def braceReader : Reader Brace := fun _ s => do
  let s ← Text.after? "\\draw[" s
  let s ← spaced ["decorate", ",", "decoration", "=", "\x7b", "brace"] s
  let (options, s) ← Text.closedBy '}' s
  let s ← Text.after? "]" s
  let (start, s) ← parenthesised? s
  let s ← spaced ["--"] s
  let (stop, s) ← parenthesised? s
  let s ← spaced ["node["] s
  let (nodeOptions, s) ← Text.closedBy ']' s
  let s ← spaced ["\x7b"] s
  let (label, s) ← Text.closedBy '}' s
  let s ← Text.after? ";" s
  some (⟨options, start, stop, nodeOptions, label⟩, s)

structure Point where
  x : Float
  y : Float

/-- The first two numbers between commas; what is no number counts as zero. -/
def Point.ofText (s : Text) : Point :=
  let numbers := (Text.splitOnChar ',' s).map fun part => (Decimal.read? part).getD 0
  ⟨numbers.headD 0, (numbers.drop 1).headD 0⟩

def Point.text (p : Point) : Text := "(" ++ short p.x ++ "," ++ short p.y ++ ")"

/-- Two curves that meet in a tip halfway, and the node beyond the tip. A brace on a steep line
    bulges to the left, one on a flat line upwards, and a mirrored one to the other side. -/
def Brace.curves (b : Brace) (c : Calibration) : Text :=
  let direction : Float := if b.options.includes "mirror" then -1 else 1
  let p := Point.ofText b.start
  let q := Point.ofText b.stop
  let middle : Point := ⟨(p.x + q.x) / 2, (p.y + q.y) / 2⟩
  let steep := (q.y - p.y).abs > (q.x - p.x).abs
  let sign := if steep then -direction else direction
  let beside (r : Point) (distance : Float) : Point :=
    if steep then ⟨r.x + sign * distance, r.y⟩ else ⟨r.x, r.y + sign * distance⟩
  let first := (beside p c.braceMagnitude).text
  let second := (beside middle c.braceMagnitude).text
  let tip := (beside middle c.braceTip).text
  let third := (beside q c.braceMagnitude).text
  let label := (beside middle (c.braceTip + c.braceLabelOffset)).text
  "\\draw[thick] " ++ p.text ++ " .. controls " ++ first ++ " and " ++ second ++ " .. " ++ tip ++
    " .. controls " ++ second ++ " and " ++ third ++ " .. " ++ q.text ++ "; \\node[" ++ b.nodeOptions ++
    "] at " ++ label ++ " \x7b" ++ b.label ++ "\x7d;"

/-! ## The reduction -/

/-- Keeps a text from closing the script element that it is put into. -/
def guardClosing (s : Text) : Text := s.replace "</" "<\\/"

def safeSubset (c : Calibration) (body : Text) : Text :=
  let s := body.filter (·.toNat < 128)
  let s := Comment.strip s
  let s := s.replaceAll (opened "\\textbf") fun _ => "\x7b\\bfseries "
  let s := s.replaceAll (opened "\\textit") fun _ => "\x7b\\itshape "
  let s := s.removeAll (Command.readerOf familyNames)
  let s := s.replaceAll (Command.reader ['n']) fun _ => [' ']
  let s := s.map fun c => if c = '\r' || c = '\n' then ' ' else c
  let s := flattenLists s
  let s := s.replace "\\\\&" "\\\\ \\&"
  let s := s.replaceAll bareAmpersand fun _ => "\\&"
  let s := s.replaceAll braceReader (Brace.curves · c)
  guardClosing s

end Galley.Diagram
