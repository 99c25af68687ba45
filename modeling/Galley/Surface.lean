import Galley.Html.Node
import Galley.Decimal.Format
import Galley.Meters
import Galley.Settings.Basic
/-!
# The surface

The place where previews are shown, and the pass that shrinks what is too wide
for it. Each tree that is attached begins a new generation; a pass is asked for
with a ticket that names a generation and does nothing if a newer tree has been
attached since. Passes can be deferred to the next turn and cancelled until then.
-/

namespace Galley

open Html (Node)

/-! ## Styles -/

namespace Style

abbrev Declarations := List (Text × Text)

/-- Sets a property, in its place if it is there. -/
def put (ds : Declarations) (d : Text × Text) : Declarations :=
  if ds.any (·.1 = d.1) then ds.map fun e => if e.1 = d.1 then d else e else ds ++ [d]

/-- The declarations of a style attribute; parts without a property are left out. -/
def read (style : Text) : Declarations :=
  (Text.splitOnChar ';' style).foldl (fun ds part =>
    match part.dropWhile (· ≠ ':') with
    | _ :: value =>
      let name := Text.strip (part.takeWhile (· ≠ ':'))
      if name.isEmpty then ds else put ds (name, Text.strip value)
    | [] => ds) []

def print (ds : Declarations) : Text :=
  Text.joinWith [' '] (ds.map fun (name, value) => name ++ ": ".toList ++ value ++ ";")

/-- Sets properties in the style of an element; an underscore in a name stands for a dash. -/
def set (properties : Declarations) (n : Node) : Node :=
  let own := read ((n.attribute? "style").getD [])
  let dashed := properties.map fun (name, value) => (name.map fun c => if c = '_' then '-' else c, value)
  n.setAttribute "style" (print (dashed.foldl put own))

end Style

/-! ## Widths -/

/-- What elements have and what they need, as whoever measures them says. -/
structure Widths where
  available : Node → Float
  needed : Node → Float

/-- Estimates widths by counting characters. -/
structure Measurer where
  containerWidth : Float
  charWidth : Float

namespace Measurer

def ofSettings (s : Settings) : Measurer := ⟨Float.ofInt s.containerWidthPx, s.charWidthPx⟩

/-- What a cell takes besides its text. -/
def cellPadding : Float := 16

/-- The elements inside an element. -/
def inside (n : Node) : List Node := n.elements.drop 1

def rowWidth (m : Measurer) (row : Node) : Float :=
  let cells := (inside row).filter fun n => n.hasName "td" || n.hasName "th"
  cells.foldl (fun w c => w + ((c.strippedText [' ']).length.toFloat * m.charWidth + cellPadding)) 0

/-- The width that an element needs: that of its widest row, or of its text if it has no rows. -/
def neededWidth (m : Measurer) (n : Node) : Float :=
  match (inside n).filter (·.hasName "tr") with
  | [] => (n.strippedText []).length.toFloat * m.charWidth
  | row :: rows =>
    rows.foldl (fun w r => let v := m.rowWidth r; if v > w then v else w) (m.rowWidth row)

/-- Every element has the width of the container. -/
def widths (m : Measurer) : Widths := ⟨fun _ => m.containerWidth, m.neededWidth⟩

instance : Coe Measurer Widths := ⟨widths⟩

end Measurer

/-- The widths that are taken where no other measurer is given. -/
def Widths.ofSettings (s : Settings) : Widths := Measurer.ofSettings s

/-! ## Shrinking -/

namespace Shrink

/-- The classes of what may be shrunk, with the point that it is shrunk towards. -/
def targets : List (Text × Text) := [("math-display", "left center"), ("table-wrapper", "left top")]

/-- The class of what is scaled already. -/
def scaledClass : Text := "math-autoscale"

def target? (n : Node) : Option (Text × Text) := targets.find? fun t => n.hasClass t.1

/-- The scale at which an element fits, not below the floor. Nothing if it fits as it is. -/
def scale? (s : Settings) (w : Widths) (n : Node) : Option Float :=
  let available := w.available n
  let needed := w.needed n
  if needed <= 0 || needed <= available then none
  else
    let scale := available / needed * s.shrinkSafetyMargin
    some (if scale > s.shrinkFloor then scale else s.shrinkFloor)

/-- The style of an element at a scale. -/
def properties (origin : Text) (scale : Float) : Style.Declarations :=
  [("transform", "scale(" ++ Decimal.fixed 3 scale ++ ")"), ("transform-origin", origin),
    ("width", Decimal.fixed 1 (100 / scale) ++ "%"), ("overflow-x", "hidden")]

/-- Shrinks an element outside of what is scaled already; gives the class and scale. -/
def shrink (s : Settings) (w : Widths) (inScaled : Bool) (n : Node) : Node × List (Text × Float) :=
  if inScaled then (n, [])
  else match target? n, scale? s w n with
    | some (name, origin), some scale => (Style.set (properties origin scale) n, [(name, scale)])
    | _, _ => (n, [])

mutual

/-- Shrinks all that is too wide in a tree, in document order; widths are those before. -/
def shrinkAll (s : Settings) (w : Widths) (inScaled : Bool) : List Node → List Node × List (Text × Float)
  | [] => ([], [])
  | n :: ns =>
    let (n, a) := shrinkTree s w inScaled n
    let (ns, b) := shrinkAll s w inScaled ns
    (n :: ns, a ++ b)

def shrinkTree (s : Settings) (w : Widths) (inScaled : Bool) : Node → Node × List (Text × Float)
  | .element name attributes children =>
    let whole : Node := .element name attributes children
    let (shrunk, a) := shrink s w inScaled whole
    let (children, b) := shrinkAll s w (inScaled || whole.hasClass scaledClass) children
    (shrunk.withChildren children, a ++ b)
  | n => (n, [])

end

end Shrink

/-! ## The surface -/

/-- The generation that a pass is asked for. -/
structure Ticket where
  generation : Nat
  deriving DecidableEq, Repr

structure LayoutSummary where
  ticket : Ticket
  adjusted : Nat := 0
  stale : Bool := false
  deriving DecidableEq, Repr

def LayoutSummary.fields (r : LayoutSummary) : List (Text × Json) :=
  [("generation", .nat r.ticket.generation), ("adjusted", .nat r.adjusted), ("stale", .bool r.stale)]

/-- The trees that were attached, the last of which is shown. -/
structure Surface where
  trees : List (List Node) := []
  /-- The tickets of deferred passes in order; none for one that was cancelled or has run. -/
  deferred : List (Option Ticket) := []

namespace Surface

/-- Counts the trees that were attached. -/
def generation (s : Surface) : Nat := s.trees.length

/-- The tree that is shown. -/
def tree? (s : Surface) : Option (List Node) := s.trees.getLast?

/-- Shows a tree; earlier tickets are no longer current. -/
def attach (s : Surface) (tree : List Node) : Surface × Ticket :=
  let s := { s with trees := s.trees ++ [tree] }
  (s, ⟨s.generation⟩)

def isLive (s : Surface) (t : Ticket) : Bool := t.generation = s.generation && !s.trees.isEmpty

/-- Shrinks what is too wide in the tree of a current ticket; a stale one changes nothing. -/
def layOut (settings : Settings) (w : Widths) (s : Surface) (t : Ticket) :
    Surface × LayoutSummary × List (Text × Float) :=
  if s.isLive t then
    let (tree, shrinks) := Shrink.shrinkAll settings w false (s.tree?.getD [])
    ({ s with trees := s.trees.dropLast ++ [tree] }, { ticket := t, adjusted := shrinks.length }, shrinks)
  else (s, { ticket := t, stale := true }, [])

/-- Defers a pass to the next turn. -/
def schedule (s : Surface) (t : Ticket) : Surface := { s with deferred := s.deferred ++ [some t] }

/-- Cancels a deferred pass. -/
def cancel (s : Surface) (handle : Nat) : Surface := { s with deferred := s.deferred.set handle none }

/-- Runs the deferred passes. -/
def turn (settings : Settings) (w : Widths) (s : Surface) : Surface × List (Text × Float) :=
  let step (r : Surface × List (Text × Float)) (t : Option Ticket) : Surface × List (Text × Float) :=
    match t with
    | none => r
    | some t =>
      let (s, _, shrinks) := layOut settings w r.1 t
      (s, r.2 ++ shrinks)
  let (s, shrinks) := s.deferred.foldl step (s, [])
  ({ s with deferred := s.deferred.map fun _ => none }, shrinks)

end Surface

end Galley
