import Galley.Diagram.Signals
/-!
# Diagram layout

A diagram is classified by its signals, and options for its class are added to
the author's, so that it fits the width of the preview.
-/

namespace Galley.Diagram

/-- How a diagram is fitted. -/
inductive Intent where
  | compact | medium | large | wide | flat
  deriving DecidableEq, Repr

namespace Intent

def name : Intent → Text
  | compact => "compact"
  | medium => "medium"
  | large => "large"
  | wide => "wide"
  | flat => "flat"

def all : List Intent := [compact, medium, large, wide, flat]

def ofName? (t : Text) : Option Intent := all.find? (·.name = t)

end Intent

/-- Diagrams with coordinates are flat, wide or large; the others go by their node distance, then by
    their labels, then by their size. -/
def classify (c : Calibration) (s : Signals) : Intent :=
  if s.hspan > 0 then
    if s.vspan > 0 && s.aspect > c.flatAspectThreshold then .flat
    else if !c.wideAsLarge && s.hspan > c.wideSpanThreshold then .wide
    else .large
  else match s.nodeDistance with
    | some d =>
      if d < c.compactDistanceBelow then .compact
      else if d >= c.largeDistanceFrom then .large
      else .medium
    | none =>
      if s.textHeavy c then .large
      else if (s.nodeCount : Int) ≥ c.compactNodeCount then .compact
      else .medium

/-! ## Synthesized options -/

def least (a b : Float) : Float := if b < a then b else a

def greatest (a b : Float) : Float := if b > a then b else a

/-- Options under a condition. -/
def given (condition : Bool) (options : List Text) : List Text := if condition then options else []

def transformShape : Text := "transform shape"

def smallFont : Text := "font=\\small"

def distanceOption (cm : Float) : Text := "node distance=" ++ short cm ++ "cm"

/-- The unit vectors, with a number of decimal places. -/
def unitOptions (places : Nat) (x y : Float) : List Text :=
  ["x=".toList ++ Decimal.fixed places x ++ "cm", "y=".toList ++ Decimal.fixed places y ++ "cm"]

def compactOptions (c : Calibration) (s : Signals) (own : List Text) : List Text :=
  let scale := if (s.nodeCount : Int) ≥ c.compactNodeCount then c.compactScaleDense else c.compactScale
  given (!has own "scale") ["scale=".toList ++ short scale] ++
    given (!has own transformShape) [transformShape] ++
    given (!has own "node distance") [distanceOption c.compactNodeDistanceCm]

/-- The kept and the added options of a large diagram: its unit vectors fit it into the width, and a
    node distance too small for it is replaced. -/
def largeOptions (c : Calibration) (s : Signals) (own : List Text) : List Text × List Text :=
  let optimal := least c.largeMaxUnit (c.largeTargetWidthCm / (if s.hspan == 0 then 1 else s.hspan))
  let clamp := if s.hspan > c.largeWideSpan then c.largeClampWide else c.largeClampNarrow
  let x := greatest c.largeMinUnit (least clamp optimal)
  let y :=
    if s.vspan > 0 then
      least c.largeYMax (greatest c.largeYMin (c.largeTargetHeightCm / s.vspan))
    else c.largeRelativeY
  let own := without own [['x'], ['y']]
  let heavy := s.textHeavy c
  let target := if heavy then c.largeDistanceTextCm else c.largeDistanceCm
  let tooSmall := match s.nodeDistance with
    | none => false
    | some d => if heavy then d < target else d < c.largeMinDistanceCm
  let kept := if tooSmall then without own ["node distance"] else own
  (kept, unitOptions 2 x y ++ given (!has own "font") [smallFont] ++
    given (s.nodeDistance.isNone || tooSmall) [distanceOption target] ++
    given (!has kept "text width") ["every node/.append style=\x7balign=center\x7d"])

def wideOptions (c : Calibration) (s : Signals) (own : List Text) : List Text :=
  let factor := if s.hspan == 0 then 1 else least 1 (c.wideSpanThreshold / s.hspan)
  let scale := greatest c.wideMinScale (factor * c.wideScaleFactor)
  given (!has own "scale") ["scale=".toList ++ Decimal.fixed 2 scale] ++
    given (!has own transformShape) [transformShape]

/-- The number that an option sets, one if it sets none or zero. -/
def numberOr1 (own : List Text) (k : Text) : Float :=
  match (value? own k).bind numberAhead? with
  | some x => if x == 0 then 1 else x
  | none => 1

/-- The kept and the added options of a flat diagram, which is stretched upwards. -/
def flatOptions (c : Calibration) (s : Signals) (own : List Text) : List Text × List Text :=
  let stretch := least c.flatYMax (greatest c.flatYMin (s.aspect / 2))
  let x := numberOr1 own ['x'] * c.flatXMultiplier
  let y := numberOr1 own ['y'] * stretch
  let kept := without own [['x'], ['y']]
  (kept, unitOptions 1 x y ++ ["scale=1.0".toList] ++
    given ((s.nodeCount : Int) ≥ c.flatSmallFontNodes && !has kept "font") [smallFont])

def mediumOptions (c : Calibration) (s : Signals) (own : List Text) : List Text :=
  let grid := has own ['x'] || has own ['y']
  let scale :=
    if 0 < s.hspan && s.hspan <= c.wideSpanThreshold then 1
    else if (s.nodeCount : Int) ≥ c.mediumDenseNodes then c.mediumScaleDense
    else c.mediumScale
  given (!has own "scale" && !grid) ["scale=".toList ++ short scale] ++
    given (grid && !has own transformShape) [transformShape] ++
    given (!has own "node distance") [distanceOption c.mediumNodeDistanceCm]

/-- The author's options that are kept, and those added for a class. -/
def intentOptions (c : Calibration) (intent : Intent) (s : Signals) (own : List Text) :
    List Text × List Text :=
  match intent with
  | .compact => (own, compactOptions c s own)
  | .large => largeOptions c s own
  | .wide => (own, wideOptions c s own)
  | .flat => flatOptions c s own
  | .medium => (own, mediumOptions c s own)

/-- The author's options merged with those of a class. Long labels in a diagram without coordinates
    get larger unit vectors. -/
def synthesize (c : Calibration) (intent : Intent) (s : Signals) (own : List Text) : List Text :=
  let (kept, added) := intentOptions c intent s own
  let options := kept ++ added
  options ++ given (s.textHeavy c && s.lacksCoordinates && intent ≠ .large && !has options ['x'])
    ["x=".toList ++ short c.textHeavyXCm ++ "cm", "y=".toList ++ short c.textHeavyYCm ++ "cm"]

/-! ## The plan -/

/-- The layout of one diagram. -/
structure Layout where
  intent : Intent
  signals : Signals
  textHeavy : Bool
  options : List Text

def plan (c : Calibration) (body options : Text) : Layout :=
  let signals := measure (safeSubset c body) options
  let intent := classify c signals
  { intent, signals
    textHeavy := signals.textHeavy c
    options := synthesize c intent signals (optionList options) }

def Layout.fields (l : Layout) : List (Text × Json) :=
  [("intent", .str l.intent.name), ("text_heavy", .bool l.textHeavy), ("options", .strs l.options),
    ("signals", .obj l.signals.fields)]

end Galley.Diagram
