import Galley.Text.Basic
/-!
# Settings

Limits, measures and modes of the program, with their defaults. The calibration
holds the constants of the diagram layout.
-/

namespace Galley

/-- Constants of the diagram layout: when a diagram counts as compact, flat, large or wide, and
    how each of these is drawn. -/
structure Calibration where
  flatAspectThreshold : Float := 3.0
  textHeavyLabelChars : Float := 30.0
  compactNodeCount : Int := 8
  compactDistanceBelow : Float := 2.0
  largeDistanceFrom : Float := 2.5
  wideSpanThreshold : Float := 14.0
  wideAsLarge : Bool := true
  compactScaleDense : Float := 0.75
  compactScale : Float := 0.85
  compactNodeDistanceCm : Float := 1.5
  largeTargetWidthCm : Float := 25.0
  largeMaxUnit : Float := 2.5
  largeClampWide : Float := 1.8
  largeClampNarrow : Float := 1.3
  largeWideSpan : Float := 7.0
  largeMinUnit : Float := 0.3
  largeTargetHeightCm : Float := 8.0
  largeYMin : Float := 1.0
  largeYMax : Float := 1.8
  largeRelativeY : Float := 0.5
  largeDistanceTextCm : Float := 8.4
  largeDistanceCm : Float := 5.0
  largeMinDistanceCm : Float := 0.5
  wideScaleFactor : Float := 0.9
  wideMinScale : Float := 0.5
  flatXMultiplier : Float := 1.5
  flatYMin : Float := 1.5
  flatYMax : Float := 3.0
  flatSmallFontNodes : Int := 5
  mediumScaleDense : Float := 0.8
  mediumScale : Float := 0.9
  mediumDenseNodes : Int := 6
  mediumNodeDistanceCm : Float := 2.5
  textHeavyXCm : Float := 2.2
  textHeavyYCm : Float := 1.5
  braceMagnitude : Float := 0.15
  braceTip : Float := 0.35
  braceLabelOffset : Float := 0.6
  minFrameHeightPx : Int := 100
  frameHeightPaddingPx : Int := 25

inductive Environ where
  | development | staging | production
  deriving DecidableEq, Repr

def Environ.name : Environ → Text
  | development => "development"
  | staging => "staging"
  | production => "production"

structure Settings where
  environment : Environ := .development
  logLevel : Text := "INFO"
  logJson : Bool := false
  apiHost : Text := "0.0.0.0"
  apiPort : Int := 8000
  rateLimitRequests : Nat := 60
  rateLimitWindowSeconds : Nat := 60
  maxDocumentChars : Nat := 500000
  gatekeeperTolerance : Int := 2
  diagramIterationCap : Nat := 100
  listIterationCap : Nat := 500
  environmentIterationCap : Nat := 500
  mathMaxWidthEm : Float := 50.0
  mathCharWidthEm : Float := 0.45
  shrinkFloor : Float := 0.55
  shrinkSafetyMargin : Float := 0.98
  containerWidthPx : Int := 720
  charWidthPx : Float := 7.5
  diagram : Calibration := {}

namespace Settings

def inDevelopment (s : Settings) : Bool := s.environment = .development

def inProduction (s : Settings) : Bool := s.environment = .production

end Settings

end Galley
