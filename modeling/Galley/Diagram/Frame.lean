import Galley.Diagram.Layout
import Galley.Page
import Galley.Text.Digest
/-!
# Diagram frames

A diagram is drawn in a frame of its own that may run scripts and nothing else.
Everything the author wrote stands inside the frame's page, escaped as the value
of one attribute.
-/

namespace Galley.Diagram

/-- What is shown for a plot. -/
def plotPlaceholder : Text :=
  "<div class=\"latex-placeholder-box warning\">Complex diagram (pgfplots) - not supported in browser preview, see compiled output</div>"

def engineAddress : Text := "https://tikzjax.com/v1"

/-- The name of a frame: diagrams that differ in place, options or body have different names. -/
def frameName (sequence : Nat) (options body : Text) : Text :=
  let nul := Char.ofNat 0
  (Digest.sha1 (Text.ofNat sequence ++ [nul] ++ options ++ [nul] ++ body)).take 12

/-- The page of a frame. -/
def framePage (c : Calibration) (options body : Text) (sequence : Nat) : Text :=
  Page.fill Page.frame [
    ("tikzjax_base", .str engineAddress),
    ("options", .str (guardClosing (joinOptions (plan c body options).options))),
    ("body", .str (safeSubset c body)),
    ("diagram_id", .str (frameName sequence options body)),
    ("height_padding", .int c.frameHeightPaddingPx),
    ("min_height", .int c.minFrameHeightPx)]

/-- The fragment for the diagram at a place in its document. -/
def fragment (c : Calibration) (options body : Text) (sequence : Nat) : Text :=
  if isPlot body then plotPlaceholder
  else
    "<div class=\"tikz-wrapper\" style=\"display: flex; justify-content: center; " ++
      "width: 100%; margin: 1em 0;\"><iframe sandbox=\"allow-scripts\" data-diagram-id=\"" ++
      frameName sequence options body ++ "\" srcdoc=\"" ++
      Html.escapeQuoted (framePage c options body sequence) ++
      "\" style=\"border: none; width: 100%; min-height: " ++ Text.ofInt c.minFrameHeightPx ++
      "px; overflow: hidden;\"></iframe></div>"

end Galley.Diagram
