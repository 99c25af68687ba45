import Galley.Html.Reference
import Galley.Json.Shown
/-!
# Failures

Why a request or a document as a whole is refused. A failure has a code and a
status for programs, and a message and details for people; failures of a preview
add the hint that the document itself is unharmed.
-/

namespace Galley

namespace Failure

inductive Kind where
  | general | validation | configuration | rateLimit | preview | integrity | render
  deriving DecidableEq, Repr

namespace Kind

def code : Kind → Text
  | general | preview => "TEXPREVIEW_ERROR"
  | validation => "VALIDATION_ERROR"
  | configuration => "CONFIGURATION_ERROR"
  | rateLimit => "RATE_LIMIT_EXCEEDED"
  | integrity => "CONTENT_INTEGRITY"
  | render => "RENDER_ERROR"

/-- The HTTP status. -/
def status : Kind → Nat
  | general | configuration | preview => 500
  | validation => 400
  | rateLimit => 429
  | integrity => 422
  | render => 502

/-- Whether the failure is one of a preview. -/
def isPreview : Kind → Bool
  | preview | integrity | render => true
  | _ => false

end Kind

/-- The hint that a failed preview does not harm the document. -/
def reassurance : Text :=
  "The preview uses a simplified browser renderer. Your LaTeX source will still compile perfectly."

end Failure

structure Failure where
  kind : Failure.Kind
  message : Text
  details : List (Text × Json) := []

namespace Failure

/-- A failure, with the hint if it needs one and has none. -/
def make (kind : Kind) (message : Text) (details : List (Text × Json) := []) : Failure :=
  if kind.isPreview && !details.any (·.1 = ("hint" : Text)) then
    ⟨kind, message, details ++ [(("hint" : Text), Json.str reassurance)]⟩
  else ⟨kind, message, details⟩

def body (f : Failure) : List (Text × Json) :=
  [("error", .str f.kind.code), ("message", .str f.message), ("details", .obj f.details)]

def hint (f : Failure) : Text := ((f.details.lookup ("hint" : Text)).map Json.shown).getD reassurance

/-- The panel that is shown in the place of a preview. -/
def panel (f : Failure) : Text :=
  "<div class=\"latex-preview-error\" style=\"color: #b00020; padding: 1em;\">" ++
    "<strong>Preview Error</strong><p>" ++ Html.escapeQuoted f.message ++ "</p><p class=\"hint\">" ++
    Html.escapeQuoted f.hint ++ "</p></div>"

end Failure

end Galley
