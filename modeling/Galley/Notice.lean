import Galley.Json.Basic
/-!
# Notices

What the program reports while it works: repairs, constructs it had to leave in
place or give up, and failures. A notice does not change the result it is about.
-/

namespace Galley

inductive Level where
  | debug | info | warning | error | critical
  deriving DecidableEq, Repr

inductive Notice where
  | capReached (construct : Text) (cap : Int)
  | unsafeRemoved (commands : List Text)
  | mathFailed (error expression : Text) (display : Bool)
  | pictureUnclosed (position : Nat)
  | diagramUnclosed (environment : Text)
  | codeUnclosed (environment : Text)
  | environmentUnclosed (environment : Text)
  | mathUnclosed (environment : Text)
  | algorithmUnclosed (environment : Text)
  | tableUnclosed (environment : Text)
  | tableEmpty
  | tableFailed (environment error : Text)
  | boxArguments (command : Text)
  | boxOptions (environment : Text)
  | boxUnclosed (environment : Text)
  | bibliographyUnclosed
  | metadataUnclosed (command : Text)
  | unbalanced (begins ends : Nat) (tolerance : Int)
  | tokenUnknown (token : Text)
  | tokensMissing (tokens : List Text)
  | rendererFailed (error renderer : Text)
  | stageFailed (error : Text)
  | previewFailed (code message : Text)
  | requestFailed (code message : Text)
  | unhandled (error : Text)
  | rateExceeded (client path : Text)
  | probeFailed (error : Text)

namespace Notice

def level : Notice → Level
  | rendererFailed .. | stageFailed .. | unhandled .. => .error
  | _ => .warning

/-- The sentence that names what happened. -/
def event : Notice → Text
  | capReached .. => "Extraction iteration cap reached"
  | unsafeRemoved .. => "Removed unsafe commands"
  | mathFailed .. => "Math conversion failed"
  | pictureUnclosed .. | diagramUnclosed .. => "Unterminated diagram left in place"
  | codeUnclosed .. => "Unterminated code block left in place"
  | environmentUnclosed .. => "Unterminated environment left in place"
  | mathUnclosed .. => "Unterminated math environment left in place"
  | algorithmUnclosed .. => "Unterminated algorithm environment left in place"
  | tableUnclosed .. => "Unterminated table environment"
  | tableEmpty => "Table float without a parsable tabular"
  | tableFailed .. => "Table parse failed"
  | boxArguments .. => "Box arguments could not be read"
  | boxOptions .. => "Box options could not be read"
  | boxUnclosed .. => "Unterminated box environment"
  | bibliographyUnclosed => "Unterminated bibliography environment left in place"
  | metadataUnclosed .. => "Unterminated metadata command"
  | unbalanced .. => "Unbalanced environments"
  | tokenUnknown .. => "Unknown token left in place"
  | tokensMissing .. => "Tokens not found in rendered tree"
  | rendererFailed .. => "Document renderer failed"
  | stageFailed .. => "Preview stage failed"
  | previewFailed .. => "Preview failed"
  | requestFailed .. => "Preview request failed"
  | unhandled .. => "Unhandled error"
  | rateExceeded .. => "Rate limit exceeded"
  | probeFailed .. => "Math engine probe failed"

/-- The facts that go with the sentence. -/
def fields : Notice → List (Text × Json)
  | capReached construct cap => [("construct", .str construct), ("cap", .int cap)]
  | unsafeRemoved commands =>
    [("count", .nat commands.length), ("commands", .strs (commands.take 10))]
  | mathFailed error expression display =>
    [("error", .str error), ("expression", .str (expression.take 80)), ("display", .bool display)]
  | pictureUnclosed position => [("position", .nat position)]
  | diagramUnclosed e | codeUnclosed e | environmentUnclosed e | mathUnclosed e
  | algorithmUnclosed e | tableUnclosed e | boxOptions e | boxUnclosed e =>
    [("environment", .str e)]
  | tableFailed e error => [("environment", .str e), ("error", .str error)]
  | boxArguments c | metadataUnclosed c => [("command", .str c)]
  | tableEmpty | bibliographyUnclosed => []
  | unbalanced begins ends tolerance =>
    [("begins", .nat begins), ("ends", .nat ends), ("tolerance", .int tolerance)]
  | tokenUnknown token => [("token", .str token)]
  | tokensMissing tokens => [("count", .nat tokens.length), ("tokens", .strs (tokens.take 5))]
  | rendererFailed error renderer => [("error", .str error), ("renderer", .str renderer)]
  | stageFailed error | unhandled error | probeFailed error => [("error", .str error)]
  | previewFailed code message => [("error", .str code), ("message", .str message)]
  | requestFailed code message => [("error_code", .str code), ("message", .str message)]
  | rateExceeded client path => [("client_ip", .str client), ("path", .str path)]

end Notice

end Galley
