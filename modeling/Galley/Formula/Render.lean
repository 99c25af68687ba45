import Galley.Decimal.Format
import Galley.Formula.Engine
import Galley.Formula.Sanitize
import Galley.Markup.Environment
import Galley.Notice
import Galley.Settings.Basic
import Galley.Text.Letter
/-!
# Rendering formulas

A formula becomes a fragment in every case: where the converter fails, the
fragment says so. A long formula on one line is wrapped in a container that
scales it down; formulas of several lines grow in height and are not scaled.
-/

namespace Galley.Formula

/-! ## Estimated width -/

/-- A text wrapper around a nonempty argument without braces: the argument. -/
def wrapper : Reader Text := fun _ s => do
  let rest ← ["\\mathrm\x7b", "\\text\x7b", "\\textbf\x7b"].findSome? fun (opening : String) =>
    Text.after? opening.toList s
  let (inside, rest) ← Text.closedBy '}' rest
  if inside.isEmpty then none else some (inside, rest)

def sizeNames : List Text := ["left", "right", "big", "Big", "bigg", "Bigg"]

/-- A delimiter size with an optional side letter. The first name that fits is taken, so `big` in
    front of `bigg`. -/
def sizer : Reader Unit := fun _ s => do
  let rest ← sizeNames.findSome? fun name => Text.after? ('\\' :: name) s
  match rest with
  | c :: more => if c = 'l' || c = 'r' || c = 'v' then some ((), more) else some ((), rest)
  | [] => some ((), [])

/-- A command name. -/
def commandName : Reader Unit
  | _, '\\' :: s =>
    let name := s.takeWhile isAsciiLetter
    if name.isEmpty then none else some ((), s.drop name.length)
  | _, _ => none

/-- How many glyphs wide a formula on one line is, roughly: text wrappers are unwrapped, sizes
    dropped, and every other command counts as one glyph. -/
def glyphCount (formula : Text) : Nat :=
  let rough := formula.replaceAll wrapper id
  let rough := rough.removeAll sizer
  (rough.replaceAll commandName fun _ => "C").length

/-- The width of a formula in any numbers, `ofNat` among them for the number of glyphs. -/
def widthIn {α : Type} [Mul α] (ofNat : Nat → α) (formula : Text) (glyphWidth : α) : α :=
  ofNat (glyphCount formula) * glyphWidth

def estimatedWidth (formula : Text) (glyphWidth : Float) : Float := widthIn Nat.toFloat formula glyphWidth

/-! ## Cleaning -/

def unescapedDollar : Reader Unit
  | some '\\', _ => none
  | _, '$' :: s => some ((), s)
  | _, _ => none

/-- A command written with its argument at once and no braces inside: the argument. -/
def tightCommand (opening : Text) : Reader Text := fun _ s => do
  let rest ← Text.after? opening s
  Text.closedBy '}' rest

def tagCommand : Reader Unit := fun _ s => do
  let rest ← Text.after? "\\tag" s
  let rest := (Text.after? "*" rest).getD rest
  let rest ← Text.after? "\x7b" rest
  let (_, rest) ← Text.closedBy '}' rest
  some ((), rest)

/-- A whole word behind a backslash. -/
def wholeWord (words : List Text) : Reader Unit := fun _ s =>
  words.findSome? fun w => do
    let rest ← Text.after? ('\\' :: w) s
    match rest with
    | c :: _ => if isWordChar c then none else some ((), rest)
    | [] => some ((), rest)

/-- The formula without labels, tags and stray dollars; references become text. -/
def clean (formula : Text) : Text :=
  let s := formula.removeAll unescapedDollar
  let s := s.removeAll (tightCommand "\\label\x7b")
  let s := s.removeAll tagCommand
  let s := s.removeAll (wholeWord ["nonumber", "notag"])
  let s := s.replaceAll (tightCommand "\\eqref\x7b") fun a => "\\text\x7b(" ++ a ++ ")\x7d"
  let s := s.replaceAll (tightCommand "\\ref\x7b") fun a => "\\text\x7b[" ++ a ++ "]\x7d"
  Text.strip s

/-! ## Structured environments -/

def structuredNames : List Text := ["equation", "align", "gather", "multline"]

/-- The body of a text that is one environment `name` and nothing else. -/
def wholeEnvironment? (name s : Text) : Option Text := do
  let rest ← Text.after? ("\\begin\x7b" ++ name ++ "\x7d") s
  let closing : Text := "\\end\x7b" ++ name ++ "\x7d"
  if rest.endsWith closing then some (rest.dropRight closing.length) else none

/-- The formula of a structured environment: the body of an equation, the aligned body of the
    others. -/
def unwrap? (s : Text) : Option Text :=
  structuredNames.findSome? fun (base : Text) =>
    [base, base ++ ['*']].findSome? fun name =>
      (wholeEnvironment? name (Text.strip s)).map fun body =>
        if base = "equation" then body
        else "\\begin\x7baligned\x7d" ++ body ++ "\\end\x7baligned\x7d"

/-! ## Fragments -/

/-- A rendered formula, and a notice if the converter failed. -/
structure Rendered where
  html : Text
  notice : Option Notice := none

/-- Wraps an over-wide formula in a container that scales it down. -/
def scaledToFit (settings : Settings) (formula fragment : Text) : Text :=
  let widest := settings.mathMaxWidthEm
  let estimate := estimatedWidth formula settings.mathCharWidthEm
  if estimate <= widest then fragment
  else
    let ratio := widest / estimate
    let scale := if ratio > settings.shrinkFloor then ratio else settings.shrinkFloor
    "<div class=\"math-autoscale\" style=\"transform: scale(" ++ Decimal.fixed 2 scale ++
      "); transform-origin: left center; width: " ++ Decimal.fixed 1 (100 / scale) ++ "%;\">" ++
      fragment ++ "</div>"

def render (settings : Settings) (engine : Engine) (source : Text) (display : Display) : Rendered :=
  let structured := unwrap? source
  let formula := clean (structured.getD source)
  match engine formula display with
  | .error message =>
    { html := "<span class=\"math-error\" style=\"color:red;\" title=\"" ++ Html.escapeQuoted message ++
        "\">Math Error</span>"
      notice := some (.mathFailed message formula (display = .block)) }
  | .ok mathml =>
    let mathml := sanitize mathml
    match display with
    | .inline => { html := "<span class=\"math-inline\">" ++ mathml ++ "</span>" }
    | .block =>
      let fragment := "<div class=\"math-display\">" ++ mathml ++ "</div>"
      if structured.isSome || formula.includes "\\\\" then { html := fragment }
      else { html := scaledToFit settings formula fragment }

end Galley.Formula
