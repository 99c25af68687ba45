import Galley.Extract.Bench
import Galley.Extract.Width
import Galley.Markup.Environment
import Galley.Markup.KeyValue
/-!
# Boxes

Box commands are rendered from the last to the first, since the last cannot
contain another one; then box environments, innermost first. A box whose
arguments cannot be read, and one that never closes, is replaced by a visible
failure.
-/

namespace Galley.Extract.Box

def failure : Text := "<div class=\"latex-placeholder-box error\">[Box - Parse Failed]</div>"

def inlineStyle : Text := "border: 1px solid currentColor; padding: 2px 4px; display: inline-block;"

def framedStyle : Text :=
  "border: 1px solid #999; border-radius: 4px; padding: 0.75em 1em; margin: 1em 0;"

/-! ## Commands -/

def commandNames : List Text := ["parbox", "fbox", "framebox", "boxed"]

/-- What a box command shows: the width and content of a paragraph box, or the content of a framed
    one, and what follows its arguments. -/
inductive Content where
  | paragraphs (width content : Text) (rest : Text)
  | line (content : Text) (rest : Text)

def readCommand (name s : Text) : Except Unclosed (Option Content) := do
  if name = "parbox" then
    let (_, s) ← Group.readUpTo .bracket 3 s
    match ← Arguments.read 2 false s with
    | some (args, rest) => pure (some (.paragraphs args.first args.second rest))
    | none => pure none
  else
    let s ← if name = "framebox" then (·.2) <$> Group.readUpTo .bracket 2 s else pure s
    match ← Group.read .brace s with
    | some (inside, rest) => pure (some (.line inside rest))
    | none => pure none

def commandFragment (kit : Kit) (name : Text) : Content → Bench (Text × Text)
  | .paragraphs width content rest => do
    let body ← Bench.paragraphs kit content
    pure ("<div class=\"parbox\" style=\"display: inline-block; vertical-align: top; width: " ++
      styleWidth width ++ ";\">" ++ body ++ "</div>", rest)
  | .line content rest => do
    let body ← Bench.inline kit (Text.strip content)
    pure ("<span class=\"latex-" ++ name ++ "\" style=\"" ++ inlineStyle ++ "\">" ++ body ++ "</span>", rest)

def commands (kit : Kit) (s : Text) : Bench Text :=
  Bench.rounds "box" kit.settings.environmentIterationCap (fun s => do
    match s.findLast? (Command.readerOf commandNames) with
    | none => pure none
    | some f =>
      match readCommand f.value f.after with
      | .ok (some content) => do
        let (fragment, rest) ← commandFragment kit f.value content
        pure (some (f.before ++ (← Bench.register .box fragment false) ++ rest))
      | _ => do
        Bench.notify (.boxArguments f.value)
        pure (some (f.before ++ (← Bench.register .box failure false) ++ f.after))) s

/-! ## Environments -/

def environmentNames : List Text := ["minipage", "mdframed", "tcolorbox"]

/-- What a box environment shows: a column with its width, or a frame with its title. -/
inductive Layout where
  | column (width : Text) (body : Text)
  | frame (title : Option Text) (body : Text)

def readEnvironment (name body : Text) : Except Unclosed Layout := do
  if name = "minipage" then
    let (_, body) ← Group.readUpTo .bracket 3 body
    match ← Group.read .brace body with
    | some (width, body) => pure (.column (styleWidth width) body)
    | none => pure (.column "100%" body)
  else
    match ← Group.read .bracket body with
    | some (options, body) =>
      pure (.frame (KeyValue.get? "frametitle" options <|> KeyValue.get? "title" options) body)
    | none => pure (.frame none body)

/-- The fragment of an environment, and whether it has lines of its own. -/
def environmentFragment (kit : Kit) : Layout → Bench (Text × Bool)
  | .column width body => do
    let body ← Bench.paragraphs kit body
    pure ("<div class=\"minipage\" style=\"display: inline-block; vertical-align: top; width: " ++
      width ++ ";\">" ++ body ++ "</div>", false)
  | .frame title body => do
    let head ← match title with
      | some title => do
        pure ("<div class=\"latex-framed-title\"><strong>" ++ (← Bench.inline kit title) ++
          "</strong></div>")
      | none => pure []
    let body ← Bench.paragraphs kit body
    pure ("<div class=\"latex-framed\" style=\"" ++ framedStyle ++ "\">" ++ head ++ body ++ "</div>", true)

/-- Replaces the begin markers of boxes that never close; `n` bounds the markers. -/
def failUnclosed : (n : Nat) → Text → Bench Text
  | 0, s => pure s
  | n + 1, s =>
    match s.find? (Marker.beginsAny environmentNames) with
    | none => pure s
    | some f =>
      match Environment.at? f.value f.before (f.source ++ f.after) with
      | some _ => do
        pure (f.before ++ f.source ++ (← failUnclosed n f.after))
      | none => do
        Bench.notify (.boxUnclosed f.value)
        let token ← Bench.register .box failure
        pure (f.before ++ token ++ (← failUnclosed n f.after))

def environments (kit : Kit) (s : Text) : Bench Text := do
  let s ← Bench.rounds "box environment" kit.settings.environmentIterationCap (fun s => do
    match Environment.leaf? environmentNames s with
    | none => pure none
    | some e =>
      match readEnvironment e.name e.body with
      | .ok layout => do
        let (fragment, ownLine) ← environmentFragment kit layout
        pure (some (e.replaceBy (← Bench.register .box fragment ownLine)))
      | .error _ => do
        Bench.notify (.boxOptions e.name)
        pure (some (e.replaceBy (← Bench.register .box failure)))) s
  failUnclosed s.length s

def extract (kit : Kit) (s : Text) : Bench Text := do environments kit (← commands kit s)

end Galley.Extract.Box
