import Galley.Block.Token
import Galley.Inline.Stash
import Galley.Markup.Command
import Galley.Formula.Render
/-!
# Inline text

Turns the markup of a cell, an item or a caption into safe markup of the page:
formulas are rendered and set aside first, escaped specials are protected, the
rest is escaped, dashes and quotes are set, formatting commands are rewritten
with their arguments read by balanced scan, and symbols replaced. Placeholder
tokens pass through unchanged.
-/

namespace Galley.Inline

/-! ## Formulas -/

/-- A formula between dollars or in `\(..\)`. -/
def formula : Reader Text
  | before, '$' :: s =>
    if before = some '\\' then none
    else do
      let (inside, rest) ← Text.closedBy '$' s
      if inside.isEmpty || inside.getLast? = some '\\' then none else some (inside, rest)
  | _, '\\' :: '(' :: c :: s => do
    let (inside, rest) ← Text.splitAtFirst "\\)" s
    some (c :: inside, rest)
  | _, _ => none

/-! ## Escaped specials -/

/-- The specials that a backslash makes literal, each with the mark that protects it and the text
    that shows it. -/
def specials : List (Char × Char × Text) :=
  [('%', Char.ofNat 0xE010, "%"), ('&', Char.ofNat 0xE011, "&amp;"), ('#', Char.ofNat 0xE012, "#"),
    ('_', Char.ofNat 0xE013, "_"), ('{', Char.ofNat 0xE014, "\x7b"),
    ('}', Char.ofNat 0xE015, "\x7d"), ('$', Char.ofNat 0xE016, "$")]

def escapedSpecial : Reader Char
  | _, '\\' :: c :: s => (specials.lookup c).map fun (mark, _) => (mark, s)
  | _, _ => none

def protectSpecials (s : Text) : Text := s.replaceAll escapedSpecial fun mark => [mark]

def restoreSpecial (c : Char) : Text :=
  match specials.find? fun (_, mark, _) => mark = c with
  | some (_, _, shown) => shown
  | none => [c]

def restoreSpecials (s : Text) : Text := s.flatMap restoreSpecial

/-! ## Dashes, quotes and symbols -/

def typography (s : Text) : Text :=
  (((s.replace "---" "&mdash;").replace "--" "&ndash;").replace "\x60\x60" "&ldquo;").replace
    "''" "&rdquo;"

/-- A row break with its optional spacing. -/
def rowBreak : Reader Unit
  | _, '\\' :: '\\' :: s => some ((), Text.skipEnclosed '[' ']' s)
  | _, _ => none

/-- One of some commands, with the white space after it that `skip` drops. -/
def symbolCommand (names : List Text) (skip : Text → Text := id) : Reader Unit := fun _ s =>
  names.findSome? fun name => (Command.after? name s).map fun rest => ((), skip rest)

def literal (t : Text) : Reader Unit := fun _ s => (Text.after? t s).map ((), ·)

def dropBlank : Text → Text
  | c :: s => if isBlank c then s else c :: s
  | [] => []

/-- Symbols and what shows them, in the order in which they are replaced. -/
def symbols : List (Reader Unit × Text) :=
  [(rowBreak, "<br>"),
    (symbolCommand ["bullet"] (·.dropWhile isBlank), "&#8226; "),
    (symbolCommand ["times"], "&times;"),
    (symbolCommand ["checkmark"], "&#10003;"),
    (symbolCommand ["approx"], "&#8776;"),
    (symbolCommand ["ldots", "dots"], "&hellip;"),
    (symbolCommand ["LaTeX", "TeX"] dropBlank, "LaTeX"),
    (literal "\\,", "&thinsp;"),
    (literal "\\:", ":"),
    (literal "\\/", "/"),
    (literal "\x7b:\x7d", ":"),
    (literal "\x7b,\x7d", ","),
    (literal "~", "&nbsp;")]

def replaceSymbols (s : Text) : Text :=
  symbols.foldl (fun s (reader, shown) => s.replaceAll reader fun _ => shown) s

/-! ## Commands -/

def safeSchemes : List Text := ["http://", "https://", "mailto:"]

/-- Formatting commands and the markup around their argument, in the order of rewriting. -/
def wrappers : List (Text × Text × Text) :=
  [("footnote", " (", ")"), ("textbf", "<strong>", "</strong>"), ("textit", "<em>", "</em>"),
    ("emph", "<em>", "</em>"), ("underline", "<u>", "</u>"), ("texttt", "<code>", "</code>"),
    ("textsc", "<span style=\"font-variant: small-caps;\">", "</span>")]

def linkMarkup (url label : Text) : Text :=
  "<a href=\"" ++ url.replace "\"" "%22" ++ "\" target=\"_blank\" rel=\"noopener noreferrer\">" ++
    label ++ "</a>"

/-- References, labels and code, which take their argument as it stands. -/
def rewriteReferences (s : Text) : StateM Stash Text := do
  let bracketed (a : Arguments) : Text := "[" ++ Text.strip a.first ++ "]"
  let s := Command.replace "textcircled" 1 (fun a => "(" ++ a.first ++ ")") s
  let s := Command.replace "eqref" 1 (fun a => "(" ++ Text.strip a.first ++ ")") s
  let s := Command.replace "ref" 1 bracketed s
  let s := Command.replace "cite" 1 bracketed s true
  let s := Command.replace "citep" 1 bracketed s true
  let s := Command.replace "citet" 1 bracketed s true
  let s := Command.replace "label" 1 (fun _ => []) s
  Command.replaceM "url" 1 (fun a => Stash.put ("<code>" ++ a.first ++ "</code>")) s

/-- Rewrites the commands of a text in which at most `depth` backslashes stand. An argument holds
    fewer than the text around it, and a text without one holds no command. -/
def rewriteCommands : (depth : Nat) → Text → StateM Stash Text
  | 0, s => pure s
  | depth + 1, s => do
    let s ← rewriteReferences s
    let link (a : Arguments) : StateM Stash Text := do
      let url := Text.strip a.first
      let label ← rewriteCommands depth a.second
      if url.startsWithAny safeSchemes then Stash.put (linkMarkup url label) else pure label
    let s ← Command.replaceM "href" 2 link s
    wrappers.foldlM (fun s (name, opening, closing) =>
      Command.replaceM name 1 (fun a => do
        pure (opening ++ (← rewriteCommands depth a.first) ++ closing)) s) s

/-! ## Formatting -/

/-- Sets the formulas of a text aside, rendered by `render`. -/
def stashFormulas (render : Text → Text) (s : Text) : StateM Stash Text :=
  s.replaceAllM formula fun f => Stash.put (render f)

/-- The text with its formulas set aside and everything else in its final form, but for the marks. -/
def rewrite (render : Text → Text) (s : Text) : StateM Stash Text := do
  let s ← stashFormulas render s
  let s := typography (Html.escape (protectSpecials s))
  let s ← rewriteCommands (s.count '\\') s
  pure (restoreSpecials (replaceSymbols s))

/-- Formats one inline fragment. -/
def format (settings : Settings) (engine : Formula.Engine) (s : Text) : Except Fault Text :=
  let (shown, pieces) := (rewrite (fun f => (Formula.render settings engine f .inline).html) s).run []
  Stash.restore pieces shown

/-- The notices of the formulas of a fragment, in order. -/
def notices (settings : Settings) (engine : Formula.Engine) (s : Text) : List Notice :=
  (s.readAll formula).filterMap fun f => (Formula.render settings engine f .inline).notice

/-! ## Paragraphs -/

/-- A blank line: two line ends with only white space between. -/
def blankLine : Reader Unit
  | _, '\n' :: s =>
    let blanks := s.takeWhile isBlank
    let kept := Text.dropWhileRight (· ≠ '\n') blanks
    if kept.isEmpty then none else some ((), s.drop kept.length)
  | _, _ => none

/-- The parts of a text between constructs. -/
def partsBetween : List (Piece Unit) → List Text
  | [] => [[]]
  | .hit _ _ :: ps => [] :: partsBetween ps
  | .char c :: ps =>
    match partsBetween ps with
    | [] => [[c]]
    | part :: parts => (c :: part) :: parts

/-- The paragraphs of a text, stripped, without empty ones. -/
def chunks (s : Text) : List Text :=
  ((partsBetween ((Text.strip s).cut blankLine)).map Text.strip).filter (!·.isEmpty)


end Galley.Inline
