import Galley.Html.Fragment
import Galley.Latex.Read
import Galley.Latex.Symbol
/-!
# Typesetting

The tree of the reduced markup becomes a tree of HTML: headings with numbers,
paragraphs, inline formatting, the title block, figures and links. Environments
that are not known become divisions, commands that are not known stand for their
letters. All text is escaped, and only links to web and mail addresses are made.
-/

namespace Galley.Typeset

open Latex (Node)

/-! ## Vocabulary -/

/-- Headings and the elements they become. -/
def headings : List (Text × Text) :=
  [("part", "h2"), ("chapter", "h2"), ("section", "h2"), ("subsection", "h3"), ("subsubsection", "h4")]

/-- Headings that begin a paragraph. -/
def runInHeadings : List Text := ["paragraph", "subparagraph"]

/-- Commands that put their argument between two tags. -/
def wrappers : List (Text × Text × Text) := [
  ("textbf", "<strong>", "</strong>"), ("textit", "<em>", "</em>"), ("textsl", "<em>", "</em>"),
  ("emph", "<em>", "</em>"), ("underline", "<u>", "</u>"), ("texttt", "<code>", "</code>"),
  ("textsc", "<span style=\"font-variant: small-caps;\">", "</span>"),
  ("textsuperscript", "<sup>", "</sup>"), ("textsubscript", "<sub>", "</sub>"),
  ("textrm", [], []), ("textsf", [], []), ("textup", [], []), ("textnormal", [], []), ("text", [], []),
  ("mbox", [], [])]

/-- Commands that stand for a piece of text. -/
def symbols : List (Text × Text) := [
  (['\\'], "<br>"), ("newline", "<br>"), ("linebreak", "<br>"), ([','], "&thinsp;"), ([' '], [' ']),
  ("quad", "&emsp;"), ("qquad", "&emsp;&emsp;"), ("ldots", "&hellip;"), ("dots", "&hellip;"),
  ("LaTeX", "LaTeX"), ("TeX", "TeX"), ("textbackslash", "\\"), ("textendash", "&ndash;"),
  ("textemdash", "&mdash;"), ("bullet", "&#8226;"), ("checkmark", "&#10003;"), ("times", "&times;")]

def specials : List (Text × Text) := [
  (['~'], "&nbsp;"), ("--", "&ndash;"), ("---", "&mdash;"), ("\x60\x60", "&ldquo;"), ("''", "&rdquo;")]

/-- Commands without a trace. -/
def silentNames : List Text :=
  [['-'], ['/'], ['@'], "documentclass", "usepackage", "label", "appendix", "centering", "hfill", "par",
    "small", "footnotesize", "large", "Large", "normalsize"]

def titleNames : List Text := ["title", "author", "date"]

def figureNames : List Text := ["figure", "figure*", "wrapfigure"]

/-- A command of one character that is neither a letter nor an accent stands for the character. -/
def isEscape (name : Text) : Bool :=
  match name with
  | [c] => !isLetter c && !Latex.accentNames.contains name
  | _ => false

/-! ## State -/

/-- The title data and the counters of a document. -/
structure State where
  title : Text := []
  author : Text := []
  date : Text := []
  figures : Nat := 0
  sections : Nat × Nat × Nat := (0, 0, 0)

namespace State

/-- Counts a heading; gives its number. Deeper counters start again. -/
def count (name : Text) (s : State) : Text × State :=
  let (a, b, c) := s.sections
  let dotted (ns : List Nat) : Text := Text.joinWith ['.'] (ns.map Text.ofNat)
  if name = "subsubsection" then (dotted [a, b, c + 1], { s with sections := (a, b, c + 1) })
  else if name = "subsection" then (dotted [a, b + 1], { s with sections := (a, b + 1, 0) })
  else (dotted [a + 1], { s with sections := (a + 1, 0, 0) })

def set (name value : Text) (s : State) : State :=
  if name = "title" then { s with title := value }
  else if name = "author" then { s with author := value }
  else { s with date := value }

def division (className content : Text) : Text :=
  if content.isEmpty then []
  else "<div class=\"".toList ++ className ++ "\">" ++ content ++ "</div>"

def heading (title : Text) : Text :=
  if title.isEmpty then [] else "<h1 class=\"latex-title\">".toList ++ title ++ "</h1>"

def titleLines (s : State) : Text :=
  division "latex-titleblock"
    (heading s.title ++ division "latex-author" s.author ++ division "latex-date" s.date)

end State

abbrev Work := StateM State

/-! ## Paragraphs -/

/-- Blocks that are done, and the open paragraph. -/
structure Flow where
  done : Text := []
  line : Text := []

namespace Flow

def inline (f : Flow) (t : Text) : Flow := { f with line := f.line ++ t }

/-- Ends the paragraph; an empty one leaves nothing. -/
def close (f : Flow) : Flow :=
  let content := Text.strip f.line
  if content.isEmpty then ⟨f.done, []⟩ else ⟨f.done ++ "<p>" ++ content ++ "</p>", []⟩

def block (f : Flow) (t : Text) : Flow :=
  let f := f.close
  { f with done := f.done ++ t }

def html (f : Flow) : Text := f.close.done

/-- Adds text in which blank lines end paragraphs. -/
def text (f : Flow) (t : Text) : Flow :=
  let (first, more) := Text.sections (t.cut blankLine)
  more.foldl (fun f part => f.close.inline (Html.escape part.2)) (f.inline (Html.escape first))
where
  /-- A line end, spaces and tabs, a line end, and the white space behind it. -/
  blankLine : Reader Unit
    | _, '\n' :: s =>
      match s.dropWhile isSpaceTab with
      | '\n' :: rest => some ((), rest.dropWhile isBlank)
      | _ => none
    | _, _ => none

end Flow

/-! ## Links -/

def schemes : List Text := ["http://", "https://", "mailto:"]

/-- A link; a label alone if the address is no web or mail address. -/
def link (address label : Text) : Text :=
  if address.startsWithAny schemes then
    "<a href=\"" ++ Html.escapeQuoted address ++ "\" target=\"_blank\" rel=\"noopener noreferrer\">" ++
      label ++ "</a>"
  else label

def addressOf (args : List Node) : Text := (args.head?.map Node.plain).getD []

/-! ## Nodes -/

def figure (content : Text) : Text := "<figure class=\"latex-figure\">" ++ content ++ "</figure>"

/-- The characters of an environment's name that may stand in a class name. -/
def className (name : Text) : Text :=
  name.filter fun c => isAsciiLetter c || c.isDigit || c = '_' || c = '-'

def environmentMarkup (name content : Text) : Text :=
  if figureNames.contains name then figure content
  else "<div class=\"latex-env latex-" ++ className name ++ "\">" ++ content ++ "</div>"

/-- A command within a paragraph, given the work of rendering its arguments. -/
def command (name : Text) (args : List Node) (rendered : List (Work Text)) : Work Text := do
  let first := rendered.headD (pure [])
  let second := (rendered.drop 1).headD (pure [])
  match wrappers.lookup name with
  | some (opening, closing) => pure (opening ++ (← first) ++ closing)
  | none =>
    match symbols.lookup name with
    | some t => pure t
    | none =>
      if silentNames.contains name then pure []
      else if isEscape name then pure (Html.escapeQuoted name)
      else if name = "footnote" then pure (" (" ++ (← first) ++ ")")
      else if name = "textcolor" then second
      else if name = "url" then pure (link (addressOf args) (Html.escapeQuoted (addressOf args)))
      else if name = "href" then pure (link (addressOf args) (← second))
      else if (headings.lookup name).isSome || runInHeadings.contains name then
        pure ("<strong>" ++ (← first) ++ "</strong>")
      else if titleNames.contains name || name = "maketitle" || name = "caption" then pure []
      else pure (Html.escape (Latex.commandText name (Latex.spelledAll args)))

/-- A command between paragraphs, given the work of rendering its arguments. -/
def blockCommand (name : Text) (starred : Bool) (args : List Node) (rendered : List (Work Text))
    (f : Flow) : Work Flow := do
  let first := rendered.headD (pure [])
  match headings.lookup name with
  | some tag => do
    let title ← first
    let number : Text ← do
      if starred then pure []
      else
        let n ← modifyGet (State.count name)
        pure ("<span class=\"section-number\">" ++ n ++ "</span> ")
    pure (f.block ("<" ++ tag ++ ">" ++ number ++ title ++ "</" ++ tag ++ ">"))
  | none =>
    if runInHeadings.contains name then
      pure (f.close.inline ("<strong class=\"latex-" ++ name ++ "\">" ++ (← first) ++ "</strong> "))
    else if name = "maketitle" then pure (f.block (← get).titleLines)
    else if name = "caption" then do
      modify fun s => { s with figures := s.figures + 1 }
      let number := (← get).figures
      pure (f.block ("<figcaption class=\"latex-caption\"><strong>Figure " ++ Text.ofNat number ++
        ":</strong> " ++ (← first) ++ "</figcaption>"))
    else if name = "par" then pure f.close
    else if titleNames.contains name then pure f
    else pure (f.inline (← command name args rendered))

def specialMarkup (t : Text) : Text := (specials.lookup t).getD (Html.escapeQuoted t)

mutual

/-- A node within a paragraph. -/
def inline : Node → Work Text
  | .chars t => pure (Html.escape t)
  | .special t => pure (specialMarkup t)
  | .math source => pure (Html.escape source)
  | .comment _ => pure []
  | .group nodes _ => inlineAll nodes
  | .environment name nodes _ => do pure (environmentMarkup name (← flowAll nodes {}).html)
  | .command name _ args _ => command name args (arguments args)

def inlineAll : List Node → Work Text
  | [] => pure []
  | n :: ns => do
    let t ← inline n
    pure (t ++ (← inlineAll ns))

/-- The work of rendering each argument. -/
def arguments : List Node → List (Work Text)
  | [] => []
  | n :: ns => (Text.strip <$> inline n) :: arguments ns

/-- A node between paragraphs. -/
def flow : Node → Flow → Work Flow
  | .chars t, f => pure (f.text t)
  | .special t, f => pure (f.inline (specialMarkup t))
  | .math source, f => pure (f.inline (Html.escape source))
  | .comment _, f => pure f
  | .group nodes _, f => flowAll nodes f
  | .environment name nodes _, f => do
    pure (f.block (environmentMarkup name (← flowAll nodes {}).html))
  | .command name starred args _, f => blockCommand name starred args (arguments args) f

def flowAll : List Node → Flow → Work Flow
  | [], f => pure f
  | n :: ns, f => do flowAll ns (← flow n f)

end

/-! ## Documents -/

/-- Keeps title, author and date; the last of each counts. -/
def collectTitle : List Node → Work Unit
  | [] => pure ()
  | .command name _ args _ :: ns => do
    if titleNames.contains name then
      let value ← (arguments args).headD (pure [])
      modify (State.set name value)
    collectTitle ns
  | _ :: ns => collectTitle ns

/-- The nodes of the document environment, or all nodes. -/
def bodyOf (nodes : List Node) : List Node :=
  (nodes.findSome? fun
    | .environment name inside _ => if name = "document" then some inside else none
    | _ => none).getD nodes

def documentMarkup (nodes : List Node) : Work Text := do
  collectTitle nodes
  pure (← flowAll (bodyOf nodes) {}).html

/-- The tree of a document, with one root. -/
def document (markup : Text) : List Html.Node :=
  let (content, _) := (documentMarkup (Latex.read markup)).run {}
  Html.parse ("<div class=\"latex-preview\">" ++ content ++ "</div>")

end Galley.Typeset
