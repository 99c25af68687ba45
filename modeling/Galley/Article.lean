import Galley.Date
import Galley.Markup.Environment
import Galley.Notice
import Galley.Page
/-!
# Articles

Of a document's preamble only title, author and date are kept; the body is put
into an article that loads nothing. A document without a body of its own is cut
free of the usual preamble commands.
-/

namespace Galley

structure Metadata where
  title : Text := []
  author : Text := []
  date : Text := []
  deriving DecidableEq, Repr

namespace Metadata

def isTitled (m : Metadata) : Bool := !m.title.isEmpty

def fields (m : Metadata) : List (Text × Json) :=
  [("title", .str m.title), ("author", .str m.author), ("date", .str m.date)]

end Metadata

namespace Article

/-! ## Removing commands -/

/-- What follows a group of either kind behind spaces and tabs. -/
def afterGroup? (s : Text) : Option Text :=
  match s.dropWhile isSpaceTab with
  | c :: rest => (Delimiter.ofOpener? c).bind fun d => (Group.inside? d false rest).map Prod.snd
  | [] => none

/-- Drops all groups in a row, up to one that never closes. -/
def dropGroups (s : Text) : Text :=
  match afterGroup? s with
  | none => s
  | some rest => if rest.length < s.length then dropGroups rest else s
termination_by s.length

/-- Commands that name a macro before their arguments, in braces or without. -/
def namingCommands : List Text :=
  ["newcommand", "renewcommand", "providecommand", "DeclareMathOperator"]

/-- Drops the name of a macro. -/
def dropMacroName (s : Text) : Text :=
  match s.dropWhile isBlank with
  | '\\' :: rest =>
    let after := rest.dropWhile fun c => isAsciiLetter c || c = '@'
    if after.length < rest.length then after else s
  | _ => s

/-- A command, starred or not, with all groups behind it. -/
def command (name : Text) : Reader Unit := fun _ s =>
  (Command.starred? name s).map fun rest =>
    ((), dropGroups (if namingCommands.contains name then dropMacroName rest else rest))

def withoutCommand (name s : Text) : Text := s.removeAll (command name)

/-! ## Metadata -/

/-- The separator of authors, with the white space around it. -/
def separator : Reader Unit := fun _ s => do
  let s ← Command.after? "and" (s.dropWhile isBlank)
  some ((), s.dropWhile isBlank)

/-- The value of a metadata command on one line, dates filled in. -/
def settle (today : Date) (value : Text) : Text :=
  let s := withoutCommand "thanks" value
  let s := s.replaceAll (Command.reader "today") fun _ => today.long
  let s := s.replaceAll separator fun _ => ", "
  Text.collapse s

/-- The argument of the first `name`, behind an optional short form. -/
def argument (name s : Text) : Except Unclosed (Option Text) :=
  match s.find? (Command.reader name) with
  | none => .ok none
  | some f => do
    let short ← Group.read .bracket f.after
    let long ← Group.read .brace ((short.map Prod.snd).getD f.after)
    pure (long.map Prod.fst)

def value (today : Date) (s name : Text) : Text :=
  match argument name s with
  | .ok (some v) => settle today v
  | .ok none | .error _ => []

def names : List Text := ["title", "author", "date"]

def metadata (today : Date) (s : Text) : Metadata :=
  { title := value today s "title", author := value today s "author", date := value today s "date" }

/-- The notices that reading the metadata gives. -/
def notices (s : Text) : List Notice :=
  names.filterMap fun name =>
    match argument name s with
    | .error _ => some (.metadataUnclosed name)
    | .ok _ => none

/-! ## Rewriting -/

/-- The commands of a preamble. -/
def commandNames : List Text :=
  ["documentclass", "usepackage", "RequirePackage", "usetikzlibrary", "usepgfplotslibrary",
    "pgfplotsset", "tikzset", "title", "author", "date", "newcommand", "renewcommand",
    "providecommand", "DeclareMathOperator", "newtheorem", "theoremstyle", "newenvironment",
    "renewenvironment", "newcolumntype", "setlength", "geometry", "hypersetup", "graphicspath",
    "bibliographystyle"]

def removeAll (names : List Text) (s : Text) : Text := names.foldl (fun s name => withoutCommand name s) s

/-- The body of a document. -/
def body (s : Text) : Text :=
  match s.find? (Marker.begins "document") with
  | some f =>
    match f.after.find? (Marker.ends "document") with
    | some e => e.before
    | none => f.after
  | none => (removeAll commandNames s).removeAll (Marker.ends "document")

/-- A document in an article of its own. -/
structure Rewritten where
  markup : Text
  metadata : Metadata

def rewrite (today : Date) (s : Text) : Rewritten :=
  let m := metadata today s
  let b := (removeAll names (body s)).removeAll (Command.reader "maketitle")
  let markup := Page.fill Page.article
    (("has_title", .bool m.isTitled) :: ("body", .str (Text.strip b)) :: m.fields)
  { markup, metadata := m }

end Article

end Galley
