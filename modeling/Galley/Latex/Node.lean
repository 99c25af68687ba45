import Galley.Markup.Group
/-!
# The markup tree

Reduced markup as a tree of text, commands, groups and environments. Every node
knows the source it was read from, so a tree can be written back.
-/

namespace Galley.Latex

inductive Node where
  | chars (t : Text)
  /-- A tie, dash, quotation mark or column separator. -/
  | special (t : Text)
  | comment (source : Text)
  /-- A formula with its delimiters. -/
  | math (source : Text)
  /-- A command with its mandatory arguments. -/
  | command (name : Text) (starred : Bool) (args : List Node) (source : Text)
  | group (nodes : List Node) (source : Text)
  | environment (name : Text) (nodes : List Node) (source : Text)

namespace Node

def source : Node → Text
  | chars t | special t => t
  | comment s | math s | command _ _ _ s | group _ s | environment _ _ s => s

def isBlankText : Node → Bool
  | chars t => t.all isBlank
  | _ => false

/-- The source inside of a group, or of the node itself. -/
def plain : Node → Text
  | group nodes _ => Text.strip (nodes.flatMap source)
  | n => Text.strip n.source

end Node

/-! ## What commands take -/

/-- A place in the signature of a command. -/
inductive Slot where
  | star | option | argument
  deriving DecidableEq, Repr

def headingNames : List Text :=
  ["part", "chapter", "section", "subsection", "subsubsection", "subparagraph"]

def loadingNames : List Text := ["documentclass", "usepackage", "footnote"]

def wordNames : List Text :=
  ["title", "author", "date", "label", "emph", "textbf", "textit", "textsl", "textrm", "textsf",
    "textsc", "texttt", "textup", "text", "mbox", "underline", "url"]

def accentNames : List Text := [['\''], ['\x60'], ['^'], ['"'], ['~'], ['='], ['.']]

/-- What the reader looks for behind a command. -/
def signature (name : Text) : List Slot :=
  if headingNames.contains name then [.star, .option, .argument]
  else if loadingNames.contains name then [.option, .argument]
  else if name = "textcolor" then [.option, .argument, .argument]
  else if name = ['\\'] then [.star, .option]
  else if wordNames.contains name || accentNames.contains name then [.argument]
  else []

/-- Environments that take an option. -/
def floatNames : List Text := ["figure", "figure*"]

def singleNames : List Text :=
  ["paragraph", "textsuperscript", "textsubscript", "textnormal", "caption"]

/-- How many arguments a command needs; those that the reader did not find are taken from the groups
    behind the command. -/
def arity (name : Text) : Nat :=
  if name = "href" || name = "textcolor" then 2
  else if headingNames.contains name || loadingNames.contains name || wordNames.contains name ||
    singleNames.contains name then 1
  else 0

/-! ## Arguments behind a command -/

/-- Takes up to `needed` groups from the head of a list, and the white space between them: the groups,
    their source and what is left. -/
def borrow : (needed : Nat) → List Node → List Node × Text × List Node
  | 0, ns => ([], [], ns)
  | n + 1, ns =>
    match ns.dropWhile Node.isBlankText with
    | .group nodes source :: rest =>
      let blanks := (ns.takeWhile Node.isBlankText).flatMap Node.source
      let (groups, more, rest) := borrow n rest
      (.group nodes source :: groups, blanks ++ source ++ more, rest)
    | _ => ([], [], ns)

/-- Puts a node in front of a list in which every command has its arguments. -/
def place (n : Node) (rest : List Node) : List Node :=
  match n with
  | .command name starred args source =>
    let (groups, more, rest) := borrow (arity name - args.length) rest
    .command name starred (args ++ groups) (source ++ more) :: rest
  | n => n :: rest

end Galley.Latex
