import Galley.Latex.Node
import Galley.Text.Letter
/-!
# Tokens of the markup

White space belongs to the token behind it. A blank line is a token of its own,
so it ends the white space after a command. A comment takes the line end and the
blanks of the next line along, unless the next line is blank.
-/

namespace Galley.Latex

inductive Token where
  | chars (t : Text)
  /-- A command; white space behind a name of letters belongs to it. -/
  | command (name : Text)
  | begins (name : Text)
  | ends (name : Text)
  | opens (d : Delimiter)
  | closes (d : Delimiter)
  /-- A delimiter of formulas. -/
  | math (delimiter : Text)
  | special (t : Text)
  | comment
  deriving DecidableEq

namespace Token

/-- White space up to a blank line or the next token. -/
def splitSpace : Text → Text × Text
  | [] => ([], [])
  | c :: s =>
    if c = '\n' && s.head? = some '\n' then ([], c :: s)
    else if isBlank c then
      let (space, rest) := splitSpace s
      (c :: space, rest)
    else ([], c :: s)

def isNameChar (c : Char) : Bool := isWordChar c || c = '*' || c = '.' || c = '-'

/-- The braced name of an environment. -/
def environmentName? (s : Text) : Option (Text × Text) := do
  let s ← Text.after? "\x7b" (s.dropWhile isBlank)
  let (name, rest) := s.span isNameChar
  if name.isEmpty then none
  let rest ← Text.after? "\x7d" rest
  some (name, rest)

/-- The token that a backslash begins, given what follows the backslash. -/
def ofCommand (environments : Bool) (c : Char) (s : Text) : Token × Text :=
  if isLetter c then
    let name := c :: s.takeWhile isLetter
    let rest := s.dropWhile isLetter
    let plain := (.command name, (splitSpace rest).2)
    if environments && (name = "begin" || name = "end") then
      match environmentName? rest with
      | some (inside, rest) => (if name = "begin" then .begins inside else .ends inside, rest)
      | none => plain
    else plain
  else if c = '(' || c = ')' || c = '[' || c = ']' then (.math ['\\', c], s)
  else (.command [c], s)

/-- What follows a comment, given its text. -/
def afterComment (s : Text) : Text :=
  match s.dropWhile (· ≠ '\n') with
  | '\n' :: rest => if rest.head? = some '\n' then '\n' :: rest else rest.dropWhile isBlank
  | rest => rest

/-- Ties, dashes, quotation marks and column separators, longer ones first. -/
def specials : List Text := ["---", "--", "\x60\x60", "''", "~", "&"]

def special? (s : Text) : Option (Text × Text) :=
  specials.findSome? fun t => (Text.after? t s).map (t, ·)

/-- How a text is divided into tokens. -/
structure Mode where
  /-- Whether brackets delimit. -/
  brackets : Bool := false
  /-- Whether begin and end markers are recognised. -/
  environments : Bool := true
  /-- Whether two dollars in a row are two delimiters. -/
  singleDollars : Bool := false

/-- The token at the head of a text without white space in front. -/
def head? (m : Mode) : Text → Option (Token × Text)
  | [] => none
  | ['\\'] => none
  | '\\' :: c :: s => some (ofCommand m.environments c s)
  | '%' :: s => some (.comment, afterComment s)
  | '{' :: s => some (.opens .brace, s)
  | '}' :: s => some (.closes .brace, s)
  | '\n' :: '\n' :: s => some (.chars "\n\n", s)
  | '$' :: s =>
    match s with
    | '$' :: s' => if m.singleDollars then some (.math ['$'], s) else some (.math "$$", s')
    | s => some (.math ['$'], s)
  | c :: s =>
    if m.brackets && c = '[' then some (.opens .bracket, s)
    else if m.brackets && c = ']' then some (.closes .bracket, s)
    else match special? (c :: s) with
      | some (t, rest) => some (.special t, rest)
      | none => some (.chars [c], s)

/-- The next token, with the white space in front of it and what follows it. -/
def next? (m : Mode) (s : Text) : Option (Text × Token × Text) :=
  let (space, rest) := splitSpace s
  (head? m rest).map fun (t, rest) => (space, t, rest)

end Token

end Galley.Latex
