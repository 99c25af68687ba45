import Galley.Fault
import Galley.Markup.Command
import Galley.Text.Case
/-!
# Pseudocode

The commands of both pseudocode dialects, which differ in letter case only. Each
command begins a line; a command that opens a block indents the lines behind it
and the one that closes the block takes the indentation back.
-/

namespace Galley.Pseudocode

inductive Keyword where
  | state | statex | require | ensure | returns | print
  | ifCond | elseIf | elseBlock | endIf
  | forLoop | forAll | endFor
  | whileLoop | endWhile
  | repeatLoop | untilCond
  | loop | endLoop
  | function | procedure | endFunction | endProcedure
  deriving DecidableEq, Repr

namespace Keyword

/-- The command's name in lower case. -/
def name : Keyword → Text
  | state => "state"
  | statex => "statex"
  | require => "require"
  | ensure => "ensure"
  | returns => "return"
  | print => "print"
  | ifCond => "if"
  | elseIf => "elsif"
  | elseBlock => "else"
  | endIf => "endif"
  | forLoop => "for"
  | forAll => "forall"
  | endFor => "endfor"
  | whileLoop => "while"
  | endWhile => "endwhile"
  | repeatLoop => "repeat"
  | untilCond => "until"
  | loop => "loop"
  | endLoop => "endloop"
  | function => "function"
  | procedure => "procedure"
  | endFunction => "endfunction"
  | endProcedure => "endprocedure"

def all : List Keyword :=
  [state, statex, require, ensure, returns, print, ifCond, elseIf, elseBlock, endIf, forLoop, forAll,
    endFor, whileLoop, endWhile, repeatLoop, untilCond, loop, endLoop, function, procedure,
    endFunction, endProcedure]

def ofName? (t : Text) : Option Keyword := all.find? (·.name = t)

/-- How many brace arguments it takes. -/
def argumentCount : Keyword → Nat
  | ifCond | elseIf | forLoop | forAll | whileLoop | untilCond => 1
  | function | procedure => 2
  | _ => 0

/-- Whether the lines behind it are indented further. -/
def opens : Keyword → Bool
  | ifCond | elseIf | elseBlock | forLoop | forAll | whileLoop | repeatLoop | loop | function
  | procedure => true
  | _ => false

/-- Whether it ends a block. -/
def closes : Keyword → Bool
  | elseIf | elseBlock | endIf | endFor | endWhile | untilCond | endLoop | endFunction
  | endProcedure => true
  | _ => false

/-- Whether its line is the text behind it, with at most a word in front. -/
def isStatement : Keyword → Bool
  | state | statex | require | ensure | returns | print => true
  | _ => false

end Keyword

/-! ## Reading -/

/-- A letter in the caseless sense. -/
def isNameLetter (c : Char) : Bool := isAsciiLetter (foldChar c)

/-- A word behind a backslash that `known` accepts in caseless form: as it is written. -/
def caselessWord (known : Text → Bool) : Reader Text
  | _, '\\' :: s =>
    let word := s.takeWhile isNameLetter
    if known (word.map foldChar) then some (word, s.drop word.length) else none
  | _, _ => none

/-- Up to `n` brace groups in a row. -/
def upToArguments : (n : Nat) → Text → List Text × Text
  | 0, s => ([], s)
  | n + 1, s =>
    match Group.read? .brace s with
    | some (inside, rest) =>
      let (more, rest) := upToArguments n rest
      (inside :: more, rest)
    | none => ([], s)

/-- A command as it stands in the source: its keyword with its arguments, or its lower-case name
    if that is no keyword. -/
abbrev Command := Except Text (Keyword × List Text)

def commandReader : Reader Command := fun before s => do
  let (word, rest) ← caselessWord (fun w => (Keyword.ofName? w).isSome) before s
  match Keyword.ofName? (Text.lower word) with
  | some k =>
    let (args, rest) := upToArguments k.argumentCount rest
    some (.ok (k, args), rest)
  | none => some (.error (Text.lower word), rest)

/-- `\State` before `\Return`, which begins a line on its own. -/
def stateBeforeReturn : Reader Unit
  | _, '\\' :: s => do
    let s ← Text.afterCaseless? "state" s
    let s := s.dropWhile isBlank
    let (word, _) ← caselessWord (· = "return") none s
    if word.isEmpty then none else some ((), s)
  | _, _ => none

/-! ## Lines -/

/-- The level of a command's line and of the lines behind it, from the level before it. -/
def levels (k : Keyword) (level : Nat) : Nat × Nat :=
  let own := if k.closes then level - 1 else level
  (own, if k.opens then own + 1 else own)

/-- A line of pseudocode: its level, content, and whether it is numbered. -/
structure Line where
  level : Nat
  content : Text
  numbered : Bool

end Galley.Pseudocode
