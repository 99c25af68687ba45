import Galley.Decimal.Format
import Galley.Extract.Bench
import Galley.Markup.Environment
import Galley.Markup.Pseudocode
/-!
# Algorithms

Bodies of pseudocode become lists of lines first; then the floats around them,
which keep their caption and absorb the lists.
-/

namespace Galley.Extract.Algorithm

open Pseudocode

/-! ## Inline words -/

def inlineWords : List Text := ["to", "and", "or", "not", "true", "false", "downto"]

/-- A logical word with the white space behind it. -/
def inlineWord : Reader Text := fun before s => do
  let (word, rest) ← caselessWord (inlineWords.contains ·) before s
  some (word, rest.dropWhile isBlank)

/-- A call: name and arguments. -/
def call : Reader (Text × Text) := fun _ s => do
  let s ← Text.after? "\\Call" s <|> Text.after? "\\CALL" s
  let s ← Text.after? "\x7b" (s.dropWhile isBlank)
  let (name, s) ← Text.closedBy '}' s
  let s ← Text.after? "\x7b" (s.dropWhile isBlank)
  let (args, s) ← Text.closedBy '}' s
  some ((name, args), s)

/-- Makes logical words bold and calls small capitals. -/
def expand (s : Text) : Except Fault Text := do
  let s ← s.replaceAllM inlineWord fun word =>
    let lowered := Text.lower word
    if inlineWords.contains lowered then .ok ("\\textbf\x7b" ++ lowered ++ "\x7d ")
    else .error (.unknownCommand lowered)
  pure (Text.replaceAll call (fun (name, args) => "\\textsc\x7b" ++ name ++ "\x7d(" ++ args ++ ")") s)

def format (kit : Kit) (s : Text) : Bench Text := do
  match expand s with
  | .ok s => Bench.inline kit (Text.strip s)
  | .error e => throw e

/-! ## Lines -/

/-- A keyword as it is shown. -/
def shown (word : Text) : Text := "<span class=\"latex-alg-keyword\">" ++ word ++ "</span>"

/-- The first comment of a line, taken out of its text. -/
def cutAtComment (s : Text) : Text × Option Text :=
  match s.find? (Command.readerOf ["Comment", "COMMENT"]) with
  | none => (s, none)
  | some f =>
    match Group.read? .brace f.after with
    | some (inside, rest) => (f.before ++ rest, some (Text.strip inside))
    | none => (s, none)

/-- A line without the text behind its command: `rest` is that text, `cond` and `params` the
    arguments. -/
def lineHead (k : Keyword) (rest cond params : Text) : Text :=
  match k with
  | .state | .statex => rest
  | .require => shown "Require:" ++ " " ++ rest
  | .ensure => shown "Ensure:" ++ " " ++ rest
  | .returns | .print => shown k.name ++ " " ++ rest
  | .ifCond => shown "if" ++ " " ++ cond ++ " " ++ shown "then"
  | .elseIf => shown "else if" ++ " " ++ cond ++ " " ++ shown "then"
  | .elseBlock => shown "else"
  | .forLoop => shown "for" ++ " " ++ cond ++ " " ++ shown "do"
  | .forAll => shown "for all" ++ " " ++ cond ++ " " ++ shown "do"
  | .whileLoop => shown "while" ++ " " ++ cond ++ " " ++ shown "do"
  | .untilCond => shown "until" ++ " " ++ cond
  | .repeatLoop | .loop => shown k.name
  | .function | .procedure =>
    shown k.name ++ " <span style=\"font-variant: small-caps;\">" ++ cond ++ "</span>(" ++ params ++ ")"
  | .endIf | .endFor | .endWhile | .endLoop | .endFunction | .endProcedure =>
    shown ("end " ++ k.name.drop 3)

def lineContent (kit : Kit) (k : Keyword) (args : List Text) (s : Text) : Bench Text := do
  let (s, comment) := cutAtComment s
  let rest ← format kit (Text.strip s)
  let cond ← match args with
    | a :: _ => format kit (Text.strip a)
    | [] => pure []
  let params ← match k, args with
    | .function, _ :: p :: _ => format kit (Text.strip p)
    | .procedure, _ :: p :: _ => format kit (Text.strip p)
    | _, _ => pure []
  let line := lineHead k rest cond params
  let line := if k.isStatement || rest.isEmpty then line else line ++ " " ++ rest
  match comment with
  | some c => do
    let c ← format kit c
    pure (Text.strip (line ++ " <span class=\"latex-alg-comment\">&#9655; " ++ c ++ "</span>"))
  | none => pure (Text.strip line)

/-- The lines of commands with the texts behind them, from a level on. -/
def lines (kit : Kit) : (level : Nat) → List (Pseudocode.Command × Text) → Bench (List Line)
  | _, [] => pure []
  | _, (.error name, _) :: _ => throw (.unknownCommand name)
  | level, (.ok (k, args), s) :: more => do
    let (own, next) := levels k level
    let content ← lineContent kit k args s
    let line : Line := ⟨own, content, k ≠ .statex⟩
    pure (line :: (← lines kit next more))

/-- A line as a list item, indented one and a half em per level. -/
def lineMarkup (line : Line) : Text :=
  "<li style=\"padding-left: " ++ Decimal.general (line.level.toFloat * 1.5) ++ "em;" ++
    (if line.numbered then [] else " list-style: none;".toList) ++ "\">" ++ line.content ++ "</li>"

/-- Drops a bracket option at the beginning. -/
def dropOption (s : Text) : Text :=
  match Group.read? .bracket s with
  | some (_, rest) => rest
  | none => s

/-- The commands of a body with the texts behind them. -/
def commandsOf (body : Text) : List (Pseudocode.Command × Text) :=
  (Text.sections (Text.cut commandReader (Text.removeAll stateBeforeReturn (dropOption body)))).2

def bodyFragment (kit : Kit) (body : Text) : Bench Text := do
  let ls ← lines kit 0 (commandsOf body)
  pure ("<ol class=\"latex-algorithmic\">" ++ ls.flatMap lineMarkup ++ "</ol>")

/-! ## Floats -/

/-- The caption of a float, and the body without it. -/
def takeCaption (body : Text) : Option Text × Text :=
  let found := do
    let f ← body.find? fun _ s => (Command.starred? "caption" s).map ((), ·)
    let (args, rest) ← Arguments.read? 1 true f.after
    some (some args.first, f.before ++ rest)
  found.getD (none, body)

def floatFragment (kit : Kit) (body : Text) : Bench Text := do
  let (caption, body) := takeCaption body
  let caption ← match caption with
    | some c => do
      let n ← Bench.nextAlgorithm
      pure ("<div class=\"algorithm-caption\"><strong>Algorithm " ++ Text.ofNat n ++ ":</strong> " ++
        (← Bench.inline kit (Text.strip c)) ++ "</div>")
    | none => pure []
  let body := dropOption (body.removeAll (Command.simpleArgument "label"))
  pure ("<div class=\"algorithm-wrapper\">" ++ caption ++ (← Bench.paragraphs kit body) ++ "</div>")

/-! ## Extraction -/

def environments (kit : Kit) (name : Text) (render : Text → Bench Text) (s : Text) : Bench Text :=
  Bench.rounds name kit.settings.environmentIterationCap (fun s => do
    match Environment.find name s with
    | .error _ => do
      Bench.notify (.algorithmUnclosed name)
      pure none
    | .ok none => pure none
    | .ok (some e) => do
      let token ← Bench.register .algo (← render e.body)
      pure (some (e.replaceBy token))) s

def extract (kit : Kit) (s : Text) : Bench Text := do
  let s ← environments kit "algorithmic" (bodyFragment kit) s
  let s ← environments kit "algorithm" (floatFragment kit) s
  environments kit "algorithm*" (floatFragment kit) s

end Galley.Extract.Algorithm
