import Galley.Extract.Bench
import Galley.Markup.Environment
/-!
# Formulas

Structured environments first, then formulas between delimiters. A display
formula has lines of its own; an inline one stays in its sentence. A delimiter
whose backslash belongs to a row break before it is none, so the run of
backslashes in front decides.
-/

namespace Galley.Extract.Formula

/-! ## Delimiters -/

def slashes (s : Text) : Text := s.takeWhile (· = '\\')

/-- Up to a backslash and the closing character, where no backslash stands before them and at least
    one character does. -/
def untilCloser (closer : Char) : (before : Option Char) → Text → Option (Text × Text)
  | _, [] => none
  | before, c :: s =>
    if c = '\\' && s.head? = some closer && before ≠ none && before ≠ some '\\' then
      some ([], s.drop 1)
    else (untilCloser closer (some c) s).map fun (t, r) => (c :: t, r)

/-- A formula in `\[..\]` or `\(..\)` behind whole row breaks: the row breaks and the formula. -/
def slashDelimited (opener closer : Char) : Reader (Text × Text) := fun before s =>
  if before = some '\\' then none
  else
    let run := slashes s
    if run.length % 2 = 0 then none
    else match s.drop run.length with
      | c :: rest =>
        if c = opener then
          (untilCloser closer none rest).map fun (f, rest) => ((run.dropLast, f), rest)
        else none
      | [] => none

/-- Up to two dollars, escape pairs taken whole; at least one item comes first. -/
def untilDollars : (isFirst : Bool) → Text → Option (Text × Text)
  | _, [] => none
  | _, ['\\'] => none
  | _, '\\' :: c :: s => (untilDollars false s).map fun (t, r) => ('\\' :: c :: t, r)
  | true, c :: s => (untilDollars false s).map fun (t, r) => (c :: t, r)
  | false, ['$'] => none
  | false, '$' :: '$' :: s => some ([], s)
  | false, c :: s => (untilDollars false s).map fun (t, r) => (c :: t, r)

/-- A formula in `$$..$$` behind whole row breaks. -/
def doubleDollar : Reader (Text × Text) := fun before s =>
  if before = some '\\' then none
  else
    let run := slashes s
    if run.length % 2 = 1 then none
    else match s.drop run.length with
      | '$' :: '$' :: rest => (untilDollars true rest).map fun (f, rest) => ((run, f), rest)
      | _ => none

/-- Up to a dollar, escape pairs taken whole. A backslash at the end of a line is none. -/
def untilDollar : Text → Option (Text × Text)
  | [] => none
  | ['\\'] => none
  | '\\' :: '\n' :: _ => none
  | '\\' :: c :: s => (untilDollar s).map fun (t, r) => ('\\' :: c :: t, r)
  | c :: s => if c = '$' then some ([], s) else (untilDollar s).map fun (t, r) => (c :: t, r)

/-- A formula in `$..$` behind whole row breaks. -/
def singleDollar : Reader (Text × Text) := fun before s =>
  if before = some '\\' || before = some '$' then none
  else
    let run := slashes s
    if run.length % 2 = 1 then none
    else match s.drop run.length with
      | '$' :: rest => do
        let (f, rest) ← untilDollar rest
        if f.isEmpty then none else some ((run, f), rest)
      | _ => none

/-! ## Extraction -/

def display (kit : Kit) (source : Text) : Bench Text := do
  Bench.register .math (← Bench.math kit source .block)

def inline (kit : Kit) (source : Text) : Bench Text := do
  Bench.register .math (← Bench.math kit source .inline) false

/-- Takes out the structured environments `name`. -/
def environments (kit : Kit) (name s : Text) : Bench Text :=
  Bench.rounds name kit.settings.environmentIterationCap (fun s => do
    match Environment.find name s with
    | .error _ => do
      Bench.notify (.mathUnclosed name)
      pure none
    | .ok none => pure none
    | .ok (some e) => do pure (some (e.replaceBy (← display kit e.source)))) s

def environmentNames : List Text := Formula.structuredNames.flatMap fun base => [base, base ++ ['*']]

/-- Puts tokens in the places of delimited formulas, the row breaks before them kept. -/
def delimited (read : Reader (Text × Text)) (render : Text → Bench Text) (s : Text) : Bench Text :=
  s.replaceAllM read fun (breaks, f) => do pure (breaks ++ (← render f))

def extract (kit : Kit) (s : Text) : Bench Text := do
  let s ← environmentNames.foldlM (fun s name => environments kit name s) s
  let s ← delimited (slashDelimited '[' ']') (display kit) s
  let s ← delimited (slashDelimited '(' ')') (inline kit) s
  let s ← delimited doubleDollar (display kit) s
  delimited singleDollar (inline kit) s

end Galley.Extract.Formula
