import Galley.Markup.Environment
import Galley.Notice
/-!
# Repairs before reading

Generated documents have recurring defects that are mended before anything is
read: code fences around the document, a literal `\n` for a line end, section
headings that announce a bibliography, formulas broken in pieces, doubled
dollars, stranded subscripts, and commands that read files or run code. Code
shown literally is set aside first and comes back untouched.
-/

namespace Galley.Repair

/-! ## Fences -/

def fence : Text := "\x60\x60\x60"

/-- The text behind an opening fence with an optional language. -/
def afterOpeningFence? (s : Text) : Option Text := do
  let s ← Text.after? fence (s.dropWhile isBlank)
  let s := (Text.afterCaseless? "latex" s <|> Text.afterCaseless? "tex" s).getD s
  match s.dropWhile isSpaceTab with
  | '\n' :: s => some s
  | s => some s

/-- A closing fence with nothing but white space behind it. -/
def closingFence : Reader Unit := fun _ s => do
  let rest ← Text.after? fence (match s with
    | '\n' :: s => s
    | s => s)
  if rest.all isBlank then some ((), []) else none

def stripFences (s : Text) : Text :=
  let s := (afterOpeningFence? s).getD s
  match s.find? closingFence with
  | some f => f.before
  | none => s

/-! ## Code set aside -/

def verbatimNames : List Text := ["verbatim", "verbatim*", "Verbatim", "lstlisting", "minted"]

/-- Whether a character can delimit inline code. -/
def isVerbDelimiter (c : Char) : Bool := !(isAsciiLetter c || isBlank c || c = '*')

/-- Inline code behind its command: the delimiter, the code up to the same delimiter on the line,
    and what follows. -/
def delimited? : Text → Option (Text × Text)
  | d :: s =>
    if isVerbDelimiter d then
      let (code, rest) := s.span fun c => !(c = d || c = '\n')
      match rest with
      | c :: rest => if c = d then some (code, rest) else none
      | [] => none
    else none
  | [] => none

/-- A code environment or inline code. -/
def verbatim : Reader Unit := fun _ s =>
  match verbatimNames.findSome? fun name => (Marker.after? "begin" name s).map (name, ·) with
  | some (name, rest) => (rest.find? (Marker.ends name)).map fun f => ((), f.after)
  | none => do
    let s ← Text.after? "\\verb" s
    let s := (Text.after? "*" s).getD s
    let (_, rest) ← delimited? s
    some ((), rest)

def nul : Char := Char.ofNat 0

def shelterMark (n : Nat) : Text := [nul] ++ Text.ofNat n ++ [nul]

def shelterReader : Reader Nat
  | _, c :: s =>
    if c = nul then
      let (digits, rest) := s.span isDecimalDigit
      match rest with
      | d :: rest => if d = nul && !digits.isEmpty then some (Text.digitsValue digits, rest) else none
      | [] => none
    else none
  | _, [] => none

/-- Puts numbered marks in the places of code; `n` pieces are set aside already. -/
def shelterPieces : (n : Nat) → List (Piece Unit) → Text × List Text
  | _, [] => ([], [])
  | n, .char c :: ps =>
    let (s, codes) := shelterPieces n ps
    (c :: s, codes)
  | n, .hit _ source :: ps =>
    let (s, codes) := shelterPieces (n + 1) ps
    (shelterMark n ++ s, source :: codes)

/-- The text with marks for its code, and the code. -/
def shelter (s : Text) : Text × List Text := shelterPieces 0 (Text.cut verbatim (s.filter (· ≠ nul)))

def unshelter (codes : List Text) (s : Text) : Text :=
  s.replaceAll shelterReader fun n => codes[n]?.getD []

/-! ## Line ends and headings -/

/-- Names of commands that begin with n, without it. -/
def commandsWithN : List Text :=
  texts ["ewline", "ewpage", "oindent", "ewtheorem", "ewcommand", "ewenvironment", "ewcolumntype",
    "ewblock", "ode", "abla", "eq", "eg", "u", "ot", "otin", "ormalsize", "olimits", "onumber",
    "otag", "icefrac", "i", "mid", "leq", "geq", "atural", "earrow", "warrow", "ocite", "obreak"]

def startsNCommand (s : Text) : Bool :=
  commandsWithN.any fun name =>
    match Text.after? name s with
    | some (c :: _) => !isAsciiLetter c
    | some [] => true
    | none => false

/-- A backslash and an n that begin no command. -/
def literalLineEnd : Reader Unit
  | before, '\\' :: 'n' :: s =>
    if before = some '\\' || startsNCommand s then none else some ((), s)
  | _, _ => none

def ghostTitle? (s : Text) : Option Text :=
  Text.afterCaseless? "references" s <|> Text.afterCaseless? "bibliography" s <|> do
    let s ← Text.afterCaseless? "works" s
    match s with
    | c :: _ => if isBlank c then Text.afterCaseless? "cited" (s.dropWhile isBlank) else none
    | [] => none

/-- A section heading that announces a bibliography. -/
def ghostHeader : Reader Unit := fun _ s => do
  let s ← Text.after? "\\" s
  let s := (Text.afterCaseless? "sub" s).getD s
  let s ← Text.afterCaseless? "section" s
  let s := (Text.after? "*" s).getD s
  let s ← Text.after? "\x7b" (s.dropWhile isBlank)
  let s ← ghostTitle? (s.dropWhile isBlank)
  let s ← Text.after? "\x7d" (s.dropWhile isBlank)
  some ((), s)

/-! ## Broken formulas -/

/-- A formula between dollars on one line: its content. -/
def dollars? : Text → Option (Text × Text)
  | '$' :: s =>
    let (inside, rest) := s.span fun c => !(c = '$' || c = '\n')
    match rest with
    | '$' :: rest => if inside.isEmpty then none else some (inside, rest)
    | _ => none
  | _ => none

/-- A chain `$a$ = $b$ + rest` to the end of the line. -/
def chain : Reader (Text × Text × Text) := fun _ s => do
  let (left, s) ← dollars? s
  let s ← Text.after? "=" (s.dropWhile isSpaceTab)
  let (right, s) ← dollars? (s.dropWhile isSpaceTab)
  let s ← Text.after? "+" (s.dropWhile isSpaceTab)
  let (rest, s) := (s.dropWhile isSpaceTab).span (· ≠ '\n')
  some ((left, right, rest), s)

/-- A chain becomes one display formula if its rest looks like one. -/
def mergeChain (s : Text) : Text :=
  (s.cut chain).flatMap fun
    | .hit (left, right, rest) source =>
      if rest.any fun c => c = '\\' || c = '_' || c = '^' then
        "$$ " ++ left ++ " = " ++ right ++ " + " ++ Text.strip rest ++ " $$"
      else source
    | p => p.source

/-- Two formulas with an operator between. -/
def pair : Reader (Text × Char × Text) := fun before s =>
  if before = some '$' then none
  else do
    let (left, s) ← dollars? s
    match s.dropWhile isSpaceTab with
    | op :: s =>
      if op = '=' || op = '+' || op = '-' then do
        let (right, s) ← dollars? (s.dropWhile isSpaceTab)
        if s.head? = some '$' then none else some ((left, op, right), s)
      else none
    | [] => none

def mergePairs (s : Text) : Text :=
  s.replaceAll pair fun (left, op, right) => "$" ++ left ++ " " ++ [op] ++ " " ++ right ++ "$"

def dollar : Reader Unit
  | some '\\', _ => none
  | _, '$' :: s => some ((), s)
  | _, _ => none

/-- What stands between a delimiter and its partner. -/
def between (opening closing : Text) : Reader Text := fun _ s => do
  let s ← Text.after? opening s
  Text.splitAtFirst closing s

/-- Takes unescaped dollars out of what stands between two delimiters. -/
def dropDollars (opening closing s : Text) : Text :=
  s.replaceAll (between opening closing) fun inside => opening ++ inside.removeAll dollar ++ closing

def isAlphanumeric (c : Char) : Bool := isAsciiLetter c || c.isDigit

/-- A formula with a subscript stranded behind it. -/
def strandedSubscript : Reader (Text × Text) := fun _ s => do
  let (formula, s) ← dollars? s
  let s ← Text.after? "_" s
  let (script, s) := s.span isAlphanumeric
  if script.isEmpty then none else some ((formula, script), s)

def strandedGroup : Reader (Text × Text) := fun _ s => do
  let (formula, s) ← dollars? s
  let s ← Text.after? "_" s
  let s ← Text.after? "\x7b" (s.dropWhile isBlank)
  let (script, s) ← Text.closedBy '}' s
  if script.isEmpty then none else some ((formula, script), s)

def joinSubscript : Text × Text → Text
  | (formula, script) => "$" ++ formula ++ "_\x7b" ++ script ++ "\x7d$"

/-! ## Unsafe commands -/

/-- A command with a braced argument right behind it. -/
def braced (command : Text) : Reader Unit := fun _ s => do
  let s ← Text.afterCaseless? command s
  let s ← Text.after? "\x7b" (s.dropWhile isBlank)
  let (_, s) ← Text.closedBy '}' s
  some ((), s)

def shellEscape : Reader Unit := fun before s =>
  match Text.afterCaseless? "\\immediate" s with
  | some rest => braced "\\write18" before (rest.dropWhile isBlank)
  | none => braced "\\write18" before s

/-- A command that opens a stream: stream number, equals sign and file name, as far as they are
    there. -/
def stream (command : Text) : Reader Unit := fun _ s => do
  let s ← Text.afterCaseless? command s
  let s := (s.dropWhile isBlank).dropWhile isDecimalDigit
  let s := s.dropWhile isBlank
  let s := (Text.after? "=" s).getD s
  some ((), (s.dropWhile isBlank).dropWhile fun c => !(isBlank c || c = '\\'))

def catcode : Reader Unit := fun _ s => do
  let s ← Text.afterCaseless? "\\catcode" s
  match s.dropWhile isBlank with
  | c :: s =>
    if c = Char.ofNat 96 || c = '\'' || isDecimalDigit c then some ((), s.dropWhile (· ≠ '\n')) else none
  | [] => none

/-- Commands that read files or run code, with what each does. -/
def unsafeCommands : List (Text × Reader Unit) :=
  [("shell escape", shellEscape), ("file input", braced "\\input"),
    ("file input", braced "\\include"), ("file read", stream "\\openin"),
    ("file write", stream "\\openout"), ("code execution", braced "\\directlua"),
    ("catcode manipulation", catcode)]

/-- The sources of all constructs in a text. -/
def sources (read : Reader Unit) (s : Text) : List Text :=
  (s.cut read).filterMap fun
    | .hit _ source => some source
    | .char _ => none

/-- A repaired document. -/
structure Repaired where
  content : Text
  warnings : List Text := []
  removed : List Text := []

def dropUnsafe (s : Text) : Repaired :=
  unsafeCommands.foldl (fun r (what, read) =>
    match sources read r.content with
    | [] => r
    | found =>
      { content := r.content.removeAll read
        warnings := r.warnings ++ ["Removed " ++ what ++ " command"]
        removed := r.removed ++ found }) { content := s }

/-! ## All repairs -/

/-- The repairs of text that holds no code. -/
def mend (s : Text) : Repaired :=
  let s := s.replaceAll literalLineEnd fun _ => ['\n']
  let s := s.removeAll ghostHeader
  let s := mergePairs (mergeChain s)
  let s := dropDollars "\\[" "\\]" s
  let s := dropDollars "\\(" "\\)" s
  let s := s.replaceAll strandedSubscript joinSubscript
  let s := s.replaceAll strandedGroup joinSubscript
  dropUnsafe s

def repair (s : Text) : Repaired :=
  if s.isEmpty then { content := s }
  else
    let (marked, codes) := shelter (stripFences s)
    let r := mend marked
    { r with content := unshelter codes r.content }

/-- The notice that a repair gives. -/
def Repaired.notices (r : Repaired) : List Notice :=
  if r.removed.isEmpty then [] else [.unsafeRemoved r.removed]

end Galley.Repair
