import Galley.Extract.Bench
import Galley.Markup.Environment
/-!
# Bibliographies

The entries of all bibliographies are numbered by key in the order of their
first appearance; then every citation becomes a bracket with the numbers of its
keys. Numbering comes first, so a citation may stand before its entry.
-/

namespace Galley.Bibliography

/-- A key without the white space around it and with plain underscores. -/
def cleanKey (key : Text) : Text := (Text.strip key).replace "\\_" "_"

/-! ## Entries -/

def braced? (s : Text) : Option (Text × Text) := do
  let s ← Text.after? "\x7b" s
  Text.closedBy '}' s

/-- The command that begins an entry: its key. -/
def entryStart : Reader Text := fun _ s => do
  let s ← Text.after? "\\bibitem" s
  braced? ((Text.skipEnclosed '[' ']' (s.dropWhile isBlank)).dropWhile isBlank)

def entryBreak : Reader Unit := Formula.wholeWord ["newblock"]

/-- Keys with the text that follows each up to the next. -/
def entriesFrom : (key : Option Text) → List (Piece Text) → List (Text × Text)
  | none, [] => []
  | some k, [] => [(k, [])]
  | none, .char _ :: ps => entriesFrom none ps
  | some k, .char c :: ps =>
    match entriesFrom (some k) ps with
    | (k', t) :: es => (k', c :: t) :: es
    | [] => []
  | none, .hit k _ :: ps => entriesFrom (some k) ps
  | some k, .hit k' _ :: ps => (k, []) :: entriesFrom (some k') ps

/-- The entries of a bibliography body: normalised keys and collapsed texts. -/
def entries (body : Text) : List (Text × Text) :=
  (entriesFrom none (body.cut entryStart)).map fun (key, text) =>
    (cleanKey key, (text.replaceAll entryBreak fun _ => " ").collapse)

/-! ## Citing commands -/

def citingNames : List Text :=
  ["cite", "citep", "citet", "citealp", "citealt", "citeauthor", "citeyear", "parencite",
    "textcite", "autocite"]

/-- A citing command: its keys. -/
def citation : Reader (List Text) := fun _ s =>
  citingNames.findSome? fun name => do
    let s ← Text.after? ('\\' :: name) s
    let s := ((Text.after? "*" s).getD s).dropWhile isBlank
    let s := (Text.skipEnclosed '[' ']' s).dropWhile isBlank
    let s := (Text.skipEnclosed '[' ']' s).dropWhile isBlank
    let (keys, s) ← braced? s
    some (Text.splitOnChar ',' keys, s)

/-- A made-up reference `ref1`, `ref_1` or `ref\_1` in any letter case. -/
def loose? (s : Text) : Option Text := do
  let s ← Text.afterCaseless? "ref" s
  let s := (Text.after? "\\" s).getD s
  let s := (Text.after? "_" s).getD s
  let (digits, rest) := s.span isDecimalDigit
  if digits.isEmpty then none else some rest

/-- More loose references, each behind a comma. -/
def moreLoose : (fuel : Nat) → Text → Text
  | 0, s => s
  | n + 1, s =>
    match Text.after? "," (s.dropWhile isBlank) with
    | some rest =>
      match loose? (rest.dropWhile isBlank) with
      | some rest => moreLoose n rest
      | none => s
    | none => s

/-- Loose references in parentheses: their keys. -/
def looseGroup : Reader (List Text) := fun _ s => do
  let s ← Text.after? "(" s
  let inside := s.dropWhile isBlank
  let rest ← loose? inside
  let rest := moreLoose s.length rest
  let after ← Text.after? ")" (rest.dropWhile isBlank)
  some (Text.splitOnChar ',' (Text.upTo inside rest), after)

/-- A reference command whose label is a loose reference: the label. -/
def looseCommand : Reader (List Text) := fun _ s => do
  let s ← Text.afterCaseless? "\\ref" s
  let inside ← Text.after? "\x7b" (s.dropWhile isBlank)
  let rest ← Text.afterCaseless? "ref_" inside
  let (digits, rest) := rest.span isDecimalDigit
  if digits.isEmpty then none
  else do
    let after ← Text.after? "\x7d" rest
    some ([Text.upTo inside rest], after)

/-! ## Numbering -/

/-- The number of each key. -/
abbrev Numbering := List (Text × Nat)

/-- The numbers of known keys, and the unknown keys, of one citation. -/
def resolveKeys (numbering : Numbering) (keys : List Text) : List Nat × List Text :=
  let keys := (keys.map cleanKey).filter (!·.isEmpty)
  (keys.filterMap (numbering.lookup ·), keys.filter fun k => (numbering.lookup k).isNone)

/-- A bracket with the distinct numbers in order, and a question mark for each unknown key or for
    a citation without keys. -/
def label (numbers : List Nat) (unknown : Nat) : Text :=
  let parts := (numbers.eraseDups.mergeSort (· ≤ ·)).map Text.ofNat ++ List.replicate unknown ['?']
  "[" ++ Text.joinWith ", " (if parts.isEmpty then [['?']] else parts) ++ "]"

def citationLabel (numbering : Numbering) (keys : List Text) : Text :=
  let (numbers, unknown) := resolveKeys numbering keys
  label numbers unknown.length

/-- Rewrites one kind of citation; gives the unknown keys too. -/
def rewrite (numbering : Numbering) (read : Reader (List Text)) (s : Text) : Text × List Text :=
  (s.replaceAll read (citationLabel numbering),
    (s.readAll read).flatMap fun keys => (resolveKeys numbering keys).2)

/-! ## Resolution -/

structure Resolved where
  markup : Text
  bibliography : Option Text := none
  numbering : Numbering := []
  unresolved : List Text := []

/-- Commands that name a bibliography file or style. -/
def bibliographyCommand : Reader Unit := fun _ s =>
  (texts ["\\bibliography", "\\bibliographystyle", "\\nocite"]).findSome? fun name => do
    let s ← Text.after? name s
    let (_, s) ← braced? (s.dropWhile isBlank)
    some ((), s)

/-- Adds an entry unless its key has one. -/
def addEntry (numbered : List (Text × Nat × Text)) (key html : Text) : List (Text × Nat × Text) :=
  if (numbered.lookup key).isSome then numbered
  else numbered ++ [(key, numbered.length + 1, html)]

/-- Formats the entries of one bibliography and adds those with new keys. -/
def collect (kit : Kit) (numbered : List (Text × Nat × Text)) (body : Text) :
    Bench (List (Text × Nat × Text)) := do
  let formatted ← (entries body).mapM fun (key, text) => do
    let html ← if text.isEmpty then pure (Html.escapeQuoted key) else Bench.inline kit text
    pure (key, html)
  pure (formatted.foldl (fun numbered (key, html) => addEntry numbered key html) numbered)

/-- Takes all closed bibliographies out; each one leaves a shorter text. -/
def collectAll (kit : Kit) (numbered : List (Text × Nat × Text)) (s : Text) :
    (fuel : Nat) → Bench (List (Text × Nat × Text) × Text)
  | 0 => pure (numbered, s)
  | n + 1 => do
    match Environment.find "thebibliography" s with
    | .error _ => do
      Bench.notify .bibliographyUnclosed
      pure (numbered, s)
    | .ok none => pure (numbered, s)
    | .ok (some e) => do
      let numbered ← collect kit numbered e.body
      collectAll kit numbered (e.before ++ e.after) n

def bibliographyItem : Text × Nat × Text → Text
  | (_, number, html) =>
    "<li><span class=\"bib-label\">[" ++ Text.ofNat number ++ "]</span> " ++ html ++ "</li>"

def bibliographyMarkup (numbered : List (Text × Nat × Text)) : Text :=
  "<div class=\"bibliography\"><h2>References</h2><ul class=\"bib-list\">" ++
    numbered.flatMap bibliographyItem ++ "</ul></div>"

/-- Numbers the entries and rewrites the citations; with a table, the fragments of the tokens in
    the bibliography are taken out of it. -/
def resolve (kit : Kit) (markup : Text) (absorb : Bool := true) : Bench Resolved := do
  let (numbered, rest) ← collectAll kit [] markup (markup.length + 1)
  let numbering := numbered.map fun (key, number, _) => (key, number)
  let rest := rest.removeAll bibliographyCommand
  let (rest, a) := rewrite numbering citation rest
  let (rest, b) := rewrite numbering looseGroup rest
  let (rest, c) := rewrite numbering looseCommand rest
  let bibliography ← do
    if numbered.isEmpty then pure none
    else if absorb then
      let state ← get
      let (html, table) := state.table.absorb (bibliographyMarkup numbered)
      set { state with table }
      pure (some html)
    else pure (some (bibliographyMarkup numbered))
  pure { markup := rest, bibliography, numbering, unresolved := a ++ b ++ c }

end Galley.Bibliography
