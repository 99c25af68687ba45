import Galley.Extract.Bench
import Galley.Markup.Environment
/-!
# Quotes, alignment and theorems

Quoted, aligned and theorem-like environments and proofs, innermost first.
Kinds of theorems that the document declares count in addition to the built-in
ones, and each kind is numbered on its own.
-/

namespace Galley.Extract.Theorem

def builtinKinds : List (Text × Text) :=
  [("theorem", "Theorem"), ("lemma", "Lemma"), ("definition", "Definition"),
    ("corollary", "Corollary"), ("proposition", "Proposition"), ("remark", "Remark"),
    ("example", "Example")]

def quoteNames : List Text := ["quote", "quotation", "verse"]

def alignments : List (Text × Text) :=
  [("center", "center"), ("flushleft", "left"), ("flushright", "right")]

/-! ## Declared kinds -/

def nonemptyBraced? (s : Text) : Option (Text × Text) := do
  let s ← Text.after? "\x7b" s
  let (inside, s) ← Text.closedBy '}' s
  if inside.isEmpty then none else some (inside, s)

/-- A declaration of a kind: its name and title. -/
def declaration : Reader (Text × Text) := fun _ s => do
  let s ← Text.after? "\\newtheorem" s
  let s := (Text.after? "*" s).getD s
  let (name, s) ← nonemptyBraced? (s.dropWhile isBlank)
  let s := s.dropWhile isBlank
  let s := Text.skipEnclosed '[' ']' s
  let (title, s) ← nonemptyBraced? (s.dropWhile isBlank)
  some ((Text.strip name, Text.strip title), s)

/-- Kinds with titles; a declaration of a known kind changes its title. -/
def declare (kinds : List (Text × Text)) (d : Text × Text) : List (Text × Text) :=
  if (kinds.lookup d.1).isSome then kinds.map fun k => if k.1 = d.1 then d else k else kinds ++ [d]

def kindsOf (s : Text) : List (Text × Text) := (s.readAll declaration).foldl declare builtinKinds

/-- The names of all environments that are rendered here. -/
def namesOf (kinds : List (Text × Text)) : List Text :=
  quoteNames ++ alignments.map (·.1) ++ ["proof".toList] ++
    kinds.flatMap fun k => [k.1, k.1 ++ ['*']]

/-! ## Fragments -/

/-- The title in brackets at the beginning of a body, and the rest of the body. -/
def titleAhead (body : Text) : Option Text × Text :=
  match Group.read? .bracket body with
  | some (title, rest) => (some (Text.strip title), rest)
  | none => (none, body)

/-- Puts a head at the beginning of the first paragraph. -/
def withHead (head content : Text) : Text :=
  match Text.after? "<p>" content with
  | some rest => "<p>" ++ head ++ rest
  | none => "<p>" ++ head ++ "</p>" ++ content

def endOfProof : Text := "<span class=\"qed\" style=\"float: right;\">&#8718;</span>"

/-- Puts the end mark of a proof at the end of its last paragraph. -/
def withEnd (content : Text) : Text :=
  if content.endsWith "</p>" then content.dropRight 4 ++ endOfProof ++ "</p>"
  else content ++ endOfProof

def proofFragment (kit : Kit) (body : Text) : Bench Text := do
  let (title, body) := titleAhead body
  let title ← match title with
    | some (c :: t) => Bench.inline kit (c :: t)
    | _ => pure "Proof".toList
  let body ← Bench.paragraphs kit body
  pure ("<div class=\"latex-proof\">" ++ withEnd (withHead ("<em>" ++ title ++ ".</em> ") body) ++ "</div>")

/-- The characters of a name that a class name can hold. -/
def className (name : Text) : Text :=
  name.filter fun c => isAsciiLetter c || c.isDigit || c = '_' || c = '-'

def theoremFragment (kit : Kit) (kinds : List (Text × Text)) (name body : Text) : Bench Text := do
  let (title, body) := titleAhead body
  let base := Text.dropWhileRight (· = '*') name
  let label := Html.escapeQuoted ((kinds.lookup base).getD (Text.capitalize base))
  let label ←
    if name.endsWith "*" then pure label
    else do pure (label ++ " " ++ Text.ofNat (← Bench.nextTheorem base))
  let suffix ← match title with
    | some (c :: t) => do pure (" (" ++ (← Bench.inline kit (c :: t)) ++ ")")
    | _ => pure []
  let head := "<strong class=\"theorem-head\">" ++ label ++ "</strong>" ++ suffix ++ ". "
  let body ← Bench.paragraphs kit body
  pure ("<div class=\"latex-theorem latex-" ++ className base ++ "\">" ++ withHead head body ++ "</div>")

def fragment (kit : Kit) (kinds : List (Text × Text)) (name body : Text) : Bench Text := do
  if quoteNames.contains name then
    pure ("<blockquote class=\"latex-" ++ name ++ "\">" ++ (← Bench.paragraphs kit body) ++
      "</blockquote>")
  else match alignments.lookup name with
    | some side =>
      pure ("<div class=\"latex-" ++ name ++ "\" style=\"text-align: " ++ side ++ ";\">" ++
        (← Bench.paragraphs kit body) ++ "</div>")
    | none => if name = "proof" then proofFragment kit body else theoremFragment kit kinds name body

def extract (kit : Kit) (s : Text) : Bench Text :=
  let kinds := kindsOf s
  let names := namesOf kinds
  Bench.rounds "environment" kit.settings.environmentIterationCap (fun s => do
    match Environment.leaf? names s with
    | none => pure none
    | some e => do
      let token ← Bench.register .env (← fragment kit kinds e.name e.body)
      pure (some (e.replaceBy token))) s

end Galley.Extract.Theorem
