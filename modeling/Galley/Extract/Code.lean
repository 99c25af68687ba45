import Galley.Extract.Bench
import Galley.Markup.KeyValue
import Galley.Repair
/-!
# Code

Code environments and inline code become escaped fragments. This comes before
formulas, so dollars in code stay literal.
-/

namespace Galley.Extract.Code

/-! ## Environments -/

/-- A delimited text on one line behind spaces and tabs. -/
def sameLine? (opening closing : Char) (s : Text) : Option (Text × Text) :=
  match s.dropWhile isSpaceTab with
  | c :: inner =>
    if c = opening then
      let (inside, rest) := inner.span fun c => !(c = closing || c = '\n')
      match rest with
      | d :: rest => if d = closing then some (inside, rest) else none
      | [] => none
    else none
  | [] => none

/-- The language that the options behind a begin marker name, and what follows the options. -/
def language (name s : Text) : Option Text × Text :=
  let (language, s) := match sameLine? '[' ']' s with
    | some (options, rest) => (KeyValue.get? "language" options, rest)
    | none => (none, s)
  match if name = "minted" then sameLine? '{' '}' s else none with
  | some (inside, rest) => (some (Text.strip inside), rest)
  | none => (language, s)

/-- Drops the rest of the marker's line if it is blank. -/
def dropFirstLine (s : Text) : Text :=
  match s.dropWhile isSpaceTab with
  | '\n' :: rest => rest
  | '\r' :: '\n' :: rest => rest
  | _ => s

def languageClass : Option Text → Text
  | none => []
  | some [] => []
  | some l => " class=\"language-" ++ Html.escapeQuoted (Text.lower l) ++ "\""

def blockFragment (language : Option Text) (code : Text) : Text :=
  "<pre class=\"latex-verbatim\"><code" ++ languageClass language ++ ">" ++
    Html.escapeQuoted (Text.stripRight (dropFirstLine code)) ++ "</code></pre>"

def environments (kit : Kit) (s : Text) : Bench Text :=
  Bench.rounds "verbatim" kit.settings.environmentIterationCap (fun s => do
    match s.find? (Marker.beginsAny Repair.verbatimNames) with
    | none => pure none
    | some f =>
      let (language, rest) := language f.value f.after
      match rest.find? (Marker.ends f.value) with
      | none => do
        Bench.notify (.codeUnclosed f.value)
        pure none
      | some e => do
        let token ← Bench.register .verbatim (blockFragment language e.before)
        pure (some (f.before ++ token ++ e.after))) s

/-! ## Inline code -/

def verb : Reader Text := fun _ s => do
  let s ← Text.after? "\\verb" s
  Repair.delimited? ((Text.after? "*" s).getD s)

def lstinline : Reader Text := fun _ s => do
  let s ← Text.after? "\\lstinline" s
  let s := Text.skipEnclosed '[' ']' s
  match s with
  | '{' :: inner => Text.closedBy '}' inner
  | d :: inner =>
    if isAsciiLetter d || isBlank d || d = '[' then none
    else
      let (code, rest) := inner.span fun c => !(c = d || c = '\n')
      match rest with
      | c :: rest => if c = d then some (code, rest) else none
      | [] => none
  | [] => none

def mintinline : Reader Text := fun _ s => do
  let s ← Text.after? "\\mintinline" s
  let s ← Text.after? "\x7b" (s.dropWhile isBlank)
  let (_, s) ← Text.closedBy '}' s
  let s ← Text.after? "\x7b" (s.dropWhile isBlank)
  Text.closedBy '}' s

def inlineFragment (code : Text) : Text :=
  "<code class=\"latex-verb\">" ++ Html.escapeQuoted code ++ "</code>"

def inline (s : Text) : Bench Text := do
  let put (code : Text) : Bench Text := Bench.register .verbatim (inlineFragment code) false
  let s ← s.replaceAllM verb put
  let s ← s.replaceAllM lstinline put
  s.replaceAllM mintinline put

def extract (kit : Kit) (s : Text) : Bench Text := do inline (← environments kit s)

end Galley.Extract.Code
