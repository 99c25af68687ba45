import Galley.Extract.Bench
import Galley.Markup.Environment
/-!
# Lists

Lists are taken out innermost first: each round renders the first list whose
body begins no other, so a nested list is a token by the time its parent is
rendered, and the parent absorbs it.
-/

namespace Galley.Extract.List

def environmentNames : List Text := ["itemize", "enumerate", "description"]

/-- An item's label, if it has one, and its text. -/
def item (s : Text) : Option Text × Text :=
  match Group.read? .bracket s with
  | some (label, rest) => (some (Text.strip label), Text.strip rest)
  | none => (none, Text.strip s)

/-- Splits a list body into items; what precedes the first is dropped. -/
def itemsOf (body : Text) : List (Option Text × Text) :=
  (Text.sections (body.cut (Command.reader "item"))).2.map fun (_, s) => item s

def descriptionEntry (kit : Kit) : Option Text × Text → Bench Text
  | (label, s) => do
    let label ← Bench.inline kit (label.getD [])
    let s ← Bench.inline kit s
    pure ("<dt>" ++ label ++ "</dt><dd>" ++ s ++ "</dd>")

def listEntry (kit : Kit) : Option Text × Text → Bench Text
  | (label, s) => do
    let content ← Bench.inline kit s
    match label with
    | some label => do
      pure ("<li style=\"list-style: none;\"><span class=\"item-label\">" ++
        (← Bench.inline kit label) ++ "</span> " ++ content ++ "</li>")
    | none => pure ("<li>" ++ content ++ "</li>")

/-- A list without its options. -/
def fragment (kit : Kit) (name body : Text) : Bench Text := do
  let body := match Group.read? .bracket body with
    | some (_, rest) => rest
    | none => body
  let items := itemsOf body
  if name = "description" then
    let entries ← items.mapM (descriptionEntry kit)
    pure ("<dl class=\"latex-description\">" ++ entries.flatten ++ "</dl>")
  else
    let tag : Text := if name = "enumerate" then "ol" else "ul"
    let entries ← items.mapM (listEntry kit)
    pure ("<" ++ tag ++ " class=\"latex-" ++ name ++ "\">" ++ entries.flatten ++ "</" ++ tag ++ ">")

def extract (kit : Kit) (s : Text) : Bench Text :=
  Bench.rounds "list" kit.settings.listIterationCap (fun s => do
    match Environment.leaf? environmentNames s with
    | none => pure none
    | some e => do
      let token ← Bench.register .list (← fragment kit e.name e.body)
      pure (some (e.replaceBy token))) s

end Galley.Extract.List
