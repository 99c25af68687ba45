import Galley.Extract.Bench
import Galley.Markup.Environment
/-!
# Abstract and keywords

The abstract and lists of keywords become blocks of their own.
-/

namespace Galley.Extract.Abstract

def abstractFragment (kit : Kit) (body : Text) : Bench Text := do
  pure ("<div class=\"abstract\"><div class=\"abstract-title\">Abstract</div>" ++
    (← Bench.paragraphs kit body) ++ "</div>")

def keywordsFragment (kit : Kit) (body : Text) : Bench Text := do
  pure ("<div class=\"keywords\"><strong>Keywords:</strong> " ++
    (← Bench.inline kit body.collapse) ++ "</div>")

/-- Takes out every environment `name`. -/
def environments (kit : Kit) (name : Text) (render : Text → Bench Text) (s : Text) : Bench Text :=
  Bench.rounds name kit.settings.environmentIterationCap (fun s => do
    match Environment.find name s with
    | .error _ => do
      Bench.notify (.environmentUnclosed name)
      pure none
    | .ok none => pure none
    | .ok (some e) => do
      let token ← Bench.register .env (← render e.body)
      pure (some (e.replaceBy token))) s

/-- A keywords command: its argument, or nothing if it cannot be read. -/
def keywordsCommand : Reader (Option Text) := fun _ s =>
  (Command.after? "keywords" s).map fun rest =>
    match Group.read? .brace rest with
    | some (inside, rest) => (some inside, rest)
    | none => (none, rest)

def extract (kit : Kit) (s : Text) : Bench Text := do
  let s ← environments kit "abstract" (abstractFragment kit) s
  let s ← environments kit "keywords" (keywordsFragment kit) s
  let s ← environments kit "IEEEkeywords" (keywordsFragment kit) s
  let parts ← (s.cut keywordsCommand).mapM fun
    | .hit (some body) _ => do Bench.register .env (← keywordsFragment kit body)
    | p => pure p.source
  pure parts.flatten

end Galley.Extract.Abstract
