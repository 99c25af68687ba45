import Galley.Diagram.Frame
import Galley.Extract.Bench
import Galley.Markup.Environment
/-!
# Diagrams

Pictures are put into frames, numbered in their order; tree and commutative
diagrams are only named. This comes first of all, so nothing has touched the
source of a picture.
-/

namespace Galley.Extract.Diagram

/-- Takes out the first picture, the `sequence`th of the document. -/
def picture (kit : Kit) (sequence : Nat) (s : Text) : Bench (Option Text) := do
  match s.find? (Marker.begins "tikzpicture") with
  | none => pure none
  | some f =>
    let (options, rest) := (Group.read? .bracket f.after true).getD ([], f.after)
    match rest.find? (Marker.ends "tikzpicture") with
    | none => do
      Bench.notify (.pictureUnclosed f.before.length)
      pure none
    | some e => do
      let fragment := Galley.Diagram.fragment kit.settings.diagram options e.before sequence
      let token ← Bench.register .tikz fragment
      pure (some (f.before ++ token ++ e.after))

def pictures (kit : Kit) (s : Text) : Bench Text := do
  let (_, s) ← Bench.rounds "tikzpicture" kit.settings.diagramIterationCap (fun (n, s) => do
    pure ((← picture kit (n + 1) s).map (n + 1, ·))) (0, s)
  pure s

/-- Diagrams that are not drawn, and what stands for them. -/
def placeholders : List (Text × Text) :=
  [("forest", "[Tree Diagram]"), ("tikzcd", "[Commutative Diagram]")]

def placeholder (kit : Kit) (s : Text) (p : Text × Text) : Bench Text :=
  Bench.rounds p.1 kit.settings.environmentIterationCap (fun s => do
    match Environment.find p.1 s with
    | .error _ => do
      Bench.notify (.diagramUnclosed p.1)
      pure none
    | .ok none => pure none
    | .ok (some e) => do
      let fragment := "<div class=\"latex-placeholder-box\">" ++ p.2 ++ "</div>"
      pure (some (e.replaceBy (← Bench.register .block fragment)))) s

def extract (kit : Kit) (s : Text) : Bench Text := do
  placeholders.foldlM (placeholder kit) (← pictures kit s)

end Galley.Extract.Diagram
