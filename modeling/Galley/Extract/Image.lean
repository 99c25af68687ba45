import Galley.Extract.Bench
/-!
# Images

An included image becomes a box with the name of its file.
-/

namespace Galley.Extract.Image

/-- The part of a path behind its last slash. -/
def fileName (path : Text) : Text := (Text.splitOnChar '/' path).getLast?.getD []

/-- An image command: its path, or nothing if it cannot be read. -/
def reader : Reader (Option Text) := fun _ s =>
  (Command.starred? "includegraphics" s).map fun rest =>
    match Arguments.read? 1 true rest with
    | some (args, rest) => (some args.first, rest)
    | none => (none, rest)

def fragment (path : Text) : Text :=
  let name := fileName (Text.strip path)
  let shown : Text := if name.isEmpty then "figure" else name
  "<div class=\"latex-placeholder-box image\">[Image: " ++ Html.escapeQuoted shown ++ "]</div>"

def extract (s : Text) : Bench Text := do
  let parts ← (s.cut reader).mapM fun
    | .hit (some path) _ => Bench.register .image (fragment path)
    | p => pure p.source
  pure parts.flatten

end Galley.Extract.Image
