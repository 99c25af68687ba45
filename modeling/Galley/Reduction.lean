import Galley.Bibliography
import Galley.Extract.Abstract
import Galley.Extract.Algorithm
import Galley.Extract.Box
import Galley.Extract.Code
import Galley.Extract.Diagram
import Galley.Extract.Formula
import Galley.Extract.Image
import Galley.Extract.List
import Galley.Extract.Strip
import Galley.Extract.Table
import Galley.Extract.Theorem
import Galley.Repair
/-!
# Reduction

A raw document is repaired, and everything that the typesetter cannot set is
taken out stage by stage: first what must not be touched by others, such as
pictures, code and formulas, then the constructs that may hold these. What
remains is the reduced markup and the fragments under their tokens.
-/

namespace Galley

/-- A reduced document. -/
structure Reduction where
  reduced : Text
  table : Block.Table
  bibliography : Option Text := none
  /-- How many constructs each stage took out, and how many bibliography entries there are. -/
  counts : List (Text × Nat) := []
  warnings : List Text := []

namespace Reduction

/-- One stage of the extraction. -/
structure Stage where
  name : Text
  run : Kit → Text → Bench Text

/-- The stages before the citations. -/
def early : List Stage := [
  ⟨"diagram", Extract.Diagram.extract⟩, ⟨"image", fun _ => Extract.Image.extract⟩,
  ⟨"code", Extract.Code.extract⟩, ⟨"math", Extract.Formula.extract⟩]

/-- The stages after the citations. -/
def late : List Stage := [
  ⟨"abstract", Extract.Abstract.extract⟩, ⟨"table", Extract.Table.extract⟩,
  ⟨"list", Extract.List.extract⟩, ⟨"algorithm", Extract.Algorithm.extract⟩,
  ⟨"box", Extract.Box.extract⟩, ⟨"environment", Extract.Theorem.extract⟩]

/-- Counts for a stage that has finished. -/
def count (name : Text) (n : Nat) : Bench Unit :=
  modify fun b => { b with counts := b.counts ++ [(name, n)] }

/-- Runs a stage and counts what it takes out. -/
def runStage (kit : Kit) (s : Text) (stage : Stage) : Bench Text := do
  let before := (← get).extracted
  let s ← stage.run kit s
  count stage.name ((← get).extracted - before)
  pure s

def unresolvedWarning (keys : List Text) : List Text :=
  if keys.isEmpty then [] else [Text.ofNat keys.length ++ " citation(s) could not be resolved"]

/-- Reduces a raw document. -/
def run (kit : Kit) (raw : Text) : Bench Reduction := do
  let repaired := Repair.repair raw
  Bench.notifyAll repaired.notices
  let s ← early.foldlM (runStage kit) repaired.content
  let citations ← Bibliography.resolve kit s
  count "citation" citations.numbering.length
  let s ← late.foldlM (runStage kit) citations.markup
  let b ← get
  pure {
    reduced := Extract.Strip.dropLayoutCommands s
    table := b.table
    bibliography := citations.bibliography
    counts := b.counts
    warnings := repaired.warnings ++ unresolvedWarning citations.unresolved }

/-- The counts by kind of the fragments in the table. -/
def kinds (e : Reduction) : List (Text × Nat) :=
  match e.table.countByKind with
  | .ok counts => counts.map fun (k, n) => (k.name, n)
  | .error _ => []

/-- An account of the extraction, without the markup. -/
def fields (e : Reduction) : List (Text × Json) :=
  let numbers (l : List (Text × Nat)) : Json := .obj (l.map fun (name, n) => (name, .nat n))
  [("blocks", .nat e.table.size), ("tokens_issued", .nat e.table.issued),
    ("kinds", numbers e.kinds), ("has_bibliography", .bool e.bibliography.isSome),
    ("stats", numbers e.counts), ("warnings", .strs e.warnings), ("duration_ms", .float 0)]

end Reduction

end Galley
