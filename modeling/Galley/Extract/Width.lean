import Galley.Decimal.Read
import Galley.Text.Cut
/-!
# Widths

A length of a document as a width of the page: a share of the text width becomes
a percentage of at most a hundred, an absolute length keeps its number and unit,
and anything else is the full width.
-/

namespace Galley.Extract

def relativeUnits : List Text := ["\\textwidth", "\\linewidth", "\\columnwidth", "\\hsize"]

def absoluteUnits : List Text := ["cm", "mm", "in", "pt", "em", "ex", "px"]

def styleWidth (spec : Text) : Text :=
  let spec := Text.strip spec
  let (number, rest) := match Decimal.leading? spec with
    | some (n, rest) => (some n, rest)
    | none => (none, spec)
  let unit := rest.dropWhile isBlank
  if relativeUnits.contains unit then
    let factor := (number.bind Decimal.read?).getD 1.0
    Decimal.general ((if factor > 1.0 then 1.0 else factor) * 100) ++ "%"
  else match number with
    | some n => if absoluteUnits.contains unit then n ++ unit else "100%"
    | none => "100%"

end Galley.Extract
