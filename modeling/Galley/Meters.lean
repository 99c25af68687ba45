import Galley.Decimal.Format
import Galley.Json.Basic
import Galley.Text.Cut
/-!
# Meters

Counters, histograms and gauges, each under a name and labels. A series is found
again by its name with the labels in order of their keys.
-/

namespace Galley

abbrev Labels := List (Text × Text)

namespace Meters

structure Counter (α : Type) where
  name : Text
  labels : Labels
  value : α

structure Histogram where
  name : Text
  labels : Labels
  sum : Float
  count : Nat
  greatest : Float

structure Gauge where
  name : Text
  labels : Labels
  value : Float

/-- The labels as they stand behind a name. -/
def labelSet (labels : Labels) : Text :=
  if labels.isEmpty then []
  else
    let shown := (labels.mergeSort fun a b => Text.le a.1 b.1).map fun (k, v) => k ++ "=\"" ++ v ++ "\""
    "\x7b" ++ Text.joinWith [','] shown ++ "\x7d"

def key (name : Text) (labels : Labels) : Text := name ++ labelSet labels

/-- Changes the value under a key, or adds one behind the others. -/
def change {α : Type} (k : Text) (f : Option α → α) : List (Text × α) → List (Text × α)
  | [] => [(k, f none)]
  | (l, a) :: rest => if l = k then (l, f (some a)) :: rest else (l, a) :: change k f rest

/-! ## Counters -/

/-- Counters by their keys, in the order of their first use. -/
abbrev Counters (α : Type) := List (Text × Counter α)

namespace Counters

variable {α : Type} [Add α] [OfNat α 0]

/-- Adds to a counter, from zero if there is none. -/
def add (cs : Counters α) (name : Text) (value : α) (labels : Labels) : Counters α :=
  change (key name labels) (fun
      | some c => { c with value := c.value + value }
      | none => ⟨name, labels, 0 + value⟩) cs

/-- The value of a counter, zero if there is none. -/
def value (cs : Counters α) (name : Text) (labels : Labels) : α :=
  match cs.lookup (key name labels) with
  | some c => c.value
  | none => 0

end Counters

end Meters

open Meters

structure Meters where
  counters : Counters Float := []
  histograms : List (Text × Histogram) := []
  gauges : List (Text × Gauge) := []

namespace Meters

/-! ## Recording -/

/-- Adds to a counter. -/
def count (m : Meters) (name : Text) (value : Float) (labels : Labels) : Meters :=
  { m with counters := m.counters.add name value labels }

/-- Adds an observation to a histogram. -/
def observe (m : Meters) (name : Text) (value : Float) (labels : Labels) : Meters :=
  let add (h : Histogram) : Histogram :=
    { h with
      sum := h.sum + value
      count := h.count + 1
      greatest := if value > h.greatest then value else h.greatest }
  { m with histograms :=
      change (key name labels) (fun h => add (h.getD ⟨name, labels, 0, 0, 0⟩)) m.histograms }

/-- Sets a gauge. -/
def gauge (m : Meters) (name : Text) (value : Float) (labels : Labels) : Meters :=
  { m with gauges := change (key name labels) (fun _ => ⟨name, labels, value⟩) m.gauges }

def counterValue (m : Meters) (name : Text) (labels : Labels) : Float := m.counters.value name labels

/-- A path with its numeric segments left open. -/
def pathPattern (path : Text) : Text :=
  path.replaceAll number fun _ => "/\x7bid\x7d"
where
  number : Reader Unit := fun _ s => do
    let s ← Text.after? "/" s
    if (s.head?.map isDecimalDigit).getD false then some ((), s.dropWhile isDecimalDigit) else none

def countRequest (m : Meters) (method path status : Text) (milliseconds : Float) : Meters :=
  let labels : Labels := [("method", method), ("path", pathPattern path), ("status", status)]
  (m.count "http_requests_total" 1 labels).observe "http_request_duration_ms" milliseconds labels

def countRender (m : Meters) (status : Text) (milliseconds : Float) (blocks : Nat) : Meters :=
  let m := (m.count "preview_renders_total" 1 [("status", status)]).observe
    "preview_render_duration_ms" milliseconds []
  if blocks > 0 then m.observe "preview_blocks_per_document" blocks.toFloat [] else m

def countTaken (m : Meters) (kind : Text) (count : Nat) : Meters :=
  if count > 0 then m.count "preview_blocks_extracted_total" count.toFloat [("kind", kind)] else m

def countShrink (m : Meters) (target : Text) (scale : Float) : Meters :=
  (m.count "preview_layout_shrinks_total" 1 [("target", target)]).observe
    "preview_layout_shrink_scale" scale [("target", target)]

def countShrinks (m : Meters) (shrinks : List (Text × Float)) : Meters :=
  shrinks.foldl (fun m (target, scale) => m.countShrink target scale) m

/-! ## Showing -/

/-- One line a value; a histogram has its sum and its count. -/
def exposition (m : Meters) : Text :=
  let line (name labels value : Text) : Text := name ++ labels ++ [' '] ++ value
  Text.joinWith ['\n']
    (m.counters.map (fun (_, c) => line c.name (labelSet c.labels) (Decimal.shortest c.value)) ++
      m.histograms.flatMap (fun (_, h) =>
        [line (h.name ++ "_sum") (labelSet h.labels) (Decimal.shortest h.sum),
          line (h.name ++ "_count") (labelSet h.labels) (Text.ofNat h.count)]) ++
      m.gauges.map fun (_, g) => line g.name (labelSet g.labels) (Decimal.shortest g.value))

def labelFields (labels : Labels) : Json := .obj (labels.map fun (k, v) => (k, .str v))

def fields (m : Meters) : List (Text × Json) := [
  ("counters", .arr (m.counters.map fun (_, c) =>
    .obj [("name", .str c.name), ("labels", labelFields c.labels), ("value", .float c.value)])),
  ("histograms", .arr (m.histograms.map fun (_, h) =>
    .obj [("name", .str h.name), ("labels", labelFields h.labels), ("sum", .float h.sum),
      ("count", .nat h.count), ("max", .float h.greatest), ("avg", .float (h.sum / h.count.toFloat))])),
  ("gauges", .arr (m.gauges.map fun (_, g) =>
    .obj [("name", .str g.name), ("labels", labelFields g.labels), ("value", .float g.value)]))]

end Meters

end Galley
