import Galley.Json.Read
import Galley.Settings.Basic
/-!
# Reading settings

Settings come as named values from the environment and from the caller; the
caller's win. Each value is checked on its own, and all problems are reported
together, in the order of the settings.
-/

namespace Galley.Settings

/-- What is wrong with a value. -/
inductive Issue where
  | notInteger | integerText | integerFraction
  | notNumber | numberText
  | notFlag | flagText
  | notString
  | notChoice (choices : List Text)
  | notAbove (bound : Int)
  | below (bound : Int)
  | above (bound : Int)
  | notCalibration

namespace Issue

def code : Issue → Text
  | notInteger => "int_type"
  | integerText => "int_parsing"
  | integerFraction => "int_from_float"
  | notNumber => "float_type"
  | numberText => "float_parsing"
  | notFlag => "bool_type"
  | flagText => "bool_parsing"
  | notString => "string_type"
  | notChoice _ => "literal_error"
  | notAbove _ => "greater_than"
  | below _ => "greater_than_equal"
  | above _ => "less_than_equal"
  | notCalibration => "model_type"

/-- Names in quotes, the last after an "or". -/
def listed : List Text → Text
  | [] => []
  | [t] => "'" ++ t ++ "'"
  | [t, u] => "'" ++ t ++ "' or '" ++ u ++ "'"
  | t :: ts => "'" ++ t ++ "', " ++ listed ts

def message : Issue → Text
  | notInteger => "Input should be a valid integer"
  | integerText => "Input should be a valid integer, unable to parse string as an integer"
  | integerFraction => "Input should be a valid integer, got a number with a fractional part"
  | notNumber => "Input should be a valid number"
  | numberText => "Input should be a valid number, unable to parse string as a number"
  | notFlag => "Input should be a valid boolean"
  | flagText => "Input should be a valid boolean, unable to interpret input"
  | notString => "Input should be a valid string"
  | notChoice choices => "Input should be " ++ listed choices
  | notAbove bound => "Input should be greater than " ++ Text.ofInt bound
  | below bound => "Input should be greater than or equal to " ++ Text.ofInt bound
  | above bound => "Input should be less than or equal to " ++ Text.ofInt bound
  | notCalibration => "Input should be a valid dictionary or instance of DiagramCalibration"

end Issue

/-- A problem and the setting that has it. -/
structure Problem where
  place : List Text
  issue : Issue

abbrev Checked (α : Type) := Except Issue α

/-! ## Values -/

/-- Digits with single underscores between them. -/
def plainDigits? (s : Text) : Option Nat :=
  if s.isEmpty || s.head? = some '_' || s.getLast? = some '_' || s.includes "__" then none
  else
    let digits := s.filter (· ≠ '_')
    if digits.all Char.isDigit then some (Text.digitsValue digits) else none

/-- A whole number: sign, digits, and possibly a point with zeros only behind it. -/
def integerOfText? (s : Text) : Option Int :=
  let s := Text.strip s
  let (negative, s) := match s with
    | '-' :: s => (true, s)
    | '+' :: s => (false, s)
    | s => (false, s)
  let (whole, places) := s.span (· ≠ '.')
  if (places.drop 1).all (· = '0') then
    (plainDigits? whole).map fun n => if negative then -(n : Int) else n
  else none

def integer : Json → Checked Int
  | .int n => .ok n
  | .bool b => .ok (if b then 1 else 0)
  | .float x =>
    match integerOfText? (Decimal.fixed 0 x) with
    | some n => if Float.ofInt n == x then .ok n else .error .integerFraction
    | none => .error .integerFraction
  | .str s =>
    match integerOfText? s with
    | some n => .ok n
    | none => .error .integerText
  | _ => .error .notInteger

def number : Json → Checked Float
  | .int n => .ok (Float.ofInt n)
  | .float x => .ok x
  | .bool b => .ok (if b then 1 else 0)
  | .str s =>
    match Decimal.read? s with
    | some x => .ok x
    | none => .error .numberText
  | _ => .error .notNumber

def flag : Json → Checked Bool
  | .bool b => .ok b
  | .int 0 => .ok false
  | .int 1 => .ok true
  | .int _ => .error .flagText
  | .float x => if x == 0 then .ok false else if x == 1 then .ok true else .error .notFlag
  | .str s =>
    let s := s.map Char.toLower
    if (texts ["1", "true", "yes", "on", "t", "y"]).contains s then .ok true
    else if (texts ["0", "false", "no", "off", "f", "n"]).contains s then .ok false
    else .error .flagText
  | _ => .error .notFlag

def string : Json → Checked Text
  | .str s => .ok s
  | _ => .error .notString

def environ : Json → Checked Environ
  | .str s =>
    match [Environ.development, .staging, .production].find? (·.name = s) with
    | some e => .ok e
    | none => .error (.notChoice ["development", "staging", "production"])
  | _ => .error (.notChoice ["development", "staging", "production"])

def levelNames : List Text := ["DEBUG", "INFO", "WARNING", "ERROR", "CRITICAL"]

/-- Upper case as far as it can reach an ASCII letter. -/
def upper (s : Text) : Text :=
  s.map fun c => if c.toNat = 383 then 'S' else if c.toNat = 305 then 'I' else c.toUpper

/-- A level name in any case. -/
def levelName : Json → Checked Text
  | .str s => if levelNames.contains (upper s) then .ok (upper s) else .error (.notChoice levelNames)
  | _ => .error (.notChoice levelNames)

/-! ## Bounds -/

def integerFrom (low : Int) (j : Json) : Checked Int := do
  let n ← integer j
  if n < low then throw (.below low) else pure n

def countFrom (low : Nat) (j : Json) : Checked Nat := do
  let n ← integerFrom low j
  pure n.toNat

def integerBetween (low high : Int) (j : Json) : Checked Int := do
  let n ← integerFrom low j
  if n > high then throw (.above high) else pure n

/-- A number that is not zero or less; what is no number at all passes every bound. -/
def positive (j : Json) : Checked Float := do
  let x ← number j
  if x <= 0 then throw (.notAbove 0) else pure x

def share (j : Json) : Checked Float := do
  let x ← positive j
  if x > 1 then throw (.above 1) else pure x

/-! ## Settings -/

/-- Reads one value by name; a missing one keeps its default, a wrong one is reported. -/
def fieldAt (place : List Text) (source : List (Text × Json)) {α : Type} (name : Text)
    (read : Json → Checked α) (default : α) : StateM (List Problem) α := do
  match source.lookup name with
  | none => pure default
  | some j =>
    match read j with
    | .ok a => pure a
    | .error issue =>
      modify (· ++ [⟨place ++ [name], issue⟩])
      pure default

def readCalibration (place : List Text) (source : List (Text × Json)) :
    StateM (List Problem) Calibration := do
    let d : Calibration := {}
    let field {α : Type} (name : Text) (read : Json → Checked α) (default : α) :=
      fieldAt place source name read default
    let flatAspectThreshold ← field "flat_aspect_threshold" number d.flatAspectThreshold
    let textHeavyLabelChars ← field "text_heavy_label_chars" number d.textHeavyLabelChars
    let compactNodeCount ← field "compact_node_count" integer d.compactNodeCount
    let compactDistanceBelow ← field "compact_distance_below" number d.compactDistanceBelow
    let largeDistanceFrom ← field "large_distance_from" number d.largeDistanceFrom
    let wideSpanThreshold ← field "wide_span_threshold" number d.wideSpanThreshold
    let wideAsLarge ← field "wide_as_large" flag d.wideAsLarge
    let compactScaleDense ← field "compact_scale_dense" number d.compactScaleDense
    let compactScale ← field "compact_scale" number d.compactScale
    let compactNodeDistanceCm ← field "compact_node_distance_cm" number d.compactNodeDistanceCm
    let largeTargetWidthCm ← field "large_target_width_cm" number d.largeTargetWidthCm
    let largeMaxUnit ← field "large_max_unit" number d.largeMaxUnit
    let largeClampWide ← field "large_clamp_wide" number d.largeClampWide
    let largeClampNarrow ← field "large_clamp_narrow" number d.largeClampNarrow
    let largeWideSpan ← field "large_wide_span" number d.largeWideSpan
    let largeMinUnit ← field "large_min_unit" number d.largeMinUnit
    let largeTargetHeightCm ← field "large_target_height_cm" number d.largeTargetHeightCm
    let largeYMin ← field "large_y_min" number d.largeYMin
    let largeYMax ← field "large_y_max" number d.largeYMax
    let largeRelativeY ← field "large_relative_y" number d.largeRelativeY
    let largeDistanceTextCm ← field "large_distance_text_cm" number d.largeDistanceTextCm
    let largeDistanceCm ← field "large_distance_cm" number d.largeDistanceCm
    let largeMinDistanceCm ← field "large_min_distance_cm" number d.largeMinDistanceCm
    let wideScaleFactor ← field "wide_scale_factor" number d.wideScaleFactor
    let wideMinScale ← field "wide_min_scale" number d.wideMinScale
    let flatXMultiplier ← field "flat_x_multiplier" number d.flatXMultiplier
    let flatYMin ← field "flat_y_min" number d.flatYMin
    let flatYMax ← field "flat_y_max" number d.flatYMax
    let flatSmallFontNodes ← field "flat_small_font_nodes" integer d.flatSmallFontNodes
    let mediumScaleDense ← field "medium_scale_dense" number d.mediumScaleDense
    let mediumScale ← field "medium_scale" number d.mediumScale
    let mediumDenseNodes ← field "medium_dense_nodes" integer d.mediumDenseNodes
    let mediumNodeDistanceCm ← field "medium_node_distance_cm" number d.mediumNodeDistanceCm
    let textHeavyXCm ← field "text_heavy_x_cm" number d.textHeavyXCm
    let textHeavyYCm ← field "text_heavy_y_cm" number d.textHeavyYCm
    let braceMagnitude ← field "brace_magnitude" number d.braceMagnitude
    let braceTip ← field "brace_tip" number d.braceTip
    let braceLabelOffset ← field "brace_label_offset" number d.braceLabelOffset
    let minFrameHeightPx ← field "min_frame_height_px" integer d.minFrameHeightPx
    let frameHeightPaddingPx ← field "frame_height_padding_px" integer d.frameHeightPaddingPx
    pure {
      flatAspectThreshold, textHeavyLabelChars, compactNodeCount, compactDistanceBelow,
      largeDistanceFrom, wideSpanThreshold, wideAsLarge, compactScaleDense, compactScale,
      compactNodeDistanceCm, largeTargetWidthCm, largeMaxUnit, largeClampWide, largeClampNarrow,
      largeWideSpan, largeMinUnit, largeTargetHeightCm, largeYMin, largeYMax, largeRelativeY,
      largeDistanceTextCm, largeDistanceCm, largeMinDistanceCm, wideScaleFactor, wideMinScale,
      flatXMultiplier, flatYMin, flatYMax, flatSmallFontNodes, mediumScaleDense, mediumScale,
      mediumDenseNodes, mediumNodeDistanceCm, textHeavyXCm, textHeavyYCm, braceMagnitude,
      braceTip, braceLabelOffset, minFrameHeightPx, frameHeightPaddingPx }

/-- The calibration that a value describes. -/
def readDiagram : Option Json → StateM (List Problem) Calibration
  | none => pure {}
  | some (.obj source) => readCalibration ["diagram"] source
  | some _ => do
    modify (· ++ [⟨["diagram"], .notCalibration⟩])
    pure {}

def readAll (source : List (Text × Json)) : StateM (List Problem) Settings := do
  let d : Settings := {}
  let field {α : Type} (name : Text) (read : Json → Checked α) (default : α) :=
    fieldAt [] source name read default
  let environment ← field "environment" environ d.environment
  let logLevel ← field "log_level" levelName d.logLevel
  let logJson ← field "log_json" flag d.logJson
  let apiHost ← field "api_host" string d.apiHost
  let apiPort ← field "api_port" (integerBetween 1 65535) d.apiPort
  let rateLimitRequests ← field "rate_limit_requests" (countFrom 1) d.rateLimitRequests
  let rateLimitWindowSeconds ← field "rate_limit_window_seconds" (countFrom 1) d.rateLimitWindowSeconds
  let maxDocumentChars ← field "max_document_chars" (countFrom 1) d.maxDocumentChars
  let gatekeeperTolerance ← field "gatekeeper_tolerance" (integerFrom 0) d.gatekeeperTolerance
  let diagramIterationCap ← field "diagram_iteration_cap" (countFrom 1) d.diagramIterationCap
  let listIterationCap ← field "list_iteration_cap" (countFrom 1) d.listIterationCap
  let environmentIterationCap ← field "environment_iteration_cap" (countFrom 1) d.environmentIterationCap
  let mathMaxWidthEm ← field "math_max_width_em" positive d.mathMaxWidthEm
  let mathCharWidthEm ← field "math_char_width_em" positive d.mathCharWidthEm
  let shrinkFloor ← field "shrink_floor" share d.shrinkFloor
  let shrinkSafetyMargin ← field "shrink_safety_margin" share d.shrinkSafetyMargin
  let containerWidthPx ← field "container_width_px" (integerFrom 1) d.containerWidthPx
  let charWidthPx ← field "char_width_px" positive d.charWidthPx
  let diagram ← readDiagram (source.lookup ("diagram" : Text))
  pure {
    environment, logLevel, logJson, apiHost, apiPort, rateLimitRequests, rateLimitWindowSeconds,
    maxDocumentChars, gatekeeperTolerance, diagramIterationCap, listIterationCap,
    environmentIterationCap, mathMaxWidthEm, mathCharWidthEm, shrinkFloor, shrinkSafetyMargin,
    containerWidthPx, charWidthPx, diagram }

/-- The settings that named values describe, or all their problems. -/
def ofFields (source : List (Text × Json)) : Except (List Problem) Settings :=
  match (readAll source).run [] with
  | (s, []) => .ok s
  | (_, problems) => .error problems

/-! ## The environment -/

/-- Fields with changes: objects are merged field by field. -/
def overlay (base changes : List (Text × Json)) : List (Text × Json) :=
  changes.foldl (fun fields (name, j) =>
    match fields.lookup name, j with
    | some (.obj a), .obj b => Json.setField fields (name, .obj (Json.setFields a b))
    | _, _ => Json.setField fields (name, j)) base

/-- What a variable sets: a setting by its name in any case, one constant of the calibration by
    `DIAGRAM__NAME`, or the calibration as a JSON object. `none` if the JSON cannot be read. -/
def ofVariable (name value : Text) : Option (List (Text × Json)) :=
  let name := Text.lower name
  match Text.after? "diagram__" name with
  | some key => some [("diagram", .obj [(key, .str value)])]
  | none =>
    if name = "diagram" then (Json.parse? value).map fun j => [("diagram", j)]
    else some [(name, .str value)]

/-- The values that an environment sets, the calibration as a whole before single constants. -/
def ofEnvironment? (environment : List (Text × Text)) : Option (List (Text × Json)) := do
  let whole := environment.filter fun v => Text.lower v.1 = "diagram"
  let others := environment.filter fun v => Text.lower v.1 ≠ "diagram"
  let parts ← (whole ++ others).mapM fun v => ofVariable v.1 v.2
  some (parts.foldl overlay [])

/-! ## Showing settings -/

def calibrationFields (d : Calibration) : List (Text × Json) :=
  calibrationBounds d ++ calibrationMeasures d
where
  calibrationBounds (d : Calibration) : List (Text × Json) := [
    ("flat_aspect_threshold", .float d.flatAspectThreshold),
    ("text_heavy_label_chars", .float d.textHeavyLabelChars),
    ("compact_node_count", .int d.compactNodeCount),
    ("compact_distance_below", .float d.compactDistanceBelow),
    ("large_distance_from", .float d.largeDistanceFrom),
    ("wide_span_threshold", .float d.wideSpanThreshold),
    ("wide_as_large", .bool d.wideAsLarge),
    ("compact_scale_dense", .float d.compactScaleDense),
    ("compact_scale", .float d.compactScale),
    ("compact_node_distance_cm", .float d.compactNodeDistanceCm),
    ("large_target_width_cm", .float d.largeTargetWidthCm),
    ("large_max_unit", .float d.largeMaxUnit),
    ("large_clamp_wide", .float d.largeClampWide),
    ("large_clamp_narrow", .float d.largeClampNarrow),
    ("large_wide_span", .float d.largeWideSpan),
    ("large_min_unit", .float d.largeMinUnit),
    ("large_target_height_cm", .float d.largeTargetHeightCm),
    ("large_y_min", .float d.largeYMin),
    ("large_y_max", .float d.largeYMax),
    ("large_relative_y", .float d.largeRelativeY)]
  calibrationMeasures (d : Calibration) : List (Text × Json) := [
    ("large_distance_text_cm", .float d.largeDistanceTextCm),
    ("large_distance_cm", .float d.largeDistanceCm),
    ("large_min_distance_cm", .float d.largeMinDistanceCm),
    ("wide_scale_factor", .float d.wideScaleFactor),
    ("wide_min_scale", .float d.wideMinScale),
    ("flat_x_multiplier", .float d.flatXMultiplier),
    ("flat_y_min", .float d.flatYMin),
    ("flat_y_max", .float d.flatYMax),
    ("flat_small_font_nodes", .int d.flatSmallFontNodes),
    ("medium_scale_dense", .float d.mediumScaleDense),
    ("medium_scale", .float d.mediumScale),
    ("medium_dense_nodes", .int d.mediumDenseNodes),
    ("medium_node_distance_cm", .float d.mediumNodeDistanceCm),
    ("text_heavy_x_cm", .float d.textHeavyXCm),
    ("text_heavy_y_cm", .float d.textHeavyYCm),
    ("brace_magnitude", .float d.braceMagnitude),
    ("brace_tip", .float d.braceTip),
    ("brace_label_offset", .float d.braceLabelOffset),
    ("min_frame_height_px", .int d.minFrameHeightPx),
    ("frame_height_padding_px", .int d.frameHeightPaddingPx)]

/-- All settings by name. -/
def fields (s : Settings) : List (Text × Json) :=
  [("environment", .str s.environment.name), ("log_level", .str s.logLevel),
    ("log_json", .bool s.logJson), ("api_host", .str s.apiHost), ("api_port", .int s.apiPort),
    ("rate_limit_requests", .nat s.rateLimitRequests),
    ("rate_limit_window_seconds", .nat s.rateLimitWindowSeconds),
    ("max_document_chars", .nat s.maxDocumentChars),
    ("gatekeeper_tolerance", .int s.gatekeeperTolerance),
    ("diagram_iteration_cap", .nat s.diagramIterationCap),
    ("list_iteration_cap", .nat s.listIterationCap),
    ("environment_iteration_cap", .nat s.environmentIterationCap),
    ("math_max_width_em", .float s.mathMaxWidthEm),
    ("math_char_width_em", .float s.mathCharWidthEm), ("shrink_floor", .float s.shrinkFloor),
    ("shrink_safety_margin", .float s.shrinkSafetyMargin),
    ("container_width_px", .int s.containerWidthPx), ("char_width_px", .float s.charWidthPx),
    ("diagram", .obj (calibrationFields s.diagram))]

end Galley.Settings
