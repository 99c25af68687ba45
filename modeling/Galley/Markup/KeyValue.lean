import Galley.Text.Cut
/-!
# Options as keys and values

An option list such as `title={A, b}, rest` gives values to keys. A value is a
braced text up to the first closing brace, or what stands before the next comma.
-/

namespace Galley.KeyValue

/-- The value behind `key =` at the head of a text. -/
def valueAfter? (key s : Text) : Option (Text × Text) := do
  let s ← Text.after? key (s.dropWhile isBlank)
  let s ← Text.after? "=" (s.dropWhile isBlank)
  let s := s.dropWhile isBlank
  let braced := match s with
    | '{' :: inner => (Text.closedBy '}' inner).map fun (v, rest) => ("\x7b" ++ v ++ "\x7d", rest)
    | _ => none
  match braced with
  | some r => some r
  | none => some (s.span (· ≠ ','))

/-- A value of `key` at the beginning of the options or behind a comma. -/
def reader (key : Text) : Reader Text := fun before s =>
  (if before.isNone then valueAfter? key s else none) <|>
    (match s with
    | ',' :: s => valueAfter? key s
    | _ => none)

/-- The value of the first `key`, without braces and the white space around it, unless it is
    empty. -/
def get? (key options : Text) : Option Text := do
  let f ← options.find? (reader key)
  let value := Text.strip f.value
  let value := if value.startsWith "\x7b" && value.endsWith "\x7d" then value.tail.dropLast else value
  let value := Text.strip value
  if value.isEmpty then none else some value

end Galley.KeyValue
