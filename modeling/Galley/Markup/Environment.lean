import Galley.Markup.Command
/-!
# Environments

An environment runs from a begin marker to the matching end marker of the same
name; environments of one name nest. White space may stand between the word
`begin` or `end` and the braced name.
-/

namespace Galley

namespace Marker

/-- What follows `\word{name}` at the head of a text. -/
def after? (word name : Text) (s : Text) : Option Text := do
  let s ← Text.after? ('\\' :: word) s
  let s ← Text.after? "\x7b" (s.dropWhile isBlank)
  let s ← Text.after? name s
  Text.after? "\x7d" s

def begins (name : Text) : Reader Unit := fun _ s => (after? "begin" name s).map ((), ·)

def ends (name : Text) : Reader Unit := fun _ s => (after? "end" name s).map ((), ·)

/-- A begin marker of any of several names. -/
def beginsAny (names : List Text) : Reader Text := fun _ s =>
  names.findSome? fun name => (after? "begin" name s).map (name, ·)

/-- A begin marker (`true`) or end marker (`false`) of one name. -/
def either (name : Text) : Reader Bool := fun _ s =>
  match after? "begin" name s with
  | some rest => some (true, rest)
  | none => (after? "end" name s).map (false, ·)

end Marker

/-- A text cut around an environment in it. -/
structure Environment where
  name : Text
  before : Text
  opening : Text
  body : Text
  closing : Text
  after : Text

namespace Environment

/-- The environment with its markers. -/
def source (e : Environment) : Text := e.opening ++ e.body ++ e.closing

def start (e : Environment) : Nat := e.before.length

def bodyStart (e : Environment) : Nat := e.start + e.opening.length

def bodyEnd (e : Environment) : Nat := e.bodyStart + e.body.length

def stop (e : Environment) : Nat := e.bodyEnd + e.closing.length

/-- The text with `t` in the place of the environment. -/
def replaceBy (e : Environment) (t : Text) : Text := e.before ++ t ++ e.after

/-- The body up to the end marker that matches the begin marker read before it, that marker, and
    what follows, when `depth` inner environments are open. -/
def close : (depth : Nat) → List (Piece Bool) → Option (Text × Text × Text)
  | _, [] => none
  | d, .char c :: ps => (close d ps).map fun (body, r) => (c :: body, r)
  | d, .hit true src :: ps => (close (d + 1) ps).map fun (body, r) => (src ++ body, r)
  | 0, .hit false src :: ps => some ([], src, Piece.sources ps)
  | d + 1, .hit false src :: ps => (close d ps).map fun (body, r) => (src ++ body, r)

/-- The first environment `name` of a text. -/
def find (name : Text) (s : Text) : Except Unclosed (Option Environment) :=
  match s.find? (Marker.begins name) with
  | none => .ok none
  | some f =>
    match close 0 (f.after.cut (Marker.either name)) with
    | some (body, closing, rest) => .ok (some ⟨name, f.before, f.source, body, closing, rest⟩)
    | none => .error (.environment name (s.length - f.before.length))

/-- Like `find`, where an environment that never closes is as good as none. -/
def find? (name : Text) (s : Text) : Option Environment :=
  match find name s with
  | .ok e => e
  | .error _ => none

/-- The environment of `name` whose begin marker stands at the head of `s`, a text that `before`
    precedes. -/
def at? (name : Text) (before s : Text) : Option Environment :=
  match Marker.after? "begin" name s with
  | none => none
  | some rest =>
    (close 0 (rest.cut (Marker.either name))).map fun (body, closing, rest') =>
      ⟨name, before, s.upTo rest, body, closing, rest'⟩

/-- The position and name of the first begin marker of `name`. -/
def firstBegin? (name : Text) (s : Text) : Option Nat :=
  (s.find? (Marker.begins name)).map (·.before.length)

/-- Whichever of the names begins first; of two that begin at one place, the one named first. -/
def firstName? (names : List Text) (s : Text) : Option Text :=
  let step (best : Option (Nat × Text)) (name : Text) : Option (Nat × Text) :=
    match firstBegin? name s, best with
    | none, _ => best
    | some p, none => some (p, name)
    | some p, some (q, _) => if p < q then some (p, name) else best
  (names.foldl step none).map (·.2)

/-- The first environment of a row of pieces whose body begins none of `names`; `before` holds
    the pieces already passed, last first. -/
def leafFrom (names : List Text) : (before : List Text) → List (Piece Text) → Option Environment
  | _, [] => none
  | before, .char c :: ps => leafFrom names ([c] :: before) ps
  | before, .hit name src :: ps =>
    match at? name before.reverse.flatten (src ++ Piece.sources ps) with
    | some e =>
      if e.body.occurs (Marker.beginsAny names) then leafFrom names (src :: before) ps else some e
    | none => leafFrom names (src :: before) ps

/-- The first environment among `names` whose body begins none of `names`. Environments that
    never close are passed over, so that a closed inner one is still found. Where no name is
    given, the empty one is meant. -/
def leaf? (names : List Text) (s : Text) : Option Environment :=
  let names := if names.isEmpty then [[]] else names
  leafFrom names [] (s.cut (Marker.beginsAny names))

end Environment

end Galley
