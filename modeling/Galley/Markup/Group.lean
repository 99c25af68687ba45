import Galley.Text.Cut
/-!
# Balanced groups

Brace groups `{..}` and bracket groups `[..]` are read with depth counters. A
backslash makes the next character inert. A brace group counts braces only; a
bracket group counts brackets outside inner braces, so a bracket protected by
braces does not end it, and a stray closing brace in it is an ordinary
character. Where quotes are opaque, a run from one double quote to the next is
one item.
-/

namespace Galley

inductive Delimiter where
  | brace
  | bracket
  deriving DecidableEq, Repr

namespace Delimiter

def opener : Delimiter → Char
  | brace => '{'
  | bracket => '['

def closer : Delimiter → Char
  | brace => '}'
  | bracket => ']'

def ofOpener? (c : Char) : Option Delimiter :=
  if c = '{' then some brace else if c = '[' then some bracket else none

end Delimiter

namespace Group

/-- Keeps a character in front of the content read after it. -/
def keep (cs : Text) (r : Option (Text × Text)) : Option (Text × Text) :=
  r.map fun (inside, rest) => (cs ++ inside, rest)

/-- The rest of a brace group in which `depth` inner groups are open: its content up to the
    closing brace, and what follows. -/
def braceRest (opaqueQuotes : Bool) : (depth : Nat) → (quoted : Bool) → Text → Option (Text × Text)
  | _, _, [] => none
  | _, _, ['\\'] => none
  | d, q, '\\' :: c :: s => keep ['\\', c] (braceRest opaqueQuotes d q s)
  | d, q, c :: s =>
    if opaqueQuotes && c = '"' then keep [c] (braceRest opaqueQuotes d (!q) s)
    else if q then keep [c] (braceRest opaqueQuotes d q s)
    else if c = '{' then keep [c] (braceRest opaqueQuotes (d + 1) q s)
    else if c = '}' then
      match d with
      | 0 => some ([], s)
      | d + 1 => keep [c] (braceRest opaqueQuotes d q s)
    else keep [c] (braceRest opaqueQuotes d q s)

/-- The rest of a bracket group in which `depth` inner bracket groups and, inside these,
    `braces` brace groups are open. -/
def bracketRest (opaqueQuotes : Bool) :
    (depth braces : Nat) → (quoted : Bool) → Text → Option (Text × Text)
  | _, _, _, [] => none
  | _, _, _, ['\\'] => none
  | d, b, q, '\\' :: c :: s => keep ['\\', c] (bracketRest opaqueQuotes d b q s)
  | d, b, q, c :: s =>
    if opaqueQuotes && c = '"' then keep [c] (bracketRest opaqueQuotes d b (!q) s)
    else if q then keep [c] (bracketRest opaqueQuotes d b q s)
    else if c = '{' then keep [c] (bracketRest opaqueQuotes d (b + 1) q s)
    else if c = '}' then keep [c] (bracketRest opaqueQuotes d (b - 1) q s)
    else if b = 0 && c = '[' then keep [c] (bracketRest opaqueQuotes (d + 1) b q s)
    else if b = 0 && c = ']' then
      match d with
      | 0 => some ([], s)
      | d + 1 => keep [c] (bracketRest opaqueQuotes d b q s)
    else keep [c] (bracketRest opaqueQuotes d b q s)

/-- The content of a group whose opening delimiter has just been read, and what follows its
    closing delimiter. -/
def inside? (d : Delimiter) (opaqueQuotes : Bool) (s : Text) : Option (Text × Text) :=
  match d with
  | .brace => braceRest opaqueQuotes 0 false s
  | .bracket => bracketRest opaqueQuotes 0 0 false s

end Group

/-! ## Reading groups -/

/-- A construct that is opened and never closed, with the number of characters from its
    beginning to the end of the text. -/
inductive Unclosed where
  | group (left : Nat)
  | environment (name : Text) (left : Nat)
  deriving DecidableEq

/-- The wording gives the place where the construct begins in a text of `length` characters. -/
def Unclosed.message (length : Nat) : Unclosed → Text
  | .group left => "Group opened at " ++ Text.ofNat (length - left) ++ " is not closed"
  | .environment name left =>
    "Environment " ++ name ++ " opened at " ++ Text.ofNat (length - left) ++ " is not closed"

namespace Group

/-- Reads a group after optional spaces and line ends. There is no group if another character
    comes first. -/
def read (d : Delimiter) (s : Text) (opaqueQuotes : Bool := false) :
    Except Unclosed (Option (Text × Text)) :=
  match s.dropWhile isGap with
  | [] => .ok none
  | c :: rest =>
    if c = d.opener then
      match inside? d opaqueQuotes rest with
      | some r => .ok (some r)
      | none => .error (.group (rest.length + 1))
    else .ok none

/-- Reads a group, where a group that never closes is as good as none. -/
def read? (d : Delimiter) (s : Text) (opaqueQuotes : Bool := false) : Option (Text × Text) :=
  match read d s opaqueQuotes with
  | .ok r => r
  | .error _ => none

/-- Reads up to `limit` groups in a row. -/
def readUpTo (d : Delimiter) : (limit : Nat) → Text → Except Unclosed (List Text × Text)
  | 0, s => .ok ([], s)
  | n + 1, s => do
    match ← read d s with
    | none => pure ([], s)
    | some (inside, rest) =>
      let (more, rest) ← readUpTo d n rest
      pure (inside :: more, rest)

end Group

/-! ## Places -/

/-- A group by the places of its opening delimiter and behind its closing one. -/
structure Span where
  content : Text
  start : Nat
  stop : Nat
  deriving DecidableEq, Repr

/-- Why no group ends anywhere when one is expected at a place. -/
inductive SpanError where
  | outside
  | noOpener (position : Nat)
  | unclosed (position : Nat)
  deriving DecidableEq, Repr

/-- The wording, except for a place outside of the text. -/
def SpanError.message? : SpanError → Option Text
  | .outside => none
  | .noOpener position => some ("No group opens at position " ++ Text.ofNat position)
  | .unclosed position => some ("Group opened at " ++ Text.ofNat position ++ " is not closed")

namespace Span

/-- The group that opens at a place. -/
def opened (s : Text) (start : Nat) (opaqueQuotes : Bool := false) : Except SpanError Span :=
  match s.drop start with
  | [] => .error .outside
  | c :: rest =>
    match Delimiter.ofOpener? c with
    | none => .error (.noOpener start)
    | some d =>
      match Group.inside? d opaqueQuotes rest with
      | none => .error (.unclosed start)
      | some (content, after) => .ok ⟨content, start, s.length - after.length⟩

/-- The group after optional spaces and line ends from a place on, if it begins as asked. -/
def next (s : Text) (position : Nat) (opener : Text) (opaqueQuotes : Bool := false) :
    Except SpanError (Option Span) :=
  let here := (s.drop position).dropWhile isGap
  if here.take 1 = opener && !here.isEmpty then
    (Span.opened s (s.length - here.length) opaqueQuotes).map some
  else .ok none

end Span

/-! ## Arguments of a command -/

/-- What a command was given: an optional bracket argument and its brace arguments. -/
structure Arguments where
  option : Option Text
  required : List Text
  deriving DecidableEq, Repr

namespace Arguments

/-- The first brace argument; commands that are read with none have an empty one. -/
def first (a : Arguments) : Text := a.required.headD []

def second (a : Arguments) : Text := (a.required.drop 1).headD []

def third (a : Arguments) : Text := (a.required.drop 2).headD []

/-- Exactly `n` brace groups in a row. -/
def braces : (n : Nat) → Text → Except Unclosed (Option (List Text × Text))
  | 0, s => .ok (some ([], s))
  | n + 1, s => do
    match ← Group.read .brace s with
    | none => pure none
    | some (inside, rest) =>
      match ← braces n rest with
      | none => pure none
      | some (more, rest) => pure (some (inside :: more, rest))

/-- Reads an optional bracket group, if the command takes one, and `count` brace groups. -/
def read (count : Nat) (takesOption : Bool) (s : Text) : Except Unclosed (Option (Arguments × Text)) := do
  let bracket ← if takesOption then Group.read .bracket s else pure none
  let (option, s) := match bracket with
    | some (inside, rest) => (some inside, rest)
    | none => (none, s)
  match ← braces count s with
  | none => pure none
  | some (required, rest) => pure (some (⟨option, required⟩, rest))

/-- Reads arguments, where a group that never closes is as good as a missing one. -/
def read? (count : Nat) (takesOption : Bool) (s : Text) : Option (Arguments × Text) :=
  match read count takesOption s with
  | .ok r => r
  | .error _ => none

end Arguments

end Galley
