import Galley.Markup.Group
/-!
# Commands

A command is a backslash and a name that no letter follows. Replacing a command
takes its arguments along; an occurrence whose arguments are missing or never
close stays as it is, and the search goes on behind its name.
-/

namespace Galley

namespace Command

/-- What follows the command `name` at the head of a text. -/
def after? (name : Text) (s : Text) : Option Text :=
  match Text.after? ('\\' :: name) s with
  | some rest => if (rest.head?.map isAsciiLetter).getD false then none else some rest
  | none => none

def reader (name : Text) : Reader Unit := fun _ s => (after? name s).map ((), ·)

/-- Any of several commands. -/
def readerOf (names : List Text) : Reader Text := fun _ s =>
  names.findSome? fun name => (after? name s).map (name, ·)

/-- What follows the command `name`, or its starred form. -/
def starred? (name : Text) (s : Text) : Option Text :=
  match Text.after? ('\\' :: name) s with
  | some ('*' :: c :: rest) => if isAsciiLetter c then some ('*' :: c :: rest) else some (c :: rest)
  | some ['*'] => some []
  | some (c :: rest) => if isAsciiLetter c then none else some (c :: rest)
  | some [] => some []
  | none => none

/-- A command with a braced argument that holds no closing brace: the argument. -/
def simpleArgument (name : Text) : Reader Text := fun _ s => do
  let s ← Text.after? ('\\' :: name) s
  let s ← Text.after? "\x7b" (s.dropWhile isBlank)
  Text.closedBy '}' s

/-- A command with its arguments, or the bare command where they cannot be read. -/
def withArguments (name : Text) (count : Nat) (takesOption : Bool) : Reader (Option Arguments) := fun _ s =>
  (after? name s).map fun rest =>
    match Arguments.read? count takesOption rest with
    | some (args, rest) => (some args, rest)
    | none => (none, rest)

/-- Puts `render` of its arguments in the place of every occurrence of a command. -/
def replace (name : Text) (count : Nat) (render : Arguments → Text) (s : Text)
    (takesOption : Bool := false) : Text :=
  (Text.cut (withArguments name count takesOption) s).flatMap fun
    | .hit (some args) _ => render args
    | p => p.source

/-- Like `replace`, with an effect at every occurrence. -/
def replaceM {m : Type → Type} [Monad m] (name : Text) (count : Nat) (render : Arguments → m Text)
    (s : Text) (takesOption : Bool := false) : m Text := do
  let parts ← (Text.cut (withArguments name count takesOption) s).mapM fun
    | .hit (some args) _ => render args
    | p => pure p.source
  pure parts.flatten

end Command

/-! ## Comments -/

namespace Comment

/-- A percent sign that no backslash precedes, and the rest of its line. -/
def reader : Reader Unit
  | some '\\', _ => none
  | _, '%' :: s => some ((), s.dropWhile (· ≠ '\n'))
  | _, _ => none

def strip (s : Text) : Text := s.removeAll reader

end Comment

end Galley
