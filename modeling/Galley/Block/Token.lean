import Galley.Text.Cut
import Galley.Text.Quoted
/-!
# Placeholder tokens

A token stands in the markup for a fragment that has been rendered already. It
is a fixed word, the name of the fragment's kind and a sequence number of six
digits: letters and digits only, so no later step changes it, and of fixed
width, so digits after it cannot join it.
-/

namespace Galley.Block

/-- What a rendered fragment is. -/
inductive Kind where
  | block | math | tikz | verbatim | table | list | algo | env | box | image
  deriving DecidableEq, Repr

namespace Kind

def name : Kind → Text
  | block => "BLOCK"
  | math => "MATH"
  | tikz => "TIKZ"
  | verbatim => "VERBATIM"
  | table => "TABLE"
  | list => "LIST"
  | algo => "ALGO"
  | env => "ENV"
  | box => "BOX"
  | image => "IMAGE"

def all : List Kind := [block, math, tikz, verbatim, table, list, algo, env, box, image]

def ofName? (t : Text) : Option Kind := all.find? (·.name = t)

end Kind

namespace Token

def word : Text := "LATEXPREVIEW"

/-- The token of the `number`th fragment. -/
def ofNumber (kind : Kind) (number : Nat) : Text := word ++ kind.name ++ Text.ofNatPadded 6 number

/-- Exactly `n` decimal digits. -/
def digits? : (n : Nat) → Text → Option Text
  | 0, s => some s
  | _ + 1, [] => none
  | n + 1, c :: s => if isDecimalDigit c then digits? n s else none

/-- The kind name of the token at the head of a text, and what follows the token. -/
def kindName? (s : Text) : Option (Text × Text) := do
  let s ← Text.after? word s
  let (name, rest) := s.span isCapital
  if name.isEmpty then none
  let rest ← digits? 6 rest
  some (name, rest)

/-- Reads a token whole. -/
def reader : Reader Text := fun _ s => (kindName? s).map fun (_, rest) => (s.upTo rest, rest)

/-- All tokens of a text, in order. -/
def all (s : Text) : List Text := s.readAll reader

/-- Whether a text is one token and nothing else. -/
def isToken (s : Text) : Bool :=
  match kindName? s with
  | some (_, []) => true
  | _ => false

/-- Why a text has no kind. -/
inductive KindError where
  | notToken (text : Text)
  | unknownKind (name : Text)

def KindError.message : KindError → Text
  | .notToken t => "Not a placeholder token: " ++ Quoted.encode t
  | .unknownKind n => Quoted.encode n ++ " is not a valid BlockKind"

/-- The kind that a token names. -/
def kind (token : Text) : Except KindError Kind :=
  match kindName? token with
  | some (name, []) =>
    match Kind.ofName? name with
    | some k => .ok k
    | none => .error (.unknownKind name)
  | _ => .error (.notToken token)

end Token

end Galley.Block
