import Galley.Text.Case
/-!
# Cutting a text at the constructs in it

A reader recognises one construct at the head of a text. Searching, listing and
replacing all go through `cut`, which walks a text once from left to right and
takes each construct where it first can be read; constructs never overlap.
-/

namespace Galley

/-- Reads a construct at the head of a text, given the character before it, and says what
    follows the construct. -/
abbrev Reader (α : Type) := (before : Option Char) → Text → Option (α × Text)

inductive Piece (α : Type) where
  | char (c : Char)
  | hit (value : α) (source : Text)

namespace Piece

def source {α : Type} : Piece α → Text
  | .char c => [c]
  | .hit _ s => s

def value? {α : Type} : Piece α → Option α
  | .char _ => none
  | .hit a _ => some a

/-- The text that a row of pieces was cut from. -/
def sources {α : Type} (ps : List (Piece α)) : Text := ps.flatMap source

end Piece

namespace Text

/-- The part of `s` before its ending `rest`. -/
def upTo (s rest : Text) : Text := s.take (s.length - rest.length)

def cutFrom {α : Type} (read : Reader α) : (skip : Nat) → (before : Option Char) → Text → List (Piece α)
  | _, _, [] => []
  | n + 1, _, c :: cs => cutFrom read n (some c) cs
  | 0, before, c :: cs =>
    match read before (c :: cs) with
    | none => .char c :: cutFrom read 0 (some c) cs
    | some (a, rest) =>
      if rest.length ≤ cs.length then
        .hit a (upTo (c :: cs) rest) :: cutFrom read (cs.length - rest.length) (some c) cs
      else .char c :: cutFrom read 0 (some c) cs

/-- The characters of a text with each readable construct taken whole. -/
def cut {α : Type} (read : Reader α) (s : Text) : List (Piece α) := cutFrom read 0 none s

/-- The values of all constructs in a text, in order. -/
def readAll {α : Type} (read : Reader α) (s : Text) : List α := (cut read s).filterMap Piece.value?

/-- Puts `f` of its value in the place of every construct. -/
def replaceAll {α : Type} (read : Reader α) (f : α → Text) (s : Text) : Text :=
  (cut read s).flatMap fun
    | .char c => [c]
    | .hit a _ => f a

/-- Takes out every construct. -/
def removeAll {α : Type} (read : Reader α) (s : Text) : Text := replaceAll read (fun _ => []) s

/-- Like `replaceAll`, with an effect at every construct. -/
def replaceAllM {m : Type → Type} [Monad m] {α : Type} (read : Reader α) (f : α → m Text) (s : Text) :
    m Text := do
  let parts ← (cut read s).mapM fun
    | .char c => pure [c]
    | .hit a _ => f a
  pure parts.flatten

/-- A construct found in a text, with the text around it. -/
structure Found (α : Type) where
  before : Text
  value : α
  source : Text
  after : Text

def findFrom {α : Type} (read : Reader α) (before : Option Char) : Text → Option (Found α)
  | [] => none
  | c :: cs =>
    match read before (c :: cs) with
    | some (a, rest) => some ⟨[], a, upTo (c :: cs) rest, rest⟩
    | none => (findFrom read (some c) cs).map fun f => { f with before := c :: f.before }

/-- The first construct of a text. -/
def find? {α : Type} (read : Reader α) (s : Text) : Option (Found α) := findFrom read none s

/-- The last construct of a row of pieces. -/
def lastHit? {α : Type} : List (Piece α) → Option (Found α)
  | [] => none
  | p :: ps =>
    match lastHit? ps with
    | some f => some { f with before := p.source ++ f.before }
    | none =>
      match p with
      | .hit a source => some ⟨[], a, source, Piece.sources ps⟩
      | .char _ => none

def findLast? {α : Type} (read : Reader α) (s : Text) : Option (Found α) := lastHit? (cut read s)

/-- The text before the first construct, and each construct with the text up to the next. -/
def sections {α : Type} : List (Piece α) → Text × List (α × Text)
  | [] => ([], [])
  | .char c :: ps =>
    let (t, more) := sections ps
    (c :: t, more)
  | .hit a _ :: ps =>
    let (t, more) := sections ps
    ([], (a, t) :: more)

def occurs {α : Type} (read : Reader α) (s : Text) : Bool := (find? read s).isSome

/-! ## Pieces of readers -/

/-- The text up to the closing character and what follows it. -/
def closedBy (close : Char) (s : Text) : Option (Text × Text) :=
  match s.dropWhile (· ≠ close) with
  | _ :: rest => some (s.takeWhile (· ≠ close), rest)
  | [] => none

/-- Drops a part in delimiters at the head of a text, if it closes. -/
def skipEnclosed (opening closing : Char) (s : Text) : Text :=
  match s with
  | c :: inner => if c = opening then ((closedBy closing inner).map Prod.snd).getD s else s
  | [] => []

/-- Compares without regard to letter case: `p` is in lower case. -/
def afterCaseless? : (p s : Text) → Option Text
  | [], s => some s
  | _ :: _, [] => none
  | p :: ps, c :: cs => if p = foldChar c then afterCaseless? ps cs else none

end Text

end Galley
