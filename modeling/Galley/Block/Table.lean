import Galley.Block.Token
/-!
# The block table

The fragments of one document under their tokens, in the order of registration.
Registering a fragment takes the fragments of the tokens in it out of the table
and puts them into the new one, so each entry stands for a token that is still
in the markup.
-/

namespace Galley.Block

structure Table where
  /-- Tokens handed out so far, those taken out again included. -/
  issued : Nat := 0
  entries : List (Text × Text) := []
  deriving Repr

namespace Table

def empty : Table := {}

def get? (t : Table) (token : Text) : Option Text := t.entries.lookup token

def contains (t : Table) (token : Text) : Bool := (t.get? token).isSome

def tokens (t : Table) : List Text := t.entries.map (·.1)

def size (t : Table) : Nat := t.entries.length

def erase (t : Table) (token : Text) : Table :=
  { t with entries := t.entries.filter (·.1 ≠ token) }

/-- Puts the fragments of known tokens in their places and forgets them: a token that occurs
    again stays as it is. -/
def absorbPieces : Table → List (Piece Text) → Text × Table
  | t, [] => ([], t)
  | t, .char c :: ps =>
    let (s, t) := absorbPieces t ps
    (c :: s, t)
  | t, .hit token _ :: ps =>
    match t.get? token with
    | some fragment =>
      let (s, t) := absorbPieces (t.erase token) ps
      (fragment ++ s, t)
    | none =>
      let (s, t) := absorbPieces t ps
      (token ++ s, t)

def absorb (t : Table) (s : Text) : Text × Table := absorbPieces t (s.cut Token.reader)

/-- Stores a fragment, with the tokens in it absorbed, and gives its token. -/
def register (t : Table) (kind : Kind) (fragment : Text) : Text × Table :=
  let number := t.issued + 1
  let token := Token.ofNumber kind number
  let (fragment, t) := { t with issued := number }.absorb fragment
  (token, { t with entries := t.entries ++ [(token, fragment)] })

/-- Drops the entries whose token does not occur in a text; gives the dropped tokens. -/
def prune (t : Table) (s : Text) : List Text × Table :=
  let present := Token.all s
  (t.tokens.filter (!present.contains ·),
    { t with entries := t.entries.filter (present.contains ·.1) })

/-- How many entries there are of each kind, kinds in order of their first entry. -/
def countByKind (t : Table) : Except Token.KindError (List (Kind × Nat)) := do
  let kinds ← t.tokens.mapM Token.kind
  pure (kinds.eraseDups.map fun k => (k, kinds.count k))

/-- A table filled from kinds and fragments. -/
def ofList (blocks : List (Kind × Text)) : Table :=
  blocks.foldl (fun t (kind, fragment) => (t.register kind fragment).2) {}

end Table

end Galley.Block
