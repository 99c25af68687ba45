import Galley.Latex.Token
/-!
# Reading the markup tree

Reading never fails. A group or environment that is not closed ends with the
text; a closing delimiter or end marker that does not belong to the innermost
open construct is dropped. A command whose arguments the text ends in is dropped
too, and ends the construct it stands in.
-/

namespace Galley.Latex

/-- What ends a list of nodes. -/
inductive Stop where
  | never
  | closer (d : Delimiter)
  | ending (name : Text)
  | math (delimiter : Text)
  deriving DecidableEq

namespace Stop

def mode : Stop → Token.Mode
  | closer .bracket => { brackets := true }
  | math ['$'] => { singleDollars := true }
  | _ => {}

def isAt : Stop → Token → Bool
  | closer d, .closes e => d = e
  | ending n, .ends m => n = m
  | math t, .math u => t = u
  | _, _ => false

end Stop

/-- The closing delimiter of a formula, if the delimiter opens one. -/
def mathCloser? (delimiter : Text) : Option Text :=
  if delimiter = ['\\', '('] then some ['\\', ')']
  else if delimiter = ['\\', '['] then some ['\\', ']']
  else if delimiter = ['$'] || delimiter = "$$" then some delimiter
  else none

/-- Puts text in front of a list of nodes. -/
def pushChars (t : Text) (ns : List Node) : List Node :=
  match t, ns with
  | [], ns => ns
  | t, .chars u :: ns => .chars (t ++ u) :: ns
  | t, ns => .chars t :: ns

/-- An asterisk behind a command: whether there is one, and what follows. -/
def readStar (s : Text) : Option (Bool × Text) :=
  (Token.next? {} s).map fun
    | (_, .chars ['*'], rest) => (true, rest)
    | _ => (false, s)

mutual

/-- The nodes up to a stop, and what follows it. -/
def readNodes : (fuel : Nat) → Stop → Text → List Node × Text
  | 0, _, s => ([], s)
  | n + 1, stop, s =>
    match Token.next? stop.mode s with
    | none => ([], [])
    | some (space, token, rest) =>
      if stop.isAt token then (pushChars space [], rest)
      else match readToken n (s.drop space.length) token rest with
        | none => (pushChars space [], rest)
        | some (node, rest) =>
          let (ns, rest) := readNodes n stop rest
          match node with
          | .chars t => (pushChars (space ++ t) ns, rest)
          | node => (pushChars space (place node ns), rest)

/-- The node that a token begins, and what follows it; `start` is the text from the token on. There
    is none if the text ends in the arguments of a command. -/
def readToken : (fuel : Nat) → (start : Text) → Token → Text → Option (Node × Text)
  | 0, _, _, _ => none
  | n + 1, start, token, s =>
    match token with
    | .chars t => some (.chars t, s)
    | .special t => some (.special t, s)
    | .comment => some (.comment (start.upTo s), s)
    | .closes _ | .ends _ => some (.comment [], s)
    | .opens d =>
      let (ns, rest) := readNodes n (.closer d) s
      some (.group ns (start.upTo rest), rest)
    | .begins name =>
      let s := if floatNames.contains name then dropOption n s else s
      let (ns, rest) := readNodes n (.ending name) s
      some (.environment name ns (start.upTo rest), rest)
    | .math delimiter =>
      match mathCloser? delimiter with
      | some closer =>
        let (_, rest) := readNodes n (.math closer) s
        some (.math (start.upTo rest), rest)
      | none => some (.comment [], s)
    | .command name =>
      (readSlots n name (signature name) s).map fun (starred, args, rest) =>
        (.command name starred args (start.upTo rest), rest)

/-- Drops a bracket group. -/
def dropOption : (fuel : Nat) → Text → Text
  | 0, s => s
  | n + 1, s =>
    match Token.next? { brackets := true, environments := false } s with
    | some (_, .opens .bracket, rest) => (readNodes n (.closer .bracket) rest).2
    | _ => s

/-- The star and the arguments of a command. An option behind a row break has no space before it. -/
def readSlots : (fuel : Nat) → (name : Text) → List Slot → Text → Option (Bool × List Node × Text)
  | 0, _, _, _ => none
  | _, _, [], s => some (false, [], s)
  | n + 1, name, .star :: slots, s => do
    let (starred, s) ← readStar s
    let (more, args, s) ← readSlots n name slots s
    some (starred || more, args, s)
  | n + 1, name, .option :: slots, s =>
    if name = ['\\'] && (s.head?.map isBlank).getD false then readSlots n name slots s
    else readSlots n name slots (dropOption n s)
  | n + 1, name, .argument :: slots, s => do
    let (arg, s) ← readArgument n s
    let (starred, args, s) ← readSlots n name slots s
    match arg with
    | .chars ['*'] => some (true, args, s)
    | arg => some (starred, arg :: args, s)

/-- One argument: a group or a single token. -/
def readArgument : (fuel : Nat) → Text → Option (Node × Text)
  | 0, _ => none
  | n + 1, s => do
    let (space, token, rest) ← Token.next? { environments := false } s
    match token with
    | .command name =>
      if name = "end" then some (.chars [], s.drop space.length)
      else some (.command name false [] (Text.upTo (s.drop space.length) rest), rest)
    | .special t => some (.special t, rest)
    | .comment => readArgument n rest
    | .opens _ => readToken n (s.drop space.length) token rest
    | .closes _ => some (.chars [], s.drop space.length)
    | .chars t => some (.chars t, rest)
    | .math ('\\' :: name) => some (.command name false [] ('\\' :: name), rest)
    | .math delimiter => some (.chars delimiter, rest)
    | .begins _ | .ends _ => none

end

/-- The tree of a text. -/
def read (s : Text) : List Node := (readNodes (4 * s.length + 8) .never s).1

end Galley.Latex
