import Galley.Html.Tag
/-!
# Reading markup

A markup text is cut into tokens and the tokens are hung into a tree. No text is
refused: unknown end tags are dropped, an end tag closes everything down to its
match, and elements still open at the end are closed there. Nothing is implied:
a second cell without an end tag before it nests in the first.

What looks like the beginning of a construct and is none at the end of the text
is retried once; a second time, the rest of the text is taken as it stands.
-/

namespace Galley.Html

/-! ## Tokens -/

/-- The element whose content is not read as markup, after some tokens. -/
def rawAfter (raw : Option Text) : List Token → Option Text
  | [] => raw
  | .start name _ false :: ts => rawAfter (if rawNames.contains name then some name else raw) ts
  | .stop name :: ts =>
    rawAfter (if raw = some name then none else raw) ts
  | _ :: ts => rawAfter raw ts

/-- Reads the construct at the head of a text that begins with `<`, given what follows it. -/
def construct (raw : Option Text) : Text → Reading
  | [] => .unfinished
  | '/' :: s => endTag raw s
  | '!' :: s => declaration s
  | '?' :: s => instruction s
  | c :: s => if isAsciiLetter c then startTag (c :: s) else .tokens [.text ['<']] (c :: s)

/-- The characters of an unfinished construct that are taken as text: up to the next `>`, else up
    to the next `<`, else one; `s` is what follows its `<`. -/
def abandoned (s : Text) : Text × Text :=
  match Text.closedBy '>' s with
  | some (inside, rest) => (['<'] ++ inside ++ ['>'], rest)
  | none =>
    let (inside, rest) := s.span (· ≠ '<')
    if rest.isEmpty then (['<'], s) else ('<' :: inside, rest)

/-- A reference in text: the characters it stands for. The reference needs a character after it,
    which is dropped if it is a semicolon. -/
def textReference? : Text → Option (Text × Text)
  | '&' :: '#' :: s =>
    let finish (n : Nat) (rest : Text) : Option (Text × Text) :=
      match rest with
      | [] => none
      | ';' :: rest => some ([numberedChar n], rest)
      | c :: rest => if isHexDigit c then none else some ([numberedChar n], c :: rest)
    let (digits, rest) := s.span isAsciiDigit
    if !digits.isEmpty then
      match finish (decimalOf digits) rest with
      | some r => some r
      | none => none
    else match s with
      | x :: s =>
        let (digits, rest) := s.span isHexDigit
        if (x = 'x' || x = 'X') && !digits.isEmpty then finish (hexOf digits) rest else none
      | [] => none
  | '&' :: c :: s =>
    if !isAsciiLetter c then none
    else
      let (more, rest) := s.span fun c => isAsciiLetter c || isAsciiDigit c || c = '-' || c = '.'
      -- the name gives back hyphens and dots at its end if the text ends there
      let (name, rest) :=
        if rest.isEmpty then
          let kept := Text.dropWhileRight (fun c => isAsciiLetter c || isAsciiDigit c) more
          if kept.isEmpty then (more, []) else (kept.dropLast, more.drop kept.dropLast.length)
        else (more, rest)
      match rest with
      | [] => none
      | r :: rest =>
        let characters := match Entity.find? (c :: name) with
          | some e => e.characters
          | none => ['&', c] ++ name
        some (characters, if r = ';' then rest else r :: rest)
  | _ => none

def isMarkupChar (raw : Option Text) (s : Text) : Bool :=
  match s, raw with
  | '<' :: '/' :: rest, some name =>
    match plainEndTag? rest with
    | some (n, _) => (n.map foldChar) = name
    | none => false
  | c :: _, none => c = '<' || c = '&'
  | _, _ => false

/-- The text before the next character that markup gives a meaning, and what follows; inside a raw
    element only its end tag has one. -/
def plainText (raw : Option Text) : Text → Text × Text
  | [] => ([], [])
  | c :: s =>
    if isMarkupChar raw (c :: s) then ([], c :: s)
    else
      let (t, rest) := plainText raw s
      (c :: t, rest)

/-- What one step of reading yields: tokens and the rest, or the end of what can be read. -/
inductive Step where
  | go (ts : List Token) (rest : Text)
  | stuck (ts : List Token) (rest : Text)

/-- One step at a character that markup gives a meaning. -/
def step (final : Bool) (raw : Option Text) : Text → Step
  | '<' :: s =>
    match s, construct raw s with
    | [], _ => .stuck [] ['<']
    | _, .tokens ts rest => .go ts rest
    | _, .unfinished =>
      if final then
        let (t, rest) := abandoned s
        .go [.text t] rest
      else .stuck [] ('<' :: s)
  | '&' :: '#' :: s =>
    match textReference? ('&' :: '#' :: s) with
    | some (t, rest) => .go [.text t] rest
    | none => if s.contains ';' then .stuck [.text "&#"] s else .stuck [] ('&' :: '#' :: s)
  | '&' :: s =>
    match textReference? ('&' :: s) with
    | some (t, rest) => .go [.text t] rest
    | none =>
      match s with
      | [] => .stuck [] ['&']
      | [c] =>
        if isAsciiLetter c then .stuck [] (if final then [c] else ['&', c])
        else .go [.text ['&']] [c]
      | c :: s => if isAsciiLetter c then .stuck [] ('&' :: c :: s) else .go [.text ['&']] (c :: s)
  | s => .stuck [] s

/-- The tokens of a text; `final` once reading has been stuck. -/
def tokensFrom (final : Bool) (raw : Option Text) (s : Text) : List Token :=
  let (plain, rest) := plainText raw s
  if raw.isSome && rest.isEmpty then []
  else
    let front := if plain.isEmpty then [] else [Token.text plain]
    if rest.isEmpty then front
    else match step final raw rest with
      | .go ts next =>
        if next.length < s.length then front ++ ts ++ tokensFrom final (rawAfter raw ts) next else front ++ ts
      | .stuck ts next =>
        if final then front ++ ts ++ (if next.isEmpty then [] else [.text next])
        else if next.length ≤ s.length then front ++ ts ++ tokensFrom true raw next
        else front ++ ts
termination_by 2 * s.length + (if final then 0 else 1)
decreasing_by
  · omega
  · rename_i h _
    rw [if_neg h]
    simp only [↓reduceIte]
    omega

def tokens (s : Text) : List Token := tokensFrom false none s

/-! ## Trees -/

/-- An element whose end has not been read, with its children so far, last first. -/
structure Frame where
  name : Text
  attributes : List Attribute
  children : List Node

/-- A tree under construction. -/
structure Build where
  /-- Open elements, innermost first. -/
  frames : List Frame := []
  /-- Nodes outside every open element, last first. -/
  top : List Node := []
  /-- Text that has not become a node yet. -/
  pending : List Text := []
  /-- Void elements closed when they began, whose end tag may still come. -/
  closedVoids : List Text := []

namespace Build

def add (b : Build) (n : Node) : Build :=
  match b.frames with
  | [] => { b with top := n :: b.top }
  | f :: fs => { b with frames := { f with children := n :: f.children } :: fs }

def keepsBlanks (b : Build) : Bool := b.frames.any fun f => f.name = "pre" || f.name = "textarea"

def isAsciiBlank (c : Char) : Bool :=
  c = ' ' || c = '\n' || c = '\t' || c = '\r' || c = Char.ofNat 12

/-- Text of white space only becomes one line end or one space. -/
def settle (b : Build) (s : Text) : Text :=
  if !b.keepsBlanks && s.all isAsciiBlank then (if s.contains '\n' then ['\n'] else [' ']) else s

/-- Makes the pending text a node. -/
def flush (b : Build) : Build :=
  match b.pending with
  | [] => b
  | ts => { b with pending := [] }.add (.text (b.settle ts.reverse.flatten))

/-- Closes the innermost element. -/
def pop (b : Build) : Build :=
  match b.frames with
  | [] => b
  | f :: fs => { b with frames := fs }.add (.element f.name f.attributes f.children.reverse)

def popTo (name : Text) : Nat → Build → Build
  | 0, b => b
  | n + 1, b =>
    match b.frames with
    | [] => b
    | f :: _ => if f.name = name then b.pop else popTo name n b.pop

/-- Closes everything down to the innermost open element `name`, if there is one. -/
def close (b : Build) (name : Text) : Build :=
  let b := b.flush
  if b.frames.any (·.name = name) then popTo name b.frames.length b else b

def stop (b : Build) (name : Text) : Build :=
  if b.closedVoids.contains name then { b with closedVoids := b.closedVoids.erase name }
  else b.close name

/-- Attributes whose value is a list of words. -/
def isWordList (element name : Text) : Bool :=
  name = "class" || name = "accesskey" || name = "dropzone" ||
    ((element = "a" || element = "link") && (name = "rel" || name = "rev")) ||
    (element = "area" && name = "rel") ||
    ((element = "td" || element = "th") && name = "headers") ||
    (element = "form" && name = "accept-charset") || (element = "object" && name = "archive") ||
    (element = "icon" && name = "sizes") || (element = "iframe" && name = "sandbox") ||
    (element = "output" && name = "for")

def settleAttribute (element : Text) (a : Attribute) : Attribute :=
  if isWordList element a.1 then (a.1, a.2.collapse) else a

def start (b : Build) (name : Text) (attributes : List Attribute) (closed : Bool) : Build :=
  let b := b.flush
  let b := { b with frames := ⟨name, attributes.map (settleAttribute name), []⟩ :: b.frames }
  if closed then b.stop name
  else if voidNames.contains name then
    { b.close name with closedVoids := b.closedVoids ++ [name] }
  else b

def token (b : Build) : Token → Build
  | .start name attributes closed => b.start name attributes closed
  | .stop name => b.stop name
  | .text s => { b with pending := s :: b.pending }
  | .note kind s =>
    let b := b.flush
    b.add (.note kind (b.settle s))

def popAll : Nat → Build → Build
  | 0, b => b
  | n + 1, b => popAll n b.pop

/-- Closes all that is open. -/
def finish (b : Build) : List Node :=
  let b := b.flush
  (popAll b.frames.length b).top.reverse

end Build

/-- The nodes that a markup text stands for. -/
def parse (s : Text) : List Node := ((tokens s).foldl Build.token {}).finish

/-- The markup of a row of nodes. -/
def print (nodes : List Node) : Text := printNodes false nodes

end Galley.Html
