import Galley.Block.Table
import Galley.Failure
import Galley.Notice
import Galley.Page
import Galley.Typeset
/-!
# Assembly

The fragments are put into the typeset tree in the places of their tokens. An
element that holds one token and nothing else is replaced as a whole, so a block
never ends up in a paragraph; the root is never replaced. Elsewhere the text is
cut and the fragment stands between the parts.
-/

namespace Galley

/-- What turns reduced markup into a tree, or says why it cannot. -/
structure Typesetter where
  name : Text
  run : Text → Except Text (List Html.Node)

def Typesetter.standard : Typesetter := ⟨"Typeset", fun s => .ok (Typeset.document s)⟩

namespace Assembly

open Html (Node)

/-! ## Joining texts -/

/-- Puts a node in front of others; two texts become one. -/
def joinTexts : Node → List Node → List Node
  | .text s, .text t :: ns => .text (s ++ t) :: ns
  | n, ns => n :: ns

mutual

/-- Joins neighbouring texts, so that no token is split between them. -/
def smooth : Node → Node
  | .text s => .text s
  | .note kind s => .note kind s
  | .element name attributes children => .element name attributes (smoothAll children)

def smoothAll : List Node → List Node
  | [] => []
  | n :: ns => joinTexts (smooth n) (smoothAll ns)

end

/-! ## Putting fragments in -/

/-- Tokens that were replaced, and notices about unknown ones. -/
structure Progress where
  tokens : List Text := []
  notices : List Notice := []

abbrev Work := StateM Progress

def textNodes (s : Text) : List Node := if s.isEmpty then [] else [.text s]

/-- The nodes in the place of a token. -/
def tokenNodes (table : Block.Table) (token : Text) : Work (List Node) := do
  match table.get? token with
  | some fragment => do
    modify fun p => { p with tokens := p.tokens ++ [token] }
    pure (Html.parse fragment)
  | none => do
    modify fun p => { p with notices := p.notices ++ [.tokenUnknown token] }
    pure [.text token]

/-- The nodes in the place of a text with tokens. -/
def cutText (table : Block.Table) (s : Text) : Work (List Node) := do
  let (first, more) := Text.sections (s.cut Block.Token.reader)
  let parts ← more.mapM fun (token, after) => do pure ((← tokenNodes table token) ++ textNodes after)
  pure (textNodes first ++ parts.flatten)

/-- The token of a text that holds one token and otherwise white space. -/
def soleToken? (s : Text) : Option Text :=
  match Text.sections (s.cut Block.Token.reader) with
  | (first, [(token, last)]) => if first.all isBlank && last.all isBlank then some token else none
  | _ => none

/-- What becomes of an element: new children, or nodes in its own place. -/
inductive Outcome where
  | children (nodes : List Node)
  | replaced (nodes : List Node)

/-- Splices a text, or a note as if it were one. Where the element may be replaced and holds nothing
    else, a known token in it replaces the element. -/
def spliceText (table : Block.Table) (alone : Bool) (n : Node) (s : Text) : Work Outcome := do
  match if alone then soleToken? s else none with
  | some token =>
    if table.contains token then pure (.replaced (← tokenNodes table token))
    else pure (.children (← cutText table s))
  | none =>
    if (Block.Token.all s).isEmpty then pure (.children [n])
    else pure (.children (← cutText table s))

/-- Puts done nodes before those of an outcome. -/
def Outcome.after (done : List Node) : Outcome → Outcome
  | children ns => .children (done ++ ns)
  | replaced ns => .replaced ns

mutual

/-- The nodes in the place of a node. -/
def spliceNode (table : Block.Table) : Node → Work (List Node)
  | .text s => pure [.text s]
  | .note kind s => pure [.note kind s]
  | .element name attributes children => do
    match ← spliceChildren table true true children with
    | .children ns => pure [.element name attributes ns]
    | .replaced ns => pure ns

/-- Splices the children of an element; `replaceable` says whether the element may be replaced, and
    `isFirst` that nothing is left of the children before. -/
def spliceChildren (table : Block.Table) (replaceable isFirst : Bool) : List Node → Work Outcome
  | [] => pure (.children [])
  | .element name attributes children :: rest => do
    let ns ← spliceNode table (.element name attributes children)
    pure ((← spliceChildren table replaceable (isFirst && ns.isEmpty) rest).after ns)
  | .text s :: rest => do
    match ← spliceText table (replaceable && isFirst && rest.isEmpty) (.text s) s with
    | .replaced ns => pure (.replaced ns)
    | .children ns =>
      pure ((← spliceChildren table replaceable (isFirst && ns.isEmpty) rest).after ns)
  | .note kind s :: rest => do
    match ← spliceText table (replaceable && isFirst && rest.isEmpty) (.note kind s) s with
    | .replaced ns => pure (.replaced ns)
    | .children ns =>
      pure ((← spliceChildren table replaceable (isFirst && ns.isEmpty) rest).after ns)

end

/-- The children of the root, spliced. -/
def spliceRoot (table : Block.Table) (children : List Node) : Work (List Node) := do
  match ← spliceChildren table false true children with
  | .children ns => pure ns
  | .replaced ns => pure ns

/-! ## Whole trees -/

/-- The nodes before the first element, that element's parts, and the nodes after it. -/
def splitRoot? : List Node → Option (List Node × (Text × List Html.Attribute × List Node) × List Node)
  | [] => none
  | .element name attributes children :: rest => some ([], (name, attributes, children), rest)
  | n :: rest => (splitRoot? rest).map fun (before, root, after) => (n :: before, root, after)

/-- The first element of a tree. -/
def root? (tree : List Node) : Option Node :=
  (splitRoot? tree).map fun (_, (name, attributes, children), _) => .element name attributes children

def bibliographySection (html : Text) : Node :=
  .element "div" [("class", "bibliography-section")] (Html.parse html)

def isDiagram (token : Text) : Bool :=
  match Block.Token.kind token with
  | .ok .tikz => true
  | _ => false

def missingNotices (table : Block.Table) (spliced : List Text) : List Notice :=
  match table.tokens.filter (!spliced.contains ·) with
  | [] => []
  | missing => [.tokensMissing missing]

/-- Splices the fragments of a table into a tree, and adds the bibliography and, if there are diagrams,
    the script that listens to their frames. -/
def spliceTree (table : Block.Table) (bibliography : Option Text) (tree : List Node) :
    Except Failure (List Node) × List Notice :=
  match splitRoot? (smoothAll tree) with
  | none => (.error (.make .render "Browser Render Error: renderer produced an empty tree"), [])
  | some (before, (name, attributes, children), after) =>
    let (children, p) := (spliceRoot table children).run {}
    let entries := match bibliography with
      | none | some [] => []
      | some html => [bibliographySection html]
    let script := if p.tokens.any isDiagram then Html.parse (Page.fill Page.listener []) else []
    (.ok (before ++ .element name attributes (children ++ entries ++ script) :: after),
      p.notices ++ missingNotices table p.tokens)

/-- Typesets reduced markup and splices the fragments in. -/
def render (typesetter : Typesetter) (table : Block.Table) (bibliography : Option Text) (reduced : Text) :
    Except Failure (List Node) × List Notice :=
  match typesetter.run reduced with
  | .error message =>
    (.error (.make .render ("Browser Render Error: " ++ message) [("renderer", .str typesetter.name)]),
      [.rendererFailed message typesetter.name])
  | .ok tree => spliceTree table bibliography tree

end Assembly

end Galley
