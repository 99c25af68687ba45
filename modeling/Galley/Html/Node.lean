import Galley.Html.Reference
/-!
# Document trees

A tree of elements, text and notes (comments, declarations and instructions).
Printing sorts attributes by name, escapes the three characters that markup
gives a meaning, and closes every element except those that never have content.
-/

namespace Galley.Html

inductive NoteKind where
  | comment | doctype | declaration | instruction | raw
  deriving DecidableEq, Repr

namespace NoteKind

def opening : NoteKind → Text
  | comment => "<!--"
  | doctype => "<!DOCTYPE "
  | declaration => "<?"
  | instruction => "<?"
  | raw => "<![CDATA["

def closing : NoteKind → Text
  | comment => "-->"
  | doctype => ">\n"
  | declaration => "?>"
  | instruction => ">"
  | raw => "]]>"

end NoteKind

/-- Name and value. -/
abbrev Attribute := Text × Text

inductive Node where
  | text (s : Text)
  | note (kind : NoteKind) (s : Text)
  | element (name : Text) (attributes : List Attribute) (children : List Node)
  deriving Inhabited, Repr

/-- Elements that never have content. -/
def voidNames : List Text :=
  ["area", "base", "br", "col", "embed", "hr", "img", "input", "keygen", "link", "menuitem", "meta",
    "param", "source", "track", "wbr", "basefont", "bgsound", "command", "frame", "image", "isindex",
    "nextid", "spacer"]

/-- Elements whose text is not escaped. -/
def rawNames : List Text := ["script", "style"]

/-- Elements whose text is no part of the text around them. -/
def asideNames : List Text := ["script", "style", "template", "rt", "rp"]

/-! ## Printing -/

/-- A value in double quotes; in single quotes if it holds double quotes only; with its double
    quotes escaped if it holds both. -/
def quoteValue (s : Text) : Text :=
  if s.contains '"' then
    if s.contains '\'' then
      ['"'] ++ s.flatMap (fun c => if c = '"' then "&quot;" else [c]) ++ ['"']
    else ['\''] ++ s ++ ['\'']
  else ['"'] ++ s ++ ['"']

def printAttribute (a : Attribute) : Text := " " ++ a.1 ++ "=" ++ quoteValue (escape a.2)

def printAttributes (attributes : List Attribute) : Text :=
  (attributes.mergeSort fun a b => Text.le a.1 b.1).flatMap printAttribute

mutual

/-- The markup of a node inside an element; `raw` where its text is not escaped. -/
def Node.printIn (raw : Bool) : Node → Text
  | .text s => if raw then s else escape s
  | .note kind s => kind.opening ++ s ++ kind.closing
  | .element name attributes children =>
    if children.isEmpty && voidNames.contains name then
      "<" ++ name ++ printAttributes attributes ++ "/>"
    else
      "<" ++ name ++ printAttributes attributes ++ ">" ++
        printNodes (rawNames.contains name) children ++ "</" ++ name ++ ">"

def printNodes (raw : Bool) : List Node → Text
  | [] => []
  | n :: ns => n.printIn raw ++ printNodes raw ns

end

namespace Node

/-- The markup of a node. -/
def print (n : Node) : Text := n.printIn false

def attribute? (name : Text) : Node → Option Text
  | element _ attributes _ => attributes.lookup name
  | _ => none

/-- Gives an attribute a value, in its place if it is there. -/
def setAttribute (name value : Text) : Node → Node
  | element n attributes children =>
    if attributes.any (·.1 = name) then
      element n (attributes.map fun a => if a.1 = name then (name, value) else a) children
    else element n (attributes ++ [(name, value)]) children
  | n => n

def classes (n : Node) : List Text := ((n.attribute? "class").getD []).words

def hasClass (name : Text) (n : Node) : Bool := n.classes.contains name

/-- Whether a node is an element of a name. -/
def hasName (name : Text) : Node → Bool
  | element n _ _ => n = name
  | _ => false

/-- An element with other children. -/
def withChildren (children : List Node) : Node → Node
  | element n attributes _ => element n attributes children
  | n => n

end Node

mutual

/-- The text of an element's descendants, without the asides in it. -/
def Node.strings : Node → List Text
  | .text s => [s]
  | .note kind s => if kind = .raw then [s] else []
  | .element name _ children => if asideNames.contains name then [] else stringsOf children

def stringsOf : List Node → List Text
  | [] => []
  | n :: ns => n.strings ++ stringsOf ns

end

/-- The texts directly in an element and in its descendants; an aside shows its own texts. -/
def Node.innerStrings : Node → List Text
  | .element _ _ children => stringsOf children
  | n => n.strings

/-- The texts of a node, each stripped, the empty ones dropped, joined by `sep`. -/
def Node.strippedText (sep : Text) (n : Node) : Text :=
  Text.joinWith sep ((n.innerStrings.map Text.strip).filter (!·.isEmpty))

mutual

/-- The elements of a subtree in document order. -/
def Node.elements : Node → List Node
  | .text _ => []
  | .note _ _ => []
  | .element name attributes children => .element name attributes children :: elementsOf children

def elementsOf : List Node → List Node
  | [] => []
  | n :: ns => n.elements ++ elementsOf ns

end

end Galley.Html
