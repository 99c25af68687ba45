import Galley.Html.Fragment
/-!
# Only MathML

What a converter returns may hold markup that is not MathML. Foreign elements
are turned back into text, and attributes that handle events or point somewhere
are dropped. A result that holds neither is returned as it is.
-/

namespace Galley.Formula

open Html

def elementNames : List Text :=
  texts ["math", "semantics", "annotation", "annotation-xml", "maction", "mi", "mn", "mo", "ms", "mtext",
    "mspace", "mglyph", "mrow", "mfrac", "msqrt", "mroot", "mstyle", "merror", "mpadded", "mphantom",
    "mfenced", "menclose", "msub", "msup", "msubsup", "munder", "mover", "munderover",
    "mmultiscripts", "mprescripts", "none", "mtable", "mtr", "mtd", "mlabeledtr"]

def linkAttributes : List Text := ["href", "xlink:href", "src", "xmlns:xlink"]

/-- An attribute that handles an event or points somewhere. -/
def isActive (name : Text) : Bool :=
  let name := Text.lower name
  name.startsWith "on" || linkAttributes.contains name

mutual

/-- Whether a subtree holds MathML only. -/
def isPure : Node → Bool
  | .text _ => true
  | .note _ _ => true
  | .element name attributes children =>
    elementNames.contains name && !attributes.any (fun a => isActive a.1) && arePure children

def arePure : List Node → Bool
  | [] => true
  | n :: ns => isPure n && arePure ns

end

mutual

/-- Turns foreign elements into text and drops active attributes. -/
def purify : Node → Node
  | .text s => .text s
  | .note kind s => .note kind s
  | .element name attributes children =>
    if elementNames.contains name then
      .element name (attributes.filter fun a => !isActive a.1) (purifyAll children)
    else .text (Node.element name attributes children).print

def purifyAll : List Node → List Node
  | [] => []
  | n :: ns => purify n :: purifyAll ns

end

def sanitize (mathml : Text) : Text :=
  let nodes := parse mathml
  if arePure nodes then mathml else print (purifyAll nodes)

end Galley.Formula
