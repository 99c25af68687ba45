import Galley.Html.Reference
/-!
# Formulas as MathML

A converter from formula source to MathML for the notation in daily use:
letters, numbers, operators, groups, sub- and superscripts, fractions, roots,
Greek letters and the common named operators. Special characters are written as
references of five hexadecimal digits.

The rest of the program takes the converter as a parameter: an `Engine`.
-/

namespace Galley.Formula

inductive Display where
  | inline
  | block
  deriving DecidableEq, Repr

def Display.name : Display → Text
  | inline => "inline"
  | block => "block"

/-- Turns a formula into MathML, or says why it cannot. -/
abbrev Engine := (formula : Text) → Display → Except Text Text

/-! ## Vocabulary -/

/-- The hexadecimal digits of `n`, upper case, at least `width` of them. -/
def upperHex : (width n : Nat) → Text
  | 0, _ => []
  | w + 1, n =>
    let d := n % 16
    upperHex w (n / 16) ++ [if d < 10 then Char.ofNat (48 + d) else Char.ofNat (55 + d)]

def reference (n : Nat) : Text := "&#x" ++ upperHex 5 n ++ ";"

def letterSymbols : List (Text × Nat) :=
  [("alpha", 0x3B1), ("beta", 0x3B2), ("gamma", 0x3B3), ("delta", 0x3B4), ("epsilon", 0x3F5),
    ("varepsilon", 0x3B5), ("zeta", 0x3B6), ("eta", 0x3B7), ("theta", 0x3B8), ("iota", 0x3B9),
    ("kappa", 0x3BA), ("lambda", 0x3BB), ("mu", 0x3BC), ("nu", 0x3BD), ("xi", 0x3BE),
    ("pi", 0x3C0), ("rho", 0x3C1), ("sigma", 0x3C3), ("tau", 0x3C4), ("upsilon", 0x3C5),
    ("phi", 0x3D5), ("varphi", 0x3C6), ("chi", 0x3C7), ("psi", 0x3C8), ("omega", 0x3C9)]

def capitalSymbols : List (Text × Nat) :=
  [("Gamma", 0x393), ("Delta", 0x394), ("Theta", 0x398), ("Lambda", 0x39B), ("Xi", 0x39E),
    ("Pi", 0x3A0), ("Sigma", 0x3A3), ("Upsilon", 0x3A5), ("Phi", 0x3A6), ("Psi", 0x3A8),
    ("Omega", 0x3A9), ("ldots", 0x2026), ("dots", 0x2026)]

def operatorSymbols : List (Text × Nat) :=
  [("leq", 0x2264), ("le", 0x2264), ("geq", 0x2265), ("ge", 0x2265), ("neq", 0x2260),
    ("ne", 0x2260), ("times", 0xD7), ("cdot", 0xB7), ("in", 0x2208), ("infty", 0x221E),
    ("to", 0x2192), ("rightarrow", 0x2192), ("leftarrow", 0x2190), ("partial", 0x2202),
    ("nabla", 0x2207), ("sum", 0x2211), ("prod", 0x220F), ("int", 0x222B), ("pm", 0xB1),
    ("approx", 0x2248), ("equiv", 0x2261), ("sim", 0x223C), ("subset", 0x2282), ("cup", 0x222A),
    ("cap", 0x2229), ("forall", 0x2200), ("exists", 0x2203)]

def identifierSymbols : List (Text × Nat) := letterSymbols ++ capitalSymbols

/-- Operators whose limits stand above and below in display. -/
def limitOperators : List Text := ["sum", "prod"]

def namedFunctions : List Text :=
  ["log", "ln", "exp", "sin", "cos", "tan", "lim", "max", "min", "det", "gcd", "dim", "ker"]

def doubleStruck (c : Char) : Nat :=
  match c with
  | 'C' => 0x2102
  | 'H' => 0x210D
  | 'N' => 0x2115
  | 'P' => 0x2119
  | 'Q' => 0x211A
  | 'R' => 0x211D
  | 'Z' => 0x2124
  | c => if isCapital c then 0x1D538 + (c.toNat - 65) else 0x1D552 + (c.toNat - 97)

def bold (c : Char) : Nat :=
  if isCapital c then 0x1D400 + (c.toNat - 65) else 0x1D41A + (c.toNat - 97)

/-! ## Elements -/

def element (name : Text) (content : Text) : Text := "<" ++ name ++ ">" ++ content ++ "</" ++ name ++ ">"

def row (content : Text) : Text := element "mrow" content

def fence (c : Char) : Text :=
  if c = '[' || c = ']' then [c] else reference c.toNat

/-- The element of a single character that is no letter or digit. -/
def operatorElement (c : Char) : Text :=
  match c with
  | '-' => element "mo" (reference 0x2212)
  | '(' | ')' | '[' | ']' | '|' => "<mo stretchy=\"false\">" ++ fence c ++ "</mo>"
  | c => element "mo" (reference c.toNat)

/-- Part of a formula: its element, and whether limits go above and below it. -/
structure Item where
  markup : Text
  limits : Bool := false

def Item.scripted (display : Display) (base : Item) (sub sup : Option Text) : Text :=
  let stacked := base.limits && display = .block
  match sub, sup with
  | none, none => base.markup
  | some s, none => element (if stacked then "munder" else "msub") (base.markup ++ s)
  | none, some s => element (if stacked then "mover" else "msup") (base.markup ++ s)
  | some s, some t => element (if stacked then "munderover" else "msubsup") (base.markup ++ s ++ t)

def styled (symbol : Char → Nat) (s : Text) : Text :=
  let items := (s.filter fun c => !isBlank c).map fun c => element "mi" (reference (symbol c))
  match items with
  | [m] => m
  | ms => row ms.flatten

/-! ## Reading formulas -/

/-- Digits with at most one point. -/
def number (s : Text) : Text × Text :=
  let (whole, rest) := s.span Html.isAsciiDigit
  match rest with
  | '.' :: d :: more =>
    if Html.isAsciiDigit d then
      let (places, rest) := (d :: more).span Html.isAsciiDigit
      (whole ++ "." ++ places, rest)
    else (whole, rest)
  | _ => (whole, rest)

/-- The source of a group whose opening brace has been dropped. -/
def braced : (depth : Nat) → Text → Option (Text × Text)
  | _, [] => none
  | d, '{' :: s => (braced (d + 1) s).map fun (t, r) => ('{' :: t, r)
  | 0, '}' :: s => some ([], s)
  | d + 1, '}' :: s => (braced d s).map fun (t, r) => ('}' :: t, r)
  | d, c :: s => (braced d s).map fun (t, r) => (c :: t, r)

def argument? (s : Text) : Option (Text × Text) :=
  match s.dropWhile isBlank with
  | '{' :: s => braced 0 s
  | _ => none

mutual

/-- The items of a formula up to its end, or up to `\right` if `fenced`; gives what follows. -/
def readItems (display : Display) (fenced : Bool) : (fuel : Nat) → Text → Option (Text × Text)
  | 0, _ => none
  | n + 1, s =>
    match s with
    | [] => if fenced then none else some ([], [])
    | c :: rest =>
      if isBlank c then readItems display fenced n rest
      else match if fenced then Text.after? "\\right" s else none with
        | some rest => some ([], rest)
        | none => do
          let (item, rest) ← readItem display n s
          let (markup, rest) ← readScripts display n item none none rest
          let (more, rest) ← readItems display fenced n rest
          some (markup ++ more, rest)

/-- The scripts of an item, each at most once, in any order. -/
def readScripts (display : Display) :
    (fuel : Nat) → Item → (sub sup : Option Text) → Text → Option (Text × Text)
  | 0, _, _, _, _ => none
  | n + 1, item, sub, sup, s =>
    match s with
    | '_' :: rest =>
      if sub.isSome then none
      else do
        let (script, rest) ← readItem display n (rest.dropWhile isBlank)
        readScripts display n item (some script.markup) sup rest
    | '^' :: rest =>
      if sup.isSome then none
      else do
        let (script, rest) ← readItem display n (rest.dropWhile isBlank)
        readScripts display n item sub (some script.markup) rest
    | '\'' :: rest =>
      if sup.isSome then none
      else readScripts display n item sub (some (element "mi" (reference 0x2032))) rest
    | s => some (item.scripted display sub sup, s)

/-- One item without its scripts. -/
def readItem (display : Display) : (fuel : Nat) → Text → Option (Item × Text)
  | 0, _ => none
  | n + 1, s =>
    match s with
    | [] => none
    | '{' :: rest => do
      let (inside, rest) ← braced 0 rest
      let (content, _) ← readItems display false n inside
      some (⟨row content, false⟩, rest)
    | '\\' :: rest =>
      let name := rest.takeWhile isAsciiLetter
      readCommand display n name (rest.drop name.length)
    | '}' :: _ => none
    | '_' :: _ => none
    | '^' :: _ => none
    | c :: rest =>
      if Html.isAsciiDigit c then
        let (digits, rest) := number s
        some (⟨element "mn" digits, false⟩, rest)
      else if isAsciiLetter c then some (⟨element "mi" [c], false⟩, rest)
      else some (⟨operatorElement c, false⟩, rest)

/-- The item of a named command. -/
def readCommand (display : Display) : (fuel : Nat) → (name : Text) → Text → Option (Item × Text)
  | 0, _, _ => none
  | n + 1, name, s =>
    if name = "frac" then do
      let (a, s) ← argument? s
      let (b, s) ← argument? s
      let (a, _) ← readItems display false n a
      let (b, _) ← readItems display false n b
      some (⟨element "mfrac" (row a ++ row b), false⟩, s)
    else if name = "sqrt" then do
      let (a, s) ← argument? s
      let (a, _) ← readItems display false n a
      some (⟨element "msqrt" (row a), false⟩, s)
    else if name = "text" then do
      let (a, s) ← argument? s
      let content := a.flatMap fun c => if c = ' ' then reference 0xA0 else [c]
      some (⟨element "mtext" content, false⟩, s)
    else if name = "mathrm" then do
      let (a, s) ← argument? s
      let letter (c : Char) : Text := "<mi mathvariant=\"normal\">" ++ [c] ++ "</mi>"
      let letters := (a.filter fun c => !isBlank c).flatMap letter
      some (⟨row letters, false⟩, s)
    else if name = "mathbb" then do
      let (a, s) ← argument? s
      some (⟨styled doubleStruck a, false⟩, s)
    else if name = "mathbf" then do
      let (a, s) ← argument? s
      some (⟨styled bold a, false⟩, s)
    else if name = "left" then
      match s.dropWhile isBlank with
      | opener :: s => do
        let (content, s) ← readItems display true n s
        match s.dropWhile isBlank with
        | closer :: s =>
          let side (form : Text) (c : Char) : Text :=
            "<mo stretchy=\"true\" fence=\"true\" form=\"" ++ form ++ "\">" ++ reference c.toNat ++ "</mo>"
          let fenced : Text := side "prefix" opener ++ content ++ side "postfix" closer
          some (⟨row fenced, false⟩, s)
        | [] => none
      | [] => none
    else match identifierSymbols.lookup name, operatorSymbols.lookup name with
      | some code, _ => some (⟨element "mi" (reference code), false⟩, s)
      | none, some code => some (⟨element "mo" (reference code), limitOperators.contains name⟩, s)
      | none, none =>
        if namedFunctions.contains name then some (⟨element "mi" name, false⟩, s)
        else if name.isEmpty then
          match s with
          | c :: s => some (⟨element "mo" (Html.escape [c]), false⟩, s)
          | [] => none
        else some (⟨element "mi" ('\\' :: name), false⟩, s)

end

/-- The converter. A formula without content, and one whose scripts, groups or fences do not fit
    together, has no MathML. -/
def convert : Engine := fun formula display =>
  if formula.all isBlank then .error []
  else match readItems display false (4 * formula.length + 4) formula with
    | some (content, []) =>
      .ok ("<math xmlns=\"http://www.w3.org/1998/Math/MathML\" display=\"" ++ display.name ++ "\">" ++
        row content ++ "</math>")
    | _ => .error []

end Galley.Formula
