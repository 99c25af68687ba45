/-!
# Text

A text is a list of characters; positions and lengths count characters. White
space here is white space of all scripts, with the four separators U+001C to
U+001F and the no-break spaces; the smaller sets that some rules use are named
for what they hold.
-/

namespace Galley

abbrev Text := List Char

instance : Coe String Text := ⟨String.toList⟩

/-- Texts from literals. -/
def texts (literals : List String) : List Text := literals.map String.toList

/-! ## Characters -/

def inRanges (ranges : List (Nat × Nat)) (c : Char) : Bool :=
  ranges.any fun r => r.1 ≤ c.toNat && c.toNat ≤ r.2

def isAsciiLetter (c : Char) : Bool :=
  ('a' ≤ c && c ≤ 'z') || ('A' ≤ c && c ≤ 'Z')

def isCapital (c : Char) : Bool := 'A' ≤ c && c ≤ 'Z'

def blankRanges : List (Nat × Nat) :=
  [(9, 13), (28, 32), (133, 133), (160, 160), (5760, 5760), (8192, 8202), (8232, 8233),
    (8239, 8239), (8287, 8287), (12288, 12288)]

/-- White space of any script. -/
def isBlank (c : Char) : Bool := inRanges blankRanges c

/-- Spaces, tabs and line ends: what may stand between a command and its arguments. -/
def isGap (c : Char) : Bool := c = ' ' || c = '\t' || c = '\r' || c = '\n'

/-- Space or tab. -/
def isSpaceTab (c : Char) : Bool := c = ' ' || c = '\t'

/-- The zero of each run of ten decimal digits. -/
def digitZeros : List Nat :=
  [48, 1632, 1776, 1984, 2406, 2534, 2662, 2790, 2918, 3046, 3174, 3302, 3430, 3558, 3664, 3792,
    3872, 4160, 4240, 6112, 6160, 6470, 6608, 6784, 6800, 6992, 7088, 7232, 7248, 42528, 43216,
    43264, 43472, 43504, 43600, 44016, 65296, 66720, 68912, 69734, 69872, 69942, 70096, 70384,
    70736, 70864, 71248, 71360, 71472, 71904, 72016, 72784, 73040, 73120, 92768, 92864, 93008,
    120782, 120792, 120802, 120812, 120822, 123200, 123632, 125264, 130032]

/-- The value of a decimal digit of any script. -/
def digitValue? (c : Char) : Option Nat :=
  (digitZeros.find? fun z => z ≤ c.toNat && c.toNat < z + 10).map (c.toNat - ·)

def isDecimalDigit (c : Char) : Bool := (digitValue? c).isSome

namespace Text

/-! ## Beginnings and ends -/

/-- What follows `p` at the head of a text. -/
def after? : (p s : Text) → Option Text
  | [], s => some s
  | _ :: _, [] => none
  | p :: ps, c :: cs => if p = c then after? ps cs else none

def startsWith (s p : Text) : Bool := p.isPrefixOf s

def endsWith (s p : Text) : Bool := p.isSuffixOf s

def startsWithAny (s : Text) (ps : List Text) : Bool := ps.any fun p => p.isPrefixOf s

/-- Drops the last `n` characters. -/
def dropRight (s : Text) (n : Nat) : Text := s.take (s.length - n)

def dropWhileRight (p : Char → Bool) (s : Text) : Text := (s.reverse.dropWhile p).reverse

/-- The text without the white space around it. -/
def strip (s : Text) : Text := dropWhileRight isBlank (s.dropWhile isBlank)

def stripRight (s : Text) : Text := dropWhileRight isBlank s

/-- The order of texts by characters. -/
def le : Text → Text → Bool
  | [], _ => true
  | _ :: _, [] => false
  | a :: s, b :: t => a < b || (a = b && le s t)

/-! ## Splitting and joining -/

/-- Puts `sep` between the parts. -/
def joinWith (sep : Text) : List Text → Text
  | [] => []
  | [t] => t
  | t :: ts => t ++ sep ++ joinWith sep ts

/-- The parts between occurrences of one character. -/
def splitOnChar (sep : Char) : Text → List Text
  | [] => [[]]
  | c :: cs =>
    if c = sep then [] :: splitOnChar sep cs
    else match splitOnChar sep cs with
      | [] => [[c]]
      | part :: parts => (c :: part) :: parts

def wordsFrom : (word : Text) → Text → List Text
  | [], [] => []
  | word@(_ :: _), [] => [word.reverse]
  | word, c :: cs =>
    if isBlank c then
      match word with
      | [] => wordsFrom [] cs
      | _ :: _ => word.reverse :: wordsFrom [] cs
    else wordsFrom (c :: word) cs

/-- The runs of characters between white space. -/
def words (s : Text) : List Text := wordsFrom [] s

/-- The text with every run of white space made one space, and none at the ends. -/
def collapse (s : Text) : Text := joinWith " " s.words

/-- Whether `part` occurs in the text. -/
def includes (s part : Text) : Bool :=
  match s with
  | [] => part.isEmpty
  | c :: cs => part.isPrefixOf (c :: cs) || includes cs part

/-- Drops what precedes the first occurrence of `part`, splitting the text there. -/
def splitAtFirst (part : Text) : Text → Option (Text × Text)
  | [] => if part.isEmpty then some ([], []) else none
  | c :: cs =>
    match after? part (c :: cs) with
    | some rest => some ([], rest)
    | none => (splitAtFirst part cs).map fun (before, rest) => (c :: before, rest)

def replaceFrom (old new : Text) : (skip : Nat) → Text → Text
  | _, [] => []
  | n + 1, _ :: cs => replaceFrom old new n cs
  | 0, c :: cs =>
    if old.isPrefixOf (c :: cs) then new ++ replaceFrom old new (old.length - 1) cs
    else c :: replaceFrom old new 0 cs

/-- Replaces the occurrences of `old`, leftmost first, without rescanning what was put in. -/
def replace (s old new : Text) : Text := replaceFrom old new 0 s

/-! ## Numbers in texts -/

def ofNat (n : Nat) : Text := (toString n).toList

def ofInt (n : Int) : Text := (toString n).toList

/-- The digits of `n`, padded with zeros to at least `width`. -/
def ofNatPadded (width n : Nat) : Text :=
  let digits := ofNat n
  List.replicate (width - digits.length) '0' ++ digits

/-- The value of a run of decimal digits of any script. -/
def digitsValue (s : Text) : Nat := s.foldl (fun n c => 10 * n + (digitValue? c).getD 0) 0

end Text

end Galley
