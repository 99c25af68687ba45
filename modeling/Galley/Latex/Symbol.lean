import Galley.Latex.Node
import Galley.Formula.Engine
/-!
# Letters by command

Accented letters, Greek letters and a few letters of their own that have a
command. Other commands that the typesetter does not know stand for nothing.
-/

namespace Galley.Latex

/-- An accent: its command, its combining character, and the letters that have a composed form. -/
structure Accent where
  name : Char
  combining : Char
  bases : String
  composed : String

def accents : List Accent := [
  ⟨'\'', Char.ofNat 0x301, "acegiklmnoprsuwyzACEGIKLMNOPRSUWYZ", "áćéǵíḱĺḿńóṕŕśúẃýźÁĆÉǴÍḰĹḾŃÓṔŔŚÚẂÝŹ"⟩,
  ⟨'\x60', Char.ofNat 0x300, "aeinouwyAEINOUWY", "àèìǹòùẁỳÀÈÌǸÒÙẀỲ"⟩,
  ⟨'^', Char.ofNat 0x302, "aceghijosuwyzACEGHIJOSUWYZ", "âĉêĝĥîĵôŝûŵŷẑÂĈÊĜĤÎĴÔŜÛŴŶẐ"⟩,
  ⟨'"', Char.ofNat 0x308, "aehiotuwxyAEHIOUWXY", "äëḧïöẗüẅẍÿÄËḦÏÖÜẄẌŸ"⟩,
  ⟨'~', Char.ofNat 0x303, "aeinouvyAEINOUVY", "ãẽĩñõũṽỹÃẼĨÑÕŨṼỸ"⟩,
  ⟨'=', Char.ofNat 0x304, "aegiouyAEGIOUY", "āēḡīōūȳĀĒḠĪŌŪȲ"⟩,
  ⟨'.', Char.ofNat 0x307, "abcdefghmnoprstwxyzABCDEFGHIMNOPRSTWXYZ", "ȧḃċḋėḟġḣṁṅȯṗṙṡṫẇẋẏżȦḂĊḊĖḞĠḢİṀṄȮṖṘṠṪẆẊẎŻ"⟩]

/-- A letter under an accent: the composed letter, or the letter and the combining accent. -/
def Accent.over (a : Accent) (c : Char) : Text :=
  match (a.bases.toList.zip a.composed.toList).lookup c with
  | some d => [d]
  | none => [c, a.combining]

/-- Letters that have a command of their own. -/
def letters : List (Text × Char) := [("ss", 'ß'), ("o", 'ø'), ("ae", 'æ')]

def letterOf (name : Text) : Text :=
  match letters.lookup name with
  | some c => [c]
  | none =>
    match Formula.identifierSymbols.lookup name with
    | some n => [Char.ofNat n]
    | none => []

/-- The letters of a command whose arguments say `inside`. -/
def commandText (name inside : Text) : Text :=
  match name with
  | [c] =>
    match accents.find? (·.name = c) with
    | some a => (Text.strip inside).flatMap a.over
    | none => letterOf name
  | name => letterOf name

mutual

/-- What a node says in letters alone. -/
def spelled : Node → Text
  | .chars t => t
  | .special _ | .comment _ | .math _ => []
  | .command name _ args _ => commandText name (spelledAll args)
  | .group nodes _ => spelledAll nodes
  | .environment _ nodes _ => spelledAll nodes

def spelledAll : List Node → Text
  | [] => []
  | n :: ns => spelled n ++ spelledAll ns

end

end Galley.Latex
