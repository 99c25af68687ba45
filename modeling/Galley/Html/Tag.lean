import Galley.Html.Node
/-!
# Tags

Reads the tags, comments and declarations of a markup text. A construct that
cannot be read whole is `unfinished`; the caller decides what its characters
are worth.
-/

namespace Galley.Html

/-- What a markup text is made of. -/
inductive Token where
  | start (name : Text) (attributes : List Attribute) (closed : Bool)
  | stop (name : Text)
  | text (s : Text)
  | note (kind : NoteKind) (s : Text)

/-- The outcome of reading a construct that begins with `<`. -/
inductive Reading where
  | tokens (ts : List Token) (rest : Text)
  | unfinished

/-! ## Attributes -/

def endsTagName (c : Char) : Bool :=
  c = '\t' || c = '\n' || c = '\r' || c = Char.ofNat 12 || c = ' ' || c = '/' || c = '>' || c = Char.ofNat 0

/-- Drops white space and slashes, but no slash right before `>`. -/
def skipSeparators : (before : Char) → Text → Char × Text
  | b, [] => (b, [])
  | b, '/' :: '>' :: s => (b, '/' :: '>' :: s)
  | b, c :: s => if isBlank c || c = '/' then skipSeparators c s else (b, c :: s)

def skipBlanks : (before : Char) → Text → Char × Text
  | b, [] => (b, [])
  | b, c :: s => if isBlank c then skipBlanks c s else (b, c :: s)

def lastOf (before : Char) (s : Text) : Char := s.getLast?.getD before

/-- A quoted or bare value; a quote that never closes is no value. -/
def attributeValue? : (before : Char) → Text → Option (Text × Char × Text)
  | b, q :: s =>
    if q = '"' || q = '\'' then (Text.closedBy q s).map fun (v, rest) => (v, q, rest)
    else
      let (v, rest) := (q :: s).span fun c => !(isBlank c || c = '>')
      some (v, lastOf b v, rest)
  | b, [] => some ([], b, [])

/-- The value after an equals sign, with the character before what follows it. -/
def attributeAssignment? (s : Text) : Option (Text × Char × Text) :=
  match s.dropWhile isBlank with
  | '=' :: s =>
    let (signs, afterSigns) := s.span (· = '=')
    let (b, afterBlanks) := skipBlanks '=' afterSigns
    match attributeValue? b afterBlanks with
    | some r => some r
    | none =>
      -- an open quote: the value is what stands before the white space, or the other signs
      if afterBlanks.length < afterSigns.length then
        some ([], '=', afterSigns)
      else if signs.isEmpty then none
      else
        let (v, rest) := ('=' :: afterSigns).span fun c => !(isBlank c || c = '>')
        some (v, lastOf '=' v, rest)
  | _ => none

/-- One attribute, its separators after it skipped. -/
def attribute? (before : Char) : Text → Option (Attribute × Char × Text)
  | [] => none
  | c :: s =>
    if !(before = '"' || before = '\'' || before = '/' || isBlank before) then none
    else if isBlank c || c = '/' || c = '>' then none
    else
      let (more, rest) := s.span fun c => !(isBlank c || c = '/' || c = '=' || c = '>')
      let name := c :: more
      match attributeAssignment? rest with
      | some (v, b, rest) =>
        let (b, rest) := skipSeparators b rest
        some ((Text.lower name, unescapeValue v), b, rest)
      | none =>
        let (b, rest) := skipSeparators (lastOf c more) rest
        some ((Text.lower name, []), b, rest)

/-- Attributes in a row, and what follows the last. -/
def attributesFrom (before : Char) (s : Text) : List Attribute × Text :=
  match attribute? before s with
  | none => ([], s)
  | some (a, b, rest) =>
    if rest.length < s.length then
      let (as, rest) := attributesFrom b rest
      (a :: as, rest)
    else ([a], rest)
termination_by s.length

/-! ## Tags and notes -/

/-- A repeated attribute keeps its place and its last value. -/
def keepLast (as : List Attribute) : List Attribute :=
  as.foldl (fun kept a =>
    if kept.any (·.1 = a.1) then kept.map fun k => if k.1 = a.1 then a else k else kept ++ [a]) []

/-- Reads the start tag whose `<` has been dropped. -/
def startTag (s : Text) : Reading :=
  let (name, afterName) := s.span (!endsTagName ·)
  let (b, first) := skipSeparators (lastOf '<' name) afterName
  let (attributes, stop) := attributesFrom b first
  let close := if attributes.isEmpty then afterName.dropWhile fun c => isBlank c || c = '/' else stop
  let start (rest : Text) : Reading :=
    match (stop.upTo rest).strip with
    | ['>'] => .tokens [.start (Text.lower name) (keepLast attributes) false] rest
    | ['/', '>'] => .tokens [.start (Text.lower name) (keepLast attributes) true] rest
    | _ => .tokens [.text ('<' :: s.upTo rest)] rest
  match close with
  | '>' :: rest => start rest
  | '/' :: '>' :: rest => start rest
  | [] => .unfinished
  | c :: rest =>
    if isAsciiLetter c || c = '=' || c = '/' then .unfinished
    else .tokens [.text ('<' :: s.upTo (c :: rest))] (c :: rest)

def isEndNameChar (c : Char) : Bool :=
  isAsciiLetter c || isAsciiDigit c || c = '-' || c = '.' || c = ':' || c = '_'

/-- The name in a plain end tag whose `</` has been dropped. -/
def plainEndTag? (s : Text) : Option (Text × Text) :=
  match s.dropWhile isBlank with
  | c :: s =>
    if isAsciiLetter c then
      let (more, rest) := s.span isEndNameChar
      match rest.dropWhile isBlank with
      | '>' :: rest => some (c :: more, rest)
      | _ => none
    else none
  | [] => none

/-- Reads the end tag whose `</` has been dropped; `raw` names the open element whose content is
    not read as markup. -/
def endTag (raw : Option Text) (s : Text) : Reading :=
  match Text.closedBy '>' s with
  | none => .unfinished
  | some (inside, rest) =>
    let asText : Reading := .tokens [.text ("</" ++ inside ++ ">")] rest
    match plainEndTag? s, raw with
    | some (name, rest), none => .tokens [.stop (Text.lower name)] rest
    | some (name, rest), some open_ =>
      if Text.lower name = open_ then .tokens [.stop (Text.lower name)] rest else asText
    | none, some _ => asText
    | none, none =>
      match inside with
      | [] => .tokens [] rest
      | c :: _ =>
        if isAsciiLetter c then
          let (name, more) := s.span (!endsTagName ·)
          match Text.closedBy '>' more with
          | some (_, rest) => .tokens [.stop (Text.lower name)] rest
          | none => .unfinished
        else .tokens [.note .comment inside] rest

/-- A comment's end: two hyphens and `>`, white space allowed between. -/
def commentEnd : Reader Unit
  | _, '-' :: '-' :: s =>
    match s.dropWhile isBlank with
    | '>' :: rest => some ((), rest)
    | _ => none
  | _, _ => none

/-- The end of a conditional section: a closing bracket and `>`, white space allowed between. -/
def conditionEnd : Reader Unit
  | _, ']' :: s =>
    match s.dropWhile isBlank with
    | '>' :: rest => some ((), rest)
    | _ => none
  | _, _ => none

/-- The end of any other marked section: one more closing bracket before it. -/
def sectionEnd : Reader Unit
  | _, ']' :: s => conditionEnd (some ']') (s.dropWhile isBlank)
  | _, _ => none

/-- The words that conditional sections begin with. -/
def conditionWords : List Text := ["if", "else", "endif"]

/-- The word that a marked section begins with. -/
def sectionWord (s : Text) : Text :=
  Text.lower (s.takeWhile fun c => isAsciiLetter c || isAsciiDigit c || c = '-' || c = '_' || c = '.')

/-- Reads the comment or declaration whose `<!` has been dropped. -/
def declaration (s : Text) : Reading :=
  match Text.after? "--" s with
  | some s =>
    match s.find? commentEnd with
    | some f => .tokens [.note .comment f.before] f.after
    | none => .unfinished
  | none =>
    match Text.after? "[" s with
    | some inner =>
      match inner.find? (if conditionWords.contains (sectionWord inner) then conditionEnd else sectionEnd) with
      | some f =>
        if Text.startsWith (f.before.map Char.toUpper) "CDATA[" then
          .tokens [.note .raw (f.before.drop 6)] f.after
        else .tokens [.note .declaration f.before] f.after
      | none => .unfinished
    | none =>
      match Text.closedBy '>' s with
      | none => .unfinished
      | some (inside, rest) =>
        if Text.startsWith (inside.map Char.toLower) "doctype" then
          .tokens [.note .doctype (inside.drop 8)] rest
        else .tokens [.note .comment inside] rest

/-- Reads the instruction whose `<?` has been dropped. -/
def instruction (s : Text) : Reading :=
  match Text.closedBy '>' s with
  | some (inside, rest) => .tokens [.note .instruction inside] rest
  | none => .unfinished

end Galley.Html
