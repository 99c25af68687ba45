import Galley.Extract.List
import Galley.Proofs.Carrying
import Galley.Proofs.Commands
import Galley.Proofs.PlainFormatting
import Galley.Proofs.Runs
import Galley.Proofs.Search
import Galley.Proofs.Substitution
/-!
# Lists innermost first

A text with lists in it, and lists in their items, is a tree (`Flow`, `Items`). A round takes out the list that begins
first of those without a list inside (`leaf?_opened`), and that is the list a walk over the tree finishes next: the
rounds do to the text, the table and the count what the walk does (`go_flow`).
-/

namespace Galley.Lists

open Block (Table)
open Inline (dress)

/-! ## Texts with lists -/

inductive Name where
  | itemize | enumerate | description
  deriving DecidableEq

def Name.text : Name → Text
  | itemize => "itemize"
  | enumerate => "enumerate"
  | description => "description"

/-- The characters between lists: plain ones but for opening brackets, which would begin a label, and the capital W,
    which every token holds. -/
def isListChar (c : Char) : Bool := isPlainChar c && c ≠ '[' && c ≠ 'W'

abbrev PlainText := { t : Text // Within isListChar t }

mutual

/-- Plain text and lists in turn. -/
inductive Flow where
  | text (t : PlainText)
  | list (t : PlainText) (name : Name) (items : Items) (rest : Flow)

/-- The items of a list, one at least. -/
inductive Items where
  | last (d : Flow)
  | item (d : Flow) (more : Items)

end

/-- The command in front of an item and the space behind it. -/
def itemMark : Text := "\\item "

mutual

def Flow.source : Flow → Text
  | .text t => t.1
  | .list t name items rest =>
    t.1 ++ ((Mark.opening name.text).source ++ (items.source ++ ((Mark.closing name.text).source ++ rest.source)))

def Items.source : Items → Text
  | .last d => itemMark ++ d.source
  | .item d more => itemMark ++ (d.source ++ more.source)

end

mutual

/-- How many lists there are in all. -/
def Flow.count : Flow → Nat
  | .text _ => 0
  | .list _ _ items rest => items.count + 1 + rest.count

def Items.count : Items → Nat
  | .last d => d.count
  | .item d more => d.count + more.count

end

/-! ### Lists as tokens -/

/-- A text between blank lines. -/
def ownLine (s : Text) : Text := "\n\n" ++ s ++ "\n\n"

/-- The text with tokens for its lists, when `issued` tokens have been handed out before; each list comes behind those
    inside it. -/
def Flow.placed : Flow → (issued : Nat) → Text
  | .text t, _ => t.1
  | .list t _ items rest, issued =>
    t.1 ++ ownLine (Block.Token.ofNumber .list (issued + items.count + 1)) ++ rest.placed (issued + items.count + 1)

/-- The texts of the items with tokens for the lists in them. -/
def Items.placed : Items → (issued : Nat) → List Text
  | .last d, issued => [d.placed issued]
  | .item d more, issued => d.placed issued :: more.placed (issued + d.count)

/-- A text between two others. -/
def enclose (tags : Text × Text) (s : Text) : Text := tags.1 ++ s ++ tags.2

/-- The tags around a list. -/
def Name.tags : Name → Text × Text
  | itemize => ("<ul class=\"latex-itemize\">", "</ul>")
  | enumerate => ("<ol class=\"latex-enumerate\">", "</ol>")
  | description => ("<dl class=\"latex-description\">", "</dl>")

/-- The tags around an item without a label. -/
def Name.itemTags : Name → Text × Text
  | itemize | enumerate => ("<li>", "</li>")
  | description => ("<dt></dt><dd>", "</dd>")

/-- The markup of a list, given that of its items. -/
def Name.markup (name : Name) (items : List Text) : Text := enclose name.tags (items.flatMap (enclose name.itemTags))

mutual

/-- The table when the lists have been stored one by one, each behind those inside it. -/
def Flow.stored : Flow → Table → Table
  | .text _, t => t
  | .list _ name items rest, t =>
    rest.stored ((items.stored t).register .list (name.markup ((items.placed t.issued).map fun s => dress (Text.strip s)))).2

def Items.stored : Items → Table → Table
  | .last d, t => d.stored t
  | .item d more, t => more.stored (d.stored t)

end

/-! ## Finding the leaf -/

/-- What stands in front of a leaf, or in its body: text without backslashes, begin markers of lists, and items. -/
inductive Part where
  | plain (t : Text) (ht : '\\' ∉ t)
  | begins (name : Name)
  | item

namespace Part

def source : Part → Text
  | plain t _ => t
  | begins name => (Mark.opening name.text).source
  | item => itemMark

/-- The pieces of a part for a reader that finds, of all marks, those to which `f` gives a value. -/
def pieces {α : Type} (f : Mark → Option α) : Part → List (Piece α)
  | plain t _ => t.map .char
  | begins name =>
    match f (.opening name.text) with
    | some a => [.hit a (Mark.opening name.text).source]
    | none => (Mark.opening name.text).source.map .char
  | item => itemMark.map .char

end Part

/-- The text of some parts. -/
def sources (ps : List Part) : Text := ps.flatMap Part.source

@[simp] theorem sources_nil : sources [] = [] := rfl

@[simp] theorem sources_cons (p : Part) (ps : List Part) : sources (p :: ps) = p.source ++ sources ps := rfl

@[simp] theorem sources_append (ps qs : List Part) : sources (ps ++ qs) = sources ps ++ sources qs := List.flatMap_append

theorem isPlainName_text (name : Name) : isPlainName name.text = true := by cases name <;> decide

section Cutting

variable {α : Type} {read : Reader α} {f : Mark → Option α}

theorem cut_chars (h : Finds read f) (hforward : Text.Forward read) {t : Text} (ht : '\\' ∉ t) (s : Text) :
    Text.cut read (t ++ s) = t.map .char ++ Text.cut read s := by
  obtain ⟨b, hb⟩ := Text.cutFrom_append (fun c hc before s => h.char before c s fun he => ht (he ▸ hc)) s none
  rw [Text.cut, hb, hforward.cutFrom_eq 0 b none, Text.cut]

/-- A mark is cut off whole, or stays if the reader does not look for it. -/
theorem cut_mark (h : Finds read f) (hforward : Text.Forward read) {m : Mark} (hm : isPlainName m.name = true) (s : Text) :
    Text.cut read (m.source ++ s) = (match f m with
      | some a => [.hit a m.source]
      | none => m.source.map .char) ++ Text.cut read s := by
  have hr := h.mark none m s hm
  have ht := Mark.not_mem_tail hm (c := '\\') (by decide) (by decide) (by decide)
  rw [m.source_eq] at hr ⊢
  generalize m.head ++ m.name ++ ['}'] = t at hr ht
  rw [List.cons_append] at hr ⊢
  cases hf : f m with
  | none =>
    rw [hf, Option.map_none] at hr
    rw [hforward.cut_cons hr, cut_chars h hforward ht]
    rfl
  | some a =>
    rw [hf, Option.map_some] at hr
    rw [hforward.cut_hit hr rfl]
    rfl

/-- Parts are cut one by one by a reader that does not stop at items. -/
theorem cut_sources (h : Finds read f) (hforward : Text.Forward read) (hitem : ∀ s, read none (itemMark ++ s) = none)
    (ps : List Part) (s : Text) : Text.cut read (sources ps ++ s) = ps.flatMap (Part.pieces f) ++ Text.cut read s := by
  induction ps with
  | nil => rfl
  | cons p ps ih =>
    rw [sources_cons, List.append_assoc, List.flatMap_cons, List.append_assoc, ← ih]
    cases p with
    | plain t ht => exact cut_chars h hforward ht _
    | begins name => exact cut_mark h hforward (m := .opening name.text) (isPlainName_text name) _
    | item =>
      have hread : read none ('\\' :: ("item " ++ (sources ps ++ s))) = none := hitem (sources ps ++ s)
      have hrest := cut_chars h hforward (t := "item ") (by decide) (sources ps ++ s)
      exact (hforward.cut_cons hread).trans (congrArg (.char '\\' :: ·) hrest)

end Cutting

/-! ### The readers of lists -/

theorem no_brace_text (name : Name) : '}' ∉ name.text := by cases name <;> decide

/-- The reader of begin markers of lists. -/
abbrev beginsList : Reader Text := Marker.beginsAny Extract.List.environmentNames

/-- What the reader of begin markers of lists makes of a mark. -/
def listName? (m : Mark) : Option Text :=
  Extract.List.environmentNames.findSome? fun name => if m = .opening name then some name else none

theorem finds_beginsList : Finds beginsList listName? := Marker.finds_beginsAny (by decide)

theorem listName?_opening (name : Name) : listName? (.opening name.text) = some name.text := by cases name <;> decide

theorem forward_beginsList : Text.Forward beginsList := fun _ _ _ => rfl

theorem forward_either (name : Text) : Text.Forward (Marker.either name) := fun _ _ _ => rfl

theorem beginsList_item (s : Text) : beginsList none (itemMark ++ s) = none := rfl

theorem either_item (name s : Text) : Marker.either name none (itemMark ++ s) = none := rfl

/-- Parts without begin markers. -/
def Flat (ps : List Part) : Prop := ∀ p ∈ ps, ∀ name, p ≠ .begins name

theorem pieces_of_flat {α : Type} {f : Mark → Option α} {ps : List Part} (h : Flat ps) :
    ps.flatMap (Part.pieces f) = (sources ps).map .char := by
  induction ps with
  | nil => rfl
  | cons p ps ih =>
    obtain ⟨hp, hps⟩ := List.forall_mem_cons.1 h
    rw [List.flatMap_cons, ih hps, sources_cons, List.map_append]
    cases p with
    | plain t ht => rfl
    | begins name => exact absurd rfl (hp name)
    | item => rfl

/-! ### Closing -/

/-- Pieces among which there is no end marker are in the body. -/
theorem prefix_of_close {d : Nat} {ps qs : List (Piece Bool)} (h : ∀ source, .hit false source ∉ ps)
    {body closing rest : Text} (hc : Environment.close d (ps ++ qs) = some (body, closing, rest)) :
    Piece.sources ps <+: body := by
  induction ps generalizing d body with
  | nil => exact List.nil_prefix
  | cons p ps ih =>
    have hrest : ∀ source, .hit false source ∉ ps := fun source hm => h source (List.mem_cons_of_mem p hm)
    cases p with
    | char c =>
      obtain ⟨⟨b, r⟩, hb, he⟩ := Option.map_eq_some_iff.1 hc
      obtain ⟨rfl, rfl⟩ := Prod.mk.inj he
      exact List.cons_prefix_cons.2 ⟨rfl, ih hrest hb⟩
    | hit sense source =>
      cases sense with
      | true =>
        obtain ⟨⟨b, r⟩, hb, he⟩ := Option.map_eq_some_iff.1 hc
        obtain ⟨rfl, rfl⟩ := Prod.mk.inj he
        exact (List.prefix_append_right_inj source).2 (ih hrest hb)
      | false => exact absurd List.mem_cons_self (h source)

theorem ends_not_mem_pieces (name : Text) (ps : List Part) (source : Text) :
    .hit false source ∉ ps.flatMap (Part.pieces (Marker.sense? name)) := by
  intro h
  obtain ⟨p, -, hp⟩ := List.mem_flatMap.1 h
  cases p with
  | plain t ht => simp [Part.pieces] at hp
  | item => simp [Part.pieces] at hp
  | begins other =>
    simp only [Part.pieces, Marker.sense?] at hp
    split at hp
    · rename_i a ha
      split at ha
      · simp [← Option.some.inj ha] at hp
      · simp at ha
    · simp at hp

theorem sources_pieces {α : Type} (f : Mark → Option α) (ps : List Part) :
    Piece.sources (ps.flatMap (Part.pieces f)) = sources ps := by
  have hchars (t : Text) : Piece.sources (t.map (Piece.char (α := α))) = t := by
    rw [Piece.sources, List.flatMap_map]
    exact List.flatMap_singleton' t
  rw [Piece.sources, List.flatMap_assoc]
  refine List.flatMap_congr fun p _ => ?_
  cases p with
  | plain t ht => exact hchars t
  | item => exact hchars itemMark
  | begins name =>
    simp only [Part.pieces]
    split
    · exact List.append_nil _
    · exact hchars _

theorem occurs_of_suffix {α : Type} {read : Reader α} (hforward : Text.Forward read) (hnil : read none [] = none) {s t : Text}
    (ht : t <:+ s) (hread : read none t ≠ none) : s.occurs read = true := by
  cases hfind : s.find? read with
  | some f => rw [Text.occurs, hfind]; rfl
  | none => exact absurd (hforward.misses_of_find?_eq_none hnil hfind none t ht) hread

theorem not_occurs_of_flat {ps : List Part} (hps : Flat ps) : (sources ps).occurs beginsList = false := by
  have hfind (before : Option Char) : Text.findFrom beginsList before (sources ps) = none := by
    induction ps generalizing before with
    | nil => rfl
    | cons p ps ih =>
      obtain ⟨hp, hflat⟩ := List.forall_mem_cons.1 hps
      cases p with
      | begins name => exact absurd rfl (hp name)
      | plain t ht =>
        obtain ⟨b, hb⟩ := finds_beginsList.findFrom_append ht (sources ps) before
        exact hb.trans (by rw [ih hflat, Option.map_none])
      | item =>
        obtain ⟨b, hb⟩ := finds_beginsList.findFrom_append (t := "item ") (by decide) (sources ps) (some '\\')
        have hread : beginsList before ('\\' :: ("item " ++ sources ps)) = none := beginsList_item (sources ps)
        have hrest : Text.findFrom beginsList (some '\\') ("item " ++ sources ps) = none := hb.trans (by rw [ih hflat, Option.map_none])
        change Text.findFrom beginsList before ('\\' :: ("item " ++ sources ps)) = none
        rw [Text.findFrom, hread]
        dsimp only
        rw [hrest, Option.map_none]
  rw [Text.occurs, Text.find?, hfind]
  rfl

section Leaf

variable (name : Name) (before : Text) (ps : List Part) (rest : Text)

/-- The body of an environment that begins in front of another one holds the begin marker of that one. -/
theorem occurs_of_at? (other : Name) {e : Environment}
    (he : Environment.at? name.text before ((Mark.opening name.text).source ++
      (sources ps ++ ((Mark.opening other.text).source ++ rest))) = some e) : e.body.occurs beginsList = true := by
  have hbegin := Marker.after?_begin (m := .opening name.text) (isPlainName_text name) (no_brace_text name)
    (sources ps ++ ((Mark.opening other.text).source ++ rest))
  rw [if_pos rfl] at hbegin
  simp only [Environment.at?, hbegin, Option.map_eq_some_iff] at he
  obtain ⟨⟨body, closing, rest'⟩, hclose, rfl⟩ := he
  have hparts : sources ps ++ ((Mark.opening other.text).source ++ rest) = sources (ps ++ [.begins other]) ++ rest := by
    simp [Part.source]
  rw [hparts, cut_sources (Marker.finds_either (no_brace_text name)) (forward_either _) (either_item _)] at hclose
  have hprefix := prefix_of_close (ends_not_mem_pieces _ _) hclose
  rw [sources_pieces, sources_append] at hprefix
  obtain ⟨more, hbody⟩ := hprefix
  have hread : beginsList none ((Mark.opening other.text).source ++ more) ≠ none := by
    rw [finds_beginsList.mark none (.opening other.text) _ (isPlainName_text other), listName?_opening]
    simp
  refine occurs_of_suffix forward_beginsList rfl ⟨sources ps, ?_⟩ hread
  rw [← hbody]
  simp [Part.source]

/-- A list without a list inside. -/
theorem at?_leaf (hps : Flat ps) :
    Environment.at? name.text before ((Mark.opening name.text).source ++ (sources ps ++ ((Mark.closing name.text).source ++ rest))) =
      some ⟨name.text, before, (Mark.opening name.text).source, sources ps, (Mark.closing name.text).source, rest⟩ := by
  have hbegin := Marker.after?_begin (m := .opening name.text) (isPlainName_text name) (no_brace_text name)
    (sources ps ++ ((Mark.closing name.text).source ++ rest))
  rw [if_pos rfl] at hbegin
  have hsense : Marker.sense? name.text (.closing name.text) = some false := by simp [Marker.sense?]
  simp only [Environment.at?, hbegin]
  rw [cut_sources (Marker.finds_either (no_brace_text name)) (forward_either _) (either_item _), pieces_of_flat hps,
    cut_mark (Marker.finds_either (no_brace_text name)) (forward_either _) (m := .closing name.text) (isPlainName_text name), hsense,
    Row.close_map_char, List.singleton_append, Environment.close, Text.sources_cut, Text.upTo_append_rest]
  simp

omit before in
/-- Lists that have begun and hold the leaf are passed over. -/
theorem leafFrom_sources (passed : List Text) (other : Name) :
    ∃ passed', passed'.reverse.flatten = passed.reverse.flatten ++ sources ps ∧
      Environment.leafFrom Extract.List.environmentNames passed
        (Text.cut beginsList (sources ps ++ ((Mark.opening other.text).source ++ rest))) =
      Environment.leafFrom Extract.List.environmentNames passed' (Text.cut beginsList ((Mark.opening other.text).source ++ rest)) := by
  induction ps generalizing passed with
  | nil => exact ⟨passed, by simp, rfl⟩
  | cons p ps ih =>
    have hcut := cut_sources finds_beginsList forward_beginsList beginsList_item [p] (sources ps ++ ((Mark.opening other.text).source ++ rest))
    have hsource : sources (p :: ps) ++ ((Mark.opening other.text).source ++ rest) =
        sources [p] ++ (sources ps ++ ((Mark.opening other.text).source ++ rest)) := by simp
    rw [hsource, hcut, List.flatMap_singleton]
    have hchars (t : Text) : ∃ passed', passed'.reverse.flatten = passed.reverse.flatten ++ (t ++ sources ps) ∧
        Environment.leafFrom Extract.List.environmentNames passed
          (t.map .char ++ Text.cut beginsList (sources ps ++ ((Mark.opening other.text).source ++ rest))) =
        Environment.leafFrom Extract.List.environmentNames passed' (Text.cut beginsList ((Mark.opening other.text).source ++ rest)) := by
      obtain ⟨bs, hbs, hflatten⟩ := Row.leafFrom_map_char Extract.List.environmentNames passed t
        (Text.cut beginsList (sources ps ++ ((Mark.opening other.text).source ++ rest)))
      obtain ⟨passed', hpassed, hleaf⟩ := ih bs
      exact ⟨passed', by rw [hpassed, hflatten, List.append_assoc], hbs.trans hleaf⟩
    cases p with
    | plain t ht => exact hchars t
    | item => exact hchars itemMark
    | begins name =>
      obtain ⟨passed', hpassed, hleaf⟩ := ih ((Mark.opening name.text).source :: passed)
      refine ⟨passed', by simpa [Part.source] using hpassed, Eq.trans ?_ hleaf⟩
      simp only [Part.pieces, listName?_opening]
      rw [List.singleton_append, Environment.leafFrom, Text.sources_cut]
      -- an environment that begins here is no leaf, closed or not
      split
      · rename_i e he
        rw [occurs_of_at? _ _ _ _ _ he, if_pos rfl]
      · rfl

/-- The leaf is found. -/
theorem leaf?_opened {qs : List Part} (hqs : Flat qs) :
    Environment.leaf? Extract.List.environmentNames
      (sources ps ++ ((Mark.opening name.text).source ++ (sources qs ++ ((Mark.closing name.text).source ++ rest)))) =
      some ⟨name.text, sources ps, (Mark.opening name.text).source, sources qs, (Mark.closing name.text).source, rest⟩ := by
  obtain ⟨passed, hpassed, hleaf⟩ := leafFrom_sources ps (sources qs ++ ((Mark.closing name.text).source ++ rest)) [] name
  rw [List.reverse_nil, List.flatten_nil, List.nil_append] at hpassed
  have hnames : Extract.List.environmentNames.isEmpty = false := rfl
  simp only [Environment.leaf?, hnames, if_false, Bool.false_eq_true]
  rw [hleaf, cut_mark finds_beginsList forward_beginsList (m := .opening name.text) (isPlainName_text name), listName?_opening]
  dsimp only
  rw [List.singleton_append, Environment.leafFrom, Text.sources_cut, at?_leaf _ _ _ _ hqs]
  dsimp only
  rw [not_occurs_of_flat hqs, hpassed]
  rfl

end Leaf

/-! ## Rendering a leaf -/

/-- Plain characters, tokens included, but for opening brackets. -/
def isPlacedChar (c : Char) : Bool := isPlainChar c && c ≠ '['

theorem within_token (kind : Block.Kind) (n : Nat) : Within isPlacedChar (Block.Token.ofNumber kind n) := by
  intro c hc
  have htoken := Block.isTokenChar_of_mem hc
  have hne {x : Char} (hx : Block.isTokenChar x = false) : c ≠ x := fun he => by
    rw [he, hx] at htoken
    cases htoken
  have hlow : c.toNat ≤ 90 := by
    simp only [Block.isTokenChar, isCapital, Char.isDigit, Bool.or_eq_true, Bool.and_eq_true, decide_eq_true_eq] at htoken
    rcases htoken with ⟨-, h⟩ | ⟨-, h⟩
    · exact h
    · exact Nat.le_trans h (by decide)
  have hprivate : ¬ 0xE000 ≤ c.toNat := by omega
  simp [isPlacedChar, isPlainChar, hprivate, hne (x := '\\') (by decide), hne (x := '$') (by decide), hne (x := '{') (by decide),
    hne (x := '}') (by decide), hne (x := '[') (by decide)]

theorem within_ownLine (kind : Block.Kind) (n : Nat) : Within isPlacedChar (ownLine (Block.Token.ofNumber kind n)) :=
  (Within.append (by decide) (within_token kind n)).append (by decide)

theorem PlainText.within (t : PlainText) : Within isPlacedChar t.1 := fun c hc => by
  have := t.2 c hc
  simp only [isListChar, isPlacedChar, Bool.and_eq_true] at this ⊢
  exact this.1

theorem Flow.within_placed : ∀ (d : Flow) (issued : Nat), Within isPlacedChar (d.placed issued)
  | .text t, _ => PlainText.within t
  | .list t _ _ rest, _ => ((PlainText.within t).append (within_ownLine _ _)).append (rest.within_placed _)

theorem Items.within_placed : ∀ (items : Items) (issued : Nat), ∀ t ∈ items.placed issued, Within isPlacedChar t
  | .last d, issued => fun t ht => by
    rw [List.mem_singleton.1 ht]
    exact d.within_placed issued
  | .item d more, issued => List.forall_mem_cons.2 ⟨d.within_placed issued, more.within_placed _⟩

/-- The body of a list whose items are given. -/
def body (ts : List Text) : Text := ts.flatMap (itemMark ++ ·)

theorem exists_parts {ts : List Text} (h : ∀ t ∈ ts, Within isPlacedChar t) : ∃ ps, Flat ps ∧ sources ps = body ts := by
  induction ts with
  | nil => exact ⟨[], by simp [Flat], rfl⟩
  | cons t ts ih =>
    obtain ⟨ht, hts⟩ := List.forall_mem_cons.1 h
    obtain ⟨ps, hflat, hsources⟩ := ih hts
    refine ⟨.item :: .plain t (ht.avoids (by decide)) :: ps, ?_, ?_⟩
    · exact List.forall_mem_cons.2 ⟨by simp, List.forall_mem_cons.2 ⟨by simp, hflat⟩⟩
    · simp [Part.source, hsources, body]

theorem sections_chars {α : Type} (t : Text) (ps : List (Piece α)) :
    Text.sections (t.map .char ++ ps) = (t ++ (Text.sections ps).1, (Text.sections ps).2) := by
  induction t with
  | nil => rfl
  | cons c t ih => simp only [List.map_cons, List.cons_append, Text.sections, ih]

theorem forward_item : Text.Forward (Command.reader "item") := fun _ _ _ => rfl

theorem cut_item {t : Text} (ht : '\\' ∉ t) (s : Text) : Text.cut (Command.reader "item") (itemMark ++ t ++ s) =
    .hit () "\\item" :: ((' ' :: t).map .char ++ Text.cut (Command.reader "item") s) := by
  have hread : Command.reader "item" none ('\\' :: ("item" ++ (' ' :: t ++ s))) = some ((), ' ' :: t ++ s) := rfl
  have hplain : ∀ c ∈ ' ' :: t, ∀ before s, Command.reader "item" before (c :: s) = none := by
    intro c hc before s
    have hne : '\\' ≠ c := by
      rintro rfl
      rcases List.mem_cons.1 hc with hc | hc
      · cases hc
      · exact ht hc
    rw [Command.reader, Command.after?, Text.after?, if_neg hne]
    rfl
  obtain ⟨b, hb⟩ := Text.cutFrom_append hplain s none
  have hrest : Text.cut (Command.reader "item") (' ' :: t ++ s) = (' ' :: t).map .char ++ Text.cut (Command.reader "item") s := by
    rw [Text.cut, hb, forward_item.cutFrom_eq 0 b none, Text.cut]
  have hhit := forward_item.cut_hit (t := "item") hread rfl
  rw [hrest] at hhit
  have hsource : itemMark ++ t ++ s = '\\' :: ("item" ++ (' ' :: t ++ s)) := List.append_assoc itemMark t s
  rw [hsource]
  exact hhit

theorem itemsOf_body {ts : List Text} (h : ∀ t ∈ ts, Within isPlacedChar t) :
    Extract.List.itemsOf (body ts) = ts.map fun t => (none, Text.strip t) := by
  have hsections : Text.sections (Text.cut (Command.reader "item") (body ts)) = ([], ts.map fun t => ((), ' ' :: t)) := by
    induction ts with
    | nil => rfl
    | cons t ts ih =>
      obtain ⟨ht, hts⟩ := List.forall_mem_cons.1 h
      have hbody : body (t :: ts) = itemMark ++ t ++ body ts := rfl
      rw [hbody, cut_item (ht.avoids (by decide)), Text.sections, sections_chars, ih hts]
      simp
  have hitem (t : Text) (ht : t ∈ ts) : Extract.List.item (' ' :: t) = (none, Text.strip t) := by
    have hbracket : '[' ∉ ' ' :: t := by simpa using (h t ht).avoids (c := '[') (by decide)
    rw [Extract.List.item, Group.read?, Group.read_of_not_mem (d := .bracket) hbracket]
    have hstrip : Text.strip (' ' :: t) = Text.strip t := by rw [Text.strip, List.dropWhile_cons_of_pos (by decide), Text.strip]
    exact congrArg (Prod.mk none) hstrip
  rw [Extract.List.itemsOf, hsections, List.map_map]
  exact List.map_congr_left hitem

/-- From every state of the bench the work gives `a` and leaves the state as it is. -/
def Still {α : Type} (work : Bench α) (a : α) : Prop := ∀ b : BenchState, work.run.run b = (.ok a, b)

namespace Still

variable {α β : Type} {work : Bench α} {a : α} {c : β}

theorem pure (a : α) : Still (Pure.pure a) a := fun _ => rfl

theorem of_eq {a a' : α} (h : a = a') : Still (Pure.pure a) a' := h ▸ pure a

theorem bind {next : α → Bench β} (h : Still work a) (hn : Still (next a) c) : Still (work >>= next) c :=
  fun b => (Bench.run_bind_of_ok (h b)).trans (hn b)

theorem mapM {f : α → Bench β} {g : α → β} {l : List α} (h : ∀ x ∈ l, Still (f x) (g x)) : Still (l.mapM f) (l.map g) := by
  induction l with
  | nil => exact pure []
  | cons x l ih =>
    rw [List.mapM_cons]
    exact (h x List.mem_cons_self).bind ((ih fun y hy => h y (List.mem_cons_of_mem x hy)).bind (pure _))

theorem inline {s : Text} (h : Within isPlainChar s) (kit : Kit) : Still (Bench.inline kit s) (dress s) := by
  intro b
  have hnotify : Still (Bench.notifyAll (Inline.notices kit.settings kit.engine s)) () := by
    intro b
    have hstate : { b with notices := b.notices ++ [] } = b := by rw [List.append_nil]
    rw [Inline.notices_plain h]
    exact congrArg (Prod.mk _) hstate
  refine hnotify.bind ?_ b
  rw [Inline.format_plain h]
  exact pure _

end Still

/-- An item without a label. -/
theorem still_listEntry (kit : Kit) {s : Text} (h : Within isPlainChar s) :
    Still (Extract.List.listEntry kit (none, s)) (enclose ("<li>", "</li>") (dress s)) := (Still.inline h kit).bind (.pure _)

theorem still_descriptionEntry (kit : Kit) {s : Text} (h : Within isPlainChar s) :
    Still (Extract.List.descriptionEntry kit (none, s)) (enclose ("<dt></dt><dd>", "</dd>") (dress s)) := by
  have hlabel : Still (Bench.inline kit ((none : Option Text).getD [])) [] := Still.inline (s := []) .nil kit
  exact hlabel.bind ((Still.inline h kit).bind (.pure _))

/-- The entries of a list, one after the other. -/
theorem still_entries {ts : List Text} (h : ∀ t ∈ ts, Within isPlacedChar t) {entry : Option Text × Text → Bench Text} {tags : Text × Text}
    (hentry : ∀ s, Within isPlainChar s → Still (entry (none, s)) (enclose tags (dress s))) :
    Still ((ts.map fun t => ((none : Option Text), Text.strip t)).mapM entry) (ts.map fun t => enclose tags (dress (Text.strip t))) := by
  have hplain : ∀ x ∈ ts.map fun t => ((none : Option Text), Text.strip t), x.1 = none ∧ Within isPlainChar x.2 := by
    intro x hx
    obtain ⟨t, ht, rfl⟩ := List.mem_map.1 hx
    refine ⟨rfl, fun c hc => ?_⟩
    have := h t ht c ((Text.strip_part t).subset hc)
    exact (Bool.and_eq_true_iff.1 this).1
  have hmap := @Still.mapM _ _ entry (fun x => enclose tags (dress x.2)) (ts.map fun t => (none, Text.strip t)) fun x hx => by
    obtain ⟨label, s⟩ := x
    obtain ⟨rfl, hs⟩ := hplain _ hx
    exact hentry s hs
  rwa [List.map_map] at hmap

theorem still_fragment (kit : Kit) (name : Name) {ts : List Text} (h : ∀ t ∈ ts, Within isPlacedChar t) :
    Still (Extract.List.fragment kit name.text (body ts)) (name.markup (ts.map fun t => dress (Text.strip t))) := by
  have hbracket : '[' ∉ body ts := by
    intro hm
    obtain ⟨t, ht, hc⟩ := List.mem_flatMap.1 hm
    rcases List.mem_append.1 hc with hc | hc
    · exact absurd hc (by decide)
    · exact (h t ht).avoids (by decide) hc
  have hflatten (tags : Text × Text) : (ts.map fun t => enclose tags (dress (Text.strip t))).flatten =
      (ts.map fun t => dress (Text.strip t)).flatMap (enclose tags) := by
    rw [List.flatMap_map, List.flatMap_def]
  rw [Extract.List.fragment, Group.read?, Group.read_of_not_mem (d := .bracket) hbracket]
  dsimp only
  rw [itemsOf_body h]
  cases name with
  | itemize | enumerate =>
    rw [if_neg (by decide)]
    refine (still_entries h fun s hs => still_listEntry kit hs).bind ?_
    rw [hflatten]
    refine .of_eq ?_
    simp only [Name.markup, enclose, List.append_assoc]
    rfl
  | description =>
    rw [if_pos (by decide)]
    refine (still_entries h fun s hs => still_descriptionEntry kit hs).bind ?_
    rw [hflatten]
    exact .pure _

/-! ## Rounds -/

/-- One round: a leaf is taken out. -/
def round (kit : Kit) (s : Text) : Bench (Option Text) :=
  match Environment.leaf? Extract.List.environmentNames s with
  | none => pure none
  | some e => do
    let token ← Bench.register .list (← Extract.List.fragment kit e.name e.body)
    pure (some (e.replaceBy token))

theorem extract_eq (kit : Kit) (s : Text) :
    Extract.List.extract kit s = Bench.rounds "list" kit.settings.listIterationCap (round kit) s := rfl

/-- The bench when a fragment has been stored. -/
def store (name : Name) (ts : List Text) (b : BenchState) : BenchState :=
  { b with table := (b.table.register .list (name.markup (ts.map fun t => dress (Text.strip t)))).2, extracted := b.extracted + 1 }

theorem run_round (kit : Kit) (ps : List Part) (name : Name) {ts : List Text} (h : ∀ t ∈ ts, Within isPlacedChar t) (rest : Text)
    (b : BenchState) :
    (round kit (sources ps ++ ((Mark.opening name.text).source ++ (body ts ++ ((Mark.closing name.text).source ++ rest))))).run.run b =
      (.ok (some (sources ps ++ (ownLine (Block.Token.ofNumber .list (b.table.issued + 1)) ++ rest))), store name ts b) := by
  obtain ⟨qs, hflat, hqs⟩ := exists_parts h
  rw [round, ← hqs, leaf?_opened name ps rest hflat]
  dsimp only
  rw [hqs]
  rw [Bench.run_bind_of_ok (still_fragment kit name h b)]
  refine congrArg (fun s => (Except.ok (some s), store name ts b)) ?_
  simp [Environment.replaceBy, ownLine]

/-- A round that finds no list. -/
theorem run_round_of_not_mem (kit : Kit) {s : Text} (h : '\\' ∉ s) (b : BenchState) : (round kit s).run.run b = (.ok none, b) := by
  have hmisses : Text.Misses beginsList s :=
    .of_not_mem (fun _ => rfl) (fun before c s hc => finds_beginsList.char before c s hc) h
  have hleaf : Environment.leaf? Extract.List.environmentNames s = none := by
    have hnames : Extract.List.environmentNames.isEmpty = false := rfl
    simp only [Environment.leaf?, hnames, if_false, Bool.false_eq_true]
    rw [hmisses.cut_eq]
    obtain ⟨bs, hbs, -⟩ := Row.leafFrom_map_char Extract.List.environmentNames [] s []
    rw [List.append_nil] at hbs
    rw [hbs, Environment.leafFrom]
  rw [round, hleaf]
  rfl

mutual

theorem Flow.issued_stored : ∀ (d : Flow) (t : Table), (d.stored t).issued = t.issued + d.count
  | .text _, _ => rfl
  | .list t name items rest, table => by
    rw [Flow.stored, rest.issued_stored, Table.issued_register, items.issued_stored, Flow.count]
    omega

theorem Items.issued_stored : ∀ (items : Items) (t : Table), (items.stored t).issued = t.issued + items.count
  | .last d, t => d.issued_stored t
  | .item d more, t => by
    rw [Items.stored, more.issued_stored, d.issued_stored, Items.count]
    omega

end

/-- The bench when the lists of a text have been stored. -/
def Flow.after (d : Flow) (b : BenchState) : BenchState :=
  { b with table := d.stored b.table, extracted := b.extracted + d.count }

def Items.after (items : Items) (b : BenchState) : BenchState :=
  { b with table := items.stored b.table, extracted := b.extracted + items.count }

/-- Some rounds on a text from a state of the bench. -/
def runs (kit : Kit) (cap : Int) (n : Nat) (s : Text) (b : BenchState) : Except Fault Text × BenchState :=
  (Bench.rounds.go "list" cap (round kit) n s).run.run b

theorem runs_succ {kit : Kit} {cap : Int} {n : Nat} {s s' : Text} {b b' : BenchState} (h : (round kit s).run.run b = (.ok (some s'), b')) :
    runs kit cap (n + 1) s b = runs kit cap n s' b' := by
  rw [runs, Bench.rounds.go, Bench.run_bind_of_ok h]
  rfl

/-- The bench when a list has been stored behind the lists in its items, and then the lists behind it. -/
theorem Flow.after_list (t : PlainText) (name : Name) (items : Items) (rest : Flow) (b : BenchState) :
    (Flow.list t name items rest).after b = rest.after (store name (items.placed b.table.issued) (items.after b)) := by
  have hcount : b.extracted + (items.count + 1 + rest.count) = b.extracted + items.count + 1 + rest.count := by omega
  simp only [Flow.after, Items.after, store, Flow.count, Flow.stored, hcount]

theorem issued_store (name : Name) (ts : List Text) (b : BenchState) : (store name ts b).table.issued = b.table.issued + 1 :=
  Table.issued_register b.table _ _

section Walk

variable (kit : Kit) (cap : Int)

mutual

/-- As many rounds as there are lists in a part of the text put tokens in their places, whatever lists have begun in
    front of it and whatever follows. -/
theorem runs_flow : ∀ (d : Flow) (n : Nat) (ps : List Part) (rest : Text) (b : BenchState),
    runs kit cap (n + d.count) (sources ps ++ (d.source ++ rest)) b =
      runs kit cap n (sources ps ++ (d.placed b.table.issued ++ rest)) (d.after b)
  | .text t, n, ps, rest, b => rfl
  | .list t name items more, n, ps, rest, b => by
    have hitems := items.within_placed b.table.issued
    have hissued : (items.after b).table.issued = b.table.issued + items.count := items.issued_stored b.table
    -- the lists in the items, while this one has begun
    have hinner := runs_items items (n + more.count + 1) (ps ++ [.plain t.1 (t.within.avoids (by decide)), .begins name])
      ((Mark.closing name.text).source ++ (more.source ++ rest)) b
    -- then the list itself, which is a leaf now
    have hround := @runs_succ kit cap (n + more.count) _ _ _ _ (run_round kit (ps ++ [.plain t.1 (t.within.avoids (by decide))]) name hitems
      (more.source ++ rest) (items.after b))
    have hplain : '\\' ∉ t.1 ++ ownLine (Block.Token.ofNumber .list (b.table.issued + items.count + 1)) :=
      (t.within.append (within_ownLine _ _)).avoids (by decide)
    -- then what follows it
    have hmore := runs_flow more n (ps ++ [.plain _ hplain]) rest (store name (items.placed b.table.issued) (items.after b))
    rw [issued_store, hissued] at hmore
    rw [hissued] at hround
    have hcount : n + (Flow.list t name items more).count = n + more.count + 1 + items.count := by rw [Flow.count]; omega
    rw [hcount, Flow.after_list]
    simp only [sources_append, sources_cons, sources_nil, Part.source, List.append_assoc, List.append_nil, Flow.source, Flow.placed] at *
    rw [hinner, hround, hmore]

theorem runs_items : ∀ (items : Items) (n : Nat) (ps : List Part) (rest : Text) (b : BenchState),
    runs kit cap (n + items.count) (sources ps ++ (items.source ++ rest)) b =
      runs kit cap n (sources ps ++ (body (items.placed b.table.issued) ++ rest)) (items.after b)
  | .last d, n, ps, rest, b => by
    have hflow := runs_flow d n (ps ++ [.item]) rest b
    simpa [Part.source, Items.source, Items.placed, body, Items.count, Items.after, Flow.after, Items.stored] using hflow
  | .item d more, n, ps, rest, b => by
    have hflow := runs_flow d (n + more.count) (ps ++ [.item]) (more.source ++ rest) b
    have hmore := runs_items more n (ps ++ [.item, .plain (d.placed b.table.issued) ((d.within_placed _).avoids (by decide))]) rest (d.after b)
    have hissued : (d.after b).table.issued = b.table.issued + d.count := d.issued_stored b.table
    have hafter : (Items.item d more).after b = more.after (d.after b) := by
      simp only [Items.after, Flow.after, Items.count, Items.stored, Nat.add_assoc]
    have hcount : n + (Items.item d more).count = n + more.count + d.count := by rw [Items.count]; omega
    rw [hissued] at hmore
    rw [hcount, hafter]
    simp only [sources_append, sources_cons, sources_nil, Part.source, List.append_assoc, List.append_nil, Items.source, Items.placed,
      body, List.flatMap_cons] at *
    rw [hflow, hmore]

end

end Walk

/-- The rounds take out all lists if there are no more of them than rounds. -/
theorem run_extract (kit : Kit) (d : Flow) (hcap : d.count ≤ kit.settings.listIterationCap) (b : BenchState) :
    ∃ b', (Extract.List.extract kit d.source).run.run b = (.ok (d.placed b.table.issued), b') ∧
      b'.table = d.stored b.table ∧ b'.extracted = b.extracted + d.count := by
  obtain ⟨n, hn⟩ : ∃ n, kit.settings.listIterationCap = n + d.count := Nat.exists_eq_add_of_le' hcap
  have hwalk := runs_flow kit kit.settings.listIterationCap d n [] [] b
  rw [List.append_nil, List.append_nil, sources_nil, List.nil_append, List.nil_append] at hwalk
  have hrun : (Extract.List.extract kit d.source).run.run b = runs kit kit.settings.listIterationCap (n + d.count) d.source b := by
    rw [extract_eq, Bench.rounds, Int.toNat_natCast, runs, hn]
  rw [hrun, hwalk]
  cases n with
  | zero => exact ⟨_, rfl, rfl, rfl⟩
  | succ n =>
    refine ⟨d.after b, ?_, rfl, rfl⟩
    have hnone := run_round_of_not_mem kit ((d.within_placed b.table.issued).avoids (c := '\\') (by decide)) (d.after b)
    rw [runs, Bench.rounds.go, Bench.run_bind_of_ok hnone]
    rfl

end Galley.Lists
