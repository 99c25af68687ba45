import Galley.Proofs.Building
import Galley.Proofs.Parts
import Galley.Proofs.WholeConstructs
import Galley.Typeset
import Mathlib.Data.List.TakeWhile
/-!
# Markup of the typesetter's own elements

Formed markup is made of characters other than angle brackets and of whole elements of a small vocabulary, each
with its end tag behind its content. It stays well-formed when it is put together and stripped. What is left of it
behind any of its tags is still made of whole tags (`Sound`), so the elements that are read from it are those of
its tags (`own_parse`).
-/

namespace Galley.Html

/-! ## Harmless elements -/

/-- No attribute handles an event, and an anchor leads to a web or mail address. -/
structure Harmless (name : Text) (attributes : List Attribute) : Prop where
  handlers : ∀ a ∈ attributes, ¬"on".toList <+: a.1
  addresses : name = "a".toList → ∀ a ∈ attributes, a.1 = "href".toList → a.2.startsWithAny Typeset.schemes = true

instance (name : Text) (as : List Attribute) : Decidable (Harmless name as) :=
  decidable_of_iff ((∀ a ∈ as, ¬"on".toList <+: a.1) ∧
      (name = "a".toList → ∀ a ∈ as, a.1 = "href".toList → a.2.startsWithAny Typeset.schemes = true))
    ⟨fun h => ⟨h.1, h.2⟩, fun h => ⟨h.1, h.2⟩⟩

/-- An element is harmless and its text is markup. -/
def Node.Clean : Node → Prop
  | .element name attributes _ => Harmless name attributes ∧ name ∉ rawNames
  | _ => True

/-! ## The vocabulary -/

/-- The elements of typeset pages. -/
def vocabulary : List Text :=
  ["div", "p", "h1", "h2", "h3", "h4", "strong", "em", "u", "code", "span", "sup", "sub", "br", "figure",
    "figcaption", "a"]

/-- The attributes of their elements. -/
def vocabularyAttributes : List Text := ["class", "style", "href", "target", "rel"]

/-- Characters that end a quoted value or a tag, or begin one. -/
def isDelimiter (c : Char) : Bool := c = '"' || c = '\'' || c = '<' || c = '>'

/-- An element of the vocabulary: no class holds a quote or an angle bracket, and every link leads to a web or
    mail address. -/
structure Own (name : Text) (as : List Attribute) : Prop where
  name : name ∈ vocabulary
  attributes : ∀ a ∈ as, a.1 ∈ vocabularyAttributes
  classes : ∀ a ∈ as, a.1 = "class".toList → ∀ c ∈ a.2, isDelimiter c = false
  addresses : ∀ a ∈ as, a.1 = "href".toList → a.2.startsWithAny Typeset.schemes = true

/-- A node is text or an element of the vocabulary. -/
def Node.Own : Node → Prop
  | .element name attributes _ => Html.Own name attributes
  | .text _ => True
  | .note _ _ => False

instance (name : Text) (as : List Attribute) : Decidable (Own name as) :=
  decidable_of_iff (name ∈ vocabulary ∧ (∀ a ∈ as, a.1 ∈ vocabularyAttributes) ∧
      (∀ a ∈ as, a.1 = "class".toList → ∀ c ∈ a.2, isDelimiter c = false) ∧
      ∀ a ∈ as, a.1 = "href".toList → a.2.startsWithAny Typeset.schemes = true)
    ⟨fun h => ⟨h.1, h.2.1, h.2.2.1, h.2.2.2⟩, fun h => ⟨h.1, h.2, h.3, h.4⟩⟩

namespace Own

variable {name : Text} {as : List Attribute}

theorem harmless (h : Own name as) : Harmless name as where
  handlers a ha := (by decide : ∀ n ∈ vocabularyAttributes, ¬"on".toList <+: n) a.1 (h.attributes a ha)
  addresses _ := h.addresses

theorem not_raw (h : Own name as) : name ∉ rawNames := (by decide : ∀ n ∈ vocabulary, n ∉ rawNames) name h.name

theorem keepLast (h : Own name as) : Own name (keepLast as) where
  name := h.name
  attributes a ha := h.attributes a (mem_keepLast ha)
  classes a ha := h.classes a (mem_keepLast ha)
  addresses a ha := h.addresses a (mem_keepLast ha)

theorem settle (h : Own name as) : Own name (as.map (Build.settleAttribute name)) := by
  have hvalue (a : Attribute) : (Build.settleAttribute name a).2 = a.2 ∨ (Build.settleAttribute name a).2 = a.2.collapse := by
    unfold Build.settleAttribute
    split
    · exact .inr rfl
    · exact .inl rfl
  refine ⟨h.name, ?_, ?_, ?_⟩
  · intro a ha
    obtain ⟨b, hb, rfl⟩ := List.mem_map.1 ha
    rw [Build.settleAttribute_fst]
    exact h.attributes b hb
  · intro a ha hclass c hc
    obtain ⟨b, hb, rfl⟩ := List.mem_map.1 ha
    rw [Build.settleAttribute_fst] at hclass
    have hb := h.classes b hb hclass
    rcases hvalue b with he | he
    · exact hb c (he ▸ hc)
    · rcases Text.mem_collapse (he ▸ hc) with hc | rfl
      · exact hb c hc
      · rfl
  · intro a ha hhref
    obtain ⟨b, hb, rfl⟩ := List.mem_map.1 ha
    rw [Build.settleAttribute_fst] at hhref
    have hlist : Build.isWordList name b.1 = false := by
      rw [hhref]
      exact (by decide : ∀ n ∈ vocabulary, Build.isWordList n "href".toList = false) name h.name
    rw [Build.settleAttribute, hlist]
    exact h.addresses b hb hhref

end Own

theorem Node.Own.clean {n : Node} (h : n.Own) : n.Clean := by
  cases n with
  | element name attributes children => exact ⟨Html.Own.harmless h, Html.Own.not_raw h⟩
  | _ => trivial

def isClassChar (c : Char) : Bool := isAsciiLetter c || c.isDigit || c = '_' || c = '-' || c = ' '

/-- Attributes that are always the same. -/
def fixedAttributes : List Attribute :=
  [("style", "font-variant: small-caps;"), ("target", "_blank"), ("rel", "noopener noreferrer")]

/-- A tag that can be written and is one of the vocabulary. Only the words of a class and the address of a link
    depend on the document. -/
structure IsTag (name : Text) (as : List Attribute) : Prop where
  plainName : isPlainTagName name = true
  plain : PlainAttributes as
  values : ∀ a ∈ as, a ∈ fixedAttributes ∨ (a.1 = "class".toList ∧ ∀ c ∈ a.2, isClassChar c = true) ∨
    (a.1 = "href".toList ∧ ∀ c ∈ a.2, isDelimiter c = false)
  own : Own (Text.lower name) (as.map readBack)

instance (as : List Attribute) : Decidable (PlainAttributes as) :=
  inferInstanceAs (Decidable (∀ a ∈ as, isPlainTagName a.1 = true ∧ '"' ∉ a.2))

instance (name : Text) (as : List Attribute) : Decidable (IsTag name as) :=
  decidable_of_iff (isPlainTagName name = true ∧ PlainAttributes as ∧
      (∀ a ∈ as, a ∈ fixedAttributes ∨ (a.1 = "class".toList ∧ ∀ c ∈ a.2, isClassChar c = true) ∨
        (a.1 = "href".toList ∧ ∀ c ∈ a.2, isDelimiter c = false)) ∧
      Own (Text.lower name) (as.map readBack))
    ⟨fun h => ⟨h.1, h.2.1, h.2.2.1, h.2.2.2⟩, fun h => ⟨h.1, h.2, h.3, h.4⟩⟩

/-! ## Well-formed markup -/

/-- Text without angle brackets, and elements of the vocabulary with their end tags behind their content. -/
inductive Formed : Text → Prop where
  | nil : Formed []
  | char {c : Char} {s : Text} (hc : c ≠ '<' ∧ c ≠ '>') (hs : Formed s) : Formed (c :: s)
  | void {name : Text} {as : List Attribute} {s : Text} (htag : IsTag name as) (hvoid : name ∈ voidNames) (hs : Formed s) :
      Formed ('<' :: (startSource name as ++ s))
  | element {name : Text} {as : List Attribute} {content s : Text} (htag : IsTag name as) (hvoid : name ∉ voidNames)
      (hcontent : Formed content) (hs : Formed s) :
      Formed ('<' :: (startSource name as ++ (content ++ '<' :: '/' :: (stopSource name ++ s))))

/-- The same with the tags of `T`. -/
inductive FormedOf (T : Text → List Attribute → Prop) : Text → Prop where
  | nil : FormedOf T []
  | char {c : Char} {s : Text} (hc : c ≠ '<' ∧ c ≠ '>') (hs : FormedOf T s) : FormedOf T (c :: s)
  | void {name : Text} {as : List Attribute} {s : Text} (htag : T name as) (hvoid : name ∈ voidNames) (hs : FormedOf T s) :
      FormedOf T ('<' :: (startSource name as ++ s))
  | element {name : Text} {as : List Attribute} {content s : Text} (htag : T name as) (hvoid : name ∉ voidNames)
      (hcontent : FormedOf T content) (hs : FormedOf T s) :
      FormedOf T ('<' :: (startSource name as ++ (content ++ '<' :: '/' :: (stopSource name ++ s))))

/-- A pair of tags around well-formed markup. -/
theorem IsTag.wrap {name content : Text} {as : List Attribute} (htag : IsTag name as) (hvoid : name ∉ voidNames)
    (hs : Formed content) : Formed ('<' :: startSource name as ++ content ++ '<' :: '/' :: stopSource name) := by
  simpa using Formed.element htag hvoid hs .nil

variable {T : Text → List Attribute → Prop}

theorem Formed.of {s : Text} (h : Formed s) : FormedOf IsTag s := by
  induction h with
  | nil => exact .nil
  | char hc _ ih => exact .char hc ih
  | void htag hvoid _ ih => exact .void htag hvoid ih
  | element htag hvoid _ _ ihcontent ih => exact .element htag hvoid ihcontent ih

namespace FormedOf

variable {s t : Text}

theorem append (hs : FormedOf T s) (ht : FormedOf T t) : FormedOf T (s ++ t) := by
  induction hs with
  | nil => exact ht
  | char hc _ ih => exact .char hc ih
  | void htag hvoid _ ih =>
    rw [List.cons_append, List.append_assoc]
    exact .void htag hvoid ih
  | element htag hvoid hcontent _ _ ih =>
    simp only [List.cons_append, List.append_assoc]
    exact .element htag hvoid hcontent ih

theorem of_not_mem (h : '<' ∉ s ∧ '>' ∉ s) : FormedOf T s := by
  induction s with
  | nil => exact .nil
  | cons c s ih =>
    simp only [List.mem_cons, not_or] at h
    exact .char ⟨Ne.symm h.1.1, Ne.symm h.2.1⟩ (ih ⟨h.1.2, h.2.2⟩)

theorem tail {c : Char} (hc : c ≠ '<') (h : FormedOf T (c :: s)) : FormedOf T s := by
  generalize ht : c :: s = t at h
  cases h with
  | nil => cases ht
  | char _ hs =>
    obtain ⟨-, rfl⟩ := List.cons.inj ht
    exact hs
  | void => exact absurd (List.cons.inj ht).1 hc
  | element => exact absurd (List.cons.inj ht).1 hc

/-- Characters that begin no tag can be dropped. -/
theorem drop {p : Text} (hp : '<' ∉ p) (h : FormedOf T (p ++ s)) : FormedOf T s := by
  induction p with
  | nil => exact h
  | cons c p ih =>
    simp only [List.mem_cons, not_or] at hp
    exact ih hp.2 (h.tail (Ne.symm hp.1))

/-- A last character that ends no tag stands behind the tag. -/
theorem behind_tag {c : Char} (hc : c ≠ '>') {u v : Text} (h : s ++ [c] = u ++ '>' :: v) :
    ∃ w, w ++ [c] = v ∧ s = u ++ '>' :: w := by
  rcases List.eq_nil_or_concat v with rfl | ⟨w, d, rfl⟩
  · exact absurd (List.append_singleton_inj.1 h).2 hc
  · rw [List.concat_eq_append, ← List.cons_append, ← List.append_assoc] at h
    obtain ⟨rfl, rfl⟩ := List.append_singleton_inj.1 h
    exact ⟨w, List.concat_eq_append.symm, rfl⟩

theorem dropLast {c : Char} (hc : c ≠ '>') (h : FormedOf T (s ++ [c])) : FormedOf T s := by
  generalize ht : s ++ [c] = t at h
  induction h generalizing s with
  | nil => simp at ht
  | char hd hs ih =>
    cases s with
    | nil => exact .nil
    | cons x s =>
      obtain ⟨rfl, hrest⟩ := List.cons.inj ht
      exact .char hd (ih hrest)
  | @void name as u htag hvoid _ ih =>
    obtain ⟨w, hw, rfl⟩ := behind_tag (u := '<' :: (name ++ attributesSource as)) hc (v := u) (by simpa [startSource] using ht)
    simpa [startSource] using FormedOf.void htag hvoid (ih hw)
  | @element name as content u htag hvoid hcontent _ _ ih =>
    obtain ⟨w, hw, rfl⟩ := behind_tag (u := '<' :: (startSource name as ++ (content ++ '<' :: '/' :: name))) hc (v := u)
      (by simpa [stopSource] using ht)
    simpa [stopSource] using FormedOf.element htag hvoid hcontent (ih hw)

theorem strip (h : FormedOf T s) : FormedOf T (Text.strip s) := by
  have hblank {c d : Char} (hc : isBlank c = true) (hd : isBlank d = false) : c ≠ d := by
    rintro rfl
    rw [hc] at hd
    cases hd
  have dropRight (blanks : Text) (t : Text) (hb : ∀ c ∈ blanks, isBlank c = true) (ht : FormedOf T (t ++ blanks.reverse)) :
      FormedOf T t := by
    induction blanks with
    | nil => simpa using ht
    | cons c blanks ih =>
      obtain ⟨hc, hb⟩ := List.forall_mem_cons.1 hb
      rw [List.reverse_cons, ← List.append_assoc] at ht
      exact ih hb (ht.dropLast (hblank hc (by decide)))
  have hleft : FormedOf T (s.dropWhile isBlank) := by
    refine drop (p := s.takeWhile isBlank) (fun hm => ?_) (by rwa [List.takeWhile_append_dropWhile])
    exact hblank (List.mem_takeWhile_imp hm) (d := '<') (by decide) rfl
  refine dropRight ((s.dropWhile isBlank).reverse.takeWhile isBlank) _ (fun c hc => List.mem_takeWhile_imp hc) ?_
  rw [Text.strip, Text.dropWhileRight, ← List.reverse_append, List.takeWhile_append_dropWhile, List.reverse_reverse]
  exact hleft

theorem formed (hT : ∀ {name as}, T name as → IsTag name as) (h : FormedOf T s) : Formed s := by
  induction h with
  | nil => exact .nil
  | char hc _ ih => exact .char hc ih
  | void htag hvoid _ ih => exact .void (hT htag) hvoid ih
  | element htag hvoid _ _ ihcontent ih => exact .element (hT htag) hvoid ihcontent ih

/-- A pair of tags around well-formed markup. -/
theorem wrap {name : Text} {as : List Attribute} (htag : T name as) (hvoid : name ∉ voidNames) (hs : FormedOf T s) :
    FormedOf T ('<' :: startSource name as ++ s ++ '<' :: '/' :: stopSource name) := by
  simpa using FormedOf.element htag hvoid hs .nil

end FormedOf

/-! ## Sound markup -/

/-- Characters that begin no tag, start tags of `T`, and end tags. -/
inductive Sound (T : Text → List Attribute → Prop) : Text → Prop where
  | nil : Sound T []
  | char {c : Char} {s : Text} (hc : c ≠ '<') (hs : Sound T s) : Sound T (c :: s)
  | start {name : Text} {as : List Attribute} {s : Text} (htag : T name as) (hs : Sound T s) :
      Sound T ('<' :: (startSource name as ++ s))
  | stop {name s : Text} (hname : isPlainTagName name = true) (hs : Sound T s) : Sound T ('<' :: '/' :: (stopSource name ++ s))

namespace Sound

variable {s t : Text}

theorem append (hs : Sound T s) (ht : Sound T t) : Sound T (s ++ t) := by
  induction hs with
  | nil => exact ht
  | char hc _ ih => exact .char hc ih
  | start htag _ ih =>
    rw [List.cons_append, List.append_assoc]
    exact .start htag ih
  | stop hname _ ih =>
    rw [List.cons_append, List.cons_append, List.append_assoc]
    exact .stop hname ih

end Sound

theorem FormedOf.sound (hT : ∀ {name as}, T name as → IsTag name as) {s : Text} (h : FormedOf T s) : Sound T s := by
  induction h with
  | nil => exact .nil
  | char hc _ ih => exact .char hc.1 ih
  | void htag _ _ ih => exact .start htag ih
  | element htag _ _ _ ihcontent ih => exact .start htag (ihcontent.append (.stop (hT htag).plainName ih))

/-! ## What is read from sound markup -/

/-- A token is text, an end tag or a start tag of `T` as it is read back. -/
def Token.Of (T : Text → List Attribute → Prop) : Token → Prop
  | .start name attributes _ => ∃ source as, T source as ∧ name = Text.lower source ∧ attributes = keepLast (as.map readBack)
  | .note _ _ => False
  | _ => True

/-- What stands behind the angle bracket of a start tag of `T` or of an end tag. -/
def IsTagSource (T : Text → List Attribute → Prop) (u : Text) : Prop :=
  (∃ name as, T name as ∧ u = startSource name as) ∨ ∃ name, isPlainTagName name = true ∧ u = '/' :: stopSource name

theorem Sound.whole {s : Text} (h : Sound T s) : Whole (IsTagSource T) s := by
  induction h with
  | nil => exact .nil
  | char hc _ ih => exact .char hc ih
  | start htag _ ih => exact .construct (.inl ⟨_, _, htag, rfl⟩) ih
  | stop hname _ ih => exact .construct (u := '/' :: stopSource _) (.inr ⟨_, hname, rfl⟩) ih

/-- A tag is read whole, and opens no element whose text is not markup. -/
theorem reads_tag (hT : ∀ {name as}, T name as → IsTag name as) {u : Text} (hu : IsTagSource T u) : Reads (Token.Of T) u := by
  intro rest
  rcases hu with ⟨name, as, htag, rfl⟩ | ⟨name, hname, rfl⟩
  · have hraw : Text.lower name ∉ rawNames := (hT htag).own.not_raw
    exact ⟨_, construct_startTag (hT htag).plainName (hT htag).plain.readable none rest, ⟨name, as, htag, rfl, rfl⟩,
      by simp [rawAfter, hraw]⟩
  · exact ⟨_, construct_endTag hname rest, trivial, rfl⟩

/-- A node is text or an element with a tag of `T` as it is read back. -/
def Node.Of (T : Text → List Attribute → Prop) : Node → Prop
  | .element name attributes _ => ∃ source as, T source as ∧ name = Text.lower source ∧
      attributes = (keepLast (as.map readBack)).map (Build.settleAttribute name)
  | .text _ => True
  | .note _ _ => False

/-- All that is read from well-formed markup is text and elements with its tags. -/
theorem of_parse (hT : ∀ {name as}, T name as → IsTag name as) {s : Text} (h : FormedOf T s) :
    EveryOf (Node.Of T) (parse s) := by
  have htokens := (h.sound hT).whole.forall_tokens (fun _ => reads_tag hT) fun _ => trivial
  refine everyOf_parse (fun _ => trivial) (fun kind t ht _ => htokens _ ht) fun name attributes closed ht children => ?_
  obtain ⟨source, as, htag, hname, rfl⟩ := htokens _ ht
  exact ⟨source, as, htag, hname, rfl⟩

theorem Node.Of.own {n : Node} (h : n.Of IsTag) : n.Own := by
  cases n with
  | text s => trivial
  | note kind s => exact h
  | element name attributes children =>
    obtain ⟨source, as, htag, rfl, rfl⟩ := h
    exact htag.own.keepLast.settle

/-- All that is read from well-formed markup is text and elements of the vocabulary. -/
theorem own_parse {s : Text} (h : Formed s) : EveryOf Node.Own (parse s) := (of_parse id h.of).imp fun _ => Node.Of.own

end Galley.Html
