import Galley.Html.Fragment
import Galley.Proofs.Cutting
import Mathlib.Data.List.TakeDrop
/-!
# Reading tags back

A tag that is written out is read back whole, whatever follows it: its name and its attributes, their values
with references read (`construct_startTag`, `construct_endTag`). Its token comes before the tokens of what follows
(`tokens_startTag`, `tokens_endTag`).
-/

namespace Galley.Html

/-! ## Names -/

def isNameLetter (c : Char) : Bool := isAsciiLetter c || isAsciiDigit c

/-- A name of a tag or an attribute: a letter, and letters and digits behind it. -/
def isPlainTagName : Text → Bool
  | [] => false
  | c :: s => isAsciiLetter c && s.all isNameLetter

theorem not_isBlank_of_isNameLetter {c : Char} (h : isNameLetter c = true) : isBlank c = false := by
  have hc : 48 ≤ c.toNat ∧ c.toNat ≤ 122 := by
    simp only [isNameLetter, isAsciiLetter, isAsciiDigit, Bool.or_eq_true, Bool.and_eq_true, decide_eq_true_eq] at h
    rcases h with (⟨h, h'⟩ | ⟨h, h'⟩) | ⟨h, h'⟩
    · exact ⟨Nat.le_trans (by decide) (show 97 ≤ c.toNat from h), h'⟩
    · exact ⟨Nat.le_trans (by decide) (show 65 ≤ c.toNat from h), Nat.le_trans (show c.toNat ≤ 90 from h') (by decide)⟩
    · exact ⟨h, Nat.le_trans (show c.toNat ≤ 57 from h') (by decide)⟩
  simp only [isBlank, inRanges, blankRanges, List.any_cons, List.any_nil, Bool.or_false, Bool.or_eq_false_iff,
    Bool.and_eq_false_iff, decide_eq_false_iff_not]
  omega

theorem ne_of_isNameLetter {c d : Char} (h : isNameLetter c = true) (hd : isNameLetter d = false) : c ≠ d := by
  rintro rfl
  rw [h] at hd
  cases hd

theorem isNameLetter_of_mem {name : Text} (h : isPlainTagName name = true) {c : Char} (hc : c ∈ name) :
    isNameLetter c = true := by
  cases name with
  | nil => cases hc
  | cons d s =>
    simp only [isPlainTagName, Bool.and_eq_true, List.all_eq_true] at h
    rcases List.mem_cons.1 hc with rfl | hc
    · simp [isNameLetter, h.1]
    · exact h.2 c hc

/-- A scan stops behind the characters that it accepts. -/
theorem span_append {t : Text} {p : Char → Bool} (h : ∀ c ∈ t, p c = true) {d : Char} (hd : p d = false) (rest : Text) :
    (t ++ d :: rest).span p = (t, d :: rest) := by
  rw [List.span_eq_takeWhile_dropWhile, List.takeWhile_append_of_pos h, List.dropWhile_append_of_pos h,
    List.takeWhile_cons_of_neg (by simp [hd]), List.dropWhile_cons_of_neg (by simp [hd]), List.append_nil]

theorem span_letters {t : Text} (h : ∀ c ∈ t, isNameLetter c = true) {p : Char → Bool}
    (hp : ∀ c, isNameLetter c = true → p c = true) {d : Char} (hd : p d = false) (rest : Text) :
    (t ++ d :: rest).span p = (t, d :: rest) :=
  span_append (fun c hc => hp c (h c hc)) hd rest

/-! ## Escaped text -/

theorem not_mem_escape (s : Text) : '<' ∉ escape s ∧ '>' ∉ escape s := by
  have main (c : Char) : '<' ∉ escapeChar c ∧ '>' ∉ escapeChar c := by
    unfold escapeChar
    split
    · decide
    · split
      · decide
      · split
        · decide
        · rename_i hlt hgt
          simp [Ne.symm hlt, Ne.symm hgt]
  constructor
  · intro h
    obtain ⟨c, -, hc⟩ := List.mem_flatMap.1 h
    exact (main c).1 hc
  · intro h
    obtain ⟨c, -, hc⟩ := List.mem_flatMap.1 h
    exact (main c).2 hc

/-! ## Values -/

theorem valueReference_eq_none {c : Char} (hc : c ≠ '&') (before : Option Char) (s : Text) :
    valueReference before (c :: s) = none := by
  unfold valueReference
  split
  · rename_i he
    exact absurd (List.cons.inj he).1 hc
  · rename_i he
    exact absurd (List.cons.inj he).1 hc
  · rfl

theorem forward_valueReference : Text.Forward valueReference := fun b b' s => by
  match s with
  | [] => rfl
  | c :: s =>
    by_cases hc : c = '&'
    · subst hc
      match s with
      | [] => rfl
      | d :: s =>
        by_cases hd : d = '#'
        · subst hd
          rfl
        · unfold valueReference
          simp [hd]
    · rw [valueReference_eq_none hc, valueReference_eq_none hc]

/-- A value without references is read back as it is. -/
theorem unescapeValue_eq {s : Text} (h : '&' ∉ s) : unescapeValue s = s := by
  refine Text.Misses.replaceAll_eq (fun before t ht => ?_) id
  cases t with
  | nil => rfl
  | cons c t => exact valueReference_eq_none (fun he => h (he ▸ ht.subset List.mem_cons_self)) before t

theorem valueReference_named {name : Text} (hhash : name.head? ≠ some '#') (hname : ∀ c ∈ name, isNameChar c = true)
    (hne : name ≠ []) (hlength : name.length ≤ 32) (before : Option Char) (s : Text) :
    valueReference before ('&' :: (name ++ ';' :: s)) = some (namedText name true, s) := by
  have hsemicolon : isNameChar ';' = false := by decide
  have htake : ((name ++ ';' :: s).takeWhile isNameChar).take 32 = name := by
    rw [List.takeWhile_append_of_pos hname, List.takeWhile_cons_of_neg (by simp [hsemicolon]), List.append_nil,
      List.take_of_length_le hlength]
  unfold valueReference
  split
  · rename_i he
    cases name with
    | nil => exact absurd rfl hne
    | cons c t =>
      obtain ⟨rfl, -⟩ := List.cons.inj (List.cons.inj he).2
      exact absurd rfl hhash
  · rename_i he
    obtain ⟨-, rfl⟩ := List.cons.inj he
    simp only [htake]
    simp [hne, semicolon]
  · rename_i hnone
    exact absurd rfl (hnone _)

/-- A character that is written as a reference is read back. -/
theorem valueReference_escapeQuotedChar {c : Char} (hc : escapeQuotedChar c ≠ [c]) :
    ∃ t, escapeQuotedChar c = '&' :: t ∧ ∀ before s, valueReference before ('&' :: (t ++ s)) = some ([c], s) := by
  have hnamed {n : Text} {d : Char} (hname : n.head? ≠ some '#' ∧ (∀ c ∈ n, isNameChar c = true) ∧ n ≠ [] ∧
      n.length ≤ 32) (hd : namedText n true = [d]) (before : Option Char) (s : Text) :
      valueReference before ('&' :: ((n ++ [';']) ++ s)) = some ([d], s) := by
    rw [List.append_assoc, List.singleton_append, valueReference_named hname.1 hname.2.1 hname.2.2.1 hname.2.2.2, hd]
  unfold escapeQuotedChar escapeChar at hc ⊢
  split_ifs at hc ⊢ with h₁ h₂ h₃ h₄ h₅
  · subst h₁
    exact ⟨"quot;", rfl, hnamed (n := "quot") (by decide) (by decide +kernel)⟩
  · subst h₂
    refine ⟨"#x27;", rfl, fun before s => ?_⟩
    have hdigits : ('x' :: '2' :: '7' :: ';' :: s).span isAsciiDigit = ([], 'x' :: '2' :: '7' :: ';' :: s) :=
      span_append (t := []) (by simp) (d := 'x') (by decide) ('2' :: '7' :: ';' :: s)
    have hhex : ('2' :: '7' :: ';' :: s).span isHexDigit = (['2', '7'], ';' :: s) :=
      span_append (t := ['2', '7']) (by decide) (d := ';') (by decide) s
    have hnumber : numberedText (hexOf ['2', '7']) = ['\''] := by decide +kernel
    have hsource : "#x27;".toList ++ s = '#' :: 'x' :: '2' :: '7' :: ';' :: s := rfl
    rw [hsource, valueReference.eq_1]
    simp only [hdigits, hhex, hnumber, semicolon]
    rfl
  · subst h₃
    exact ⟨"amp;", rfl, hnamed (n := "amp") (by decide) (by decide +kernel)⟩
  · subst h₄
    exact ⟨"lt;", rfl, hnamed (n := "lt") (by decide) (by decide +kernel)⟩
  · subst h₅
    exact ⟨"gt;", rfl, hnamed (n := "gt") (by decide) (by decide +kernel)⟩
  · contradiction

theorem flatMap_cutFrom_escapeQuoted {f : Piece Text → Text} (hchar : ∀ c, f (.char c) = [c])
    (hhit : ∀ a source, f (.hit a source) = a) (s : Text) (before : Option Char) :
    (Text.cutFrom valueReference 0 before (escapeQuoted s)).flatMap f = s := by
  induction s generalizing before with
  | nil => rfl
  | cons c s ih =>
    have hcons : escapeQuoted (c :: s) = escapeQuotedChar c ++ escapeQuoted s := List.flatMap_cons
    rw [hcons]
    by_cases hc : escapeQuotedChar c = [c]
    · have hamp : c ≠ '&' := by
        rintro rfl
        exact absurd hc (by decide)
      rw [hc, List.singleton_append, Text.cutFrom, valueReference_eq_none hamp]
      simp only [List.flatMap_cons, hchar, ih, List.singleton_append]
    · obtain ⟨t, ht, hread⟩ := valueReference_escapeQuotedChar hc
      obtain ⟨b, hb⟩ := Text.cutFrom_hit (hread before (escapeQuoted s))
      rw [ht, List.cons_append, hb]
      simp only [List.flatMap_cons, hhit, ih, List.singleton_append]

/-- A value that was escaped is read back as it was. -/
theorem unescapeValue_escapeQuoted (s : Text) : unescapeValue (escapeQuoted s) = s :=
  flatMap_cutFrom_escapeQuoted (fun _ => rfl) (fun _ _ => rfl) s none

/-! ## Attributes -/

def attributesSource : List Attribute → Text
  | [] => []
  | (name, value) :: as => ' ' :: (name ++ '=' :: '"' :: (value ++ '"' :: attributesSource as))

/-- Names are plain and values hold no double quote. -/
def PlainAttributes (as : List Attribute) : Prop := ∀ a ∈ as, isPlainTagName a.1 = true ∧ '"' ∉ a.2

def isAttributeChar (c : Char) : Bool := !(isBlank c || c = '/' || c = '=' || c = '>')

/-- Names that a scan for attributes reads whole; values hold no double quote. -/
def ReadableAttributes (as : List Attribute) : Prop :=
  ∀ a ∈ as, (a.1 ≠ [] ∧ ∀ c ∈ a.1, isAttributeChar c = true) ∧ '"' ∉ a.2

theorem isAttributeChar_of_isNameLetter {c : Char} (h : isNameLetter c = true) : isAttributeChar c = true := by
  simp [isAttributeChar, not_isBlank_of_isNameLetter h, ne_of_isNameLetter h (d := '/') (by decide),
    ne_of_isNameLetter h (d := '=') (by decide), ne_of_isNameLetter h (d := '>') (by decide)]

theorem PlainAttributes.readable {as : List Attribute} (h : PlainAttributes as) : ReadableAttributes as := by
  intro a ha
  obtain ⟨hname, hvalue⟩ := h a ha
  refine ⟨⟨?_, fun c hc => isAttributeChar_of_isNameLetter (isNameLetter_of_mem hname hc)⟩, hvalue⟩
  intro hnil
  rw [hnil] at hname
  cases hname

/-- An attribute as it is read back. -/
def readBack (a : Attribute) : Attribute := (Text.lower a.1, unescapeValue a.2)

theorem skipSeparators_length (before : Char) (s : Text) : (skipSeparators before s).2.length ≤ s.length := by
  fun_induction skipSeparators before s with
  | case1 => simp
  | case2 => simp
  | case3 b c s _ _ ih => exact Nat.le_succ_of_le ih
  | case4 => simp

theorem skipSeparators_gt (before : Char) (s : Text) : skipSeparators before ('>' :: s) = (before, '>' :: s) := by
  simp [skipSeparators, isBlank, inRanges, blankRanges]

theorem closedBy_append {c : Char} {v : Text} (h : c ∉ v) (rest : Text) :
    Text.closedBy c (v ++ c :: rest) = some (v, rest) := Text.closedBy_eq_some_iff.2 ⟨h, rfl⟩

/-- A name of an attribute, as any markup can hold it: an equals sign stands at most at its head. -/
def isAttributeName : Text → Bool
  | [] => false
  | c :: s => (c = '=' || isAttributeChar c) && s.all isAttributeChar

theorem isAttributeName_of_forall {name : Text} (hne : name ≠ []) (h : ∀ c ∈ name, isAttributeChar c = true) :
    isAttributeName name = true := by
  obtain ⟨c, s, rfl⟩ := List.exists_cons_of_ne_nil hne
  obtain ⟨hc, hs⟩ := List.forall_mem_cons.1 h
  rw [isAttributeName, hc, Bool.or_true, Bool.true_and]
  exact List.all_eq_true.2 hs

/-- An attribute as it is written, its value between two quotes of one kind. -/
structure WrittenAttribute where
  name : Text
  quote : Char
  value : Text

namespace WrittenAttribute

def source (w : WrittenAttribute) : Text := ' ' :: (w.name ++ '=' :: w.quote :: (w.value ++ [w.quote]))

/-- Scans for the name and for the value end where these do. -/
structure Readable (w : WrittenAttribute) : Prop where
  name : isAttributeName w.name = true
  quote : w.quote = '"' ∨ w.quote = '\''
  value : w.quote ∉ w.value

/-- The attribute as it is read back. -/
def asRead (w : WrittenAttribute) : Attribute := (Text.lower w.name, unescapeValue w.value)

/-- The attribute with its value in double quotes. -/
def ofAttribute (a : Attribute) : WrittenAttribute := ⟨a.1, '"', a.2⟩

theorem flatMap_source_ofAttribute (as : List Attribute) : (as.map ofAttribute).flatMap source = attributesSource as := by
  induction as with
  | nil => rfl
  | cons a as ih =>
    rw [List.map_cons, List.flatMap_cons, ih]
    simp [source, ofAttribute, attributesSource]

theorem readable_ofAttribute {as : List Attribute} (h : ReadableAttributes as) : ∀ w ∈ as.map ofAttribute, w.Readable := by
  intro w hw
  obtain ⟨a, ha, rfl⟩ := List.mem_map.1 hw
  obtain ⟨⟨hne, hname⟩, hvalue⟩ := h a ha
  exact ⟨isAttributeName_of_forall hne hname, .inl rfl, hvalue⟩

theorem map_asRead_ofAttribute (as : List Attribute) : (as.map ofAttribute).map asRead = as.map readBack := List.map_map

end WrittenAttribute

/-- A quoted value is read up to its second quote. -/
theorem attributeAssignment?_eq {q : Char} (hq : q = '"' ∨ q = '\'') {value : Text} (hvalue : q ∉ value) (tail : Text) :
    attributeAssignment? ('=' :: q :: (value ++ q :: tail)) = some (value, q, tail) := by
  have hequals : isBlank '=' = false := by decide
  have hblank : isBlank q = false := by rcases hq with rfl | rfl <;> decide
  have hne : q ≠ '=' := by rcases hq with rfl | rfl <;> decide
  simp [attributeAssignment?, hequals, hne, skipBlanks, hblank, attributeValue?, hq, closedBy_append hvalue]

theorem skipSeparators_name {name : Text} (h : isAttributeName name = true) (before : Char) (s : Text) :
    skipSeparators before (' ' :: (name ++ s)) = (' ', name ++ s) := by
  cases name with
  | nil => cases h
  | cons c t =>
    have hc : ¬(isBlank c = true ∨ c = '/') := by
      simp only [isAttributeName, isAttributeChar, Bool.and_eq_true, Bool.or_eq_true, decide_eq_true_eq, Bool.not_eq_true',
        Bool.or_eq_false_iff, decide_eq_false_iff_not] at h
      rcases h.1 with rfl | hc
      · decide
      · simp [hc.1.1.1, hc.1.1.2]
    have hblank : isBlank ' ' = true := by decide
    simp only [not_or, Bool.not_eq_true] at hc
    simp [skipSeparators, hblank, hc]

theorem attribute?_eq {w : WrittenAttribute} (h : w.Readable) (tail : Text) :
    attribute? ' ' (w.name ++ '=' :: w.quote :: (w.value ++ w.quote :: tail)) =
      some (w.asRead, skipSeparators w.quote tail) := by
  obtain ⟨name, q, value⟩ := w
  obtain ⟨hname, hq, hvalue⟩ := h
  dsimp only at hname hq hvalue ⊢
  cases name with
  | nil => cases hname
  | cons c more =>
    simp only [isAttributeName, Bool.and_eq_true, List.all_eq_true, Bool.or_eq_true, decide_eq_true_eq] at hname
    obtain ⟨hc, hmore⟩ := hname
    have hhead : (isBlank c || c = '/' || c = '>') = false := by
      rcases hc with rfl | hc
      · decide
      · simp only [isAttributeChar, Bool.not_eq_true', Bool.or_eq_false_iff] at hc
        simp [hc]
    have hblank : isBlank ' ' = true := by decide
    have hspan := span_append (t := more) (p := fun c => !(isBlank c || c = '/' || c = '=' || c = '>')) hmore
      (d := '=') (by decide) (q :: (value ++ q :: tail))
    simp only [List.cons_append, attribute?, hblank, hhead]
    simp only [hspan, attributeAssignment?_eq hq hvalue]
    simp [WrittenAttribute.asRead]

/-- Attributes are read back in order, each with its value. -/
theorem attributesFrom_eq {ws : List WrittenAttribute} (h : ∀ w ∈ ws, w.Readable) (before : Char) (rest : Text) :
    attributesFrom (skipSeparators before (ws.flatMap WrittenAttribute.source ++ '>' :: rest)).1
        (skipSeparators before (ws.flatMap WrittenAttribute.source ++ '>' :: rest)).2 =
      (ws.map WrittenAttribute.asRead, '>' :: rest) := by
  induction ws generalizing before with
  | nil =>
    rw [List.flatMap_nil, List.nil_append, skipSeparators_gt, attributesFrom]
    have hnone : attribute? before ('>' :: rest) = none := by
      simp only [attribute?]
      split <;> simp
    simp [hnone]
  | cons w ws ih =>
    obtain ⟨hw, hws⟩ := List.forall_mem_cons.1 h
    have hsource : (w :: ws).flatMap WrittenAttribute.source ++ '>' :: rest =
        ' ' :: (w.name ++ '=' :: w.quote :: (w.value ++ w.quote :: (ws.flatMap WrittenAttribute.source ++ '>' :: rest))) := by
      simp [WrittenAttribute.source]
    rw [hsource, skipSeparators_name hw.name, attributesFrom, attribute?_eq hw]
    have hlt : (skipSeparators w.quote (ws.flatMap WrittenAttribute.source ++ '>' :: rest)).2.length <
        (w.name ++ '=' :: w.quote :: (w.value ++ w.quote :: (ws.flatMap WrittenAttribute.source ++ '>' :: rest))).length := by
      have hle := skipSeparators_length w.quote (ws.flatMap WrittenAttribute.source ++ '>' :: rest)
      simp only [List.length_append, List.length_cons] at hle ⊢
      omega
    dsimp only
    rw [if_pos hlt, ih hws]
    rfl

theorem mem_keepLast {as : List Attribute} {a : Attribute} (h : a ∈ keepLast as) : a ∈ as := by
  have main : ∀ b ∈ keepLast as, b ∈ as := by
    refine List.foldlRecOn (motive := fun kept => ∀ b ∈ kept, b ∈ as) _ _ (by simp) fun kept hkept a ha b hb => ?_
    split at hb
    · obtain ⟨k, hk, rfl⟩ := List.mem_map.1 hb
      split
      · exact ha
      · exact hkept k hk
    · rcases List.mem_append.1 hb with hb | hb
      · exact hkept b hb
      · rwa [List.mem_singleton.1 hb]
  exact main a h

/-- Attributes of different names are all kept. -/
theorem keepLast_eq {as : List Attribute} (h : (as.map Prod.fst).Nodup) : keepLast as = as := by
  have main (kept : List Attribute) (hnodup : ((kept ++ as).map Prod.fst).Nodup) :
      as.foldl (fun kept a =>
        if kept.any (·.1 = a.1) then kept.map fun k => if k.1 = a.1 then a else k else kept ++ [a]) kept = kept ++ as := by
    clear h
    induction as generalizing kept with
    | nil => simp
    | cons a as ih =>
      have hnew : kept.any (·.1 = a.1) = false := by
        rw [List.map_append, List.nodup_append] at hnodup
        rw [List.any_eq_false]
        intro k hk
        simpa using hnodup.2.2 k.1 (List.mem_map_of_mem hk) a.1 (by simp)
      rw [List.foldl_cons, hnew, if_neg (by simp), ih (kept ++ [a]) (by simpa using hnodup), List.append_assoc,
        List.singleton_append]
  exact main [] h

/-! ## Tags -/

/-- A name of a tag: a letter, and characters behind it that end tags can hold. -/
def isTagName : Text → Bool
  | [] => false
  | c :: s => isAsciiLetter c && s.all isEndNameChar

theorem isTagName_of_isPlainTagName {name : Text} (h : isPlainTagName name = true) : isTagName name = true := by
  cases name with
  | nil => cases h
  | cons c s =>
    simp only [isPlainTagName, isTagName, Bool.and_eq_true, List.all_eq_true] at h ⊢
    refine ⟨h.1, fun d hd => ?_⟩
    have hd := h.2 d hd
    simp only [isNameLetter, Bool.or_eq_true] at hd
    rcases hd with hd | hd <;> simp [isEndNameChar, hd]

/-- A character of a tag's name. -/
structure IsTagChar (c : Char) : Prop where
  not_blank : isBlank c = false
  not_ends : endsTagName c = false
  ne_gt : c ≠ '>'

theorem isTagChar_of_isEndNameChar {c : Char} (h : isEndNameChar c = true) : IsTagChar c := by
  have hsigns : IsTagChar '-' ∧ IsTagChar '.' ∧ IsTagChar ':' ∧ IsTagChar '_' :=
    ⟨⟨by decide, by decide, by decide⟩, ⟨by decide, by decide, by decide⟩, ⟨by decide, by decide, by decide⟩,
      ⟨by decide, by decide, by decide⟩⟩
  simp only [isEndNameChar, Bool.or_eq_true, decide_eq_true_eq] at h
  rcases h with (((h | rfl) | rfl) | rfl) | rfl
  · have hletter : isNameLetter c = true := by simpa [isNameLetter] using h
    have hne (d : Char) (hd : isNameLetter d = false) : c ≠ d := ne_of_isNameLetter hletter hd
    refine ⟨not_isBlank_of_isNameLetter hletter, ?_, hne '>' (by decide)⟩
    simp [endsTagName, hne '\t' (by decide), hne '\n' (by decide), hne '\r' (by decide), hne (Char.ofNat 12) (by decide),
      hne ' ' (by decide), hne '/' (by decide), hne '>' (by decide), hne (Char.ofNat 0) (by decide)]
  · exact hsigns.1
  · exact hsigns.2.1
  · exact hsigns.2.2.1
  · exact hsigns.2.2.2

theorem isTagChar_of_mem {name : Text} (h : isTagName name = true) {c : Char} (hc : c ∈ name) : IsTagChar c := by
  cases name with
  | nil => cases hc
  | cons d s =>
    simp only [isTagName, Bool.and_eq_true, List.all_eq_true] at h
    refine isTagChar_of_isEndNameChar ?_
    rcases List.mem_cons.1 hc with rfl | hc
    · simp [isEndNameChar, h.1]
    · exact h.2 c hc

theorem startTag_eq {name : Text} (hname : isTagName name = true) {ws : List WrittenAttribute} (hws : ∀ w ∈ ws, w.Readable)
    (rest : Text) : startTag (name ++ (ws.flatMap WrittenAttribute.source ++ '>' :: rest)) =
      .tokens [.start (Text.lower name) (keepLast (ws.map WrittenAttribute.asRead)) false] rest := by
  have hspan : (name ++ (ws.flatMap WrittenAttribute.source ++ '>' :: rest)).span (!endsTagName ·) =
      (name, ws.flatMap WrittenAttribute.source ++ '>' :: rest) := by
    have hends : ∀ c ∈ name, (!endsTagName c) = true := fun c hc => by rw [(isTagChar_of_mem hname hc).not_ends, Bool.not_false]
    cases ws with
    | nil => exact span_append hends (d := '>') (by decide) rest
    | cons w ws => exact span_append hends (d := ' ') (by decide) _
  have hrest : Text.upTo ('>' :: rest) rest = ['>'] := by simp [Text.upTo]
  have hstrip : Text.strip ['>'] = ['>'] := by decide
  have hattributes := attributesFrom_eq hws (lastOf '<' name) rest
  have hclose : (if (ws.map WrittenAttribute.asRead).isEmpty then
      (ws.flatMap WrittenAttribute.source ++ '>' :: rest).dropWhile fun c => isBlank c || c = '/' else '>' :: rest) =
        '>' :: rest := by
    cases ws with
    | nil =>
      have hgt : isBlank '>' = false := by decide
      simp [hgt]
    | cons w ws => simp
  unfold startTag
  simp only [hspan, hattributes, hclose, hrest, hstrip]

theorem construct_start {name : Text} (hname : isTagName name = true) {ws : List WrittenAttribute}
    (hws : ∀ w ∈ ws, w.Readable) (raw : Option Text) (rest : Text) :
    construct raw (name ++ (ws.flatMap WrittenAttribute.source ++ '>' :: rest)) =
      .tokens [.start (Text.lower name) (keepLast (ws.map WrittenAttribute.asRead)) false] rest := by
  rw [← startTag_eq hname hws rest]
  cases name with
  | nil => cases hname
  | cons c more =>
    have hc : isAsciiLetter c = true := by
      simp only [isTagName, Bool.and_eq_true] at hname
      exact hname.1
    rw [List.cons_append]
    unfold construct
    split
    · cases ‹_ = []›
    · rename_i he
      cases he
      cases hc
    · rename_i he
      cases he
      cases hc
    · rename_i he
      cases he
      cases hc
    · rename_i he
      cases he
      rw [if_pos hc]

theorem construct_stop {name : Text} (hname : isTagName name = true) (rest : Text) :
    construct none ('/' :: (name ++ '>' :: rest)) = .tokens [.stop (Text.lower name)] rest := by
  have hclosed : Text.closedBy '>' (name ++ '>' :: rest) = some (name, rest) :=
    closedBy_append (fun h => (isTagChar_of_mem hname h).ne_gt rfl) rest
  have hplain : plainEndTag? (name ++ '>' :: rest) = some (name, rest) := by
    cases name with
    | nil => cases hname
    | cons c more =>
      have hblank := (isTagChar_of_mem hname List.mem_cons_self).not_blank
      simp only [isTagName, Bool.and_eq_true, List.all_eq_true] at hname
      have hspan := span_append (t := more) hname.2 (d := '>') (by decide) rest
      have hgt : isBlank '>' = false := by decide
      simp only [List.cons_append, plainEndTag?, List.dropWhile_cons, hblank, hname.1, hspan, hgt, Bool.false_eq_true,
        if_true, if_false]
  simp [construct, endTag, hclosed, hplain]

/-- A start tag without its angle bracket. -/
def startSource (name : Text) (as : List Attribute) : Text := name ++ (attributesSource as ++ ['>'])

theorem construct_startTag {name : Text} (hname : isPlainTagName name = true) {as : List Attribute}
    (has : ReadableAttributes as) (raw : Option Text) (rest : Text) :
    construct raw (startSource name as ++ rest) =
      .tokens [.start (Text.lower name) (keepLast (as.map readBack)) false] rest := by
  have hread := construct_start (isTagName_of_isPlainTagName hname) (WrittenAttribute.readable_ofAttribute has) raw rest
  rw [WrittenAttribute.flatMap_source_ofAttribute, WrittenAttribute.map_asRead_ofAttribute] at hread
  simpa [startSource] using hread

/-- An end tag without its angle bracket and slash. -/
def stopSource (name : Text) : Text := name ++ ['>']

theorem construct_endTag {name : Text} (hname : isPlainTagName name = true) (rest : Text) :
    construct none ('/' :: (stopSource name ++ rest)) = .tokens [.stop (Text.lower name)] rest := by
  simpa [stopSource] using construct_stop (isTagName_of_isPlainTagName hname) rest

/-! ## Tokens -/

theorem tokens_nil : tokens [] = [] := by
  rw [tokens, tokensFrom]
  rfl

/-- Markup gives the character no meaning. -/
def isOrdinary (c : Char) : Bool := !(c = '<' || c = '&')

theorem plainText_append {p : Text} (hp : ∀ c ∈ p, isOrdinary c = true) {x : Char} (hx : isOrdinary x = false) (s : Text) :
    plainText none (p ++ x :: s) = (p, x :: s) := by
  have hmarkup (c : Char) (t : Text) : isMarkupChar none (c :: t) = !isOrdinary c := by
    simp [isMarkupChar, isOrdinary]
  induction p with
  | nil => rw [List.nil_append, plainText, hmarkup, hx, Bool.not_false, if_pos rfl]
  | cons c p ih =>
    obtain ⟨hc, hp⟩ := List.forall_mem_cons.1 hp
    rw [List.cons_append, plainText, hmarkup, hc, Bool.not_true, if_neg Bool.false_ne_true, ih hp]

/-- The parts of a text without markup: itself, if there is anything. -/
def plainParts (p : Text) : List Text := if p.isEmpty then [] else [p]

/-- The tokens of a text come behind the text without markup that stands before it. -/
def Begins (s : Text) (ts : List Token) : Prop :=
  ∀ p : Text, (∀ c ∈ p, isOrdinary c = true) → tokens (p ++ s) = (plainParts p).map .text ++ ts

theorem Begins.tokens_eq {s : Text} {ts : List Token} (h : Begins s ts) : tokens s = ts :=
  h [] fun _ hc => absurd hc List.not_mem_nil

/-- What is read at a character of markup comes before the tokens of the rest. -/
theorem begins_step {x : Char} {s rest : Text} {ts : List Token} (hx : isOrdinary x = false)
    (hstep : step false none (x :: s) = .go ts rest) (hlength : rest.length ≤ s.length) (hraw : rawAfter none ts = none) :
    Begins (x :: s) (ts ++ tokens rest) := by
  intro p hp
  have hlt : rest.length < (p ++ x :: s).length := by
    simp only [List.length_append, List.length_cons]
    omega
  have hfront : (if p.isEmpty then [] else [Token.text p]) = (plainParts p).map .text := by
    cases p <;> rfl
  rw [tokens, tokensFrom, plainText_append hp hx]
  simp only [Option.isSome_none, Bool.false_and, Bool.false_eq_true, if_false, List.isEmpty_cons, hstep, if_pos hlt, hraw, hfront]
  rw [List.append_assoc]
  rfl

theorem begins_construct {s rest : Text} {ts : List Token} (hs : s ≠ []) (h : construct none s = .tokens ts rest)
    (hlength : rest.length ≤ s.length) (hraw : rawAfter none ts = none) : Begins ('<' :: s) (ts ++ tokens rest) := by
  have hstep : step false none ('<' :: s) = .go ts rest := by
    cases s with
    | nil => contradiction
    | cons c s => simp [step, h]
  exact begins_step (by decide) hstep hlength hraw

theorem begins_startTag {name : Text} (hname : isPlainTagName name = true)
    (hraw : rawNames.contains (Text.lower name) = false) {as : List Attribute} (has : ReadableAttributes as) (rest : Text) :
    Begins ('<' :: (startSource name as ++ rest))
      (.start (Text.lower name) (keepLast (as.map readBack)) false :: tokens rest) :=
  begins_construct (by simp [startSource]) (construct_startTag hname has none rest) (by simp)
    (by simp only [rawAfter, hraw, Bool.false_eq_true, if_false])

theorem begins_endTag {name : Text} (hname : isPlainTagName name = true) (rest : Text) :
    Begins ('<' :: '/' :: (stopSource name ++ rest)) (.stop (Text.lower name) :: tokens rest) :=
  begins_construct (by simp) (construct_endTag hname rest) (by simp; omega) rfl

theorem tokens_startTag {name : Text} (hname : isPlainTagName name = true)
    (hraw : rawNames.contains (Text.lower name) = false) {as : List Attribute} (has : ReadableAttributes as) (rest : Text) :
    tokens ('<' :: (startSource name as ++ rest)) =
      .start (Text.lower name) (keepLast (as.map readBack)) false :: tokens rest :=
  (begins_startTag hname hraw has rest).tokens_eq

theorem tokens_endTag {name : Text} (hname : isPlainTagName name = true) (rest : Text) :
    tokens ('<' :: '/' :: (stopSource name ++ rest)) = .stop (Text.lower name) :: tokens rest :=
  (begins_endTag hname rest).tokens_eq

/-! ## References in text -/

/-- A name in text that ends in a semicolon. -/
theorem textReference?_named {c : Char} {name t : Text} (hname : isPlainTagName (c :: name) = true)
    (hfind : (Entity.find? (c :: name)).map Entity.characters = some t) (s : Text) :
    textReference? ('&' :: c :: (name ++ ';' :: s)) = some (t, s) := by
  obtain ⟨e, he, rfl⟩ := Option.map_eq_some_iff.1 hfind
  obtain ⟨hc, hname⟩ : isAsciiLetter c = true ∧ ∀ d ∈ name, isNameLetter d = true := by
    simpa [isPlainTagName] using hname
  have hspan : (name ++ ';' :: s).span (fun c => isAsciiLetter c || isAsciiDigit c || c = '-' || c = '.') = (name, ';' :: s) :=
    span_letters hname (fun d hd => by
      simp only [isNameLetter] at hd
      simp [hd]) (by decide) s
  unfold textReference?
  split
  · rename_i heq
    cases heq
    cases hc
  · rename_i heq
    cases heq
    simp only [hc, hspan, List.isEmpty_cons, he, Bool.not_true, Bool.false_eq_true, if_false, if_true]
  · rename_i hnone
    exact absurd rfl (hnone _ _)

/-- The characters of a reference in text are a token of their own. -/
theorem begins_reference {s rest t : Text} (h : textReference? ('&' :: s) = some (t, rest)) (hlength : rest.length ≤ s.length) :
    Begins ('&' :: s) (.text t :: tokens rest) := by
  have hstep : step false none ('&' :: s) = .go [.text t] rest := by
    unfold step
    split
    · rename_i he
      cases he
    · rename_i he
      cases he
      rw [h]
    · rename_i he
      cases he
      rw [h]
    · rename_i hnone
      exact absurd rfl (hnone _)
  exact begins_step (by decide) hstep hlength rfl

/-! ## Trees -/

/-- Two elements, the one in the other, become their tree. -/
theorem finish_nested {outer inner : Text} (houter : outer ∉ voidNames) (hinner : inner ∉ voidNames)
    (as bs : List Attribute) :
    ([.start outer as false, .start inner bs false, .stop inner, .stop outer].foldl Build.token {}).finish =
      [.element outer (as.map (Build.settleAttribute outer)) [.element inner (bs.map (Build.settleAttribute inner)) []]] := by
  simp [Build.token, Build.start, Build.stop, Build.close, Build.flush, Build.popTo, Build.pop, Build.add, Build.finish,
    Build.popAll, houter, hinner]

theorem foldl_text (parts : List Text) (b : Build) :
    (parts.map Token.text).foldl Build.token b = { b with pending := parts.reverse ++ b.pending } := by
  induction parts generalizing b with
  | nil => rfl
  | cons part parts ih =>
    rw [List.map_cons, List.foldl_cons, ih]
    simp [Build.token]

/-- A text as it stands in a tree: white space only becomes one character. -/
def settled (s : Text) : Text := Build.settle {} s

theorem settled_eq {s : Text} (h : s.any (fun c => !Build.isAsciiBlank c) = true) : settled s = s := by
  obtain ⟨c, hc, hblank⟩ := List.any_eq_true.1 h
  have hall : s.all Build.isAsciiBlank = false := by
    refine List.all_eq_false.2 ⟨c, hc, ?_⟩
    simpa using hblank
  rw [settled, Build.settle, hall, Bool.and_false, if_neg Bool.false_ne_true]

theorem settle_eq {b : Build} (h : b.keepsBlanks = false) (s : Text) : b.settle s = settled s := by
  rw [settled, Build.settle, Build.settle, h]
  rfl

/-- An element with text in it becomes its tree. -/
theorem finish_text {name : Text} (hvoid : name ∉ voidNames) (hkeep : name ≠ "pre" ∧ name ≠ "textarea") (as : List Attribute)
    (parts : List Text) :
    ((.start name as false :: (parts.map .text ++ [.stop name])).foldl Build.token {}).finish =
      [.element name (as.map (Build.settleAttribute name)) (if parts.isEmpty then [] else [.text (settled parts.flatten)])] := by
  have hstart : Build.token {} (.start name as false) = { frames := [⟨name, as.map (Build.settleAttribute name), []⟩] } := by
    simp [Build.token, Build.start, Build.flush, hvoid]
  have hstop (b : Build) (children : List Node)
      (hflush : b.flush = { frames := [⟨name, as.map (Build.settleAttribute name), children⟩] }) (hclosed : b.closedVoids = []) :
      (b.token (.stop name)).finish = [.element name (as.map (Build.settleAttribute name)) children.reverse] := by
    have htoken : b.token (.stop name) = { top := [.element name (as.map (Build.settleAttribute name)) children.reverse] } := by
      rw [Build.token, Build.stop, hclosed, Build.close, hflush]
      simp [Build.popTo, Build.pop, Build.add]
    rw [htoken]
    rfl
  rw [List.foldl_cons, hstart, List.foldl_append, foldl_text, List.foldl_cons, List.foldl_nil, List.append_nil]
  cases hpending : parts.reverse with
  | nil =>
    obtain rfl := List.reverse_eq_nil_iff.1 hpending
    exact hstop _ [] rfl rfl
  | cons part more =>
    have hne : parts ≠ [] := by
      rintro rfl
      cases hpending
    have hflatten : (part :: more).reverse.flatten = parts.flatten := by rw [← hpending, List.reverse_reverse]
    rw [List.isEmpty_eq_false_iff.2 hne, if_neg Bool.false_ne_true, ← hflatten]
    have hpre : decide (name = "pre") = false := decide_eq_false hkeep.1
    have harea : decide (name = "textarea") = false := decide_eq_false hkeep.2
    refine hstop _ [_] ?_ rfl
    rw [Build.flush]
    dsimp only
    rw [settle_eq (by simp only [Build.keepsBlanks, List.any_cons, List.any_nil, hpre, harea, Bool.or_false])]
    rfl

end Galley.Html
