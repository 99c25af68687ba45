import Galley.Proofs.CalmInline
import Galley.Proofs.Commands
import Galley.Proofs.Dashes
import Galley.Proofs.InlineRuns
/-!
# Links

A link and an address that is shown are each set aside whole, so what stands in the markup is the address as it was
when the command was rewritten (`format_put`). By then its hyphens were set as dashes with those of the rest of the
text: a link leads to its address, and the address is shown as it is written, just where no two hyphens stand side by
side in it (`links_read_back`).
-/

namespace Galley.Inline

open Html (Node Token plainParts settled)

/-! ## A text that is set aside whole -/

theorem put_bind {f : Text → StateM Stash Text} (hf : ∀ n, f (Stash.mark n) = pure (Stash.mark n)) (piece : Text) :
    Stash.put piece >>= f = Stash.put piece := by
  simp only [Stash.put, bind_assoc, pure_bind, hf]

theorem restore_put {piece : Text} (h : Stash.opening ∉ piece) : Stash.restore [piece] (Stash.mark 0) = .ok piece := by
  have hread : Stash.reader none (Stash.mark 0) = some (Text.ofNat 0, []) := by
    have := Stash.reader_mark 0 none []
    rwa [List.append_nil] at this
  have hmarked : (Stash.mark 0).occurs Stash.reader = true := by decide +kernel
  have hunmarked : piece.occurs Stash.reader = false := (misses_reader h).occurs_eq
  have hmarks : ∀ d ∈ Stash.marks (Stash.mark 0), Stash.Readable [piece] d := by
    have heq : Stash.marks (Stash.mark 0) = [Text.ofNat 0] := by decide +kernel
    intro d hd
    rw [heq, List.mem_singleton] at hd
    exact hd ▸ Stash.readable_ofNat Nat.zero_lt_one
  have hcontent : Stash.content [piece] (Text.ofNat 0) = piece := by
    rw [Stash.content, Text.digitsValue_ofNat]
    rfl
  have honce : Stash.restoreOnce [piece] (Stash.mark 0) = .ok piece := by
    rw [Stash.restoreOnce_ok hmarks, Stash.firm_reader.replaceAll_hit hread, hcontent]
    exact congrArg Except.ok (List.append_nil piece)
  rw [Stash.restore, Stash.restoreWithin, if_pos hmarked, honce]
  change Stash.restoreWithin [piece] 1 piece = .ok piece
  rw [Stash.restoreWithin, hunmarked, if_neg Bool.false_ne_true]

/-- Where the commands of a text come to one piece, formatting gives this piece. -/
theorem format_put {words : List Text} {s t piece : Text} (hwords : Spelled.Lettered words) (hs : Spelled words s)
    (hescape : Html.escape s = s) (htypography : typography s = t)
    (hcommands : rewriteCommands (t.count '\\') t = Stash.put piece) (hpiece : Stash.opening ∉ piece) (settings : Settings)
    (engine : Formula.Engine) : format settings engine s = .ok piece := by
  -- behind the commands there is nothing left but the mark, and the steps behind them pass it over
  have hmark : restoreSpecials (replaceSymbols (Stash.mark 0)) = Stash.mark 0 := by decide +kernel
  have hrun (render : Text → Text) : (rewrite render s).run [] = (Stash.mark 0, [piece]) := by
    simp only [rewrite, stashFormulas, (hs.misses_formula hwords).replaceAllM_eq, pure_bind, protectSpecials,
      (hs.misses_escapedSpecial hwords).replaceAll_eq, hescape, htypography, hcommands]
    change (restoreSpecials (replaceSymbols (Stash.mark 0)), [piece]) = _
    rw [hmark]
  rw [format, hrun]
  exact restore_put hpiece

/-! ## The two commands -/

/-- A link with its label. -/
def linkSource (url label : Text) : Text := '\\' :: ("href" ++ '{' :: (url ++ '}' :: '{' :: (label ++ ['}'])))

/-- An address that is shown as code. -/
def addressSource (url : Text) : Text := '\\' :: ("url" ++ '{' :: (url ++ ['}']))

def codeMarkup (url : Text) : Text := "<code>" ++ url ++ "</code>"

/-- The characters of addresses. -/
def isAddressChar (c : Char) : Bool := isAsciiLetter c || Html.isAsciiDigit c || ['-', '.', '/', ':', '_'].contains c

/-- An address that is linked. -/
structure IsAddress (url : Text) : Prop where
  chars : Within isAddressChar url
  scheme : url.startsWithAny ["http://", "https://"] = true

/-- The characters of addresses and of references. -/
def isSetChar (c : Char) : Bool := isAddressChar c || c = '&' || c = ';'

theorem within_set {s : Text} (h : Within isAddressChar s) : Within isSetChar s := fun c hc => by simp [isSetChar, h c hc]

theorem isBlank_of_isSetChar {c : Char} (h : isSetChar c = true) : isBlank c = false := by
  simp only [isSetChar, isAddressChar, List.contains_cons, List.contains_nil, Bool.or_false, Bool.or_eq_true, decide_eq_true_eq,
    beq_iff_eq] at h
  rcases h with ((h | h) | rfl) | rfl
  · exact Html.not_isBlank_of_isNameLetter (by rw [Html.isNameLetter, Bool.or_eq_true]; exact h)
  · rcases h with rfl | rfl | rfl | rfl | rfl <;> decide
  · decide
  · decide

theorem strip_eq_self {s : Text} (h : ∀ c ∈ s, isBlank c = false) : Text.strip s = s := by
  have hdrop {s : Text} (h : ∀ c ∈ s, isBlank c = false) : s.dropWhile isBlank = s := by
    cases s with
    | nil => rfl
    | cons c s => exact List.dropWhile_cons_of_neg (by simp [h c])
  rw [Text.strip, hdrop h, Text.dropWhileRight, hdrop (by simpa using h), List.reverse_reverse]

section Commands

variable {url label : Text}

theorem IsAddress.within_dashMarkup (h : IsAddress url) : Within isSetChar (dashMarkup url) := by
  have hletters : Within isSetChar "&mdash;" ∧ Within isSetChar "&ndash;" := by decide
  intro c hc
  rcases mem_setDashes hc with hc | hc | hc
  · exact within_set h.chars c hc
  · exact hletters.1 c hc
  · exact hletters.2 c hc

/-- The scheme stays in front. -/
theorem IsAddress.exists_scheme (h : IsAddress url) (em en : Text) :
    ∃ scheme ∈ (["http://", "https://"] : List Text), scheme <+: setDashes em en url := by
  obtain ⟨scheme, hscheme, hprefix⟩ := List.any_eq_true.1 h.scheme
  obtain ⟨rest, rfl⟩ := List.isPrefixOf_iff_prefix.1 hprefix
  have hplain : ∀ scheme ∈ (["http://", "https://"] : List Text), '-' ∉ scheme := by decide
  rw [setDashes_append_of_not_mem (hplain scheme hscheme)]
  exact ⟨scheme, hscheme, List.prefix_append _ _⟩

theorem IsAddress.startsWithAny_dashMarkup (h : IsAddress url) :
    (dashMarkup url).startsWithAny safeSchemes = true := by
  obtain ⟨scheme, hscheme, hprefix⟩ := h.exists_scheme "&mdash;" "&ndash;"
  have hsafe : ∀ scheme ∈ (["http://", "https://"] : List Text), scheme ∈ safeSchemes := by decide
  exact List.any_eq_true.2 ⟨scheme, hsafe scheme hscheme, List.isPrefixOf_iff_prefix.2 hprefix⟩

theorem IsAddress.mem_dashed (h : IsAddress url) : 'h' ∈ dashed url := by
  obtain ⟨scheme, hscheme, hprefix⟩ := h.exists_scheme [Char.ofNat 0x2014] [Char.ofNat 0x2013]
  have hletter : ∀ scheme ∈ (["http://", "https://"] : List Text), 'h' ∈ scheme := by decide
  exact hprefix.subset (hletter scheme hscheme)

theorem spelled_mark (n : Nat) : Spelled [] (Stash.mark n) := by
  have hmissing {x : Char} (hx : Stash.isMarkChar x = false) : x ∉ Stash.mark n := fun hm =>
    Stash.ne_of_isMarkChar (Stash.isMarkChar_of_mem hm) hx rfl
  have hspelled : Spelled [] (Stash.mark n ++ []) :=
    .chars_append (hmissing (by decide)) (hmissing (by decide)) Spelled.nil
  rwa [List.append_nil] at hspelled

theorem spelled_linkSource (hurl : Within isSetChar url) (hlabel : Within isQuiet label) :
    Spelled ["href\x7b"] (linkSource url label) := by
  have hb : '\\' ∉ url ++ '}' :: '{' :: (label ++ ['}']) := by
    simp [hurl.avoids (c := '\\') (by decide), hlabel.avoids (c := '\\') (by decide)]
  have hd : '$' ∉ url ++ '}' :: '{' :: (label ++ ['}']) := by
    simp [hurl.avoids (c := '$') (by decide), hlabel.avoids (c := '$') (by decide)]
  have hword : "href\x7b".toList ∈ (["href\x7b"] : List Text) := by decide
  have hspelled := Spelled.word_append hword (by decide) (by decide) (Spelled.chars_append hb hd Spelled.nil)
  rwa [List.append_nil] at hspelled

theorem spelled_addressSource (hurl : Within isSetChar url) : Spelled ["url\x7b"] (addressSource url) := by
  have hb : '\\' ∉ url ++ ['}'] := by simp [hurl.avoids (c := '\\') (by decide)]
  have hd : '$' ∉ url ++ ['}'] := by simp [hurl.avoids (c := '$') (by decide)]
  have hword : "url\x7b".toList ∈ (["url\x7b"] : List Text) := by decide
  have hspelled := Spelled.word_append hword (by decide) (by decide) (Spelled.chars_append hb hd Spelled.nil)
  rwa [List.append_nil] at hspelled

theorem balanced_of_set (hurl : Within isSetChar url) : Group.Balanced url :=
  .of_not_mem (hurl.avoids (by decide)) (hurl.avoids (by decide)) (hurl.avoids (by decide))

/-- A link is set aside whole. -/
theorem rewriteCommands_linkSource (hurl : Within isSetChar url) (hscheme : url.startsWithAny safeSchemes = true)
    (hlabel : Within isQuiet label) : rewriteCommands 1 (linkSource url label) = Stash.put (linkMarkup url label) := by
  have hspelled := spelled_linkSource hurl hlabel
  have hreferences : rewriteReferences (linkSource url label) = pure (linkSource url label) := by
    rw [hspelled.rewriteReferences_eq (by decide), hspelled.replaceM_eq (by decide)]
  have hlabelled : Group.Balanced label :=
    .of_not_mem (hlabel.avoids (by decide)) (hlabel.avoids (by decide)) (hlabel.avoids (by decide))
  have hread := Command.withArguments_two "href" (balanced_of_set hurl) hlabelled none []
  have hstrip : Text.strip url = url := strip_eq_self fun c hc => isBlank_of_isSetChar (hurl c hc)
  rw [rewriteCommands, hreferences, pure_bind]
  dsimp only
  rw [linkSource, Command.replaceM_whole hread]
  simp only [Arguments.first, Arguments.second, List.headD_cons, List.drop_succ_cons, List.drop_zero, rewriteCommands, pure_bind,
    hstrip, hscheme, if_true]
  exact put_bind (fun n => (spelled_mark n).foldlM_wrappers_eq rfl 0) _

/-- An address that is shown is set aside whole. -/
theorem rewriteCommands_addressSource (hurl : Within isSetChar url) :
    rewriteCommands 1 (addressSource url) = Stash.put (codeMarkup url) := by
  have hread := Command.withArguments_one "url" (balanced_of_set hurl) none []
  have hreferences : rewriteReferences (addressSource url) = Stash.put (codeMarkup url) := by
    rw [(spelled_addressSource hurl).rewriteReferences_eq (by decide), addressSource, Command.replaceM_whole hread]
    rfl
  rw [rewriteCommands, hreferences]
  refine put_bind (fun n => ?_) _
  dsimp only
  rw [(spelled_mark n).replaceM_eq rfl, pure_bind]
  exact (spelled_mark n).foldlM_wrappers_eq rfl 0

/-! ## Formatting -/

theorem dashMarkup_linkSource (hlabel : Within isQuiet label) :
    dashMarkup (linkSource url label) = linkSource (dashMarkup url) label := by
  have htail : '-' ∉ '{' :: (label ++ ['}']) := by simp [hlabel.avoids (c := '-') (by decide)]
  have hhead : '-' ∉ "\\href\x7b".toList := by decide
  have hwhole : dashMarkup ("\\href\x7b" ++ (url ++ '}' :: '{' :: (label ++ ['}']))) = _ :=
    setDashes_append_of_not_mem hhead _
  rw [setDashes_append_cons (by decide), setDashes_of_not_mem htail] at hwhole
  exact hwhole

theorem dashMarkup_addressSource : dashMarkup (addressSource url) = addressSource (dashMarkup url) := by
  have hhead : '-' ∉ "\\url\x7b".toList := by decide
  have hwhole : dashMarkup ("\\url\x7b" ++ (url ++ ['}'])) = _ := setDashes_append_of_not_mem hhead _
  rw [setDashes_append_cons (by decide)] at hwhole
  exact hwhole

theorem count_linkSource (hurl : '\\' ∉ url) (hlabel : '\\' ∉ label) : (linkSource url label).count '\\' = 1 := by
  have hrest : '\\' ∉ "href" ++ '{' :: (url ++ '}' :: '{' :: (label ++ ['}'])) := by simp [hurl, hlabel]
  rw [linkSource, List.count_cons_self, List.count_eq_zero.2 hrest]

theorem count_addressSource (hurl : '\\' ∉ url) : (addressSource url).count '\\' = 1 := by
  have hrest : '\\' ∉ "url" ++ '{' :: (url ++ ['}']) := by simp [hurl]
  rw [addressSource, List.count_cons_self, List.count_eq_zero.2 hrest]

theorem linkMarkup_eq (hurl : '"' ∉ url) : linkMarkup url label =
    "<a href=\"" ++ url ++ "\" target=\"_blank\" rel=\"noopener noreferrer\">" ++ label ++ "</a>" := by
  have hquotes : url.replace "\"" "%22" = url := replace_eq_self (t := []) hurl _
  unfold linkMarkup
  rw [hquotes]

/-- A link is formatted with the dashes of its address set. -/
theorem format_linkSource (hurl : IsAddress url) (hlabel : Within isQuiet label) (settings : Settings)
    (engine : Formula.Engine) : format settings engine (linkSource url label) = .ok (linkMarkup (dashMarkup url) label) := by
  have hset := hurl.within_dashMarkup
  have hmissing {c : Char} (hu : isAddressChar c = false) (hl : isQuiet c = false) (hc : c ∉ "\\href\x7b\x7d".toList) :
      c ∉ linkSource url label := by
    have := hurl.chars.avoids hu
    have := hlabel.avoids hl
    simp_all [linkSource]
  have hescape : Html.escape (linkSource url label) = linkSource url label :=
    escape_eq_self (hmissing (by decide) (by decide) (by decide)) (hmissing (by decide) (by decide) (by decide))
      (hmissing (by decide) (by decide) (by decide))
  have htypography : typography (linkSource url label) = linkSource (dashMarkup url) label := by
    rw [typography_eq (hmissing (by decide) (by decide) (by decide)) (hmissing (by decide) (by decide) (by decide)),
      dashMarkup_linkSource hlabel]
  have hcommands : rewriteCommands ((linkSource (dashMarkup url) label).count '\\')
      (linkSource (dashMarkup url) label) = Stash.put (linkMarkup (dashMarkup url) label) := by
    rw [count_linkSource (hset.avoids (by decide)) (hlabel.avoids (by decide))]
    exact rewriteCommands_linkSource hset hurl.startsWithAny_dashMarkup hlabel
  have hpiece : Stash.opening ∉ linkMarkup (dashMarkup url) label := by
    have hurl := hset.avoids (c := Stash.opening) (by decide)
    have hlabel := hlabel.avoids (c := Stash.opening) (by decide)
    have hmarkup : Stash.opening ∉ "<a href=\"".toList ∧
        Stash.opening ∉ "\" target=\"_blank\" rel=\"noopener noreferrer\">".toList ∧ Stash.opening ∉ "</a>".toList := by decide
    rw [linkMarkup_eq (hset.avoids (by decide))]
    simp only [List.mem_append, hurl, hlabel, hmarkup, or_self, not_false_eq_true]
  have hspelled := spelled_linkSource (within_set hurl.chars) hlabel
  exact format_put (by decide) hspelled hescape htypography hcommands hpiece settings engine

/-- An address is shown with its dashes set. -/
theorem format_addressSource (hurl : IsAddress url) (settings : Settings) (engine : Formula.Engine) :
    format settings engine (addressSource url) = .ok (codeMarkup (dashMarkup url)) := by
  have hset := hurl.within_dashMarkup
  have hmissing {c : Char} (hu : isAddressChar c = false) (hc : c ∉ "\\url\x7b\x7d".toList) : c ∉ addressSource url := by
    have := hurl.chars.avoids hu
    simp_all [addressSource]
  have hescape : Html.escape (addressSource url) = addressSource url :=
    escape_eq_self (hmissing (by decide) (by decide)) (hmissing (by decide) (by decide)) (hmissing (by decide) (by decide))
  have htypography : typography (addressSource url) = addressSource (dashMarkup url) := by
    rw [typography_eq (hmissing (by decide) (by decide)) (hmissing (by decide) (by decide)), dashMarkup_addressSource]
  have hcommands : rewriteCommands ((addressSource (dashMarkup url)).count '\\')
      (addressSource (dashMarkup url)) = Stash.put (codeMarkup (dashMarkup url)) := by
    rw [count_addressSource (hset.avoids (by decide))]
    exact rewriteCommands_addressSource hset
  have hpiece : Stash.opening ∉ codeMarkup (dashMarkup url) := by
    have hurl := hset.avoids (c := Stash.opening) (by decide)
    have hmarkup : Stash.opening ∉ "<code>".toList ∧ Stash.opening ∉ "</code>".toList := by decide
    unfold codeMarkup
    simp only [List.mem_append, hurl, hmarkup, or_self, not_false_eq_true]
  have hspelled := spelled_addressSource (within_set hurl.chars)
  exact format_put (by decide) hspelled hescape htypography hcommands hpiece settings engine

/-! ## Reading back -/

/-- The text of a label as it stands in a tree. -/
def labelNodes (label : Text) : List Node := (plainParts label).map fun s => .text (settled s)

def linkAttributes (url : Text) : List Html.Attribute := [("href", url), ("target", "_blank"), ("rel", "noopener noreferrer")]

theorem isOrdinary_of_not_mem {s : Text} (hl : '<' ∉ s) (ha : '&' ∉ s) : ∀ c ∈ s, Html.isOrdinary c = true := by
  intro c hc
  have hne {x : Char} (hx : x ∉ s) : c ≠ x := fun he => hx (he ▸ hc)
  simp [Html.isOrdinary, hne hl, hne ha]

theorem tokens_linkMarkup (hurl : Within isSetChar url) (hlabel : Within isQuiet label) :
    Html.tokens (linkMarkup url label) =
      .start "a" (linkAttributes (Html.unescapeValue url)) false :: ((plainParts label).map Token.text ++ [Token.stop "a"]) := by
  have hsource : linkMarkup url label =
      '<' :: (Html.startSource "a" (linkAttributes url) ++ (label ++ '<' :: '/' :: (Html.stopSource "a" ++ []))) := by
    rw [linkMarkup_eq (hurl.avoids (by decide))]
    simp only [Html.startSource, Html.stopSource, linkAttributes, Html.attributesSource, List.append_assoc, List.cons_append]
    rfl
  have hplain : Html.PlainAttributes (linkAttributes url) := by
    intro a ha
    simp only [linkAttributes, List.mem_cons, List.not_mem_nil, or_false] at ha
    rcases ha with rfl | rfl | rfl
    · exact ⟨show Html.isPlainTagName "href" = true by decide, hurl.avoids (by decide)⟩
    · exact ⟨by decide, by decide⟩
    · exact ⟨by decide, by decide⟩
  have hback : (linkAttributes url).map Html.readBack = linkAttributes (Html.unescapeValue url) := by
    have hread (name value : Text) {x : Text} (hname : Text.lower name = name) (hvalue : Html.unescapeValue value = x) :
        Html.readBack (name, value) = (name, x) := Prod.ext hname hvalue
    have hhref := hread "href" url (by decide) rfl
    have htarget := hread "target" "_blank" (by decide) (Html.unescapeValue_eq (by decide))
    have hrel := hread "rel" "noopener noreferrer" (by decide) (Html.unescapeValue_eq (by decide))
    exact congrArg₂ List.cons hhref (congrArg₂ List.cons htarget (congrArg₂ List.cons hrel rfl))
  have hkept : Html.keepLast (linkAttributes (Html.unescapeValue url)) = linkAttributes (Html.unescapeValue url) :=
    Html.keepLast_eq (show (["href", "target", "rel"] : List Text).Nodup by decide)
  have hlabelled : ∀ c ∈ label, Html.isOrdinary c = true :=
    isOrdinary_of_not_mem (hlabel.avoids (by decide)) (hlabel.avoids (by decide))
  have hend := Html.begins_endTag (show Html.isPlainTagName "a" = true by decide) [] label hlabelled
  rw [hsource, Html.tokens_startTag (by decide) (by decide) hplain.readable, hback, hkept, hend, Html.tokens_nil]
  rfl

/-- The tree of a link. -/
theorem parse_linkMarkup (hurl : IsAddress url) (hlabel : Within isQuiet label) :
    Html.parse (linkMarkup (dashMarkup url) label) =
      [.element "a" [("href", dashed url), ("target", "_blank"), ("rel", "noopener noreferrer")] (labelNodes label)] := by
  have hvoid : "a".toList ∉ Html.voidNames := by decide +kernel
  have hsettled : (linkAttributes (dashed url)).map (Html.Build.settleAttribute "a") = linkAttributes (dashed url) := by
    have hwords : Html.Build.isWordList "a" "href" = false ∧ Html.Build.isWordList "a" "target" = false := by decide
    have hrel : Html.Build.settleAttribute "a" ("rel", "noopener noreferrer") = ("rel".toList, "noopener noreferrer".toList) := by
      decide
    have hhref (v : Text) : Html.Build.settleAttribute "a" ("href", v) = ("href".toList, v) := by
      rw [Html.Build.settleAttribute, hwords.1, if_neg Bool.false_ne_true]
    have htarget (v : Text) : Html.Build.settleAttribute "a" ("target", v) = ("target".toList, v) := by
      rw [Html.Build.settleAttribute, hwords.2, if_neg Bool.false_ne_true]
    exact congrArg₂ List.cons (hhref _) (congrArg₂ List.cons (htarget _) (congrArg₂ List.cons hrel rfl))
  have hchildren : (if (plainParts label).isEmpty then [] else [Node.text (settled (plainParts label).flatten)]) =
      labelNodes label := by
    cases label with
    | nil => rfl
    | cons c label =>
      rw [labelNodes, plainParts, List.isEmpty_cons, if_neg Bool.false_ne_true, List.flatten_singleton]
      rfl
  rw [Html.parse, tokens_linkMarkup hurl.within_dashMarkup hlabel, unescapeValue_dashMarkup (hurl.chars.avoids (by decide)),
    Html.finish_text hvoid (by decide), hsettled, hchildren]
  rfl

/-- The tree of an address that is shown. -/
theorem parse_codeMarkup (hurl : IsAddress url) :
    Html.parse (codeMarkup (dashMarkup url)) = [.element "code" [] [.text (dashed url)]] := by
  have hvoid : "code".toList ∉ Html.voidNames := by decide +kernel
  have hsource : codeMarkup (dashMarkup url) =
      '<' :: (Html.startSource "code" [] ++ (dashMarkup url ++ '<' :: '/' :: (Html.stopSource "code" ++ []))) := by
    unfold codeMarkup
    simp only [Html.startSource, Html.stopSource, Html.attributesSource, List.append_assoc, List.nil_append]
    rfl
  have hnone : Html.ReadableAttributes [] := by simp [Html.ReadableAttributes]
  have hplain : ∀ c ∈ url, Html.isOrdinary c = true :=
    isOrdinary_of_not_mem (hurl.chars.avoids (by decide)) (hurl.chars.avoids (by decide))
  have hend := Html.begins_endTag (show Html.isPlainTagName "code" = true by decide) []
  obtain ⟨parts, hflatten, htokens⟩ := exists_tokens_dashMarkup hplain hend (p := []) (by simp)
  rw [List.nil_append] at hflatten htokens
  -- an address is not empty, and its letters keep the reader from taking it for white space
  have hne : parts.isEmpty = false := by
    refine List.isEmpty_eq_false_iff.2 fun hnil => ?_
    have hmem := hurl.mem_dashed
    rw [← hflatten, hnil] at hmem
    cases hmem
  have hsettled : settled (dashed url) = dashed url :=
    Html.settled_eq (List.any_eq_true.2 ⟨'h', hurl.mem_dashed, by decide⟩)
  rw [Html.parse, hsource, Html.tokens_startTag (by decide) (by decide) hnone, htokens, Html.tokens_nil]
  have hfinish := Html.finish_text hvoid (by decide) [] parts
  rw [hne, hflatten, hsettled] at hfinish
  exact hfinish

/-- A link is read back as an element that leads to its address and shows its label, and an address that is shown as
    one with the address in it, each with the dashes of the address set; it is the address as it was written if no two
    hyphens stand side by side in it. -/
theorem links_read_back (settings : Settings) (engine : Formula.Engine) (hurl : IsAddress url) (hlabel : Within isQuiet label) :
    (format settings engine (linkSource url label)).map Html.parse =
      .ok [.element "a" [("href", dashed url), ("target", "_blank"), ("rel", "noopener noreferrer")] (labelNodes label)] ∧
    (format settings engine (addressSource url)).map Html.parse = .ok [.element "code" [] [.text (dashed url)]] ∧
    (dashed url = url ↔ ¬ ['-', '-'] <:+: url) ∧
    (label.any (fun c => !Html.Build.isAsciiBlank c) = true → labelNodes label = [.text label]) := by
  refine ⟨?_, ?_, dashed_eq_self_iff, fun hshown => ?_⟩
  · rw [format_linkSource hurl hlabel, Except.map, parse_linkMarkup hurl hlabel]
  · rw [format_addressSource hurl, Except.map, parse_codeMarkup hurl]
  · cases label with
    | nil => cases hshown
    | cons c label => exact congrArg (fun s => [Node.text s]) (Html.settled_eq hshown)

end Commands

theorem links_read_back_port :
    (format {} failing (linkSource "https://example.com:80/a-b_c" "the page")).map Html.parse =
      .ok [.element "a" [("href", dashed "https://example.com:80/a-b_c"), ("target", "_blank"), ("rel", "noopener noreferrer")]
        (labelNodes "the page")] ∧
    (format {} failing (addressSource "https://example.com:80/a-b_c")).map Html.parse =
      .ok [.element "code" [] [.text (dashed "https://example.com:80/a-b_c")]] ∧
    (dashed "https://example.com:80/a-b_c" = "https://example.com:80/a-b_c".toList ↔
      ¬ ['-', '-'] <:+: "https://example.com:80/a-b_c".toList) ∧
    ("the page".toList.any (fun c => !Html.Build.isAsciiBlank c) = true → labelNodes "the page" = [.text "the page"]) :=
  links_read_back {} failing ⟨by decide, by decide⟩ (by decide)

/-- Two hyphens in an address are read back as one dash. -/
theorem address_hyphens :
    IsAddress "http://a--b" ∧ Within isQuiet "x" ∧
    (format {} failing "\\href\x7bhttp://a--b\x7d\x7bx\x7d").map Html.parse =
      .ok [.element "a" [("href", "http://a" ++ [Char.ofNat 0x2013] ++ "b"), ("target", "_blank"), ("rel", "noopener noreferrer")]
        [.text "x"]] ∧
    (format {} failing "\\url\x7bhttp://a--b\x7d").map Html.parse =
      .ok [.element "code" [] [.text ("http://a" ++ [Char.ofNat 0x2013] ++ "b")]] ∧
    "http://a" ++ [Char.ofNat 0x2013] ++ "b" ≠ "http://a--b".toList := by
  have hurl : IsAddress "http://a--b" := ⟨by decide, by decide⟩
  have hlabel : Within isQuiet "x" := by decide
  refine ⟨hurl, hlabel, ?_, ?_, by decide⟩
  · have hformat := format_linkSource hurl hlabel {} failing
    have hnodes : labelNodes "x" = [.text "x"] :=
      congrArg (fun s => [Node.text s]) (Html.settled_eq (s := "x") (by decide))
    have hparse := parse_linkMarkup hurl hlabel
    rw [hnodes] at hparse
    exact (congrArg (Except.map Html.parse) hformat).trans (congrArg Except.ok hparse)
  · exact (congrArg (Except.map Html.parse) (format_addressSource hurl {} failing)).trans
      (congrArg Except.ok (parse_codeMarkup hurl))

end Galley.Inline
