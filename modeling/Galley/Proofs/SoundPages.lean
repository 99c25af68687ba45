import Galley.Proofs.SoundMarkup
import Galley.Proofs.Stages
/-!
# Typesetting makes well-formed markup

Whatever the reduced markup is, all that the typesetter writes is escaped text and elements of its own, and the
addresses that it lets through are web and mail addresses. So the markup it emits is well-formed, and the tree that is
read from it has no other elements (`document_own`).
-/

namespace Galley.Typeset

open Html (Formed FormedOf IsTag Attribute isPlainTagName readBack voidNames isClassChar escape escapeQuoted)

/-! ## Tags -/

/-- Classes of the elements of a typeset page. -/
def isPageClass (w : Text) : Bool := "latex-".toList.isPrefixOf w || w = "section-number"

theorem isPageClass_latex (t : Text) : isPageClass ("latex-".toList ++ t) = true :=
  Bool.or_eq_true_iff.2 (.inl (List.isPrefixOf_iff_prefix.2 (List.prefix_append _ t)))

/-- A tag of the vocabulary, and its classes are those of a typeset page. -/
structure PageTag (name : Text) (as : List Attribute) : Prop extends IsTag name as where
  words : ∀ a ∈ as, a.1 = "class".toList → ∀ w ∈ a.2.words, isPageClass w = true

instance (name : Text) (as : List Attribute) : Decidable (PageTag name as) :=
  decidable_of_iff (IsTag name as ∧ ∀ a ∈ as, a.1 = "class".toList → ∀ w ∈ a.2.words, isPageClass w = true)
    ⟨fun h => ⟨h.1, h.2⟩, fun h => ⟨h.1, h.2⟩⟩

/-- Markup that the typesetter writes. -/
abbrev Written : Text → Prop := FormedOf PageTag

theorem PageTag.wrap {name content : Text} {as : List Attribute} (htag : PageTag name as) (hvoid : name ∉ voidNames)
    (hs : Written content) : Written ('<' :: Html.startSource name as ++ content ++ '<' :: '/' :: Html.stopSource name) :=
  FormedOf.wrap htag hvoid hs

/-! ## Escaped text -/

theorem isDelimiter_escapeQuoted {s : Text} {c : Char} (h : c ∈ escapeQuoted s) : Html.isDelimiter c = false := by
  have main (x : Char) : ∀ c ∈ Html.escapeQuotedChar x, Html.isDelimiter c = false := by
    unfold Html.escapeQuotedChar Html.escapeChar
    split
    · decide
    · split
      · decide
      · split
        · decide
        · split
          · decide
          · split
            · decide
            · intro c hc
              obtain rfl := List.mem_singleton.1 hc
              simp_all [Html.isDelimiter]
  obtain ⟨x, -, hx⟩ := List.mem_flatMap.1 h
  exact main x c hx

/-- Text without delimiters holds no double quote and no angle bracket. -/
theorem not_mem_of_isDelimiter {s : Text} (h : ∀ c ∈ s, Html.isDelimiter c = false) : '"' ∉ s ∧ '<' ∉ s ∧ '>' ∉ s :=
  ⟨fun hc => absurd (h _ hc) (by decide), fun hc => absurd (h _ hc) (by decide), fun hc => absurd (h _ hc) (by decide)⟩

theorem written_escape (s : Text) : Written (escape s) := .of_not_mem (Html.not_mem_escape s)

theorem written_escapeQuoted (s : Text) : Written (escapeQuoted s) :=
  .of_not_mem (not_mem_of_isDelimiter fun _ hc => isDelimiter_escapeQuoted hc).2

theorem written_ofNat (n : Nat) : Written (Text.ofNat n) :=
  .of_not_mem ⟨fun h => absurd (Text.isDigit_of_mem_ofNat h) (by decide),
    fun h => absurd (Text.isDigit_of_mem_ofNat h) (by decide)⟩

/-! ## Elements -/

/-- A tag with letters, digits, hyphens and spaces in its class. -/
theorem isTag_class {name v : Text} (h : IsTag name []) (hv : ∀ c ∈ v, isClassChar c = true) :
    IsTag name [("class".toList, v)] := by
  have hchar {c : Char} (hc : isClassChar c = true) {d : Char} (hd : isClassChar d = false) : c ≠ d := by
    rintro rfl
    rw [hc] at hd
    cases hd
  have hnot {d : Char} (hd : isClassChar d = false) : d ∉ v := fun hm => hchar (hv d hm) hd rfl
  have hread : readBack ("class".toList, v) = ("class".toList, v) := by
    rw [readBack, Html.unescapeValue_eq (hnot (by decide)), show Text.lower "class".toList = "class".toList by decide]
  refine ⟨h.plainName, ?_, ?_, ?_⟩
  · intro a ha
    obtain rfl := List.mem_singleton.1 ha
    exact ⟨(by decide : isPlainTagName "class".toList = true), hnot (by decide)⟩
  · intro a ha
    obtain rfl := List.mem_singleton.1 ha
    exact .inr (.inl ⟨rfl, hv⟩)
  · rw [List.map_singleton, hread]
    refine ⟨h.own.name, ?_, ?_, ?_⟩
    · intro a ha
      obtain rfl := List.mem_singleton.1 ha
      exact (by decide : "class".toList ∈ Html.vocabularyAttributes)
    · intro a ha _ c hc
      obtain rfl := List.mem_singleton.1 ha
      have hc := hv c hc
      simp [Html.isDelimiter, hchar hc (d := '"') (by decide), hchar hc (d := '\'') (by decide),
        hchar hc (d := '<') (by decide), hchar hc (d := '>') (by decide)]
    · intro a ha hhref
      obtain rfl := List.mem_singleton.1 ha
      exact absurd hhref (show "class".toList ≠ "href".toList by decide)

theorem pageTag_class {name v : Text} (h : IsTag name []) (hv : ∀ c ∈ v, isClassChar c = true)
    (hwords : ∀ w ∈ v.words, isPageClass w = true) : PageTag name [("class".toList, v)] where
  toIsTag := isTag_class h hv
  words a ha _ := by
    obtain rfl := List.mem_singleton.1 ha
    exact hwords

/-- The class of an environment is two words. -/
theorem words_className (name : Text) :
    Text.words ("latex-env latex-".toList ++ className name) = ["latex-env".toList, "latex-".toList ++ className name] := by
  have hblank : ∀ c ∈ "latex-".toList ++ className name, isBlank c = false := by
    intro c hc
    rcases List.mem_append.1 hc with hc | hc
    · exact (by decide : ∀ c ∈ "latex-".toList, isBlank c = false) c hc
    · have hname := (List.mem_filter.1 hc).2
      simp only [Bool.or_eq_true, decide_eq_true_eq] at hname
      rcases hname with ((hletter | hdigit) | rfl) | rfl
      · exact Html.not_isBlank_of_isNameLetter (by simp [Html.isNameLetter, hletter])
      · have hdigit : Html.isAsciiDigit c = true := hdigit
        exact Html.not_isBlank_of_isNameLetter (by simp [Html.isNameLetter, hdigit])
      · decide
      · decide
  refine @Text.words_joinWith ["latex-env".toList, "latex-".toList ++ className name] fun w hw => ?_
  simp only [List.mem_cons, List.not_mem_nil, or_false] at hw
  rcases hw with rfl | rfl
  · decide
  · exact ⟨by simp, hblank⟩

theorem written_environmentMarkup (name : Text) {content : Text} (h : Written content) :
    Written (environmentMarkup name content) := by
  unfold environmentMarkup
  split
  · exact (by decide : PageTag "figure" [("class", "latex-figure")]).wrap (by decide) h
  · have hclass : ∀ c ∈ "latex-env latex-".toList ++ className name, isClassChar c = true := by
      intro c hc
      rcases List.mem_append.1 hc with hc | hc
      · exact (by decide : ∀ c ∈ "latex-env latex-".toList, isClassChar c = true) c hc
      · have hname := (List.mem_filter.1 hc).2
        rw [isClassChar, hname, Bool.true_or]
    have hwords : ∀ w ∈ Text.words ("latex-env latex-".toList ++ className name), isPageClass w = true := by
      intro w hw
      rw [words_className] at hw
      rcases List.mem_cons.1 hw with rfl | hw
      · decide
      · rw [List.mem_singleton.1 hw]
        exact isPageClass_latex _
    simpa [Html.startSource, Html.stopSource, Html.attributesSource] using
      (pageTag_class (by decide : IsTag "div" []) hclass hwords).wrap (by decide) h

theorem written_division (name : Text) {content : Text} (hname : ∀ c ∈ name, isClassChar c = true)
    (hwords : ∀ w ∈ name.words, isPageClass w = true) (h : Written content) : Written (State.division name content) := by
  unfold State.division
  split
  · exact .nil
  · simpa [Html.startSource, Html.stopSource, Html.attributesSource] using
      (pageTag_class (by decide : IsTag "div" []) hname hwords).wrap (by decide) h

/-! ## Links -/

theorem startsWithAny_iff {s : Text} {ps : List Text} : s.startsWithAny ps = true ↔ ∃ p ∈ ps, p <+: s := by
  simp [Text.startsWithAny]

theorem isTag_link {address : Text} (h : address.startsWithAny schemes = true) :
    IsTag "a" [("href", escapeQuoted address), ("target", "_blank"), ("rel", "noopener noreferrer")] := by
  obtain ⟨p, hp, s, rfl⟩ := startsWithAny_iff.1 h
  have hvalue := fun c hc => isDelimiter_escapeQuoted (s := p ++ s) (c := c) hc
  have hfixed : IsTag "a" [("target".toList, "_blank".toList), ("rel".toList, "noopener noreferrer".toList)] := by decide
  refine ⟨hfixed.plainName, ?_, ?_, ?_⟩
  · have hname : isPlainTagName "href".toList = true := by decide
    exact List.forall_mem_cons.2 ⟨⟨hname, (not_mem_of_isDelimiter hvalue).1⟩, hfixed.plain⟩
  · exact List.forall_mem_cons.2 ⟨.inr (.inr ⟨rfl, hvalue⟩), hfixed.values⟩
  · have hname : (readBack ("href".toList, escapeQuoted (p ++ s))).1 = "href".toList :=
      show Text.lower "href".toList = "href".toList by decide
    refine ⟨hfixed.own.name, ?_, ?_, ?_⟩
    · refine List.forall_mem_cons.2 ⟨?_, hfixed.own.attributes⟩
      rw [hname]
      decide
    · refine List.forall_mem_cons.2 ⟨fun hclass => ?_, hfixed.own.classes⟩
      rw [hname] at hclass
      exact absurd hclass (by decide)
    · refine List.forall_mem_cons.2 ⟨fun _ => startsWithAny_iff.2 ⟨p, hp, ?_⟩, hfixed.own.addresses⟩
      rw [readBack, Html.unescapeValue_escapeQuoted]
      exact List.prefix_append p s

theorem pageTag_link {address : Text} (h : address.startsWithAny schemes = true) :
    PageTag "a" [("href", escapeQuoted address), ("target", "_blank"), ("rel", "noopener noreferrer")] where
  toIsTag := isTag_link h
  words a ha hclass := by
    have hname : a.1 ∈ ["href".toList, "target".toList, "rel".toList] := by
      simp only [List.mem_cons, List.not_mem_nil, or_false] at ha
      rcases ha with rfl | rfl | rfl <;> simp
    rw [hclass] at hname
    exact absurd hname (by decide)

theorem written_link {address label : Text} (h : Written label) : Written (link address label) := by
  unfold link
  split
  · rename_i hscheme
    simpa [Html.startSource, Html.stopSource, Html.attributesSource] using (pageTag_link hscheme).wrap (by decide) h
  · exact h

/-! ## Runs of the typesetter -/

namespace State

/-- The title data are well-formed. -/
structure IsWritten (s : State) : Prop where
  title : Written s.title
  author : Written s.author
  date : Written s.date

theorem IsWritten.set {s : State} (h : s.IsWritten) (name : Text) {value : Text} (hv : Written value) :
    (s.set name value).IsWritten := by
  unfold State.set
  split
  · exact ⟨hv, h.author, h.date⟩
  · split
    · exact ⟨h.title, hv, h.date⟩
    · exact ⟨h.title, h.author, hv⟩

theorem IsWritten.titleLines {s : State} (h : s.IsWritten) : Written s.titleLines := by
  have hheading : Written (heading s.title) := by
    unfold heading
    split
    · exact .nil
    · exact (by decide : PageTag "h1" [("class", "latex-title")]).wrap (by decide) h.title
  have hauthor := written_division "latex-author" (by decide) (by decide) h.author
  have hdate := written_division "latex-date" (by decide) (by decide) h.date
  exact written_division _ (by decide) (by decide) ((hheading.append hauthor).append hdate)

theorem IsWritten.count {s : State} (h : s.IsWritten) (name : Text) : (s.count name).2.IsWritten := by
  unfold State.count
  dsimp only
  split
  · exact ⟨h.title, h.author, h.date⟩
  · split <;> exact ⟨h.title, h.author, h.date⟩

theorem written_count (s : State) (name : Text) : Written (s.count name).1 := by
  have hdotted (ns : List Nat) : Written (Text.joinWith ['.'] (ns.map Text.ofNat)) := by
    have hchar {c : Char} (h : c ∈ Text.joinWith ['.'] (ns.map Text.ofNat)) : c = '.' ∨ c.isDigit = true := by
      rcases Text.mem_joinWith h with hc | ⟨t, ht, hc⟩
      · exact .inl (List.mem_singleton.1 hc)
      · obtain ⟨n, -, rfl⟩ := List.mem_map.1 ht
        exact .inr (Text.isDigit_of_mem_ofNat hc)
    exact .of_not_mem ⟨fun h => absurd (hchar h) (by decide), fun h => absurd (hchar h) (by decide)⟩
  unfold State.count
  dsimp only
  split
  · exact hdotted _
  · split <;> exact hdotted _

end State

/-- From well-formed title data the work comes to a result of `Q`, and leaves well-formed title data. -/
def Gives {α : Type} (w : Work α) (Q : α → Prop) : Prop := ∀ s : State, s.IsWritten → Q (w.run s).1 ∧ (w.run s).2.IsWritten

namespace Gives

variable {α β : Type} {w : Work α} {Q : α → Prop} {R : β → Prop}

theorem pure {a : α} (h : Q a) : Gives (Pure.pure a) Q := fun _ hs => ⟨h, hs⟩

theorem bind {next : α → Work β} (hw : Gives w Q) (hn : ∀ a, Q a → Gives (next a) R) : Gives (w >>= next) R := by
  intro s hs
  obtain ⟨hq, hs'⟩ := hw s hs
  exact hn _ hq _ hs'

theorem map {f : α → β} (hw : Gives w Q) (hf : ∀ a, Q a → R (f a)) : Gives (f <$> w) R := by
  intro s hs
  obtain ⟨hq, hs'⟩ := hw s hs
  exact ⟨hf _ hq, hs'⟩

theorem get : Gives (get : Work State) State.IsWritten := fun _ hs => ⟨hs, hs⟩

theorem modify {f : State → State} (hf : ∀ s, s.IsWritten → (f s).IsWritten) : Gives (modify f : Work PUnit) fun _ => True :=
  fun s hs => ⟨trivial, hf s hs⟩

end Gives

/-! ## Paragraphs -/

structure Flow.IsWritten (f : Flow) : Prop where
  done : Written f.done
  line : Written f.line

namespace Flow.IsWritten

variable {f : Flow} {t : Text}

theorem inline (h : f.IsWritten) (ht : Written t) : (f.inline t).IsWritten := ⟨h.done, h.line.append ht⟩

theorem close (h : f.IsWritten) : f.close.IsWritten := by
  unfold Flow.close
  dsimp only
  split
  · exact ⟨h.done, .nil⟩
  · refine ⟨?_, .nil⟩
    have hp := (by decide : PageTag "p" []).wrap (by decide) h.line.strip
    have := h.done.append hp
    simpa [Html.startSource, Html.stopSource, Html.attributesSource] using this

theorem block (h : f.IsWritten) (ht : Written t) : (f.block t).IsWritten := ⟨h.close.done.append ht, h.close.line⟩

theorem html (h : f.IsWritten) : Written f.html := h.close.done

theorem text (h : f.IsWritten) (t : Text) : (f.text t).IsWritten := by
  unfold Flow.text
  dsimp only
  refine List.foldlRecOn (motive := Flow.IsWritten) _ _ (h.inline (written_escape _)) fun f hf part _ => ?_
  exact hf.close.inline (written_escape _)

end Flow.IsWritten

/-! ## Commands -/

theorem lookup_mem {α : Type} {name : Text} {l : List (Text × α)} {v : α} (h : l.lookup name = some v) : (name, v) ∈ l := by
  obtain ⟨as, bs, rfl, -⟩ := List.lookup_eq_some_iff.1 h
  exact List.mem_append_right as List.mem_cons_self

/-- The tags that commands put around their argument. -/
def wrapperTags : List (Text × List Attribute) :=
  [("strong", []), ("em", []), ("u", []), ("code", []), ("span", [("style", "font-variant: small-caps;")]),
    ("sup", []), ("sub", [])]

theorem written_wrapper {name opening closing content : Text} (h : wrappers.lookup name = some (opening, closing))
    (hs : Written content) : Written (opening ++ content ++ closing) := by
  have hall : ∀ w ∈ wrappers, (w.2.1 = [] ∧ w.2.2 = []) ∨
      ∃ tag ∈ wrapperTags, w.2.1 = '<' :: Html.startSource tag.1 tag.2 ∧ w.2.2 = '<' :: '/' :: Html.stopSource tag.1 := by
    decide
  obtain ⟨rfl, rfl⟩ | ⟨tag, htag, rfl, rfl⟩ := hall _ (lookup_mem h)
  · simpa using hs
  · obtain ⟨htag, hvoid⟩ := (by decide : ∀ tag ∈ wrapperTags, PageTag tag.1 tag.2 ∧ tag.1 ∉ voidNames) tag htag
    exact htag.wrap hvoid hs

theorem written_symbol {name t : Text} (h : symbols.lookup name = some t) : Written t := by
  have hall : ∀ s ∈ symbols, ('<' ∉ s.2 ∧ '>' ∉ s.2) ∨ s.2 = '<' :: (Html.startSource "br" [] ++ []) := by decide
  rcases hall _ (lookup_mem h) with hs | hs
  · exact .of_not_mem hs
  · rw [show t = _ from hs]
    exact .void (by decide : PageTag "br" []) (by decide) .nil

theorem written_specialMarkup (t : Text) : Written (specialMarkup t) := by
  unfold specialMarkup
  cases h : specials.lookup t with
  | none => exact written_escapeQuoted t
  | some u => exact .of_not_mem ((by decide : ∀ s ∈ specials, '<' ∉ s.2 ∧ '>' ∉ s.2) _ (lookup_mem h))

theorem gives_headD {ws : List (Work Text)} (h : ∀ w ∈ ws, Gives w Written) : Gives (ws.headD (pure [])) Written := by
  cases ws with
  | nil => exact .pure .nil
  | cons w ws => exact h w List.mem_cons_self

theorem written_literal {s : Text} (h : '<' ∉ s ∧ '>' ∉ s) : Written s := .of_not_mem h

theorem written_space : Written [' '] := written_literal (by decide)

/-- A command is escaped, or stands for tags of its own around its arguments. -/
theorem gives_command (name : Text) (args : List Latex.Node) {rendered : List (Work Text)}
    (h : ∀ w ∈ rendered, Gives w Written) : Gives (command name args rendered) Written := by
  have hfirst := gives_headD h
  have hsecond := @gives_headD (rendered.drop 1) fun w hw => h w (List.mem_of_mem_drop hw)
  unfold command
  dsimp only
  split
  · rename_i opening closing hw
    exact hfirst.bind fun a ha => .pure (written_wrapper hw ha)
  · split
    · rename_i t ht
      exact .pure (written_symbol ht)
    · split_ifs
      · exact .pure .nil
      · exact .pure (written_escapeQuoted name)
      · refine hfirst.bind fun a ha => .pure ?_
        exact ((written_literal (by decide)).append ha).append (written_literal (by decide))
      · exact hsecond
      · exact .pure (written_link (written_escapeQuoted _))
      · exact hsecond.bind fun a ha => .pure (written_link ha)
      · exact hfirst.bind fun a ha => .pure ((by decide : PageTag "strong" []).wrap (by decide) ha)
      · exact .pure .nil
      · exact .pure (written_escape _)

theorem gives_blockCommand (name : Text) (starred : Bool) (args : List Latex.Node) {rendered : List (Work Text)}
    (h : ∀ w ∈ rendered, Gives w Written) {f : Flow} (hf : f.IsWritten) :
    Gives (blockCommand name starred args rendered f) Flow.IsWritten := by
  have hfirst := gives_headD h
  unfold blockCommand
  dsimp only
  split
  · rename_i tag htag
    have ⟨htag, hvoid⟩ : PageTag tag [] ∧ tag ∉ voidNames :=
      (by decide : ∀ h ∈ headings, PageTag h.2 [] ∧ h.2 ∉ voidNames) _ (lookup_mem htag)
    refine hfirst.bind fun title ht => ?_
    have hblock (number : Text) (hn : Written number) :
        (f.block ("<" ++ tag ++ ">" ++ number ++ title ++ "</" ++ tag ++ ">")).IsWritten := by
      refine hf.block ?_
      simpa [Html.startSource, Html.stopSource, Html.attributesSource] using htag.wrap hvoid (hn.append ht)
    split
    · exact .pure (hblock [] .nil)
    · refine Gives.bind (Q := Written) (fun s hs => ⟨s.written_count name, hs.count name⟩) fun n hn => .pure (hblock _ ?_)
      have hspan := (by decide : PageTag "span" [("class", "section-number")]).wrap (by decide) hn
      simpa [Html.startSource, Html.stopSource, Html.attributesSource] using hspan.append written_space
  · split_ifs with hrunIn hmake hcaption hpar htitle
    · have htag := (by decide : ∀ n ∈ runInHeadings, PageTag "strong" [("class", "latex-".toList ++ n)]) name
        (List.contains_iff_mem.1 hrunIn)
      refine hfirst.bind fun title ht => .pure (hf.close.inline ?_)
      simpa [Html.startSource, Html.stopSource, Html.attributesSource] using (htag.wrap (by decide) ht).append written_space
    · exact Gives.get.bind fun s hs => .pure (hf.block hs.titleLines)
    · refine Gives.bind (Gives.modify fun s hs => ⟨hs.title, hs.author, hs.date⟩) fun _ _ => ?_
      refine Gives.get.bind fun s _ => hfirst.bind fun title ht => .pure (hf.block ?_)
      have hnumber : Written (Text.ofNat s.figures) := written_ofNat _
      have hlabel := ((by decide : PageTag "strong" []).wrap (by decide)
        (((written_literal (s := "Figure ") (by decide)).append hnumber).append (written_literal (s := [':']) (by decide))))
      have hcontent := (by decide : PageTag "figcaption" [("class", "latex-caption")]).wrap (by decide)
        ((hlabel.append written_space).append ht)
      simpa [Html.startSource, Html.stopSource, Html.attributesSource] using hcontent
    · exact .pure hf.close
    · exact .pure hf
    · exact (gives_command name args h).bind fun t ht => .pure (hf.inline ht)

/-! ## Nodes -/

mutual

theorem gives_inline : ∀ n : Latex.Node, Gives (inline n) Written
  | .chars t => by
    rw [inline]
    exact .pure (written_escape t)
  | .special t => by
    rw [inline]
    exact .pure (written_specialMarkup t)
  | .math source => by
    rw [inline]
    exact .pure (written_escape source)
  | .comment source => by
    rw [inline]
    exact .pure .nil
  | .group nodes source => by
    rw [inline]
    exact gives_inlineAll nodes
  | .environment name nodes source => by
    rw [inline]
    exact (gives_flowAll nodes {} ⟨.nil, .nil⟩).bind fun f hf => .pure (written_environmentMarkup name hf.html)
  | .command name starred args source => by
    rw [inline]
    exact gives_command name args (gives_arguments args)

theorem gives_inlineAll : ∀ ns : List Latex.Node, Gives (inlineAll ns) Written
  | [] => by
    rw [inlineAll]
    exact .pure .nil
  | n :: ns => by
    rw [inlineAll]
    exact (gives_inline n).bind fun a ha => (gives_inlineAll ns).bind fun b hb => .pure (ha.append hb)

theorem gives_arguments : ∀ ns : List Latex.Node, ∀ w ∈ arguments ns, Gives w Written
  | [], w, hw => by
    rw [arguments] at hw
    cases hw
  | n :: ns, w, hw => by
    rw [arguments] at hw
    rcases List.mem_cons.1 hw with rfl | hw
    · exact (gives_inline n).map fun a ha => ha.strip
    · exact gives_arguments ns w hw

theorem gives_flow : ∀ (n : Latex.Node) (f : Flow), f.IsWritten → Gives (flow n f) Flow.IsWritten
  | .chars t, f, hf => by
    rw [flow]
    exact .pure (hf.text t)
  | .special t, f, hf => by
    rw [flow]
    exact .pure (hf.inline (written_specialMarkup t))
  | .math source, f, hf => by
    rw [flow]
    exact .pure (hf.inline (written_escape source))
  | .comment source, f, hf => by
    rw [flow]
    exact .pure hf
  | .group nodes source, f, hf => by
    rw [flow]
    exact gives_flowAll nodes f hf
  | .environment name nodes source, f, hf => by
    rw [flow]
    exact (gives_flowAll nodes {} ⟨.nil, .nil⟩).bind fun g hg => .pure (hf.block (written_environmentMarkup name hg.html))
  | .command name starred args source, f, hf => by
    rw [flow]
    exact gives_blockCommand name starred args (gives_arguments args) hf

theorem gives_flowAll : ∀ (ns : List Latex.Node) (f : Flow), f.IsWritten → Gives (flowAll ns f) Flow.IsWritten
  | [], f, hf => by
    rw [flowAll]
    exact .pure hf
  | n :: ns, f, hf => by
    rw [flowAll]
    exact (gives_flow n f hf).bind fun g hg => gives_flowAll ns g hg

end

/-! ## Documents -/

theorem gives_collectTitle (ns : List Latex.Node) : Gives (collectTitle ns) fun _ => True := by
  induction ns with
  | nil => exact .pure trivial
  | cons n ns ih =>
    cases n with
    | command name starred args source =>
      rw [collectTitle]
      split
      · refine (gives_headD (gives_arguments args)).bind fun value hv => ?_
        exact (Gives.modify fun s hs => hs.set name hv).bind fun _ _ => ih
      · exact ih
    | _ => simpa only [collectTitle] using ih

theorem writes_documentMarkup (nodes : List Latex.Node) : Gives (documentMarkup nodes) Written :=
  (gives_collectTitle nodes).bind fun _ _ =>
    (gives_flowAll (bodyOf nodes) {} ⟨.nil, .nil⟩).bind fun _ hf => .pure hf.html

theorem gives_documentMarkup (nodes : List Latex.Node) : Gives (documentMarkup nodes) Formed := fun s hs =>
  ⟨((writes_documentMarkup nodes s hs).1).formed PageTag.toIsTag, (writes_documentMarkup nodes s hs).2⟩

/-- The markup that is emitted for the nodes of a document. -/
def emitted (nodes : List Latex.Node) : Text :=
  "<div class=\"latex-preview\">" ++ ((documentMarkup nodes).run {}).1 ++ "</div>"

theorem document_eq (markup : Text) : document markup = Html.parse (emitted (Latex.read markup)) := rfl

/-- Every element of a typeset page is harmless. -/
theorem clean_document (markup : Text) : Html.EveryOf Html.Node.Clean (document markup) := by
  have hcontent := (gives_documentMarkup (Latex.read markup) {} ⟨.nil, .nil, .nil⟩).1
  have hemitted := (by decide : IsTag "div" [("class", "latex-preview")]).wrap (by decide) hcontent
  exact (Html.own_parse hemitted).imp fun _ => Html.Node.Own.clean

/-- Every node of a typeset page is text or an element with a tag of the typesetter's. -/
theorem of_document (markup : Text) : Html.EveryOf (Html.Node.Of PageTag) (document markup) := by
  have hcontent := (writes_documentMarkup (Latex.read markup) {} ⟨.nil, .nil, .nil⟩).1
  have hemitted := (by decide : PageTag "div" [("class", "latex-preview")]).wrap (by decide) hcontent
  exact Html.of_parse PageTag.toIsTag hemitted

/-! ## Classes -/

/-- A class that is read back is the one that was written. -/
theorem PageTag.readBack_class {name : Text} {as : List Attribute} (h : PageTag name as) {a : Attribute} (ha : a ∈ as)
    (hclass : (readBack a).1 = "class".toList) : ∀ w ∈ (readBack a).2.words, isPageClass w = true := by
  obtain ⟨n, v⟩ := a
  rcases h.values _ ha with hfixed | ⟨hname, hv⟩ | ⟨hname, -⟩
  · exact absurd hclass ((by decide : ∀ a ∈ Html.fixedAttributes, (readBack a).1 ≠ "class".toList) _ hfixed)
  · have hamp : '&' ∉ v := fun hm => absurd (hv '&' hm) (by decide)
    have hwords := h.words _ ha hname
    rwa [readBack, Html.unescapeValue_eq hamp]
  · obtain rfl : n = "href".toList := hname
    exact absurd hclass (show Text.lower "href".toList ≠ "class".toList by decide)

/-- The classes of an element of a typeset page are those of such pages. -/
theorem isPageClass_of_mem {n : Html.Node} (h : n.Of PageTag) {w : Text} (hw : w ∈ n.classes) : isPageClass w = true := by
  cases n with
  | text s => simp [Html.Node.classes, Html.Node.attribute?, Text.words, Text.wordsFrom] at hw
  | note kind s => cases h
  | element name attributes children =>
    obtain ⟨source, as, htag, rfl, rfl⟩ := h
    rw [Html.Node.classes, Html.Node.attribute?] at hw
    cases hv : List.lookup "class".toList
        ((Html.keepLast (as.map readBack)).map (Html.Build.settleAttribute (Text.lower source))) with
    | none =>
      rw [hv] at hw
      simp [Text.words, Text.wordsFrom] at hw
    | some v =>
      rw [hv, Option.getD_some] at hw
      obtain ⟨b, hb, hsettle⟩ := List.mem_map.1 (lookup_mem hv)
      obtain ⟨a, ha, rfl⟩ := List.mem_map.1 (Html.mem_keepLast hb)
      have hname := congrArg Prod.fst hsettle
      rw [Html.Build.settleAttribute_fst] at hname
      have hlist : Html.Build.isWordList (Text.lower source) (readBack a).1 = true := by
        rw [hname, Html.Build.isWordList, decide_eq_true (rfl : "class".toList = "class".toList)]
        simp only [Bool.true_or]
      rw [Html.Build.settleAttribute, if_pos hlist] at hsettle
      obtain ⟨-, rfl⟩ := Prod.mk.inj hsettle
      rw [Text.words_collapse] at hw
      exact htag.readBack_class ha hname w hw

end Galley.Typeset
