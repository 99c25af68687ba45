import Galley.Diagram.Frame
import Galley.Proofs.SoundPages
import Galley.Proofs.Tokens
/-!
# Diagrams in their frames

A diagram is one frame in one box: markup that holds it is read as these two elements, and the page of the frame
is read back from its attribute as it was written (`parse_fragment`). In that page an end tag begins only where the
page of frames has one, neither in the options nor in the body of the diagram (`one_closed_frame`).
-/

namespace Galley

open Html (Node Attribute)

/-! ## What would close an element -/

/-- The two characters that begin an end tag. -/
def tagCloser : Text := ['<', '/']

theorem tagCloser_prefix_cons {c : Char} {s : Text} : tagCloser <+: c :: s ↔ c = '<' ∧ s.head? = some '/' := by
  rw [tagCloser, List.cons_prefix_cons]
  cases s <;> simp [eq_comm]

/-- A text cannot hold an end tag's beginning if it lacks one of its two characters. -/
theorem not_tagCloser_of_not_mem {s : Text} (h : '<' ∉ s) : ¬tagCloser <:+: s :=
  fun hin => h (hin.subset (by decide))

/-- An end tag's beginning in two texts is in the one or in the other, unless it runs across. -/
theorem tagCloser_split {l r before after : Text} (hseam : l.getLast? = some '<' → r.head? ≠ some '/')
    (h : l ++ r = before ++ (tagCloser ++ after)) :
    (∃ m, l = before ++ (tagCloser ++ m) ∧ after = m ++ r) ∨ ∃ m, before = l ++ m ∧ r = m ++ (tagCloser ++ after) := by
  rcases List.append_eq_append_iff.1 h with ⟨m, rfl, hr⟩ | ⟨m, rfl, hafter⟩
  · exact .inr ⟨m, rfl, hr⟩
  · unfold tagCloser at hafter ⊢
    match m, hafter with
    | [], hafter => exact .inr ⟨[], by simp, hafter.symm⟩
    | [c], hafter =>
      obtain ⟨rfl, rfl⟩ : '<' = c ∧ '/' :: after = r := by simpa using hafter
      exact absurd rfl (hseam (by simp))
    | c :: d :: m, hafter =>
      obtain ⟨rfl, rfl, rfl⟩ : '<' = c ∧ '/' = d ∧ after = m ++ r := by simpa using hafter
      exact .inl ⟨m, by simp, rfl⟩

namespace Diagram

theorem guardClosing_closer (s : Text) : guardClosing ('<' :: '/' :: s) = '<' :: '\\' :: '/' :: guardClosing s := by
  simp [guardClosing, Text.replace, Text.replaceFrom]

theorem guardClosing_cons {c : Char} {s : Text} (h : ¬tagCloser <+: c :: s) :
    guardClosing (c :: s) = c :: guardClosing s := by
  have hcloser : "</".toList.isPrefixOf (c :: s) = false := by
    rw [Bool.eq_false_iff, Ne, List.isPrefixOf_iff_prefix]
    exact h
  unfold guardClosing Text.replace
  rw [Text.replaceFrom, if_neg (by rw [hcloser]; simp)]

/-- What is guarded begins with a slash only if it did so before, and closes no element. -/
theorem guardClosing_closes_nothing (s : Text) :
    ((guardClosing s).head? = some '/' → s.head? = some '/') ∧ ¬tagCloser <:+: guardClosing s := by
  match s with
  | [] => exact ⟨id, by decide⟩
  | c :: s =>
    by_cases h : tagCloser <+: c :: s
    · obtain ⟨t, ht⟩ := h
      obtain ⟨rfl, rfl⟩ : '<' = c ∧ _ = s := List.cons.inj ht
      obtain ⟨-, ih⟩ := guardClosing_closes_nothing t
      rw [List.append_eq, List.singleton_append, guardClosing_closer]
      refine ⟨by simp, ?_⟩
      simp [List.infix_cons_iff, tagCloser_prefix_cons, ih]
    · obtain ⟨ihhead, ih⟩ := guardClosing_closes_nothing s
      rw [tagCloser_prefix_cons] at h
      rw [guardClosing_cons (mt tagCloser_prefix_cons.1 h)]
      refine ⟨by simp, ?_⟩
      rw [List.infix_cons_iff, tagCloser_prefix_cons]
      rintro (⟨hc, hhead⟩ | hin)
      · exact h ⟨hc, ihhead hhead⟩
      · exact ih hin
termination_by s.length

end Diagram

/-! ## Numbers and digests -/

theorem Text.of_mem_ofInt {n : Int} {c : Char} (h : c ∈ Text.ofInt n) : c = '-' ∨ c.isDigit = true := by
  cases n with
  | ofNat n => exact .inr (Text.isDigit_of_mem_ofNat h)
  | negSucc n =>
    have hsource : Text.ofInt (.negSucc n) = '-' :: Text.ofNat (n + 1) := by
      simp [Text.ofInt, Text.ofNat, toString, Int.repr]
    rw [hsource] at h
    rcases List.mem_cons.1 h with rfl | h
    · exact .inl rfl
    · exact .inr (Text.isDigit_of_mem_ofNat h)

theorem Text.not_mem_ofInt {c : Char} (h : c ≠ '-' ∧ c.isDigit = false) (n : Int) : c ∉ Text.ofInt n := by
  intro hc
  rcases Text.of_mem_ofInt hc with rfl | hdigit
  · exact h.1 rfl
  · rw [h.2] at hdigit
    cases hdigit

theorem Quoted.not_mem_hex {c : Char} (h : ∀ n < 16, c ≠ Quoted.hexDigit n) (width n : Nat) :
    c ∉ Quoted.hex width n := by
  induction width generalizing n with
  | zero => simp [Quoted.hex]
  | succ width ih =>
    simp only [Quoted.hex, List.mem_append, List.mem_singleton, not_or]
    exact ⟨ih (n / 16), h _ (Nat.mod_lt n (by decide))⟩

theorem Diagram.not_mem_frameName {c : Char} (h : ∀ n < 16, c ≠ Quoted.hexDigit n) (sequence : Nat)
    (options body : Text) : c ∉ Diagram.frameName sequence options body := by
  intro hc
  have hdigest := List.mem_of_mem_take hc
  simp only [Digest.sha1, List.mem_flatMap] at hdigest
  obtain ⟨word, -, hword⟩ := hdigest
  exact Quoted.not_mem_hex h _ _ hword

/-! ## Pages -/

namespace Page

variable {values : List (Text × Json)}

/-- No end tag's beginning runs from what fills one part into what fills the next. -/
def Seamless (values : List (Text × Json)) : List Part → Prop
  | [] => True
  | p :: ps => ((p.fill values).getLast? = some '<' → (fill ps values).head? ≠ some '/') ∧ Seamless values ps

theorem fill_cons (p : Part) (ps : List Part) : fill (p :: ps) values = p.fill values ++ fill ps values :=
  List.flatMap_cons

/-- The beginning of an end tag in a page that is filled in stands in what fills one of the parts. -/
theorem tagCloser_in_part {page : List Part} (hseam : Seamless values page) {before after : Text}
    (h : fill page values = before ++ (tagCloser ++ after)) :
    ∃ ps p qs l r, page = ps ++ p :: qs ∧ p.fill values = l ++ (tagCloser ++ r) ∧
      before = fill ps values ++ l ∧ after = r ++ fill qs values := by
  induction page generalizing before with
  | nil => simp [fill, tagCloser] at h
  | cons p page ih =>
    rw [fill_cons] at h
    rcases tagCloser_split hseam.1 h with ⟨r, hp, rfl⟩ | ⟨m, rfl, hm⟩
    · exact ⟨[], p, page, before, r, rfl, hp, rfl, rfl⟩
    · obtain ⟨ps, q, qs, l, r, rfl, hq, rfl, rfl⟩ := ih hseam.2 hm
      exact ⟨p :: ps, q, qs, l, r, rfl, hq, by rw [fill_cons, List.append_assoc], rfl⟩

theorem Seamless.after {p : Part} {ps : List Part} (h : (p.fill values).getLast? ≠ some '<') (hs : Seamless values ps) :
    Seamless values (p :: ps) :=
  ⟨fun hlast => absurd hlast h, hs⟩

theorem Seamless.text {t : Text} {ps : List Part} (h : t.getLast? ≠ some '<') (hs : Seamless values ps) :
    Seamless values (.text t :: ps) :=
  hs.after h

theorem getLast?_joinWith {sep t : Text} {parts : List Text} (h : parts.getLast? = some t) (hne : t ≠ []) :
    (Text.joinWith sep parts).getLast? = t.getLast? := by
  induction parts with
  | nil => cases h
  | cons u parts ih =>
    cases parts with
    | nil => simp_all [Text.joinWith]
    | cons v parts =>
      obtain ⟨front, c, rfl⟩ := List.eq_nil_or_concat t |>.resolve_left hne
      rw [Text.joinWith, List.getLast?_append, ih (by simpa using h)]
      · simp
      · simp

/-- A page's text of lines ends as its last line does. -/
theorem Seamless.lines {lines : List String} {line : String} {ps : List Part} (hlast : lines.getLast? = some line)
    (h : line.toList ≠ [] ∧ line.toList.getLast? ≠ some '<') (hs : Seamless values ps) :
    Seamless values (.text (ofLines lines) :: ps) := by
  refine hs.text ?_
  rw [ofLines, getLast?_joinWith (t := line.toList) (by simp [texts, hlast]) h.1]
  exact h.2

/-- Whatever fills a place, a text behind it that does not begin with a slash makes no end tag of it. -/
theorem Seamless.place {name t : Text} {ps : List Part} (h : t ≠ [] ∧ t.head? ≠ some '/')
    (hs : Seamless values (.text t :: ps)) : Seamless values (.place name :: .text t :: ps) := by
  refine ⟨fun _ => ?_, hs⟩
  obtain ⟨hne, hhead⟩ := h
  rw [fill_cons]
  cases t with
  | nil => contradiction
  | cons c t => exact hhead

theorem not_tagCloser_place (h : ∀ v ∈ values, ¬tagCloser <:+: v.2.shown) (name : Text) :
    ¬tagCloser <:+: (Part.place name).fill values := by
  simp only [Part.fill]
  cases hvalue : values.lookup name with
  | none => exact (by decide : ¬tagCloser <:+: [])
  | some j =>
    obtain ⟨front, back, rfl, -⟩ := List.lookup_eq_some_iff.1 hvalue
    exact h (name, j) (by simp)

/-- In the page that is filled in, an end tag begins only in a text of the page itself. -/
def OwnClosers (page : List Part) (values : List (Text × Json)) : Prop :=
  ∀ before after, fill page values = before ++ (tagCloser ++ after) →
    ∃ ps t qs l r, page = ps ++ .text t :: qs ∧ t = l ++ (tagCloser ++ r) ∧
      before = fill ps values ++ l ∧ after = r ++ fill qs values

theorem Seamless.ownClosers {page : List Part} (hseam : Seamless values page)
    (hvalues : ∀ v ∈ values, ¬tagCloser <:+: v.2.shown)
    (hkind : ∀ p ∈ page, (∃ t, p = .text t) ∨ ∃ name, p = .place name) : OwnClosers page values := by
  intro before after hpage
  obtain ⟨ps, p, qs, l, r, rfl, hp, hbefore, hafter⟩ := tagCloser_in_part hseam hpage
  rcases hkind p (by simp) with ⟨t, rfl⟩ | ⟨name, rfl⟩
  · exact ⟨ps, t, qs, l, r, rfl, hp, hbefore, hafter⟩
  · refine absurd ⟨l, r, ?_⟩ (not_tagCloser_place hvalues name)
    rw [hp, List.append_assoc]

end Page

namespace Diagram

open Html (startSource stopSource attributesSource readBack ReadableAttributes)

variable (c : Calibration) (options body : Text) (sequence : Nat)

/-- The values of a frame's page. -/
def frameValues : List (Text × Json) := [
  ("tikzjax_base", .str engineAddress),
  ("options", .str (guardClosing (joinOptions (plan c body options).options))),
  ("body", .str (safeSubset c body)),
  ("diagram_id", .str (frameName sequence options body)),
  ("height_padding", .int c.frameHeightPaddingPx),
  ("min_height", .int c.minFrameHeightPx)]

theorem framePage_eq : framePage c options body sequence = Page.fill Page.frame (frameValues c options body sequence) := rfl

theorem frameValues_close_nothing : ∀ v ∈ frameValues c options body sequence, ¬tagCloser <:+: v.2.shown := by
  have hengine : ¬tagCloser <:+: engineAddress := by decide +kernel
  have hname := not_tagCloser_of_not_mem (not_mem_frameName (by decide +kernel) sequence options body)
  have hnumber (n : Int) := not_tagCloser_of_not_mem (Text.not_mem_ofInt (by decide) n)
  simp only [frameValues, List.forall_mem_cons, List.not_mem_nil, false_implies, implies_true, and_true]
  exact ⟨hengine, (guardClosing_closes_nothing _).2, (guardClosing_closes_nothing _).2, hname, hnumber _, hnumber _⟩

/-- No value and no text of the page joins the next into an end tag. -/
theorem frame_seamless : Page.Seamless (frameValues c options body sequence) Page.frame := by
  have hnumbers : Page.Seamless (frameValues c options body sequence)
      [.place "height_padding", .text ", ", .place "min_height", .text (Page.ofLines Page.frameEnd)] :=
    .place (by decide +kernel) (.text (by decide +kernel) (.place (by decide +kernel) (.lines rfl (by decide +kernel)
      trivial)))
  have hpicture : Page.Seamless (frameValues c options body sequence)
      (.place "options" :: .text "\n      " :: .place "body" :: .text (Page.ofLines Page.frameScript) ::
        .place "diagram_id" :: .text (Page.ofLines Page.frameReport) :: _) :=
    .place (by decide +kernel) (.text (by decide +kernel) (.place (by decide +kernel) (.lines rfl (by decide +kernel)
      (.place (by decide +kernel) (.lines rfl (by decide +kernel) hnumbers)))))
  -- a slash follows the address of the engine, which does not end in an angle bracket
  have hengine : engineAddress.getLast? ≠ some '<' := by decide +kernel
  exact .lines rfl (by decide +kernel) (.after hengine (.text (by decide +kernel) (.after hengine
    (.lines rfl (by decide +kernel) hpicture))))

/-! ## The fragment -/

def boxAttributes : List Attribute :=
  [("class", "tikz-wrapper"), ("style", "display: flex; justify-content: center; width: 100%; margin: 1em 0;")]

/-- The attributes of a frame with a page. -/
def frameAttributes (page : Text) : List Attribute :=
  [("sandbox", "allow-scripts"), ("data-diagram-id", frameName sequence options body), ("srcdoc", page),
    ("style", "border: none; width: 100%; min-height: " ++ Text.ofInt c.minFrameHeightPx ++ "px; overflow: hidden;")]

/-- The attributes of a frame as the fragment writes them. -/
def frameSource : List Attribute :=
  frameAttributes c options body sequence (Html.escapeQuoted (framePage c options body sequence))

theorem fragment_eq (h : isPlot body = false) : fragment c options body sequence =
    '<' :: (startSource "div" boxAttributes ++ '<' :: (startSource "iframe" (frameSource c options body sequence) ++
      '<' :: '/' :: (stopSource "iframe" ++ '<' :: '/' :: (stopSource "div" ++ [])))) := by
  have hopen : ("<div class=\"tikz-wrapper\" style=\"display: flex; justify-content: center; " ++
      "width: 100%; margin: 1em 0;\"><iframe sandbox=\"allow-scripts\" data-diagram-id=\"" : Text) =
      '<' :: (startSource "div" boxAttributes ++ '<' :: ("iframe" ++ ' ' :: ("sandbox" ++ '=' :: '"' ::
        ("allow-scripts" ++ '"' :: ' ' :: ("data-diagram-id" ++ ['=', '"']))))) := by decide +kernel
  have hpage : ("\" srcdoc=\"" : Text) = '"' :: ' ' :: ("srcdoc" ++ ['=', '"']) := by decide +kernel
  have hstyle : ("\" style=\"border: none; width: 100%; min-height: " : Text) =
      '"' :: ' ' :: ("style" ++ '=' :: '"' :: "border: none; width: 100%; min-height: ") := by decide +kernel
  have hstop : ("px; overflow: hidden;\"></iframe></div>" : Text) =
      "px; overflow: hidden;" ++ '"' :: '>' :: '<' :: '/' :: (stopSource "iframe" ++ '<' :: '/' :: stopSource "div") := by
    decide +kernel
  unfold fragment
  rw [if_neg (by rw [h]; simp), hopen, hpage, hstyle, hstop]
  simp only [startSource, frameSource, frameAttributes, attributesSource, List.append_assoc, List.cons_append,
    List.nil_append, List.append_nil]

theorem frameSource_readable : ReadableAttributes (frameSource c options body sequence) := by
  have hname : '"' ∉ frameName sequence options body := not_mem_frameName (by decide) sequence options body
  have hheight : '"' ∉ Text.ofInt c.minFrameHeightPx := Text.not_mem_ofInt (by decide) _
  have hpage : '"' ∉ Html.escapeQuoted (framePage c options body sequence) :=
    (Typeset.not_mem_of_isDelimiter fun _ => Typeset.isDelimiter_escapeQuoted).1
  have hstyle : '"' ∉ ("border: none; width: 100%; min-height: " ++ Text.ofInt c.minFrameHeightPx ++
      "px; overflow: hidden;" : Text) := by
    simp only [List.mem_append, not_or]
    exact ⟨⟨by decide, hheight⟩, by decide⟩
  simp only [ReadableAttributes, frameSource, frameAttributes, List.forall_mem_cons, List.not_mem_nil, false_implies,
    implies_true, and_true]
  exact ⟨⟨by decide, by decide⟩, ⟨by decide, hname⟩, ⟨by decide, hpage⟩,
    by decide, hstyle⟩

/-- The attributes of a frame are read back, its page unescaped. -/
theorem readBack_frameSource : (frameSource c options body sequence).map readBack =
    frameAttributes c options body sequence (framePage c options body sequence) := by
  have hname : Html.unescapeValue (frameName sequence options body) = frameName sequence options body :=
    Html.unescapeValue_eq (not_mem_frameName (by decide) sequence options body)
  have hstyle : Html.unescapeValue ("border: none; width: 100%; min-height: " ++ Text.ofInt c.minFrameHeightPx ++
      "px; overflow: hidden;") = "border: none; width: 100%; min-height: " ++ Text.ofInt c.minFrameHeightPx ++
      "px; overflow: hidden;" := by
    refine Html.unescapeValue_eq ?_
    simp only [List.mem_append, not_or]
    exact ⟨⟨by decide, Text.not_mem_ofInt (by decide) _⟩, by decide⟩
  have hsandbox : Html.unescapeValue "allow-scripts" = "allow-scripts" := Html.unescapeValue_eq (by decide)
  have hlower : Text.lower "sandbox" = "sandbox" ∧ Text.lower "data-diagram-id" = "data-diagram-id" ∧
      Text.lower "srcdoc" = "srcdoc" ∧ Text.lower "style" = "style" := by decide
  simp only [frameSource, frameAttributes, List.map_cons, List.map_nil, readBack, hname, hstyle, hsandbox,
    Html.unescapeValue_escapeQuoted, hlower]

theorem tokens_fragment (h : isPlot body = false) : Html.tokens (fragment c options body sequence) =
    [.start "div" boxAttributes false,
      .start "iframe" (frameAttributes c options body sequence (framePage c options body sequence)) false,
      .stop "iframe", .stop "div"] := by
  have hdiv : Text.lower "div" = "div" := by decide
  have hiframe : Text.lower "iframe" = "iframe" := by decide
  have hbox : Html.keepLast (boxAttributes.map readBack) = boxAttributes := by decide
  have hframe : Html.keepLast ((frameSource c options body sequence).map readBack) =
      frameAttributes c options body sequence (framePage c options body sequence) := by
    rw [readBack_frameSource]
    refine Html.keepLast_eq ?_
    show ["sandbox".toList, "data-diagram-id", "srcdoc", "style"].Nodup
    decide
  have hreadable : ReadableAttributes boxAttributes := by
    simp only [ReadableAttributes, boxAttributes, List.forall_mem_cons, List.not_mem_nil, false_implies, implies_true,
      and_true]
    decide
  rw [fragment_eq c options body sequence h, Html.tokens_startTag (by decide) (by decide) hreadable,
    Html.tokens_startTag (by decide) (by decide) (frameSource_readable c options body sequence),
    Html.tokens_endTag (by decide), Html.tokens_endTag (by decide), Html.tokens_nil, hbox, hframe, hdiv,
    hiframe]

/-- The fragment of a diagram is read as one box that holds one frame, with the frame's page in its attribute. -/
theorem parse_fragment (h : isPlot body = false) : Html.parse (fragment c options body sequence) =
    [.element "div" boxAttributes [.element "iframe"
      (frameAttributes c options body sequence (framePage c options body sequence)) []]] := by
  have hbox : boxAttributes.map (Html.Build.settleAttribute "div") = boxAttributes := by decide
  have hsandbox : Html.Build.settleAttribute "iframe" (("sandbox", "allow-scripts") : Text × Text) =
      (("sandbox", "allow-scripts") : Text × Text) := by decide
  have hsettled (name : Text) (hname : Html.Build.isWordList "iframe" name = false) (value : Text) :
      Html.Build.settleAttribute "iframe" (name, value) = (name, value) := if_neg (by rw [hname]; simp)
  have hframe (page : Text) : (frameAttributes c options body sequence page).map (Html.Build.settleAttribute "iframe") =
      frameAttributes c options body sequence page := by
    simp only [frameAttributes, List.map_cons, List.map_nil, hsandbox, hsettled "data-diagram-id" (by decide),
      hsettled "srcdoc" (by decide), hsettled "style" (by decide)]
  rw [Html.parse, tokens_fragment c options body sequence h, Html.finish_nested (by decide) (by decide),
    hbox, hframe]

/-- A diagram cannot leave its frame. Its fragment is read as one box that holds one frame, which may run scripts and
nothing else and whose attribute gives back its page: the page of frames with the options and the body at their
places. An end tag begins in it only where the page of frames has one. -/
theorem one_closed_frame (c : Calibration) (options : Text) {body : Text} (h : isPlot body = false) (sequence : Nat) :
    Html.parse (fragment c options body sequence) =
        [.element "div" boxAttributes [.element "iframe"
          (frameAttributes c options body sequence (Page.fill Page.frame (frameValues c options body sequence))) []]] ∧
      Page.OwnClosers Page.frame (frameValues c options body sequence) := by
  refine ⟨framePage_eq c options body sequence ▸ parse_fragment c options body sequence h, ?_⟩
  have hkind : ∀ p ∈ Page.frame, (∃ t, p = .text t) ∨ ∃ name, p = .place name := by simp [Page.frame]
  exact (frame_seamless c options body sequence).ownClosers (frameValues_close_nothing c options body sequence) hkind

theorem script_end_in_closed_frame : isPlot "</script>" = false ∧
    Html.parse (fragment {} "</script>" "</script>" 0) =
        [.element "div" boxAttributes [.element "iframe"
          (frameAttributes {} "</script>" "</script>" 0
            (Page.fill Page.frame (frameValues {} "</script>" "</script>" 0))) []]] ∧
      Page.OwnClosers Page.frame (frameValues {} "</script>" "</script>" 0) :=
  ⟨by decide +kernel, one_closed_frame {} "</script>" (by decide +kernel) 0⟩

end Diagram

end Galley
