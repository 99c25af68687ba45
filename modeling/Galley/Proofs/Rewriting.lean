import Galley.Article
import Galley.Integrity
import Galley.Proofs.Mending
/-!
# The article of a row

A row holds no preamble, so its article has no title and all of its marks (`markup_source`), and one
begin and one end marker more, those of the document's body (`count_markup`).
-/

namespace Galley

/-! ## White space around a row -/

namespace Row

/-- Blanks hold no marks. -/
theorem marks_eq_nil {d : Row} (h : '\\' ∉ d.source) : d.marks = [] := by
  induction d with
  | nil => rfl
  | cons i d ih =>
    rw [source_cons, List.mem_append, not_or] at h
    cases i with
    | char c hc => exact ih h.2
    | mark m hm => exact absurd (by rw [Item.source, m.source_eq]; exact List.mem_cons_self) h.1

theorem of_append {d : Row} {t b : Text} (h : d.source = t ++ b) (hs : '\\' ∉ b) (hb : '}' ∉ b) :
    ∃ d' : Row, t = d'.source ∧ d'.marks = d.marks := by
  induction d generalizing t with
  | nil =>
    obtain ⟨rfl, -⟩ := List.append_eq_nil_iff.1 h.symm
    exact ⟨[], rfl, rfl⟩
  | cons i d ih =>
    rw [source_cons] at h
    rcases List.append_eq_append_iff.1 h with ⟨u, rfl, hu⟩ | ⟨u, hu, rfl⟩
    · obtain ⟨d', rfl, hm⟩ := ih hu
      exact ⟨i :: d', rfl, by cases i <;> simp [hm]⟩
    · -- the end of the row is inside this item, so it is not the end of a mark
      rw [List.mem_append, not_or] at hs hb
      cases i with
      | char c hc =>
        have hmarks := marks_eq_nil hs.2
        rw [Item.source] at hu
        rcases List.append_eq_singleton_iff.1 hu.symm with ⟨rfl, rfl⟩ | ⟨rfl, rfl⟩
        · exact ⟨[], rfl, by rw [marks_char, hmarks, marks_nil]⟩
        · exact ⟨[.char c hc], rfl, by rw [marks_char, marks_char, hmarks, marks_nil]⟩
      | mark m hm =>
        have hlast : u = [] := by
          rcases List.eq_nil_or_concat u with rfl | ⟨u, c, rfl⟩
          · rfl
          · rw [Item.source, m.source_eq, ← List.cons_append, List.concat_eq_append, ← List.append_assoc] at hu
            have hc := (List.append_inj' hu rfl).2
            exact absurd (by simp [← hc]) hb.1
        subst hlast
        rw [List.append_nil] at hu
        exact ⟨[.mark m hm], by rw [← hu]; simp, by rw [marks_mark, marks_mark, marks_eq_nil hs.2, marks_nil]⟩

theorem strip_source (d : Row) : ∃ d' : Row, Text.strip d.source = d'.source ∧ d'.marks = d.marks := by
  obtain ⟨d₁, h₁, hm₁, -⟩ := of_passes (Passes.dropWhile (p := isBlank) (by decide) d.source)
  let blanks := (d₁.source.reverse.takeWhile isBlank).reverse
  have hblank : ∀ c ∈ blanks, isBlank c = true := fun c hc =>
    List.all_eq_true.1 List.all_takeWhile c (List.mem_reverse.1 hc)
  have hsplit : d₁.source = Text.dropWhileRight isBlank d₁.source ++ blanks := by
    rw [Text.dropWhileRight, ← List.reverse_append, List.takeWhile_append_dropWhile, List.reverse_reverse]
  obtain ⟨d₂, h₂, hm₂⟩ := of_append hsplit (fun h => absurd (hblank _ h) (by decide))
    (fun h => absurd (hblank _ h) (by decide))
  exact ⟨d₂, by rw [Text.strip, h₁, h₂], hm₂.trans hm₁⟩

end Row

/-! ## Counting markers -/

namespace Integrity

variable {word : Text}

theorem forward_marker : Text.Forward (marker word) := fun _ _ _ => rfl

theorem readAll_append {t : Text} (ht : '\\' ∉ t) (s : Text) :
    Text.readAll (marker word) (t ++ s) = Text.readAll (marker word) s := by
  induction t with
  | nil => rfl
  | cons c t ih =>
    simp only [List.mem_cons, not_or] at ht
    have hmiss : marker word none (c :: (t ++ s)) = none := by
      simp [marker, Text.after?, Ne.symm (Ne.symm ht.1)]
    rw [List.cons_append, forward_marker.readAll_cons hmiss, ih ht.2]

/-- A command that is no marker is passed. -/
theorem readAll_command (word : Text) {name : Text} (hn : '\\' ∉ name) {s : Text}
    (h : Text.after? ('\\' :: word) ('\\' :: (name ++ s)) = none) :
    Text.readAll (marker word) ('\\' :: (name ++ s)) = Text.readAll (marker word) s := by
  rw [forward_marker.readAll_cons (by rw [marker, h]; rfl), readAll_append hn]

theorem readAll_marker (word : Text) {rest : Text} (hrest : '\\' ∉ rest) (s : Text) :
    Text.readAll (marker word) ('\\' :: (word ++ "\x7b" ++ rest ++ s)) = () :: Text.readAll (marker word) s := by
  have hread : marker word none ('\\' :: (word ++ "\x7b" ++ rest ++ s)) = some ((), rest ++ s) := by
    have hword : Text.after? ('\\' :: word) ('\\' :: (word ++ "\x7b" ++ rest ++ s)) = some ('{' :: (rest ++ s)) :=
      Text.after?_eq_some_iff.2 (by simp)
    rw [marker, hword]
    rfl
  rw [forward_marker.readAll_hit hread (t := word ++ "\x7b") (by simp), readAll_append hrest]

theorem count_opening {n : Text} (hn : '\\' ∉ n) (s : Text) :
    count ((Mark.opening n).source ++ s) = ⟨(count s).begins + 1, (count s).ends⟩ := by
  have hrest : '\\' ∉ n ++ "\x7d" := by simp [hn]
  have hb := readAll_marker "begin" hrest s
  have hname : '\\' ∉ "begin\x7b" ++ (n ++ "\x7d") := by simp [hn]
  have he := readAll_command "end" hname (s := s) rfl
  have hsource : (Mark.opening n).source ++ s = '\\' :: ("begin\x7b" ++ (n ++ "\x7d") ++ s) := by
    simp [Mark.source_opening]
  rw [count, hsource, he]
  simp only [count, Report.mk.injEq, and_true]
  exact congrArg List.length hb

theorem count_closing {n : Text} (hn : '\\' ∉ n) (s : Text) :
    count ((Mark.closing n).source ++ s) = ⟨(count s).begins, (count s).ends + 1⟩ := by
  have hrest : '\\' ∉ n ++ "\x7d" := by simp [hn]
  have he := readAll_marker "end" hrest s
  have hname : '\\' ∉ "end\x7b" ++ (n ++ "\x7d") := by simp [hn]
  have hb := readAll_command "begin" hname (s := s) rfl
  have hsource : (Mark.closing n).source ++ s = '\\' :: ("end\x7b" ++ (n ++ "\x7d") ++ s) := by
    simp [Mark.source_closing]
  rw [count, hsource, hb]
  simp only [count, Report.mk.injEq, true_and]
  exact congrArg List.length he

theorem count_append {t : Text} (ht : '\\' ∉ t) (s : Text) : count (t ++ s) = count s := by
  rw [count, readAll_append ht, readAll_append ht, count]

/-- A command that begins with neither letter of a marker is not counted. -/
theorem count_command (c : Char) (hc : c ≠ 'b' ∧ c ≠ 'e') (name : Text) (hn : '\\' ∉ c :: name) (s : Text) :
    count ('\\' :: c :: (name ++ s)) = count s := by
  have miss {a : Char} (ha : c ≠ a) (word : Text) : Text.after? ('\\' :: a :: word) ('\\' :: c :: (name ++ s)) = none := by
    simp [Text.after?, Ne.symm ha]
  have hb := readAll_command "begin" hn (s := s) (miss hc.1 _)
  have he := readAll_command "end" hn (s := s) (miss hc.2 _)
  rw [List.cons_append] at hb he
  rw [count, hb, he, count]

/-- The gatekeeper counts the marks of a row. -/
theorem count_source (d : Row) (s : Text) :
    count (d.source ++ s) =
      ⟨d.marks.countP (·.isOpening) + (count s).begins, d.marks.countP (!·.isOpening) + (count s).ends⟩ := by
  induction d with
  | nil => simp
  | cons i d ih =>
    rw [Row.source_cons, List.append_assoc]
    cases i with
    | char c hc =>
      have hs : '\\' ∉ [c] := fun hm => by rw [← List.mem_singleton.1 hm] at hc; cases hc
      rw [Item.source, count_append hs, ih, Row.marks_char]
    | mark m hm =>
      cases m with
      | opening n =>
        have hn : '\\' ∉ n := not_mem_of_isPlainName hm (by decide)
        rw [Item.source, count_opening hn, ih, Row.marks_mark, List.countP_cons_of_pos rfl]
        simp [Nat.add_right_comm]
      | closing n =>
        have hn : '\\' ∉ n := not_mem_of_isPlainName hm (by decide)
        rw [Item.source, count_closing hn, ih, Row.marks_mark]
        simp [Nat.add_right_comm]

end Integrity

/-! ## The article -/

namespace Calm

variable {s : Text}

theorem withoutCommand_eq (h : Calm s) {name : Text} (hn : isForeign name = true) :
    Article.withoutCommand name s = s := by
  have hm : Text.Misses (Article.command name) s := h.misses fun _ t ht => by
    rw [Article.command, ht.starred_eq_none hn, Option.map_none]
  exact hm.removeAll_eq

theorem removeAll_eq (h : Calm s) {names : List Text} (hn : ∀ n ∈ names, isForeign n = true) :
    Article.removeAll names s = s := by
  unfold Article.removeAll
  induction names with
  | nil => rfl
  | cons name names ih =>
    rw [List.forall_mem_cons] at hn
    rw [List.foldl_cons, h.withoutCommand_eq hn.1, ih hn.2]

theorem misses_reader (h : Calm s) {name : Text} (hn : isForeign name = true) :
    Text.Misses (Command.reader name) s := h.misses fun _ t ht => by
  rw [Command.reader, ht.command_eq_none hn, Option.map_none]

/-- A calm text names neither title nor author nor date. -/
theorem metadata_eq (h : Calm s) (today : Date) : Article.metadata today s = {} := by
  have hvalue {name : Text} (hn : isForeign name = true) : Article.value today s name = [] := by
    rw [Article.value, Article.argument, (h.misses_reader hn).find?_eq]
  rw [Article.metadata, hvalue (by decide), hvalue (by decide), hvalue (by decide)]

end Calm

namespace Article

theorem body_source (d : Row) : body d.source = d.source := by
  have hname : '}' ∉ "document".toList := by decide
  have hplain : isPlainName "document" = false := by decide
  have hbegins : Text.find? (Marker.begins "document") d.source = none := by
    rcases (Marker.finds_begins hname).find?_source d with ⟨h, -⟩ | ⟨p, m, hm, q, a, -, ha, -, -⟩
    · exact h
    · split at ha
      · rename_i heq
        rw [heq, Mark.name_opening, hplain] at hm
        cases hm
      · cases ha
  have hends : Text.find? (Marker.ends "document") d.source = none := by
    rcases (Marker.finds_ends hname).find?_source d with ⟨h, -⟩ | ⟨p, m, hm, q, a, -, ha, -, -⟩
    · exact h
    · split at ha
      · rename_i heq
        rw [heq, Mark.name_closing, hplain] at hm
        cases hm
      · cases ha
  have hmiss : Text.Misses (Marker.ends "document") d.source :=
    Text.Forward.misses_of_find?_eq_none (fun _ _ _ => rfl) rfl hends
  simp only [body, hbegins, d.calm.removeAll_eq (show ∀ n ∈ commandNames, Calm.isForeign n = true by decide),
    hmiss.removeAll_eq]

/-- The article as it is written. -/
theorem fill_article (m : Metadata) (t : Text) :
    Page.fill Page.article (("has_title", .bool m.isTitled) :: ("body", .str t) :: m.fields) =
      "\\documentclass\x7barticle\x7d\n\\title\x7b" ++ (m.title ++ ("\x7d\n\\author\x7b" ++ (m.author ++
        ("\x7d\n\\date\x7b" ++ (m.date ++ ("\x7d\n\\begin\x7bdocument\x7d\n" ++
          ((if m.isTitled then "\\maketitle\n".toList else []) ++ (t ++ "\n\\end\x7bdocument\x7d")))))))) := by
  generalize hvalues : (("has_title", .bool m.isTitled) :: ("body", .str t) :: m.fields : List (Text × Json)) = values
  have htitled : values.lookup "has_title".toList = some (.bool m.isTitled) := by rw [← hvalues]; rfl
  have hbody : values.lookup "body".toList = some (.str t) := by rw [← hvalues]; rfl
  have htitle : values.lookup "title".toList = some (.str m.title) := by rw [← hvalues]; rfl
  have hauthor : values.lookup "author".toList = some (.str m.author) := by rw [← hvalues]; rfl
  have hdate : values.lookup "date".toList = some (.str m.date) := by rw [← hvalues]; rfl
  simp only [Page.fill, Page.article, List.flatMap_cons, List.flatMap_nil, Page.Part.fill, htitled, hbody, htitle, hauthor,
    hdate, Option.map_some, Option.getD_some, Json.shown, Json.isSet, List.append_nil]

/-- The article of a text without a title. -/
theorem fill_untitled (t : Text) :
    Page.fill Page.article (("has_title", .bool false) :: ("body", .str t) :: Metadata.fields {}) =
      "\\documentclass\x7barticle\x7d\n\\title\x7b" ++ ("\x7d\n\\author\x7b" ++ ("\x7d\n\\date\x7b" ++
        ("\x7d\n\\begin\x7bdocument\x7d\n" ++ (t ++ "\n\\end\x7bdocument\x7d")))) := fill_article {} t

/-- The article has the marks of the row and those of the body. -/
theorem count_markup (today : Date) (d : Row) :
    Integrity.count (rewrite today d.source).markup =
      ⟨d.marks.countP (·.isOpening) + 1, d.marks.countP (!·.isOpening) + 1⟩ := by
  have hmarkup : (rewrite today d.source).markup = Page.fill Page.article
      (("has_title", .bool false) :: ("body", .str (Text.strip d.source)) :: Metadata.fields {}) := by
    simp only [rewrite, d.calm.metadata_eq, body_source,
      d.calm.removeAll_eq (show ∀ n ∈ names, Calm.isForeign n = true by decide),
      (d.calm.misses_reader (show Calm.isForeign "maketitle" = true by decide)).removeAll_eq]
    rfl
  have hclass (s : Text) : Integrity.count ("\\documentclass\x7barticle\x7d\n\\title\x7b" ++ s) = Integrity.count s := by
    refine (Integrity.count_command 'd' (by decide) "ocumentclass\x7barticle\x7d\n" (by decide)
      ("\\title\x7b" ++ s)).trans ?_
    exact Integrity.count_command 't' (by decide) "itle\x7b" (by decide) s
  have hauthor (s : Text) : Integrity.count ("\x7d\n\\author\x7b" ++ s) = Integrity.count s := by
    refine (Integrity.count_append (t := "\x7d\n") (by decide) ("\\author\x7b" ++ s)).trans ?_
    exact Integrity.count_command 'a' (by decide) "uthor\x7b" (by decide) s
  have hdate (s : Text) : Integrity.count ("\x7d\n\\date\x7b" ++ s) = Integrity.count s := by
    refine (Integrity.count_append (t := "\x7d\n") (by decide) ("\\date\x7b" ++ s)).trans ?_
    exact Integrity.count_command 'd' (by decide) "ate\x7b" (by decide) s
  have hbegin : "\x7d\n\\begin\x7bdocument\x7d\n".toList =
      "\x7d\n".toList ++ ((Mark.opening "document").source ++ "\n".toList) := rfl
  have hend : "\n\\end\x7bdocument\x7d".toList = "\n".toList ++ ((Mark.closing "document").source ++ []) := rfl
  obtain ⟨d', hs, hm⟩ := d.strip_source
  rw [hmarkup, fill_untitled, hs, hbegin, hend]
  simp only [List.append_assoc]
  rw [hclass, hauthor, hdate, Integrity.count_append (by decide), Integrity.count_opening (by decide),
    Integrity.count_append (by decide), Integrity.count_source, Integrity.count_append (by decide),
    Integrity.count_closing (by decide), hm]
  rfl

end Article

end Galley
