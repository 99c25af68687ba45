import Galley.Proofs.Fragments
import Galley.Proofs.SpelledInline
/-!
# Formatting calm text

A calm text stays calm when its characters are escaped and its dashes and quotes set, no command is
found in it, and nothing is set aside. So it is formatted without a fault (`format_isOk`), and so are
the fragments that show parts of it (`calm_formats`).
-/

namespace Galley

/-! ## Rewriting that spares markers -/

/-- The characters of environment markers outside their names. -/
def isMarkerChar (c : Char) : Bool := c = '\\' || (['b', 'e', 'g', 'i', 'n', 'd', '{'].contains c)

/-- Neither backslash nor dollar nor the mark of a piece set aside. -/
def isInert (c : Char) : Bool := c ≠ '\\' && c ≠ '$' && c ≠ Inline.Stash.opening

/-- The function goes through a text from left to right, keeps the characters of markers, and puts
inert characters in the places of others. -/
structure Spares (f : Text → Text) : Prop where
  nil : f [] = []
  marker : ∀ c s, isMarkerChar c = true → f (c :: s) = c :: f s
  other : ∀ c s, isMarkerChar c = false →
    ∃ x r, f (c :: s) = x ++ f r ∧ r <:+ s ∧ ∀ y ∈ x, y = c ∨ isInert y = true

namespace Spares

variable {f : Text → Text}

theorem append (h : Spares f) {w : Text} (hw : w.all isMarkerChar = true) (s : Text) : f (w ++ s) = w ++ f s := by
  induction w with
  | nil => rfl
  | cons c w ih =>
    simp only [List.all_cons, Bool.and_eq_true] at hw
    rw [List.cons_append, h.marker c _ hw.1, ih hw.2, List.cons_append]

/-- The beginning of a marker's rest that is there is kept. -/
theorem take_prefix (h : Spares f) {w : Text} (hw : w.all isMarkerChar = true) {s : Text}
    (hs : s.take w.length <+: w) : (f s).take w.length <+: w := by
  obtain ⟨v, hv⟩ := hs
  have hall : (s.take w.length).all isMarkerChar = true := by
    rw [← hv, List.all_append, Bool.and_eq_true] at hw
    exact hw.1
  have hf : f s = s.take w.length ++ f (s.drop w.length) := by
    rw [← h.append hall, List.take_append_drop]
  by_cases hl : w.length ≤ s.length
  · have heq : s.take w.length = w := (List.prefix_iff_eq_take.1 ⟨v, hv⟩).trans (by
      rw [List.length_take, Nat.min_eq_left hl, List.take_length])
    exact ⟨[], by rw [hf, heq, List.take_left, List.append_nil]⟩
  · rw [hf, List.drop_eq_nil_of_le (by omega), h.nil, List.append_nil, List.take_take, Nat.min_self]
    exact ⟨v, hv⟩

theorem continuesMarker (h : Spares f) {s : Text} (hs : continuesMarker s = true) : continuesMarker (f s) = true := by
  simp only [Galley.continuesMarker, Bool.or_eq_true, List.isPrefixOf_iff_prefix] at hs ⊢
  exact hs.imp (h.take_prefix (w := "begin\x7b") (by decide)) (h.take_prefix (w := "end\x7b") (by decide))

theorem calm (h : Spares f) {s : Text} (hs : Calm s) : Calm (f s) := by
  match s with
  | [] => rw [h.nil]; exact hs
  | c :: s =>
    cases hc : isMarkerChar c with
    | true =>
      have ih := h.calm (hs.of_suffix (List.suffix_cons c s))
      have hd : '$' ≠ c := fun he => hs.no_dollar (by rw [he]; exact List.mem_cons_self)
      have hp : Inline.Stash.opening ≠ c := fun he => hs.no_piece (by rw [he]; exact List.mem_cons_self)
      rw [h.marker c s hc]
      refine ⟨by simp [hd, ih.no_dollar], by simp [hp, ih.no_piece], fun t ht => ?_⟩
      rcases List.suffix_cons_iff.1 ht with he | ht
      · obtain ⟨rfl, rfl⟩ := List.cons.inj he
        exact h.continuesMarker hs.continuesMarker_rest
      · exact ih.marker t ht
    | false =>
      obtain ⟨x, r, hf, hr, hx⟩ := h.other c s hc
      have hle : r.length ≤ s.length := hr.length_le
      have hlt : r.length < (c :: s).length := Nat.lt_succ_of_le hle
      have ih := h.calm (hs.of_suffix (hr.trans (List.suffix_cons c s)))
      have hinert : ∀ y ∈ x, isInert y = true := by
        intro y hy
        rcases hx y hy with rfl | hi
        · have hb : y ≠ '\\' := fun he => by rw [he] at hc; cases hc
          have hd : y ≠ '$' := fun he => hs.no_dollar (by rw [he]; exact List.mem_cons_self)
          have hp : y ≠ Inline.Stash.opening := fun he => hs.no_piece (by rw [he]; exact List.mem_cons_self)
          simp [isInert, hb, hd, hp]
        · exact hi
      simp only [isInert, Bool.and_eq_true, decide_eq_true_eq] at hinert
      rw [hf]
      refine ⟨?_, ?_, fun t ht => ih.marker t ?_⟩
      · simpa [ih.no_dollar] using fun hm => (hinert _ hm).1.2 rfl
      · simpa [ih.no_piece] using fun hm => (hinert _ hm).2 rfl
      · exact suffix_of_backslash (fun hm => (hinert _ hm).1.1 rfl) ht
termination_by s.length

end Spares

theorem spares_escape : Spares Html.escape where
  nil := rfl
  marker c s hc := by
    have h1 : c ≠ '&' := fun he => by rw [he] at hc; cases hc
    have h2 : c ≠ '<' := fun he => by rw [he] at hc; cases hc
    have h3 : c ≠ '>' := fun he => by rw [he] at hc; cases hc
    simp [Html.escape, Html.escapeChar, h1, h2, h3]
  other c s _ := by
    refine ⟨Html.escapeChar c, s, rfl, List.suffix_refl s, fun y hy => ?_⟩
    have hsafe : ∀ x ∈ ["&amp;".toList, "&lt;".toList, "&gt;".toList], x.all isInert = true := by decide
    simp only [Html.escapeChar] at hy
    split at hy
    · exact .inr (List.all_eq_true.1 (hsafe _ (by simp)) y hy)
    · split at hy
      · exact .inr (List.all_eq_true.1 (hsafe _ (by simp)) y hy)
      · split at hy
        · exact .inr (List.all_eq_true.1 (hsafe _ (by simp)) y hy)
        · exact .inl (List.mem_singleton.1 hy)

theorem replaceFrom_eq_drop (old new : Text) (n : Nat) (s : Text) :
    Text.replaceFrom old new n s = Text.replaceFrom old new 0 (s.drop n) := by
  induction s generalizing n with
  | nil => cases n <;> rfl
  | cons c s ih =>
    cases n with
    | zero => rfl
    | succ n => exact ih n

/-- Replacing what holds no character of a marker by inert characters. -/
theorem spares_replace (old new : Text) (hne : old ≠ []) (hold : old.all (!isMarkerChar ·) = true)
    (hnew : new.all isInert = true) : Spares fun s => s.replace old new where
  nil := rfl
  marker c s hc := by
    cases old with
    | nil => exact absurd rfl hne
    | cons a old =>
      have ha : a ≠ c := fun he => by simp [he, hc] at hold
      simp [Text.replace, Text.replaceFrom, ha]
  other c s _ := by
    simp only [Text.replace, Text.replaceFrom]
    split
    · refine ⟨new, s.drop (old.length - 1), ?_, List.drop_suffix _ s, fun y hy => .inr ?_⟩
      · rw [replaceFrom_eq_drop]
      · exact List.all_eq_true.1 hnew y hy
    · exact ⟨[c], s, rfl, List.suffix_refl s, by simp⟩

namespace Calm

variable {s : Text}

theorem typography (h : Calm s) : Calm (Inline.typography s) :=
  have h := (spares_replace "---" "&mdash;" (by decide) (by decide) (by decide)).calm h
  have h := (spares_replace "--" "&ndash;" (by decide) (by decide) (by decide)).calm h
  have h := (spares_replace "\x60\x60" "&ldquo;" (by decide) (by decide) (by decide)).calm h
  (spares_replace "''" "&rdquo;" (by decide) (by decide) (by decide)).calm h

/-! ## Nothing is set aside -/

/-- The character behind a backslash. -/
theorem letter {c : Char} (h : Calm ('\\' :: c :: s)) : c = 'b' ∨ c = 'e' := by
  have hm := h.continuesMarker_rest
  simp only [continuesMarker, List.take_succ_cons, Bool.or_eq_true, List.isPrefixOf_iff_prefix] at hm
  exact hm.imp (fun hb => (List.cons_prefix_cons.1 hb).1) fun he => (List.cons_prefix_cons.1 he).1

theorem rewriteCommands_eq (h : Calm s) (depth : Nat) : Inline.rewriteCommands depth s = pure s :=
  h.spelled.rewriteCommands_eq (by decide) depth

end Calm

/-! ## No mark of a set-aside piece -/

theorem opening_not_mem_replaceSymbols {s : Text} (h : Inline.Stash.opening ∉ s) :
    Inline.Stash.opening ∉ Inline.replaceSymbols s := by
  have hshown : ∀ x ∈ Inline.symbols, Inline.Stash.opening ∉ x.2 := by decide
  unfold Inline.replaceSymbols
  refine List.foldlRecOn (motive := fun s => Inline.Stash.opening ∉ s) _ _ h fun s hs x hx hm => ?_
  rcases Text.mem_replaceAll hm with hm | ⟨_, hm⟩
  · exact hs hm
  · exact hshown x hx hm

theorem opening_not_mem_restoreSpecials {s : Text} (h : Inline.Stash.opening ∉ s) :
    Inline.Stash.opening ∉ Inline.restoreSpecials s := by
  rw [Inline.restoreSpecials, List.mem_flatMap]
  rintro ⟨c, hc, hm⟩
  simp only [Inline.restoreSpecial] at hm
  split at hm
  · rename_i hfind
    have hall : ∀ x ∈ Inline.specials, Inline.Stash.opening ∉ x.2.2 := by decide
    exact hall _ (List.mem_of_find?_eq_some hfind) hm
  · rw [List.mem_singleton] at hm
    exact h (hm ▸ hc)

theorem restore_of_not_mem {s : Text} (h : Inline.Stash.opening ∉ s) : Inline.Stash.restore [] s = .ok s := by
  simp [Inline.Stash.restore, Inline.Stash.restoreWithin, (Inline.misses_reader h).occurs_eq]

theorem Calm.format_isOk {s : Text} (h : Calm s) (settings : Settings) (engine : Formula.Engine) :
    ∃ t, Inline.format settings engine s = .ok t := by
  have hcalm : Calm (Inline.typography (Html.escape s)) := (spares_escape.calm h).typography
  have hrewrite (render : Text → Text) : Inline.rewrite render s =
      pure (Inline.restoreSpecials (Inline.replaceSymbols (Inline.typography (Html.escape s)))) := by
    simp only [Inline.rewrite, Inline.stashFormulas, (h.spelled.misses_formula (by decide)).replaceAllM_eq, pure_bind,
      Inline.protectSpecials, (h.spelled.misses_escapedSpecial (by decide)).replaceAll_eq, hcalm.rewriteCommands_eq]
  refine ⟨Inline.restoreSpecials (Inline.replaceSymbols (Inline.typography (Html.escape s))), ?_⟩
  rw [Inline.format, hrewrite]
  exact restore_of_not_mem (opening_not_mem_restoreSpecials (opening_not_mem_replaceSymbols hcalm.no_piece))

/-! ## Work on calm text -/

theorem calm_formats (kit : Kit) : Formats kit Calm where
  part := Calm.part
  inline h := by
    refine (Bench.ends_notifyAll _).bind fun _ _ => ?_
    obtain ⟨t, ht⟩ := h.format_isOk kit.settings kit.engine
    rw [ht]
    exact .pure trivial

/-! ## Words and paragraphs -/

/-- Where a character of no marker follows, the rest of a marker is whole. -/
theorem prefix_of_take_append {w x s : Text} {c : Char} (hc : c ∉ w) (h : (x ++ c :: s).take w.length <+: w) :
    w <+: x := by
  induction w generalizing x with
  | nil => exact List.nil_prefix
  | cons a w ih =>
    simp only [List.mem_cons, not_or] at hc
    cases x with
    | nil => exact absurd (List.cons_prefix_cons.1 h).1 hc.1
    | cons y x =>
      obtain ⟨rfl, hw⟩ := List.cons_prefix_cons.1 h
      exact List.cons_prefix_cons.2 ⟨rfl, ih hc.2 hw⟩

/-- What precedes a character of no marker holds whole markers, so any calm text can follow it. -/
theorem Calm.replace_rest {a s b : Text} {c : Char} (h : Calm (a ++ c :: s)) (hc : isMarkerChar c = false)
    (hb : Calm b) : Calm (a ++ b) := by
  refine ⟨fun hm => ?_, fun hm => ?_, fun t ⟨u, hu⟩ => ?_⟩
  · rcases List.mem_append.1 hm with hm | hm
    · exact h.no_dollar (List.mem_append_left _ hm)
    · exact hb.no_dollar hm
  · rcases List.mem_append.1 hm with hm | hm
    · exact h.no_piece (List.mem_append_left _ hm)
    · exact hb.no_piece hm
  · rcases List.append_eq_append_iff.1 hu with ⟨x, rfl, hx⟩ | ⟨x, rfl, rfl⟩
    · rcases List.cons_eq_append_iff.1 hx with ⟨rfl, rfl⟩ | ⟨x, rfl, rfl⟩
      · exact hb.marker t (List.suffix_refl _)
      · have hm := h.marker (x ++ c :: s) ⟨u, by simp⟩
        have whole {w : Text} (hw : w.all isMarkerChar = true) (hp : (x ++ c :: s).take w.length <+: w) :
            (x ++ b).take w.length <+: w := by
          have hcw : c ∉ w := fun hm => by simp [List.all_eq_true.1 hw c hm] at hc
          obtain ⟨y, rfl⟩ := prefix_of_take_append hcw hp
          exact ⟨[], by rw [List.append_assoc, List.take_left, List.append_nil]⟩
        simp only [continuesMarker, Bool.or_eq_true, List.isPrefixOf_iff_prefix] at hm ⊢
        exact hm.imp (whole (w := "begin\x7b") (by decide)) (whole (w := "end\x7b") (by decide))
    · exact hb.marker t ⟨x, rfl⟩

theorem isMarkerChar_of_isBlank {c : Char} (h : isBlank c = true) : isMarkerChar c = false := by
  have hall : ['\\', 'b', 'e', 'g', 'i', 'n', 'd', '{'].all (!isBlank ·) = true := by decide
  refine Bool.eq_false_iff.2 fun hm => ?_
  have hmem : c ∈ ['\\', 'b', 'e', 'g', 'i', 'n', 'd', '{'] := by simpa [isMarkerChar] using hm
  simpa [h] using List.all_eq_true.1 hall c hmem

theorem calm_joinWords {word s : Text} (h : Calm (word.reverse ++ s)) :
    Calm (Text.joinWith " " (Text.wordsFrom word s)) := by
  induction s generalizing word with
  | nil => cases word <;> simpa [Text.wordsFrom, Text.joinWith] using h
  | cons c s ih =>
    rw [Text.wordsFrom_cons]
    split
    · rename_i hc
      have hrest : Calm (Text.joinWith " " (Text.wordsFrom [] s)) :=
        ih (h.of_suffix ((List.suffix_cons c s).trans (List.suffix_append _ _)))
      split
      · exact hrest
      · rename_i x xs
        have hspace : Calm (' ' :: Text.joinWith " " (Text.wordsFrom [] s)) := by
          refine ⟨by simpa using hrest.no_dollar, ?_, fun t ht => ?_⟩
          · exact List.not_mem_cons_of_ne_of_not_mem (by decide) hrest.no_piece
          · exact hrest.marker t (suffix_of_backslash (a := [' ']) (by decide) ht)
        have hjoin := h.replace_rest (isMarkerChar_of_isBlank hc) hspace
        cases hw : Text.wordsFrom [] s with
        | nil => exact h.part ⟨[], c :: s, rfl⟩
        | cons w ws =>
          rw [hw] at hjoin
          simpa [Text.joinWith] using hjoin
    · exact ih (by simpa using h)

theorem Calm.collapse {s : Text} (h : Calm s) : Calm (Text.collapse s) := calm_joinWords h

end Galley
