import Galley.Proofs.CalmInline
import Galley.Proofs.Dashes
import Galley.Proofs.Row
/-!
# Formatting plain text

Text of plain characters is formatted without a fault and without notices: it is escaped, its dashes and quotes are set
and its ties replaced (`format_plain`). This goes from blank to blank (`Spaced`), so it makes no difference whether
white space at the ends is dropped before or after it.
-/

namespace Galley

/-! ## From blank to blank -/

/-- Blanks stay where they are, and between them nothing blank or empty comes about. -/
structure Spaced (f : Text → Text) : Prop where
  nil : f [] = []
  blank : ∀ {c}, isBlank c = true → ∀ x y, f (x ++ c :: y) = f x ++ c :: f y
  dark : ∀ {x}, (∀ c ∈ x, isBlank c = false) → ∀ c ∈ f x, isBlank c = false
  ne_nil : ∀ {x}, x ≠ [] → f x ≠ []

namespace Spaced

variable {f g : Text → Text}

theorem comp (hg : Spaced g) (hf : Spaced f) : Spaced fun s => g (f s) where
  nil := by rw [hf.nil, hg.nil]
  blank hc x y := by rw [hf.blank hc, hg.blank hc]
  dark hx := hg.dark (hf.dark hx)
  ne_nil hx := hg.ne_nil (hf.ne_nil hx)

theorem cons_blank (h : Spaced f) {c : Char} (hc : isBlank c = true) (s : Text) : f (c :: s) = c :: f s := by
  have := h.blank hc [] s
  rwa [List.nil_append, h.nil, List.nil_append] at this

/-- The text begins with a word: what becomes of it does so too. -/
theorem head_dark (h : Spaced f) {c : Char} {s : Text} (hc : isBlank c = false) :
    ∃ d t, f (c :: s) = d :: t ∧ isBlank d = false := by
  have hword (w : Text) (hw : ∀ x ∈ c :: w, isBlank x = false) (t : Text) : ∃ d u, f (c :: w) ++ t = d :: u ∧ isBlank d = false := by
    cases he : f (c :: w) with
    | nil => exact absurd he (h.ne_nil (List.cons_ne_nil c w))
    | cons d u => exact ⟨d, u ++ t, rfl, h.dark hw d (by rw [he]; exact List.mem_cons_self)⟩
  obtain ⟨w, hs, hw⟩ := Text.dropWhile_eq (fun x => !isBlank x) s
  have hdark : ∀ x ∈ c :: w, isBlank x = false := List.forall_mem_cons.2 ⟨hc, fun x hx => by simpa using hw x hx⟩
  cases hr : s.dropWhile (fun x => !isBlank x) with
  | nil =>
    rw [hr, List.append_nil] at hs
    subst hs
    simpa using hword s hdark []
  | cons b r =>
    have hb : isBlank b = true := by simpa using Text.head_dropWhile hr
    rw [hr] at hs
    rw [hs, ← List.cons_append, h.blank hb]
    exact hword w hdark _

theorem dropWhile (h : Spaced f) (s : Text) : f (s.dropWhile isBlank) = (f s).dropWhile isBlank := by
  induction s with
  | nil => rw [List.dropWhile_nil, h.nil, List.dropWhile_nil]
  | cons c s ih =>
    cases hc : isBlank c with
    | true => rw [List.dropWhile_cons_of_pos hc, ih, h.cons_blank hc, List.dropWhile_cons_of_pos hc]
    | false =>
      obtain ⟨d, t, he, hd⟩ := h.head_dark (s := s) hc
      rw [List.dropWhile_cons_of_neg (by simp [hc]), he, List.dropWhile_cons_of_neg (by simp [hd])]

/-- The same rewriting from right to left. -/
theorem reversed (h : Spaced f) : Spaced fun s => (f s.reverse).reverse where
  nil := by rw [List.reverse_nil, h.nil, List.reverse_nil]
  blank hc x y := by simp [h.blank hc]
  dark hx c hc := h.dark (x := _) (fun c hc => hx c (List.mem_reverse.1 hc)) c (List.mem_reverse.1 hc)
  ne_nil hx := by simpa using h.ne_nil (by simpa using hx)

/-- White space at the ends is dropped before or after. -/
theorem strip (h : Spaced f) (s : Text) : f (Text.strip s) = Text.strip (f s) := by
  have hright (t : Text) : f (Text.dropWhileRight isBlank t) = Text.dropWhileRight isBlank (f t) := by
    have := h.reversed.dropWhile t.reverse
    rw [List.reverse_reverse] at this
    rw [Text.dropWhileRight, Text.dropWhileRight, ← this, List.reverse_reverse]
  rw [Text.strip, hright, h.dropWhile, Text.strip]

end Spaced

theorem spaced_flatMap {f : Char → Text} (hblank : ∀ c, isBlank c = true → f c = [c])
    (hdark : ∀ c, isBlank c = false → f c ≠ [] ∧ ∀ x ∈ f c, isBlank x = false) : Spaced fun s => s.flatMap f where
  nil := rfl
  blank hc x y := by rw [List.flatMap_append, List.flatMap_cons, hblank _ hc, List.singleton_append]
  dark hx c hc := by
    obtain ⟨a, ha, hc⟩ := List.mem_flatMap.1 hc
    exact (hdark a (hx a ha)).2 c hc
  ne_nil {x} hx := by
    obtain ⟨c, x, rfl⟩ := List.exists_cons_of_ne_nil hx
    rw [List.flatMap_cons]
    cases hc : isBlank c with
    | true => simp [hblank c hc]
    | false => exact fun he => (hdark c hc).1 (List.append_eq_nil_iff.1 he).1

namespace Text

variable {old : Text}

/-- A text is read from left to right: a word to be replaced, or a character at which there is none. -/
theorem replace_induct {motive : Text → Prop} (hold : old ≠ []) (nil : motive []) (hit : ∀ s, motive s → motive (old ++ s))
    (char : ∀ c s, ¬ old <+: c :: s → motive s → motive (c :: s)) (s : Text) : motive s := by
  generalize hn : s.length = n
  induction n using Nat.strongRecOn generalizing s with
  | _ n ih =>
    by_cases h : old <+: s
    · obtain ⟨t, rfl⟩ := h
      have hpos := List.length_pos_iff.2 hold
      rw [List.length_append] at hn
      exact hit t (ih t.length (by omega) t rfl)
    · cases s with
      | nil => exact nil
      | cons c s =>
        rw [List.length_cons] at hn
        exact char c s h (ih s.length (by omega) s rfl)

/-- No word to be replaced goes over a character that is not in it. -/
theorem replace_append_cons (hold : old ≠ []) {c : Char} (hc : c ∉ old) (new x y : Text) :
    replace (x ++ c :: y) old new = replace x old new ++ c :: replace y old new := by
  have hskip (x : Text) (h : ¬ old <+: x) : ¬ old <+: x ++ c :: y := by
    rintro ⟨t, ht⟩
    rcases List.append_eq_append_iff.1 ht with ⟨u, hu, -⟩ | ⟨u, rfl, hu⟩
    · exact h ⟨u, hu.symm⟩
    · cases u with
      | nil => exact h ⟨[], by simp⟩
      | cons d u =>
        rw [List.cons_append] at hu
        exact hc (by simp [(List.cons.inj hu).1])
  induction x using replace_induct hold with
  | nil => exact replace_skip hold (hskip [] (by simpa using hold)) new
  | hit x ih => rw [List.append_assoc, replace_append hold, ih, replace_append hold, List.append_assoc]
  | char a x h ih =>
    have hboth : ¬ old <+: a :: (x ++ c :: y) := hskip (a :: x) h
    rw [List.cons_append, replace_skip hold hboth, ih, replace_skip hold h, List.cons_append]

theorem spaced_replace (old new : Text) (hold : old ≠ []) (hnew : new ≠ []) (ho : ∀ c ∈ old, isBlank c = false)
    (hn : ∀ c ∈ new, isBlank c = false) : Spaced fun s => replace s old new where
  nil := by cases old <;> rfl
  blank hc x y := replace_append_cons hold (fun hm => by rw [ho _ hm] at hc; cases hc) new x y
  dark {x} hx := by
    intro c hc
    rw [Inline.replace_eq_replaceAll hold] at hc
    rcases mem_replaceAll hc with hc | ⟨-, hc⟩
    · exact hx c hc
    · exact hn c hc
  ne_nil {x} hx he := by
    induction x using replace_induct hold with
    | nil => exact hx rfl
    | hit x _ =>
      rw [replace_append hold] at he
      exact hnew (List.append_eq_nil_iff.1 he).1
    | char c x h _ =>
      rw [replace_skip hold h] at he
      cases he

end Text

namespace Inline

/-! ## What plain text becomes -/

/-- The markup of a text without commands: escaped, with its dashes, quotes and ties. -/
def dress (s : Text) : Text := (typography (Html.escape s)).replace "~" "&nbsp;"

theorem spaced_escape : Spaced Html.escape := by
  refine spaced_flatMap (fun c hc => ?_) fun c hc => ?_
  · have hne {x : Char} (hx : isBlank x = false) : c ≠ x := fun he => by
      rw [he, hx] at hc
      cases hc
    rw [Html.escapeChar, if_neg (hne (by decide)), if_neg (hne (by decide)), if_neg (hne (by decide))]
  · unfold Html.escapeChar
    split
    · decide
    · split
      · decide
      · split
        · decide
        · simpa using hc

theorem spaced_typography : Spaced typography :=
  (Text.spaced_replace "''" "&rdquo;" (by decide) (by decide) (by decide) (by decide)).comp
    ((Text.spaced_replace "\x60\x60" "&ldquo;" (by decide) (by decide) (by decide) (by decide)).comp
      ((Text.spaced_replace "--" "&ndash;" (by decide) (by decide) (by decide) (by decide)).comp
        (Text.spaced_replace "---" "&mdash;" (by decide) (by decide) (by decide) (by decide))))

theorem spaced_dress : Spaced dress :=
  (Text.spaced_replace "~" "&nbsp;" (by decide) (by decide) (by decide) (by decide)).comp
    (spaced_typography.comp spaced_escape)

/-- Letters and digits stay. -/
theorem dress_eq_self {s : Text} (h : ∀ c ∈ s, c.isAlphanum = true) : dress s = s := by
  have hno {x : Char} (hx : x.isAlphanum = false) : x ∉ s := fun hm => by
    rw [h x hm] at hx
    cases hx
  have htie : s.replace "~" "&nbsp;" = s := replace_eq_self (t := []) (hno (by decide)) _
  rw [dress, escape_eq_self (hno (by decide)) (hno (by decide)) (hno (by decide)),
    typography_eq_self (hno (by decide)) (hno (by decide)) (hno (by decide)), htie]

section Characters

variable {ok : Char → Bool} {s : Text}

theorem within_replace {old new : Text} (hold : old ≠ []) (hn : Within ok new) (hs : Within ok s) : Within ok (s.replace old new) := by
  rw [replace_eq_replaceAll hold]
  exact hs.replaceAll fun _ _ _ _ _ _ => hn

/-- The names and signs of the references that dressing brings in. -/
def dressing : Text := "&amp;&lt;&gt;&mdash;&ndash;&ldquo;&rdquo;&nbsp;"

section Dressing

variable (hd : Within ok dressing) (hs : Within ok s)

include hd hs

theorem within_escape : Within ok (Html.escape s) := by
  have hnew {t : Text} (ht : t ⊆ dressing) : Within ok t := hd.subset ht
  intro x hx
  obtain ⟨c, hc, hx⟩ := List.mem_flatMap.1 hx
  unfold Html.escapeChar at hx
  split at hx
  · exact hnew (by decide) x hx
  · split at hx
    · exact hnew (by decide) x hx
    · split at hx
      · exact hnew (by decide) x hx
      · exact hs x (List.mem_singleton.1 hx ▸ hc)

theorem within_typography : Within ok (typography s) := by
  have hnew {t : Text} (ht : t ⊆ dressing) : Within ok t := hd.subset ht
  have hem : Within ok (s.replace "---" "&mdash;") := within_replace (by decide) (hnew (by decide)) hs
  have hen : Within ok ((s.replace "---" "&mdash;").replace "--" "&ndash;") := within_replace (by decide) (hnew (by decide)) hem
  have hleft : Within ok (((s.replace "---" "&mdash;").replace "--" "&ndash;").replace "\x60\x60" "&ldquo;") :=
    within_replace (by decide) (hnew (by decide)) hen
  exact within_replace (by decide) (hnew (by decide)) hleft

theorem within_dress : Within ok (dress s) :=
  within_replace (by decide) (hd.subset (by decide)) (within_typography hd (within_escape hd hs))

end Dressing

end Characters

/-! ## Formatting -/

section Plain

variable {s : Text}

theorem rewrite_plain (h : Within isPlainChar s) (render : Text → Text) : rewrite render s = pure (dress s) := by
  have hd : Within isPlainChar dressing := by decide
  have hdressed : Within isPlainChar (typography (Html.escape s)) := within_typography hd (within_escape hd h)
  have hslash : '\\' ∉ s := h.avoids (by decide)
  have hno : '\\' ∉ typography (Html.escape s) := hdressed.avoids (by decide)
  have hspecials : protectSpecials s = s := (misses_escapedSpecial hslash).replaceAll_eq _
  rw [rewrite, stashFormulas, (misses_formula (h.avoids (by decide)) hslash).replaceAllM_eq, pure_bind, hspecials]
  dsimp only
  rw [List.count_eq_zero.2 hno, rewriteCommands, pure_bind, replaceSymbols_of_not_mem hno (hdressed.avoids (by decide))]
  refine congrArg pure (restoreSpecials_eq_self fun c hc => ?_)
  have hplain := within_dress hd h c hc
  rw [Bool.eq_false_iff]
  intro hinternal
  simp only [isInternal, Bool.and_eq_true, decide_eq_true_eq] at hinternal
  have hprivate : (decide (0xE000 ≤ c.toNat) && decide (c.toNat ≤ 0xF8FF)) = true := by
    simp only [Bool.and_eq_true, decide_eq_true_eq]
    omega
  rw [isPlainChar, hprivate, Bool.or_true] at hplain
  cases hplain

theorem format_plain (h : Within isPlainChar s) (settings : Settings) (engine : Formula.Engine) :
    format settings engine s = .ok (dress s) := by
  rw [format, rewrite_plain h]
  exact restore_of_not_mem ((within_dress (by decide) h).avoids (by decide))

theorem notices_plain (h : Within isPlainChar s) (settings : Settings) (engine : Formula.Engine) : notices settings engine s = [] := by
  rw [notices, (misses_formula (h.avoids (by decide)) (h.avoids (by decide))).readAll_eq]
  rfl

end Plain

end Inline

end Galley
