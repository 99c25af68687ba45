import Galley.Proofs.Stages
/-!
# Citations in a row

A row holds no bibliography entries and no citing commands. What is rewritten in it is loose references
in parentheses, and these hold no marks.
-/

namespace Galley

/-! ## Reading without a backslash -/

/-- From `s` to `r` no backslash is passed. -/
def Passes (s r : Text) : Prop := ∃ x : Text, s = x ++ r ∧ '\\' ∉ x

namespace Passes

variable {s t r : Text}

theorem refl (s : Text) : Passes s s := ⟨[], rfl, List.not_mem_nil⟩

theorem trans (hst : Passes s t) (htr : Passes t r) : Passes s r := by
  obtain ⟨x, rfl, hx⟩ := hst
  obtain ⟨y, rfl, hy⟩ := htr
  exact ⟨x ++ y, by simp, by simp [hx, hy]⟩

theorem suffix (h : Passes s r) : r <:+ s := by
  obtain ⟨x, rfl, -⟩ := h
  exact List.suffix_append x r

theorem dropWhile {p : Char → Bool} (hp : p '\\' = false) (s : Text) : Passes s (s.dropWhile p) := by
  refine ⟨s.takeWhile p, List.takeWhile_append_dropWhile.symm, fun hm => ?_⟩
  have hall := List.all_eq_true.1 List.all_takeWhile '\\' hm
  rw [hp] at hall
  cases hall

theorem after? {p : Text} (hp : '\\' ∉ p) (h : Text.after? p s = some r) : Passes s r :=
  ⟨p, Text.after?_eq_some_iff.1 h, hp⟩

theorem afterCaseless? {p : Text} (hp : '\\' ∉ p) (h : Text.afterCaseless? p s = some r) : Passes s r := by
  obtain ⟨q, rfl, rfl⟩ := Text.afterCaseless?_eq_some h
  exact ⟨q, rfl, fun hm => hp (List.mem_map.2 ⟨'\\', hm, rfl⟩)⟩

end Passes

namespace Bibliography

theorem loose?_passes {s r : Text} (hs : Calm s) (h : loose? s = some r) : Passes s r := by
  simp only [loose?, Option.bind_eq_bind, Option.bind_eq_some_iff] at h
  obtain ⟨a, ha, h⟩ := h
  have hpa : Passes s a := .afterCaseless? (by decide) ha
  have hca := hs.of_suffix hpa.suffix
  rw [List.span_eq_takeWhile_dropWhile] at h
  dsimp only at h
  split at h
  · cases h
  · rename_i hdigits
    obtain rfl := Option.some.inj h
    cases hb : Text.after? "\\" a with
    | some b =>
      -- what follows a backslash is a letter, so there are no digits
      obtain rfl := Text.after?_eq_some_iff.1 hb
      rw [hb, Option.getD_some] at hdigits
      refine absurd ?_ hdigits
      match b with
      | [] => rfl
      | c :: b => rcases Calm.letter hca with rfl | rfl <;> rfl
    | none =>
      rw [Option.getD_none]
      cases hu : Text.after? "_" a with
      | some b => exact hpa.trans ((Passes.after? (by decide) hu).trans (.dropWhile (by decide) b))
      | none => exact hpa.trans (.dropWhile (by decide) a)

theorem moreLoose_passes (n : Nat) {s : Text} (hs : Calm s) : Passes s (moreLoose n s) := by
  induction n generalizing s with
  | zero => exact .refl s
  | succ n ih =>
    simp only [moreLoose]
    split
    · rename_i r hr
      have hpr : Passes s (r.dropWhile isBlank) :=
        ((Passes.dropWhile (by decide) s).trans (.after? (by decide) hr)).trans (.dropWhile (by decide) r)
      split
      · rename_i t ht
        have hpt := hpr.trans (loose?_passes (hs.of_suffix hpr.suffix) ht)
        exact hpt.trans (ih (hs.of_suffix hpt.suffix))
      · exact .refl s
    · exact .refl s

theorem looseGroup_passes {before : Option Char} {s r : Text} {keys : List Text} (hs : Calm s)
    (h : looseGroup before s = some (keys, r)) : ∃ t, s = '(' :: t ∧ Passes t r := by
  simp only [looseGroup, Option.bind_eq_bind, Option.bind_eq_some_iff] at h
  obtain ⟨t, ht, a, ha, b, hb, h⟩ := h
  obtain rfl := Text.after?_eq_some_iff.1 ht
  obtain ⟨-, rfl⟩ := Prod.mk.inj (Option.some.inj h)
  refine ⟨t, rfl, ?_⟩
  have hct : Calm t := hs.of_suffix (List.suffix_cons _ _)
  have hpi : Passes t (t.dropWhile isBlank) := .dropWhile (by decide) t
  have hpa := hpi.trans (loose?_passes (hct.of_suffix hpi.suffix) ha)
  have hpm := hpa.trans (moreLoose_passes t.length (hct.of_suffix hpa.suffix))
  exact (hpm.trans (.dropWhile (by decide) _)).trans (.after? (by decide) hb)

end Bibliography

/-! ## Loose references -/

/-- What is passed without a backslash holds no marks. -/
theorem Row.of_passes {d : Row} {r : Text} (h : Passes d.source r) :
    ∃ d' : Row, r = d'.source ∧ d'.marks = d.marks ∧ d'.length ≤ d.length := by
  obtain ⟨x, hx, hb⟩ := h
  induction d generalizing x with
  | nil =>
    obtain ⟨rfl, rfl⟩ := List.append_eq_nil_iff.1 hx.symm
    exact ⟨[], rfl, rfl, Nat.le_refl _⟩
  | cons i d ih =>
    cases x with
    | nil => exact ⟨i :: d, hx.symm, rfl, Nat.le_refl _⟩
    | cons c x =>
      simp only [List.mem_cons, not_or] at hb
      cases i with
      | char a ha =>
        obtain ⟨d', hr, hm, hl⟩ := ih x (List.cons.inj hx).2 hb.2
        exact ⟨d', hr, by rw [hm, marks_char], Nat.le_succ_of_le hl⟩
      | mark m hm =>
        simp only [source_cons, Item.source, m.source_eq] at hx
        exact absurd (List.cons.inj hx).1 hb.1

/-- What stands in the place of a citation: digits and a few fixed characters. -/
theorem mem_citationLabel {numbering : Bibliography.Numbering} {keys : List Text} {c : Char}
    (h : c ∈ Bibliography.citationLabel numbering keys) : c.isDigit = true ∨ c ∈ "[, ]?".toList := by
  simp only [Bibliography.citationLabel, Bibliography.label, List.mem_append] at h
  rcases h with (h | h) | h
  · exact .inr (by simp_all)
  · rcases Text.mem_joinWith h with h | ⟨t, ht, hc⟩
    · exact .inr (by simp at h ⊢; grind)
    · split at ht
      · obtain rfl := List.mem_singleton.1 ht
        exact .inr (by simp_all)
      · rcases List.mem_append.1 ht with ht | ht
        · obtain ⟨n, -, rfl⟩ := List.mem_map.1 ht
          exact .inl (Text.isDigit_of_mem_ofNat hc)
        · rw [List.eq_of_mem_replicate ht] at hc
          exact .inr (by simp_all)
  · exact .inr (by simp_all)

theorem isPlainChar_of_citationLabel {numbering : Bibliography.Numbering} {keys : List Text} {c : Char}
    (h : c ∈ Bibliography.citationLabel numbering keys) : isPlainChar c = true := by
  have hfixed : ∀ c ∈ "[, ]?".toList, isPlainChar c = true := List.all_eq_true.1 (by decide)
  rcases mem_citationLabel h with h | h
  · exact (isPlainChar_of_isPlaceholderChar (by simp [isPlaceholderChar, h])).1
  · exact hfixed c h

/-- Rewriting loose references keeps the marks of a row. -/
theorem looseGroup_source (f : List Text → Text) (hf : ∀ keys, ∀ c ∈ f keys, isPlainChar c = true) (d : Row)
    (before : Option Char) :
    ∃ d' : Row, ((Text.cutFrom Bibliography.looseGroup 0 before d.source).flatMap fun
      | .char c => [c]
      | .hit a _ => f a) = d'.source ∧ d'.marks = d.marks := by
  match d with
  | [] => exact ⟨[], rfl, rfl⟩
  | .mark m hm :: d =>
    have hmiss : ∀ c ∈ m.source, ∀ before s, Bibliography.looseGroup before (c :: s) = none := by
      intro c hc before s
      have hne : '(' ≠ c := by
        rintro rfl
        rw [m.source_eq, List.mem_cons] at hc
        exact hc.elim (by decide) (Mark.not_mem_tail hm (by decide) (by decide) (by decide))
      simp [Bibliography.looseGroup, Text.after?, hne]
    obtain ⟨b, hb⟩ := Text.cutFrom_append hmiss (Row.source d) before
    obtain ⟨d', hd', hmarks⟩ := looseGroup_source f hf d b
    refine ⟨.mark m hm :: d', ?_, by rw [Row.marks_mark, Row.marks_mark, hmarks]⟩
    rw [Row.source_cons, Item.source, hb, List.flatMap_append, hd', List.flatMap_map]
    exact congrArg (· ++ d'.source) (List.flatMap_singleton' m.source)
  | .char c hc :: d =>
    rw [Row.source_cons, Item.source, List.singleton_append]
    rcases Text.cutFrom_cons Bibliography.looseGroup before c (Row.source d) with hcut | ⟨keys, rest, hr, -, hcut⟩
    · obtain ⟨d', hd', hmarks⟩ := looseGroup_source f hf d (some c)
      refine ⟨.char c hc :: d', ?_, by rw [Row.marks_char, Row.marks_char, hmarks]⟩
      rw [hcut, List.flatMap_cons, hd']
      rfl
    · have hcalm : Calm (c :: Row.source d) := Row.calm (.char c hc :: d)
      obtain ⟨t, ht, hpass⟩ := Bibliography.looseGroup_passes hcalm hr
      obtain ⟨-, rfl⟩ := List.cons.inj ht
      obtain ⟨r, rfl, hrmarks, hlen⟩ := Row.of_passes hpass
      obtain ⟨b, hb⟩ := hcut (hpass.suffix.trans (List.suffix_cons c _))
      obtain ⟨d', hd', hmarks⟩ := looseGroup_source f hf r b
      refine ⟨Row.ofText (f keys) (hf keys) ++ d', ?_, by simp [hmarks, hrmarks]⟩
      rw [hb, List.flatMap_cons, hd', Row.source_append, Row.source_ofText]
termination_by d.length

/-! ## Commands in any letter case -/

theorem eq_of_foldChar {c : Char} (h : foldChar c = '\\') : c = '\\' := by
  unfold foldChar at h
  split at h
  case h_5 =>
    unfold Char.toLower at h
    split at h
    · rename_i hc
      have hge : 65 ≤ c.val.toNat := hc.1
      have hv : (c.val.toNat + 32) % 4294967296 = 92 := congrArg Char.toNat h
      have hlt : c.val.toNat ≤ 90 := hc.2
      omega
    · exact h
  all_goals exact absurd h (by decide)

namespace Tame

variable {s : Text}

/-- A command that begins with another letter is not found in any letter case. -/
theorem afterCaseless?_eq_none (h : Tame s) {a : Char} (ha : ∀ c ∈ ['b', 'e', 's', 't'], foldChar c ≠ a) (name : Text) :
    Text.afterCaseless? ('\\' :: a :: name) s = none := by
  cases hr : Text.afterCaseless? ('\\' :: a :: name) s with
  | none => rfl
  | some r =>
    obtain ⟨q, rfl, hq⟩ := Text.afterCaseless?_eq_some hr
    obtain ⟨c, q, rfl, hc, hq⟩ := List.map_eq_cons_iff.1 hq
    obtain ⟨x, q, rfl, hx, -⟩ := List.map_eq_cons_iff.1 hq
    obtain rfl := eq_of_foldChar hc
    exact absurd hx (ha x h.letter)

end Tame

/-! ## Resolution -/

namespace Bibliography

variable {s : Text}

theorem entries_eq_nil (h : Calm s) : entries s = [] := by
  have hm : Text.Misses entryStart s := h.misses fun _ t ht => by
    have hw : Text.after? "\\bibitem" t = none := ht.after?_eq_none (show Calm.isForeign "bibitem" = true by decide)
    rw [entryStart, hw]
    rfl
  rw [entries, hm.cut_eq]
  clear hm h
  have hnone : ∀ t : Text, entriesFrom none (t.map .char) = [] := fun t => by
    induction t with
    | nil => rfl
    | cons c t ih => exact ih
  rw [hnone, List.map_nil]

theorem misses_citation (h : Tame s) : Text.Misses citation s := by
  refine h.misses fun _ t ht => ?_
  rw [citation, List.findSome?_eq_none_iff]
  intro name hn
  have hf := (by decide : ∀ n ∈ citingNames, Spelled.isForeign bodyWords n = true) name hn
  rw [ht.after?_eq_none hf]
  rfl

theorem misses_looseCommand (h : Tame s) : Text.Misses looseCommand s := h.misses fun _ t ht => by
  have hw : Text.afterCaseless? "\\ref" t = none := ht.afterCaseless?_eq_none (by decide) _
  rw [looseCommand, hw]
  rfl

theorem misses_bibliographyCommand (h : Tame s) : Text.Misses bibliographyCommand s := by
  refine h.misses fun _ t ht => ?_
  rw [bibliographyCommand, List.findSome?_eq_none_iff]
  intro name hn
  have hf : ∃ n, name = '\\' :: n ∧ Spelled.isForeign bodyWords n = true := by
    simp only [texts, List.map_cons, List.map_nil, List.mem_cons, List.not_mem_nil, or_false] at hn
    rcases hn with rfl | rfl | rfl
    · exact ⟨_, rfl, by decide⟩
    · exact ⟨_, rfl, by decide⟩
    · exact ⟨_, rfl, by decide⟩
  obtain ⟨n, rfl, hf⟩ := hf
  rw [ht.after?_eq_none hf]
  rfl

/-- The bibliographies of a row are taken out; none has an entry. -/
theorem ends_collectAll (kit : Kit) (n : Nat) {d : Row} {k : Nat} (hd : Nested k d.marks) :
    Bench.Ends (collectAll kit [] d.source n) fun r => r.1 = [] ∧ Reduces d r.2 := by
  induction n generalizing d k with
  | zero => exact .pure ⟨rfl, .refl d⟩
  | succ n ih =>
    have hn : isTaken "thebibliography" = true := by decide
    simp only [collectAll]
    rcases Row.find_source (brace_not_mem_of_isTaken hn) d hd with ⟨h, -⟩ | ⟨e, h, hholds, hname⟩
    · simp only [h]
      exact .pure ⟨rfl, .refl d⟩
    · simp only [h, collect, entries_eq_nil hholds.calm_body, List.mapM_nil, pure_bind, List.foldl_nil]
      obtain ⟨d', hd', hcuts⟩ := hholds.replaceBy (by rw [hname]; exact hn) (t := []) (by simp)
      obtain ⟨j, hj, -⟩ := hcuts.nested hd
      simp only [Environment.replaceBy, List.append_nil] at hd'
      rw [hd']
      refine (ih hj).mono fun r hr => ?_
      obtain ⟨hnone, d'', hd'', hcuts'⟩ := hr
      exact ⟨hnone, d'', hd'', hcuts.trans hcuts'⟩

/-- Resolving the citations of a nested row takes its bibliographies out. -/
theorem ends_resolve (kit : Kit) {d : Row} {k : Nat} (hd : Nested k d.marks) :
    Bench.Ends (resolve kit d.source) fun r => Reduces d r.markup := by
  refine (ends_collectAll kit _ hd).bind fun r hr => ?_
  obtain ⟨hr, d', hd', hcuts⟩ := hr
  obtain ⟨numbered, rest⟩ := r
  dsimp only at hr hd'
  subst hr hd'
  obtain ⟨d'', hd'', hmarks⟩ := looseGroup_source (citationLabel []) (fun _ _ => isPlainChar_of_citationLabel) d' none
  have hloose : d'.source.replaceAll looseGroup (citationLabel []) = d''.source := by
    rw [← hd'', Text.replaceAll, Text.cut]
    exact congrArg (List.flatMap · _) (funext fun p => by cases p <;> rfl)
  simp only [rewrite, List.map_nil, (misses_bibliographyCommand d'.calm.tame).removeAll_eq,
    (misses_citation d'.calm.tame).replaceAll_eq, hloose, (misses_looseCommand d''.calm.tame).replaceAll_eq,
    List.isEmpty_nil, if_true, pure_bind]
  exact .pure ⟨d'', rfl, by rw [hmarks]; exact hcuts⟩

end Bibliography

end Galley
