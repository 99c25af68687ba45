import Galley.Proofs.Stages
/-!
# The stages before the citations

In a row there are no images, no literal code and no formulas between delimiters; the diagrams that are
not drawn and the structured formulas are taken out whole.
-/

namespace Galley

/-! ## Diagrams that are not drawn -/

theorem keeps_placeholders (kit : Kit) :
    Keeps fun s => Extract.Diagram.placeholders.foldlM (Extract.Diagram.placeholder kit) s := by
  refine Keeps.foldlM fun p hp => ?_
  have hn : isTaken p.1 = true := (by decide : ∀ p ∈ Extract.Diagram.placeholders, isTaken p.1 = true) p hp
  exact Keeps.environments hn (fun _ _ => do Bench.notify (.diagramUnclosed p.1); pure none)
    fun d e h he => (Bench.ends_register .block _ true).bind fun t ht => .pure fun s hs => by
      obtain rfl := Option.some.inj hs
      exact h.reduces (by rw [he]; exact hn) ht

/-! ## Images -/

theorem Tame.misses_image {s : Text} (h : Tame s) : Text.Misses Extract.Image.reader s := h.misses fun _ t ht => by
  rw [Extract.Image.reader, ht.starred_eq_none (by decide), Option.map_none]

theorem keeps_image : Keeps Extract.Image.extract := by
  refine Keeps.of_eq fun s hs => ?_
  refine (congrArg (· >>= fun parts => pure parts.flatten) (hs.tame.misses_image.mapM_cut (m := Bench) _ ?_)).trans ?_
  · exact fun _ => rfl
  · rw [pure_bind, Text.flatten_map_singleton]

/-! ## Code -/

theorem isPlainName_of_verbatim {n : Text} (h : n ∈ Repair.verbatimNames) : isPlainName n = false := by
  have hall : ∀ n ∈ Repair.verbatimNames, isPlainName n = false := by decide
  exact hall n h

/-- No literal code begins in a row. -/
theorem Row.find?_verbatim (d : Row) : Text.find? (Marker.beginsAny Repair.verbatimNames) d.source = none := by
  have hbrace : ∀ name ∈ Repair.verbatimNames, '}' ∉ name := by decide
  rcases (Marker.finds_beginsAny hbrace).find?_source d with ⟨h, -⟩ | ⟨p, m, hm, q, a, -, ha, -, -⟩
  · exact h
  · obtain ⟨n, hn, hx⟩ := List.exists_of_findSome?_eq_some ha
    split at hx
    · rename_i heq
      rw [heq, Mark.name_opening, isPlainName_of_verbatim hn] at hm
      cases hm
    · cases hx

namespace Tame

variable {s : Text}

theorem misses_verb (h : Tame s) : Text.Misses Extract.Code.verb s := h.misses fun _ t ht => by
  have hw : Text.after? "\\verb" t = none := ht.after?_eq_none (show Spelled.isForeign bodyWords "verb" = true by decide)
  rw [Extract.Code.verb, hw]
  rfl

theorem misses_lstinline (h : Tame s) : Text.Misses Extract.Code.lstinline s := h.misses fun _ t ht => by
  have hw : Text.after? "\\lstinline" t = none :=
    ht.after?_eq_none (show Spelled.isForeign bodyWords "lstinline" = true by decide)
  rw [Extract.Code.lstinline, hw]
  rfl

theorem misses_mintinline (h : Tame s) : Text.Misses Extract.Code.mintinline s := h.misses fun _ t ht => by
  have hw : Text.after? "\\mintinline" t = none :=
    ht.after?_eq_none (show Spelled.isForeign bodyWords "mintinline" = true by decide)
  rw [Extract.Code.mintinline, hw]
  rfl

theorem inline_eq (h : Tame s) : Extract.Code.inline s = pure s := by
  simp only [Extract.Code.inline, h.misses_verb.replaceAllM_eq, h.misses_lstinline.replaceAllM_eq,
    h.misses_mintinline.replaceAllM_eq, pure_bind]

end Tame

theorem keeps_code (kit : Kit) : Keeps (Extract.Code.extract kit) := by
  refine Keeps.bind (Keeps.rounds fun d _ _ => ?_) (Keeps.of_eq fun s hs => ?_)
  · rw [d.find?_verbatim]
    exact .pure (by simp)
  · exact hs.tame.inline_eq

/-! ## Formulas -/

namespace Tame

variable {s : Text}

/-- A backslash has no other before it. -/
theorem slashes_eq (h : Tame s) : Extract.Formula.slashes s = [] ∨
    ∃ t, s = '\\' :: t ∧ Extract.Formula.slashes s = ['\\'] ∧ ∀ c r, t = c :: r → c ∈ ['b', 'e', 's', 't'] := by
  match s with
  | [] => exact .inl rfl
  | c :: t =>
    by_cases hc : c = '\\'
    · subst hc
      refine .inr ⟨t, rfl, ?_, fun c r ht => by subst ht; exact h.letter⟩
      match t with
      | [] => rfl
      | x :: r =>
        have hx : x ≠ '\\' := fun he => absurd (he ▸ h.letter) (by decide)
        simp [Extract.Formula.slashes, hx]
    · exact .inl (by simp [Extract.Formula.slashes, hc])

theorem misses_slashDelimited (h : Tame s) {opener closer : Char} (ho : opener ∉ ['b', 'e', 's', 't']) :
    Text.Misses (Extract.Formula.slashDelimited opener closer) s := by
  refine h.misses fun before t ht => ?_
  unfold Extract.Formula.slashDelimited
  split
  · rfl
  · rcases ht.slashes_eq with hs | ⟨r, rfl, hs, hr⟩
    · simp [hs]
    · simp only [hs, List.length_singleton]
      match r with
      | [] => rfl
      | c :: r =>
        have hc : c ≠ opener := fun he => ho (he ▸ hr c r rfl)
        simp [hc]

theorem misses_doubleDollar (h : Tame s) : Text.Misses Extract.Formula.doubleDollar s := by
  refine h.misses fun before t ht => ?_
  unfold Extract.Formula.doubleDollar
  split
  · rfl
  · rcases ht.slashes_eq with hs | ⟨r, rfl, hs, hr⟩
    · simp only [hs, List.length_nil]
      match t with
      | [] => rfl
      | c :: r =>
        have := ht.ne_dollar
        simp [this]
    · simp [hs]

theorem misses_singleDollar (h : Tame s) : Text.Misses Extract.Formula.singleDollar s := by
  refine h.misses fun before t ht => ?_
  unfold Extract.Formula.singleDollar
  split
  · rfl
  · rcases ht.slashes_eq with hs | ⟨r, rfl, hs, hr⟩
    · simp only [hs, List.length_nil]
      match t with
      | [] => rfl
      | c :: r =>
        have := ht.ne_dollar
        simp [this]
    · simp [hs]

end Tame

theorem keeps_formula (kit : Kit) : Keeps (Extract.Formula.extract kit) := by
  refine Keeps.bind (Keeps.foldlM fun name hname => ?_) (Keeps.of_eq fun s hs => ?_)
  · have hn : isTaken name = true :=
      (by decide : ∀ n ∈ Extract.Formula.environmentNames, isTaken n = true) name hname
    refine Keeps.environments hn (fun _ _ => do Bench.notify (.mathUnclosed name); pure none)
      fun d e h he => ?_
    refine ((Bench.ends_math _ _ _).bind fun _ _ => Bench.ends_register _ _ _).bind fun t ht => .pure fun s hs => ?_
    obtain rfl := Option.some.inj hs
    exact h.reduces (by rw [he]; exact hn) ht
  · have hb : Text.Misses (Extract.Formula.slashDelimited '[' ']') s :=
      hs.tame.misses_slashDelimited (by decide)
    have hp : Text.Misses (Extract.Formula.slashDelimited '(' ')') s :=
      hs.tame.misses_slashDelimited (by decide)
    simp only [Extract.Formula.delimited, hb.replaceAllM_eq, hp.replaceAllM_eq,
      hs.tame.misses_doubleDollar.replaceAllM_eq, hs.tame.misses_singleDollar.replaceAllM_eq, pure_bind]

end Galley
