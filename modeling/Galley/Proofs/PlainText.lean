import Galley.Proofs.LateStages
import Galley.Proofs.EarlyStages
import Galley.Proofs.Citations
import Galley.Proofs.TableRuns
/-!
# Prose passes through

In prose no formula, citation or environment but the document begins, and no command but headings and emphasis. Every
stage leaves it as it is and registers nothing (`idle_formula`, `idle_resolve`, `idle_late`). A plain text has no
commands at all; the lines of a placeholder are such a text.
-/

namespace Galley

/-- No character of the text begins markup. -/
structure Plain (s : Text) : Prop where
  no_backslash : '\\' ∉ s
  no_dollar : '$' ∉ s
  no_piece : Inline.Stash.opening ∉ s
  no_bracket : '(' ∉ s

namespace Plain

variable {s : Text}

theorem of_placeholder (h : ∀ c ∈ s, isPlaceholderChar c = true) : Plain s := by
  have hno (c : Char) (hc : isPlaceholderChar c = false) : c ∉ s := fun hm => by
    rw [h c hm] at hc
    cases hc
  exact ⟨hno _ (by decide), hno _ (by decide), hno _ (by decide), hno _ (by decide)⟩

theorem calm (h : Plain s) : Calm s where
  no_dollar := h.no_dollar
  no_piece := h.no_piece
  marker := fun _ ht => absurd (ht.subset List.mem_cons_self) h.no_backslash

end Plain

/-! ## No environment -/

/-- The name of an environment that is not the document. -/
def isOther (name : Text) : Bool := name ≠ "document".toList && !name.contains '}'

/-- The text is tame, no parenthesis opens in it, and no environment begins in it but the document. -/
structure Prose (s : Text) : Prop where
  tame : Tame s
  no_bracket : '(' ∉ s
  begins : ∀ name, isOther name = true → ∀ t, t <:+ s → Marker.after? "begin" name t = none

theorem Plain.prose {s : Text} (h : Plain s) : Prose s where
  tame := h.calm.tame
  no_bracket := h.no_bracket
  begins name _ t ht := by
    have hbegin : Text.after? ('\\' :: "begin".toList) t = none := by
      cases hr : Text.after? ('\\' :: "begin".toList) t with
      | none => rfl
      | some r =>
        obtain rfl := Text.after?_eq_some_iff.1 hr
        exact absurd (ht.subset List.mem_cons_self) h.no_backslash
    rw [Marker.after?, hbegin]
    rfl

namespace Prose

variable {s : Text}

theorem misses_begins (h : Prose s) {name : Text} (hn : isOther name = true) : Text.Misses (Marker.begins name) s :=
  fun _ t ht => by rw [Marker.begins, h.begins name hn t ht, Option.map_none]

theorem misses_beginsAny (h : Prose s) {names : List Text} (hn : names.all isOther = true) :
    Text.Misses (Marker.beginsAny names) s := fun _ t ht => by
  rw [Marker.beginsAny, List.findSome?_eq_none_iff]
  intro name hm
  rw [h.begins name (List.all_eq_true.1 hn name hm) t ht, Option.map_none]

theorem find_eq (h : Prose s) {name : Text} (hn : isOther name = true) : Environment.find name s = .ok none := by
  rw [Environment.find, (h.misses_begins hn).find?_eq]

theorem firstName?_eq (h : Prose s) {names : List Text} (hn : names.all isOther = true) :
    Environment.firstName? names s = none := by
  have hbegin (name : Text) (hm : name ∈ names) : Environment.firstBegin? name s = none := by
    rw [Environment.firstBegin?, (h.misses_begins (List.all_eq_true.1 hn name hm)).find?_eq, Option.map_none]
  rw [Environment.firstName?, Option.map_eq_none_iff]
  refine List.foldlRecOn (motive := fun best => best = none) _ _ rfl fun best hbest name hm => ?_
  rw [hbegin name hm, hbest]

theorem leaf?_eq (h : Prose s) {names : List Text} (hn : names.all isOther = true) : Environment.leaf? names s = none := by
  have hnone (names : List Text) (t : Text) : ∀ before, Environment.leafFrom names before (t.map .char) = none := by
    induction t with
    | nil => exact fun _ => rfl
    | cons c t ih => exact fun before => ih _
  have hall : (if names.isEmpty then [[]] else names).all isOther = true := by
    split
    · decide
    · exact hn
  simp only [Environment.leaf?, (h.misses_beginsAny hall).cut_eq, hnone]

end Prose

open Bench (Idle Leads)

variable {s : Text} (kit : Kit)

theorem idle_mapM_sources {α : Type} {read : Reader α} (h : Text.Misses read s) (f : Piece α → Bench Text)
    (hf : ∀ c, f (.char c) = pure [c]) :
    Idle (do let parts ← (s.cut read).mapM f; pure parts.flatten) s := by
  rw [h.mapM_cut f hf, pure_bind, Text.flatten_map_singleton]
  exact .pure s

/-! ## The formulas -/

theorem idle_formula (h : Prose s) : Idle (Extract.Formula.extract kit s) s := by
  refine Idle.bind (Idle.foldlM fun name hname => Idle.rounds ?_) ?_
  · have hn : isOther name = true := (by decide : ∀ n ∈ Extract.Formula.environmentNames, isOther n = true) name hname
    simp only [h.find_eq hn]
    exact .pure none
  · have hb : Text.Misses (Extract.Formula.slashDelimited '[' ']') s :=
      h.tame.misses_slashDelimited (by decide)
    have hp : Text.Misses (Extract.Formula.slashDelimited '(' ')') s :=
      h.tame.misses_slashDelimited (by decide)
    simp only [Extract.Formula.delimited, hb.replaceAllM_eq, hp.replaceAllM_eq,
      h.tame.misses_doubleDollar.replaceAllM_eq, h.tame.misses_singleDollar.replaceAllM_eq, pure_bind]
    exact .pure s

/-! ## The citations -/

theorem misses_looseGroup (h : Prose s) : Text.Misses Bibliography.looseGroup s := by
  intro before t ht
  have hb : Text.after? "(" t = none := by
    cases hr : Text.after? "(" t with
    | none => rfl
    | some r =>
      obtain rfl := Text.after?_eq_some_iff.1 hr
      exact absurd (ht.subset List.mem_cons_self) h.no_bracket
  rw [Bibliography.looseGroup, hb]
  rfl

theorem idle_resolve (h : Prose s) : Idle (Bibliography.resolve kit s) { markup := s } := by
  have hcollect : Idle (Bibliography.collectAll kit [] s (s.length + 1)) ([], s) := by
    have hn : isOther "thebibliography" = true := by decide
    simp only [Bibliography.collectAll, h.find_eq hn]
    exact .pure _
  refine hcollect.bind ?_
  simp only [Bibliography.rewrite, List.map_nil, (Bibliography.misses_bibliographyCommand h.tame).removeAll_eq,
    (Bibliography.misses_citation h.tame).replaceAll_eq, (Bibliography.misses_citation h.tame).readAll_eq,
    (misses_looseGroup h).replaceAll_eq, (misses_looseGroup h).readAll_eq,
    (Bibliography.misses_looseCommand h.tame).replaceAll_eq, (Bibliography.misses_looseCommand h.tame).readAll_eq,
    List.isEmpty_nil, if_true, pure_bind, List.flatMap_nil, List.append_nil]
  exact .pure _

/-! ## The stages after the citations -/

theorem idle_abstract (h : Prose s) : Idle (Extract.Abstract.extract kit s) s := by
  have environments {name : Text} (hn : isOther name = true) (render : Text → Bench Text) :
      Idle (Extract.Abstract.environments kit name render s) s := by
    refine Idle.rounds ?_
    simp only [h.find_eq hn]
    exact .pure none
  refine (environments (by decide) _).bind ((environments (by decide) _).bind ((environments (by decide) _).bind ?_))
  exact idle_mapM_sources h.tame.misses_keywords _ fun _ => rfl

theorem idle_table (h : Prose s) : Idle (Extract.Table.extract kit s) s := by
  have environments (construct : Text) {names : List Text} (hn : names.all isOther = true)
      (render : Text → Text → Bench Text) : Idle (Extract.Table.environments kit construct names render s) s := by
    refine Idle.rounds ?_
    simp only [h.firstName?_eq hn]
    exact .pure none
  exact (environments _ (by decide) _).bind (environments _ (by decide) _)

theorem idle_list (h : Prose s) : Idle (Extract.List.extract kit s) s := by
  refine Idle.rounds ?_
  have hn : Extract.List.environmentNames.all isOther = true := by decide
  simp only [h.leaf?_eq hn]
  exact .pure none

theorem idle_algorithm (h : Prose s) : Idle (Extract.Algorithm.extract kit s) s := by
  have environments {name : Text} (hn : isOther name = true) (render : Text → Bench Text) :
      Idle (Extract.Algorithm.environments kit name render s) s := by
    refine Idle.rounds ?_
    simp only [h.find_eq hn]
    exact .pure none
  exact (environments (by decide) _).bind ((environments (by decide) _).bind (environments (by decide) _))

theorem idle_box (h : Prose s) : Idle (Extract.Box.extract kit s) s := by
  have hn : Extract.Box.environmentNames.all isOther = true := by decide
  have unclosed (n : Nat) : Extract.Box.failUnclosed n s = pure s := by
    cases n with
    | zero => rfl
    | succ n => simp only [Extract.Box.failUnclosed, (h.misses_beginsAny hn).find?_eq]
  refine Idle.bind (Idle.rounds ?_) (Idle.bind (Idle.rounds ?_) ?_)
  · simp only [h.tame.misses_boxCommands.findLast?_eq]
    exact .pure none
  · simp only [h.leaf?_eq hn]
    exact .pure none
  · rw [unclosed]
    exact .pure s

theorem idle_theorem (h : Prose s) : Idle (Extract.Theorem.extract kit s) s := by
  have hn : (Extract.Theorem.namesOf Extract.Theorem.builtinKinds).all isOther = true := by decide
  unfold Extract.Theorem.extract
  rw [h.tame.kindsOf_eq]
  refine Idle.rounds ?_
  simp only [h.leaf?_eq hn]
  exact .pure none

theorem idle_count (name : Text) (n : Nat) : Idle (Reduction.count name n) () := .modify fun _ => rfl

/-- Counting what a stage takes out does not touch the table. -/
theorem leads_runStage {kit : Kit} (stage : Reduction.Stage) {t : Block.Table} {Q : Text → Block.Table → Prop}
    (h : Leads t (stage.run kit s) Q) : Leads t (Reduction.runStage kit s stage) Q := by
  refine Leads.get.bind fun b u ⟨_, hu⟩ => ?_
  rw [hu]
  refine h.bind fun s' v hs => Leads.get.bind fun b' w ⟨_, hw⟩ => ?_
  rw [hw]
  refine (idle_count _ _ v).bind fun _ x hx => .pure ?_
  rw [hx.2]
  exact hs

theorem idle_late (h : Prose s) : Idle (Reduction.late.foldlM (Reduction.runStage kit) s) s := by
  refine Idle.foldlM fun stage hs t => leads_runStage stage ?_
  revert t
  change Idle (stage.run kit s) s
  simp only [Reduction.late, List.mem_cons, List.not_mem_nil, or_false] at hs
  rcases hs with rfl | rfl | rfl | rfl | rfl | rfl
  · exact idle_abstract kit h
  · exact idle_table kit h
  · exact idle_list kit h
  · exact idle_algorithm kit h
  · exact idle_box kit h
  · exact idle_theorem kit h

end Galley
