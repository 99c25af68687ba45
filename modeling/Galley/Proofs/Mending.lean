import Galley.Proofs.Citations
import Galley.Proofs.EarlyStages
import Galley.Proofs.UnsafeCommands
/-!
# What repairing does to a row

In a row without backticks there is nothing to mend: no fences, no literal code, no formulas and no
commands. Only characters NUL, which mark code set aside, are dropped.
-/

namespace Galley

/-! ## Characters dropped from a row -/

theorem Row.filter_source {p : Char → Bool} (hp : ∀ c, ('a' ≤ c ∧ c ≤ 'z') ∨ c = '\\' ∨ c = '{' ∨ c = '}' → p c = true)
    (d : Row) : ∃ d' : Row, d.source.filter p = d'.source ∧ d'.marks = d.marks := by
  induction d with
  | nil => exact ⟨[], rfl, rfl⟩
  | cons i d ih =>
    obtain ⟨d', hs, hm⟩ := ih
    cases i with
    | char c hc =>
      cases h : p c with
      | true => exact ⟨.char c hc :: d', by simp [Item.source, h, hs], by rw [marks_char, marks_char, hm]⟩
      | false => exact ⟨d', by simp [Item.source, h, hs], by rw [marks_char, hm]⟩
    | mark m hplain =>
      have hall : ∀ c ∈ m.source, p c = true := by
        intro c hc
        refine hp c (Classical.byContradiction fun hne => ?_)
        simp only [not_or] at hne
        rw [m.source_eq, List.mem_cons] at hc
        exact hc.elim hne.2.1 (Mark.not_mem_tail hplain hne.1 hne.2.2.1 hne.2.2.2)
      exact ⟨.mark m hplain :: d', by simp [Item.source, List.filter_eq_self.2 hall, hs],
        by rw [marks_mark, marks_mark, hm]⟩

/-! ## Readers that find nothing -/

namespace Tame

variable {s : Text}

theorem dollars?_eq_none (h : Tame s) : Repair.dollars? s = none := by
  unfold Repair.dollars?
  split
  · exact absurd rfl h.ne_dollar
  · rfl

theorem misses_literalLineEnd (h : Tame s) : Text.Misses Repair.literalLineEnd s := by
  refine h.misses fun before t ht => ?_
  unfold Repair.literalLineEnd
  split
  · exact absurd ht.letter (by decide)
  · rfl

theorem misses_chain (h : Tame s) : Text.Misses Repair.chain s := h.misses fun _ t ht => by
  rw [Repair.chain, ht.dollars?_eq_none]
  rfl

theorem misses_pair (h : Tame s) : Text.Misses Repair.pair s := h.misses fun before t ht => by
  rw [Repair.pair, ht.dollars?_eq_none]
  split <;> rfl

theorem mergeChain_eq (h : Tame s) : Repair.mergeChain s = s := by
  rw [Repair.mergeChain, h.misses_chain.cut_eq, List.flatMap_map]
  exact List.flatMap_singleton' s

theorem dropDollars_eq (h : Tame s) (name : Text) (hn : Spelled.isForeign bodyWords name = true) (closing : Text) :
    Repair.dropDollars ('\\' :: name) closing s = s := by
  have hm : Text.Misses (Repair.between ('\\' :: name) closing) s := h.misses fun _ t ht => by
    rw [Repair.between, ht.after?_eq_none hn]
    rfl
  exact hm.replaceAll_eq _

theorem misses_strandedSubscript (h : Tame s) : Text.Misses Repair.strandedSubscript s := h.misses fun _ t ht => by
  rw [Repair.strandedSubscript, ht.dollars?_eq_none]
  rfl

theorem misses_strandedGroup (h : Tame s) : Text.Misses Repair.strandedGroup s := h.misses fun _ t ht => by
  rw [Repair.strandedGroup, ht.dollars?_eq_none]
  rfl

theorem braced_eq_none (h : Tame s) {a : Char} (ha : ∀ c ∈ ['b', 'e', 's', 't'], foldChar c ≠ a) (name : Text) (before : Option Char) :
    Repair.braced ('\\' :: a :: name) before s = none := by
  rw [Repair.braced, h.afterCaseless?_eq_none ha]
  rfl

theorem stream_eq_none (h : Tame s) {a : Char} (ha : ∀ c ∈ ['b', 'e', 's', 't'], foldChar c ≠ a) (name : Text) (before : Option Char) :
    Repair.stream ('\\' :: a :: name) before s = none := by
  rw [Repair.stream, h.afterCaseless?_eq_none ha]
  rfl

/-- None of the unsafe commands is in a tame text. -/
theorem misses_unsafe (h : Tame s) : ∀ p ∈ Repair.unsafeCommands, Text.Misses p.2 s := by
  have shellEscape : Text.Misses Repair.shellEscape s := h.misses fun before t ht => by
    have hi : Text.afterCaseless? "\\immediate" t = none := ht.afterCaseless?_eq_none (by decide) _
    rw [Repair.shellEscape, hi]
    exact ht.braced_eq_none (by decide) _ before
  have catcode : Text.Misses Repair.catcode s := h.misses fun _ t ht => by
    have hc : Text.afterCaseless? "\\catcode" t = none := ht.afterCaseless?_eq_none (by decide) _
    rw [Repair.catcode, hc]
    rfl
  intro p hp
  simp only [Repair.unsafeCommands, List.mem_cons, List.not_mem_nil, or_false] at hp
  rcases hp with rfl | rfl | rfl | rfl | rfl | rfl | rfl
  · exact shellEscape
  · exact h.misses fun before _ ht => ht.braced_eq_none (by decide) _ before
  · exact h.misses fun before _ ht => ht.braced_eq_none (by decide) _ before
  · exact h.misses fun before _ ht => ht.stream_eq_none (by decide) _ before
  · exact h.misses fun before _ ht => ht.stream_eq_none (by decide) _ before
  · exact h.misses fun before _ ht => ht.braced_eq_none (by decide) _ before
  · exact catcode

theorem dropUnsafe_eq (h : Tame s) : Repair.dropUnsafe s = { content := s } := by
  refine Repair.dropUnsafe_of_none fun p hp => ?_
  rw [Repair.sources, (h.misses_unsafe p hp).cut_eq, List.filterMap_map]
  exact List.filterMap_eq_nil_iff.2 fun _ _ => rfl

/-- A tame text is mended only where a heading announces a bibliography. -/
theorem mend_eq (h : Tame s) (hghost : Text.Misses Repair.ghostHeader s) : Repair.mend s = { content := s } := by
  have hs : Repair.dropDollars "\\[" "\\]" s = s := h.dropDollars_eq "[" (by decide) _
  have hp : Repair.dropDollars "\\(" "\\)" s = s := h.dropDollars_eq "(" (by decide) _
  simp only [Repair.mend, h.misses_literalLineEnd.replaceAll_eq, hghost.removeAll_eq, h.mergeChain_eq,
    Repair.mergePairs, h.misses_pair.replaceAll_eq, hs, hp, h.misses_strandedSubscript.replaceAll_eq,
    h.misses_strandedGroup.replaceAll_eq, h.dropUnsafe_eq]

end Tame

namespace Calm

variable {s : Text}

theorem misses_ghostHeader (h : Calm s) : Text.Misses Repair.ghostHeader s := by
  refine h.misses fun before t ht => ?_
  unfold Repair.ghostHeader
  cases hr : Text.after? "\\" t with
  | none => rfl
  | some r =>
    obtain rfl := Text.after?_eq_some_iff.1 hr
    match r with
    | [] => rfl
    | c :: r => rcases ht.letter with rfl | rfl <;> rfl

theorem mend_eq (h : Calm s) : Repair.mend s = { content := s } := h.tame.mend_eq h.misses_ghostHeader

end Calm

/-! ## The whole repair -/

namespace Repair

theorem stripFences_eq {s : Text} (h : '\x60' ∉ s) : stripFences s = s := by
  have hfence (t : Text) (ht : t <:+ s) : Text.after? fence t = none := by
    cases hr : Text.after? fence t with
    | none => rfl
    | some r =>
      obtain rfl := Text.after?_eq_some_iff.1 hr
      exact absurd (ht.subset (List.mem_append_left r (by decide))) h
  have hopening : afterOpeningFence? s = none := by
    rw [afterOpeningFence?, hfence _ (List.dropWhile_suffix _)]
    rfl
  have hclosing : Text.Misses closingFence s := fun _ t ht => by
    unfold closingFence
    split
    · rw [hfence _ ((List.suffix_cons _ _).trans ht)]
      rfl
    · rw [hfence _ ht]
      rfl
  rw [stripFences, hopening, Option.getD_none, hclosing.find?_eq]

theorem misses_verbatim (d : Row) : Text.Misses verbatim d.source := by
  have hbegins : Text.Misses (Marker.beginsAny verbatimNames) d.source :=
    Text.Forward.misses_of_find?_eq_none (fun _ _ _ => rfl) rfl d.find?_verbatim
  intro before t ht
  have hnone := hbegins before t ht
  have hverb : Text.after? "\\verb" t = none :=
    (d.calm.of_suffix ht).after?_eq_none (show Calm.isForeign "verb" = true by decide)
  rw [Marker.beginsAny] at hnone
  rw [verbatim, hnone, hverb]
  rfl

theorem shelterPieces_map_char (s : Text) (n : Nat) : shelterPieces n (s.map .char) = (s, []) := by
  induction s with
  | nil => rfl
  | cons c s ih => simp only [List.map_cons, shelterPieces, ih]

theorem misses_shelterReader {s : Text} (h : nul ∉ s) : Text.Misses shelterReader s := by
  intro before t ht
  match t with
  | [] => rfl
  | c :: t =>
    have hc : c ≠ nul := fun he => h (ht.subset (by simp [he]))
    simp [shelterReader, hc]

/-- A repaired row has the same marks. -/
theorem repair_source {d : Row} (h : '\x60' ∉ d.source) :
    ∃ d' : Row, (repair d.source).content = d'.source ∧ d'.marks = d.marks ∧ d'.source.Sublist d.source := by
  unfold repair
  split
  · exact ⟨d, rfl, rfl, .refl _⟩
  · obtain ⟨d', hs, hm⟩ := d.filter_source (p := fun c => c ≠ nul) (fun c hc => by
      rcases hc with ⟨hle, -⟩ | rfl | rfl | rfl
      · simpa using fun he : c = nul => absurd (he ▸ hle) (by decide)
      · decide
      · decide
      · decide)
    have hnul : nul ∉ d'.source := by
      rw [← hs]
      simp
    refine ⟨d', ?_, hm, hs ▸ List.filter_sublist⟩
    simp only [stripFences_eq h, shelter, hs, (misses_verbatim d').cut_eq, shelterPieces_map_char, d'.calm.mend_eq,
      unshelter, (misses_shelterReader hnul).replaceAll_eq]

end Repair

end Galley
