import Galley.Proofs.Mending
import Galley.Proofs.Parts
import Galley.Proofs.VerbatimCode
import Mathlib.Data.List.TakeWhile
/-!
# Plain documents

A plain document is made of running text, the markers of the document, headings and emphasis. It is prose, and
headings that announce a bibliography apart there is nothing to mend in it; so it is reduced to itself, with no
fragments and no bibliography (`run_markup`).
-/

namespace Galley

/-! ## Headings that announce a bibliography -/

theorem foldChar_of_isBlank {c : Char} (h : isBlank c = true) : foldChar c = c := by
  simp only [isBlank, inRanges, blankRanges, List.any_cons, List.any_nil, Bool.or_false, Bool.or_eq_true,
    Bool.and_eq_true, decide_eq_true_eq] at h
  unfold foldChar
  split
  case h_5 =>
    unfold Char.toLower
    split
    · rename_i hupper
      have hge : 65 ≤ c.toNat := hupper.1
      have hle : c.toNat ≤ 90 := hupper.2
      omega
    · rfl
  all_goals omega

/-- What follows a closing brace does not count. -/
theorem takeWhile_append_brace (t s : Text) : (t ++ '}' :: s).takeWhile (· ≠ '}') = t.takeWhile (· ≠ '}') := by
  induction t with
  | nil => rfl
  | cons c t ih =>
    by_cases hc : c = '}'
    · simp [hc]
    · simpa [hc] using ih

theorem takeWhile_eq_self {t : Text} (h : '}' ∉ t) : t.takeWhile (· ≠ '}') = t :=
  List.takeWhile_eq_self_iff.2 fun _ hc => decide_eq_true fun he => h (he ▸ hc)

namespace Repair

/-- The titles that announce a bibliography, as words in lower case. -/
def ghostTitles : List (List Text) := [["references"], ["bibliography"], ["works", "cited"]]

/-- A title announces a bibliography if its words up to its first closing brace do, in any letter case. -/
def announces (title : Text) : Bool :=
  ghostTitles.contains ((Text.words (title.takeWhile (· ≠ '}'))).map (·.map foldChar))

theorem announces_append {t : Text} (h : '}' ∉ t) (s : Text) :
    announces (t ++ '}' :: s) = ghostTitles.contains ((Text.words t).map (·.map foldChar)) := by
  rw [announces, takeWhile_append_brace, takeWhile_eq_self h]

/-- A word in any letter case; it holds neither white space nor a closing brace. -/
structure IsCased (word q : Text) : Prop where
  fold : q.map foldChar = word
  ne_nil : q ≠ []
  not_blank : ∀ c ∈ q, isBlank c = false
  no_brace : '}' ∉ q

/-- Letters are neither white space nor a brace in either case. -/
theorem isCased_of_afterCaseless? {word u s : Text} (hword : word ≠ [] ∧ ∀ c ∈ word, isBlank c = false ∧ c ≠ '}')
    (h : Text.afterCaseless? word u = some s) : ∃ q, u = q ++ s ∧ IsCased word q := by
  obtain ⟨q, rfl, hq⟩ := Text.afterCaseless?_eq_some h
  have hletter (c : Char) (hc : c ∈ q) := hword.2 (foldChar c) (hq ▸ List.mem_map_of_mem hc)
  refine ⟨q, rfl, hq, ?_, fun c hc => ?_, fun hc => ?_⟩
  · rintro rfl
    exact hword.1 hq.symm
  · by_contra hblank
    rw [Bool.not_eq_false] at hblank
    have := (hletter c hc).1
    rw [foldChar_of_isBlank hblank, hblank] at this
    cases this
  · exact (hletter '}' hc).2 (by decide)

theorem brace_not_mem_of_blank {gap : Text} (h : ∀ c ∈ gap, isBlank c = true) : '}' ∉ gap := fun hm =>
  absurd (h _ hm) (by decide)

section Announced

variable {first last word q : Text} (hfirst : ∀ c ∈ first, isBlank c = true) (hlast : ∀ c ∈ last, isBlank c = true)
  (hq : IsCased word q)

include hfirst hlast hq

theorem announces_word (hmem : [word] ∈ ghostTitles) (rest : Text) : announces (first ++ (q ++ (last ++ '}' :: rest))) = true := by
  have hno : '}' ∉ first ++ (q ++ (last ++ [])) := by
    simp [brace_not_mem_of_blank hfirst, hq.no_brace, brace_not_mem_of_blank hlast]
  have hsource : first ++ (q ++ (last ++ '}' :: rest)) = (first ++ (q ++ (last ++ []))) ++ '}' :: rest := by simp
  rw [hsource, announces_append hno, Text.words_gap hfirst, Text.words_word hq.ne_nil hq.not_blank hlast fun _ => rfl]
  simpa [Text.words, Text.wordsFrom, hq.fold] using hmem

theorem announces_words {gap word' q' : Text} (hgap : ∀ c ∈ gap, isBlank c = true) (hne : gap ≠ []) (hq' : IsCased word' q')
    (hmem : [word, word'] ∈ ghostTitles) (rest : Text) :
    announces (first ++ (q ++ (gap ++ (q' ++ (last ++ '}' :: rest))))) = true := by
  have hno : '}' ∉ first ++ (q ++ (gap ++ (q' ++ (last ++ [])))) := by
    simp [brace_not_mem_of_blank hfirst, hq.no_brace, brace_not_mem_of_blank hgap, hq'.no_brace,
      brace_not_mem_of_blank hlast]
  have hsource : first ++ (q ++ (gap ++ (q' ++ (last ++ '}' :: rest)))) =
      (first ++ (q ++ (gap ++ (q' ++ (last ++ []))))) ++ '}' :: rest := by simp
  rw [hsource, announces_append hno, Text.words_gap hfirst,
    Text.words_word hq.ne_nil hq.not_blank hgap fun h => absurd h hne,
    Text.words_word hq'.ne_nil hq'.not_blank hlast fun _ => rfl]
  simpa [Text.words, Text.wordsFrom, hq.fold, hq'.fold] using hmem

end Announced

/-- A title that is read in front of a closing brace announces a bibliography. -/
theorem announces_of_ghostTitle? {t s rest : Text} (h : ghostTitle? (t.dropWhile isBlank) = some s)
    (hs : s.dropWhile isBlank = '}' :: rest) : announces t = true := by
  obtain ⟨first, ht, hfirst⟩ := Text.dropWhile_eq isBlank t
  obtain ⟨last, hlast, hblank⟩ := Text.dropWhile_eq isBlank s
  rw [hs] at hlast
  generalize t.dropWhile isBlank = u at ht h
  subst ht
  unfold ghostTitle? at h
  simp only [Option.orElse_eq_orElse, Option.orElse_eq_or, Option.or_eq_some_iff] at h
  rcases h with h | ⟨-, h | ⟨-, h⟩⟩
  · obtain ⟨q, rfl, hq⟩ := isCased_of_afterCaseless? (by decide) h
    exact hlast ▸ announces_word hfirst hblank hq (by decide) rest
  · obtain ⟨q, rfl, hq⟩ := isCased_of_afterCaseless? (by decide) h
    exact hlast ▸ announces_word hfirst hblank hq (by decide) rest
  · obtain ⟨v, hv, hcited⟩ := Option.bind_eq_some_iff.1 h
    obtain ⟨q, rfl, hq⟩ := isCased_of_afterCaseless? (by decide) hv
    obtain ⟨gap, hgap, hgapBlank⟩ := Text.dropWhile_eq isBlank v
    cases v with
    | nil => cases hcited
    | cons c v =>
      dsimp only at hcited
      split at hcited
      · rename_i hc
        obtain ⟨q', hrest, hq'⟩ := isCased_of_afterCaseless? (by decide) hcited
        have hne : gap ≠ [] := by
          rintro rfl
          rw [List.nil_append] at hgap
          have := Text.head_dropWhile hgap.symm
          rw [hc] at this
          cases this
        rw [hgap, hrest, hlast]
        exact announces_words hfirst hblank hq hgapBlank hne hq' (by decide) rest
      · cases hcited

end Repair

/-! ## Passages -/

/-- What a plain document is made of. -/
inductive Passage where
  | text (t : Text)
  /-- The begin marker of the document. -/
  | opening
  /-- The end marker of the document. -/
  | closing
  | heading (sub : Bool) (title : Text)
  | emphasis (bold : Bool) (t : Text)

namespace Passage

/-- The word behind the backslash of a command, with its brace. -/
def word? : Passage → Option Text
  | text _ => none
  | opening => some "begin\x7bdocument\x7d"
  | closing => some "end\x7bdocument\x7d"
  | heading sub _ => some (if sub then "subsection\x7b" else "section\x7b")
  | emphasis bold _ => some (if bold then "textbf\x7b" else "emph\x7b")

/-- The text of a passage, with the brace behind an argument. -/
def content : Passage → Text
  | text t => t
  | opening => []
  | closing => []
  | heading _ title => title ++ ['}']
  | emphasis _ t => t ++ ['}']

def source (p : Passage) : Text :=
  match p.word? with
  | none => p.content
  | some w => '\\' :: (w ++ p.content)

theorem source_command {p : Passage} {w : Text} (h : p.word? = some w) : p.source = '\\' :: (w ++ p.content) := by
  rw [source, h]

theorem source_text {p : Passage} (h : p.word? = none) : p.source = p.content := by
  rw [source, h]

/-- A character of running text. -/
def isRunning (c : Char) : Bool :=
  !(c = '\\' || c = '$' || c = '\x60' || c = Repair.nul || c = '(' || c = '{')

/-- The text in a passage is running text, and no heading announces a bibliography. -/
def isPlain : Passage → Bool
  | text t => t.all isRunning
  | opening => true
  | closing => true
  | heading _ title => title.all isRunning && !Repair.announces title
  | emphasis _ t => t.all isRunning

/-- The words of commands. -/
def words : List Text :=
  ["begin\x7bdocument\x7d", "end\x7bdocument\x7d", "section\x7b", "subsection\x7b", "textbf\x7b", "emph\x7b"]

variable {p : Passage}

theorem word?_mem {w : Text} (h : p.word? = some w) : w ∈ words := by
  have hall : ∀ w ∈ p.word?, w ∈ words := by
    rcases p with _ | _ | _ | ⟨_ | _, _⟩ | ⟨_ | _, _⟩ <;> simp [word?, words]
  exact hall w h

theorem isRunning_of_mem (h : p.isPlain = true) {c : Char} (hc : c ∈ p.content) : isRunning c = true := by
  have hargument {t : Text} (ht : t.all isRunning = true) (hc : c ∈ t ++ ['}']) : isRunning c = true := by
    rcases List.mem_append.1 hc with hc | hc
    · exact List.all_eq_true.1 ht c hc
    · rw [List.mem_singleton.1 hc]
      decide
  cases p with
  | text t => exact List.all_eq_true.1 h c hc
  | opening => cases hc
  | closing => cases hc
  | heading sub title => exact hargument (Bool.and_eq_true_iff.1 h).1 hc
  | emphasis bold t => exact hargument h hc

theorem not_mem_content (h : p.isPlain = true) {c : Char} (hc : isRunning c = false) : c ∉ p.content := fun hm => by
  rw [isRunning_of_mem h hm] at hc
  cases hc

/-- The backslashes and opening braces of commands apart, a plain passage holds running text. -/
theorem not_mem_source (h : p.isPlain = true) {c : Char} (hc : isRunning c = false) (hword : ∀ w ∈ words, c ∉ '\\' :: w) :
    c ∉ p.source := by
  have hcontent := not_mem_content h hc
  cases hw : p.word? with
  | none => rwa [source_text hw]
  | some w =>
    rw [source_command hw, ← List.cons_append, List.mem_append, not_or]
    exact ⟨hword w (word?_mem hw), hcontent⟩

end Passage

/-- The markup of passages in a row. -/
def markup (ps : List Passage) : Text := ps.flatMap Passage.source

/-- What begins with a backslash in a plain document begins with a command of it. -/
theorem command_of_suffix {ps : List Passage} (hps : ∀ p ∈ ps, p.isPlain = true) {t : Text} (ht : '\\' :: t <:+ markup ps) :
    ∃ p ∈ ps, ∃ w more, p.word? = some w ∧ t = w ++ (p.content ++ more) := by
  induction ps with
  | nil =>
    have := List.suffix_nil.1 ht
    cases this
  | cons p ps ih =>
    obtain ⟨hp, hps⟩ := List.forall_mem_cons.1 hps
    have hcontent : '\\' ∉ p.content := Passage.not_mem_content hp (by decide)
    have next (h : '\\' :: t <:+ markup ps) :
        ∃ p' ∈ p :: ps, ∃ w more, p'.word? = some w ∧ t = w ++ (p'.content ++ more) := by
      obtain ⟨p', hp', hrest⟩ := ih hps h
      exact ⟨p', List.mem_cons_of_mem p hp', hrest⟩
    have hmarkup : markup (p :: ps) = p.source ++ markup ps := List.flatMap_cons
    rw [hmarkup] at ht
    cases hw : p.word? with
    | none =>
      rw [Passage.source_text hw] at ht
      exact next (suffix_of_backslash hcontent ht)
    | some w =>
      rw [Passage.source_command hw, List.cons_append, List.append_assoc] at ht
      have hword : '\\' ∉ w := (by decide : ∀ w ∈ Passage.words, '\\' ∉ w) w (Passage.word?_mem hw)
      rcases List.suffix_cons_iff.1 ht with he | hs
      · obtain ⟨-, rfl⟩ := List.cons.inj he
        exact ⟨p, List.mem_cons_self, w, markup ps, hw, rfl⟩
      · exact next (suffix_of_backslash hcontent (suffix_of_backslash hword hs))

/-! ## Plain documents are prose -/

theorem ne_of_isOther {name : Text} (h : isOther name = true) : name ≠ "document" ∧ '}' ∉ name := by
  obtain ⟨hne, hbrace⟩ := Bool.and_eq_true_iff.1 h
  refine ⟨of_decide_eq_true hne, fun hm => ?_⟩
  rw [List.contains_iff_mem.2 hm] at hbrace
  cases hbrace

/-- Of the commands of plain documents only the begin marker of the document begins an environment. -/
theorem begins_document {name : Text} (hn : isOther name = true) {w : Text} (hw : w ∈ Passage.words) (more : Text) :
    Marker.after? "begin" name ('\\' :: (w ++ more)) = none := by
  obtain ⟨hne, hbrace⟩ := ne_of_isOther hn
  simp only [Passage.words, List.mem_cons, List.not_mem_nil, or_false] at hw
  rcases hw with rfl | rfl | rfl | rfl | rfl | rfl
  · rw [Option.eq_none_iff_forall_ne_some]
    intro rest h
    have hread : Marker.after? "begin" name ('\\' :: ("begin\x7bdocument\x7d".toList ++ more)) =
        (Text.after? name ("document".toList ++ '}' :: more)).bind (Text.after? "\x7d") := rfl
    rw [hread] at h
    obtain ⟨r, hr, hend⟩ := Option.bind_eq_some_iff.1 h
    -- the name that is read goes up to the first closing brace
    rw [Text.after?_eq_some_iff] at hr hend
    have hsource : "document".toList ++ '}' :: more = name ++ '}' :: rest := hr.trans (congrArg (name ++ ·) hend)
    have hname := congrArg (List.takeWhile (· ≠ '}')) hsource
    rw [takeWhile_append_brace, takeWhile_append_brace, takeWhile_eq_self (by decide), takeWhile_eq_self hbrace] at hname
    exact hne hname.symm
  all_goals rfl

section Plain

variable {ps : List Passage} (hps : ∀ p ∈ ps, p.isPlain = true)

include hps

theorem not_mem_markup {c : Char} (hc : Passage.isRunning c = false) (hword : ∀ w ∈ Passage.words, c ∉ '\\' :: w) :
    c ∉ markup ps := by
  intro hm
  obtain ⟨p, hp, hm⟩ := List.mem_flatMap.1 hm
  exact Passage.not_mem_source (hps p hp) hc hword hm

theorem tame_markup : Tame (markup ps) where
  no_dollar := not_mem_markup hps (by decide) (by decide)
  opens t ht := by
    obtain ⟨p, hp, w, more, hw, rfl⟩ := command_of_suffix hps ht
    obtain ⟨v, hv, u, rfl⟩ := (by decide : ∀ w ∈ Passage.words, ∃ v ∈ bodyWords, v <+: w) w (Passage.word?_mem hw)
    refine List.any_eq_true.2 ⟨v, hv, ?_⟩
    rw [List.isPrefixOf_iff_prefix, List.append_assoc, List.take_left]

theorem prose_markup : Prose (markup ps) where
  tame := tame_markup hps
  no_bracket := not_mem_markup hps (by decide) (by decide)
  begins name hn t ht := by
    cases hr : Marker.after? "begin" name t with
    | none => rfl
    | some r =>
      obtain ⟨u, hu, -⟩ := Option.bind_eq_some_iff.1 hr
      obtain ⟨v, rfl⟩ : ∃ v, t = '\\' :: v := ⟨_, Text.after?_eq_some_iff.1 hu⟩
      obtain ⟨p, hp, w, more, hw, rfl⟩ := command_of_suffix hps ht
      rw [begins_document hn (Passage.word?_mem hw)] at hr
      cases hr

/-- No heading of a plain document announces a bibliography. -/
theorem misses_ghostHeader_markup : Text.Misses Repair.ghostHeader (markup ps) := by
  intro before t ht
  cases hr : Repair.ghostHeader before t with
  | none => rfl
  | some r =>
    obtain ⟨v, rfl⟩ : ∃ v, t = '\\' :: v := by
      obtain ⟨u, hu, -⟩ := Option.bind_eq_some_iff.1 hr
      exact ⟨_, Text.after?_eq_some_iff.1 hu⟩
    obtain ⟨p, hp, w, more, hw, rfl⟩ := command_of_suffix hps ht
    match p, hps p hp, hw, hr with
    | .opening, _, rfl, hr => cases hr
    | .closing, _, rfl, hr => cases hr
    | .heading sub title, h, rfl, hr =>
      have htitle : Repair.announces (title ++ ['}'] ++ more) = false := by
        rw [List.append_assoc, List.singleton_append, Repair.announces, takeWhile_append_brace, ← Repair.announces]
        simpa using (Bool.and_eq_true_iff.1 h).2
      have hread : Repair.ghostHeader before
          ('\\' :: ((if sub then "subsection\x7b".toList else "section\x7b".toList) ++ (title ++ ['}'] ++ more))) =
          (do
            let s ← Repair.ghostTitle? ((title ++ ['}'] ++ more).dropWhile isBlank)
            let s ← Text.after? "\x7d" (s.dropWhile isBlank)
            some ((), s)) := by
        cases sub <;> rfl
      rw [Passage.content, hread] at hr
      obtain ⟨u, hu, hr⟩ := Option.bind_eq_some_iff.1 hr
      obtain ⟨rest, hrest, -⟩ := Option.bind_eq_some_iff.1 hr
      rw [Repair.announces_of_ghostTitle? hu (Text.after?_eq_some_iff.1 hrest)] at htitle
      cases htitle
    | .emphasis bold t, _, rfl, hr => cases bold <;> cases hr

end Plain

/-! ## The reduction of prose -/

namespace Prose

variable {s : Text}

theorem misses_verbatim (h : Prose s) : Text.Misses Repair.verbatim s := by
  intro before t ht
  have hnone : (Repair.verbatimNames.findSome? fun name => (Marker.after? "begin" name t).map (name, ·)) = none := by
    rw [List.findSome?_eq_none_iff]
    intro name hname
    have hn : isOther name = true := (by decide : ∀ n ∈ Repair.verbatimNames, isOther n = true) name hname
    rw [h.begins name hn t ht, Option.map_none]
  have hverb : Text.after? "\\verb" t = none :=
    (Spelled.of_suffix h.tame ht).after?_eq_none (show Spelled.isForeign bodyWords "verb" = true by decide)
  rw [Repair.verbatim, hnone, hverb]
  rfl

/-- There is nothing to repair in prose whose headings announce no bibliography. -/
theorem repair_eq (h : Prose s) (hghost : Text.Misses Repair.ghostHeader s) (hfence : '\x60' ∉ s) (hnul : Repair.nul ∉ s) :
    Repair.repair s = { content := s } := by
  have hclean : s.filter (· ≠ Repair.nul) = s :=
    List.filter_eq_self.2 fun c hc => decide_eq_true fun he => hnul (he ▸ hc)
  unfold Repair.repair
  split
  · rfl
  · simp only [Repair.stripFences_eq hfence, Repair.shelter, hclean, h.misses_verbatim.cut_eq, Repair.shelterPieces_map_char,
      h.tame.mend_eq hghost, Repair.unshelter, (Repair.misses_shelterReader hnul).replaceAll_eq]

theorem undisturbed (h : Prose s) : Verbatim.Undisturbed s where
  picture f hf := by
    rw [(h.misses_begins (by decide)).find?_eq] at hf
    cases hf
  diagram p hp e he := by
    have hn : isOther p.1 = true := (by decide : ∀ p ∈ Extract.Diagram.placeholders, isOther p.1 = true) p hp
    rw [h.find_eq hn] at he
    cases he
  image path hpath := by
    rw [h.tame.misses_image.readAll_eq] at hpath
    cases hpath

open Bench (Idle Leads)

theorem idle_code (h : Prose s) (kit : Kit) : Idle (Extract.Code.extract kit s) s := by
  have hn : Repair.verbatimNames.all isOther = true := by decide
  refine Idle.bind (Idle.rounds ?_) ?_
  · simp only [(h.misses_beginsAny hn).find?_eq]
    exact .pure none
  · rw [h.tame.inline_eq]
    exact .pure s

theorem idle_early (h : Prose s) (kit : Kit) : Idle (Reduction.early.foldlM (Reduction.runStage kit) s) s := by
  refine Idle.foldlM fun stage hs t => leads_runStage stage ?_
  revert t
  change Idle (stage.run kit s) s
  simp only [Reduction.early, List.mem_cons, List.not_mem_nil, or_false] at hs
  rcases hs with rfl | rfl | rfl | rfl
  · exact Verbatim.idle_diagram kit h.undisturbed
  · exact Verbatim.idle_image h.undisturbed
  · exact h.idle_code kit
  · exact idle_formula kit h

/-- Prose whose headings announce no bibliography is reduced to itself; nothing is registered. -/
theorem leads_run (h : Prose s) (hghost : Text.Misses Repair.ghostHeader s) (hfence : '\x60' ∉ s) (hnul : Repair.nul ∉ s)
    (kit : Kit) (t : Block.Table) : Leads t (Reduction.run kit s) fun e u =>
      e.reduced = s ∧ e.table = t ∧ e.bibliography = none ∧ u = t := by
  unfold Reduction.run
  rw [h.repair_eq hghost hfence hnul]
  refine (Idle.notifyAll _ t).bind fun _ u ⟨_, hu⟩ => ?_
  rw [hu]
  refine (h.idle_early kit t).bind fun _ u ⟨hs, hu⟩ => ?_
  rw [hs, hu]
  refine (idle_resolve kit h t).bind fun _ u ⟨hc, hu⟩ => ?_
  rw [hc, hu]
  refine (idle_count _ _ t).bind fun _ u ⟨_, hu⟩ => ?_
  rw [hu]
  refine (idle_late kit h t).bind fun _ u ⟨hs, hu⟩ => ?_
  rw [hs, hu]
  refine Leads.get.bind fun b u ⟨hb, hu⟩ => .pure ?_
  rw [hb, hu, h.tame.dropLayoutCommands_eq]
  exact ⟨rfl, rfl, rfl, rfl⟩

end Prose

/-- A plain document is reduced to itself. -/
theorem run_markup {ps : List Passage} (hps : ∀ p ∈ ps, p.isPlain = true) (kit : Kit) :
    ∃ e, ((Reduction.run kit (markup ps)).run {}).1 = .ok e ∧
      e.reduced = markup ps ∧ e.table = {} ∧ e.bibliography = none := by
  have hfence : '\x60' ∉ markup ps := not_mem_markup hps (by decide) (by decide)
  have hnul : Repair.nul ∉ markup ps := not_mem_markup hps (by decide) (by decide)
  obtain ⟨e, b, he, hreduced, htable, hbibliography, -⟩ :=
    (prose_markup hps).leads_run (misses_ghostHeader_markup hps) hfence hnul kit {} {} rfl
  exact ⟨e, congrArg Prod.fst he, hreduced, htable, hbibliography⟩

end Galley
