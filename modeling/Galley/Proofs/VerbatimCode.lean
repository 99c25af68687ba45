import Galley.Proofs.Characters
import Galley.Proofs.Mending
import Galley.Proofs.PlainText
import Galley.Proofs.WholeTokens
/-!
# Code that is shown literally

A document of one code environment keeps its code through the repairs and through every stage, so the code is
shown character by character (`run_document`), unless a stage before the code finds something of its own in it:
then what that stage makes of it is shown as code (`imageInCode_shown`).
-/

namespace Galley.Verbatim

open Bench (Idle Leads)

def opening : Text := "\\begin\x7bverbatim\x7d"

def closing : Text := "\\end\x7bverbatim\x7d"

/-- A code environment whose lines are `code`. -/
def document (code : Text) : Text := opening ++ '\n' :: (code ++ '\n' :: closing)

/-! ## Where the environment ends -/

theorem after?_within {c : Char} {p : Text} (hc : c ∉ p) (u v : Text) :
    Text.after? p (u ++ c :: v) = (Text.after? p u).map (· ++ c :: v) := by
  induction p generalizing u with
  | nil => rfl
  | cons a p ih =>
    simp only [List.mem_cons, not_or] at hc
    cases u with
    | nil => simp [Text.after?, Ne.symm hc.1]
    | cons x u =>
      simp only [List.cons_append, Text.after?]
      split
      · exact ih hc.2 u
      · rfl

/-- A marker in front of a line that begins with a backslash ends on its own line. -/
theorem marker_within {word name : Text} (hword : '\n' ∉ word) (hname : '\n' ∉ name) {u v : Text}
    (h : Marker.after? word name u = none) : Marker.after? word name (u ++ '\n' :: '\\' :: v) = none := by
  have hword : '\n' ∉ '\\' :: word := by simpa using hword
  simp only [Marker.after?, Option.bind_eq_bind, after?_within hword] at h ⊢
  cases h₁ : Text.after? ('\\' :: word) u with
  | none => rfl
  | some u₁ =>
    rw [h₁, Option.bind_some] at h
    rw [Option.map_some, Option.bind_some]
    rw [List.dropWhile_append]
    cases hdrop : u₁.dropWhile isBlank with
    | nil => rfl
    | cons c r =>
      rw [hdrop] at h
      rw [List.isEmpty_cons, if_neg (by decide), after?_within (by decide)]
      cases h₂ : Text.after? "\x7b" (c :: r) with
      | none => rfl
      | some u₂ =>
        rw [h₂, Option.bind_some] at h
        rw [Option.map_some, Option.bind_some, after?_within hname]
        cases h₃ : Text.after? name u₂ with
        | none => rfl
        | some u₃ =>
          rw [h₃, Option.bind_some] at h
          rw [Option.map_some, Option.bind_some, after?_within (by decide), h]
          rfl

/-- The code of a document ends where the document does. -/
theorem find?_closing {code : Text} (h : Text.Misses (Marker.ends "verbatim") code) :
    Text.find? (Marker.ends "verbatim") ('\n' :: (code ++ '\n' :: closing)) =
      some ⟨'\n' :: (code ++ "\n"), (), closing, []⟩ := by
  have hnone (b : Option Char) (u : Text) (hu : u <:+ code) : Marker.ends "verbatim" b (u ++ '\n' :: closing) = none := by
    have hmiss := h none u hu
    rw [Marker.ends, Option.map_eq_none_iff] at hmiss
    rw [Marker.ends, show closing = '\\' :: "end\x7bverbatim\x7d".toList from rfl,
      marker_within (by decide) (by decide) hmiss]
    rfl
  have hall (b : Option Char) (u : Text) (hu : u <:+ '\n' :: (code ++ "\n")) (hne : u ≠ []) :
      Marker.ends "verbatim" b (u ++ closing) = none := by
    rcases List.suffix_cons_iff.1 hu with rfl | hu
    · rfl
    · rcases List.suffix_concat_iff.1 hu with rfl | ⟨v, rfl, hv⟩
      · exact absurd rfl hne
      · rw [List.append_assoc]
        exact hnone b v hv
  have hjoin := Text.findFrom_join hall (fun _ => (rfl : _ = some ((), []))) (by decide) none
  rw [List.cons_append, List.append_assoc] at hjoin
  exact hjoin

/-! ## Repairs -/

theorem concat_of_suffix {code t : Text} (h : t <:+ document code) (hne : t ≠ []) : ∃ v, t = v ++ ['}'] := by
  have hdoc : document code = opening ++ '\n' :: (code ++ "\n\\end\x7bverbatim".toList) ++ ['}'] := by
    simp only [document, List.append_assoc, List.cons_append]
    rfl
  rw [hdoc, List.suffix_concat_iff] at h
  rcases h with rfl | ⟨v, rfl, -⟩
  · exact absurd rfl hne
  · exact ⟨v, rfl⟩

theorem stripFences_document (code : Text) : Repair.stripFences (document code) = document code := by
  have hopening : Repair.afterOpeningFence? (document code) = none := rfl
  have hfence (t rest : Text) (ht : t <:+ document code) (hr : Text.after? Repair.fence t = some rest) :
      rest.all isBlank = false := by
    obtain rfl := Text.after?_eq_some_iff.1 hr
    obtain ⟨v, hv⟩ := concat_of_suffix ht (by simp [Repair.fence])
    rcases List.eq_nil_or_concat rest with rfl | ⟨r, x, rfl⟩
    · have hmem : '}' ∈ Repair.fence := by
        rw [List.append_nil] at hv
        rw [hv]
        simp
      exact absurd hmem (by decide)
    · rw [List.concat_eq_append, ← List.append_assoc] at hv
      obtain ⟨-, rfl⟩ := List.append_singleton_inj.1 hv
      simp [show isBlank '}' = false by decide]
  have hclosing : Text.Misses Repair.closingFence (document code) := by
    intro before t ht
    have hnone (u : Text) (hu : u <:+ document code) : (do
        let rest ← Text.after? Repair.fence u
        if rest.all isBlank then some ((), []) else none) = (none : Option (Unit × Text)) := by
      cases hr : Text.after? Repair.fence u with
      | none => rfl
      | some rest =>
        rw [Option.bind_eq_bind, Option.bind_some, hfence u rest hu hr]
        rfl
    unfold Repair.closingFence
    split
    · exact hnone _ ((List.suffix_cons _ _).trans ht)
    · exact hnone _ ht
  rw [Repair.stripFences, hopening, Option.getD_none, hclosing.find?_eq]

/-- A document whose code ends nowhere else is set aside whole, so nothing in it is mended. -/
theorem repair_document {code : Text} (hend : Text.Misses (Marker.ends "verbatim") code) (hnul : Repair.nul ∉ code) :
    Repair.repair (document code) = { content := document code } := by
  have hread : Repair.verbatim none (document code) = some ((), []) := by
    have hhead : Repair.verbatim none (document code) =
        (Text.find? (Marker.ends "verbatim") ('\n' :: (code ++ '\n' :: closing))).map fun f => ((), f.after) := rfl
    rw [hhead, find?_closing hend]
    rfl
  have hcut : Text.cut Repair.verbatim (document code) = [.hit () (document code)] := by
    have hforward : Text.Forward Repair.verbatim := fun _ _ _ => rfl
    have hcons : document code = '\\' :: (document code).tail := rfl
    rw [hcons] at hread ⊢
    rw [hforward.cut_hit hread (List.append_nil _).symm]
    rfl
  have hclean : (document code).filter (· ≠ Repair.nul) = document code := by
    rw [List.filter_eq_self]
    intro c hc
    have hne : c ≠ Repair.nul := by
      rintro rfl
      simp only [document, List.mem_append, List.mem_cons] at hc
      rcases hc with hc | hc | hc | hc | hc
      · exact absurd hc (by decide)
      · exact absurd hc (by decide)
      · exact hnul hc
      · exact absurd hc (by decide)
      · exact absurd hc (by decide)
    simpa using hne
  have hshelter : Repair.shelter (document code) = (Repair.shelterMark 0, [document code]) := by
    rw [Repair.shelter, hclean, hcut]
    rfl
  have hmend : Repair.mend (Repair.shelterMark 0) = { content := Repair.shelterMark 0 } := by
    have hplain : Plain (Repair.shelterMark 0) := ⟨by decide, by decide, by decide, by decide⟩
    exact hplain.calm.mend_eq
  have hunshelter : Repair.unshelter [document code] (Repair.shelterMark 0) = document code := by
    have hforward : Text.Forward Repair.shelterReader := fun _ _ t => by cases t <;> rfl
    have hmark : Repair.shelterReader none (Repair.nul :: ['0', Repair.nul]) = some (0, []) := by decide
    rw [Repair.unshelter, Text.replaceAll, show Repair.shelterMark 0 = Repair.nul :: ['0', Repair.nul] by decide,
      hforward.cut_hit hmark (List.append_nil _).symm]
    exact List.append_nil _
  rw [Repair.repair, stripFences_document, hshelter]
  simp only [hmend, hunshelter]
  rfl

/-! ## The stages before the code -/

/-- The stages before the code take nothing out of the text: no picture that ends, no diagram that closes and no
    image that can be read is in it. -/
structure Undisturbed (s : Text) : Prop where
  picture : ∀ f, Text.find? (Marker.begins "tikzpicture") s = some f →
    Text.find? (Marker.ends "tikzpicture") ((Group.read? .bracket f.after true).getD ([], f.after)).2 = none
  diagram : ∀ p ∈ Extract.Diagram.placeholders, ∀ e, Environment.find p.1 s ≠ .ok (some e)
  image : ∀ path ∈ s.readAll Extract.Image.reader, path = none

theorem idle_diagram (kit : Kit) {s : Text} (h : Undisturbed s) : Idle (Extract.Diagram.extract kit s) s := by
  have hpicture (n : Nat) : Idle (Extract.Diagram.picture kit n s) none := by
    unfold Extract.Diagram.picture
    cases hf : Text.find? (Marker.begins "tikzpicture") s with
    | none => exact .pure none
    | some f =>
      have hends := h.picture f hf
      simp only [hends]
      exact (Idle.notify _).bind (.pure none)
  have hpictures : Idle (Extract.Diagram.pictures kit s) s :=
    Idle.bind (Idle.rounds (a := (0, s)) ((hpicture 1).bind (Idle.pure (none : Option (Nat × Text))))) (Idle.pure s)
  refine hpictures.bind (Idle.foldlM fun p hp => Idle.rounds ?_)
  cases hfind : Environment.find p.1 s with
  | error u => exact (Idle.notify _).bind (.pure none)
  | ok e =>
    cases e with
    | none => exact .pure none
    | some e => exact absurd hfind (h.diagram p hp e)

theorem mapM_sources {α : Type} {f : Piece α → Bench Text} {ps : List (Piece α)} (h : ∀ p ∈ ps, f p = pure p.source) :
    ps.mapM f = pure (ps.map Piece.source) := by
  induction ps with
  | nil => rfl
  | cons p ps ih =>
    rw [List.mapM_cons, h p List.mem_cons_self, ih fun q hq => h q (List.mem_cons_of_mem p hq), pure_bind, pure_bind,
      List.map_cons]

theorem idle_image {s : Text} (h : Undisturbed s) : Idle (Extract.Image.extract s) s := by
  have hrun : Extract.Image.extract s = pure s := by
    unfold Extract.Image.extract
    rw [mapM_sources, pure_bind, ← List.flatMap_def]
    · exact congrArg pure (Text.sources_cut s)
    · intro p hp
      match p with
      | .char c => rfl
      | .hit none source => rfl
      | .hit (some path) source => cases h.image (some path) (List.mem_filterMap.2 ⟨_, hp, rfl⟩)
  rw [hrun]
  exact .pure s

/-! ## The code -/

/-- What the lines of `code` are shown as. -/
def fragment (code : Text) : Text :=
  "<pre class=\"latex-verbatim\"><code>" ++ Html.escapeQuoted (Text.stripRight code) ++ "</code></pre>"

/-- The lines of a placeholder. -/
def lines (token : Text) : Text := "\n\n" ++ token ++ "\n\n"

theorem stripRight_line (code : Text) : Text.stripRight (code ++ "\n") = Text.stripRight code := by
  rw [Text.stripRight, Text.stripRight, Text.dropWhileRight, Text.dropWhileRight, List.reverse_append]
  rfl

theorem blockFragment_lines (code : Text) : Extract.Code.blockFragment none ('\n' :: (code ++ "\n")) = fragment code := by
  have htag : "<pre class=\"latex-verbatim\"><code".toList ++ Extract.Code.languageClass none ++ ">".toList =
      "<pre class=\"latex-verbatim\"><code>".toList := by decide
  have hcode : Html.escapeQuoted (Text.stripRight (Extract.Code.dropFirstLine ('\n' :: (code ++ "\n")))) =
      Html.escapeQuoted (Text.stripRight code) := congrArg Html.escapeQuoted (stripRight_line code)
  unfold Extract.Code.blockFragment fragment
  refine congrArg (· ++ "</code></pre>".toList) ?_
  exact congr (congrArg HAppend.hAppend htag) hcode

theorem plain_lines (kind : Block.Kind) (n : Nat) : Plain (lines (Block.Token.ofNumber kind n)) := by
  refine .of_placeholder fun c hc => ?_
  have hbreak : ∀ c ∈ "\n\n".toList, isPlaceholderChar c = true := List.all_eq_true.1 (by decide)
  simp only [lines, List.mem_append] at hc
  rcases hc with (hc | hc) | hc
  · exact hbreak c hc
  · exact Block.Token.isPlaceholderChar_of_mem hc
  · exact hbreak c hc

theorem find?_opening (code : Text) : Text.find? (Marker.beginsAny Repair.verbatimNames) (document code) =
    some ⟨[], "verbatim".toList, opening, '\n' :: (code ++ '\n' :: closing)⟩ := by
  have hread : Marker.beginsAny Repair.verbatimNames none (document code) =
      some ("verbatim".toList, '\n' :: (code ++ '\n' :: closing)) := rfl
  have hupTo : Text.upTo (document code) ('\n' :: (code ++ '\n' :: closing)) = opening := Text.upTo_append_rest opening _
  rw [Text.find?, show document code = '\\' :: (document code).tail from rfl, Text.findFrom,
    show '\\' :: (document code).tail = document code from rfl, hread]
  simp only [hupTo]

theorem language_lines (code : Text) : Extract.Code.language "verbatim".toList ('\n' :: code) = (none, '\n' :: code) := rfl

/-- The lines of a document become one fragment, whose placeholder is all that is left. -/
theorem leads_environments (kit : Kit) (hcap : 1 ≤ kit.settings.environmentIterationCap) (t : Block.Table) {code : Text}
    (hend : Text.Misses (Marker.ends "verbatim") code) :
    Leads t (Extract.Code.environments kit (document code)) fun s u =>
      s = lines (Block.Token.ofNumber .verbatim (t.issued + 1)) ∧ u = (t.register .verbatim (fragment code)).2 := by
  refine Leads.rounds_once (by exact_mod_cast hcap) ?_ ?_
  · simp only [find?_opening, language_lines, find?_closing hend, blockFragment_lines]
    refine (Leads.register .verbatim (fragment code) true).bind fun a u ⟨ha, hu⟩ => .pure ⟨?_, hu⟩
    rw [ha, if_pos rfl, List.append_nil, List.nil_append]
    rfl
  · have hn : Repair.verbatimNames.all isOther = true := by decide
    simp only [((plain_lines .verbatim (t.issued + 1)).prose.misses_beginsAny hn).find?_eq]
    exact .pure none

theorem leads_code (kit : Kit) (hcap : 1 ≤ kit.settings.environmentIterationCap) (t : Block.Table) {code : Text}
    (hend : Text.Misses (Marker.ends "verbatim") code) :
    Leads t (Extract.Code.extract kit (document code)) fun s u =>
      s = lines (Block.Token.ofNumber .verbatim (t.issued + 1)) ∧ u = (t.register .verbatim (fragment code)).2 := by
  have htame := (plain_lines .verbatim (t.issued + 1)).calm.tame
  refine (leads_environments kit hcap t hend).bind fun s u ⟨hs, hu⟩ => ?_
  rw [hs, hu]
  rw [htame.inline_eq]
  exact .pure ⟨rfl, rfl⟩

/-! ## The whole document -/

theorem misses_reader {s : Text} (h : 'W' ∉ s) : Text.Misses Block.Token.reader s := by
  intro before t ht
  rw [Block.forward_reader before none]
  refine Block.reader_eq_none fun hw => h (ht.subset (hw.subset ?_))
  decide

theorem not_mem_fragment {code : Text} (h : 'W' ∉ code) : 'W' ∉ fragment code := by
  have hok (c : Char) (_ : c.toNat < 128) (hc : c ≠ 'W') : decide (c ≠ 'W') = true := decide_eq_true hc
  have hcode : Within (fun c => c ≠ 'W') (Text.stripRight code) :=
    Within.of_not_mem fun hc => h ((Text.prefix_of_dropWhileRight isBlank code).subset hc)
  have hstart : Within (fun c => c ≠ 'W') "<pre class=\"latex-verbatim\"><code>" := Within.ascii hok (by decide)
  exact Within.not_mem ((hstart.append (hcode.escapeQuoted hok)).append (Within.ascii hok (by decide)))

theorem register_empty {code : Text} (h : 'W' ∉ code) :
    (({} : Block.Table).register .verbatim (fragment code)).2 =
      { issued := 1, entries := [(Block.Token.ofNumber .verbatim 1, fragment code)] } := by
  have habsorb (t : Block.Table) (s : Text) : t.absorbPieces (s.map Piece.char) = (s, t) := by
    induction s with
    | nil => rfl
    | cons c s ih => simp only [List.map_cons, Block.Table.absorbPieces, ih]
  simp only [Block.Table.register, Block.Table.absorb, (misses_reader (not_mem_fragment h)).cut_eq, habsorb]
  rfl

/-- Code that the stages before it leave alone is shown character by character: one token is left, and its fragment
    is the code, escaped. -/
theorem run_document (kit : Kit) (hcap : 1 ≤ kit.settings.environmentIterationCap) {code : Text}
    (hend : Text.Misses (Marker.ends "verbatim") code) (hnul : Repair.nul ∉ code) (hword : 'W' ∉ code)
    (h : Undisturbed (document code)) :
    ∃ e, ((Reduction.run kit (document code)).run {}).1 = .ok e ∧
      e.reduced = lines (Block.Token.ofNumber .verbatim 1) ∧
      e.table.entries = [(Block.Token.ofNumber .verbatim 1, fragment code)] := by
  have hplain := plain_lines .verbatim 1
  have hearly : Leads {} (Reduction.early.foldlM (Reduction.runStage kit) (document code)) fun s u =>
      s = lines (Block.Token.ofNumber .verbatim 1) ∧ u = (({} : Block.Table).register .verbatim (fragment code)).2 := by
    refine (leads_runStage ⟨"diagram", Extract.Diagram.extract⟩ (idle_diagram kit h {})).bind fun s u ⟨hs, hu⟩ => ?_
    rw [hs, hu]
    refine (leads_runStage ⟨"image", fun _ => Extract.Image.extract⟩ (idle_image h {})).bind fun s u ⟨hs, hu⟩ => ?_
    rw [hs, hu]
    refine (leads_runStage ⟨"code", Extract.Code.extract⟩ (leads_code kit hcap {} hend)).bind fun s u ⟨hs, hu⟩ => ?_
    rw [hs, hu]
    refine (leads_runStage ⟨"math", Extract.Formula.extract⟩ (idle_formula kit hplain.prose _)).bind fun s u ⟨hs, hu⟩ => ?_
    exact .pure ⟨hs, hu⟩
  have hrun : Leads {} (Reduction.run kit (document code)) fun e _ =>
      e.reduced = lines (Block.Token.ofNumber .verbatim 1) ∧
      e.table.entries = [(Block.Token.ofNumber .verbatim 1, fragment code)] := by
    unfold Reduction.run
    rw [repair_document hend hnul]
    refine (Idle.notifyAll _ _).bind fun _ u ⟨_, hu⟩ => ?_
    rw [hu]
    refine hearly.bind fun s u ⟨hs, hu⟩ => ?_
    rw [hs, hu, register_empty hword]
    refine (idle_resolve kit hplain.prose _).bind fun c u ⟨hc, hu⟩ => ?_
    rw [hc, hu]
    refine (idle_count _ _ _).bind fun _ u ⟨_, hu⟩ => ?_
    rw [hu]
    refine (idle_late kit hplain.prose _).bind fun s u ⟨hs, hu⟩ => ?_
    rw [hs, hu]
    refine Leads.get.bind fun b u ⟨hb, _⟩ => .pure ?_
    exact ⟨hplain.calm.tame.dropLayoutCommands_eq, by rw [hb]⟩
  obtain ⟨e, b, he, hq⟩ := hrun {} rfl
  exact ⟨e, congrArg Prod.fst he, hq⟩

theorem forward_ends (name : Text) : Text.Forward (Marker.ends name) := fun _ _ _ => rfl

/-- A formula, a citation and a command that reads a file, shown as code. -/
theorem run_document_formula :
    ∃ e, ((Reduction.run {} (document "$x<y$ \\cite\x7bk\x7d \\input\x7bf\x7d")).run {}).1 = .ok e ∧
      e.reduced = lines (Block.Token.ofNumber .verbatim 1) ∧
      e.table.entries = [(Block.Token.ofNumber .verbatim 1, fragment "$x<y$ \\cite\x7bk\x7d \\input\x7bf\x7d")] := by
  have hpicture : Text.find? (Marker.begins "tikzpicture") (document "$x<y$ \\cite\x7bk\x7d \\input\x7bf\x7d") = none := by rfl
  have hdiagram : ∀ p ∈ Extract.Diagram.placeholders,
      Text.find? (Marker.begins p.1) (document "$x<y$ \\cite\x7bk\x7d \\input\x7bf\x7d") = none := by
    intro p hp
    simp only [Extract.Diagram.placeholders, List.mem_cons, List.not_mem_nil, or_false] at hp
    rcases hp with rfl | rfl | rfl <;> rfl
  have himage : (document "$x<y$ \\cite\x7bk\x7d \\input\x7bf\x7d").readAll Extract.Image.reader = [] := by decide
  refine run_document {} (by decide) ((forward_ends _).misses_of_find?_eq_none (by rfl) (by rfl)) (by decide) (by decide)
    ⟨fun f hf => ?_, fun p hp e he => ?_, fun path hp => ?_⟩
  · rw [hpicture] at hf
    cases hf
  · rw [Environment.find, hdiagram p hp] at he
    cases he
  · rw [himage] at hp
    cases hp

/-- An image command in code is not shown as it is written. -/
theorem imageInCode_shown :
    Text.find? (Marker.ends "verbatim") "\\includegraphics\x7ba.png\x7d" = none ∧
    Repair.nul ∉ "\\includegraphics\x7ba.png\x7d".toList ∧ 'W' ∉ "\\includegraphics\x7ba.png\x7d".toList ∧
    ∃ e, ((Reduction.run {} (document "\\includegraphics\x7ba.png\x7d")).run {}).1 = .ok e ∧
      ∀ token, (token, fragment "\\includegraphics\x7ba.png\x7d") ∉ e.table.entries := by
  refine ⟨by rfl, by decide, by decide, ?_⟩
  have hrun : (match ((Reduction.run {} (document "\\includegraphics\x7ba.png\x7d")).run {}).1 with
      | .ok e => e.table.entries.all fun entry => entry.2 ≠ fragment "\\includegraphics\x7ba.png\x7d"
      | .error _ => false) = true := by decide +kernel
  cases h : ((Reduction.run {} (document "\\includegraphics\x7ba.png\x7d")).run {}).1 with
  | error f =>
    rw [h] at hrun
    cases hrun
  | ok e =>
    rw [h] at hrun
    refine ⟨e, rfl, fun token hm => ?_⟩
    exact absurd rfl (of_decide_eq_true (List.all_eq_true.1 hrun _ hm))

end Galley.Verbatim
