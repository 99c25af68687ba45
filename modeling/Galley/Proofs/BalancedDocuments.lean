import Galley.Proofs.LateStages
import Galley.Proofs.Pictures
import Galley.Proofs.Rewriting
/-!
# Balanced documents

A balanced document is text and environments, nested in any way. Reducing and rewriting it never faults.
Where no picture lies in a picture every stage takes environments out whole, so the document is let
through. A picture ends at the first end marker behind its begin marker, so one that holds another
leaves its own end marker over: unless an environment around it is taken out, the document is refused.
-/

namespace Galley

open Mark Extract.Diagram

/-! ## Reducing a row -/

theorem ends_runStage {kit : Kit} {stage : Reduction.Stage} {s : Text} {P : Text → Prop}
    (h : Bench.Ends (stage.run kit s) P) : Bench.Ends (Reduction.runStage kit s stage) P :=
  Bench.ends_get.bind fun _ _ => h.bind fun _ hs => Bench.ends_get.bind fun _ _ =>
    (Bench.ends_modify _).bind fun _ _ => .pure hs

theorem keeps_late (kit : Kit) : Keeps fun s => Reduction.late.foldlM (Reduction.runStage kit) s := by
  refine Keeps.foldlM fun stage hs d k hd => ends_runStage ?_
  revert d k
  change Keeps (stage.run kit)
  simp only [Reduction.late, List.mem_cons, List.not_mem_nil, or_false] at hs
  rcases hs with rfl | rfl | rfl | rfl | rfl | rfl
  · exact keeps_abstract kit
  · exact keeps_table kit
  · exact keeps_list kit
  · exact keeps_algorithm kit
  · exact keeps_box kit
  · exact keeps_theorem kit

/-- What taking environments out keeps holds of the reduced document if it holds behind the pictures. -/
theorem ends_run (kit : Kit) {raw : Text} {P : List Mark → Prop} (hP : ∀ a b, Cuts isTaken a b → P a → P b)
    (hpictures : Bench.Ends (pictures kit (Repair.repair raw).content) (LeavesRow P)) :
    Bench.Ends (Reduction.run kit raw) fun e => LeavesRow P e.reduced := by
  have keep {d : Row} {k : Nat} (hk : Nested k d.marks) (hp : P d.marks) {t : Text} (ht : Reduces d t) :
      LeavesRow P t := by
    obtain ⟨d', rfl, hcuts⟩ := ht
    obtain ⟨j, hj, -⟩ := hcuts.nested hk
    exact ⟨d', rfl, ⟨j, hj⟩, hP _ _ hcuts hp⟩
  have run {f : Text → Bench Text} (hf : Keeps f) {s : Text} (hs : LeavesRow P s) :
      Bench.Ends (f s) (LeavesRow P) := by
    obtain ⟨d, rfl, ⟨k, hk⟩, hp⟩ := hs
    exact (hf d k hk).mono fun t ht => keep hk hp ht
  have diagram : Bench.Ends (Extract.Diagram.extract kit (Repair.repair raw).content) (LeavesRow P) :=
    hpictures.bind fun s hs => run (keeps_placeholders kit) hs
  have early : Bench.Ends (Reduction.early.foldlM (Reduction.runStage kit) (Repair.repair raw).content)
      (LeavesRow P) := by
    simp only [Reduction.early, List.foldlM_cons, List.foldlM_nil]
    refine (ends_runStage diagram).bind fun s hs => ?_
    refine (ends_runStage (run keeps_image hs)).bind fun s hs => ?_
    refine (ends_runStage (run (keeps_code kit) hs)).bind fun s hs => ?_
    exact (ends_runStage (run (keeps_formula kit) hs)).bind fun s hs => .pure hs
  unfold Reduction.run
  refine (Bench.ends_notifyAll _).bind fun _ _ => early.bind fun s hs => ?_
  obtain ⟨d, rfl, ⟨k, hk⟩, hp⟩ := hs
  refine (Bibliography.ends_resolve kit hk).bind fun citations hc => (Bench.ends_modify _).bind fun _ _ => ?_
  refine (run (keeps_late kit) (keep hk hp hc)).bind fun s hs => ?_
  refine Bench.ends_get.bind fun b _ => .pure ?_
  obtain ⟨d', rfl, hrow⟩ := hs
  dsimp only
  rw [d'.calm.tame.dropLayoutCommands_eq]
  exact ⟨d', rfl, hrow⟩

/-! ## Balanced documents -/

/-- A character that begins no command, formula, group, option or fence and is not for private use. -/
def isTextChar (c : Char) : Bool := isPlainChar c && !(c = '\x60' || c = '[' || c = ']')

/-- Text and environments of any plain name, in any nesting. -/
inductive Outline where
  | nil
  | char (c : Char) (plain : isTextChar c = true) (rest : Outline)
  | environment (name : Text) (plain : isPlainName name = true) (body rest : Outline)

namespace Outline

def source : Outline → Text
  | nil => []
  | char c _ rest => c :: rest.source
  | environment n _ body rest =>
    (Mark.opening n).source ++ body.source ++ (Mark.closing n).source ++ rest.source

def marks : Outline → List Mark
  | nil => []
  | char _ _ rest => rest.marks
  | environment n _ body rest => opening n :: (body.marks ++ closing n :: rest.marks)

/-- How many environments of the name there are. -/
def count (name : Text) : Outline → Nat
  | nil => 0
  | char _ _ rest => rest.count name
  | environment n _ body rest => (if n = name then 1 else 0) + body.count name + rest.count name

/-- Whether an environment of the name lies in another one. -/
def nests (name : Text) : Outline → Bool
  | nil => false
  | char _ _ rest => rest.nests name
  | environment n _ body rest => (n = name && 0 < body.count name) || body.nests name || rest.nests name

/-- Whether an environment of the name holds another one and lies in no environment that some stage
    takes out. -/
def showsNesting (name : Text) : Outline → Bool
  | nil => false
  | char _ _ rest => rest.showsNesting name
  | environment n _ body rest =>
    (n = name && 0 < body.count name) || (!isTaken n && body.showsNesting name) || rest.showsNesting name

def row : Outline → Row
  | nil => []
  | char c h rest => .char c (Bool.and_eq_true_iff.1 h).1 :: rest.row
  | environment n h body rest =>
    .mark (.opening n) (by rwa [name_opening]) :: (body.row ++ .mark (.closing n) (by rwa [name_closing]) :: rest.row)

theorem source_row (o : Outline) : o.row.source = o.source := by
  induction o with
  | nil => rfl
  | char c _ rest ih => simp [row, source, Item.source, ih]
  | environment n _ body rest ihb ih => simp [row, source, Item.source, ihb, ih]

theorem marks_row (o : Outline) : o.row.marks = o.marks := by
  induction o with
  | nil => rfl
  | char c _ rest ih => rw [row, Row.marks_char, ih, marks]
  | environment n _ body rest ihb ih =>
    rw [row, Row.marks_mark, Row.marks_append, Row.marks_mark, ihb, ih, marks]

theorem nested_marks (o : Outline) : Nested 0 o.marks := by
  induction o with
  | nil => exact .nil
  | char _ _ _ ih => exact ih
  | environment n _ _ _ ihb ih => exact ihb.environment n ih

theorem not_mem_source (o : Outline) {c : Char} (hc : c ∈ ['\x60', '[', ']']) : c ∉ o.source := by
  have hmark {m : Mark} (hm : isPlainName m.name = true) : c ∉ m.source := by
    have hne : ¬('a' ≤ c ∧ c ≤ 'z') ∧ c ≠ '{' ∧ c ≠ '}' ∧ c ≠ '\\' := by
      simp only [List.mem_cons, List.not_mem_nil, or_false] at hc
      rcases hc with rfl | rfl | rfl <;> decide
    rw [m.source_eq, List.mem_cons, not_or]
    exact ⟨hne.2.2.2, Mark.not_mem_tail hm hne.1 hne.2.1 hne.2.2.1⟩
  induction o with
  | nil => exact List.not_mem_nil
  | char x hx rest ih =>
    rw [source, List.mem_cons, not_or]
    refine ⟨?_, ih⟩
    rintro rfl
    simp only [List.mem_cons, List.not_mem_nil, or_false] at hc
    rcases hc with rfl | rfl | rfl <;> exact absurd hx (by decide)
  | environment n hn body rest ihb ih =>
    simp only [source, List.mem_append, not_or]
    exact ⟨⟨⟨hmark hn, ihb⟩, hmark hn⟩, ih⟩

theorem count_marks (o : Outline) (name : Text) : o.marks.count (opening name) = o.count name := by
  induction o with
  | nil => rfl
  | char _ _ _ ih => exact ih
  | environment n _ body rest ihb ih =>
    simp only [marks, List.count_cons, List.count_append, ihb, ih, count]
    by_cases hn : n = name
    · simp [hn]
      omega
    · simp [hn]

/-- Where no environment of the name lies in another, each begins where none is open. -/
theorem flat_marks {o : Outline} {name : Text} (h : o.nests name = false) : Flat name o.marks := by
  induction o with
  | nil => intro p q hpq; simp [marks] at hpq
  | char _ _ _ ih => exact ih h
  | environment n hn body rest ihb ih =>
    simp only [nests, Bool.or_eq_false_iff] at h
    obtain ⟨⟨hself, hbody⟩, hrest⟩ := h
    intro p q hpq
    rcases List.cons_eq_append_iff.1 hpq with ⟨rfl, -⟩ | ⟨p, rfl, hp⟩
    · rfl
    rcases List.append_eq_append_iff.1 hp with ⟨c, rfl, hc⟩ | ⟨c, hb, hc⟩
    · rcases List.cons_eq_append_iff.1 hc with ⟨-, hx⟩ | ⟨c, rfl, hr⟩
      · cases hx
      -- behind the whole environment the depth is what it is in the rest
      have hdepth := body.nested_marks.depth_eq rfl name
      rw [← ih hrest c q hr]
      by_cases hn : n = name
      · simp [hn, depth, depth_append, hdepth]
      · simp [hn, depth, depth_append, hdepth, depth_closing_ne hn]
    · rcases List.cons_eq_append_iff.1 hc with ⟨rfl, hx⟩ | ⟨c, rfl, -⟩
      · cases hx
      have hn : n ≠ name := by
        rintro rfl
        have hpos : 0 < body.count n := by
          rw [← count_marks, hb]
          exact List.count_pos_iff.2 (by simp)
        simp [hpos] at hself
      simp only [depth, if_neg hn]
      exact ihb hbody p c hb

theorem nests_of_showsNesting {o : Outline} {name : Text} (h : o.showsNesting name = true) : o.nests name = true := by
  induction o with
  | nil => cases h
  | char _ _ _ ih => exact ih h
  | environment n _ body rest ihb ih =>
    simp only [showsNesting, nests, Bool.or_eq_true, Bool.and_eq_true] at h ⊢
    exact h.imp (Or.imp id fun hb => ihb hb.2) ih

/-- An environment that holds another of its name and lies in no taken one shows in the marks. -/
theorem showsNesting_marks {o : Outline} {name : Text} (h : o.showsNesting name = true) :
    ShowsNesting isTaken name o.marks := by
  induction o with
  | nil => cases h
  | char _ _ _ ih => exact ih h
  | environment n _ body rest ihb ih =>
    simp only [showsNesting, Bool.or_eq_true, Bool.and_eq_true, decide_eq_true_eq, Bool.not_eq_true'] at h
    rcases h with (⟨rfl, hc⟩ | ⟨hn, hb⟩) | hr
    · rw [← count_marks] at hc
      exact ⟨[], body.marks, rest.marks, 0, rfl, .of_nested rest.nested_marks, body.nested_marks, List.count_pos_iff.1 hc⟩
    · obtain ⟨u, x, v, k, hm, hs, hx⟩ := ihb hb
      exact ⟨opening n :: u, x, v ++ closing n :: rest.marks, k, by simp [marks, hm], hs.inside hn rest.nested_marks, hx⟩
    · obtain ⟨u, x, v, k, hm, hs, hx⟩ := ih hr
      have henv := body.nested_marks.environment n .nil
      exact ⟨_ ++ u, x, v, k, by simp [marks, hm], hs.behind henv, hx⟩

theorem repaired (o : Outline) : ∃ d : Row, (Repair.repair o.source).content = d.source ∧ d.marks = o.marks ∧
    '[' ∉ d.source := by
  rw [← source_row]
  obtain ⟨d, hd, hm, hsub⟩ := Repair.repair_source (d := o.row) (by rw [source_row]; exact o.not_mem_source (by decide))
  rw [source_row] at hsub
  exact ⟨d, hd, by rw [hm, marks_row], fun hc => o.not_mem_source (by decide) (hsub.subset hc)⟩

/-! ## Reducing a balanced document -/

theorem ends_run_outline (kit : Kit) (o : Outline) :
    Bench.Ends (Reduction.run kit o.source) fun e => LeavesRow (fun _ => True) e.reduced := by
  obtain ⟨d, hd, hm, hb⟩ := o.repaired
  refine ends_run kit (fun _ _ _ _ => trivial) ?_
  rw [hd]
  exact ends_pictures kit (I := fun _ _ => True) (fun _ _ _ _ _ => trivial) (fun _ _ _ _ => trivial)
    (by rw [hm]; exact o.nested_marks) hb trivial

theorem ends_run_flat (kit : Kit) {o : Outline} (h : o.nests pictureName = false) :
    Bench.Ends (Reduction.run kit o.source) fun e => LeavesRow (Nested 0) e.reduced := by
  obtain ⟨d, hd, hm, hb⟩ := o.repaired
  refine ends_run kit (fun a b hcuts ha => ?_) ?_
  · obtain ⟨j, hj, hz⟩ := hcuts.nested ha
    rwa [hz rfl] at hj
  · rw [hd]
    exact ends_pictures_flat kit (by rw [hm]; exact o.nested_marks) hb (by rw [hm]; exact flat_marks h)

theorem ends_run_stray (kit : Kit) {o : Outline} (h : o.showsNesting pictureName = true)
    (hcap : o.count pictureName ≤ kit.settings.diagramIterationCap) :
    Bench.Ends (Reduction.run kit o.source) fun e => LeavesRow (ShowsStray isTaken) e.reduced := by
  obtain ⟨d, hd, hm, hb⟩ := o.repaired
  refine ends_run kit (fun a b hcuts ha => ha.cuts hcuts) ?_
  rw [hd]
  refine ends_pictures_stray kit (by rw [hm]; exact o.nested_marks) hb (by rw [hm]; exact showsNesting_marks h) ?_
  rwa [pictureCount, hm, count_marks]

end Outline

/-! ## What the gatekeeper says -/

/-- The article of a reduced document. -/
def Reduction.article (today : Date) (e : Reduction) : Text := (Article.rewrite today e.reduced).markup

namespace Integrity

theorem check_of_eq {s : Text} (h : (count s).begins = (count s).ends) : check 0 s = .ok (count s) := by
  have ha : accepts 0 (count s) = true := by simp [accepts, Report.imbalance, h]
  simp [check, ha]

theorem check_of_lt {s : Text} (h : (count s).begins < (count s).ends) : check 0 s = .error (count s).failure := by
  have ha : accepts 0 (count s) = false := by
    refine decide_eq_false ?_
    simp only [Report.imbalance]
    omega
  simp [check, ha]

theorem count_eq_of_nested (today : Date) {e : Reduction} (h : LeavesRow (Nested 0) e.reduced) :
    (count (e.article today)).begins = (count (e.article today)).ends := by
  obtain ⟨d, hd, -, hn⟩ := h
  rw [Reduction.article, hd, Article.count_markup]
  simp only [hn.count, Nat.add_zero]

theorem count_lt_of_stray (today : Date) {e : Reduction} (h : LeavesRow (ShowsStray isTaken) e.reduced) :
    (count (e.article today)).begins < (count (e.article today)).ends := by
  obtain ⟨d, hd, -, hs⟩ := h
  rw [Reduction.article, hd, Article.count_markup]
  exact Nat.succ_lt_succ hs.count_lt

end Integrity

namespace Outline

/-- A balanced document never faults. It is let through where no picture lies in a picture, and refused
    for its end markers where a picture that holds another lies in nothing that is taken out. -/
theorem check_article (kit : Kit) (today : Date) (o : Outline) :
    Bench.Ends (Reduction.run kit o.source) fun e =>
      let r := Integrity.count (e.article today)
      (o.nests pictureName = false →
        r.begins = r.ends ∧ Integrity.check 0 (e.article today) = .ok r) ∧
      (o.showsNesting pictureName = true → o.count pictureName ≤ kit.settings.diagramIterationCap →
        r.begins < r.ends ∧ Integrity.check 0 (e.article today) = .error r.failure) := by
  cases hn : o.nests pictureName with
  | false =>
    refine (ends_run_flat kit hn).mono fun e he => ⟨fun _ => ?_, fun hs => ?_⟩
    · have heq := Integrity.count_eq_of_nested today he
      exact ⟨heq, Integrity.check_of_eq heq⟩
    · rw [nests_of_showsNesting hs] at hn
      cases hn
  | true =>
    by_cases hs : o.showsNesting pictureName = true ∧ o.count pictureName ≤ kit.settings.diagramIterationCap
    · refine (ends_run_stray kit hs.1 hs.2).mono fun e he => ⟨by simp, fun _ _ => ?_⟩
      have hlt := Integrity.count_lt_of_stray today he
      exact ⟨hlt, Integrity.check_of_lt hlt⟩
    · exact (ends_run_outline kit o).mono fun e _ => ⟨by simp, fun h hc => absurd ⟨h, hc⟩ hs⟩

/-- A picture in a list. -/
def listedPicture : Outline :=
  .environment "itemize" (by decide) (.environment "tikzpicture" (by decide) .nil .nil) .nil

/-- A picture in a picture. -/
def nestedPicture : Outline :=
  .environment "tikzpicture" (by decide) (.environment "tikzpicture" (by decide) .nil .nil) .nil

theorem check_article_pictures :
    (Bench.Ends (Reduction.run {} listedPicture.source) fun e =>
      Integrity.check 0 (e.article ⟨2024, 1, 1⟩) = .ok (Integrity.count (e.article ⟨2024, 1, 1⟩))) ∧
    Bench.Ends (Reduction.run {} nestedPicture.source) fun e =>
      Integrity.check 0 (e.article ⟨2024, 1, 1⟩) = .error (Integrity.count (e.article ⟨2024, 1, 1⟩)).failure :=
  ⟨(check_article {} ⟨2024, 1, 1⟩ listedPicture).mono fun _ h => (h.1 (by decide)).2,
    (check_article {} ⟨2024, 1, 1⟩ nestedPicture).mono fun _ h => (h.2 (by decide) (by decide)).2⟩

/-- A balanced document whose article has more end markers than begin markers. -/
theorem nestedPicture_refused :
    nestedPicture.source = "\\begin\x7btikzpicture\x7d\\begin\x7btikzpicture\x7d\\end\x7btikzpicture\x7d\\end\x7btikzpicture\x7d" ∧
    Bench.Ends (Reduction.run {} nestedPicture.source) fun e =>
      (Integrity.count (e.article ⟨2024, 1, 1⟩)).begins < (Integrity.count (e.article ⟨2024, 1, 1⟩)).ends ∧
      Integrity.check 0 (e.article ⟨2024, 1, 1⟩) = .error (Integrity.count (e.article ⟨2024, 1, 1⟩)).failure := by
  refine ⟨by decide, (ends_run_stray {} (by decide) (by decide)).mono fun e he => ?_⟩
  have hlt := Integrity.count_lt_of_stray ⟨2024, 1, 1⟩ he
  exact ⟨hlt, Integrity.check_of_lt hlt⟩

end Outline

end Galley
