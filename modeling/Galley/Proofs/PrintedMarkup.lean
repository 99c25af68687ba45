import Galley.Proofs.LegibleTokens
/-!
# Reading printed markup back

Start tags and notes that are printed are read back whole, whatever follows them: attributes whose values stand in
quotes of either kind (`reads_startTag`), and notes that hold nothing that ends them (`whole_note`). A declaration is
printed as an instruction and so ends at its first `>`; what stands behind that is read as markup.
-/

namespace Galley.Html

/-! ## Attributes -/

/-- A value is printed between two quotes of one kind that it does not hold. -/
theorem quoteValue_eq (s : Text) : ∃ q v, (q = '"' ∨ q = '\'') ∧ q ∉ v ∧ quoteValue s = q :: (v ++ [q]) := by
  unfold quoteValue
  split_ifs with hdouble hsingle
  · refine ⟨'"', _, .inl rfl, fun hm => ?_, rfl⟩
    obtain ⟨c, -, hc⟩ := List.mem_flatMap.1 hm
    split_ifs at hc with he
    · exact absurd hc (by decide)
    · exact he (List.mem_singleton.1 hc).symm
  · exact ⟨'\'', s, .inr rfl, by simpa using hsingle, rfl⟩
  · exact ⟨'"', s, .inl rfl, by simpa using hdouble, rfl⟩

theorem printAttribute_eq {a : Attribute} (h : Legible a) :
    ∃ w : WrittenAttribute, w.Readable ∧ w.name = a.1 ∧ w.source = printAttribute a := by
  obtain ⟨q, v, hq, hv, hvalue⟩ := quoteValue_eq (escape a.2)
  refine ⟨⟨a.1, q, v⟩, ⟨h.name, hq, hv⟩, rfl, ?_⟩
  rw [printAttribute, hvalue, WrittenAttribute.source]
  simp

theorem flatMap_printAttribute_eq {as : List Attribute} (h : ∀ a ∈ as, Legible a) :
    ∃ ws : List WrittenAttribute, (∀ w ∈ ws, w.Readable ∧ ∃ a ∈ as, w.name = a.1) ∧
      ws.flatMap WrittenAttribute.source = as.flatMap printAttribute := by
  induction as with
  | nil => exact ⟨[], by simp, rfl⟩
  | cons a as ih =>
    obtain ⟨ha, has⟩ := List.forall_mem_cons.1 h
    obtain ⟨w, hw, hname, hsource⟩ := printAttribute_eq ha
    obtain ⟨ws, hws, hsources⟩ := ih has
    refine ⟨w :: ws, List.forall_mem_cons.2 ⟨⟨hw, a, List.mem_cons_self, hname⟩, fun w hw => ?_⟩, ?_⟩
    · obtain ⟨hread, a', ha', he⟩ := hws w hw
      exact ⟨hread, a', List.mem_cons_of_mem a ha', he⟩
    · rw [List.flatMap_cons, List.flatMap_cons, hsource, hsources]

/-! ## Tags -/

variable {P : Token → Prop}

/-- A printed start tag is read back with attributes of the same names. -/
theorem reads_startTag {name : Text} {as : List Attribute} (hname : isTagName name = true) (hlower : Text.lower name = name)
    (hraw : name ∉ rawNames) (has : ∀ a ∈ as, Legible a)
    (hP : ∀ bs : List Attribute, (∀ b ∈ bs, ∃ a ∈ as, b.1 = a.1) → P (.start name bs false)) :
    Reads P (name ++ (as.flatMap printAttribute ++ ['>'])) := by
  intro rest
  obtain ⟨ws, hws, hsource⟩ := flatMap_printAttribute_eq has
  have hread := construct_start hname (fun w hw => (hws w hw).1) none rest
  rw [hsource, hlower] at hread
  refine ⟨_, by simpa using hread, hP _ fun b hb => ?_, by simp [rawAfter, hraw]⟩
  obtain ⟨w, hw, rfl⟩ := List.mem_map.1 (mem_keepLast hb)
  obtain ⟨-, a, ha, he⟩ := hws w hw
  exact ⟨a, ha, by rw [WrittenAttribute.asRead, he, (has a ha).lower]⟩

theorem reads_endTag {name : Text} (hname : isTagName name = true) (hP : ∀ name, P (.stop name)) :
    Reads P ('/' :: (name ++ ['>'])) := by
  intro rest
  exact ⟨.stop (Text.lower name), by simpa using construct_stop hname rest, hP _, rfl⟩

/-! ## Notes -/

/-- No comment ends early in front of its end. -/
theorem commentEnd_append {b : Option Char} {u : Text} (hne : u ≠ []) (h : commentEnd b u = none) (w : Text) :
    commentEnd b (u ++ '-' :: '-' :: '>' :: w) = none := by
  have hone (s : Text) : pastGap? ('-' :: s) = none := pastGap?_append (s := []) rfl (by decide) (by decide) s
  match u with
  | [] => exact absurd rfl hne
  | [c] =>
    by_cases hc : c = '-'
    · subst hc
      exact hone ('>' :: w)
    · unfold commentEnd
      simp [hc]
  | c :: d :: u =>
    by_cases hcd : c = '-' ∧ d = '-'
    · obtain ⟨rfl, rfl⟩ := hcd
      exact pastGap?_append (s := u) h (by decide) (by decide) _
    · unfold commentEnd
      split
      · rename_i he
        obtain ⟨hc, he⟩ := List.cons.inj he
        exact absurd ⟨hc, (List.cons.inj he).1⟩ hcd
      · rfl

/-- No section ends early in front of its end. -/
theorem sectionEnd_append {b : Option Char} {u : Text} (hne : u ≠ []) (h : sectionEnd b u = none) (w : Text) :
    sectionEnd b (u ++ ']' :: ']' :: '>' :: w) = none := by
  have hone (s : Text) : pastGap? (']' :: s) = none := pastGap?_append (s := []) rfl (by decide) (by decide) s
  cases u with
  | nil => exact absurd rfl hne
  | cons c u =>
    by_cases hc : c = ']'
    · subst hc
      rw [sectionEnd_bracket] at h
      rw [List.cons_append, sectionEnd_bracket, List.dropWhile_append]
      cases hu : u.dropWhile isBlank with
      | nil => exact hone ('>' :: w)
      | cons d v =>
        rw [hu] at h
        by_cases hd : d = ']'
        · subst hd
          exact pastGap?_append (s := v) h (by decide) (by decide) _
        · exact conditionEnd_of_ne hd _
    · exact sectionEnd_of_ne hc _

theorem construct_comment {s : Text} (h : NoteKind.comment.Fits s) (rest : Text) :
    construct none ('!' :: '-' :: '-' :: (s ++ '-' :: '-' :: '>' :: rest)) = .tokens [.note .comment s] rest := by
  have hfind : Text.find? commentEnd (s ++ '-' :: '-' :: '>' :: rest) =
      some ⟨s, (), Text.upTo ('-' :: '-' :: '>' :: rest) rest, rest⟩ :=
    Text.findFrom_join (fun b u hu hne => commentEnd_append hne (h b u hu) rest) (fun _ => rfl) (by simp) none
  have hafter (t : Text) : Text.after? "--" ('-' :: '-' :: t) = some t := Text.after?_append "--" t
  rw [construct, declaration, hafter]
  simp only [hfind]

theorem construct_doctype {s : Text} (h : NoteKind.doctype.Fits s) (rest : Text) :
    construct none ('!' :: ("DOCTYPE " ++ (s ++ '>' :: rest))) = .tokens [.note .doctype s] rest := by
  have hclosed : Text.closedBy '>' ("DOCTYPE " ++ (s ++ '>' :: rest)) = some ("DOCTYPE " ++ s, rest) :=
    Text.closedBy_eq_some_iff.2 ⟨fun hm => (List.mem_append.1 hm).elim (by decide) h, (List.append_assoc _ _ _).symm⟩
  have hword : Text.startsWith (("DOCTYPE " ++ s).map Char.toLower) "doctype" = true := by
    rw [List.map_append]
    rfl
  have hhyphens (t : Text) : Text.after? "--" ("DOCTYPE ".toList ++ t) = none := rfl
  have hbracket (t : Text) : Text.after? "[" ("DOCTYPE ".toList ++ t) = none := rfl
  rw [construct, declaration, hhyphens, hbracket, hclosed]
  simp only [hword, if_true]
  rfl

theorem construct_raw {s : Text} (h : NoteKind.raw.Fits s) (rest : Text) :
    construct none ('!' :: ("[CDATA[" ++ (s ++ ']' :: ']' :: '>' :: rest))) = .tokens [.note .raw s] rest := by
  have hinside (b : Option Char) (u : Text) (hu : u <:+ "CDATA[".toList ++ s) (hne : u ≠ []) :
      sectionEnd b (u ++ ']' :: ']' :: '>' :: rest) = none := by
    -- what reaches into the word begins with one of its characters, and none of them is a closing bracket
    rcases Text.suffix_append_cases hu with hu | ⟨v, hv, hword, rfl⟩
    · exact sectionEnd_append hne (h b u hu) rest
    · obtain ⟨c, v, rfl⟩ := List.exists_cons_of_ne_nil hv
      have hc : c ≠ ']' := fun hc => (by decide : ']' ∉ "CDATA[".toList) (hc ▸ hword.subset List.mem_cons_self)
      exact sectionEnd_of_ne hc _
  have hfind : Text.find? sectionEnd ("CDATA[" ++ (s ++ ']' :: ']' :: '>' :: rest)) =
      some ⟨"CDATA[" ++ s, (), Text.upTo (']' :: ']' :: '>' :: rest) rest, rest⟩ := by
    rw [← List.append_assoc]
    exact Text.findFrom_join hinside (fun _ => rfl) (by simp) none
  have hword : conditionWords.contains (sectionWord ("CDATA[" ++ (s ++ ']' :: ']' :: '>' :: rest))) = false := by
    have hcdata : sectionWord ("CDATA[" ++ (s ++ ']' :: ']' :: '>' :: rest)) = "cdata" := rfl
    rw [hcdata]
    decide
  have hopening : Text.startsWith (("CDATA[" ++ s).map Char.toUpper) "CDATA[" = true := by
    rw [List.map_append]
    rfl
  have hhyphens (t : Text) : Text.after? "--" ("[CDATA[".toList ++ t) = none := rfl
  have hbracket (t : Text) : Text.after? "[" ("[CDATA[".toList ++ t) = some ("CDATA[".toList ++ t) := rfl
  rw [construct, declaration, hhyphens, hbracket]
  simp only [hword, Bool.false_eq_true, if_false, hfind, hopening, if_true]
  rfl

theorem construct_instruction {s : Text} (h : NoteKind.instruction.Fits s) (rest : Text) :
    construct none ('?' :: (s ++ '>' :: rest)) = .tokens [.note .instruction s] rest := by
  have hclosed : Text.closedBy '>' (s ++ '>' :: rest) = some (s, rest) := Text.closedBy_eq_some_iff.2 ⟨h, rfl⟩
  rw [construct, instruction, hclosed]

/-- A declaration, printed as an instruction, ends there or is followed by text only. -/
def NoteKind.Contained : NoteKind → Text → Prop
  | .declaration, s => '<' ∉ s.dropWhile (· ≠ '>')
  | _, _ => True

theorem whole_instruction {s tail : Text} (h : '>' ∉ s) (htail : '<' ∉ tail) (hP : ∀ kind s, P (.note kind s)) :
    Whole (Reads P) ('<' :: '?' :: (s ++ '>' :: tail)) := by
  have hsource : '<' :: '?' :: (s ++ '>' :: tail) = '<' :: (('?' :: (s ++ ['>'])) ++ tail) := by simp
  rw [hsource]
  exact .construct (fun rest => ⟨_, by simpa using construct_instruction h rest, hP _ _, rfl⟩) (.of_not_mem htail)

/-- Of a declaration that is printed an instruction is read, up to its first `>`. -/
theorem whole_declaration {s : Text} (h : NoteKind.declaration.Contained s) (hP : ∀ kind s, P (.note kind s)) :
    Whole (Reads P) ('<' :: '?' :: (s ++ ['?', '>'])) := by
  obtain ⟨gap, hgap, hpass⟩ := Text.dropWhile_eq (· ≠ '>') s
  have hfits : '>' ∉ gap := fun hm => by simpa using hpass '>' hm
  cases htail : s.dropWhile (· ≠ '>') with
  | nil =>
    -- the question mark that is printed behind the declaration becomes its last character
    rw [htail, List.append_nil] at hgap
    have hlast : '>' ∉ s ++ ['?'] := by simpa [hgap] using hfits
    simpa using whole_instruction hlast List.not_mem_nil hP
  | cons c tail =>
    obtain rfl : c = '>' := by simpa using Text.head_dropWhile htail
    have hbehind : '<' ∉ tail ++ ['?', '>'] := by
      have hcontained : '<' ∉ s.dropWhile (· ≠ '>') := h
      rw [htail] at hcontained
      simpa using hcontained
    rw [htail] at hgap
    rw [hgap, List.append_assoc, List.cons_append]
    exact whole_instruction hfits hbehind hP

/-- A printed note is a note, and text behind it. -/
theorem whole_note {kind : NoteKind} {s : Text} (h : kind.Fits s) (hcontained : kind.Contained s)
    (hP : ∀ kind s, P (.note kind s)) : Whole (Reads P) (kind.opening ++ s ++ kind.closing) := by
  have main (pre post tail : Text) (hopening : kind.opening = '<' :: pre) (hclosing : kind.closing = post ++ tail)
      (hread : ∀ rest, construct none (pre ++ (s ++ (post ++ rest))) = .tokens [.note kind s] rest) (htail : '<' ∉ tail) :
      Whole (Reads P) (kind.opening ++ s ++ kind.closing) := by
    have hsource : kind.opening ++ s ++ kind.closing = '<' :: ((pre ++ (s ++ post)) ++ tail) := by
      rw [hopening, hclosing]
      simp
    rw [hsource]
    exact .construct (fun rest => ⟨_, by simpa using hread rest, hP kind s, rfl⟩) (.of_not_mem htail)
  cases kind with
  | comment => exact main "!--" "-->" [] rfl rfl (construct_comment h) (by simp)
  | doctype => exact main "!DOCTYPE " ">" "\n" rfl rfl (construct_doctype h) (by decide)
  | raw => exact main "![CDATA[" "]]>" [] rfl rfl (construct_raw h) (by simp)
  | instruction => exact main "?" ">" [] rfl rfl (construct_instruction h) (by simp)
  | declaration =>
    have hsource : NoteKind.declaration.opening ++ s ++ NoteKind.declaration.closing = '<' :: '?' :: (s ++ ['?', '>']) :=
      List.append_assoc _ _ _
    rw [hsource]
    exact whole_declaration hcontained hP

end Galley.Html
