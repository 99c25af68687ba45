import Galley.Extract.Box
import Galley.Extract.List
import Galley.Extract.Table
import Galley.Extract.Theorem
import Galley.Proofs.Parts
import Galley.Proofs.Runs
/-!
# Fragments of texts that can be formatted

Where every part of a text is formatted without a fault (`Formats`), so are the constructs that show parts of it:
paragraphs, lists, floats of tables, boxes, and theorems.
-/

namespace Galley

/-- Texts that are formatted without a fault, and so are their parts. -/
structure Formats (kit : Kit) (P : Text → Prop) : Prop where
  part : ∀ {s t : Text}, P s → t <:+: s → P t
  inline : ∀ {s : Text}, P s → Bench.Ends (Bench.inline kit s) fun _ => True

namespace Text

/-- What stands behind a construct up to the next is a part of the text. -/
theorem sections_part {α : Type} (ps : List (Piece α)) :
    (sections ps).1 <+: Piece.sources ps ∧ ∀ p ∈ (sections ps).2, p.2 <:+: Piece.sources ps := by
  induction ps with
  | nil => exact ⟨List.nil_prefix, by simp [sections]⟩
  | cons p ps ih =>
    obtain ⟨hfirst, hmore⟩ := ih
    have hrest : Piece.sources ps <:+: Piece.sources (p :: ps) := (List.suffix_append _ _).isInfix
    cases p with
    | char c =>
      exact ⟨List.cons_prefix_cons.2 ⟨rfl, hfirst⟩, fun q hq => (hmore q hq).trans hrest⟩
    | hit a source =>
      refine ⟨List.nil_prefix, fun q hq => ?_⟩
      rcases List.mem_cons.1 hq with rfl | hq
      · exact hfirst.isInfix.trans hrest
      · exact (hmore q hq).trans hrest

theorem mem_sections {α : Type} {ps : List (Piece α)} {p : α × Text} (h : p ∈ (sections ps).2) :
    ∃ source, Piece.hit p.1 source ∈ ps := by
  induction ps with
  | nil => cases h
  | cons q ps ih =>
    cases q with
    | char c =>
      obtain ⟨source, hs⟩ := ih h
      exact ⟨source, List.mem_cons_of_mem _ hs⟩
    | hit a source =>
      rcases List.mem_cons.1 h with rfl | h
      · exact ⟨source, List.mem_cons_self⟩
      · obtain ⟨t, ht⟩ := ih h
        exact ⟨t, List.mem_cons_of_mem _ ht⟩

end Text

namespace Arguments

theorem first_part {count : Nat} {takesOption : Bool} {s r : Text} {args : Arguments}
    (h : read? count takesOption s = some (args, r)) {t : Text} (ht : t ∈ args.required) : t <:+: s := by
  obtain ⟨v, hv⟩ := (read?_parts h).2 t ht
  exact (List.prefix_append t _).isInfix.trans hv.isInfix

theorem headD_mem {l : List Text} {P : Text → Prop} (hnil : P []) (h : ∀ t ∈ l, P t) : P (l.headD []) := by
  cases l with
  | nil => exact hnil
  | cons t l => exact h t List.mem_cons_self

end Arguments

namespace Extract.List

theorem itemsOf_part {body s : Text} {label : Option Text} (h : (label, s) ∈ itemsOf body) :
    s <:+: body ∧ ∀ l ∈ label, l <:+: body := by
  obtain ⟨⟨a, t⟩, ht, he⟩ := List.mem_map.1 h
  have hpart : t <:+: body := by
    have := (Text.sections_part (body.cut (Command.reader "item"))).2 _ ht
    rwa [Text.sources_cut] at this
  dsimp only [item] at he
  split at he
  · rename_i l rest hr
    cases he
    refine ⟨(Text.strip_part _).trans ((Group.read?_rest hr).isInfix.trans hpart), fun l hl => ?_⟩
    cases hl
    exact (Text.strip_part _).trans ((Group.read?_inside hr).trans hpart)
  · cases he
    exact ⟨(Text.strip_part _).trans hpart, by simp⟩

end Extract.List

namespace Extract.Table

theorem caption?_part {body before after : Text} {args : Arguments} (h : caption? body = some (before, args, after)) :
    args.first <:+: body := by
  simp only [caption?, Option.bind_eq_bind, Option.bind_eq_some_iff] at h
  obtain ⟨f, hf, ⟨a, rest⟩, ha, h⟩ := h
  cases h
  obtain ⟨b, t, ht, hr⟩ := Text.findFrom_eq_some hf
  obtain ⟨r, hr, he⟩ := Option.map_eq_some_iff.1 hr
  have hafter : f.after <:+ body := by
    cases he
    exact (Command.suffix_starred? hr).trans ht
  exact Arguments.headD_mem (P := fun u => u <:+: body) List.nil_infix fun u hu => (Arguments.first_part ha hu).trans hafter.isInfix

end Extract.Table

namespace Extract.Box

/-- The texts that a box shows. -/
def Layout.texts : Layout → List Text
  | .column _ body => [body]
  | .frame title body => body :: title.toList

theorem readEnvironment_part {name body : Text} {layout : Layout} (h : readEnvironment name body = .ok layout) :
    ∀ t ∈ layout.texts, t <:+: body := by
  simp only [readEnvironment] at h
  split at h
  · obtain ⟨p, hu, h⟩ := bind_eq_ok h
    obtain ⟨o, hr, h⟩ := bind_eq_ok h
    have hrest := Group.readUpTo_rest hu
    cases o with
    | none =>
      cases h
      simpa [Layout.texts] using hrest.isInfix
    | some w =>
      cases h
      have hb := (Group.read?_rest (Group.read_eq_read? hr)).trans hrest
      simpa [Layout.texts] using hb.isInfix
  · obtain ⟨o, hr, h⟩ := bind_eq_ok h
    cases o with
    | none =>
      cases h
      simp [Layout.texts]
    | some w =>
      cases h
      have hread := Group.read_eq_read? hr
      intro t ht
      rcases List.mem_cons.1 ht with rfl | ht
      · exact (Group.read?_rest hread).isInfix
      · refine List.IsInfix.trans ?_ (Group.read?_inside hread)
        rw [Option.mem_toList] at ht
        simp only [HOrElse.hOrElse, OrElse.orElse, Option.orElse] at ht
        split at ht
        · rename_i hk
          obtain rfl := Option.some.inj ht
          exact KeyValue.get?_part hk
        · exact KeyValue.get?_part ht

/-- The text that a box command shows. -/
def Content.text : Content → Text
  | .paragraphs _ content _ => content
  | .line content _ => content

def Content.rest : Content → Text
  | .paragraphs _ _ rest => rest
  | .line _ rest => rest

theorem readCommand_part {name s : Text} {content : Content} (h : readCommand name s = .ok (some content)) :
    content.text <:+: s ∧ content.rest <:+ s := by
  have hline {t : Text} (ht : t <:+ s) {p : Text × Text} (hr : Group.read .brace t = .ok (some p)) :
      p.1 <:+: s ∧ p.2 <:+ s := by
    have hread := Group.read_eq_read? hr
    exact ⟨(Group.read?_inside hread).trans ht.isInfix, (Group.read?_rest hread).trans ht⟩
  unfold readCommand at h
  split at h
  · obtain ⟨p, hu, h⟩ := bind_eq_ok h
    obtain ⟨o, ha, h⟩ := bind_eq_ok h
    have hrest := Group.readUpTo_rest hu
    cases o with
    | none => cases h
    | some q =>
      cases h
      have hread : Arguments.read? 2 false p.2 = some q := by rw [Arguments.read?, ha]
      obtain ⟨hafter, hall⟩ := Arguments.read?_parts hread
      refine ⟨?_, hafter.trans hrest⟩
      refine Arguments.headD_mem (P := fun t => t <:+: s) List.nil_infix fun t ht => ?_
      exact (Arguments.first_part hread (List.mem_of_mem_drop ht)).trans hrest.isInfix
  · split at h
    · obtain ⟨t, ht, h⟩ := bind_eq_ok h
      obtain ⟨o, hr, h⟩ := bind_eq_ok h
      obtain ⟨p, hu, rfl⟩ : ∃ p, Group.readUpTo .bracket 2 s = .ok p ∧ p.2 = t := by
        rw [map_eq_pure_bind] at ht
        obtain ⟨p, hu, ht⟩ := bind_eq_ok ht
        cases ht
        exact ⟨p, hu, rfl⟩
      cases o with
      | none => cases h
      | some q =>
        cases h
        exact hline (Group.readUpTo_rest hu) hr
    · rw [pure_bind] at h
      obtain ⟨o, hr, h⟩ := bind_eq_ok h
      cases o with
      | none => cases h
      | some q =>
        cases h
        exact hline (List.suffix_refl s) hr

end Extract.Box

namespace Extract.Theorem

theorem titleAhead_part {body : Text} : (∀ t ∈ (titleAhead body).1, t <:+: body) ∧ (titleAhead body).2 <:+ body := by
  unfold titleAhead
  split
  · rename_i hr
    refine ⟨fun t ht => ?_, Group.read?_rest hr⟩
    cases ht
    exact (Text.strip_part _).trans (Group.read?_inside hr)
  · exact ⟨by simp, List.suffix_refl _⟩

end Extract.Theorem

/-! ## What ends -/

theorem ends_tabularFragment? (kit : Kit) (name body : Text) :
    Bench.Ends (Extract.Table.tabularFragment? kit name body) fun _ => True := by
  refine (Bench.ends_attempt _).bind fun r _ => ?_
  cases r with
  | ok rows => exact .pure trivial
  | error message => exact (Bench.ends_notify _).bind fun _ _ => .pure trivial

/-- The table of a float, or the note that there is none. -/
theorem ends_shownTable (table : Option Text) (caption : Text) :
    Bench.Ends (do
      let table ← match table with
        | some t => pure t
        | none => do
          Bench.notify .tableEmpty
          pure "<div class=\"table-error\">[Table Body - Parse Failed]</div>".toList
      pure ("<div class=\"table-wrapper\">" ++ caption ++ table ++ "</div>")) fun _ => True := by
  cases table with
  | some t => exact .pure trivial
  | none => exact (Bench.ends_notify _).bind fun _ _ => .pure trivial

theorem ends_floatTable (kit : Kit) (inner : Option Environment) (caption : Text) :
    Bench.Ends (do
      let table ← match inner with
        | some e => Extract.Table.tabularFragment? kit e.name e.body
        | none => pure none
      let table ← match table with
        | some t => pure t
        | none => do
          Bench.notify .tableEmpty
          pure "<div class=\"table-error\">[Table Body - Parse Failed]</div>".toList
      pure ("<div class=\"table-wrapper\">" ++ caption ++ table ++ "</div>")) fun _ => True := by
  cases inner with
  | some e => exact (ends_tabularFragment? kit _ _).bind fun table _ => ends_shownTable table caption
  | none => exact ends_shownTable none caption

/-- A theorem behind its label: its title, its body. -/
theorem ends_theoremBody {kit : Kit} {title : Option Text} {body : Text} (label classes : Text)
    (htitle : ∀ t ∈ title, Bench.Ends (Bench.inline kit t) fun _ => True)
    (hbody : Bench.Ends (Bench.paragraphs kit body) fun _ => True) :
    Bench.Ends (do
      let suffix ← match title with
        | some (c :: t) => do pure (" (" ++ (← Bench.inline kit (c :: t)) ++ ")")
        | _ => pure []
      let head := "<strong class=\"theorem-head\">" ++ label ++ "</strong>" ++ suffix ++ ". "
      let body ← Bench.paragraphs kit body
      pure ("<div class=\"latex-theorem latex-" ++ classes ++ "\">" ++
        Extract.Theorem.withHead head body ++ "</div>")) fun _ => True := by
  split
  · exact (htitle _ rfl).bind fun _ _ => hbody.bind fun _ _ => .pure trivial
  · exact hbody.bind fun _ _ => .pure trivial

namespace Formats

variable {kit : Kit} {P : Text → Prop} {s : Text} (h : Formats kit P)

include h

theorem paragraphs (hs : P s) : Bench.Ends (Bench.paragraphs kit s) fun _ => True := by
  refine (Bench.Ends.mapM (P := fun _ => True) fun chunk hc => ?_).bind fun _ _ => .pure trivial
  split
  · exact .pure trivial
  · exact (h.inline (h.part hs (Inline.chunks_part hc))).bind fun _ _ => .pure trivial

theorem nil (hs : P s) : P [] := h.part hs List.nil_infix

theorem listFragment (hs : P s) (name : Text) : Bench.Ends (Extract.List.fragment kit name s) fun _ => True := by
  have hparts {body : Text} (hb : body <:+: s) {item : Option Text × Text} (hi : item ∈ Extract.List.itemsOf body) :
      P item.2 ∧ ∀ l ∈ item.1, P l := by
    obtain ⟨htext, hlabel⟩ := Extract.List.itemsOf_part (show (item.1, item.2) ∈ _ from hi)
    exact ⟨h.part hs (htext.trans hb), fun l hl => h.part hs ((hlabel l hl).trans hb)⟩
  have hdescription {body : Text} (hb : body <:+: s) (item : Option Text × Text) (hi : item ∈ Extract.List.itemsOf body) :
      Bench.Ends (Extract.List.descriptionEntry kit item) fun _ => True := by
    obtain ⟨htext, hlabel⟩ := hparts hb hi
    obtain ⟨label, text⟩ := item
    have hl : P (label.getD []) := by
      cases label with
      | none => exact h.nil hs
      | some l => exact hlabel l rfl
    exact (h.inline hl).bind fun _ _ => (h.inline htext).bind fun _ _ => .pure trivial
  have hlist {body : Text} (hb : body <:+: s) (item : Option Text × Text) (hi : item ∈ Extract.List.itemsOf body) :
      Bench.Ends (Extract.List.listEntry kit item) fun _ => True := by
    obtain ⟨htext, hlabel⟩ := hparts hb hi
    obtain ⟨label, text⟩ := item
    refine (h.inline htext).bind fun _ _ => ?_
    cases label with
    | none => exact .pure trivial
    | some l => exact (h.inline (hlabel l rfl)).bind fun _ _ => .pure trivial
  unfold Extract.List.fragment
  split
  · rename_i hr
    have hb := (Group.read?_rest hr).isInfix
    dsimp only
    split
    · exact (Bench.Ends.mapM (hdescription hb)).bind fun _ _ => .pure trivial
    · exact (Bench.Ends.mapM (hlist hb)).bind fun _ _ => .pure trivial
  · dsimp only
    split
    · exact (Bench.Ends.mapM (hdescription List.infix_rfl)).bind fun _ _ => .pure trivial
    · exact (Bench.Ends.mapM (hlist List.infix_rfl)).bind fun _ _ => .pure trivial

theorem tableFloat (hs : P s) : Bench.Ends (Extract.Table.floatFragment kit s) fun _ => True := by
  unfold Extract.Table.floatFragment
  split
  · rename_i hc
    refine (h.inline (h.part hs ((Text.strip_part _).trans (Extract.Table.caption?_part hc)))).bind fun _ _ => ?_
    exact ends_floatTable kit _ _
  · exact ends_floatTable kit _ _

theorem boxFragment {layout : Extract.Box.Layout} (hl : ∀ t ∈ layout.texts, P t) :
    Bench.Ends (Extract.Box.environmentFragment kit layout) fun _ => True := by
  cases layout with
  | column width body =>
    exact (h.paragraphs (hl body (by simp [Extract.Box.Layout.texts]))).bind fun _ _ => .pure trivial
  | frame title body =>
    have hbody : P body := hl body (by simp [Extract.Box.Layout.texts])
    cases title with
    | none => exact (h.paragraphs hbody).bind fun _ _ => .pure trivial
    | some t =>
      have ht : P t := hl t (by simp [Extract.Box.Layout.texts])
      exact (h.inline ht).bind fun _ _ => (h.paragraphs hbody).bind fun _ _ => .pure trivial

theorem boxCommand {name : Text} {content : Extract.Box.Content} (hc : P content.text) :
    Bench.Ends (Extract.Box.commandFragment kit name content) fun r => r.2 = content.rest := by
  cases content with
  | paragraphs width text rest => exact (h.paragraphs hc).bind fun _ _ => .pure rfl
  | line text rest => exact (h.inline (h.part hc (Text.strip_part _))).bind fun _ _ => .pure rfl

theorem proofFragment (hs : P s) : Bench.Ends (Extract.Theorem.proofFragment kit s) fun _ => True := by
  obtain ⟨htitle, hbody⟩ := @Extract.Theorem.titleAhead_part s
  unfold Extract.Theorem.proofFragment
  generalize Extract.Theorem.titleAhead s = p at htitle hbody
  obtain ⟨title, body⟩ := p
  have rest (t : Text) : Bench.Ends (do
      let body ← Bench.paragraphs kit body
      pure ("<div class=\"latex-proof\">" ++ Extract.Theorem.withEnd
        (Extract.Theorem.withHead ("<em>" ++ t ++ ".</em> ") body) ++ "</div>")) fun _ => True :=
    (h.paragraphs (h.part hs hbody.isInfix)).bind fun _ _ => .pure trivial
  dsimp only
  split
  · exact (h.inline (h.part hs (htitle _ rfl))).bind fun t _ => rest t
  · exact rest _

theorem theoremFragment (hs : P s) (kinds : List (Text × Text)) (name : Text) :
    Bench.Ends (Extract.Theorem.theoremFragment kit kinds name s) fun _ => True := by
  obtain ⟨htitle, hbody⟩ := @Extract.Theorem.titleAhead_part s
  unfold Extract.Theorem.theoremFragment
  generalize Extract.Theorem.titleAhead s = p at htitle hbody
  obtain ⟨title, body⟩ := p
  have hinline (t : Text) (ht : t ∈ title) := h.inline (h.part hs (htitle t ht))
  have hparagraphs := h.paragraphs (h.part hs hbody.isInfix)
  dsimp only
  split
  · exact ends_theoremBody _ _ hinline hparagraphs
  · exact (Bench.ends_nextTheorem _).bind fun n _ => ends_theoremBody _ _ hinline hparagraphs

/-- Quotes, aligned texts, proofs and theorems. -/
theorem theoremLike (hs : P s) (kinds : List (Text × Text)) (name : Text) :
    Bench.Ends (Extract.Theorem.fragment kit kinds name s) fun _ => True := by
  unfold Extract.Theorem.fragment
  split
  · exact (h.paragraphs hs).bind fun _ _ => .pure trivial
  · split
    · exact (h.paragraphs hs).bind fun _ _ => .pure trivial
    · split
      · exact h.proofFragment hs
      · exact h.theoremFragment hs kinds name

end Formats

end Galley
