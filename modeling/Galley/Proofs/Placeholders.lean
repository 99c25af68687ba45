import Galley.Proofs.Layout
import Galley.Proofs.Parts
import Galley.Proofs.Splicing
import Galley.Proofs.Stages
import Galley.Proofs.Styles
/-!
# Placeholders that are shown

A rendered tree shows no placeholder if the fragments that were put into it show none, and the page around
them does not either; the layout pass brings none in. A fragment that shows one is enough to bring one into
the tree (`render_conceals`).
-/

namespace Galley

open Html (Node EveryOf)

/-! ## Texts without the word -/

namespace Block.Token

/-- The word that begins every token is nowhere in the text. -/
def Absent (t : Text) : Prop := ¬word <:+: t

namespace Absent

variable {a b t : Text}

theorem part (h : Absent t) (ha : a <:+: t) : Absent a := fun hw => h (hw.trans ha)

theorem of_not_mem (h : 'W' ∉ t) : Absent t := fun hw => h (hw.subset (by decide))

theorem nil : Absent [] := of_not_mem List.not_mem_nil

/-- The word does not go over a character that is not in it. -/
theorem append_cons {c : Char} (hc : c ∉ word) (ha : Absent a) (hb : Absent b) : Absent (a ++ c :: b) := by
  have prefix_left (u : Text) (h : word <+: u ++ c :: b) : word <+: u := by
    rcases List.prefix_or_prefix_of_prefix h (List.prefix_append u (c :: b)) with h' | ⟨v, hv⟩
    · exact h'
    · rw [← hv, List.prefix_append_right_inj] at h
      cases v with
      | nil => exact ⟨[], by simp [← hv]⟩
      | cons d v =>
        obtain ⟨rfl, -⟩ := List.cons_prefix_cons.1 h
        exact absurd (by rw [← hv]; simp) hc
  induction a with
  | nil =>
    intro h
    rcases List.infix_cons_iff.1 h with h | h
    · exact absurd (prefix_left [] h) (by decide)
    · exact hb h
  | cons x a ih =>
    intro h
    rcases List.infix_cons_iff.1 h with h | h
    · exact ha (prefix_left (x :: a) h).isInfix
    · exact ih (ha.part (List.suffix_cons x a).isInfix) h

end Absent

end Block.Token

open Block.Token (Absent)

/-! ## Styles -/

namespace Style

/-- Neither names nor values hold the word. -/
def Plain (ds : Declarations) : Prop := ∀ d ∈ ds, Absent d.1 ∧ Absent d.2

theorem Plain.put {ds : Declarations} {d : Text × Text} (hds : Plain ds) (hd : Absent d.1 ∧ Absent d.2) :
    Plain (put ds d) := by
  unfold Style.put
  split
  · intro e he
    obtain ⟨e', he', rfl⟩ := List.mem_map.1 he
    split
    · exact hd
    · exact hds e' he'
  · intro e he
    rcases List.mem_append.1 he with he | he
    · exact hds e he
    · rwa [List.mem_singleton.1 he]

theorem Plain.foldl_put {ds es : Declarations} (hds : Plain ds) (hes : Plain es) : Plain (es.foldl Style.put ds) := by
  exact List.foldlRecOn (motive := Plain) es _ hds fun ds hds e he => hds.put (hes e he)

theorem splitOnChar_part (sep : Char) (s : Text) :
    (∃ part parts, Text.splitOnChar sep s = part :: parts ∧ part <+: s) ∧
      ∀ t ∈ Text.splitOnChar sep s, t <:+: s := by
  induction s with
  | nil => exact ⟨⟨[], [], rfl, List.nil_prefix⟩, by simp [Text.splitOnChar]⟩
  | cons c s ih =>
    obtain ⟨⟨part, parts, he, hpart⟩, hall⟩ := ih
    have hrest (t : Text) (ht : t <:+: s) : t <:+: c :: s := ht.trans (List.suffix_cons c s).isInfix
    by_cases hc : c = sep
    · simp only [Text.splitOnChar, hc, if_true]
      refine ⟨⟨[], _, rfl, List.nil_prefix⟩, fun t ht => ?_⟩
      rcases List.mem_cons.1 ht with rfl | ht
      · exact List.nil_infix
      · rw [← hc]
        exact hrest t (hall t ht)
    · have hfirst : c :: part <+: c :: s := List.cons_prefix_cons.2 ⟨rfl, hpart⟩
      simp only [Text.splitOnChar, hc, if_false, he]
      refine ⟨⟨c :: part, parts, rfl, hfirst⟩, fun t ht => ?_⟩
      rcases List.mem_cons.1 ht with rfl | ht
      · exact hfirst.isInfix
      · exact hrest t (hall t (by rw [he]; exact List.mem_cons_of_mem _ ht))

theorem plain_read {style : Text} (h : Absent style) : Plain (read style) := by
  have hparts := fun t ht => h.part ((splitOnChar_part ';' style).2 t ht)
  refine List.foldlRecOn (motive := Plain) _ _ (by simp [Plain]) fun ds hds part hpart => ?_
  have hpart := hparts part hpart
  split
  · rename_i c value hvalue
    dsimp only
    split
    · exact hds
    · refine hds.put ⟨?_, ?_⟩
      · exact hpart.part ((Text.strip_part _).trans (List.takeWhile_prefix _).isInfix)
      · have hsuffix : value <:+ part := (List.suffix_cons c value).trans (hvalue ▸ List.dropWhile_suffix _)
        exact hpart.part ((Text.strip_part _).trans hsuffix.isInfix)
  · exact hds

theorem absent_print {ds : Declarations} (h : Plain ds) : Absent (print ds) := by
  have hone (d : Text × Text) (hd : Absent d.1 ∧ Absent d.2) : Absent (d.1 ++ ": ".toList ++ d.2 ++ ";") := by
    have hvalue : Absent (d.2 ++ ";") := hd.2.append_cons (by decide) .nil
    have hspace : Absent (' ' :: (d.2 ++ ";")) := Absent.nil.append_cons (by decide) hvalue
    simpa using hd.1.append_cons (c := ':') (by decide) hspace
  unfold print
  induction ds with
  | nil => exact .nil
  | cons d ds ih =>
    obtain ⟨hd, hds⟩ := List.forall_mem_cons.1 h
    cases ds with
    | nil => exact hone d hd
    | cons e ds =>
      have := (hone d hd).append_cons (c := ' ') (by decide) (ih hds)
      simpa [Text.joinWith] using this

theorem absent_fixed (places : Nat) (x : Float) : 'W' ∉ Decimal.fixed places x := by
  intro h
  rcases Decimal.mem_fixed h with h | h
  · cases h
  · revert h
    decide

end Style

/-! ## Nodes without the word -/

/-- A text, a note or an element's values do not hold the word. -/
def Html.Node.Conceals : Node → Prop
  | .text s => Absent s
  | .note _ s => Absent s
  | .element _ attributes _ => ∀ a ∈ attributes, Absent a.2

namespace Shrink

open Html.Node (Conceals)

theorem plain_properties {t : Text × Text} (ht : t ∈ targets) (scale : Float) :
    Style.Plain ((properties t.2 scale).map fun (name, value) => (name.map fun c => if c = '_' then '-' else c, value)) := by
  have horigin : 'W' ∉ t.2 := (by decide : ∀ t ∈ targets, 'W' ∉ t.2) t ht
  have hscale : 'W' ∉ "scale(" ++ Decimal.fixed 3 scale ++ ")" := by
    simp [Style.absent_fixed]
  have hwidth : 'W' ∉ Decimal.fixed 1 (100 / scale) ++ "%".toList := by
    simp [Style.absent_fixed]
  intro d hd
  simp only [properties, List.map_cons, List.map_nil, List.mem_cons, List.not_mem_nil, or_false] at hd
  rcases hd with rfl | rfl | rfl | rfl
  · exact ⟨.of_not_mem (t := "transform") (by decide), .of_not_mem hscale⟩
  · exact ⟨.of_not_mem (t := "transform-origin") (by decide), .of_not_mem horigin⟩
  · exact ⟨.of_not_mem (t := "width") (by decide), .of_not_mem hwidth⟩
  · exact ⟨.of_not_mem (by decide), .of_not_mem (by decide)⟩

theorem conceals_set {t : Text × Text} (ht : t ∈ targets) (scale : Float) {n : Node} (hn : n.Conceals) :
    (Style.set (properties t.2 scale) n).Conceals := by
  match n, hn with
  | .text s, hn => exact hn
  | .note kind s, hn => exact hn
  | .element name attributes children, hn =>
    have hold : Absent (((Node.element name attributes children).attribute? "style").getD []) := by
      cases h : (Node.element name attributes children).attribute? "style" with
      | none => exact .nil
      | some v =>
        obtain ⟨as, bs, rfl, -⟩ := List.lookup_eq_some_iff.1 h
        exact hn ("style".toList, v) (by simp)
    have hnew := Style.absent_print ((Style.plain_read hold).foldl_put (plain_properties ht scale))
    simp only [Style.set, Html.Node.setAttribute]
    split
    · intro a ha
      obtain ⟨a', ha', rfl⟩ := List.mem_map.1 ha
      split
      · exact hnew
      · exact hn a' ha'
    · intro a ha
      rcases List.mem_append.1 ha with ha | ha
      · exact hn a ha
      · rw [List.mem_singleton.1 ha]
        exact hnew

theorem conceals_shrinkTree {settings : Settings} {m : Widths} (name : Text) (attributes : List Html.Attribute)
    (children : List Node) (inScaled : Bool) (h : (Node.element name attributes children).Conceals) :
    (shrinkTree settings m inScaled (.element name attributes children)).1.Conceals := by
  rw [shrinkTree]
  dsimp only
  have withChildren (n : Node) (cs : List Node) (hn : n.Conceals) : (n.withChildren cs).Conceals := by
    cases n <;> exact hn
  refine withChildren _ _ ?_
  obtain ⟨hsame, -⟩ | ⟨t, scale, ht, hset⟩ := @shrink_eq settings m inScaled
    (.element name attributes children)
  · rwa [hsame]
  · rw [hset]
    exact conceals_set (List.mem_of_find?_eq_some ht) scale h

end Shrink

/-! ## Rendered documents -/

namespace Rendering

open Html.Node (Conceals)

/-- No fragment that stands in the page holds the word, and the page with blanks for them does not either. -/
structure Conceals (e : Reduction) (typeset : List Node) : Prop where
  page : ∀ page, (Assembly.spliceTree (Assembly.blanked e.table) none typeset).1 = .ok page → EveryOf Html.Node.Conceals page
  fragments : Assembly.Shown e.table Html.Node.Conceals (Assembly.spliced e.table typeset)
  bibliography : ∀ html, e.bibliography = some html → html ≠ [] → (Assembly.bibliographySection html).Every Html.Node.Conceals

theorem render_conceals {c : Config} {raw : Text} {s : State} {p : Preview} (h : (render c raw s).1 = .ok p) :
    ∃ typeset, c.typesetter.run (Article.rewrite c.today p.extraction.reduced).markup = .ok typeset ∧
      (Conceals p.extraction typeset → EveryOf Html.Node.Conceals p.tree) ∧
      (p.layout.adjusted = 0 → EveryOf Html.Node.Conceals p.tree → Conceals p.extraction typeset) := by
  obtain ⟨typeset, spliced, notices, hrun, hsplice, hlay, hcounts⟩ := render_ok h
  have hspace : (Node.text [' ']).Conceals := Absent.of_not_mem (by decide)
  have hsteady : EveryOf (Assembly.Steady Html.Node.Conceals) (Assembly.smoothAll typeset) :=
    Html.everyOf_of_forall (fun n => by cases n <;> simp [Assembly.Steady, Html.Node.Conceals]) _
  obtain ⟨page, hpage, hiff⟩ := Assembly.everyOf_spliceTree hspace hsteady hsplice
  refine ⟨typeset, hrun, ?_, ?_⟩
  · intro hc
    rw [hlay]
    exact Shrink.everyOf_shrinkAll Shrink.conceals_shrinkTree _ _ (hiff.2 ⟨hc.page page hpage, hc.fragments, hc.bibliography⟩)
  · intro hzero htree
    rw [hlay, Shrink.shrinkAll_eq _ _ (List.eq_nil_of_length_eq_zero (hcounts ▸ hzero))] at htree
    obtain ⟨hp, hf, hb⟩ := hiff.1 htree
    refine ⟨fun page' hpage' => ?_, hf, hb⟩
    rw [hpage] at hpage'
    rwa [← Except.ok.inj hpage']

/-- A document in which code becomes a placeholder in a paragraph. -/
theorem render_conceals_code : ∃ p, (render { today := ⟨2024, 1, 1⟩ } "a \\verb|y| b" {}).1 = .ok p ∧
    ∃ typeset, Typesetter.standard.run (Article.rewrite ⟨2024, 1, 1⟩ p.extraction.reduced).markup = .ok typeset ∧
      (Conceals p.extraction typeset → EveryOf Html.Node.Conceals p.tree) ∧
      (p.layout.adjusted = 0 → EveryOf Html.Node.Conceals p.tree → Conceals p.extraction typeset) := by
  have hok : (render { today := ⟨2024, 1, 1⟩ } "a \\verb|y| b" {}).1.isOk = true := by decide +kernel
  cases h : (render { today := ⟨2024, 1, 1⟩ } "a \\verb|y| b" {}).1 with
  | error f =>
    rw [h] at hok
    cases hok
  | ok p => exact ⟨p, rfl, render_conceals h⟩

/-- Code in the address of a link, whose placeholder stays in the address. -/
theorem codeInAddress_shown : 'W' ∉ "\\href\x7bhttp://x\\verb|y|\x7d\x7bz\x7d".toList ∧
    ∃ p, (render { today := ⟨2024, 1, 1⟩ } "\\href\x7bhttp://x\\verb|y|\x7d\x7bz\x7d" {}).1 = .ok p ∧
      ¬EveryOf Html.Node.Conceals p.tree := by
  refine ⟨by decide, ?_⟩
  have hshown : (match (render { today := ⟨2024, 1, 1⟩ } "\\href\x7bhttp://x\\verb|y|\x7d\x7bz\x7d" {}).1 with
      | .ok p => (Html.elementsOf p.tree).any fun n => n.attribute? "href" = some "http://xLATEXPREVIEWVERBATIM000001".toList
      | .error _ => false) = true := by decide +kernel
  cases h : (render { today := ⟨2024, 1, 1⟩ } "\\href\x7bhttp://x\\verb|y|\x7d\x7bz\x7d" {}).1 with
  | error f =>
    rw [h] at hshown
    cases hshown
  | ok p =>
    rw [h] at hshown
    refine ⟨p, rfl, fun hall => ?_⟩
    obtain ⟨n, hn, hhref⟩ := List.any_eq_true.1 hshown
    have hp := hall.elements n hn
    cases n with
    | text s => simp [Html.Node.attribute?] at hhref
    | note kind s => simp [Html.Node.attribute?] at hhref
    | element name attributes children =>
      obtain ⟨as, bs, rfl, -⟩ := List.lookup_eq_some_iff.1 (of_decide_eq_true hhref)
      exact hp _ (List.mem_append_right as List.mem_cons_self) ⟨"http://x".toList, "VERBATIM000001".toList, by decide⟩

end Rendering

end Galley
