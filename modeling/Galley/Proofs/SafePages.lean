import Galley.Proofs.Layout
import Galley.Proofs.SoundPages
import Galley.Proofs.Splicing
/-!
# Pages that run no code

A page is safe if no attribute handles an event, no anchor leads elsewhere than to a web or mail address, and
no script runs but the one that listens to diagrams. The typesetter, the splicing and the layout pass make
nothing unsafe, so a rendered tree is safe just if the fragments that were put into it are (`render_safe_iff`).
-/

namespace Galley

open Html (Node EveryOf Harmless Attribute everyOf_append everyOf_cons everyOf_nil)

/-! ## Safe nodes -/

/-- What is appended to a page that shows diagrams. -/
def Page.hostScript : List Node := Html.parse (Page.fill Page.listener [])

theorem script_of_shape {tree : List Node} (h : (match tree with
      | [.element name [] [.text _]] => name = "script".toList
      | _ => false) = true) : ∃ s, tree = [.element "script" [] [.text s]] := by
  split at h
  · rename_i name s
    exact ⟨s, by rw [of_decide_eq_true h]⟩
  · cases h

theorem Page.hostScript_eq : ∃ s, Page.hostScript = [.element "script" [] [.text s]] :=
  script_of_shape (by decide +kernel)

/-- An element is harmless, and a script is the one that listens to diagrams. -/
def Html.Node.Safe : Node → Prop
  | .element name attributes children => Harmless name attributes ∧
      (name = "script".toList → Page.hostScript = [.element name attributes children])
  | _ => True

namespace Html.Node

theorem Clean.safe {n : Node} (h : n.Clean) : n.Safe := by
  cases n with
  | element name attributes children =>
    refine ⟨h.1, ?_⟩
    rintro rfl
    exact absurd h.2 (by decide)
  | _ => trivial

theorem Clean.steady {n : Node} (h : n.Clean) : Assembly.Steady Safe n := by
  cases n with
  | element name attributes children =>
    intro cs cs' hs
    refine ⟨h.1, ?_⟩
    rintro rfl
    exact absurd h.2 (by decide)
  | _ => trivial

theorem steady_clean (n : Node) : Assembly.Steady Clean n := by
  cases n with
  | element name attributes children => exact fun _ _ h => h
  | _ => trivial

end Html.Node

theorem Page.safe_hostScript : EveryOf Node.Safe Page.hostScript := by
  obtain ⟨s, hs⟩ := Page.hostScript_eq
  have hsafe : (Node.element "script" [] [.text s]).Safe := ⟨⟨by simp, by simp⟩, fun _ => hs⟩
  rw [hs]
  exact ⟨⟨hsafe, trivial, trivial⟩, trivial⟩

/-! ## Layout -/

namespace Shrink

theorem setAttribute_element (name value element : Text) (as : List Attribute) (children : List Node) :
    ∃ as', (Node.element element as children).setAttribute name value = .element element as' children ∧
      (name, value) ∈ as' ∧ (∀ a ∈ as', a.1 = name ∨ a ∈ as) ∧ ∀ a ∈ as, a.1 = name ∨ a ∈ as' := by
  rw [Node.setAttribute]
  split
  · rename_i hany
    obtain ⟨b, hb, hname⟩ := List.any_eq_true.1 hany
    have hname : b.1 = name := of_decide_eq_true hname
    refine ⟨_, rfl, List.mem_map.2 ⟨b, hb, if_pos hname⟩, ?_, ?_⟩
    · intro a ha
      obtain ⟨c, hc, rfl⟩ := List.mem_map.1 ha
      split
      · exact .inl rfl
      · exact .inr hc
    · intro a ha
      by_cases h : a.1 = name
      · exact .inl h
      · exact .inr (List.mem_map.2 ⟨a, ha, if_neg h⟩)
  · refine ⟨_, rfl, by simp, ?_, ?_⟩
    · intro a ha
      rcases List.mem_append.1 ha with ha | ha
      · exact .inr ha
      · rw [List.mem_singleton.1 ha]
        exact .inl rfl
    · exact fun a ha => .inr (List.mem_append_left _ ha)

theorem set_element (ds : Style.Declarations) (name : Text) (as : List Attribute) (children : List Node) :
    ∃ value as', Style.set ds (.element name as children) = .element name as' children ∧
      ("style".toList, value) ∈ as' ∧ (∀ a ∈ as', a.1 = "style".toList ∨ a ∈ as) ∧ ∀ a ∈ as, a.1 = "style".toList ∨ a ∈ as' :=
  ⟨_, setAttribute_element _ _ name as children⟩

/-- A style makes an element neither safe nor unsafe. -/
theorem harmless_iff {name : Text} {as as' : List Attribute} (h : ∀ a ∈ as', a.1 = "style".toList ∨ a ∈ as)
    (h' : ∀ a ∈ as, a.1 = "style".toList ∨ a ∈ as') : Harmless name as ↔ Harmless name as' := by
  have one {as as' : List Attribute} (h : ∀ a ∈ as', a.1 = "style".toList ∨ a ∈ as) (hs : Harmless name as) :
      Harmless name as' := by
    constructor
    · intro a ha
      rcases h a ha with he | ha
      · rw [he]
        decide
      · exact hs.handlers a ha
    · intro hname a ha hhref
      rcases h a ha with he | ha
      · exact absurd (he.symm.trans hhref) (by decide)
      · exact hs.addresses hname a ha hhref
  exact ⟨one h, one h'⟩

/-- The pass leaves a single text just where one was. -/
theorem shrinkAll_eq_text {settings : Settings} {m : Widths} {inScaled : Bool} {ns : List Node} {s : Text} :
    (shrinkAll settings m inScaled ns).1 = [.text s] ↔ ns = [.text s] := by
  constructor
  · intro h
    match ns, h with
    | [], h => rw [shrinkAll] at h; cases h
    | _ :: _ :: _, h => simp [shrinkAll] at h
    | [.note kind t], h => simp only [shrinkAll, shrinkTree_note] at h; cases h
    | [.text t], h =>
      simp only [shrinkAll, shrinkTree_text] at h
      exact h
    | [.element name attributes children], h =>
      obtain ⟨attributes', inScaled', heq, -⟩ :=
        @shrinkTree_element settings m inScaled name attributes children
      simp only [shrinkAll, heq] at h
      cases h
  · rintro rfl
    simp [shrinkAll, shrinkTree_text]

theorem target?_nil (name : Text) (children : List Node) : target? (.element name [] children) = none := by
  have hclasses : (Node.element name [] children).classes = [] := by
    simp [Node.classes, Node.attribute?, Text.words, Text.wordsFrom]
  simp [target?, Node.hasClass, hclasses]

theorem safe_shrinkTree_iff {settings : Settings} {m : Widths} (name : Text) (attributes : List Attribute)
    (children : List Node) (inScaled : Bool) :
    (shrinkTree settings m inScaled (.element name attributes children)).1.Safe ↔ (Node.element name attributes children).Safe := by
  obtain ⟨s, hs⟩ := Page.hostScript_eq
  obtain ⟨attributes', inScaled', heq, hattributes⟩ :=
    @shrinkTree_element settings m inScaled name attributes children
  rw [heq]
  rcases hattributes with rfl | ⟨t, scale, ht, hset⟩
  · refine and_congr_right fun _ => forall_congr' fun _ => ?_
    rw [hs]
    simp only [List.cons.injEq, Node.element.injEq, and_true]
    rw [eq_comm (a := [Node.text s]), shrinkAll_eq_text, eq_comm (a := children)]
  · obtain ⟨value, as', has', hmem, hsub, hsup⟩ := set_element (properties t.2 scale) name attributes children
    obtain rfl : as' = attributes' := by simpa using has'.symm.trans hset
    -- the script that listens has no attributes, so it is neither what was styled nor what came of it
    refine and_congr (harmless_iff hsup hsub) (forall_congr' fun hname => ?_)
    constructor
    · intro h
      rw [hs] at h
      simp only [List.cons.injEq, Node.element.injEq, and_true] at h
      rw [← h.2.1] at hmem
      cases hmem
    · intro h
      rw [hs] at h
      simp only [List.cons.injEq, Node.element.injEq, and_true] at h
      rw [← h.2.1, target?_nil] at ht
      cases ht

end Shrink

/-! ## Rendered documents -/

namespace Rendering

open Html.Node (Safe Clean)

/-- A typeset page with blanks in the places of its fragments is safe. -/
theorem safe_blankPage {table : Block.Table} {typeset page : List Node} (hclean : EveryOf Clean (Assembly.smoothAll typeset))
    (h : (Assembly.spliceTree (Assembly.blanked table) none typeset).1 = .ok page) : EveryOf Safe page := by
  unfold Assembly.spliceTree at h
  cases hroot : Assembly.splitRoot? (Assembly.smoothAll typeset) with
  | none => rw [hroot] at h; cases h
  | some parts =>
    obtain ⟨before, ⟨name, attributes, children⟩, after⟩ := parts
    rw [hroot] at h
    rw [Assembly.splitRoot?_eq hroot, everyOf_append, everyOf_cons] at hclean
    obtain ⟨hbefore, ⟨hhead, hchildren⟩, hafter⟩ := hclean
    have hblank (token fragment : Text) (hf : (Assembly.blanked table).get? token = some fragment) :
        EveryOf Clean (Html.parse fragment) := by
      rw [Assembly.get?_blanked] at hf
      obtain ⟨f, -, rfl⟩ := Option.map_eq_some_iff.1 hf
      exact Assembly.everyOf_parse_blank trivial f
    have hinside := Assembly.yields_spliceRoot (fun _ => trivial) hblank hchildren
      (Html.everyOf_of_forall Html.Node.steady_clean _) {}
    have hpage : EveryOf Safe page := by
      obtain rfl := Except.ok.inj h
      refine everyOf_append.2 ⟨hbefore.imp fun _ => Clean.safe, ⟨⟨?_, ?_⟩, hafter.imp fun _ => Clean.safe⟩⟩
      · exact Clean.safe (n := .element name attributes _) hhead
      · refine everyOf_append.2 ⟨everyOf_append.2 ⟨hinside.imp fun _ => Clean.safe, trivial⟩, ?_⟩
        have hscript := Page.safe_hostScript
        rw [Page.hostScript] at hscript
        split
        · exact hscript
        · exact everyOf_nil
    exact hpage

theorem clean_smoothAll {tree : List Node} (h : EveryOf Clean tree) : EveryOf Clean (Assembly.smoothAll tree) :=
  Assembly.everyOf_smoothAll (fun _ => trivial) tree h (Html.everyOf_of_forall Html.Node.steady_clean tree)

/-- What the standard typesetter makes is free of scripts and handlers. -/
theorem clean_run {markup : Text} {tree : List Node} (h : Typesetter.standard.run markup = .ok tree) : EveryOf Clean tree := by
  obtain rfl := Except.ok.inj h
  exact Typeset.clean_document markup

/-- A rendered tree is safe just if every fragment that was put into it is, and the bibliography. -/
theorem render_safe_iff {c : Config} {raw : Text} {s : State} {p : Preview} (hc : c.typesetter = .standard)
    (h : (render c raw s).1 = .ok p) :
    ∃ typeset, c.typesetter.run (Article.rewrite c.today p.extraction.reduced).markup = .ok typeset ∧
      (EveryOf Safe p.tree ↔
        Assembly.Shown p.extraction.table Safe (Assembly.spliced p.extraction.table typeset) ∧
          ∀ html, p.extraction.bibliography = some html → EveryOf Safe (Html.parse html)) := by
  obtain ⟨typeset, spliced, notices, hrun, hsplice, hlay, -⟩ := render_ok h
  refine ⟨typeset, hrun, ?_⟩
  rw [hc] at hrun
  have hclean := clean_smoothAll (clean_run hrun)
  obtain ⟨page, hpage, hiff⟩ := Assembly.everyOf_spliceTree (P := Safe) trivial (hclean.imp fun _ => Clean.steady) hsplice
  have hsection (html : Text) : (Assembly.bibliographySection html).Every Safe ↔ EveryOf Safe (Html.parse html) := by
    have hhead : (Node.element "div" [("class", "bibliography-section")] (Html.parse html)).Safe :=
      ⟨by decide, fun hn => absurd hn (by decide)⟩
    exact and_iff_right hhead
  have hlayout : EveryOf Safe p.tree ↔ EveryOf Safe spliced := by
    rw [hlay]
    exact ⟨Shrink.everyOf_of_shrinkAll (fun name attributes children inScaled =>
        (Shrink.safe_shrinkTree_iff name attributes children inScaled).1) _ _,
      Shrink.everyOf_shrinkAll (fun name attributes children inScaled =>
        (Shrink.safe_shrinkTree_iff name attributes children inScaled).2) _ _⟩
  rw [hlayout, hiff, and_iff_right (safe_blankPage hclean hpage)]
  refine and_congr_right fun _ => forall_congr' fun html => ?_
  constructor
  · intro hb hsome
    cases html with
    | nil =>
      rw [Assembly.parse_nil]
      trivial
    | cons x html => exact (hsection _).1 (hb hsome (by simp))
  · intro hb hsome _
    exact (hsection html).2 (hb hsome)

/-- A document with a link in a list. -/
theorem render_safe_link : ∃ p, (render { today := ⟨2024, 1, 1⟩ } "\\begin\x7bitemize\x7d\\item \\href\x7bhttp://x\x7d\x7by\x7d\\end\x7bitemize\x7d" {}).1 = .ok p ∧
    ∃ typeset, Typesetter.standard.run (Article.rewrite ⟨2024, 1, 1⟩ p.extraction.reduced).markup = .ok typeset ∧
      (EveryOf Safe p.tree ↔
        Assembly.Shown p.extraction.table Safe (Assembly.spliced p.extraction.table typeset) ∧
          ∀ html, p.extraction.bibliography = some html → EveryOf Safe (Html.parse html)) := by
  have hok : (render { today := ⟨2024, 1, 1⟩ } "\\begin\x7bitemize\x7d\\item \\href\x7bhttp://x\x7d\x7by\x7d\\end\x7bitemize\x7d" {}).1.isOk = true := by
    decide +kernel
  cases h : (render { today := ⟨2024, 1, 1⟩ } "\\begin\x7bitemize\x7d\\item \\href\x7bhttp://x\x7d\x7by\x7d\\end\x7bitemize\x7d" {}).1 with
  | error f =>
    rw [h] at hok
    cases hok
  | ok p => exact ⟨p, rfl, render_safe_iff rfl h⟩

/-- An address in the address of a link: its quotes end the attribute, and what follows is an event handler. -/
theorem addressInAddress_unsafe :
    ∃ p, (render { today := ⟨2024, 1, 1⟩ } "\\begin\x7bitemize\x7d\\item \\href\x7bhttp://x\\url\x7b\" onclick=alert(1) x=\"\x7d\x7d\x7blabel\x7d\\end\x7bitemize\x7d" {}).1 = .ok p ∧
      ¬EveryOf Safe p.tree := by
  have hshown : (match (render { today := ⟨2024, 1, 1⟩ } "\\begin\x7bitemize\x7d\\item \\href\x7bhttp://x\\url\x7b\" onclick=alert(1) x=\"\x7d\x7d\x7blabel\x7d\\end\x7bitemize\x7d" {}).1 with
      | .ok p => (Html.elementsOf p.tree).any fun n => (n.attribute? "onclick").isSome
      | .error _ => false) = true := by decide +kernel
  cases h : (render { today := ⟨2024, 1, 1⟩ } "\\begin\x7bitemize\x7d\\item \\href\x7bhttp://x\\url\x7b\" onclick=alert(1) x=\"\x7d\x7d\x7blabel\x7d\\end\x7bitemize\x7d" {}).1 with
  | error f =>
    rw [h] at hshown
    cases hshown
  | ok p =>
    rw [h] at hshown
    refine ⟨p, rfl, fun hall => ?_⟩
    obtain ⟨n, hn, hclick⟩ := List.any_eq_true.1 hshown
    have hsafe := hall.elements n hn
    cases n with
    | text s => simp [Node.attribute?] at hclick
    | note kind s => simp [Node.attribute?] at hclick
    | element name attributes children =>
      obtain ⟨v, hv⟩ := Option.isSome_iff_exists.1 hclick
      obtain ⟨as, bs, rfl, -⟩ := List.lookup_eq_some_iff.1 hv
      exact hsafe.1.handlers _ (List.mem_append_right as List.mem_cons_self) ⟨"click".toList, rfl⟩

end Rendering

end Galley
