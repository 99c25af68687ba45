import Galley.Proofs.Layout
import Galley.Proofs.PlainDocuments
import Galley.Proofs.RenderRuns
import Galley.Proofs.SoundPages
import Galley.Proofs.Surgery
/-!
# Pages without fragments

Where nothing was taken out of a document, splicing joins and cuts texts only, and the typesetter makes nothing that
the layout shrinks. So the page prints as the typeset tree does (`render_bare`). A plain document is such a document,
and it is reduced to itself (`plain_document_untouched`).
-/

namespace Galley

open Html (Node EveryOf Attribute printNodes everyOf_append everyOf_cons)

/-! ## What is printed -/

namespace Html

/-- A text as it is printed. -/
def shown (raw : Bool) (s : Text) : Text := if raw then s else escape s

theorem shown_append (raw : Bool) (s t : Text) : shown raw (s ++ t) = shown raw s ++ shown raw t := by
  cases raw with
  | true => rfl
  | false => exact List.flatMap_append

theorem printIn_text (raw : Bool) (s : Text) : (Node.text s).printIn raw = shown raw s := rfl

theorem printNodes_append (raw : Bool) (ns ms : List Node) :
    printNodes raw (ns ++ ms) = printNodes raw ns ++ printNodes raw ms := by
  induction ns with
  | nil => rfl
  | cons n ns ih => simp only [List.cons_append, printNodes, ih, List.append_assoc]

/-- Nodes that are printed alike; there are none just where there are no others. -/
structure Alike (ns ms : List Node) : Prop where
  print : ∀ raw, printNodes raw ns = printNodes raw ms
  isEmpty : ns.isEmpty = ms.isEmpty

theorem Alike.printIn {ns ms : List Node} (h : Alike ns ms) (raw : Bool) (name : Text) (attributes : List Attribute) :
    (Node.element name attributes ns).printIn raw = (Node.element name attributes ms).printIn raw := by
  simp only [Node.printIn, h.isEmpty, h.print]

end Html

namespace Assembly

open Html (Alike shown)

/-! ## Joined texts -/

theorem printNodes_joinTexts (raw : Bool) (n : Node) (ns : List Node) :
    printNodes raw (joinTexts n ns) = n.printIn raw ++ printNodes raw ns := by
  unfold joinTexts
  split
  · simp only [printNodes, Html.printIn_text, Html.shown_append, List.append_assoc]
  · rfl

theorem joinTexts_ne_nil (n : Node) (ns : List Node) : joinTexts n ns ≠ [] := by
  unfold joinTexts
  split <;> exact List.cons_ne_nil _ _

mutual

theorem printIn_smooth (raw : Bool) : ∀ n : Node, (smooth n).printIn raw = n.printIn raw
  | .text _ => rfl
  | .note _ _ => rfl
  | .element name attributes children => by
    rw [smooth]
    exact (alike_smoothAll children).printIn raw name attributes

theorem alike_smoothAll : ∀ ns : List Node, Alike (smoothAll ns) ns
  | [] => ⟨fun _ => rfl, rfl⟩
  | n :: ns => by
    rw [smoothAll]
    refine ⟨fun raw => ?_, List.isEmpty_eq_false_iff.2 (joinTexts_ne_nil _ _)⟩
    rw [printNodes_joinTexts, printIn_smooth raw n, (alike_smoothAll ns).print, printNodes]

end

theorem root?_cons_of_not_element {n : Node} (h : ¬n.IsElement) (ns : List Node) : root? (n :: ns) = root? ns := by
  cases n with
  | element name attributes children => exact absurd trivial h
  | _ => simp [root?, splitRoot?, Function.comp_def]

theorem root?_smoothAll (ns : List Node) : root? (smoothAll ns) = (root? ns).map smooth := by
  induction ns with
  | nil => rfl
  | cons n ns ih =>
    rw [smoothAll]
    cases n with
    | element name attributes children =>
      have hjoin (children' : List Node) (ms : List Node) :
          joinTexts (.element name attributes children') ms = .element name attributes children' :: ms := by
        unfold joinTexts
        rfl
      rw [smooth, hjoin]
      simp [root?, splitRoot?, smooth]
    | note kind s =>
      rw [smooth, root?_cons_of_not_element (n := .note kind s) id, ← ih]
      exact root?_cons_of_not_element (n := .note kind s) id _
    | text s =>
      rw [smooth, root?_cons_of_not_element (n := .text s) id, ← ih]
      -- the text may become one with the next, which is no root either
      cases hns : smoothAll ns with
      | nil => rfl
      | cons m ms =>
        cases m with
        | text t =>
          exact (root?_cons_of_not_element (n := .text (s ++ t)) id ms).trans
            (root?_cons_of_not_element (n := .text t) id ms).symm
        | _ => exact root?_cons_of_not_element (n := .text s) id _

/-- The first element of a tree is its root, also with other children. -/
theorem root?_replace {tree before after : List Node} {name : Text} {attributes : List Attribute} {children : List Node}
    (h : splitRoot? tree = some (before, (name, attributes, children), after)) (cs : List Node) :
    root? (before ++ .element name attributes cs :: after) = some (.element name attributes cs) := by
  induction tree generalizing before with
  | nil => cases h
  | cons n tree ih =>
    have next {n : Node} (hn : ¬n.IsElement)
        (h : ((splitRoot? tree).map fun page => (n :: page.1, page.2.1, page.2.2)) =
          some (before, (name, attributes, children), after)) :
        root? (before ++ .element name attributes cs :: after) = some (.element name attributes cs) := by
      obtain ⟨⟨b, r, a⟩, hb, he⟩ := Option.map_eq_some_iff.1 h
      simp only [Prod.mk.injEq] at he
      obtain ⟨rfl, rfl, rfl⟩ := he
      rw [List.cons_append, root?_cons_of_not_element hn]
      exact ih hb
    cases n with
    | element _ _ _ =>
      simp only [splitRoot?, Option.some.injEq, Prod.mk.injEq] at h
      obtain ⟨rfl, ⟨rfl, rfl, rfl⟩, rfl⟩ := h
      rfl
    | text s => exact next id h
    | note kind s => exact next id h

theorem exists_root? {tree : List Node} (h : ∃ n ∈ tree, n.IsElement) : ∃ root, root? tree = some root := by
  induction tree with
  | nil => simp at h
  | cons n tree ih =>
    obtain ⟨m, hm, helement⟩ := h
    have next {n : Node} (hn : ¬n.IsElement) (hm : m ∈ n :: tree) : ∃ root, root? (n :: tree) = some root := by
      rw [root?_cons_of_not_element hn]
      refine ih ⟨m, (List.mem_cons.1 hm).resolve_left ?_, helement⟩
      rintro rfl
      exact hn helement
    cases n with
    | element name attributes children => exact ⟨_, rfl⟩
    | text s => exact next id hm
    | note kind s => exact next id hm

/-! ## Texts that are cut -/

theorem sources_sections {ps : List (Piece Text)} (h : ∀ token source, Piece.hit token source ∈ ps → token = source) :
    (Text.sections ps).1 ++ (Text.sections ps).2.flatMap (fun p => p.1 ++ p.2) = Piece.sources ps := by
  induction ps with
  | nil => rfl
  | cons p ps ih =>
    have hrest := ih fun token source hp => h token source (List.mem_cons_of_mem p hp)
    have hsources : Piece.sources (p :: ps) = p.source ++ Piece.sources ps := List.flatMap_cons
    rw [hsources, ← hrest]
    cases p with
    | char c => rfl
    | hit token source =>
      rw [h token source List.mem_cons_self]
      simp only [Text.sections, Piece.source, List.nil_append, List.flatMap_cons, List.append_assoc]

theorem sources_cut_tokens (s : Text) :
    (Text.sections (s.cut Block.Token.reader)).1 ++
      (Text.sections (s.cut Block.Token.reader)).2.flatMap (fun p => p.1 ++ p.2) = s := by
  refine (sources_sections fun token source h => ?_).trans (Text.sources_cut s)
  rcases Text.mem_cut h with ⟨c, -, he⟩ | ⟨token', before, t, rest, he, -, hread⟩
  · cases he
  · obtain ⟨rfl, rfl⟩ := Piece.hit.inj he
    obtain ⟨⟨name, rest'⟩, -, hr⟩ := Option.map_eq_some_iff.1 hread
    obtain ⟨rfl, rfl⟩ := Prod.mk.inj hr
    rfl

theorem printNodes_textNodes (raw : Bool) (s : Text) : printNodes raw (textNodes s) = shown raw s := by
  unfold textNodes
  split
  · rename_i h
    rw [List.isEmpty_iff.1 h]
    cases raw <;> rfl
  · simp only [printNodes, Html.printIn_text, List.append_nil]

/-- Without fragments a text is printed as it was. -/
theorem printNodes_textPlace (raw : Bool) (s : Text) : printNodes raw (textPlace {} s) = shown raw s := by
  unfold textPlace
  split
  · simp only [printNodes, Html.printIn_text, List.append_nil]
  · have hparts (more : List (Text × Text)) :
        printNodes raw (more.flatMap fun p => tokenPlace {} p.1 ++ textNodes p.2) =
          shown raw (more.flatMap fun p => p.1 ++ p.2) := by
      induction more with
      | nil => cases raw <;> rfl
      | cons p more ih =>
        simp only [List.flatMap_cons, Html.printNodes_append, Html.shown_append, printNodes_textNodes, ih]
        simp only [tokenPlace, Block.Table.get?, List.lookup_nil, printNodes, Html.printIn_text, List.append_nil]
    conv_rhs => rw [← sources_cut_tokens s]
    rw [Html.printNodes_append, printNodes_textNodes, Html.shown_append]
    exact congrArg _ (hparts _)

theorem onlyToken?_nil (ns : List Node) : onlyToken? {} ns = none := by
  unfold onlyToken?
  split
  · exact Option.filter_eq_none_iff.2 fun _ _ => by simp [Block.Table.contains, Block.Table.get?]
  · rfl

theorem full_nil : ∀ token fragment, ({} : Block.Table).get? token = some fragment → Html.parse fragment ≠ [] := by
  intro token fragment h
  cases h

mutual

theorem printNodes_place (raw : Bool) : ∀ n : Node, printNodes raw (place {} n) = n.printIn raw
  | .text s => by rw [place, printNodes_textPlace, Html.printIn_text]
  | .note kind s => by simp only [place, printNodes, List.append_nil]
  | .element name attributes children => by
    rw [place, onlyToken?_nil]
    simp only [printNodes, List.append_nil]
    exact (alike_placeAll children).printIn raw name attributes

/-- Without fragments, all nodes are printed as they were. -/
theorem alike_placeAll : ∀ ns : List Node, Alike (placeAll {} ns) ns
  | [] => ⟨fun _ => rfl, rfl⟩
  | n :: ns => by
    rw [placeAll]
    refine ⟨fun raw => ?_, List.isEmpty_eq_false_iff.2 fun h => ?_⟩
    · rw [Html.printNodes_append, printNodes_place raw n, (alike_placeAll ns).print, printNodes]
    · exact place_ne_nil full_nil n (List.append_eq_nil_iff.1 h).1

end

/-! ## Tokens that are replaced -/

/-- Every token that the work replaces has an entry. -/
def Knows {α : Type} (table : Block.Table) (w : Work α) : Prop :=
  ∀ p : Progress, ∀ token ∈ (w.run p).2.tokens, token ∈ p.tokens ∨ table.contains token = true

namespace Knows

variable {α β : Type} {table : Block.Table} {w : Work α}

theorem pure {a : α} : Knows table (Pure.pure a : Work α) := fun _ _ h => .inl h

theorem bind {next : α → Work β} (hw : Knows table w) (hn : ∀ a, Knows table (next a)) : Knows table (w >>= next) := by
  intro p token h
  rcases hn _ _ token h with h | h
  · exact hw p token h
  · exact .inr h

theorem mapM {f : β → Work α} (h : ∀ b, Knows table (f b)) (bs : List β) : Knows table (bs.mapM f) := by
  induction bs with
  | nil => exact pure
  | cons b bs ih =>
    rw [List.mapM_cons]
    exact (h b).bind fun _ => ih.bind fun _ => pure

theorem tokenNodes (token : Text) : Knows table (tokenNodes table token) := by
  intro p t h
  unfold Assembly.tokenNodes at h
  cases hget : table.get? token with
  | none =>
    rw [hget] at h
    exact .inl h
  | some fragment =>
    rw [hget] at h
    rcases List.mem_append.1 (show t ∈ p.tokens ++ [token] from h) with h | h
    · exact .inl h
    · rw [List.mem_singleton.1 h, Block.Table.contains, hget]
      exact .inr rfl

theorem cutText (s : Text) : Knows table (cutText table s) :=
  (mapM (fun part : Text × Text => (tokenNodes part.1).bind fun _ => pure) _).bind fun _ => pure

theorem spliceText (alone : Bool) (n : Node) (s : Text) : Knows table (spliceText table alone n s) := by
  unfold Assembly.spliceText
  split
  · split
    · exact (tokenNodes _).bind fun _ => pure
    · exact (cutText s).bind fun _ => pure
  · split
    · exact pure
    · exact (cutText s).bind fun _ => pure

/-- A text or note, and then the children behind it. -/
theorem texts {isFirst : Bool} {w : Work Outcome} {rest : Bool → Work Outcome} (hw : Knows table w)
    (hrest : ∀ isFirst', Knows table (rest isFirst')) :
    Knows table (do match ← w with
        | .replaced ns => Pure.pure (.replaced ns)
        | .children ns => Pure.pure ((← rest (isFirst && ns.isEmpty)).after ns)) := by
  refine hw.bind fun o => ?_
  cases o with
  | replaced ns => exact pure
  | children ns => exact (hrest _).bind fun _ => pure

theorem spliceChildren : ∀ (ns : List Node) (replaceable isFirst : Bool),
    Knows table (spliceChildren table replaceable isFirst ns)
  | [], replaceable, isFirst => by
    rw [Assembly.spliceChildren]
    exact pure
  | .element name attributes children :: rest, replaceable, isFirst => by
    rw [Assembly.spliceChildren, Assembly.spliceNode]
    refine Knows.bind ?_ fun ns => (spliceChildren rest replaceable _).bind fun _ => pure
    refine (spliceChildren children true true).bind fun o => ?_
    cases o <;> exact pure
  | .text s :: rest, replaceable, isFirst => by
    rw [Assembly.spliceChildren]
    exact texts (spliceText _ _ s) fun isFirst' => spliceChildren rest replaceable isFirst'
  | .note kind s :: rest, replaceable, isFirst => by
    rw [Assembly.spliceChildren]
    exact texts (spliceText _ _ s) fun isFirst' => spliceChildren rest replaceable isFirst'

theorem spliceRoot (children : List Node) : Knows table (spliceRoot table children) := by
  refine (spliceChildren children false true).bind fun o => ?_
  cases o <;> exact pure

end Knows

/-! ## Whole trees -/

/-- A page without fragments has the elements of the typeset tree, and its root is printed as it was. -/
theorem spliceTree_bare {T : Text → List Attribute → Prop} {tree : List Node} {root : Node} (hof : EveryOf (Node.Of T) tree)
    (hroot : root? tree = some root) :
    ∃ page, (spliceTree {} none tree).1 = .ok page ∧ EveryOf (Node.Of T) page ∧
      (root? page).map Node.print = some root.print := by
  have hsteady (ns : List Node) : EveryOf (Steady (Node.Of T)) ns :=
    Html.everyOf_of_forall (fun n => by cases n <;> simp [Steady, Node.Of]) ns
  have hsmooth : EveryOf (Node.Of T) (smoothAll tree) := everyOf_smoothAll (fun _ => trivial) tree hof (hsteady tree)
  have hjoined : root? (smoothAll tree) = some (smooth root) := by rw [root?_smoothAll, hroot, Option.map_some]
  obtain ⟨⟨before, ⟨name, attributes, children⟩, after⟩, hsplit, hsmoothRoot⟩ := Option.map_eq_some_iff.1 hjoined
  rw [splitRoot?_eq hsplit, everyOf_append, everyOf_cons] at hsmooth
  obtain ⟨hbefore, ⟨hhead, hchildren⟩, hafter⟩ := hsmooth
  have hplain : EveryOf IsPlain children := hchildren.imp fun n hn => by
    cases n with
    | note kind s => exact hn
    | _ => trivial
  -- only diagrams bring a script with them, and there is no token with an entry
  have hnone : ∀ token ∈ ((spliceRoot {} children).run {}).2.tokens, isDiagram token = false := fun token htoken => by
    rcases @Knows.spliceRoot {} children {} token htoken with h | h <;> cases h
  have hspliced := @yields_spliceRoot {} (Node.Of T) (fun _ => trivial) (fun _ _ h => by cases h) children hchildren
    (hsteady children) {}
  have hplaced := (@yields_root_place {} _ hplain {}).eq_iff.2 (settledAll_of_full full_nil children)
  refine ⟨_, spliceTree_eq hsplit hnone, ?_, ?_⟩
  · rw [everyOf_append, everyOf_cons]
    exact ⟨hbefore, ⟨hhead, hspliced⟩, hafter⟩
  · rw [root?_replace hsplit, hplaced, Option.map_some, Option.some.injEq]
    calc (Node.element name attributes (placeAll {} children)).print
        = (Node.element name attributes children).print := (alike_placeAll children).printIn false name attributes
      _ = (smooth root).print := congrArg Node.print hsmoothRoot
      _ = root.print := printIn_smooth false root

end Assembly

/-! ## Layout -/

namespace Shrink

variable {settings : Settings} {w : Widths}

mutual

theorem snd_shrinkTree : ∀ (n : Node) (inScaled : Bool), n.Every (target? · = none) →
    (shrinkTree settings w inScaled n).2 = []
  | .text s, inScaled, _ => by rw [shrinkTree_text]
  | .note kind s, inScaled, _ => by rw [shrinkTree_note]
  | .element name attributes children, inScaled, h => by
    rw [shrinkTree, List.append_eq_nil_iff]
    refine ⟨?_, snd_shrinkAll children _ h.2⟩
    obtain ⟨-, hnone⟩ | ⟨t, scale, ht, -⟩ := @shrink_eq settings w inScaled (.element name attributes children)
    · exact hnone
    · rw [h.1] at ht
      cases ht

/-- Where there is nothing to shrink, nothing is shrunk. -/
theorem snd_shrinkAll : ∀ (ns : List Node) (inScaled : Bool), EveryOf (target? · = none) ns →
    (shrinkAll settings w inScaled ns).2 = []
  | [], inScaled, _ => by rw [shrinkAll]
  | n :: ns, inScaled, h => by
    rw [shrinkAll, List.append_eq_nil_iff]
    exact ⟨snd_shrinkTree n inScaled h.1, snd_shrinkAll ns inScaled h.2⟩

end

end Shrink

namespace Typeset

/-- The typesetter makes nothing that is shrunk. -/
theorem target?_eq_none {n : Node} (h : n.Of PageTag) : Shrink.target? n = none := by
  rw [Shrink.target?, List.find?_eq_none]
  intro t ht hclass
  rw [Node.hasClass, List.contains_iff_mem] at hclass
  have hpage := isPageClass_of_mem h hclass
  rw [(by decide : ∀ t ∈ Shrink.targets, isPageClass t.1 = false) t ht] at hpage
  cases hpage

theorem exists_root (markup : Text) : ∃ root, Assembly.root? (document markup) = some root := by
  have hsource : emitted (Latex.read markup) = '<' :: (Html.startSource "div" [("class", "latex-preview")] ++
      (((documentMarkup (Latex.read markup)).run {}).1 ++ "</div>")) := List.append_assoc _ _ _
  rw [document_eq, hsource]
  have htag : PageTag "div" [("class", "latex-preview")] := by decide
  have htokens := Html.tokens_startTag htag.plainName (by decide) htag.plain.readable
    (((documentMarkup (Latex.read markup)).run {}).1 ++ "</div>")
  exact Assembly.exists_root? (Html.exists_element_parse htokens)

end Typeset

/-! ## Rendered documents -/

namespace Rendering

theorem typeset_of_render {c : Config} {markup : Text} {e : Reduction} {page : List Node}
    (haccepts : Integrity.accepts c.kit.settings.gatekeeperTolerance (Integrity.count markup) = true)
    (hpage : (Assembly.render c.typesetter e.table e.bibliography markup).1 = .ok page) :
    (typeset c markup e).1 = .ok (Integrity.count markup, page) := by
  unfold typeset Integrity.check
  dsimp only
  rw [if_pos haccepts]
  revert hpage
  rcases Assembly.render c.typesetter e.table e.bibliography markup with ⟨tree, notices⟩
  rintro rfl
  rfl

/-- A document out of which nothing was taken is rendered as its markup is typeset. -/
theorem render_bare {c : Config} {raw : Text} {e : Reduction} (hstandard : c.typesetter = .standard)
    (hrun : ((Reduction.run c.kit raw).run {}).1 = .ok e) (htable : e.table = {}) (hbibliography : e.bibliography = none)
    (hsize : raw.length ≤ c.kit.settings.maxDocumentChars)
    (haccepts : Integrity.accepts c.kit.settings.gatekeeperTolerance
      (Integrity.count (Article.rewrite c.today e.reduced).markup) = true) (s : State) :
    ∃ p root, (render c raw s).1 = .ok p ∧
      Assembly.root? (Typeset.document (Article.rewrite c.today e.reduced).markup) = some root ∧ p.html = root.print := by
  obtain ⟨root, hroot⟩ := Typeset.exists_root (Article.rewrite c.today e.reduced).markup
  obtain ⟨page, hpage, hof, hprint⟩ := Assembly.spliceTree_bare (Typeset.of_document _) hroot
  have htarget : EveryOf (Shrink.target? · = none) page := hof.imp fun _ => Typeset.target?_eq_none
  obtain ⟨s', hextract⟩ : ∃ s', extract c raw s = (.ok e, s') := by
    unfold extract
    revert hrun
    rcases (Reduction.run c.kit raw).run {} with ⟨result, bench⟩
    rintro rfl
    exact ⟨_, rfl⟩
  have hpruned : (prepare c e).2.table = {} := by
    rw [prepare, htable]
    rfl
  have hassembled : (Assembly.render c.typesetter (prepare c e).2.table (prepare c e).2.bibliography
      (prepare c e).1.markup).1 = .ok page := by
    rw [hstandard, hpruned, show (prepare c e).2.bibliography = none from hbibliography]
    exact hpage
  have htypeset : (typeset c (prepare c e).1.markup (prepare c e).2).1 = .ok (Integrity.count (prepare c e).1.markup, page) :=
    typeset_of_render haccepts hassembled
  obtain ⟨p, t, u, hp, htree⟩ : ∃ p t u, render c raw s = (.ok p, u) ∧ p.tree = (attach c page t).1 := by
    unfold render
    rw [if_neg (Nat.not_lt.2 hsize), hextract]
    dsimp only
    revert htypeset
    rcases typeset c (prepare c e).1.markup (prepare c e).2 with ⟨result, notices⟩
    rintro rfl
    exact ⟨_, (s'.notifyAll (Article.notices e.reduced)).notifyAll notices, _, rfl, rfl⟩
  refine ⟨p, root, congrArg Prod.fst hp, hroot, ?_⟩
  have hlaid := Shrink.shrinkAll_eq page false 
    (@Shrink.snd_shrinkAll c.kit.settings (.ofSettings c.kit.settings) page false htarget)
  rw [Preview.html, htree, (attach_surface c page t).1, hlaid, hprint, Option.getD_some]

end Rendering

/-! ## Plain documents -/

/-- A document of running text, the markers of the document, headings and emphasis is reduced to itself, with no
    fragments and no bibliography, unless a heading announces a bibliography. If it is not too large and not refused,
    it is rendered, and its page is printed as the root of what the typesetter makes of its article. -/
theorem plain_document_untouched {ps : List Passage} (hps : ∀ p ∈ ps, p.isPlain = true) :
    (∀ kit, ∃ e, ((Reduction.run kit (markup ps)).run {}).1 = .ok e ∧ e.reduced = markup ps ∧ e.table = {} ∧
        e.bibliography = none) ∧
      ∀ c : Rendering.Config, c.typesetter = .standard → (markup ps).length ≤ c.kit.settings.maxDocumentChars →
        Integrity.accepts c.kit.settings.gatekeeperTolerance
          (Integrity.count (Article.rewrite c.today (markup ps)).markup) = true →
        ∀ s, ∃ p root, (Rendering.render c (markup ps) s).1 = .ok p ∧
          Assembly.root? (Typeset.document (Article.rewrite c.today (markup ps)).markup) = some root ∧ p.html = root.print := by
  refine ⟨run_markup hps, fun c hstandard hsize haccepts s => ?_⟩
  obtain ⟨e, hrun, hreduced, htable, hbibliography⟩ := run_markup hps c.kit
  have hrender := Rendering.render_bare hstandard hrun htable hbibliography hsize (by rwa [hreduced]) s
  rwa [hreduced] at hrender

/-- A section with a sentence in bold face. -/
theorem section_untouched :
    let ps : List Passage :=
      [.opening, .heading false "Intro", .text " Plain ", .emphasis true "bold", .text " text. ", .closing]
    let c : Rendering.Config := { today := ⟨2024, 2, 29⟩ }
    (∃ e, ((Reduction.run {} (markup ps)).run {}).1 = .ok e ∧ e.reduced = markup ps ∧ e.table = {} ∧
        e.bibliography = none) ∧
      ∃ p root, (Rendering.render c (markup ps) {}).1 = .ok p ∧
        Assembly.root? (Typeset.document (Article.rewrite c.today (markup ps)).markup) = some root ∧ p.html = root.print := by
  intro ps c
  have hps : ∀ p ∈ ps, p.isPlain = true := by decide
  have hsize : (markup ps).length ≤ c.kit.settings.maxDocumentChars := by decide
  have haccepts : Integrity.accepts c.kit.settings.gatekeeperTolerance
      (Integrity.count (Article.rewrite c.today (markup ps)).markup) = true := by decide +kernel
  exact ⟨(plain_document_untouched hps).1 {}, (plain_document_untouched hps).2 c rfl hsize haccepts {}⟩

/-- A heading between spaces announces a bibliography; it is dropped. -/
theorem spaced_heading_dropped :
    let title : Text := " References "
    title.all Passage.isRunning = true ∧
      title.map foldChar ∉ (["references", "bibliography", "works cited"] : List Text) ∧
      ∃ e, ((Reduction.run {} (markup [.heading false title])).run {}).1 = .ok e ∧
        e.reduced ≠ markup [.heading false title] := by
  intro title
  refine ⟨by decide, by decide, ?_⟩
  have hreduced : ((Reduction.run {} (markup [.heading false title])).run {}).1.toOption.map Reduction.reduced = some [] := by
    decide +kernel
  obtain ⟨e, he, hnil⟩ := Option.map_eq_some_iff.1 hreduced
  refine ⟨e, ?_, by rw [hnil]; exact (List.cons_ne_nil _ _).symm⟩
  revert he
  cases ((Reduction.run {} (markup [.heading false title])).run {}).1 with
  | error f => exact fun he => by cases he
  | ok e' => exact fun he => congrArg _ (Option.some.inj he)

end Galley
