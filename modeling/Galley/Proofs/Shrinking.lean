import Galley.Proofs.Layout
import Galley.Proofs.Styles
import Galley.Proofs.Tags
/-!
# What a pass over a tree changes

A pass sets styles of what may be shrunk and leaves everything else of a tree as it was (`restyledAll_shrinkAll`).
Where widths depend on text only, a second pass gives what the first one gave (`shrinkAll_shrinkAll`): an
element matches and measures as before, and the same properties are set again.
-/

namespace Galley

open Html (Node)

/-! ## Trees without attributes -/

namespace Html

mutual

/-- The names and texts of a tree. -/
def Node.bare : Node → Node
  | .element name _ children => .element name [] (bareAll children)
  | n => n

def bareAll : List Node → List Node
  | [] => []
  | n :: ns => n.bare :: bareAll ns

end

mutual

theorem Node.strings_bare : ∀ n : Node, n.bare.strings = n.strings
  | .text _ => rfl
  | .note _ _ => rfl
  | .element name _ children => by simp only [Node.bare, Node.strings, stringsOf_bareAll children]

theorem stringsOf_bareAll : ∀ ns : List Node, stringsOf (bareAll ns) = stringsOf ns
  | [] => rfl
  | n :: ns => by simp only [bareAll, stringsOf, n.strings_bare, stringsOf_bareAll ns]

end

mutual

theorem Node.elements_bare : ∀ n : Node, n.bare.elements = n.elements.map Node.bare
  | .text _ => rfl
  | .note _ _ => rfl
  | .element name _ children => by simp only [Node.bare, Node.elements, elementsOf_bareAll children, List.map_cons]

theorem elementsOf_bareAll : ∀ ns : List Node, elementsOf (bareAll ns) = (elementsOf ns).map Node.bare
  | [] => rfl
  | n :: ns => by simp only [bareAll, elementsOf, n.elements_bare, elementsOf_bareAll ns, List.map_append]

end

theorem Node.strippedText_bare (sep : Text) (n : Node) : n.bare.strippedText sep = n.strippedText sep := by
  cases n with
  | text s => rfl
  | note kind s => rfl
  | element name attributes children =>
    simp only [Node.bare, Node.strippedText, Node.innerStrings, stringsOf_bareAll]

theorem Node.hasName_bare (name : Text) (n : Node) : n.bare.hasName name = n.hasName name := by
  cases n <;> rfl

end Html

namespace Measurer

open Html (bareAll)

variable (m : Measurer)

theorem inside_bare (n : Node) : inside n.bare = (inside n).map Node.bare := by
  rw [inside, n.elements_bare, ← List.map_drop, inside]

theorem rowWidth_bare (row : Node) : m.rowWidth row.bare = m.rowWidth row := by
  simp only [rowWidth, inside_bare, List.filter_map, Function.comp_def, Node.hasName_bare, List.foldl_map,
    Node.strippedText_bare]

/-- The width that an element needs depends on names and texts only. -/
theorem neededWidth_bare (n : Node) : m.neededWidth n.bare = m.neededWidth n := by
  unfold neededWidth
  simp only [inside_bare, List.filter_map, Function.comp_def, Node.hasName_bare, Node.strippedText_bare]
  cases (inside n).filter (·.hasName "tr") with
  | nil => rfl
  | cons row rows => simp only [List.map_cons, List.foldl_map, rowWidth_bare]

end Measurer

/-! ## What a pass changes -/

namespace Shrink

open Html (bareAll)

/-- A formula on a line of its own or the frame of a table. -/
def IsTarget (n : Node) : Prop := "math-display".toList ∈ n.classes ∨ "table-wrapper".toList ∈ n.classes

mutual

/-- The second node is the first with other styles of targets that are not inside what is scaled already. -/
def Restyled (inScaled : Bool) : Node → Node → Prop
  | .element name attributes children, .element name' attributes' children' =>
    name' = name ∧
      (attributes' = attributes ∨ inScaled = false ∧ IsTarget (.element name attributes children) ∧
        attributes'.filter (·.1 ≠ "style".toList) = attributes.filter (·.1 ≠ "style".toList)) ∧
      RestyledAll (inScaled || (Node.element name attributes children).hasClass scaledClass) children children'
  | n, n' => n' = n

def RestyledAll (inScaled : Bool) : List Node → List Node → Prop
  | [], ns' => ns' = []
  | n :: ns, n' :: ns' => Restyled inScaled n n' ∧ RestyledAll inScaled ns ns'
  | _ :: _, [] => False

end

variable {settings : Settings} {w : Widths} {m : Measurer}

theorem isTarget_of_target? {n : Node} {t : Text × Text} (h : target? n = some t) : IsTarget n := by
  have hclass : n.hasClass t.1 = true := List.find?_some (p := fun t : Text × Text => n.hasClass t.1) h
  have hmem := List.mem_of_find?_eq_some h
  rw [Node.hasClass, List.contains_iff_mem] at hclass
  rcases List.mem_cons.1 hmem with rfl | hmem
  · exact .inl hclass
  · rw [List.mem_singleton.1 hmem] at hclass
    exact .inr hclass

/-- An attribute is set in its place or behind the others. -/
theorem exists_setAttribute (name value tag : Text) (attributes : List Html.Attribute) (children : List Node) :
    ∃ attributes', (Node.element tag attributes children).setAttribute name value = .element tag attributes' children ∧
      attributes'.filter (·.1 ≠ name) = attributes.filter (·.1 ≠ name) := by
  by_cases hany : attributes.any (·.1 = name) = true
  · refine ⟨_, if_pos hany, ?_⟩
    clear hany
    induction attributes with
    | nil => rfl
    | cons a attributes ih =>
      by_cases ha : a.1 = name
      · simpa [ha] using ih
      · simpa [ha] using ih
  · exact ⟨_, if_neg hany, by simp⟩

/-- The target that an element is and the scale at which it fits, if it is to be shrunk. -/
def change? (s : Settings) (w : Widths) (inScaled : Bool) (n : Node) : Option ((Text × Text) × Float) :=
  if inScaled then none else (target? n).bind fun t => (scale? s w n).map (t, ·)

theorem shrink_change (inScaled : Bool) (n : Node) :
    shrink settings w inScaled n = match change? settings w inScaled n with
      | none => (n, [])
      | some (t, scale) => (Style.set (properties t.2 scale) n, [(t.1, scale)]) := by
  unfold shrink change?
  split
  · rfl
  · cases target? n with
    | none => rfl
    | some t => cases scale? settings w n <;> rfl

theorem target_of_change? {inScaled : Bool} {n : Node} {t : Text × Text} {scale : Float}
    (h : change? settings w inScaled n = some (t, scale)) : inScaled = false ∧ target? n = some t := by
  unfold change? at h
  split at h
  · cases h
  · rename_i hscaled
    obtain ⟨t', ht, hscale⟩ := Option.bind_eq_some_iff.1 h
    obtain ⟨_, -, heq⟩ := Option.map_eq_some_iff.1 hscale
    obtain ⟨rfl, -⟩ := Prod.mk.inj heq
    exact ⟨by simpa using hscaled, ht⟩

theorem shrink_element (inScaled : Bool) (name : Text) (attributes : List Html.Attribute) (children : List Node) :
    ∃ attributes', (shrink settings w inScaled (.element name attributes children)).1 = .element name attributes' children ∧
      (attributes' = attributes ∨ inScaled = false ∧ IsTarget (.element name attributes children) ∧
        attributes'.filter (·.1 ≠ "style".toList) = attributes.filter (·.1 ≠ "style".toList)) := by
  rw [shrink_change]
  cases hchange : change? settings w inScaled (.element name attributes children) with
  | none => exact ⟨attributes, rfl, .inl rfl⟩
  | some change =>
    obtain ⟨hout, ht⟩ := target_of_change? hchange
    obtain ⟨attributes', heq, hothers⟩ := exists_setAttribute "style" _ name attributes children
    exact ⟨attributes', heq, .inr ⟨hout, isTarget_of_target? ht, hothers⟩⟩

mutual

/-- A pass sets the styles of targets and nothing else. -/
theorem restyled_shrinkTree : ∀ (n : Node) (inScaled : Bool), Restyled inScaled n (shrinkTree settings w inScaled n).1
  | .text s, inScaled => by
    rw [shrinkTree_text]
    rfl
  | .note kind s, inScaled => by
    rw [shrinkTree_note]
    rfl
  | .element name attributes children, inScaled => by
    have hinside := restyledAll_shrinkAll children (inScaled || (Node.element name attributes children).hasClass scaledClass)
    rw [shrinkTree]
    dsimp only
    obtain ⟨attributes', heq, hothers⟩ := @shrink_element settings w inScaled name attributes children
    rw [heq]
    exact ⟨rfl, hothers, hinside⟩

theorem restyledAll_shrinkAll : ∀ (ns : List Node) (inScaled : Bool), RestyledAll inScaled ns (shrinkAll settings w inScaled ns).1
  | [], inScaled => by
    rw [shrinkAll]
    rfl
  | n :: ns, inScaled => by
    rw [shrinkAll]
    exact ⟨restyled_shrinkTree n inScaled, restyledAll_shrinkAll ns inScaled⟩

end

/-! ## A pass that is executed again -/

mutual

theorem bare_shrinkTree : ∀ (n : Node) (inScaled : Bool), (shrinkTree settings w inScaled n).1.bare = n.bare
  | .text s, inScaled => by rw [shrinkTree_text]
  | .note kind s, inScaled => by rw [shrinkTree_note]
  | .element name attributes children, inScaled => by
    obtain ⟨attributes', inScaled', heq, -⟩ := @shrinkTree_element settings w inScaled name attributes children
    rw [heq, Node.bare, Node.bare, bareAll_shrinkAll children inScaled']

theorem bareAll_shrinkAll : ∀ (ns : List Node) (inScaled : Bool), bareAll (shrinkAll settings w inScaled ns).1 = bareAll ns
  | [], inScaled => by rw [shrinkAll]
  | n :: ns, inScaled => by
    rw [shrinkAll]
    simp only [bareAll, bare_shrinkTree n inScaled, bareAll_shrinkAll ns inScaled]

end

theorem nodup_properties (origin : Text) (scale : Float) : ((Style.dashed (properties origin scale)).map Prod.fst).Nodup := by
  have hnames : (Style.dashed (properties origin scale)).map Prod.fst =
      texts ["transform", "transform-origin", "width", "overflow-x"] := rfl
  rw [hnames]
  decide

theorem isDeclaration_properties {t : Text × Text} (ht : t ∈ targets) (scale : Float) :
    ∀ d ∈ Style.dashed (properties t.2 scale), Style.IsDeclaration d := by
  have hfixed {places : Nat} {x : Float} {c : Char} (h : c ∈ Decimal.fixed places x) : isBlank c = false ∧ c ≠ ';' := by
    rcases Decimal.mem_fixed h with h | h
    · refine ⟨Html.not_isBlank_of_isNameLetter ?_, ?_⟩
      · have hdigit : Html.isAsciiDigit c = true := by
          simp only [Char.isDigit, Bool.and_eq_true, decide_eq_true_eq] at h
          exact Bool.and_eq_true_iff.2 ⟨decide_eq_true h.1, decide_eq_true h.2⟩
        simp [Html.isNameLetter, hdigit]
      · rintro rfl
        cases h
    · exact (by decide : ∀ c ∈ ['-', '.', 'n', 'a', 'i', 'f'], isBlank c = false ∧ c ≠ ';') c h
  have hscale : ∀ c ∈ "scale(" ++ Decimal.fixed 3 scale ++ ")", isBlank c = false ∧ c ≠ ';' := by
    intro c hc
    rcases List.mem_append.1 hc with hc | hc
    · rcases List.mem_append.1 hc with hc | hc
      · exact (by decide : ∀ c ∈ "scale(".toList, isBlank c = false ∧ c ≠ ';') c hc
      · exact hfixed hc
    · exact (by decide : ∀ c ∈ ")".toList, isBlank c = false ∧ c ≠ ';') c hc
  have hwidth : ∀ c ∈ Decimal.fixed 1 (100 / scale) ++ "%".toList, isBlank c = false ∧ c ≠ ';' := by
    intro c hc
    rcases List.mem_append.1 hc with hc | hc
    · exact hfixed hc
    · exact (by decide : ∀ c ∈ "%".toList, isBlank c = false ∧ c ≠ ';') c hc
  have horigin : Text.Stripped t.2 ∧ ';' ∉ t.2 := by
    rcases List.mem_cons.1 ht with rfl | ht
    · exact ⟨.of_ends (a := 'l') (b := 'r') rfl rfl (by decide), by decide⟩
    · rw [List.mem_singleton.1 ht]
      exact ⟨.of_ends (a := 'l') (b := 'p') rfl rfl (by decide), by decide⟩
  have hvalue {s : Text} (hs : ∀ c ∈ s, isBlank c = false ∧ c ≠ ';') : Text.Stripped s ∧ ';' ∉ s :=
    ⟨.of_forall fun c hc => (hs c hc).1, fun hc => (hs _ hc).2 rfl⟩
  have hdeclared {name value : Text} (hname : name ≠ [] ∧ (∀ c ∈ name, isBlank c = false ∧ c ≠ ';' ∧ c ≠ ':'))
      (hvalue : Text.Stripped value ∧ ';' ∉ value) : Style.IsDeclaration (name, value) :=
    ⟨hname.1, .of_forall fun c hc => (hname.2 c hc).1, hvalue.1, fun hc => (hname.2 _ hc).2.2 rfl,
      fun hc => (hname.2 _ hc).2.1 rfl, hvalue.2⟩
  intro d hd
  simp only [Style.dashed, properties, List.map_cons, List.map_nil, List.mem_cons, List.not_mem_nil, or_false] at hd
  rcases hd with rfl | rfl | rfl | rfl
  · exact hdeclared (by decide) (hvalue hscale)
  · exact hdeclared (by decide) horigin
  · exact hdeclared (by decide) (hvalue hwidth)
  · exact hdeclared (by decide) (hvalue (by decide))

/-- What is matched and measured of an element does not depend on its style. -/
theorem change?_congr {n n' : Node} (hclass : n'.attribute? "class" = n.attribute? "class") (hbare : n'.bare = n.bare)
    (inScaled : Bool) : change? settings m inScaled n' = change? settings m inScaled n := by
  have htarget : target? n' = target? n := by
    simp only [target?, Node.hasClass, Node.classes, hclass]
  have hneeded : m.neededWidth n' = m.neededWidth n := by
    rw [← m.neededWidth_bare n', hbare, m.neededWidth_bare]
  have hscale : scale? settings m n' = scale? settings m n := by
    simp only [scale?, Measurer.widths, hneeded]
    rfl
  simp only [change?, htarget, hscale]

theorem withChildren_set (ps : Style.Declarations) (n : Node) (children : List Node) :
    (Style.set ps n).withChildren children = Style.set ps (n.withChildren children) := by
  cases n with
  | text s => rfl
  | note kind s => rfl
  | element name attributes cs =>
    by_cases hany : attributes.any (·.1 = "style".toList) = true
    · simp only [Style.set, Node.withChildren, Node.setAttribute, if_pos hany]
      rfl
    · simp only [Style.set, Node.withChildren, Node.setAttribute, if_neg hany]
      rfl

theorem bare_set (ps : Style.Declarations) (n : Node) : (Style.set ps n).bare = n.bare := by
  cases n with
  | text s => rfl
  | note kind s => rfl
  | element name attributes children =>
    obtain ⟨attributes', heq, -⟩ := exists_setAttribute "style" (Style.print ((Style.dashed ps).foldl Style.put
      (Style.read (((Node.element name attributes children).attribute? "style").getD [])))) name attributes children
    exact (congrArg Node.bare heq).trans rfl

theorem class_set (ps : Style.Declarations) (n : Node) : (Style.set ps n).attribute? "class" = n.attribute? "class" :=
  Node.attribute?_setAttribute_of_ne (by decide) n

/-- An element that was shrunk matches and measures as it did before, so that the same style is set again. -/
theorem shrink_again {n : Node} {children : List Node} (hbare : (n.withChildren children).bare = n.bare) (inScaled : Bool) :
    ((shrink settings m inScaled n).1.withChildren children).attribute? "class" = n.attribute? "class" ∧
      shrink settings m inScaled ((shrink settings m inScaled n).1.withChildren children) =
        ((shrink settings m inScaled n).1.withChildren children, (shrink settings m inScaled n).2) := by
  have hclass : (n.withChildren children).attribute? "class" = n.attribute? "class" := by cases n <;> rfl
  rw [shrink_change inScaled n]
  cases hchange : change? settings m inScaled n with
  | none =>
    dsimp only
    rw [shrink_change, change?_congr hclass hbare, hchange]
    exact ⟨hclass, rfl⟩
  | some change =>
    obtain ⟨t, scale⟩ := change
    obtain ⟨-, ht⟩ := target_of_change? hchange
    have hclass' := (class_set (properties t.2 scale) (n.withChildren children)).trans hclass
    have hbare' := (bare_set (properties t.2 scale) (n.withChildren children)).trans hbare
    dsimp only
    rw [withChildren_set, shrink_change, change?_congr hclass' hbare', hchange]
    dsimp only
    rw [Style.set_set (nodup_properties _ _) (isDeclaration_properties (List.mem_of_find?_eq_some ht) scale)]
    exact ⟨hclass', rfl⟩

mutual

theorem shrinkTree_shrinkTree : ∀ (n : Node) (inScaled : Bool),
    shrinkTree settings m inScaled (shrinkTree settings m inScaled n).1 = shrinkTree settings m inScaled n
  | .text s, inScaled => by rw [shrinkTree_text, shrinkTree_text]
  | .note kind s, inScaled => by rw [shrinkTree_note, shrinkTree_note]
  | .element name attributes children, inScaled => by
    generalize hb : (inScaled || (Node.element name attributes children).hasClass scaledClass) = inside
    have hchildren := shrinkAll_shrinkAll children inside
    obtain ⟨hclass, hagain⟩ := @shrink_again settings m (.element name attributes children)
      (shrinkAll settings m inside children).1
      (by simp only [Node.withChildren, Node.bare, bareAll_shrinkAll]) inScaled
    have hfirst : shrinkTree settings m inScaled (.element name attributes children) =
        ((shrink settings m inScaled (.element name attributes children)).1.withChildren (shrinkAll settings m inside children).1,
          (shrink settings m inScaled (.element name attributes children)).2 ++ (shrinkAll settings m inside children).2) := by
      rw [shrinkTree]
      dsimp only
      rw [hb]
    obtain ⟨attributes', heq, -⟩ := @shrink_element settings m inScaled name attributes children
    rw [hfirst]
    dsimp only
    rw [heq] at hclass hagain ⊢
    simp only [Node.withChildren] at hclass hagain ⊢
    rw [shrinkTree]
    dsimp only
    have hscaled : (Node.element name attributes' (shrinkAll settings m inside children).1).hasClass scaledClass =
        (Node.element name attributes children).hasClass scaledClass := by
      simp only [Node.hasClass, Node.classes, hclass]
    rw [hagain, hscaled, hb, hchildren]
    rfl

/-- Where widths depend on text only, a second pass gives what the first one gave. -/
theorem shrinkAll_shrinkAll : ∀ (ns : List Node) (inScaled : Bool),
    shrinkAll settings m inScaled (shrinkAll settings m inScaled ns).1 = shrinkAll settings m inScaled ns
  | [], inScaled => by simp only [shrinkAll]
  | n :: ns, inScaled => by
    simp only [shrinkAll, shrinkTree_shrinkTree n inScaled, shrinkAll_shrinkAll ns inScaled]

end

end Shrink

end Galley
