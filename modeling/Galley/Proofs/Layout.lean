import Galley.Rendering
import Galley.Proofs.Trees
/-!
# What a rendered tree is made of

A document that is rendered was reduced, typeset, spliced and laid out (`render_ok`). The layout pass sets
styles and nothing else, so what a styled element keeps holds of every node behind the pass as it did before
(`everyOf_shrinkAll`); a pass that adjusts nothing gives back the tree (`shrinkAll_eq`).
-/

namespace Galley

open Html (Node EveryOf everyOf_cons everyOf_nil)

/-! ## The layout pass -/

namespace Shrink

variable {settings : Settings} {m : Widths}

/-- An element is given back as it is, or with another style. -/
theorem shrink_eq (inScaled : Bool) (n : Node) :
    ((shrink settings m inScaled n).1 = n ∧ (shrink settings m inScaled n).2 = []) ∨
      ∃ t scale, target? n = some t ∧
        shrink settings m inScaled n = (Style.set (properties t.2 scale) n, [(t.1, scale)]) := by
  unfold shrink
  split
  · exact .inl ⟨rfl, rfl⟩
  · split
    · rename_i name origin scale ht _
      exact .inr ⟨(name, origin), scale, ht, rfl⟩
    · exact .inl ⟨rfl, rfl⟩

theorem shrinkTree_text (inScaled : Bool) (s : Text) : shrinkTree settings m inScaled (.text s) = (.text s, []) := by
  rw [shrinkTree]
  exact fun _ _ _ he => Node.noConfusion he

theorem shrinkTree_note (inScaled : Bool) (kind : Html.NoteKind) (s : Text) :
    shrinkTree settings m inScaled (.note kind s) = (.note kind s, []) := by
  rw [shrinkTree]
  exact fun _ _ _ he => Node.noConfusion he

/-- An element stays an element of its name; its attributes change only if it is a target. -/
theorem shrinkTree_element (inScaled : Bool) (name : Text) (attributes : List Html.Attribute) (children : List Node) :
    ∃ attributes' inScaled', (shrinkTree settings m inScaled (.element name attributes children)).1 =
        .element name attributes' (shrinkAll settings m inScaled' children).1 ∧
      (attributes' = attributes ∨ ∃ t scale, target? (.element name attributes children) = some t ∧
        Style.set (properties t.2 scale) (.element name attributes children) = .element name attributes' children) := by
  rw [shrinkTree]
  dsimp only
  obtain ⟨hsame, -⟩ | ⟨t, scale, ht, hset⟩ := @shrink_eq settings m inScaled
    (.element name attributes children)
  · rw [hsame]
    exact ⟨attributes, _, rfl, .inl rfl⟩
  · obtain ⟨attributes', hattributes⟩ : ∃ attributes', Style.set (properties t.2 scale) (.element name attributes children) =
        .element name attributes' children := by
      simp only [Style.set, Node.setAttribute]
      split <;> exact ⟨_, rfl⟩
    rw [hset]
    rw [hattributes]
    exact ⟨attributes', _, rfl, .inr ⟨t, scale, ht, hattributes⟩⟩

section Every

variable {P : Node → Prop}

mutual

/-- `P` holds of every node behind the pass if an element keeps it that is shrunk with all that is inside. -/
theorem every_shrinkTree
    (hkeep : ∀ name attributes children inScaled, P (.element name attributes children) →
      P (shrinkTree settings m inScaled (.element name attributes children)).1) :
    ∀ (n : Node) (inScaled : Bool), n.Every P → (shrinkTree settings m inScaled n).1.Every P
  | .text s, inScaled, h => by rwa [shrinkTree_text]
  | .note kind s, inScaled, h => by rwa [shrinkTree_note]
  | .element name attributes children, inScaled, h => by
    have hhead := hkeep name attributes children inScaled h.1
    obtain ⟨attributes', inScaled', heq, -⟩ := @shrinkTree_element settings m inScaled name attributes children
    rw [heq] at hhead ⊢
    exact ⟨hhead, everyOf_shrinkAll hkeep children inScaled' h.2⟩

theorem everyOf_shrinkAll
    (hkeep : ∀ name attributes children inScaled, P (.element name attributes children) →
      P (shrinkTree settings m inScaled (.element name attributes children)).1) :
    ∀ (ns : List Node) (inScaled : Bool), EveryOf P ns → EveryOf P (shrinkAll settings m inScaled ns).1
  | [], inScaled, _ => by rw [shrinkAll]; trivial
  | n :: ns, inScaled, h => by
    rw [shrinkAll]
    exact ⟨every_shrinkTree hkeep n inScaled h.1, everyOf_shrinkAll hkeep ns inScaled h.2⟩

end

mutual

/-- `P` held of every node before the pass if the pass brings it to no element. -/
theorem every_of_shrinkTree
    (hback : ∀ name attributes children inScaled,
      P (shrinkTree settings m inScaled (.element name attributes children)).1 → P (.element name attributes children)) :
    ∀ (n : Node) (inScaled : Bool), (shrinkTree settings m inScaled n).1.Every P → n.Every P
  | .text s, inScaled, h => by rwa [shrinkTree_text] at h
  | .note kind s, inScaled, h => by rwa [shrinkTree_note] at h
  | .element name attributes children, inScaled, h => by
    have hhead := hback name attributes children inScaled
    obtain ⟨attributes', inScaled', heq, -⟩ := @shrinkTree_element settings m inScaled name attributes children
    rw [heq] at hhead h
    exact ⟨hhead h.1, everyOf_of_shrinkAll hback children inScaled' h.2⟩

theorem everyOf_of_shrinkAll
    (hback : ∀ name attributes children inScaled,
      P (shrinkTree settings m inScaled (.element name attributes children)).1 → P (.element name attributes children)) :
    ∀ (ns : List Node) (inScaled : Bool), EveryOf P (shrinkAll settings m inScaled ns).1 → EveryOf P ns
  | [], inScaled, _ => trivial
  | n :: ns, inScaled, h => by
    rw [shrinkAll] at h
    exact ⟨every_of_shrinkTree hback n inScaled h.1, everyOf_of_shrinkAll hback ns inScaled h.2⟩

end

end Every

mutual

theorem shrinkTree_eq : ∀ (n : Node) (inScaled : Bool), (shrinkTree settings m inScaled n).2 = [] →
    (shrinkTree settings m inScaled n).1 = n
  | .text s, inScaled, _ => by rw [shrinkTree_text]
  | .note kind s, inScaled, _ => by rw [shrinkTree_note]
  | .element name attributes children, inScaled, h => by
    rw [shrinkTree] at h ⊢
    obtain ⟨hhead, hinside⟩ := List.append_eq_nil_iff.1 h
    dsimp only
    rw [shrinkAll_eq children _ hinside]
    obtain ⟨hsame, -⟩ | ⟨t, scale, -, hset⟩ := @shrink_eq settings m inScaled
      (.element name attributes children)
    · rw [hsame]
      rfl
    · rw [hset] at hhead
      cases hhead

/-- A pass that shrinks nothing changes nothing. -/
theorem shrinkAll_eq : ∀ (ns : List Node) (inScaled : Bool), (shrinkAll settings m inScaled ns).2 = [] →
    (shrinkAll settings m inScaled ns).1 = ns
  | [], inScaled, _ => by rw [shrinkAll]
  | n :: ns, inScaled, h => by
    rw [shrinkAll] at h ⊢
    obtain ⟨hhead, hinside⟩ := List.append_eq_nil_iff.1 h
    dsimp only
    rw [shrinkTree_eq n inScaled hhead, shrinkAll_eq ns inScaled hinside]

end

end Shrink

/-! ## Documents that are rendered -/

/-- The ticket of a tree that has just been attached is current. -/
theorem Surface.layOut_attach (surface : Surface) (settings : Settings) (m : Widths) (tree : List Node) :
    ((surface.attach tree).1.layOut settings m (surface.attach tree).2).1.tree? =
        some (Shrink.shrinkAll settings m false tree).1 ∧
      ((surface.attach tree).1.layOut settings m (surface.attach tree).2).2.1.adjusted =
        (Shrink.shrinkAll settings m false tree).2.length := by
  simp [attach, layOut, isLive, generation, tree?]

namespace Rendering

/-- The steps of a document that is rendered, from its reduction to the tree on the surface. -/
structure Steps (c : Config) (p : Preview) where
  typeset : List Node
  spliced : List Node
  notices : List Notice
  typesets : c.typesetter.run (Article.rewrite c.today p.extraction.reduced).markup = .ok typeset
  splices : Assembly.spliceTree p.extraction.table p.extraction.bibliography typeset = (.ok spliced, notices)
  lays : p.tree = (Shrink.shrinkAll c.kit.settings (.ofSettings c.kit.settings) false spliced).1
  counts : p.layout.adjusted = (Shrink.shrinkAll c.kit.settings (.ofSettings c.kit.settings) false spliced).2.length

theorem typeset_ok {c : Config} {markup : Text} {e : Reduction} {integrity : Integrity.Report} {spliced : List Node}
    {notices : List Notice} (h : typeset c markup e = (.ok (integrity, spliced), notices)) :
    ∃ typeset, c.typesetter.run markup = .ok typeset ∧
      Assembly.spliceTree e.table e.bibliography typeset = (.ok spliced, notices) := by
  unfold typeset at h
  dsimp only at h
  split at h
  · cases h
  · unfold Assembly.render at h
    cases hrun : c.typesetter.run markup with
    | error message => rw [hrun] at h; cases h
    | ok tree =>
      rw [hrun] at h
      cases htree : Assembly.spliceTree e.table e.bibliography tree with
      | mk result notices' =>
        simp only [htree] at h
        cases result with
        | error f => cases h
        | ok spliced' =>
          obtain ⟨⟨-, rfl⟩, rfl⟩ := by simpa [Except.map] using h
          exact ⟨tree, rfl, htree⟩

theorem render_ok {c : Config} {raw : Text} {s : State} {p : Preview} (h : (render c raw s).1 = .ok p) :
    Nonempty (Steps c p) := by
  unfold render at h
  split at h
  · cases h
  · split at h
    · cases h
    · rename_i e s' he
      dsimp only at h
      split at h
      · cases h
      · rename_i integrity spliced notices ht
        obtain ⟨tree, hrun, hsplice⟩ := typeset_ok ht
        obtain rfl := by simpa only [Except.ok.injEq] using h
        have hlay := Surface.layOut_attach (((s'.notifyAll (Article.notices e.reduced)).notifyAll notices).surface)
          c.kit.settings (.ofSettings c.kit.settings) spliced
        exact ⟨⟨tree, spliced, notices, hrun, hsplice, by simp only [attach, hlay.1, Option.getD_some], hlay.2⟩⟩

end Rendering

end Galley
