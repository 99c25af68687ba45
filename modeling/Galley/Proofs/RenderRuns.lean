import Galley.Proofs.Counting
import Galley.Proofs.Layout
import Galley.Proofs.Series
/-!
# Documents rendered one after the other

A document that fails leaves the surface as it was; one that is rendered puts its own tree there and begins a
new generation. What a document gives does not depend on the documents before it, and the counters of
successes and failures count both (`renders_keep_apart`).
-/

namespace Galley

namespace Rendering

/-! ## What a state counts -/

/-- The counter of the documents that ended with a status. -/
def State.rendered (s : State) (status : Text) : Float :=
  s.metrics.counterValue "preview_renders_total" [("status", status)]

/-- What counts documents by their status, apart from what counts other things. -/
theorem key_ne {name name' : Text} (h : ¬name <+: name' ∧ ¬name' <+: name) (labels labels' : Labels) :
    Meters.key name labels ≠ Meters.key name' labels' := by
  intro heq
  unfold Meters.key at heq
  rcases List.append_eq_append_iff.1 heq with ⟨t, ht, -⟩ | ⟨t, ht, -⟩
  · exact h.1 ⟨t, ht.symm⟩
  · exact h.2 ⟨t, ht.symm⟩

theorem key_status_ne {status status' : Text} (h : status ≠ status') :
    Meters.key "preview_renders_total" [("status", status)] ≠ Meters.key "preview_renders_total" [("status", status')] := by
  intro heq
  simp only [Meters.key, Meters.labelSet, List.isEmpty_cons, List.mergeSort_singleton, List.map_cons, List.map_nil,
    Text.joinWith] at heq
  exact h (by simpa using heq)

namespace State

variable (s : State) (status : Text)

theorem rendered_countTaken (m : Meters) (kind : Text) (n : Nat) :
    (m.countTaken kind n).counterValue "preview_renders_total" [("status", status)] =
      m.counterValue "preview_renders_total" [("status", status)] := by
  unfold Meters.countTaken
  split
  · exact Meters.counterValue_count_of_ne (key_ne (by decide) _ _) m _
  · rfl

theorem rendered_recordCounts (counts : List (Text × Nat)) : (s.recordCounts counts).rendered status = s.rendered status := by
  unfold State.recordCounts State.rendered
  dsimp only
  induction counts.filter (·.1 ≠ "citation".toList) generalizing s with
  | nil => rfl
  | cons c counts ih => exact (ih { s with metrics := s.metrics.countTaken c.1 c.2 }).trans (rendered_countTaken status _ _ _)

theorem rendered_countShrinks (m : Meters) (shrinks : List (Text × Float)) :
    (m.countShrinks shrinks).counterValue "preview_renders_total" [("status", status)] =
      m.counterValue "preview_renders_total" [("status", status)] := by
  induction shrinks generalizing m with
  | nil => rfl
  | cons shrink shrinks ih =>
    exact (ih (m.countShrink shrink.1 shrink.2)).trans (Meters.counterValue_count_of_ne (key_ne (by decide) _ _) m _)

theorem rendered_countRender (status' : Text) (blocks : Nat) :
    (s.countRender status' blocks).rendered status = if status = status' then s.rendered status + 1 else s.rendered status := by
  have hobserved (m : Meters) : ((if blocks > 0 then m.observe "preview_blocks_per_document" blocks.toFloat [] else m)).counterValue
      "preview_renders_total" [("status", status)] = m.counterValue "preview_renders_total" [("status", status)] := by
    split <;> rfl
  simp only [State.countRender, State.rendered, Meters.countRender, hobserved]
  split
  · rename_i h
    subst h
    exact Meters.counterValue_count_self _ _ _ _
  · rename_i h
    exact Meters.counterValue_count_of_ne (key_status_ne h) _ _

end State

/-! ## One document -/

/-- Nothing happened to the surface, and no document was counted. -/
structure Unmoved (s s' : State) : Prop where
  surface : s'.surface = s.surface
  rendered : ∀ status, s'.rendered status = s.rendered status

theorem Unmoved.trans {s s' s'' : State} (h : Unmoved s s') (h' : Unmoved s' s'') : Unmoved s s'' :=
  ⟨h'.surface.trans h.surface, fun status => (h'.rendered status).trans (h.rendered status)⟩

theorem unmoved_notifyAll (s : State) (notices : List Notice) : Unmoved s (s.notifyAll notices) := ⟨rfl, fun _ => rfl⟩

theorem unmoved_recordCounts (s : State) (counts : List (Text × Nat)) : Unmoved s (s.recordCounts counts) :=
  ⟨rfl, fun status => s.rendered_recordCounts status counts⟩

variable {c : Config} {raw : Text} {s s' : State}

theorem unmoved_extract (c : Config) (raw : Text) (s : State) : Unmoved s (extract c raw s).2 := by
  unfold extract
  obtain ⟨result, bench⟩ := (Reduction.run c.kit raw).run {}
  have hcounts := (unmoved_notifyAll s bench.notices).trans (unmoved_recordCounts _ bench.counts)
  cases result with
  | ok e => exact hcounts
  | error fault => exact hcounts.trans (unmoved_notifyAll _ _)

theorem extract_result (c : Config) (raw : Text) (s s' : State) : (extract c raw s).1 = (extract c raw s').1 := by
  unfold extract
  obtain ⟨result, bench⟩ := (Reduction.run c.kit raw).run {}
  cases result <;> rfl

theorem attach_surface (c : Config) (tree : List Html.Node) (s : State) :
    (attach c tree s).1 = (Shrink.shrinkAll c.kit.settings (.ofSettings c.kit.settings) false tree).1 ∧
      (attach c tree s).2.2.surface.tree? = some (attach c tree s).1 ∧
      (attach c tree s).2.2.surface.generation = s.surface.generation + 1 ∧
      ∀ status, (attach c tree s).2.2.rendered status = s.rendered status := by
  have hlay := (Surface.layOut_attach s.surface c.kit.settings (.ofSettings c.kit.settings) tree).1
  refine ⟨?_, ?_, ?_, fun status => State.rendered_countShrinks status _ _⟩
  · simp only [attach, hlay, Option.getD_some]
  · simp only [attach, hlay, Option.getD_some]
  · simp [attach, Surface.attach, Surface.layOut, Surface.isLive, Surface.generation]

/-- How a document ends: it is too large, it fails before anything is shown, or its tree is shown. -/
theorem render_cases (c : Config) (raw : Text) (s : State) :
    (raw.length > c.kit.settings.maxDocumentChars ∧ render c raw s = (.error (tooLarge c.kit.settings raw.length), s)) ∨
    (¬raw.length > c.kit.settings.maxDocumentChars ∧ ∃ f s', Unmoved s s' ∧ render c raw s = (.error f, s'.countRender "error" 0)) ∨
    (¬raw.length > c.kit.settings.maxDocumentChars ∧ ∃ p s' spliced blocks, Unmoved s s' ∧ p.tree = (attach c spliced s').1 ∧
      render c raw s = (.ok p, (attach c spliced s').2.2.countRender "success" blocks)) := by
  unfold render
  split
  · rename_i hlarge
    exact .inl ⟨hlarge, rfl⟩
  · rename_i hsize
    have hextract := unmoved_extract c raw s
    split
    · rename_i f s' he
      rw [he] at hextract
      exact .inr (.inl ⟨hsize, f, s', hextract, rfl⟩)
    · rename_i e s' he
      rw [he] at hextract
      dsimp only
      split
      · rename_i f notices ht
        exact .inr (.inl ⟨hsize, f, _, (hextract.trans (unmoved_notifyAll _ _)).trans (unmoved_notifyAll _ _), rfl⟩)
      · rename_i integrity spliced notices ht
        exact .inr (.inr ⟨hsize, _, _, spliced, _, (hextract.trans (unmoved_notifyAll _ _)).trans (unmoved_notifyAll _ _), rfl, rfl⟩)

/-- A document that fails leaves the surface as it was; it is counted unless it is too large. -/
theorem render_error {f : Failure} (h : render c raw s = (.error f, s')) :
    s'.surface = s.surface ∧ s'.rendered "success" = s.rendered "success" ∧
      s'.rendered "error" = if raw.length > c.kit.settings.maxDocumentChars then s.rendered "error" else s.rendered "error" + 1 := by
  obtain ⟨hlarge, heq⟩ | ⟨hsize, f', s'', hs, heq⟩ | ⟨-, p, s'', spliced, blocks, -, -, heq⟩ := render_cases c raw s
  · obtain ⟨-, rfl⟩ := Prod.mk.inj (h.symm.trans heq)
    exact ⟨rfl, rfl, (if_pos hlarge).symm⟩
  · obtain ⟨-, rfl⟩ := Prod.mk.inj (h.symm.trans heq)
    rw [if_neg hsize]
    refine ⟨hs.surface, ?_, ?_⟩
    · rw [State.rendered_countRender, if_neg (by decide), hs.rendered]
    · rw [State.rendered_countRender, if_pos rfl, hs.rendered]
  · rw [heq] at h
    cases congrArg Prod.fst h

/-- A document that is rendered puts its own tree on the surface and begins a new generation. -/
theorem render_success {p : Preview} (h : render c raw s = (.ok p, s')) :
    (s'.surface.generation = s.surface.generation + 1 ∧ s'.surface.tree? = some p.tree) ∧
      s'.rendered "success" = s.rendered "success" + 1 ∧ s'.rendered "error" = s.rendered "error" := by
  obtain ⟨-, heq⟩ | ⟨-, f', s'', -, heq⟩ | ⟨-, p', s'', spliced, blocks, hs, htree, heq⟩ := render_cases c raw s
  · rw [heq] at h
    cases congrArg Prod.fst h
  · rw [heq] at h
    cases congrArg Prod.fst h
  · obtain ⟨hp, rfl⟩ := Prod.mk.inj (h.symm.trans heq)
    obtain rfl := Except.ok.inj hp
    obtain ⟨-, hshown, hgeneration, hrendered⟩ := attach_surface c spliced s''
    refine ⟨⟨?_, ?_⟩, ?_, ?_⟩
    · exact hgeneration.trans (by rw [hs.surface])
    · exact hshown.trans (by rw [htree])
    · rw [State.rendered_countRender, if_pos rfl, hrendered, hs.rendered]
    · rw [State.rendered_countRender, if_neg (by decide), hrendered, hs.rendered]

/-- What a document gives does not depend on what was rendered before it. -/
theorem render_html (c : Config) (raw : Text) (s s' : State) :
    (render c raw s).1.map Preview.html = (render c raw s').1.map Preview.html := by
  unfold render
  split
  · rfl
  · have hresult := extract_result c raw s s'
    revert hresult
    rcases extract c raw s with ⟨result, s₁⟩
    rcases extract c raw s' with ⟨result', s₁'⟩
    rintro rfl
    cases result with
    | error f => rfl
    | ok e =>
      dsimp only
      split
      · rfl
      · simp only [Except.map, Preview.html, (attach_surface c _ _).1]

/-! ## Documents in a row -/

/-- What each of the documents gives, and what the last one leaves. -/
def renderAll (c : Config) : List Text → State → List (Except Failure Preview) × State
  | [], s => ([], s)
  | raw :: raws, s =>
    let (result, s) := render c raw s
    let (results, s) := renderAll c raws s
    (result :: results, s)

/-- Whether a document failed for another reason than its size. -/
def failed (c : Config) (raw : Text) (result : Except Failure Preview) : Bool :=
  !result.isOk && raw.length ≤ c.kit.settings.maxDocumentChars

theorem renderAll_html (c : Config) (raws : List Text) (s : State) :
    (renderAll c raws s).1.map (·.map Preview.html) = raws.map fun raw => (render c raw {}).1.map Preview.html := by
  induction raws generalizing s with
  | nil => rfl
  | cons raw raws ih =>
    simp only [renderAll, List.map_cons, ih, render_html c raw s {}]

theorem renderAll_rendered (c : Config) (raws : List Text) {s : State} {n k : Nat} (hn : s.rendered "success" = Decimal.tally n)
    (hk : s.rendered "error" = Decimal.tally k) :
    (renderAll c raws s).2.rendered "success" = Decimal.tally (n + (renderAll c raws s).1.countP (·.isOk)) ∧
      (renderAll c raws s).2.rendered "error" =
        Decimal.tally (k + (raws.zip (renderAll c raws s).1).countP fun (raw, result) => failed c raw result) := by
  induction raws generalizing s n k with
  | nil => exact ⟨hn, hk⟩
  | cons raw raws ih =>
    rcases hr : render c raw s with ⟨result, s'⟩
    cases result with
    | error f =>
      obtain ⟨-, hsuccess, herror⟩ := render_error hr
      by_cases hsize : raw.length > c.kit.settings.maxDocumentChars
      · rw [if_pos hsize] at herror
        have := ih (hsuccess.trans hn) (herror.trans hk)
        simpa [renderAll, hr, failed, Except.isOk, Except.toBool, hsize] using this
      · rw [if_neg hsize, hk] at herror
        have := ih (n := n) (k := k + 1) (hsuccess.trans hn) herror
        simpa [renderAll, hr, failed, Except.isOk, Except.toBool, Nat.le_of_not_gt hsize, Nat.add_assoc, Nat.add_comm] using this
    | ok p =>
      obtain ⟨-, hsuccess, herror⟩ := render_success hr
      rw [hn] at hsuccess
      have := ih (n := n + 1) (k := k) hsuccess (herror.trans hk)
      simpa [renderAll, hr, failed, Except.isOk, Except.toBool, Nat.add_assoc, Nat.add_comm] using this

/-- Documents rendered one after the other keep apart. -/
theorem renders_keep_apart (c : Config) (raws : List Text) :
    let (results, s) := renderAll c raws {}
    (∀ raw, match render c raw s with
      | (.error _, s') => s'.surface = s.surface
      | (.ok p, s') => s'.surface.generation = s.surface.generation + 1 ∧ s'.surface.tree? = some p.tree) ∧
    Decimal.IsCount (min (results.countP (·.isOk)) (2 ^ 53)) (s.rendered "success") ∧
    Decimal.IsCount (min ((raws.zip results).countP fun (raw, result) => failed c raw result) (2 ^ 53)) (s.rendered "error") ∧
    results.map (·.map Preview.html) = raws.map fun raw => (render c raw {}).1.map Preview.html := by
  dsimp only
  obtain ⟨hsuccess, herror⟩ := renderAll_rendered c raws (s := {}) (n := 0) (k := 0) rfl rfl
  refine ⟨fun raw => ?_, ?_, ?_, renderAll_html c raws {}⟩
  · rcases hr : render c raw (renderAll c raws {}).2 with ⟨f | p, s'⟩
    · exact (render_error hr).1
    · exact (render_success hr).1
  · rw [hsuccess, Nat.zero_add]
    exact Decimal.isCount_tally _
  · rw [herror, Nat.zero_add]
    exact Decimal.isCount_tally _

end Rendering

end Galley
