import Galley.Proofs.Edges
import Galley.Proofs.FirstMarkers
import Galley.Proofs.TokenSeams
/-!
# Environments that hold no other

An environment that is found as a leaf takes one begin marker of the text with it (`Marker.Wordy.tally_leaf`). Where no
leaf is left there may still be an environment that closes: one that holds a begin marker that is never closed. Whether a
begin marker closes depends on what stands behind it only, so it can be asked of every ending of the text
(`SomeCloses`).
-/

namespace Galley

namespace Environment

open Marker (beginsAny)
open Text (Misses tally)

variable {names : List Text} {name before s : Text} {e : Environment}

/-! ## Markers of an environment -/

/-- An environment is its two markers around its body. -/
theorem at?_eq_some (h : at? name before s = some e) : e.name = name ∧ e.before = before ∧ ∃ gap gap',
    (∀ c ∈ gap, isBlank c = true) ∧ (∀ c ∈ gap', isBlank c = true) ∧
      e.source = Marker.source "begin" gap name ++ (e.body ++ Marker.source "end" gap' name) ∧
      s = Marker.source "begin" gap name ++ (e.body ++ (Marker.source "end" gap' name ++ e.after)) := by
  unfold at? at h
  split at h
  · cases h
  · rename_i rest hr
    obtain ⟨⟨body, closing, after⟩, hclose, rfl⟩ := Option.map_eq_some_iff.1 h
    obtain ⟨gap, hgap, rfl⟩ := Marker.after?_eq_some_iff.1 hr
    obtain ⟨gap', hgap', rfl⟩ : ∃ gap', (∀ c ∈ gap', isBlank c = true) ∧ closing = Marker.source "end" gap' name := by
      rcases Text.mem_cut (closing_mem_of_close hclose) with ⟨c, -, hc⟩ | ⟨sense, b, t, r, hhit, -, hread⟩
      · cases hc
      · obtain ⟨rfl, rfl⟩ := Piece.hit.inj hhit
        obtain ⟨gap', hgap', rfl⟩ := Marker.either_eq_some hread
        exact ⟨gap', hgap', Text.upTo_append_rest _ _⟩
    have hrest := close_eq hclose
    rw [Text.sources_cut] at hrest
    subst hrest
    refine ⟨rfl, rfl, gap, gap', hgap, hgap', ?_, by simp only [List.append_assoc]⟩
    simp only [Environment.source, Text.upTo_append_rest, List.append_assoc]

/-! ## Leaves -/

/-- A leaf is one of the environments and holds no other. -/
theorem leaf?_eq_some (hne : names ≠ []) (h : leaf? names s = some e) :
    e.name ∈ names ∧ Misses (beginsAny names) e.body ∧ ∃ gap gap', (∀ c ∈ gap, isBlank c = true) ∧ (∀ c ∈ gap', isBlank c = true) ∧
      s = e.before ++ (Marker.source "begin" gap e.name ++ (e.body ++ (Marker.source "end" gap' e.name ++ e.after))) := by
  have main (ps : List (Piece Text)) (passed : List Text) (h : leafFrom names passed ps = some e) :
      ∃ n src x t, .hit n src ∈ ps ∧ at? n x t = some e ∧ e.body.occurs (beginsAny names) = false := by
    induction ps generalizing passed with
    | nil => cases h
    | cons p ps ih =>
      have hnext (h : leafFrom names (p.source :: passed) ps = some e) : ∃ n src x t, .hit n src ∈ p :: ps ∧
          at? n x t = some e ∧ e.body.occurs (beginsAny names) = false := by
        obtain ⟨n, src, x, t, hmem, hat⟩ := ih _ h
        exact ⟨n, src, x, t, List.mem_cons_of_mem p hmem, hat⟩
      cases p with
      | char c => exact hnext h
      | hit n src =>
        simp only [leafFrom] at h
        split at h
        · rename_i e' he
          split at h
          · exact hnext h
          · rename_i hoccurs
            obtain rfl := Option.some.inj h
            exact ⟨n, src, _, _, List.mem_cons_self, he, by simpa using hoccurs⟩
        · exact hnext h
  have hsplits := leaf?_splits h
  have hempty : names.isEmpty = false := by cases names <;> simp_all
  rw [leaf?, hempty] at h
  obtain ⟨n, src, x, t, hmem, hat, hoccurs⟩ := main _ _ h
  obtain ⟨rfl, -, gap, gap', hgap, hgap', hsource, -⟩ := at?_eq_some hat
  refine ⟨?_, ?_, gap, gap', hgap, hgap', ?_⟩
  · rcases Text.mem_cut hmem with ⟨c, -, hc⟩ | ⟨m, b, u, rest, hhit, -, hread⟩
    · cases hc
    · obtain ⟨rfl, -⟩ := Piece.hit.inj hhit
      exact (Marker.beginsAny_eq_some hread).1
  · have hforward : Text.Forward (beginsAny names) := fun _ _ _ => rfl
    refine hforward.misses_of_find?_eq_none (by simp [beginsAny, Marker.after?, Text.after?]) ?_
    rwa [Text.occurs, Option.isSome_eq_false_iff, Option.isNone_iff_eq_none] at hoccurs
  · rw [Splits, hsource] at hsplits
    rw [← hsplits]
    simp only [List.append_assoc]

theorem leaf?_eq_none (hne : names ≠ []) (h : Misses (beginsAny names) s) : leaf? names s = none := by
  have hempty : names.isEmpty = false := by cases names <;> simp_all
  obtain ⟨bs, hbs, -⟩ := Row.leafFrom_map_char names [] s []
  rw [List.append_nil] at hbs
  simp only [leaf?, hempty, Bool.false_eq_true, if_false, h.cut_eq, hbs, leafFrom]

/-! ## What closes -/

/-- What closes inside closes outside. -/
theorem isSome_close_of_succ {d : Nat} {ps : List (Piece Bool)} (h : (close (d + 1) ps).isSome = true) :
    (close d ps).isSome = true := by
  induction ps generalizing d with
  | nil => cases h
  | cons p ps ih =>
    cases p with
    | char c => simpa [close] using ih (by simpa [close] using h)
    | hit sense source =>
      cases sense with
      | true => simpa [close] using ih (by simpa [close] using h)
      | false =>
        cases d with
        | zero => rfl
        | succ d => simpa [close] using ih (by simpa [close] using h)

theorem isSome_close {d : Nat} {ps : List (Piece Bool)} (h : (close d ps).isSome = true) : (close 0 ps).isSome = true := by
  induction d with
  | zero => exact h
  | succ d ih => exact ih (isSome_close_of_succ h)

/-- A begin marker of the same name inside the body is closed, too. -/
theorem isSome_close_inner {d : Nat} {ps qs : List (Piece Bool)} {src body closing rest : Text}
    (h : close d (ps ++ .hit true src :: qs) = some (body, closing, rest)) (hbody : (Piece.sources ps).length < body.length) :
    (close 0 qs).isSome = true := by
  have keep {d : Nat} {p : Piece Bool} {ps : List (Piece Bool)} {body : Text}
      (ih : ∀ {d b}, close d (ps ++ .hit true src :: qs) = some (b, closing, rest) → (Piece.sources ps).length < b.length →
        (close 0 qs).isSome = true)
      (hbody : (Piece.sources (p :: ps)).length < body.length)
      (h : (close d (ps ++ .hit true src :: qs)).map (fun r => (p.source ++ r.1, r.2)) = some (body, closing, rest)) :
      (close 0 qs).isSome = true := by
    obtain ⟨⟨b, r⟩, hb, he⟩ := Option.map_eq_some_iff.1 h
    obtain ⟨rfl, rfl⟩ := Prod.mk.inj he
    refine ih hb ?_
    simpa [Piece.sources] using hbody
  induction ps generalizing d body with
  | nil =>
    obtain ⟨⟨b, r⟩, hb, -⟩ := Option.map_eq_some_iff.1 h
    exact isSome_close (Option.isSome_iff_exists.2 ⟨_, hb⟩)
  | cons p ps ih =>
    cases p with
    | char c => exact keep ih hbody h
    | hit sense source =>
      cases sense with
      | true => exact keep (p := .hit true source) ih hbody h
      | false =>
        cases d with
        | succ d => exact keep (p := .hit false source) ih hbody h
        | zero =>
          cases h
          exact absurd hbody (Nat.not_lt_zero _)

theorem close_of_at? {gap u : Text} (hgap : ∀ c ∈ gap, isBlank c = true)
    (h : at? name before (Marker.source "begin" gap name ++ u) = some e) :
    close 0 (u.cut (Marker.either name)) = some (e.body, e.closing, e.after) := by
  rw [at?, Marker.after?_source hgap] at h
  obtain ⟨⟨body, closing, rest⟩, hclose, rfl⟩ := Option.map_eq_some_iff.1 h
  exact hclose

/-- Some begin marker of the text is closed. -/
def SomeCloses (names : List Text) (s : Text) : Prop := ∃ t, t <:+ s ∧ ∃ n ∈ names, (at? n [] t).isSome = true

theorem at?_eq_map (name before s : Text) : at? name before s = (at? name [] s).map fun e => { e with before := before } := by
  unfold at?
  split
  · rfl
  · rw [Option.map_map]
    rfl

theorem at?_isSome (name before s : Text) : (at? name before s).isSome = (at? name [] s).isSome := by
  rw [at?_eq_map, Option.isSome_map]

theorem SomeCloses.of_suffix {t : Text} (h : SomeCloses names t) (ht : t <:+ s) : SomeCloses names s := by
  obtain ⟨u, hu, hcloses⟩ := h
  exact ⟨u, hu.trans ht, hcloses⟩

theorem beginsAny_of_at? (hname : name ∈ names) (h : (at? name [] s).isSome = true) (b : Option Char) :
    beginsAny names b s ≠ none := by
  intro hread
  obtain ⟨e, he⟩ := Option.isSome_iff_exists.1 h
  obtain ⟨-, -, gap, _, hgap, -, -, hs⟩ := at?_eq_some he
  have hnone := Marker.begins_of_beginsAny_eq_none hread hname
  rw [Marker.begins, hs, Marker.after?_source hgap, Option.map_some] at hnone
  cases hnone

theorem not_someCloses (h : Misses (beginsAny names) s) : ¬SomeCloses names s := fun ⟨t, ht, _, hn, hat⟩ =>
  beginsAny_of_at? hn hat none (h none t ht)

end Environment

namespace Marker.Wordy

open Environment (SomeCloses at? at?_isSome beginsAny_of_at? leaf?)
open Text (Misses tally)

variable {names : List Text} (h : Wordy names)

include h

/-- A leaf takes its begin marker with it and no other. -/
theorem tally_leaf (hne : names ≠ []) {s t : Text} {e : Environment} (he : leaf? names s = some e) (ht : Placed t) :
    tally (beginsAny names) (e.replaceBy t) + 1 = tally (beginsAny names) s := by
  have hslashed : Text.Slashed (beginsAny names) := slashed h
  obtain ⟨hname, hbody, gap, gap', hgap, hgap', hs⟩ := Environment.leaf?_eq_some hne he
  have hread (u : Text) := beginsAny_source h.brace hgap (h.brace _ hname) none u
  simp only [if_pos hname] at hread
  -- the end marker is a backslash at which no begin marker is read
  have hend : tally (beginsAny names) (source "end" gap' e.name ++ e.after) = tally (beginsAny names) e.after := by
    have hnone : beginsAny names none (source "end" gap' e.name ++ e.after) = none :=
      List.findSome?_eq_none_iff.2 fun n _ => by rw [after?_begin_end, Option.map_none]
    have hplain : '\\' ∉ "end".toList ++ (gap' ++ '{' :: (e.name ++ ['}'])) := slash_not_mem (by decide) hgap' (h.slash _ hname)
    rw [source, List.cons_append] at hnone ⊢
    rw [tally, hslashed.forward.readAll_cons hnone, hslashed.readAll_append_of_not_mem hplain]
    rfl
  have hinner : tally (beginsAny names) (e.body ++ (source "end" gap' e.name ++ e.after)) = tally (beginsAny names) e.after := by
    rw [← hend, source, List.cons_append, hslashed.tally_append_slash, hslashed.tally_eq_zero.2 hbody, Nat.zero_add]
  have hwhole : tally (beginsAny names) (source "begin" gap e.name ++ (e.body ++ (source "end" gap' e.name ++ e.after))) =
      tally (beginsAny names) e.after + 1 := by
    rw [hslashed.tally_hit (hread _), hinner]
  rw [Environment.replaceBy, List.append_assoc, hslashed.tally_fenced (h.fences ht) ht.slash_not_mem]
  conv_rhs => rw [hs, source, List.cons_append, hslashed.tally_append_slash, ← List.cons_append, ← source, hwhole]
  rw [Nat.add_assoc]

/-- At one place environments of one name only begin. -/
theorem name_of_at? {gap m n u : Text} (hgap : ∀ c ∈ gap, isBlank c = true) (hm : m ∈ names) (hn : n ∈ names)
    (hat : (at? n [] (source "begin" gap m ++ u)).isSome = true) : n = m := by
  by_contra hne
  have hnone : after? "begin" n (source "begin" gap m ++ u) = none :=
    after?_source_of_ne hgap (h.brace n hn) (h.brace m hm) (Ne.symm hne) u
  rw [at?, hnone] at hat
  cases hat

/-- The first begin marker closes, or one behind it does, if any does. -/
theorem someCloses_iff {s : Text} {f : Text.Found Text} (hf : s.find? (beginsAny names) = some f) :
    SomeCloses names s ↔ (at? f.value f.before (f.source ++ f.after)).isSome = true ∨ SomeCloses names f.after := by
  have hslashed : Text.Slashed (beginsAny names) := slashed h
  obtain ⟨hmiss, hs, -⟩ := hslashed.find?_eq_some hf
  obtain ⟨hname, gap, hgap, hsource⟩ := h.source_of_find? hf
  have hplain : '\\' ∉ "begin".toList ++ (gap ++ '{' :: (f.value ++ ['}'])) := slash_not_mem (by decide) hgap (h.slash _ hname)
  rw [at?_isSome]
  constructor
  · rintro ⟨t, ht, n, hn, hat⟩
    rw [hs] at ht
    rcases Text.suffix_append_cases ht with ht | ⟨y, hne, hy, rfl⟩
    · rw [hsource, source, List.cons_append] at ht
      rcases List.suffix_cons_iff.1 ht with rfl | ht
      · rw [← List.cons_append, ← source, ← hsource] at hat
        obtain rfl := h.name_of_at? hgap hname hn (hsource ▸ hat)
        exact .inl hat
      · rcases Text.suffix_append_cases ht with ht | ⟨y, hne, hy, rfl⟩
        · exact .inr ⟨t, ht, n, hn, hat⟩
        · obtain ⟨c, y, rfl⟩ := List.exists_cons_of_ne_nil hne
          have hc : c ≠ '\\' := fun hc => hplain (hy.subset (hc ▸ List.mem_cons_self))
          exact absurd (hslashed.read_of_ne hc _) (beginsAny_of_at? hn hat none)
    · rw [hsource, source, List.cons_append] at hat
      refine absurd ?_ (beginsAny_of_at? hn hat none)
      rw [hslashed.read_append_slash hne, hmiss none y hy, Option.map_none]
  · rintro (hat | hcloses)
    · exact ⟨_, hs ▸ List.suffix_append _ _, f.value, hname, hat⟩
    · refine hcloses.of_suffix ?_
      conv_rhs => rw [hs, ← List.append_assoc]
      exact List.suffix_append _ _

/-- Where no leaf is left, every environment that closes holds a begin marker. -/
theorem occurs_of_leaf? (hne : names ≠ []) {s t n : Text} {e : Environment} (hleaf : leaf? names s = none) (ht : t <:+ s)
    (hn : n ∈ names) (hat : at? n [] t = some e) : e.body.occurs (beginsAny names) = true := by
  have hslashed : Text.Slashed (beginsAny names) := slashed h
  have hbegins : beginsAny names none t ≠ none := beginsAny_of_at? hn (Option.isSome_iff_exists.2 ⟨e, hat⟩) none
  have main (s : Text) (passed : List Text) (hleaf : Environment.leafFrom names passed (s.cut (beginsAny names)) = none)
      (ht : t <:+ s) : e.body.occurs (beginsAny names) = true := by
    induction s using Text.Firm.induct (Text.Slashed.firm hslashed) generalizing passed with
    | nil =>
      obtain rfl := List.suffix_nil.1 ht
      exact absurd (hslashed.read_nil none) hbegins
    | char c s hr ih =>
      rw [hslashed.forward.cut_cons hr] at hleaf
      rcases List.suffix_cons_iff.1 ht with rfl | ht
      · exact absurd hr hbegins
      · exact ih _ hleaf ht
    | hit s m rest hr ih =>
      obtain ⟨x, hx, hs, -⟩ := hslashed hr
      obtain ⟨hm, gap, hgap, hsource⟩ := beginsAny_eq_some hr
      subst hs
      rw [hslashed.forward.cut_hit (t := x) hr rfl, Environment.leafFrom, Text.sources_cut, Environment.at?_eq_map] at hleaf
      rcases List.suffix_cons_iff.1 ht with rfl | ht
      · obtain rfl := h.name_of_at? hgap hm hn (hsource ▸ Option.isSome_iff_exists.2 ⟨e, hat⟩)
        rw [List.cons_append, hat] at hleaf
        by_contra hoccurs
        simp [hoccurs] at hleaf
      · rcases Text.suffix_append_cases ht with ht | ⟨y, hne, hy, rfl⟩
        · split at hleaf
          · split at hleaf
            · exact ih _ hleaf ht
            · cases hleaf
          · exact ih _ hleaf ht
        · obtain ⟨c, y, rfl⟩ := List.exists_cons_of_ne_nil hne
          have hc : c ≠ '\\' := fun hc => hx (hy.subset (hc ▸ List.mem_cons_self))
          exact absurd (hslashed.read_of_ne hc _) hbegins
  have hempty : names.isEmpty = false := by cases names <;> simp_all
  rw [leaf?, hempty] at hleaf
  exact main s [] hleaf ht

/-- Where no leaf is left of environments of one name, none closes: an environment that closes would close one inside it. -/
theorem not_someCloses_of_leaf? (hne : names ≠ []) {s n : Text} (hleaf : leaf? names s = none)
    (hone : ∀ m ∈ Text.readAll (beginsAny names) s, m = n) : ¬SomeCloses names s := by
  have hslashed : Text.Slashed (beginsAny names) := slashed h
  have hread {t m gap u : Text} (ht : t <:+ s) (hm : m ∈ names) (hgap : ∀ c ∈ gap, isBlank c = true)
      (hs : t = source "begin" gap m ++ u) : m = n := by
    subst hs
    have hhit := beginsAny_source h.brace hgap (h.brace m hm) none u
    rw [if_pos hm] at hhit
    refine hone m ((hslashed.readAll_sublist_of_suffix ht).subset ?_)
    rw [Text.Firm.readAll_hit (Text.Slashed.firm hslashed) hhit]
    exact List.mem_cons_self
  rintro ⟨t, ht, m, hm, hat⟩
  induction hlength : t.length using Nat.strongRecOn generalizing t m with
  | ind k ih =>
    obtain ⟨e, he⟩ := Option.isSome_iff_exists.1 hat
    obtain ⟨-, -, gap, gap', hgap, -, -, hsplit⟩ := Environment.at?_eq_some he
    obtain rfl := hread ht hm hgap hsplit
    obtain ⟨f, hf⟩ := Option.isSome_iff_exists.1 (h.occurs_of_leaf? hne hleaf ht hm he)
    obtain ⟨-, hbody, -⟩ := hslashed.find?_eq_some hf
    obtain ⟨hname, gap₂, hgap₂, hsource⟩ := h.source_of_find? hf
    -- the text from the begin marker on that stands in the body
    have hinner : f.source ++ (f.after ++ (source "end" gap' m ++ e.after)) <:+ t := by
      rw [hsplit, hbody]
      exact ⟨source "begin" gap m ++ f.before, by simp only [List.append_assoc]⟩
    obtain rfl : f.value = m := hread (hinner.trans ht) hname hgap₂ (by rw [hsource])
    refine ih _ ?_ _ (hinner.trans ht) f.value hname ?_ rfl
    · have hlonger := congrArg List.length hsplit
      rw [hbody] at hlonger
      simp only [source, List.length_append, List.length_cons] at hlonger ⊢
      omega
    · have heither : Text.Slashed (either f.value) := slashed_either (h.slash _ hname)
      have hclose := Environment.close_of_at? hgap (hsplit ▸ he)
      generalize source "end" gap' f.value ++ e.after = rest at hclose ⊢
      have hhit : either f.value none (source "begin" gap₂ f.value ++ (f.after ++ rest)) = some (true, f.after ++ rest) :=
        either_begin hgap₂ none _
      have hcut : Text.cut (either f.value) (e.body ++ rest) =
          f.before.cut (either f.value) ++ .hit true (source "begin" gap₂ f.value) :: (f.after ++ rest).cut (either f.value) := by
        rw [source, List.cons_append] at hhit
        rw [hbody, hsource, List.append_assoc, List.append_assoc, source, List.cons_append, heither.cut_append_slash]
        rw [heither.forward.cut_hit hhit rfl]
      have hlonger : (Piece.sources (f.before.cut (either f.value))).length < e.body.length := by
        rw [Text.sources_cut, hbody, hsource]
        simp [source]
      rw [hcut] at hclose
      rw [hsource, at?, after?_source hgap₂, Option.isSome_map]
      exact Environment.isSome_close_inner hclose hlonger

end Marker.Wordy

end Galley
