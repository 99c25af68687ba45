import Galley.Markup.Environment
import Galley.Proofs.Characters
/-!
# What is found stands in the text

A construct that is found splits the text into what precedes it, its source, and what follows (`Found.Splits`,
`Environment.Splits`). So what is found is made of the text's characters, and so is the text with something else
in the construct's place (`Within.replaceBy`).
-/

namespace Galley

variable {α : Type}

namespace Text

theorem upTo_append {s rest : Text} (h : rest <:+ s) : upTo s rest ++ rest = s := by
  obtain ⟨x, rfl⟩ := h
  rw [upTo_append_rest]

/-- What the reader leaves is an ending of the text. -/
def Ahead (read : Reader α) : Prop := ∀ before s a rest, read before s = some (a, rest) → rest <:+ s

def Found.Splits (f : Found α) (s : Text) : Prop := f.before ++ f.source ++ f.after = s

theorem find?_splits {read : Reader α} (hread : Ahead read) {s : Text} {f : Found α} (h : find? read s = some f) :
    f.Splits s := by
  have main (s : Text) (f : Found α) (before : Option Char) (h : findFrom read before s = some f) : f.Splits s := by
    induction s generalizing f before with
    | nil => cases h
    | cons c s ih =>
      simp only [findFrom] at h
      split at h
      · rename_i a rest hr
        cases h
        exact upTo_append (hread _ _ _ _ hr)
      · obtain ⟨g, hg, rfl⟩ := Option.map_eq_some_iff.1 h
        exact congrArg (c :: ·) (ih g _ hg)
  exact main s f none h

theorem findLast?_splits {read : Reader α} {s : Text} {f : Found α} (h : findLast? read s = some f) : f.Splits s := by
  have main (ps : List (Piece α)) (f : Found α) (h : lastHit? ps = some f) : f.Splits (Piece.sources ps) := by
    induction ps generalizing f with
    | nil => cases h
    | cons p ps ih =>
      simp only [lastHit?] at h
      split at h
      · rename_i g hg
        cases h
        have hsplits := ih g hg
        simp only [Found.Splits] at hsplits ⊢
        rw [List.append_assoc, List.append_assoc, ← List.append_assoc g.before, hsplits]
        rfl
      · cases p with
        | char c => cases h
        | hit a source =>
          cases h
          rfl
  have hsplits := main _ f h
  rwa [sources_cut] at hsplits

end Text

/-! ## Markers -/

namespace Marker

theorem suffix_after? {word name s rest : Text} (h : after? word name s = some rest) : rest <:+ s := by
  simp only [after?, Option.bind_eq_bind, Option.bind_eq_some_iff] at h
  obtain ⟨s₁, h₁, s₂, h₂, s₃, h₃, h₄⟩ := h
  have hname : s₃ <:+ s₁ := (Text.suffix_after? h₃).trans ((Text.suffix_after? h₂).trans (List.dropWhile_suffix _))
  exact (Text.suffix_after? h₄).trans (hname.trans (Text.suffix_after? h₁))

theorem ahead_begins (name : Text) : Text.Ahead (begins name) := by
  intro before s a rest h
  obtain ⟨r, hr, he⟩ := Option.map_eq_some_iff.1 h
  cases he
  exact suffix_after? hr

theorem ahead_ends (name : Text) : Text.Ahead (ends name) := by
  intro before s a rest h
  obtain ⟨r, hr, he⟩ := Option.map_eq_some_iff.1 h
  cases he
  exact suffix_after? hr

theorem ahead_beginsAny (names : List Text) : Text.Ahead (beginsAny names) := by
  intro before s a rest h
  obtain ⟨name, -, h⟩ := List.exists_of_findSome?_eq_some h
  obtain ⟨r, hr, he⟩ := Option.map_eq_some_iff.1 h
  cases he
  exact suffix_after? hr

end Marker

/-! ## Environments -/

namespace Environment

def Splits (e : Environment) (s : Text) : Prop := e.before ++ e.source ++ e.after = s

theorem close_eq {d : Nat} {ps : List (Piece Bool)} {body closing rest : Text}
    (h : close d ps = some (body, closing, rest)) : Piece.sources ps = body ++ closing ++ rest := by
  have keep {d : Nat} {p : Piece Bool} {ps : List (Piece Bool)} (source : Text) {body : Text} (hp : p.source = source)
      (ih : ∀ {b}, close d ps = some (b, closing, rest) → Piece.sources ps = b ++ closing ++ rest)
      (h : (close d ps).map (fun p => (source ++ p.1, p.2)) = some (body, closing, rest)) :
      Piece.sources (p :: ps) = body ++ closing ++ rest := by
    obtain ⟨⟨b, r⟩, hb, he⟩ := Option.map_eq_some_iff.1 h
    obtain ⟨rfl, rfl⟩ := Prod.mk.inj he
    rw [Piece.sources, List.flatMap_cons, hp, ← Piece.sources, ih hb]
    simp
  induction ps generalizing d body with
  | nil => cases h
  | cons p ps ih =>
    cases p with
    | char c => exact keep [c] rfl (ih (d := d)) h
    | hit sense source =>
      cases sense with
      | true => exact keep source rfl (ih (d := d + 1)) h
      | false =>
        cases d with
        | succ d => exact keep source rfl (ih (d := d)) h
        | zero =>
          cases h
          rfl

theorem find_splits {name s : Text} {e : Environment} (h : find name s = .ok (some e)) : e.Splits s := by
  unfold find at h
  split at h
  · cases h
  · rename_i f hf
    split at h
    · rename_i body closing rest hc
      cases h
      have hclose := close_eq hc
      rw [Text.sources_cut] at hclose
      have hsplits := Text.find?_splits (Marker.ahead_begins name) hf
      simp only [Splits, source, Text.Found.Splits, hclose, List.append_assoc] at hsplits ⊢
      exact hsplits
    · cases h

theorem at?_splits {name before s : Text} {e : Environment} (h : at? name before s = some e) : e.Splits (before ++ s) := by
  unfold at? at h
  split at h
  · cases h
  · rename_i rest hr
    obtain ⟨⟨body, closing, rest'⟩, hc, rfl⟩ := Option.map_eq_some_iff.1 h
    have hclose := close_eq hc
    rw [Text.sources_cut] at hclose
    have hs := Text.upTo_append (Marker.suffix_after? hr)
    calc before ++ (s.upTo rest ++ body ++ closing) ++ rest'
      _ = before ++ (s.upTo rest ++ (body ++ closing ++ rest')) := by simp only [List.append_assoc]
      _ = before ++ s := by rw [← hclose, hs]

theorem leaf?_splits {names : List Text} {s : Text} {e : Environment} (h : leaf? names s = some e) : e.Splits s := by
  have main (names : List Text) (ps : List (Piece Text)) (before : List Text) (h : leafFrom names before ps = some e) :
      e.Splits (before.reverse.flatten ++ Piece.sources ps) := by
    induction ps generalizing before with
    | nil => cases h
    | cons p ps ih =>
      have hnext (h : leafFrom names (p.source :: before) ps = some e) :
          e.Splits (before.reverse.flatten ++ Piece.sources (p :: ps)) := by
        have hsplits := ih _ h
        rw [List.reverse_cons, List.flatten_append, List.flatten_singleton, List.append_assoc] at hsplits
        exact hsplits
      cases p with
      | char c => exact hnext h
      | hit name source =>
        simp only [leafFrom] at h
        split at h
        · rename_i e' he
          split at h
          · exact hnext h
          · cases h
            exact at?_splits he
        · exact hnext h
  have hsplits := main _ _ _ h
  rwa [Text.sources_cut] at hsplits

end Environment

/-! ## The characters of what is found -/

namespace Within

variable {ok : Char → Bool} {s : Text}

theorem found {f : Text.Found α} (hs : Within ok s) (h : f.Splits s) :
    Within ok f.before ∧ Within ok f.source ∧ Within ok f.after := by
  obtain rfl := h
  refine ⟨hs.part ?_, hs.part ?_, hs.part ?_⟩
  · exact ((List.prefix_append _ _).trans (List.prefix_append _ _)).isInfix
  · exact List.infix_append _ _ _
  · exact (List.suffix_append _ _).isInfix

theorem environment {e : Environment} (hs : Within ok s) (h : e.Splits s) :
    Within ok e.before ∧ Within ok e.source ∧ Within ok e.after :=
  hs.found (f := ⟨e.before, (), e.source, e.after⟩) h

theorem body {e : Environment} (hs : Within ok s) (h : e.Splits s) : Within ok e.body :=
  (hs.environment h).2.1.part (List.infix_append _ _ _)

theorem replaceBy {e : Environment} {t : Text} (hs : Within ok s) (h : e.Splits s) (ht : Within ok t) :
    Within ok (e.replaceBy t) := by
  obtain ⟨hbefore, -, hafter⟩ := hs.environment h
  exact (hbefore.append ht).append hafter

end Within

end Galley
