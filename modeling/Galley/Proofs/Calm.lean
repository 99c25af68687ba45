import Galley.Extract.Bench
import Galley.Markup.Environment
import Galley.Proofs.Cutting
/-!
# Texts without commands

In a text of some words every backslash begins one of these words, and there are no dollars (`Spelled`); no other
command is found in it (`Spelled.after?_eq_none`). In a calm text the words are those of environment markers, and
there are no marks of pieces set aside; in a tame one there may be headings and emphasis as well. Any part of such
a text is such a text (`Spelled.part`, `Calm.part`).
-/

namespace Galley

/-! ## Texts of some words -/

/-- A backslash in a text stands behind a part without one. -/
theorem suffix_of_backslash {a b t : Text} (ha : '\\' ∉ a) (h : '\\' :: t <:+ a ++ b) : '\\' :: t <:+ b := by
  induction a with
  | nil => exact h
  | cons c a ih =>
    simp only [List.mem_cons, not_or] at ha
    rcases List.suffix_cons_iff.1 h with he | hs
    · exact absurd (List.cons.inj he).1 ha.1
    · exact ih ha.2 hs

/-- What follows a backslash begins one of some words, as far as the text goes. -/
def opensAny (words : List Text) (t : Text) : Bool := words.any fun w => (t.take w.length).isPrefixOf w

structure Spelled (words : List Text) (s : Text) : Prop where
  no_dollar : '$' ∉ s
  opens : ∀ t, '\\' :: t <:+ s → opensAny words t = true

namespace Spelled

variable {words : List Text} {s t : Text}

theorem opensAny_of_prefix (h : t <+: s) (hs : opensAny words s = true) : opensAny words t = true := by
  obtain ⟨u, rfl⟩ := h
  simp only [opensAny, List.any_eq_true, List.isPrefixOf_iff_prefix, List.take_append] at hs ⊢
  obtain ⟨w, hw, hprefix⟩ := hs
  exact ⟨w, hw, (List.prefix_append _ _).trans hprefix⟩

theorem part (h : Spelled words s) (ht : t <:+: s) : Spelled words t := by
  obtain ⟨a, b, rfl⟩ := ht
  refine ⟨fun hc => h.no_dollar (by simp [hc]), fun u hu => ?_⟩
  obtain ⟨c, rfl⟩ := hu
  exact opensAny_of_prefix (List.prefix_append u b) (h.opens (u ++ b) ⟨a ++ c, by simp⟩)

theorem of_suffix (h : Spelled words s) (ht : t <:+ s) : Spelled words t := h.part ht.isInfix

theorem mono {words' : List Text} (h : Spelled words s) (hw : ∀ w ∈ words, w ∈ words') : Spelled words' s := by
  refine ⟨h.no_dollar, fun t ht => ?_⟩
  obtain ⟨w, hmem, hprefix⟩ := List.any_eq_true.1 (h.opens t ht)
  exact List.any_eq_true.2 ⟨w, hw w hmem, hprefix⟩

theorem misses {α : Type} {read : Reader α} (h : Spelled words s)
    (hr : ∀ before t, Spelled words t → read before t = none) : Text.Misses read s :=
  fun before t ht => hr before t (h.of_suffix ht)

theorem ne_dollar {c : Char} (h : Spelled words (c :: s)) : c ≠ '$' :=
  fun he => h.no_dollar (by rw [he]; exact List.mem_cons_self)

theorem opens_rest (h : Spelled words ('\\' :: t)) : opensAny words t = true := h.opens t (List.suffix_refl _)

/-- The character behind a backslash begins a word. -/
theorem letter {c : Char} (h : Spelled words ('\\' :: c :: s)) (hne : [] ∉ words) : ∃ w ∈ words, w.head? = some c := by
  obtain ⟨w, hw, hprefix⟩ := List.any_eq_true.1 h.opens_rest
  refine ⟨w, hw, ?_⟩
  cases w with
  | nil => exact absurd hw hne
  | cons d w =>
    rw [List.isPrefixOf_iff_prefix, List.length_cons, List.take_succ_cons] at hprefix
    rw [(List.cons_prefix_cons.1 hprefix).1]
    rfl

/-! ## No other commands -/

/-- The name of a command that is none of the words. -/
def isForeign (words : List Text) (name : Text) : Bool := !opensAny words name

theorem after?_eq_none {name : Text} (h : Spelled words s) (hn : isForeign words name = true) :
    Text.after? ('\\' :: name) s = none := by
  cases hr : Text.after? ('\\' :: name) s with
  | none => rfl
  | some r =>
    obtain rfl := Text.after?_eq_some_iff.1 hr
    have := opensAny_of_prefix (List.prefix_append name r) (opens_rest h)
    simp [isForeign, this] at hn

theorem command_eq_none {name : Text} (h : Spelled words s) (hn : isForeign words name = true) :
    Command.after? name s = none := by
  rw [Command.after?, h.after?_eq_none hn]

theorem starred_eq_none {name : Text} (h : Spelled words s) (hn : isForeign words name = true) :
    Command.starred? name s = none := by
  rw [Command.starred?, h.after?_eq_none hn]

theorem readerOf_eq_none {names : List Text} (h : Spelled words s) (hn : names.all (isForeign words) = true)
    (before : Option Char) : Command.readerOf names before s = none := by
  rw [Command.readerOf, List.findSome?_eq_none_iff]
  intro name hm
  rw [h.command_eq_none (List.all_eq_true.1 hn name hm), Option.map_none]

theorem replace_eq {name : Text} (h : Spelled words s) (hn : isForeign words name = true) (count : Nat)
    (render : Arguments → Text) (takesOption : Bool) : Command.replace name count render s takesOption = s := by
  have hm : Text.Misses (Command.withArguments name count takesOption) s :=
    h.misses fun _ t ht => by rw [Command.withArguments, ht.command_eq_none hn, Option.map_none]
  rw [Command.replace, hm.cut_eq, List.flatMap_map]
  exact List.flatMap_singleton' s

theorem replaceM_eq {m : Type → Type} [Monad m] [LawfulMonad m] {name : Text} (h : Spelled words s)
    (hn : isForeign words name = true) (count : Nat) (render : Arguments → m Text) (takesOption : Bool) :
    Command.replaceM name count render s takesOption = pure s := by
  have hm : Text.Misses (Command.withArguments name count takesOption) s :=
    h.misses fun _ t ht => by rw [Command.withArguments, ht.command_eq_none hn, Option.map_none]
  refine (congrArg (· >>= fun parts => pure parts.flatten) (hm.mapM_cut (m := m) _ ?_)).trans ?_
  · exact fun _ => rfl
  · rw [pure_bind, Text.flatten_map_singleton]

end Spelled

/-! ## Tame texts -/

/-- The words of environment markers, of headings and of emphasis. -/
def bodyWords : List Text :=
  ["begin\x7b", "end\x7b", "section\x7b", "subsection\x7b", "textbf\x7b", "emph\x7b"]

/-- Every backslash begins a marker, a heading or emphasis. -/
abbrev Tame (s : Text) : Prop := Spelled bodyWords s

namespace Tame

theorem misses {α : Type} {read : Reader α} {s : Text} (h : Tame s) (hr : ∀ before t, Tame t → read before t = none) :
    Text.Misses read s := Spelled.misses h hr

theorem letter {c : Char} {s : Text} (h : Tame ('\\' :: c :: s)) : c ∈ ['b', 'e', 's', 't'] := by
  obtain ⟨w, hw, hhead⟩ := Spelled.letter h (by decide)
  have hfirst : w.head?.getD 'b' ∈ ['b', 'e', 's', 't'] :=
    (by decide : ∀ w ∈ bodyWords, w.head?.getD 'b' ∈ ['b', 'e', 's', 't']) w hw
  rwa [hhead, Option.getD_some] at hfirst

end Tame

/-! ## Calm texts -/

/-- What follows the backslash of an environment marker, as far as the text goes. -/
def continuesMarker (t : Text) : Bool :=
  (t.take 6).isPrefixOf "begin\x7b" || (t.take 4).isPrefixOf "end\x7b"

structure Calm (s : Text) : Prop where
  no_dollar : '$' ∉ s
  no_piece : Inline.Stash.opening ∉ s
  marker : ∀ t, '\\' :: t <:+ s → continuesMarker t = true

def markerWords : List Text := ["begin\x7b", "end\x7b"]

theorem opensAny_markerWords (t : Text) : opensAny markerWords t = continuesMarker t := by
  have hbegin : "begin\x7b".toList.length = 6 := rfl
  have hend : "end\x7b".toList.length = 4 := rfl
  simp only [opensAny, markerWords, List.any_cons, List.any_nil, Bool.or_false, hbegin, hend, continuesMarker]

namespace Calm

variable {s t : Text}

theorem spelled (h : Calm s) : Spelled markerWords s :=
  ⟨h.no_dollar, fun t ht => (opensAny_markerWords t).trans (h.marker t ht)⟩

theorem tame (h : Calm s) : Tame s := h.spelled.mono (by decide)

theorem part (h : Calm s) (ht : t <:+: s) : Calm t := by
  refine ⟨(h.spelled.part ht).no_dollar, fun hc => h.no_piece (ht.subset hc), fun u hu => ?_⟩
  exact (opensAny_markerWords u).symm.trans ((h.spelled.part ht).opens u hu)

theorem of_suffix (h : Calm s) (ht : t <:+ s) : Calm t := h.part ht.isInfix

theorem nil : Calm [] := ⟨by simp, by simp, fun t h => by simp at h⟩

theorem misses {α : Type} {read : Reader α} (h : Calm s) (hr : ∀ before t, Calm t → read before t = none) :
    Text.Misses read s := fun before t ht => hr before t (h.of_suffix ht)

/-- The name of a command that is no environment marker. -/
def isForeign (name : Text) : Bool := !continuesMarker name

theorem continuesMarker_rest (h : Calm ('\\' :: t)) : continuesMarker t = true := h.marker t (List.suffix_refl _)

theorem isForeign_spelled {name : Text} (hn : isForeign name = true) : Spelled.isForeign markerWords name = true := by
  rwa [Spelled.isForeign, opensAny_markerWords]

variable {name : Text} (h : Calm s) (hn : isForeign name = true)

include h hn

theorem after?_eq_none : Text.after? ('\\' :: name) s = none := h.spelled.after?_eq_none (isForeign_spelled hn)

theorem command_eq_none : Command.after? name s = none := h.spelled.command_eq_none (isForeign_spelled hn)

theorem starred_eq_none : Command.starred? name s = none := h.spelled.starred_eq_none (isForeign_spelled hn)

end Calm

end Galley
