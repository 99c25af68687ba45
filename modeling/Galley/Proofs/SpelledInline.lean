import Galley.Proofs.Calm
import Galley.Proofs.MarkedSteps
/-!
# Steps that leave a text as it is

A step of formatting looks for constructs that begin with certain characters, and does nothing where these are missing
(`typography_eq`, `replaceSymbols_eq`). In a text of some words no formula and no escaped special is found, nor any
reference whose command is none of the words (`Spelled.rewriteReferences_eq`).
-/

namespace Galley

/-- A reader of constructs that begin with a character finds nothing in a text without it. -/
theorem Text.Misses.of_not_mem {α : Type} {read : Reader α} {x : Char} {s : Text} (hnil : ∀ before, read before [] = none)
    (hcons : ∀ before c s, c ≠ x → read before (c :: s) = none) (h : x ∉ s) : Text.Misses read s := by
  intro before t ht
  cases t with
  | nil => exact hnil before
  | cons c t => exact hcons before c t fun he => h (ht.subset (he ▸ List.mem_cons_self))

namespace Inline

/-! ## Characters -/

/-- No step of formatting looks for a construct that begins with the character, and none puts it aside. -/
def isQuiet (c : Char) : Bool :=
  !(['\\', '$', '{', '}', '<', '>', '&', '"', '-', '\x60', '\'', '~'].contains c) && !isInternal c

section Steps

variable {s : Text}

theorem replace_eq_self {x : Char} {t : Text} (hx : x ∉ s) (new : Text) : s.replace (x :: t) new = s := by
  have hmisses : Text.Misses (literal (x :: t)) s := by
    refine .of_not_mem (x := x) (fun _ => rfl) (fun before c s hc => ?_) hx
    rw [literal, Text.after?, if_neg (Ne.symm hc), Option.map_none]
  rw [replace_eq_replaceAll (by simp)]
  exact hmisses.replaceAll_eq _

theorem escape_eq_self (ha : '&' ∉ s) (hl : '<' ∉ s) (hg : '>' ∉ s) : Html.escape s = s := by
  have hchar : ∀ c ∈ s, Html.escapeChar c = [c] := by
    intro c hc
    have hne {x : Char} (hx : x ∉ s) : c ≠ x := fun he => hx (he ▸ hc)
    rw [Html.escapeChar, if_neg (hne ha), if_neg (hne hl), if_neg (hne hg)]
  rw [Html.escape, List.flatMap_congr hchar]
  exact List.flatMap_singleton' s

theorem quotes_eq_self (hb : '\x60' ∉ s) (hq : '\'' ∉ s) : (s.replace "\x60\x60" "&ldquo;").replace "''" "&rdquo;" = s := by
  have hleft : s.replace "\x60\x60" "&ldquo;" = s := replace_eq_self (t := "\x60") hb _
  have hright : s.replace "''" "&rdquo;" = s := replace_eq_self (t := "'") hq _
  rw [hleft, hright]

theorem typography_eq_self (hd : '-' ∉ s) (hb : '\x60' ∉ s) (hq : '\'' ∉ s) : typography s = s := by
  have hem : s.replace "---" "&mdash;" = s := replace_eq_self (t := "--") hd _
  have hen : s.replace "--" "&ndash;" = s := replace_eq_self (t := "-") hd _
  rw [typography, hem, hen, quotes_eq_self hb hq]

theorem formula_eq_none {before : Option Char} {c : Char} {s : Text} (hd : c ≠ '$') (hb : c ≠ '\\') :
    formula before (c :: s) = none := by
  unfold formula
  split
  · rename_i h
    exact absurd (List.cons.inj h).1 hd
  · rename_i h
    exact absurd (List.cons.inj h).1 hb
  · rfl

theorem misses_formula (hd : '$' ∉ s) (hb : '\\' ∉ s) : Text.Misses formula s := by
  intro before t ht
  cases t with
  | nil => rfl
  | cons c t =>
    have hc := ht.subset List.mem_cons_self
    exact formula_eq_none (fun he => hd (he ▸ hc)) (fun he => hb (he ▸ hc))

theorem forward_escapedSpecial : Text.Forward escapedSpecial := fun b b' s => by
  unfold escapedSpecial
  split <;> rfl

theorem escapedSpecial_eq_none (before : Option Char) {c : Char} (hc : c ≠ '\\') (s : Text) : escapedSpecial before (c :: s) = none := by
  unfold escapedSpecial
  split
  · rename_i h
    exact absurd (List.cons.inj h).1 hc
  · rfl

theorem misses_escapedSpecial (hb : '\\' ∉ s) : Text.Misses escapedSpecial s :=
  .of_not_mem (fun _ => rfl) (fun before _ s hc => escapedSpecial_eq_none before hc s) hb

theorem misses_symbolCommand (hb : '\\' ∉ s) (names : List Text) (skip : Text → Text) : Text.Misses (symbolCommand names skip) s := by
  refine .of_not_mem (x := '\\') (fun _ => ?_) (fun before c s hc => ?_) hb
  · rw [symbolCommand, List.findSome?_eq_none_iff]
    exact fun _ _ => rfl
  · rw [symbolCommand, List.findSome?_eq_none_iff]
    intro name _
    rw [Command.after?, Text.after?, if_neg (Ne.symm hc)]
    rfl

/-- A text that lacks a character of a word lacks the word. -/
theorem misses_literal {x : Char} {t : Text} (hx : x ∈ t) (hs : x ∉ s) : Text.Misses (literal t) s := by
  intro before u hu
  rw [literal, Option.map_eq_none_iff]
  refine Option.eq_none_iff_forall_ne_some.2 fun rest hr => ?_
  rw [Text.after?_eq_some_iff.1 hr] at hu
  exact hs (hu.subset (List.mem_append_left rest hx))

theorem misses_rowBreak (hb : '\\' ∉ s) : Text.Misses rowBreak s := by
  refine .of_not_mem (x := '\\') (fun _ => rfl) (fun before c s hc => ?_) hb
  unfold rowBreak
  split
  · rename_i he
    exact absurd (List.cons.inj he).1 hc
  · rfl

/-- Where no backslash is left behind the row breaks, and no colon or comma in braces, only ties are symbols. -/
theorem replaceSymbols_eq {t : Text} (ht : s.replaceAll rowBreak (fun _ => "<br>") = t) (hb : '\\' ∉ t)
    (hcolon : Text.Misses (literal "\x7b:\x7d") t) (hcomma : Text.Misses (literal "\x7b,\x7d") t) :
    replaceSymbols s = t.replace "~" "&nbsp;" := by
  have hfirst : symbols.tail.dropLast.foldl (fun s x => s.replaceAll x.1 fun _ => x.2) t = t := by
    refine List.foldlRecOn (motive := fun u => u = t) _ _ rfl fun u he x hx => ?_
    subst he
    have hmisses : Text.Misses x.1 u := by
      simp only [symbols, List.tail_cons, List.dropLast, List.mem_cons, List.not_mem_nil, or_false] at hx
      rcases hx with rfl | rfl | rfl | rfl | rfl | rfl | rfl | rfl | rfl | rfl | rfl
      · exact misses_symbolCommand hb _ _
      · exact misses_symbolCommand hb _ _
      · exact misses_symbolCommand hb _ _
      · exact misses_symbolCommand hb _ _
      · exact misses_symbolCommand hb _ _
      · exact misses_symbolCommand hb _ _
      · exact misses_literal (x := '\\') (by decide) hb
      · exact misses_literal (x := '\\') (by decide) hb
      · exact misses_literal (x := '\\') (by decide) hb
      · exact hcolon
      · exact hcomma
    exact hmisses.replaceAll_eq _
  have hsplit : symbols = [(rowBreak, ("<br>" : Text))] ++ symbols.tail.dropLast ++ [(literal "~", ("&nbsp;" : Text))] := rfl
  rw [replaceSymbols, hsplit, List.foldl_append, List.foldl_append]
  simp only [List.foldl_cons, List.foldl_nil]
  rw [ht, hfirst, replace_eq_replaceAll (by decide)]

/-- Without backslashes and braces only ties are symbols. -/
theorem replaceSymbols_of_not_mem (hb : '\\' ∉ s) (ho : '{' ∉ s) : replaceSymbols s = s.replace "~" "&nbsp;" :=
  replaceSymbols_eq ((misses_rowBreak hb).replaceAll_eq _) hb (misses_literal (x := '{') (by decide) ho)
    (misses_literal (x := '{') (by decide) ho)

theorem restoreSpecials_eq_self (h : ∀ c ∈ s, isInternal c = false) : restoreSpecials s = s := by
  have hguard : ∀ x ∈ specials, isInternal x.2.1 = true := by decide
  have hchar : ∀ c ∈ s, restoreSpecial c = [c] := by
    intro c hc
    have hnone : specials.find? (fun x => x.2.1 = c) = none := by
      refine List.find?_eq_none.2 fun x hx he => ?_
      have hin := hguard x hx
      rw [of_decide_eq_true he, h c hc] at hin
      cases hin
    rw [restoreSpecial]
    split
    · rename_i hsome
      rw [hnone] at hsome
      cases hsome
    · rfl
  rw [restoreSpecials, List.flatMap_congr hchar]
  exact List.flatMap_singleton' s

theorem misses_reader (h : Stash.opening ∉ s) : Text.Misses Stash.reader s :=
  .of_not_mem (fun _ => rfl) (fun before c s hc => by simp [Stash.reader, hc]) h

end Steps

/-! ## Texts of some words -/

/-- Commands whose argument is shown as it stands. -/
def referenceNames : List Text := ["textcircled", "eqref", "ref", "cite", "citep", "citet", "label"]

/-- Commands that set a piece aside. -/
def linkNames : List Text := ["url", "href"]

/-- Commands around an argument that is rewritten. -/
def wrapperNames : List Text := wrappers.map Prod.fst

end Inline

/-- Steps that change nothing change nothing together. -/
theorem foldlM_eq_pure {m : Type → Type} [Monad m] [LawfulMonad m] {α β : Type} {l : List α} {f : β → α → m β}
    {b : β} (h : ∀ x ∈ l, f b x = pure b) : l.foldlM f b = pure b := by
  induction l with
  | nil => rfl
  | cons x l ih =>
    rw [List.foldlM_cons, h x List.mem_cons_self, pure_bind]
    exact ih fun y hy => h y (List.mem_cons_of_mem x hy)

namespace Spelled

variable {words : List Text} {s t : Text}

theorem nil : Spelled words [] := ⟨by simp, fun t ht => by simp at ht⟩

theorem chars_append (hb : '\\' ∉ t) (hd : '$' ∉ t) (h : Spelled words s) : Spelled words (t ++ s) where
  no_dollar := by simpa [hd] using h.no_dollar
  opens u hu := h.opens u (suffix_of_backslash hb hu)

theorem word_append {w : Text} (hw : w ∈ words) (hb : '\\' ∉ w) (hd : '$' ∉ w) (h : Spelled words s) :
    Spelled words ('\\' :: (w ++ s)) where
  no_dollar := by simpa [hd] using h.no_dollar
  opens u hu := by
    rcases List.suffix_cons_iff.1 hu with he | hu
    · obtain ⟨-, rfl⟩ := List.cons.inj he
      exact List.any_eq_true.2 ⟨w, hw, by simp⟩
    · exact (chars_append hb hd h).opens u hu

/-- Every word begins with a letter. -/
def Lettered (words : List Text) : Prop := words.all (fun w => (w.head?.map isAsciiLetter).getD false) = true

instance (words : List Text) : Decidable (Lettered words) := inferInstanceAs (Decidable (_ = true))

section Lettered

variable (hl : Lettered words) (h : Spelled words s)

include hl

theorem isAsciiLetter_rest {c : Char} (h : Spelled words ('\\' :: c :: s)) : isAsciiLetter c = true := by
  have hall (w : Text) (hw : w ∈ words) : (w.head?.map isAsciiLetter).getD false = true := List.all_eq_true.1 hl w hw
  obtain ⟨w, hw, hhead⟩ := h.letter fun hnil => by cases hall [] hnil
  have := hall w hw
  rwa [hhead] at this

include h

theorem misses_formula : Text.Misses Inline.formula s := by
  refine h.misses fun before t ht => ?_
  unfold Inline.formula
  split
  · exact absurd rfl ht.ne_dollar
  · cases isAsciiLetter_rest hl ht
  · rfl

theorem misses_escapedSpecial : Text.Misses Inline.escapedSpecial s := by
  refine h.misses fun before t ht => ?_
  unfold Inline.escapedSpecial
  split
  · rename_i c t
    have hletter := isAsciiLetter_rest hl ht
    have hnone : Inline.specials.lookup c = none := by
      refine Option.eq_none_iff_forall_ne_some.2 fun p hp => ?_
      obtain ⟨as, bs, hspecials, -⟩ := List.lookup_eq_some_iff.1 hp
      have hspecial : ∀ x ∈ Inline.specials, isAsciiLetter x.1 = false := by decide
      have := hspecial (c, p) (by simp [hspecials])
      rw [hletter] at this
      cases this
    rw [hnone, Option.map_none]
  · rfl

end Lettered

theorem rewriteReferences_eq (h : Spelled words s) (hn : Inline.referenceNames.all (isForeign words) = true) :
    Inline.rewriteReferences s = Command.replaceM "url" 1 (fun a => Inline.Stash.put ("<code>" ++ a.first ++ "</code>")) s := by
  have hname (name : Text) (hm : name ∈ Inline.referenceNames) : isForeign words name = true := List.all_eq_true.1 hn name hm
  simp only [Inline.rewriteReferences, h.replace_eq (hname "textcircled" (by decide)),
    h.replace_eq (hname "eqref" (by decide)), h.replace_eq (hname "ref" (by decide)),
    h.replace_eq (hname "cite" (by decide)), h.replace_eq (hname "citep" (by decide)),
    h.replace_eq (hname "citet" (by decide)), h.replace_eq (hname "label" (by decide))]

theorem foldlM_wrappers_eq (h : Spelled words s) (hn : Inline.wrapperNames.all (isForeign words) = true) (depth : Nat) :
    (Inline.wrappers.foldlM (fun s (name, opening, closing) =>
      Command.replaceM name 1 (fun a => do
        pure (opening ++ (← Inline.rewriteCommands depth a.first) ++ closing)) s) s : StateM Inline.Stash Text) = pure s :=
  foldlM_eq_pure fun _ hw => h.replaceM_eq (List.all_eq_true.1 hn _ (List.mem_map_of_mem hw)) 1 _ _

/-- Commands that are none of the words are not found. -/
theorem rewriteCommands_eq (h : Spelled words s)
    (hn : (Inline.referenceNames ++ Inline.linkNames ++ Inline.wrapperNames).all (isForeign words) = true) (depth : Nat) :
    Inline.rewriteCommands depth s = pure s := by
  rw [List.all_append, List.all_append, Bool.and_eq_true, Bool.and_eq_true] at hn
  obtain ⟨⟨hreferences, hlinks⟩, hwrappers⟩ := hn
  have hlink {name : Text} (hm : name ∈ Inline.linkNames) : isForeign words name = true := List.all_eq_true.1 hlinks name hm
  cases depth with
  | zero => rfl
  | succ depth =>
    rw [Inline.rewriteCommands, h.rewriteReferences_eq hreferences, h.replaceM_eq (hlink (by decide)), pure_bind]
    dsimp only
    rw [h.replaceM_eq (hlink (by decide)), pure_bind]
    exact h.foldlM_wrappers_eq hwrappers depth

end Spelled

end Galley
