import Galley.Proofs.SpelledInline
import Galley.Proofs.Tags
/-!
# Dashes

From left to right three hyphens in a row are set as one dash and two as another (`typography_eq`). Markup shows the
dashes as references, and a reader has them back both in text and in the value of an attribute
(`exists_tokens_dashMarkup`, `unescapeValue_dashMarkup`). So a text with two hyphens side by side is not shown as it is
written, and every other text is (`dashed_eq_self_iff`).
-/

namespace Galley

namespace Text

variable {old : Text}

theorem replace_skip {c : Char} {s : Text} (hold : old ≠ []) (h : ¬ old <+: c :: s) (new : Text) :
    replace (c :: s) old new = c :: replace s old new := by
  have hnone : Inline.literal old none (c :: s) = none := by
    refine Option.map_eq_none_iff.2 (Option.eq_none_iff_forall_ne_some.2 fun r hr => h ⟨r, ?_⟩)
    exact (after?_eq_some_iff.1 hr).symm
  have hforward : Forward (Inline.literal old) := fun _ _ _ => rfl
  rw [Inline.replace_eq_replaceAll hold, Inline.replace_eq_replaceAll hold, hforward.replaceAll_cons hnone]

theorem replace_append (hold : old ≠ []) (new s : Text) : replace (old ++ s) old new = new ++ replace s old new := by
  have hread : Inline.literal old none (old ++ s) = some ((), s) := by rw [Inline.literal, after?_append, Option.map_some]
  have hforward : Forward (Inline.literal old) := fun _ _ _ => rfl
  rw [Inline.replace_eq_replaceAll hold, Inline.replace_eq_replaceAll hold]
  cases old with
  | nil => contradiction
  | cons c t => exact hforward.replaceAll_hit hread rfl _

theorem replace_append_of_not_mem {x : Char} {t p : Text} (hp : x ∉ p) (new s : Text) :
    replace (p ++ s) (x :: t) new = p ++ replace s (x :: t) new := by
  induction p with
  | nil => rfl
  | cons c p ih =>
    simp only [List.mem_cons, not_or] at hp
    rw [List.cons_append, replace_skip (List.cons_ne_nil x t) (fun h => hp.1 (List.cons_prefix_cons.1 h).1), ih hp.2,
      List.cons_append]

end Text

namespace Inline

/-! ## Setting dashes -/

/-- The text with `em` in the places of three hyphens and `en` in the places of two. -/
def setDashes (em en : Text) : Text → Text
  | '-' :: '-' :: '-' :: s => em ++ setDashes em en s
  | '-' :: '-' :: s => en ++ setDashes em en s
  | c :: s => c :: setDashes em en s
  | [] => []

/-- The text with its dashes as markup has them. -/
def dashMarkup (s : Text) : Text := setDashes "&mdash;" "&ndash;" s

/-- The text with its dashes as a reader sees them. -/
def dashed (s : Text) : Text := setDashes [Char.ofNat 0x2014] [Char.ofNat 0x2013] s

section SetDashes

variable {em en s t : Text}

theorem setDashes_cons {c : Char} (h : ¬ ['-', '-'] <+: c :: s) : setDashes em en (c :: s) = c :: setDashes em en s := by
  rw [setDashes]
  · rintro r rfl rfl
    exact h ⟨'-' :: r, rfl⟩
  · rintro r rfl rfl
    exact h ⟨r, rfl⟩

/-- Text is read from left to right: three hyphens, two that no third follows, or a character that begins no two. -/
theorem dashes_induct {motive : Text → Prop} (nil : motive []) (long : ∀ s, motive s → motive ('-' :: '-' :: '-' :: s))
    (short : ∀ s, ¬ ['-'] <+: s → motive s → motive ('-' :: '-' :: s))
    (char : ∀ c s, ¬ ['-', '-'] <+: c :: s → motive s → motive (c :: s)) (s : Text) : motive s := by
  fun_induction setDashes [] [] s with
  | case1 s ih => exact long s ih
  | case2 s hno ih => exact short s (fun ⟨r, hr⟩ => hno r hr.symm) ih
  | case3 c s _ hno ih =>
    refine char c s (fun hp => ?_) ih
    obtain ⟨rfl, r, hr⟩ := List.cons_prefix_cons.1 hp
    exact hno r rfl hr.symm
  | case4 => exact nil

theorem setDashes_short (h : ¬ ['-'] <+: s) : setDashes em en ('-' :: '-' :: s) = en ++ setDashes em en s := by
  rw [setDashes]
  rintro r rfl
  exact h ⟨r, rfl⟩

/-- Setting long dashes brings no hyphen to the front. -/
theorem no_hyphen_replace (h : ¬ ['-'] <+: s) : ¬ ['-'] <+: Text.replace s "---" em := by
  cases s with
  | nil => exact h
  | cons c s =>
    have hc : '-' ≠ c := fun he => h (he ▸ ⟨s, rfl⟩)
    have hskip : ¬ "---".toList <+: c :: s := fun hp => hc (List.cons_prefix_cons.1 hp).1
    rw [Text.replace_skip (by decide) hskip]
    exact fun hp => hc (List.cons_prefix_cons.1 hp).1

/-- Two replacements, one after the other, set the dashes. -/
theorem replace_replace (hem : '-' ∉ em) (en s : Text) :
    Text.replace (Text.replace s "---" em) "--" en = setDashes em en s := by
  -- what the first replacement puts in holds no hyphen, so the second passes it over
  induction s using dashes_induct with
  | nil => rfl
  | long s ih =>
    have hlong : Text.replace ("---" ++ s) "---" em = em ++ Text.replace s "---" em := Text.replace_append (by decide) em s
    have hskip := Text.replace_append_of_not_mem (t := "-") hem en (Text.replace s "---" em)
    exact (congrArg (Text.replace · "--" en) hlong).trans (hskip.trans (congrArg (em ++ ·) ih))
  | short s hno ih =>
    have hfirst : ¬ "---".toList <+: '-' :: '-' :: s := fun hp =>
      hno (List.cons_prefix_cons.1 (List.cons_prefix_cons.1 hp).2).2
    have hsecond : ¬ "---".toList <+: '-' :: s := fun hp =>
      hno ((List.prefix_append ['-'] ['-']).trans (List.cons_prefix_cons.1 hp).2)
    rw [Text.replace_skip (by decide) hfirst, Text.replace_skip (by decide) hsecond, setDashes_short hno]
    exact (Text.replace_append (show "--".toList ≠ [] by decide) en _).trans (congrArg (en ++ ·) ih)
  | char c s hno ih =>
    have hfirst : ¬ "---".toList <+: c :: s := fun hp => hno ((List.prefix_append ['-', '-'] ['-']).trans hp)
    have hsecond : ¬ "--".toList <+: c :: Text.replace s "---" em := fun hp => by
      have hc : '-' = c := (List.cons_prefix_cons.1 hp).1
      refine no_hyphen_replace (fun hs => hno ?_) (List.cons_prefix_cons.1 hp).2
      exact List.cons_prefix_cons.2 ⟨hc, hs⟩
    rw [Text.replace_skip (by decide) hfirst, Text.replace_skip (by decide) hsecond, setDashes_cons hno, ih]

theorem mem_setDashes {c : Char} (h : c ∈ setDashes em en s) : c ∈ s ∨ c ∈ em ∨ c ∈ en := by
  fun_induction setDashes em en s with
  | case1 s ih => grind
  | case2 s _ ih => grind
  | case3 c s _ _ ih => grind
  | case4 => cases h

/-- Text without quotes changes in its dashes only. -/
theorem typography_eq (hb : '\x60' ∉ s) (hq : '\'' ∉ s) : typography s = dashMarkup s := by
  have hkept {x : Char} (hx : x ∉ s) (hem : x ∉ "&mdash;".toList) (hen : x ∉ "&ndash;".toList) : x ∉ dashMarkup s := by
    intro hm
    rcases mem_setDashes hm with h | h | h <;> contradiction
  rw [typography, replace_replace (by decide)]
  exact quotes_eq_self (hkept hb (by decide) (by decide)) (hkept hq (by decide) (by decide))

theorem setDashes_append_cons {c : Char} (hc : c ≠ '-') (s t : Text) :
    setDashes em en (s ++ c :: t) = setDashes em en s ++ c :: setDashes em en t := by
  induction s using dashes_induct with
  | nil => exact setDashes_cons fun hp => hc (List.cons_prefix_cons.1 hp).1.symm
  | long s ih => simp only [List.cons_append, setDashes, ih, List.append_assoc]
  | short s hno ih =>
    have hrest : ¬ ['-'] <+: s ++ c :: t := by
      cases s with
      | nil => exact fun hp => hc (List.cons_prefix_cons.1 hp).1.symm
      | cons d s => exact fun hp => hno (List.cons_prefix_cons.2 ⟨(List.cons_prefix_cons.1 hp).1, List.nil_prefix⟩)
    rw [List.cons_append, List.cons_append, setDashes_short hrest, setDashes_short hno, ih, List.append_assoc]
  | char d s hno ih =>
    have hrest : ¬ ['-', '-'] <+: d :: (s ++ c :: t) := by
      cases s with
      | nil => exact fun hp => hc (List.cons_prefix_cons.1 (List.cons_prefix_cons.1 hp).2).1.symm
      | cons e s =>
        refine fun hp => hno ?_
        obtain ⟨hd, hp⟩ := List.cons_prefix_cons.1 hp
        exact List.cons_prefix_cons.2 ⟨hd, List.cons_prefix_cons.2 ⟨(List.cons_prefix_cons.1 hp).1, List.nil_prefix⟩⟩
    rw [List.cons_append, setDashes_cons hrest, setDashes_cons hno, ih, List.cons_append]

theorem setDashes_append_of_not_mem {p : Text} (hp : '-' ∉ p) (s : Text) :
    setDashes em en (p ++ s) = p ++ setDashes em en s := by
  induction p with
  | nil => rfl
  | cons c p ih =>
    simp only [List.mem_cons, not_or] at hp
    have hno : ¬ ['-', '-'] <+: c :: (p ++ s) := fun h => hp.1 (List.cons_prefix_cons.1 h).1
    rw [List.cons_append, setDashes_cons hno, ih hp.2, List.cons_append]

theorem setDashes_eq_self (h : ¬ ['-', '-'] <:+: s) : setDashes em en s = s := by
  induction s with
  | nil => rfl
  | cons c s ih =>
    rw [setDashes_cons (fun hp => h hp.isInfix), ih fun hi => h (List.infix_cons hi)]

theorem setDashes_of_not_mem (h : '-' ∉ s) : setDashes em en s = s :=
  setDashes_eq_self fun hi => h (hi.subset List.mem_cons_self)

end SetDashes

/-- A text is shown as it is written if no two hyphens stand side by side in it. -/
theorem dashed_eq_self_iff {s : Text} : dashed s = s ↔ ¬ ['-', '-'] <:+: s := by
  -- dashes make a text shorter
  have hlength (s : Text) : (dashed s).length ≤ s.length ∧ (['-', '-'] <:+: s → (dashed s).length < s.length) := by
    unfold dashed
    induction s using dashes_induct with
    | nil => simp [setDashes]
    | long s ih =>
      simp only [setDashes, List.length_append, List.length_cons, List.length_nil]
      omega
    | short s hno ih =>
      simp only [setDashes_short hno, List.length_append, List.length_cons, List.length_nil]
      omega
    | char c s hno ih =>
      simp only [setDashes_cons hno, List.length_cons, List.infix_cons_iff, hno, false_or]
      exact ⟨Nat.succ_le_succ ih.1, fun hi => Nat.succ_lt_succ (ih.2 hi)⟩
  refine ⟨fun he hi => ?_, setDashes_eq_self⟩
  have := (hlength s).2 hi
  rw [he] at this
  exact Nat.lt_irrefl _ this

/-! ## Reading dashes back -/

section Reading

open Html (Begins Entity Token isOrdinary namedText plainParts tokens unescapeValue valueReference)

theorem dashes_short {s : Text} (h : ¬ ['-'] <+: s) :
    dashMarkup ('-' :: '-' :: s) = "&ndash;" ++ dashMarkup s ∧ dashed ('-' :: '-' :: s) = [Char.ofNat 0x2013] ++ dashed s :=
  ⟨setDashes_short h, setDashes_short h⟩

theorem dashes_cons {c : Char} {s : Text} (h : ¬ ['-', '-'] <+: c :: s) :
    dashMarkup (c :: s) = c :: dashMarkup s ∧ dashed (c :: s) = c :: dashed s :=
  ⟨setDashes_cons h, setDashes_cons h⟩

/-- In a value the references are read as the dashes. -/
theorem unescapeValue_dashMarkup {s : Text} (h : '&' ∉ s) : unescapeValue (dashMarkup s) = dashed s := by
  have hreference (name x : Text)
      (hname : (∀ c ∈ name, Html.isNameChar c = true) ∧ name.head? ≠ some '#' ∧ name ≠ [] ∧ name.length ≤ 32)
      (hx : namedText name true = x) (t : Text) : unescapeValue ('&' :: (name ++ ';' :: t)) = x ++ unescapeValue t := by
    have hread := Html.valueReference_named hname.2.1 hname.1 hname.2.2.1 hname.2.2.2 none t
    rw [hx] at hread
    exact Html.forward_valueReference.replaceAll_hit (t := name ++ [';']) hread (by simp) id
  induction s using dashes_induct with
  | nil => rfl
  | long s ih =>
    have hs : '&' ∉ s := by simpa using h
    exact (hreference "mdash" [Char.ofNat 0x2014] (by decide) (by decide +kernel) _).trans (congrArg (_ :: ·) (ih hs))
  | short s hno ih =>
    have hs : '&' ∉ s := by simpa using h
    rw [(dashes_short hno).1, (dashes_short hno).2]
    exact (hreference "ndash" [Char.ofNat 0x2013] (by decide) (by decide +kernel) _).trans (congrArg (_ :: ·) (ih hs))
  | char c s hno ih =>
    simp only [List.mem_cons, not_or] at h
    have hskip := Html.forward_valueReference.replaceAll_cons (Html.valueReference_eq_none (Ne.symm h.1) none (dashMarkup s)) id
    rw [(dashes_cons hno).1, (dashes_cons hno).2]
    exact hskip.trans (congrArg (c :: ·) (ih h.2))

theorem begins_dash {c : Char} (name : Text) {x : Text} (hname : Html.isPlainTagName (c :: name) = true)
    (hfind : (Entity.find? (c :: name)).map Entity.characters = some x) (t : Text) :
    Begins ('&' :: c :: (name ++ ';' :: t)) (.text x :: tokens t) :=
  Html.begins_reference (Html.textReference?_named hname hfind t) (by simp; omega)

/-- In text the parts that are read, one after the other, are the text with its dashes. -/
theorem exists_tokens_dashMarkup {s t : Text} {ts : List Token} (hs : ∀ c ∈ s, isOrdinary c = true) (ht : Begins t ts)
    {p : Text} (hp : ∀ c ∈ p, isOrdinary c = true) :
    ∃ parts : List Text, parts.flatten = p ++ dashed s ∧
      tokens (p ++ (dashMarkup s ++ t)) = parts.map .text ++ ts := by
  have hparts (p : Text) : (plainParts p).flatten = p := by cases p <;> simp [plainParts]
  -- a dash is a token of its own, behind the token of what precedes it
  have hdash {u s x : Text} (hu : Begins (u ++ (dashMarkup s ++ t)) (.text x :: tokens (dashMarkup s ++ t))) {p : Text}
      (hp : ∀ c ∈ p, isOrdinary c = true)
      (ih : ∃ parts : List Text, parts.flatten = dashed s ∧ tokens (dashMarkup s ++ t) = parts.map .text ++ ts) :
      ∃ parts : List Text, parts.flatten = p ++ (x ++ dashed s) ∧
        tokens (p ++ (u ++ dashMarkup s ++ t)) = parts.map .text ++ ts := by
    obtain ⟨parts, hflatten, hparts'⟩ := ih
    refine ⟨plainParts p ++ x :: parts, by simp [hparts, hflatten], ?_⟩
    rw [List.append_assoc, hu p hp, hparts']
    simp
  induction s using dashes_induct generalizing p with
  | nil =>
    have hnil : dashed [] = [] := rfl
    exact ⟨plainParts p, by rw [hparts, hnil, List.append_nil], ht p hp⟩
  | long s ih =>
    have hmore : ∀ c ∈ s, isOrdinary c = true := fun c hc => hs c (by simp [hc])
    exact hdash (u := "&mdash;") (x := [Char.ofNat 0x2014])
      (begins_dash "dash" (by decide) (by decide +kernel) _) hp (by simpa using ih hmore (p := []) (by simp))
  | short s hno ih =>
    have hmore : ∀ c ∈ s, isOrdinary c = true := fun c hc => hs c (by simp [hc])
    rw [(dashes_short hno).1, (dashes_short hno).2]
    exact hdash (u := "&ndash;") (begins_dash "dash" (by decide) (by decide +kernel) _) hp
      (by simpa using ih hmore (p := []) (by simp))
  | char c s hno ih =>
    -- the character joins those that wait for the next token
    obtain ⟨hc, hmore⟩ := List.forall_mem_cons.1 hs
    have hlonger : ∀ d ∈ p ++ [c], isOrdinary d = true := by
      simpa [or_imp, forall_and] using And.intro hp hc
    rw [(dashes_cons hno).1, (dashes_cons hno).2]
    simpa using ih hmore hlonger

end Reading

end Inline

end Galley
