import Galley.Proofs.GroupGrammar
import Galley.Proofs.Styles
import Galley.Proofs.TheoremNumbers
/-!
# Titles of framed boxes

The options of a framed box are a bracket group, and it is read with depth counters: an option whose value is a brace group
with balanced braces is kept whole (`bracketRest_option`). The value of a key in it ends with the first closing brace
(`get?_option`), so a title is read whole just if it holds none (`framed_title_iff`).
-/

namespace Galley

namespace Group

/-! ## Balanced braces -/

/-- How many brace groups are open behind a text that stands inside `d` of them, where a backslash makes the next character
    inert; none if the text closes one more, or ends with a backslash of its own. -/
def openBraces : (d : Nat) → Text → Option Nat
  | d, [] => some d
  | _, ['\\'] => none
  | d, '\\' :: _ :: s => openBraces d s
  | d, c :: s =>
    if c = '{' then openBraces (d + 1) s
    else if c = '}' then
      match d with
      | 0 => none
      | d + 1 => openBraces d s
    else openBraces d s

theorem openBraces_cons {c : Char} (hc : c ≠ '\\') (d : Nat) (s : Text) : openBraces d (c :: s) =
    if c = '{' then openBraces (d + 1) s
    else if c = '}' then
      match d with
      | 0 => none
      | d + 1 => openBraces d s
    else openBraces d s := by
  rw [openBraces.eq_def]
  split
  · simp_all
  · simp_all
  · simp_all
  · rename_i h
    obtain ⟨rfl, rfl⟩ := List.cons.inj h
    rfl

/-- Inside a brace group a bracket group counts braces only. -/
theorem bracketRest_cons {c : Char} (hc : c ≠ '\\') (e n : Nat) (s : Text) : bracketRest false e (n + 1) false (c :: s) =
    keep [c] (bracketRest false e (if c = '{' then n + 2 else if c = '}' then n else n + 1) false s) := by
  rw [bracketRest_step hc]
  by_cases hopen : c = '{'
  · simp [hopen]
  · by_cases hclose : c = '}'
    · simp [hclose]
    · simp [hopen, hclose]

/-- Other characters are passed over everywhere. -/
theorem bracketRest_plain {c : Char} (hc : c ≠ '\\') (ho : c ≠ '{') (hb : c ≠ '}') (hl : c ≠ '[') (hr : c ≠ ']') (e n : Nat)
    (s : Text) : bracketRest false e n false (c :: s) = keep [c] (bracketRest false e n false s) := by
  rw [bracketRest_step hc]
  simp [ho, hb, hl, hr]

/-- So it keeps a text that closes no group of its surroundings whole. -/
theorem bracketRest_append {d d' : Nat} {v : Text} (h : openBraces d v = some d') (e : Nat) (s : Text) :
    bracketRest false e (d + 1) false (v ++ s) = keep v (bracketRest false e (d' + 1) false s) := by
  fun_induction openBraces d v with
  | case1 d =>
    obtain rfl := Option.some.inj h
    rw [List.nil_append, keep_nil]
  | case2 => cases h
  | case3 d c v ih =>
    rw [List.cons_append, List.cons_append, bracketRest, ih h, keep_keep]
    rfl
  | case4 d v _ _ ih =>
    rw [List.cons_append, bracketRest_cons (by decide), if_pos rfl, ih h, keep_keep]
    rfl
  | case5 => cases h
  | case6 v d _ _ _ ih =>
    rw [List.cons_append, bracketRest_cons (by decide), if_neg (by decide), if_pos rfl, ih h, keep_keep]
    rfl
  | case7 d c v hlast hmore hopen hclose ih =>
    have hc : c ≠ '\\' := fun hc => by
      cases v with
      | nil => exact hlast hc rfl
      | cons a v => exact hmore a v hc rfl
    rw [List.cons_append, bracketRest_cons hc, if_neg hopen, if_neg hclose, ih h, keep_keep]
    rfl

/-- A text that is no more than white space up to a closing brace closes a group of its surroundings. -/
theorem openBraces_of_blank {w v : Text} (hw : ∀ c ∈ w, isBlank c = true) : openBraces 0 (w ++ '}' :: v) = none := by
  induction w with
  | nil =>
    rw [List.nil_append, openBraces_cons (by decide), if_neg (by decide), if_pos rfl]
  | cons c w ih =>
    obtain ⟨hc, hw⟩ := List.forall_mem_cons.1 hw
    have hne (d : Char) (hd : isBlank d = false) : c ≠ d := fun he => by
      rw [he, hd] at hc
      cases hc
    rw [List.cons_append, openBraces_cons (hne _ (by decide)), if_neg (hne _ (by decide)), if_neg (hne _ (by decide)), ih hw]

/-- An option list that a bracket group can hold. -/
def Bracketed (options : Text) : Prop := ∀ s, bracketRest false 0 0 false (options ++ ']' :: s) = some (options, s)

/-- Letters are passed over. -/
theorem bracketRest_letters {key : Text} (hkey : ∀ c ∈ key, isAsciiLetter c = true) (e n : Nat) (s : Text) :
    bracketRest false e n false (key ++ s) = keep key (bracketRest false e n false s) := by
  induction key with
  | nil => cases h : bracketRest false e n false s <;> simp [keep, h]
  | cons c key ih =>
    obtain ⟨hc, hkey⟩ := List.forall_mem_cons.1 hkey
    have hne (d : Char) (hd : isAsciiLetter d = false) : c ≠ d := fun he => by
      rw [he, hd] at hc
      cases hc
    rw [List.cons_append, bracketRest_plain (hne _ (by decide)) (hne _ (by decide)) (hne _ (by decide)) (hne _ (by decide))
      (hne _ (by decide)), ih hkey, keep_keep]
    rfl

end Group

/-- Options that begin with a braced value of a key. -/
def bracedOption (key v more : Text) : Text := key ++ '=' :: '{' :: (v ++ '}' :: more)

namespace Group

theorem bracketed_bracedOption {key v more : Text} (hkey : ∀ c ∈ key, isAsciiLetter c = true) (hv : openBraces 0 v = some 0)
    (hmore : Bracketed more) : Bracketed (bracedOption key v more) := by
  intro s
  have hopen (t : Text) : bracketRest false 0 0 false ('{' :: t) = keep ['{'] (bracketRest false 0 1 false t) := by
    simp [bracketRest]
  have hsource : bracedOption key v more ++ ']' :: s = key ++ '=' :: '{' :: (v ++ '}' :: (more ++ ']' :: s)) := by
    simp [bracedOption]
  rw [hsource, bracketRest_letters hkey, bracketRest_plain (by decide) (by decide) (by decide) (by decide) (by decide), hopen,
    bracketRest_append hv, bracketRest_cons (by decide), if_neg (by decide), if_pos rfl, hmore]
  simp [keep, bracedOption]

end Group

namespace Text

theorem closedBy_append (c : Char) (v more : Text) : ∃ rest, closedBy c (v ++ c :: more) = some (v.takeWhile (· ≠ c), rest) := by
  induction v with
  | nil => exact ⟨more, by simp [closedBy]⟩
  | cons d v ih =>
    by_cases hd : d = c
    · exact ⟨v ++ c :: more, by simp [closedBy, hd]⟩
    · obtain ⟨rest, hrest⟩ := ih
      refine ⟨rest, ?_⟩
      simp only [closedBy, List.cons_append, ne_eq, hd, not_false_eq_true, decide_true, List.dropWhile_cons_of_pos,
        List.takeWhile_cons_of_pos] at hrest ⊢
      split at hrest
      · obtain ⟨htake, rfl⟩ := Prod.mk.inj (Option.some.inj hrest)
        simp_all
      · cases hrest

/-- No more than white space is stripped. -/
theorem mem_strip {s : Text} {c : Char} (hc : isBlank c = false) (h : c ∈ s) : c ∈ strip s := by
  obtain ⟨gap, hs, hgap⟩ := dropWhile_eq isBlank s
  obtain ⟨t, ht, hblank⟩ := dropWhileRight_eq isBlank (s.dropWhile isBlank)
  rw [hs, ht] at h
  rcases List.mem_append.1 h with h | h
  · rw [hgap c h] at hc
    cases hc
  · rcases List.mem_append.1 h with h | h
    · exact h
    · rw [hblank c h] at hc
      cases hc

/-- A title with something in it has something in front of its first closing brace, if its braces are balanced. -/
theorem strip_takeWhile_ne_nil {v : Text} (h : Group.openBraces 0 v = some 0) (hv : strip v ≠ []) :
    strip (v.takeWhile (· ≠ '}')) ≠ [] := by
  intro hnil
  have hblank : ∀ c ∈ v.takeWhile (· ≠ '}'), isBlank c = true := by
    intro c hc
    cases hb : isBlank c with
    | true => rfl
    | false =>
      have := mem_strip hb hc
      rw [hnil] at this
      cases this
  have hsplit : v.takeWhile (· ≠ '}') ++ v.dropWhile (· ≠ '}') = v := List.takeWhile_append_dropWhile
  cases hd : v.dropWhile (· ≠ '}') with
  | nil =>
    rw [hd, List.append_nil] at hsplit
    rw [hsplit] at hnil
    exact hv hnil
  | cons c r =>
    obtain rfl : c = '}' := by simpa using head_dropWhile hd
    rw [← hsplit, hd, Group.openBraces_of_blank hblank] at h
    cases h

/-- The part in front of the first closing brace is the whole just if there is none. -/
theorem strip_takeWhile_eq_iff (v : Text) : strip (v.takeWhile (· ≠ '}')) = strip v ↔ '}' ∉ v := by
  refine ⟨fun h hm => ?_, fun h => ?_⟩
  · have hmem : '}' ∈ strip (v.takeWhile (· ≠ '}')) := h ▸ mem_strip (by decide) hm
    have := List.mem_takeWhile_imp ((strip_part _).subset hmem)
    simp at this
  · have hall : ∀ c ∈ v, decide (c ≠ '}') = true := fun c hc => by
      simpa using fun he : c = '}' => h (he ▸ hc)
    rw [List.takeWhile_eq_self_iff.2 hall]

end Text

namespace KeyValue

/-- A braced value is given without its braces and the white space around it, unless it is empty. -/
theorem get?_of_braced {key options w : Text} {f : Text.Found Text} (hf : options.find? (reader key) = some f)
    (hvalue : f.value = '{' :: (w ++ ['}'])) :
    get? key options = if (Text.strip w).isEmpty then none else some (Text.strip w) := by
  have hstrip : Text.strip ('{' :: (w ++ ['}'])) = '{' :: (w ++ ['}']) :=
    (Text.Stripped.of_ends (a := '{') (b := '}') rfl (by rw [← List.cons_append, List.getLast?_concat]) (by decide)).strip_eq
  have hstarts : Text.startsWith ('{' :: (w ++ ['}'])) "\x7b" = true := rfl
  have hends : Text.endsWith ('{' :: (w ++ ['}'])) "\x7d" = true := by
    unfold Text.endsWith
    rw [List.isSuffixOf_iff_suffix]
    exact ⟨'{' :: w, rfl⟩
  simp only [get?, hf, Option.bind_eq_bind, Option.bind_some, hvalue, hstrip, hstarts, hends, Bool.and_self, if_true,
    List.tail_cons, List.dropLast_concat]

theorem valueAfter?_bracedOption {key : Text} (hkey : ∀ c ∈ key, isAsciiLetter c = true) (v more : Text) :
    ∃ rest, valueAfter? key (bracedOption key v more) = some ('{' :: (v.takeWhile (· ≠ '}') ++ ['}']), rest) := by
  have hgap : (bracedOption key v more).dropWhile isBlank = bracedOption key v more := by
    cases key with
    | nil => rfl
    | cons c key =>
      have hc : isBlank c = false := Html.not_isBlank_of_isNameLetter (by simp [Html.isNameLetter, hkey c])
      exact List.dropWhile_cons_of_neg (by simp [hc])
  obtain ⟨rest, hrest⟩ := Text.closedBy_append '}' v more
  refine ⟨rest, ?_⟩
  have hequals (s : Text) : Text.after? "=" ('=' :: s) = some s := rfl
  rw [valueAfter?, hgap, bracedOption, Text.after?_append]
  simp only [Option.bind_eq_bind, Option.bind_some, hequals, List.dropWhile_cons_of_neg (show ¬isBlank '=' = true by decide),
    List.dropWhile_cons_of_neg (show ¬isBlank '{' = true by decide), hrest, Option.map_some]
  rfl

/-- A braced value is read up to the first closing brace. -/
theorem get?_bracedOption {key v more : Text} (hkey : ∀ c ∈ key, isAsciiLetter c = true) (hne : key ≠ [])
    (hvalue : Text.strip (v.takeWhile (· ≠ '}')) ≠ []) :
    get? key (bracedOption key v more) = some (Text.strip (v.takeWhile (· ≠ '}'))) := by
  obtain ⟨rest, hrest⟩ := valueAfter?_bracedOption hkey v more
  obtain ⟨c, key, rfl⟩ := List.exists_cons_of_ne_nil hne
  have hread : reader (c :: key) none (bracedOption (c :: key) v more) = some ('{' :: (v.takeWhile (· ≠ '}') ++ ['}']), rest) := by
    unfold reader
    rw [Option.isNone_none, if_pos rfl, hrest]
    rfl
  have hfind : (bracedOption (c :: key) v more).find? (reader (c :: key)) =
      some ⟨[], '{' :: (v.takeWhile (· ≠ '}') ++ ['}']), Text.upTo (bracedOption (c :: key) v more) rest, rest⟩ := by
    rw [bracedOption, List.cons_append] at hread ⊢
    rw [Text.find?, Text.findFrom, hread]
  exact (get?_of_braced hfind rfl).trans (if_neg (by simpa using hvalue))

theorem key_part_of_valueAfter? {key s : Text} {r : Text × Text} (h : valueAfter? key s = some r) : key <:+: s := by
  simp only [valueAfter?, Option.bind_eq_bind, Option.bind_eq_some_iff, Text.after?_eq_some_iff] at h
  obtain ⟨t, ht, -⟩ := h
  have hkey : key <:+: s.dropWhile isBlank := by
    rw [ht]
    exact (List.prefix_append key t).isInfix
  exact hkey.trans (List.dropWhile_suffix isBlank).isInfix

/-- A key that has a value stands in the options. -/
theorem key_part {key options value : Text} (h : get? key options = some value) : key <:+: options := by
  simp only [get?, Option.bind_eq_bind, Option.bind_eq_some_iff] at h
  obtain ⟨f, hf, -⟩ := h
  obtain ⟨before, t, ht, hr⟩ := Text.findFrom_eq_some hf
  refine List.IsInfix.trans ?_ ht.isInfix
  simp only [reader, HOrElse.hOrElse, OrElse.orElse, Option.orElse] at hr
  split at hr
  · rename_i heq
    split at heq
    · exact key_part_of_valueAfter? heq
    · cases heq
  · split at hr
    · exact (key_part_of_valueAfter? hr).trans (List.suffix_cons _ _).isInfix
    · cases hr

end KeyValue

namespace Extract.Box

open Bench (Comes)
open Galley.Group (Bracketed openBraces)
open KeyValue (get?)

/-- A frame with its title. -/
def titled (title body : Text) : Text :=
  "<div class=\"latex-framed\" style=\"" ++ framedStyle ++ "\">" ++
    ("<div class=\"latex-framed-title\"><strong>" ++ title ++ "</strong></div>") ++ body ++ "</div>"

/-- A title is formatted by itself. -/
theorem comes_titled (kit : Kit) (title : Text) {content : Text} {shown : Except Fault Text}
    (h : Comes (Bench.paragraphs kit content) shown) :
    Comes (environmentFragment kit (.frame (some title) content)) (do
      let head ← Inline.format kit.settings kit.engine title
      let body ← shown
      pure (titled head body, true)) := by
  refine (Comes.inline kit title).bind fun head => ?_
  exact h.bind fun body => .pure (titled head body, true)

/-- Framed boxes with the keys of their titles. -/
def titleKeys : List (Text × Text) := [("tcolorbox", "title"), ("mdframed", "frametitle")]

/-- What a box shows for a title: a `frametitle` found anywhere in the options, or the title up to its first closing brace. -/
def shownTitle (options v : Text) : Text := (get? "frametitle" options).getD (Text.strip (v.takeWhile (· ≠ '}')))

/-- A `frametitle` that is found stands in the title or in the options behind it. -/
theorem get?_frametitle_eq_none {v more : Text} (hv : ¬"frametitle".toList <:+: v) (hmore : ¬"frametitle".toList <:+: more) :
    get? "frametitle" (bracedOption "title" v more) = none := by
  cases h : get? "frametitle" (bracedOption "title" v more) with
  | none => rfl
  | some value =>
    have hkey := KeyValue.key_part h
    rw [bracedOption] at hkey
    rcases infix_append_cons (by decide) hkey with hkey | hkey
    · exact absurd hkey (by decide)
    · rcases infix_append_cons (a := []) (by decide) hkey with hkey | hkey
      · exact absurd hkey (by decide)
      · exact absurd hkey fun hkey => (infix_append_cons (by decide) hkey).elim hv hmore

theorem read_options {options : Text} (h : Bracketed options) (content : Text) :
    Group.read .bracket ('[' :: (options ++ ']' :: content)) = .ok (some (options, content)) := by
  have hgap : ('[' :: (options ++ ']' :: content)).dropWhile isGap = '[' :: (options ++ ']' :: content) :=
    List.dropWhile_cons_of_neg (by decide)
  have hinside : Group.inside? .bracket false (options ++ ']' :: content) = some (options, content) := h content
  simp [Group.read, hgap, Delimiter.opener, hinside]

section Titles

variable {name key v more : Text} (hname : (name, key) ∈ titleKeys) (hv : Text.strip v ≠ []) (hbraces : openBraces 0 v = some 0)

include hname hv hbraces

theorem get?_title : get? key (bracedOption key v more) = some (Text.strip (v.takeWhile (· ≠ '}'))) := by
  have hall : ∀ p ∈ titleKeys, (∀ c ∈ p.2, isAsciiLetter c = true) ∧ p.2 ≠ [] := by decide
  obtain ⟨hletters, hne⟩ := hall _ hname
  exact KeyValue.get?_bracedOption hletters hne (Text.strip_takeWhile_ne_nil hbraces hv)

theorem readEnvironment_titled (hmore : Bracketed more) (content : Text) :
    readEnvironment name ('[' :: (bracedOption key v more ++ ']' :: content)) =
      .ok (.frame (some (shownTitle (bracedOption key v more) v)) content) := by
  have hall : ∀ p ∈ titleKeys, (∀ c ∈ p.2, isAsciiLetter c = true) ∧ p.1 ≠ "minipage" := by decide
  obtain ⟨hletters, hminipage⟩ := hall _ hname
  have htitle : get? key (bracedOption key v more) = some (Text.strip (v.takeWhile (· ≠ '}'))) := get?_title hname hv hbraces
  have hread := read_options (Group.bracketed_bracedOption hletters hbraces hmore) content
  have hshown : (get? "frametitle" (bracedOption key v more) <|> get? "title" (bracedOption key v more)) =
      some (shownTitle (bracedOption key v more) v) := by
    simp only [titleKeys, List.mem_cons, Prod.mk.injEq, List.not_mem_nil, or_false] at hname
    unfold shownTitle
    rcases hname with ⟨-, rfl⟩ | ⟨-, rfl⟩
    · rw [htitle]
      cases get? "frametitle" (bracedOption "title" v more) <;> rfl
    · rw [htitle]
      rfl
  rw [readEnvironment, if_neg hminipage, hread]
  exact congrArg (fun title => Except.ok (Layout.frame title content)) hshown

/-- The title of an `mdframed` box is shown whole just if it holds no closing brace. -/
theorem shownTitle_frametitle (hkey : key = "frametitle") :
    shownTitle (bracedOption key v more) v = Text.strip v ↔ '}' ∉ v := by
  subst hkey
  rw [shownTitle, get?_title hname hv hbraces, Option.getD_some]
  exact Text.strip_takeWhile_eq_iff v

end Titles

/-- Where no `frametitle` is found, a title is shown whole just if it holds no closing brace. -/
theorem shownTitle_eq_iff {options v : Text} : shownTitle options v = Text.strip v ↔
    get? "frametitle" options = some (Text.strip v) ∨ get? "frametitle" options = none ∧ '}' ∉ v := by
  rw [shownTitle]
  cases get? "frametitle" options with
  | none => simpa using Text.strip_takeWhile_eq_iff v
  | some value => simp

/-- **Framed titles.** A title with balanced braces is kept in the options of its box, but what is shown of it ends with the
    first closing brace; and in the place of a `title` a `frametitle` is shown if one is found anywhere in the options, in
    braces too. The title is shown whole just if it has no closing brace and no such key is found. -/
theorem framed_title_shown {name key v more : Text} (hname : (name, key) ∈ titleKeys) (hv : Text.strip v ≠ [])
    (hbraces : openBraces 0 v = some 0) (hmore : Bracketed more) (content : Text) (kit : Kit) :
    readEnvironment name ('[' :: (bracedOption key v more ++ ']' :: content)) =
      .ok (.frame (some (shownTitle (bracedOption key v more) v)) content) ∧
    (∃ shown, Comes (Bench.paragraphs kit content) shown ∧
      Comes (environmentFragment kit (.frame (some (shownTitle (bracedOption key v more) v)) content)) (do
        let head ← Inline.format kit.settings kit.engine (shownTitle (bracedOption key v more) v)
        let body ← shown
        pure (titled head body, true))) ∧
    (key = "frametitle" → (shownTitle (bracedOption key v more) v = Text.strip v ↔ '}' ∉ v)) ∧
    (key = "title" → (shownTitle (bracedOption key v more) v = Text.strip v ↔
      get? "frametitle" (bracedOption key v more) = some (Text.strip v) ∨
        get? "frametitle" (bracedOption key v more) = none ∧ '}' ∉ v)) ∧
    (¬"frametitle".toList <:+: v → ¬"frametitle".toList <:+: more →
      (shownTitle (bracedOption key v more) v = Text.strip v ↔ '}' ∉ v)) := by
  obtain ⟨shown, hshown⟩ := Bench.Stateless.paragraphs kit content
  have hkeys : key = "title" ∨ key = "frametitle" := by
    simp only [titleKeys, List.mem_cons, Prod.mk.injEq, List.not_mem_nil, or_false] at hname
    exact hname.imp And.right And.right
  refine ⟨readEnvironment_titled hname hv hbraces hmore content, ⟨shown, hshown, comes_titled kit _ hshown⟩,
    shownTitle_frametitle hname hv hbraces, fun _ => shownTitle_eq_iff, fun hword hmoreWord => ?_⟩
  rcases hkeys with rfl | hkey
  · rw [shownTitle_eq_iff, get?_frametitle_eq_none hword hmoreWord]
    simp
  · exact shownTitle_frametitle hname hv hbraces hkey

/-- A title with a comma and an escaped brace, in front of another option. -/
def commaTitle : Text := " A, \\\x7b b "

theorem framed_title_shown_comma : ("tcolorbox".toList, "title".toList) ∈ titleKeys ∧ Text.strip commaTitle ≠ [] ∧
    openBraces 0 commaTitle = some 0 ∧ Bracketed ", colback=red" ∧
    readEnvironment "tcolorbox" ('[' :: (bracedOption "title" commaTitle ", colback=red" ++ ']' :: "c".toList)) =
      .ok (.frame (some "A, \\\x7b b") "c") := by
  have hname : ("tcolorbox".toList, "title".toList) ∈ titleKeys := by decide
  have hv : Text.strip commaTitle ≠ [] := by decide
  have hbraces : openBraces 0 commaTitle = some 0 := by decide
  have hmore : Bracketed ", colback=red" := fun _ => rfl
  obtain ⟨hread, -, -, -, hwhole⟩ := framed_title_shown hname hv hbraces hmore "c" {}
  refine ⟨hname, hv, hbraces, hmore, ?_⟩
  rw [hread, (hwhole (by decide) (by decide)).2 (by decide)]
  rfl

/-- A title with a group in it. -/
def boldTitle : Text := "A \\textbf\x7bx\x7d b"

/-- A title with a group in it is cut off, under both keys, and a key inside the braces of another option takes its place. -/
theorem framed_title_cut :
    (Text.strip boldTitle ≠ [] ∧ openBraces 0 boldTitle = some 0 ∧
      readEnvironment "tcolorbox" ('[' :: (bracedOption "title" boldTitle [] ++ ']' :: "c".toList)) =
        .ok (.frame (some "A \\textbf\x7bx") "c") ∧
      readEnvironment "mdframed" ('[' :: (bracedOption "frametitle" boldTitle [] ++ ']' :: "c".toList)) =
        .ok (.frame (some "A \\textbf\x7bx") "c") ∧
      "A \\textbf\x7bx".toList ≠ Text.strip boldTitle) ∧
    readEnvironment "tcolorbox" "[title=\x7bA\x7d, x=\x7bb, frametitle=B\x7d]c" = .ok (.frame (some "B\x7d") "c") :=
  ⟨⟨by decide, by decide, rfl, rfl, by decide⟩, rfl⟩

end Extract.Box

end Galley
