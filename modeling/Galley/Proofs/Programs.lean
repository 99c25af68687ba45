import Galley.Extract.Algorithm
import Galley.Proofs.LeafLists
import Galley.Proofs.Styles
/-!
# Pseudocode by nesting

A program is a tree of lines and blocks (`Program`). Written in either dialect it is a row of commands, and each of them
becomes one list item, in the order of the source and indented by its depth in the tree (`still_bodyFragment`): a
counter that goes up at what opens a block and down at what closes one is always the depth. A state line of white space
directly in front of a return is no line of its own.
-/

namespace Galley.Pseudocode

open Inline (dress)
open Extract.Algorithm

abbrev PlainText := { t : Text // Within isPlainChar t }

abbrev Blank (t : Text) : Prop := ∀ c ∈ t, isBlank c = true

/-! ## Spelling -/

inductive Dialect where
  | mixed | capitals

/-- The command's name with its words in capital letters. -/
def Keyword.mixedName : Keyword → Text
  | state => "State"
  | statex => "Statex"
  | require => "Require"
  | ensure => "Ensure"
  | returns => "Return"
  | print => "Print"
  | ifCond => "If"
  | elseIf => "ElsIf"
  | elseBlock => "Else"
  | endIf => "EndIf"
  | forLoop => "For"
  | forAll => "ForAll"
  | endFor => "EndFor"
  | whileLoop => "While"
  | endWhile => "EndWhile"
  | repeatLoop => "Repeat"
  | untilCond => "Until"
  | loop => "Loop"
  | endLoop => "EndLoop"
  | function => "Function"
  | procedure => "Procedure"
  | endFunction => "EndFunction"
  | endProcedure => "EndProcedure"

def Dialect.spell : Dialect → Keyword → Text
  | mixed, k => k.mixedName
  | capitals, k => k.name.map Char.toUpper

theorem map_fold_spell (d : Dialect) (k : Keyword) : (d.spell k).map foldChar = k.name := by
  cases d <;> cases k <;> decide

theorem lower_spell (d : Dialect) (k : Keyword) : Text.lower (d.spell k) = k.name := by
  cases d <;> cases k <;> decide

theorem ofName?_name (k : Keyword) : Keyword.ofName? k.name = some k := by cases k <;> decide

/-- No white space is a letter in the caseless sense. -/
theorem isNameLetter_of_isBlank {c : Char} (h : isBlank c = true) : isNameLetter c = false := by
  have hletter : isAsciiLetter c = false := by
    rw [Bool.eq_false_iff]
    intro hc
    have hdark := Html.not_isBlank_of_isNameLetter (c := c) (by rw [Html.isNameLetter, hc, Bool.true_or])
    rw [h] at hdark
    cases hdark
  have hlower : c.toLower = c := by
    unfold Char.toLower
    split
    · rename_i hupper
      have hcapital : isAsciiLetter c = true := by
        rw [isAsciiLetter, Bool.or_eq_true, Bool.and_eq_true, Bool.and_eq_true]
        exact .inr ⟨decide_eq_true hupper.1, decide_eq_true hupper.2⟩
      rw [hletter] at hcapital
      cases hcapital
    · rfl
  have hplain : ∀ n ∈ [304, 305, 383, 8490], c.toNat ≠ n := by
    intro n hn he
    have hdark : ∀ n ∈ [304, 305, 383, 8490], isBlank (Char.ofNat n) = false := by decide
    rw [← Char.ofNat_toNat c, he, hdark n hn] at h
    cases h
  have hfold : foldChar c = c := by
    unfold foldChar
    split
    · exact absurd ‹_› (hplain 304 (by simp))
    · exact absurd ‹_› (hplain 305 (by simp))
    · exact absurd ‹_› (hplain 383 (by simp))
    · exact absurd ‹_› (hplain 8490 (by simp))
    · exact hlower
  rw [isNameLetter, hfold, hletter]

theorem isNameLetter_of_mem_spell {d : Dialect} {k : Keyword} {c : Char} (hc : c ∈ d.spell k) : isNameLetter c = true := by
  have hname : ∀ c ∈ k.name, isAsciiLetter c = true := by cases k <;> decide
  refine hname _ ?_
  rw [← map_fold_spell d k]
  exact List.mem_map_of_mem hc

/-! ## Commands -/

/-- A command of a program: how many blocks it stands in, its arguments, and the text of its line. -/
structure Step where
  depth : Nat
  keyword : Keyword
  arguments : List PlainText
  text : PlainText
  arity : arguments.length = keyword.argumentCount

namespace Step

/-- The command with its arguments. -/
def head (d : Dialect) (st : Step) : Text :=
  '\\' :: (d.spell st.keyword ++ st.arguments.flatMap fun a => '{' :: (a.1 ++ ['}']))

/-- A state line with nothing but white space in it. -/
def isBlankState (st : Step) : Bool := st.keyword = .state && st.text.1.all isBlank

end Step

/-- The text is what some commands look like in the dialect: each with its line behind it, and any white space
    around the line, which keeps it apart from the command. -/
inductive Writes (d : Dialect) : List Step → Text → Prop where
  | nil : Writes d [] []
  | cons {st : Step} {steps : List Step} {lead trail s : Text} (hlead : Blank lead) (htrail : Blank trail)
      (hapart : st.text.1 ≠ [] → lead ≠ []) (h : Writes d steps s) :
      Writes d (st :: steps) (st.head d ++ (lead ++ (st.text.1 ++ (trail ++ s))))

/-- The commands without the blank states directly in front of returns. -/
def standing : List Step → List Step
  | [] => []
  | st :: steps =>
    if st.isBlankState && steps.head?.map Step.keyword = some .returns then standing steps else st :: standing steps

theorem Writes.eq_nil_or {d : Dialect} {steps : List Step} {s : Text} (h : Writes d steps s) :
    s = [] ∨ ∃ t, s = '\\' :: t := by
  cases h with
  | nil => exact .inl rfl
  | cons => exact .inr ⟨_, rfl⟩

/-! ### Reading a command -/

theorem caselessWord_word (known : Text → Bool) {w rest : Text} (hw : ∀ c ∈ w, isNameLetter c = true)
    (hrest : ∀ c ∈ rest.head?, isNameLetter c = false) (before : Option Char) :
    caselessWord known before ('\\' :: (w ++ rest)) = if known (w.map foldChar) then some (w, rest) else none := by
  have htake : (w ++ rest).takeWhile isNameLetter = w := by
    rw [List.takeWhile_append_of_pos hw]
    cases rest with
    | nil => simp
    | cons c rest => simp [hrest c rfl]
  simp only [caselessWord, htake, List.drop_left]

theorem PlainText.balanced (a : PlainText) : Group.Balanced a.1 :=
  .of_not_mem (a.2.avoids (by decide)) (a.2.avoids (by decide)) (a.2.avoids (by decide))

theorem upToArguments_arguments (args : List PlainText) (rest : Text) :
    upToArguments args.length ((args.flatMap fun a => '{' :: (a.1 ++ ['}'])) ++ rest) = (args.map Subtype.val, rest) := by
  induction args with
  | nil => rfl
  | cons a args ih =>
    have hgroup (s : Text) : '{' :: (a.1 ++ ['}']) ++ s = '{' :: (a.1 ++ '}' :: s) := by simp
    rw [List.flatMap_cons, List.append_assoc, hgroup, List.length_cons, upToArguments, Group.read?, a.balanced.read]
    simp only [ih, List.map_cons]

/-- What stands behind a command begins with no letter. -/
theorem head?_behind {d : Dialect} {st : Step} {steps : List Step} {lead trail s : Text} (hlead : Blank lead)
    (htrail : Blank trail)
    (hapart : st.text.1 ≠ [] → lead ≠ []) (h : Writes d steps s) :
    ∀ c ∈ (lead ++ (st.text.1 ++ (trail ++ s))).head?, isNameLetter c = false := by
  intro c hc
  cases lead with
  | cons b lead =>
    obtain rfl := Option.some.inj hc
    exact isNameLetter_of_isBlank (hlead b List.mem_cons_self)
  | nil =>
    rw [not_imp_not.1 hapart rfl, List.nil_append, List.nil_append] at hc
    cases trail with
    | cons b trail =>
      obtain rfl := Option.some.inj hc
      exact isNameLetter_of_isBlank (htrail b List.mem_cons_self)
    | nil =>
      rcases h.eq_nil_or with rfl | ⟨t, rfl⟩
      · cases hc
      · obtain rfl := Option.some.inj hc
        decide

theorem head?_arguments (args : List PlainText) {rest : Text} (h : ∀ c ∈ rest.head?, isNameLetter c = false) :
    ∀ c ∈ ((args.flatMap fun a => '{' :: (a.1 ++ ['}'])) ++ rest).head?, isNameLetter c = false := by
  cases args with
  | nil => exact h
  | cons a args =>
    intro c hc
    obtain rfl := Option.some.inj hc
    decide

theorem commandReader_head (d : Dialect) (st : Step) {rest : Text} (h : ∀ c ∈ rest.head?, isNameLetter c = false)
    (before : Option Char) :
    commandReader before (st.head d ++ rest) = some (.ok (st.keyword, st.arguments.map Subtype.val), rest) := by
  have hword := caselessWord_word (fun w => (Keyword.ofName? w).isSome)
    (fun c (hc : c ∈ d.spell st.keyword) => isNameLetter_of_mem_spell hc) (head?_arguments st.arguments h) before
  rw [map_fold_spell, ofName?_name, Option.isSome_some, if_pos rfl] at hword
  rw [commandReader, Step.head, List.cons_append, List.append_assoc, hword]
  simp only [Option.bind_eq_bind, Option.bind_some, lower_spell, ofName?_name]
  rw [← st.arity, upToArguments_arguments]

/-! ### States in front of returns -/

theorem afterCaseless_state (d : Dialect) (k : Keyword) (s : Text) : Text.afterCaseless? "state" (d.spell k ++ s) =
    if k = .state then some s else if k = .statex then some ((d.spell k).drop 5 ++ s) else none := by
  cases d <;> cases k <;> rfl

/-- White space up to a command is passed over. -/
theorem dropWhile_blank {d : Dialect} {steps : List Step} {gap s : Text} (hgap : Blank gap) (h : Writes d steps s) :
    (gap ++ s).dropWhile isBlank = s := by
  rw [List.dropWhile_append_of_pos hgap]
  rcases h.eq_nil_or with rfl | ⟨t, rfl⟩
  · rfl
  · exact List.dropWhile_cons_of_neg (by decide)

/-- What is not white space in a text is no command. -/
theorem caselessWord_dropWhile {known : Text → Bool} {t : Text} (ht : t.all isBlank = false) (hslash : '\\' ∉ t) (s : Text) :
    caselessWord known none ((t ++ s).dropWhile isBlank) = none := by
  obtain ⟨c, hc, hdark⟩ := List.all_eq_false.1 ht
  obtain ⟨e, u, hu⟩ : ∃ e u, t.dropWhile isBlank = e :: u :=
    List.exists_cons_of_ne_nil fun he => hdark (List.dropWhile_eq_nil_iff.1 he c hc)
  have hmem : e ∈ t := (List.dropWhile_suffix isBlank).subset (by rw [hu]; exact List.mem_cons_self)
  rw [List.dropWhile_append, hu, List.isEmpty_cons, if_neg Bool.false_ne_true, List.cons_append]
  unfold caselessWord
  split
  · rename_i he
    obtain ⟨rfl, -⟩ := List.cons.inj he
    exact absurd hmem hslash
  · rfl

theorem caselessWord_return {d : Dialect} {steps : List Step} {s : Text} (h : Writes d steps s) :
    caselessWord (· = "return".toList) none s =
      (steps.head?.bind fun st =>
        if st.keyword = .returns then some (d.spell .returns, s.drop (1 + (d.spell .returns).length)) else none) := by
  cases h with
  | nil => rfl
  | @cons st steps lead trail s hlead htrail hapart h =>
    have hname : (decide (st.keyword.name = "return".toList)) = decide (st.keyword = .returns) := by
      cases st.keyword <;> rfl
    have hword := caselessWord_word (· = "return".toList)
      (fun c (hc : c ∈ d.spell st.keyword) => isNameLetter_of_mem_spell hc)
      (head?_arguments st.arguments (head?_behind hlead htrail hapart h)) none
    rw [map_fold_spell, hname] at hword
    rw [Step.head, List.cons_append, List.append_assoc, hword, List.head?_cons, Option.bind_some]
    by_cases hk : st.keyword = .returns
    · simp [hk, Nat.add_comm 1]
    · simp [hk]

/-- A state is read with the return behind it if there is nothing but white space between them. -/
theorem stateBeforeReturn_head {d : Dialect} (st : Step) {steps : List Step} {lead trail s : Text} (hlead : Blank lead)
    (htrail : Blank trail) (h : Writes d steps s) :
    stateBeforeReturn none (st.head d ++ (lead ++ (st.text.1 ++ (trail ++ s)))) =
      if st.isBlankState && steps.head?.map Step.keyword = some .returns then some ((), s) else none := by
  simp only [Step.head, List.cons_append, List.append_assoc, stateBeforeReturn, afterCaseless_state]
  by_cases hstate : st.keyword = .state
  · have hargs : st.arguments = [] := List.length_eq_zero_iff.1 (by rw [st.arity, hstate]; rfl)
    rw [if_pos hstate, hargs, List.flatMap_nil, List.nil_append, Step.isBlankState, hstate]
    cases hblank : st.text.1.all isBlank with
    | false =>
      have hdrop : (lead ++ (st.text.1 ++ (trail ++ s))).dropWhile isBlank = (st.text.1 ++ (trail ++ s)).dropWhile isBlank :=
        List.dropWhile_append_of_pos hlead
      simp only [Option.bind_eq_bind, Option.bind_some, hdrop, caselessWord_dropWhile hblank (st.text.2.avoids (by decide))]
      simp
    | true =>
      have hgap : Blank (lead ++ (st.text.1 ++ trail)) :=
        List.forall_mem_append.2 ⟨hlead, List.forall_mem_append.2 ⟨List.all_eq_true.1 hblank, htrail⟩⟩
      have hdrop := dropWhile_blank hgap h
      rw [List.append_assoc, List.append_assoc] at hdrop
      simp only [Option.bind_eq_bind, Option.bind_some, hdrop, caselessWord_return h]
      cases steps with
      | nil => rfl
      | cons next steps =>
        by_cases hnext : next.keyword = .returns
        · have hne : d.spell .returns ≠ [] := by cases d <;> decide
          simp [hnext, hne]
        · simp [hnext]
  · have hnot : st.isBlankState = false := by simp [Step.isBlankState, hstate]
    rw [if_neg hstate, hnot]
    by_cases hstatex : st.keyword = .statex
    · rw [if_pos hstatex, hstatex]
      cases d <;> rfl
    · rw [if_neg hstatex]
      rfl

theorem stateBeforeReturn_char {c : Char} (h : c ≠ '\\') (before : Option Char) (s : Text) :
    stateBeforeReturn before (c :: s) = none := by
  unfold stateBeforeReturn
  split
  · exact absurd (List.cons.inj ‹_›).1 h
  · rfl

theorem forward_stateBeforeReturn : Text.Forward stateBeforeReturn := by
  intro b b' s
  cases s with
  | nil => rfl
  | cons c s =>
    by_cases hc : c = '\\'
    · subst hc
      rfl
    · rw [stateBeforeReturn_char hc, stateBeforeReturn_char hc]

theorem removeAll_append {t : Text} (h : '\\' ∉ t) (s : Text) :
    (t ++ s).removeAll stateBeforeReturn = t ++ s.removeAll stateBeforeReturn := by
  induction t with
  | nil => rfl
  | cons c t ih =>
    obtain ⟨hc, ht⟩ := not_or.1 (mt List.mem_cons.2 h)
    rw [List.cons_append, Text.removeAll, forward_stateBeforeReturn.replaceAll_cons (stateBeforeReturn_char (Ne.symm hc) _ _),
      ← Text.removeAll, ih ht, List.cons_append]

theorem Blank.not_mem {t : Text} (h : Blank t) : '\\' ∉ t := fun hm => absurd (h _ hm) (by decide)

theorem slash_not_mem_spell (d : Dialect) (k : Keyword) : '\\' ∉ d.spell k := fun hm =>
  absurd (isNameLetter_of_mem_spell hm) (by decide)

theorem slash_not_mem_arguments (args : List PlainText) : '\\' ∉ args.flatMap fun a => '{' :: (a.1 ++ ['}']) := by
  intro hm
  obtain ⟨a, -, ha⟩ := List.mem_flatMap.1 hm
  have : '\\' ∉ a.1 := a.2.avoids (by decide)
  simp_all

/-- What is left when the states in front of returns are taken out is the other commands as they were written. -/
theorem Writes.standing {d : Dialect} {steps : List Step} {s : Text} (h : Writes d steps s) :
    Writes d (standing steps) (s.removeAll stateBeforeReturn) := by
  induction h with
  | nil => exact .nil
  | @cons st steps lead trail s hlead htrail hapart h ih =>
    have hread := stateBeforeReturn_head st hlead htrail h
    rw [Pseudocode.standing]
    by_cases hdrop : (st.isBlankState && steps.head?.map Step.keyword = some .returns) = true
    · rw [if_pos hdrop] at hread ⊢
      obtain ⟨t, ht⟩ : ∃ t, st.head d ++ (lead ++ (st.text.1 ++ (trail ++ s))) = '\\' :: (t ++ s) :=
        ⟨(st.head d).tail ++ (lead ++ (st.text.1 ++ trail)), by simp [Step.head]⟩
      rw [ht] at hread ⊢
      rwa [Text.removeAll, forward_stateBeforeReturn.replaceAll_hit hread rfl, List.nil_append]
    · rw [if_neg hdrop] at hread ⊢
      have hhead (u : Text) : st.head d ++ u = '\\' :: (d.spell st.keyword ++
          ((st.arguments.flatMap fun a => '{' :: (a.1 ++ ['}'])) ++ u)) := by simp [Step.head]
      have hremoved : (st.head d ++ (lead ++ (st.text.1 ++ (trail ++ s)))).removeAll stateBeforeReturn =
          st.head d ++ (lead ++ (st.text.1 ++ (trail ++ s.removeAll stateBeforeReturn))) := by
        rw [hhead] at hread ⊢
        rw [Text.removeAll, forward_stateBeforeReturn.replaceAll_cons hread, ← Text.removeAll,
          removeAll_append (slash_not_mem_spell d _), removeAll_append (slash_not_mem_arguments _),
          removeAll_append hlead.not_mem, removeAll_append (st.text.2.avoids (by decide)), removeAll_append htrail.not_mem, hhead]
      rw [hremoved]
      exact .cons hlead htrail hapart ih

/-! ### All commands -/

/-- A command is read as it was written, with its line and white space behind it. -/
structure Reads (st : Step) (c : Command × Text) : Prop where
  command : c.1 = .ok (st.keyword, st.arguments.map Subtype.val)
  plain : Within isPlainChar c.2
  line : Text.strip c.2 = Text.strip st.text.1

theorem commandReader_char {c : Char} (h : c ≠ '\\') (before : Option Char) (s : Text) :
    commandReader before (c :: s) = none := by
  have hword : caselessWord (fun w => (Keyword.ofName? w).isSome) before (c :: s) = none := by
    unfold caselessWord
    split
    · exact absurd (List.cons.inj ‹_›).1 h
    · rfl
  rw [commandReader, hword]
  rfl

theorem forward_commandReader : Text.Forward commandReader := by
  intro b b' s
  cases s with
  | nil => rfl
  | cons c s =>
    by_cases hc : c = '\\'
    · subst hc
      rfl
    · rw [commandReader_char hc, commandReader_char hc]

theorem cut_command_append {t : Text} (h : '\\' ∉ t) (s : Text) :
    Text.cut commandReader (t ++ s) = t.map .char ++ Text.cut commandReader s := by
  obtain ⟨b, hb⟩ := Text.cutFrom_append (fun c hc before s => commandReader_char (fun he => h (he ▸ hc)) before s) s none
  rw [Text.cut, hb, forward_commandReader.cutFrom_eq 0 b none, Text.cut]

theorem isPlainChar_of_isBlank {c : Char} (h : isBlank c = true) : isPlainChar c = true := by
  have hne {x : Char} (hx : isBlank x = false) : c ≠ x := fun he => by rw [he, hx] at h; cases h
  have hlow : c.toNat ≤ 12288 := by
    simp only [isBlank, inRanges, blankRanges, List.any_cons, List.any_nil, Bool.or_false, Bool.or_eq_true, Bool.and_eq_true,
      decide_eq_true_eq] at h
    omega
  have hprivate : ¬ 0xE000 ≤ c.toNat := by omega
  simp [isPlainChar, hprivate, hne (x := '\\') (by decide), hne (x := '$') (by decide), hne (x := '{') (by decide),
    hne (x := '}') (by decide)]

/-- The commands are read one by one, and nothing stands in front of the first. -/
theorem Writes.sections {d : Dialect} {steps : List Step} {s : Text} (h : Writes d steps s) :
    ∃ cs, Text.sections (Text.cut commandReader s) = ([], cs) ∧ List.Forall₂ Reads steps cs := by
  induction h with
  | nil => exact ⟨[], rfl, .nil⟩
  | @cons st steps lead trail s hlead htrail hapart h ih =>
    obtain ⟨cs, hcs, hall⟩ := ih
    have hread := commandReader_head d st (head?_behind hlead htrail hapart h) none
    obtain ⟨t, ht⟩ : ∃ t, st.head d = '\\' :: t := ⟨_, rfl⟩
    rw [ht, List.cons_append] at hread
    have hbehind : '\\' ∉ lead ++ (st.text.1 ++ trail) := by
      simp only [List.mem_append, not_or]
      exact ⟨hlead.not_mem, st.text.2.avoids (by decide), htrail.not_mem⟩
    have hcut := cut_command_append hbehind s
    rw [List.append_assoc, List.append_assoc] at hcut
    refine ⟨(.ok (st.keyword, st.arguments.map Subtype.val), lead ++ (st.text.1 ++ trail)) :: cs, ?_, .cons ⟨rfl, ?_, ?_⟩ hall⟩
    · rw [ht, List.cons_append, forward_commandReader.cut_hit hread rfl, hcut, Text.sections, Lists.sections_chars, hcs,
        List.append_nil]
    · have hplain {t : Text} (ht : Blank t) : Within isPlainChar t := fun c hc => isPlainChar_of_isBlank (ht c hc)
      exact (hplain hlead).append (Within.append st.text.2 (hplain htrail))
    · exact Text.strip_enclosed hlead htrail _

/-! ## Lines -/

/-- The line of a command, given what is shown of its text and arguments. -/
def shownLine (k : Keyword) (rest cond params : Text) : Text :=
  let head := lineHead k rest cond params
  Text.strip (if k.isStatement || rest.isEmpty then head else head ++ " " ++ rest)

namespace Step

/-- What is shown of a text. -/
def shownText (t : PlainText) : Text := dress (Text.strip t.1)

/-- The command's line as it is shown. -/
def content (st : Step) : Text :=
  let argument (n : Nat) : Text := (st.arguments[n]?.map shownText).getD []
  shownLine st.keyword (shownText st.text) (argument 0) (argument 1)

def line (st : Step) : Line := ⟨st.depth, st.content, st.keyword ≠ .statex⟩

end Step

open Lists (Still)

theorem expand_plain {s : Text} (h : Within isPlainChar s) : expand s = .ok s := by
  have hslash : '\\' ∉ s := h.avoids (by decide)
  have hword : Text.Misses inlineWord s := by
    refine .of_not_mem (x := '\\') (fun _ => rfl) (fun before c s hc => ?_) hslash
    have hcase : caselessWord (inlineWords.contains ·) before (c :: s) = none := by
      unfold caselessWord
      split
      · exact absurd (List.cons.inj ‹_›).1 hc
      · rfl
    rw [inlineWord, hcase]
    rfl
  have hcall : Text.Misses call s := by
    refine .of_not_mem (x := '\\') (fun _ => rfl) (fun before c s hc => ?_) hslash
    have hname (name : Text) : Text.after? ('\\' :: name) (c :: s) = none := by rw [Text.after?, if_neg (Ne.symm hc)]
    have hmixed : Text.after? "\\Call" (c :: s) = none := hname "Call"
    have hcapitals : Text.after? "\\CALL" (c :: s) = none := hname "CALL"
    rw [call, hmixed, hcapitals]
    rfl
  rw [expand, hword.replaceAllM_eq]
  exact congrArg Except.ok (hcall.replaceAll_eq _)

theorem cutAtComment_plain {s : Text} (h : Within isPlainChar s) : cutAtComment s = (s, none) := by
  have hcomment : Text.Misses (Command.readerOf ["Comment", "COMMENT"]) s := by
    refine .of_not_mem (x := '\\') (fun _ => rfl) (fun before c s hc => ?_) (h.avoids (by decide))
    rw [Command.readerOf, List.findSome?_eq_none_iff]
    intro name _
    rw [Command.after?, Text.after?, if_neg (Ne.symm hc)]
    rfl
  rw [cutAtComment, hcomment.find?_eq]

theorem still_format (kit : Kit) (t : PlainText) {s : Text} (hs : Within isPlainChar s) (h : Text.strip s = Text.strip t.1) :
    Still (format kit (Text.strip s)) (Step.shownText t) := by
  have hplain : Within isPlainChar (Text.strip s) := hs.part (Text.strip_part s)
  rw [format, expand_plain hplain, Step.shownText, ← h]
  dsimp only
  rw [(Text.stripped_strip s).strip_eq]
  exact .inline hplain kit

/-- Only a command with two arguments shows the second one. -/
theorem still_lineContent (kit : Kit) (st : Step) {s : Text} (hs : Within isPlainChar s)
    (h : Text.strip s = Text.strip st.text.1) :
    Still (lineContent kit st.keyword (st.arguments.map Subtype.val) s) st.content := by
  rw [lineContent, cutAtComment_plain hs]
  dsimp only
  refine (still_format kit st.text hs h).bind ?_
  have hformat (a : PlainText) : Still (format kit (Text.strip a.1)) (Step.shownText a) := still_format kit a a.2 rfl
  obtain ⟨depth, k, args, text, harity⟩ := st
  match args with
  | [] =>
    have hcontent : Step.content ⟨depth, k, [], text, harity⟩ = shownLine k (Step.shownText text) [] [] := rfl
    rw [hcontent]
    cases k <;> exact (Still.pure []).bind ((Still.pure []).bind (.pure _))
  | [a] =>
    have hcontent : Step.content ⟨depth, k, [a], text, harity⟩ = shownLine k (Step.shownText text) (Step.shownText a) [] := rfl
    rw [hcontent]
    cases k <;> exact (hformat a).bind ((Still.pure []).bind (.pure _))
  | a :: p :: more =>
    have hcontent : Step.content ⟨depth, k, a :: p :: more, text, harity⟩ =
      shownLine k (Step.shownText text) (Step.shownText a) (Step.shownText p) := rfl
    rw [hcontent]
    have hpair : k = .function ∨ k = .procedure := by
      cases k <;> simp [Keyword.argumentCount] at harity <;> simp
    rcases hpair with rfl | rfl <;> exact (hformat a).bind ((hformat p).bind (.pure _))

/-- A counter of open blocks is at the depth of every command, from a level before the commands to one behind them. -/
def Indented (level : Nat) : List Step → (after : Nat) → Prop
  | [], after => after = level
  | st :: steps, after => st.depth = (levels st.keyword level).1 ∧ Indented (levels st.keyword level).2 steps after

theorem Indented.append {level mid after : Nat} {steps more : List Step} (h : Indented level steps mid)
    (hmore : Indented mid more after) :
    Indented level (steps ++ more) after := by
  induction steps generalizing level with
  | nil =>
    obtain rfl : mid = level := h
    exact hmore
  | cons st steps ih => exact ⟨h.1, ih h.2⟩

/-- A state does not change the level. -/
theorem Indented.standing {level after : Nat} {steps : List Step} (h : Indented level steps after) :
    Indented level (standing steps) after := by
  induction steps generalizing level with
  | nil => exact h
  | cons st steps ih =>
    rw [Pseudocode.standing]
    split
    · rename_i hdrop
      simp only [Bool.and_eq_true, Step.isBlankState, decide_eq_true_eq] at hdrop
      have hlevel : (levels st.keyword level).2 = level := by rw [hdrop.1.1]; rfl
      exact ih (hlevel ▸ h.2)
    · exact ⟨h.1, ih h.2⟩

theorem still_lines (kit : Kit) {level after : Nat} {steps : List Step} {cs : List (Command × Text)}
    (hread : List.Forall₂ Reads steps cs)
    (h : Indented level steps after) : Still (lines kit level cs) (steps.map Step.line) := by
  induction hread generalizing level with
  | nil => exact .pure []
  | @cons st c steps cs hst hread ih =>
    obtain ⟨command, s⟩ := c
    obtain rfl : command = .ok (st.keyword, st.arguments.map Subtype.val) := hst.command
    refine (still_lineContent kit st hst.plain hst.line).bind ((ih h.2).bind ?_)
    refine .of_eq ?_
    rw [List.map_cons, Step.line, h.1]
    rfl

/-! ## Programs -/

/-- A command whose line is its text. -/
abbrev Statement := { k : Keyword // k.isStatement = true }

inductive Block where
  | forLoop (cond : PlainText)
  | forAll (cond : PlainText)
  | whileLoop (cond : PlainText)
  | repeatUntil (cond : PlainText)
  | loop
  | function (name params : PlainText)
  | procedure (name params : PlainText)

mutual

/-- Lines, blocks and choices in turn. -/
inductive Program where
  | done
  | line (k : Statement) (text : PlainText) (rest : Program)
  | block (b : Block) (body rest : Program)
  | choice (cond : PlainText) (body : Program) (others : Branches) (rest : Program)

/-- What a choice does otherwise. -/
inductive Branches where
  | none
  | otherwise (body : Program)
  | elseIf (cond : PlainText) (body : Program) (others : Branches)

end

theorem Statement.argumentCount_eq (k : Statement) : k.1.argumentCount = 0 := by
  obtain ⟨k, hk⟩ := k
  cases k <;> first | rfl | cases hk

def noText : PlainText := ⟨[], .nil⟩

namespace Block

/-- The command that opens the block. -/
def opener (depth : Nat) : Block → Step
  | forLoop cond => ⟨depth, .forLoop, [cond], noText, rfl⟩
  | forAll cond => ⟨depth, .forAll, [cond], noText, rfl⟩
  | whileLoop cond => ⟨depth, .whileLoop, [cond], noText, rfl⟩
  | repeatUntil _ => ⟨depth, .repeatLoop, [], noText, rfl⟩
  | loop => ⟨depth, .loop, [], noText, rfl⟩
  | function name params => ⟨depth, .function, [name, params], noText, rfl⟩
  | procedure name params => ⟨depth, .procedure, [name, params], noText, rfl⟩

/-- The command that closes it. -/
def closer (depth : Nat) : Block → Step
  | forLoop _ | forAll _ => ⟨depth, .endFor, [], noText, rfl⟩
  | whileLoop _ => ⟨depth, .endWhile, [], noText, rfl⟩
  | repeatUntil cond => ⟨depth, .untilCond, [cond], noText, rfl⟩
  | loop => ⟨depth, .endLoop, [], noText, rfl⟩
  | function _ _ => ⟨depth, .endFunction, [], noText, rfl⟩
  | procedure _ _ => ⟨depth, .endProcedure, [], noText, rfl⟩

end Block

mutual

/-- The commands of a program that stands in `depth` blocks, in the order of the source. -/
def Program.steps (depth : Nat) : Program → List Step
  | .done => []
  | .line k text rest => ⟨depth, k.1, [], text, k.argumentCount_eq.symm⟩ :: rest.steps depth
  | .block b body rest => b.opener depth :: (body.steps (depth + 1) ++ b.closer depth :: rest.steps depth)
  | .choice cond body others rest =>
    ⟨depth, .ifCond, [cond], noText, rfl⟩ :: (body.steps (depth + 1) ++ (others.steps depth ++ rest.steps depth))

def Branches.steps (depth : Nat) : Branches → List Step
  | .none => [⟨depth, .endIf, [], noText, rfl⟩]
  | .otherwise body => ⟨depth, .elseBlock, [], noText, rfl⟩ :: (body.steps (depth + 1) ++ [⟨depth, .endIf, [], noText, rfl⟩])
  | .elseIf cond body others => ⟨depth, .elseIf, [cond], noText, rfl⟩ :: (body.steps (depth + 1) ++ others.steps depth)

end

theorem Block.levels_opener (b : Block) (depth : Nat) :
    (b.opener depth).depth = depth ∧ levels (b.opener depth).keyword depth = (depth, depth + 1) := by
  cases b <;> exact ⟨rfl, rfl⟩

theorem Block.levels_closer (b : Block) (depth : Nat) :
    (b.closer depth).depth = depth ∧ levels (b.closer depth).keyword (depth + 1) = (depth, depth) := by
  cases b <;> exact ⟨rfl, rfl⟩

theorem Statement.levels_eq (k : Statement) (depth : Nat) : levels k.1 depth = (depth, depth) := by
  obtain ⟨k, hk⟩ := k
  cases k <;> first | rfl | cases hk

mutual

/-- The counter comes back to where it was. -/
theorem Program.indented : ∀ (p : Program) (depth : Nat), Indented depth (p.steps depth) depth
  | .done, _ => rfl
  | .line k text rest, depth => by
    rw [Program.steps, Indented, k.levels_eq]
    exact ⟨rfl, rest.indented depth⟩
  | .block b body rest, depth => by
    rw [Program.steps, Indented, (b.levels_opener depth).2]
    refine ⟨(b.levels_opener depth).1, (body.indented (depth + 1)).append ?_⟩
    rw [Indented, (b.levels_closer depth).2]
    exact ⟨(b.levels_closer depth).1, rest.indented depth⟩
  | .choice cond body others rest, depth => by
    rw [Program.steps]
    exact ⟨rfl, (body.indented (depth + 1)).append ((others.indented depth).append (rest.indented depth))⟩

/-- The counter is one up in front of another branch, and back behind the last. -/
theorem Branches.indented : ∀ (others : Branches) (depth : Nat), Indented (depth + 1) (others.steps depth) depth
  | .none, _ => ⟨rfl, rfl⟩
  | .otherwise body, depth => by
    rw [Branches.steps]
    exact ⟨rfl, (body.indented (depth + 1)).append ⟨rfl, rfl⟩⟩
  | .elseIf cond body others, depth => by
    rw [Branches.steps]
    exact ⟨rfl, (body.indented (depth + 1)).append (others.indented depth)⟩

end

/-- The list with the commands' lines as its items. -/
def listing (steps : List Step) : Text :=
  "<ol class=\"latex-algorithmic\">" ++ (steps.map Step.line).flatMap lineMarkup ++ "</ol>"

theorem dropOption_written {d : Dialect} {steps : List Step} {gap s : Text} (hgap : Blank gap) (h : Writes d steps s) :
    dropOption (gap ++ s) = gap ++ s := by
  have hopener : ∀ c u, (gap ++ s).dropWhile isGap = c :: u → c ≠ '[' := by
    rintro c u hc rfl
    rw [List.dropWhile_append] at hc
    split at hc
    · rcases h.eq_nil_or with rfl | ⟨t, rfl⟩
      · cases hc
      · rw [List.dropWhile_cons_of_neg (by decide)] at hc
        cases hc
    · cases hgaps : gap.dropWhile isGap with
      | nil => simp_all
      | cons e t =>
        rw [hgaps] at hc
        obtain rfl : e = '[' := (List.cons.inj hc).1
        exact absurd (hgap '[' ((List.dropWhile_suffix isGap).subset (by rw [hgaps]; exact List.mem_cons_self))) (by decide)
  have hread : Group.read .bracket (gap ++ s) = .ok none := by
    rw [Group.read]
    split
    · rfl
    · rename_i c u hc
      exact if_neg (hopener c u hc)
  rw [dropOption, Group.read?, hread]

/-- Commands whose depths a counter follows give the list of their lines. -/
theorem still_commands (kit : Kit) {d : Dialect} {steps : List Step} {after : Nat} {gap s : Text} (hgap : Blank gap)
    (h : Writes d steps s) (hdepth : Indented 0 steps after) :
    Still (bodyFragment kit (gap ++ s)) (listing (standing steps)) := by
  obtain ⟨cs, hcs, hread⟩ := h.standing.sections
  have hcommands : commandsOf (gap ++ s) = cs := by
    rw [commandsOf, dropOption_written hgap h, removeAll_append hgap.not_mem, cut_command_append hgap.not_mem,
      Lists.sections_chars, hcs]
  have hlines := still_lines kit hread hdepth.standing
  rw [bodyFragment, hcommands]
  exact hlines.bind (.pure _)

/-- A written program gives the list of its lines: one for each command that stands, indented by its depth and numbered
    unless it continues the line before. -/
theorem still_program (kit : Kit) (p : Program) {d : Dialect} {gap s : Text} (hgap : Blank gap) (h : Writes d (p.steps 0) s) :
    Still (bodyFragment kit (gap ++ s)) (listing (standing (p.steps 0))) :=
  still_commands kit hgap h (p.indented 0)

/-- The commands on lines of their own. -/
def written (d : Dialect) (steps : List Step) : Text := steps.flatMap fun st => st.head d ++ ' ' :: (st.text.1 ++ ['\n'])

/-- All commands can be written. -/
theorem writes_written (d : Dialect) (steps : List Step) : Writes d steps (written d steps) := by
  induction steps with
  | nil => exact .nil
  | cons st steps ih =>
    have hline := @Writes.cons d st steps [' '] ['\n'] _ (by decide) (by decide) (by simp) ih
    simpa [written] using hline

/-- A choice of three branches in a loop, in capital letters. -/
theorem still_program_choice :
    Still (bodyFragment {} ("\n" ++ written .capitals (Program.steps 0 (.block .loop
      (.choice ⟨"a", by decide⟩ (.line ⟨.state, rfl⟩ ⟨"x", by decide⟩ .done)
        (.elseIf ⟨"b", by decide⟩ (.line ⟨.statex, rfl⟩ ⟨"y", by decide⟩ .done)
          (.otherwise (.line ⟨.returns, rfl⟩ ⟨"z", by decide⟩ .done))) .done) .done))))
      (listing (standing (Program.steps 0 (.block .loop
      (.choice ⟨"a", by decide⟩ (.line ⟨.state, rfl⟩ ⟨"x", by decide⟩ .done)
        (.elseIf ⟨"b", by decide⟩ (.line ⟨.statex, rfl⟩ ⟨"y", by decide⟩ .done)
          (.otherwise (.line ⟨.returns, rfl⟩ ⟨"z", by decide⟩ .done))) .done) .done)))) :=
  still_program {} _ (by decide) (writes_written _ _)

theorem listing_cons_ne (st : Step) (steps : List Step) : listing (st :: steps) ≠ listing steps := by
  intro h
  have hitem : 0 < (lineMarkup st.line).length :=
    List.length_pos_iff.2 (List.append_ne_nil_of_right_ne_nil _ (by decide))
  unfold listing at h
  have hlength := congrArg List.length h
  simp only [List.map_cons, List.flatMap_cons, List.length_append] at hlength
  omega

/-- A state line of two spaces in front of a return is a command of the program and no line of the list. -/
theorem blankState_unlisted :
    let p : Program := .line ⟨.state, rfl⟩ ⟨" ", by decide⟩ (.line ⟨.returns, rfl⟩ ⟨"x", by decide⟩ .done)
    Writes .mixed (p.steps 0) "\\State  \n\\Return x\n" ∧
      ¬ Still (bodyFragment {} "\\State  \n\\Return x\n") (listing (p.steps 0)) := by
  intro p
  have hwrites : Writes .mixed (p.steps 0) "\\State  \n\\Return x\n" := writes_written .mixed (p.steps 0)
  refine ⟨hwrites, fun h => ?_⟩
  have hblank : Blank [] := by decide
  have hstands := still_commands {} hblank hwrites (p.indented 0)
  rw [List.nil_append] at hstands
  have hboth := (h {}).symm.trans (hstands {})
  exact listing_cons_ne _ _ (Except.ok.inj (Prod.mk.inj hboth).1)

end Galley.Pseudocode
