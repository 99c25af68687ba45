import Galley.Formula.Render
import Galley.Proofs.CommandWords
import Mathlib.Data.Rat.Defs
import Mathlib.Tactic.Ring
/-!
# Glyphs of a formula

The estimate of a formula's width takes out the sizes of delimiters before it counts commands. It knows a size by how a command
begins: of a command whose name goes on behind a size the further letters stay, and count as so many characters, or as none if
they get behind another command (`drawn`). What comes of it is the number of glyphs just if as many letters spill out of such
commands as there are such commands (`widthIn_source_iff`).
-/

namespace Galley.Formula

open Text (Forward Letters Misses behindWord removeAll replaceAll)

/-! ## Parts of a formula -/

/-- A character or a command. -/
inductive Part where
  | char (c : Char)
  | command (name : Text)
  deriving DecidableEq

namespace Part

def source : Part → Text
  | char c => [c]
  | command name => '\\' :: name

/-- A size with `l` or `r` behind it, or nothing. -/
def isSize (name : Text) : Bool := sizeNames.any fun size => name = size || name = size ++ "l" || name = size ++ "r"

/-- Every character is a glyph, and every command but the sizes. -/
def isGlyph : Part → Bool
  | char _ => true
  | command name => !isSize name

/-- The letters that stay of a command whose name begins with a size. -/
def leftover? (name : Text) : Option Text :=
  (sizeNames.findSome? fun size => Text.after? size name).map fun rest =>
    match rest with
    | c :: more => if c = 'l' || c = 'r' || c = 'v' then more else rest
    | [] => []

/-- A command that begins with a size and is none. -/
def isDisguised : Part → Bool
  | char _ => false
  | command name => (leftover? name).isSome && !isSize name

/-- What stays of a part when the sizes are taken out. -/
def trimmed : Part → Text
  | char c => [c]
  | command name => (leftover? name).getD ('\\' :: name)

end Part

open Part

def source (ps : List Part) : Text := ps.flatMap Part.source

/-- The parts are read as they are written: no letter stands directly behind a command, and no command is a wrapper of text. -/
def Spelled : (behind : Bool) → List Part → Prop
  | _, [] => True
  | behind, .char c :: ps => (c ≠ '\\' ∧ c ≠ '\x7b' ∧ c ≠ '\x7d' ∧ (behind = true → isAsciiLetter c = false)) ∧ Spelled false ps
  | _, .command name :: ps => (name ≠ [] ∧ Letters name ∧ name ∉ texts ["mathrm", "text", "textbf"]) ∧ Spelled true ps

/-- How many glyphs the parts are. -/
def glyphs (ps : List Part) : Nat := ps.countP isGlyph

/-- How many characters are counted for parts. Letters that stay of a command are lost if they get behind another one. -/
def drawn : (behind : Bool) → List Part → Nat
  | _, [] => 0
  | _, .char _ :: ps => drawn false ps + 1
  | behind, .command name :: ps =>
    match leftover? name with
    | none => drawn true ps + 1
    | some letters => (if behind then 0 else letters.length) + drawn behind ps

/-- How many of those characters are letters that stay of a command. -/
def spilled : (behind : Bool) → List Part → Nat
  | _, [] => 0
  | _, .char _ :: ps => spilled false ps
  | behind, .command name :: ps =>
    match leftover? name with
    | none => spilled true ps
    | some letters => (if behind then 0 else letters.length) + spilled behind ps

variable {b : Bool} {ps : List Part}

/-! ## Sizes -/

/-- What stays of a command is the end of its name. -/
theorem Part.leftover?_suffix {name letters : Text} (h : leftover? name = some letters) : letters <:+ name := by
  obtain ⟨rest, hrest, hletters⟩ := Option.map_eq_some_iff.1 h
  obtain ⟨size, -, hsize⟩ := List.exists_of_findSome?_eq_some hrest
  have hname : rest <:+ name := ⟨size, (Text.after?_eq_some_iff.1 hsize).symm⟩
  refine List.IsSuffix.trans ?_ hname
  cases rest with
  | nil => exact hletters ▸ List.suffix_rfl
  | cons c more =>
    rw [← hletters]
    dsimp only
    split
    · exact List.suffix_cons c more
    · exact List.suffix_rfl

theorem findSome?_append_of_letters {sizes : List Text} (hsizes : ∀ size ∈ sizes, Letters size) (name : Text) {rest : Text}
    (hrest : ∀ c ∈ rest.head?, isAsciiLetter c = false) :
    (sizes.findSome? fun size => Text.after? ('\\' :: size) ('\\' :: (name ++ rest))) =
      (sizes.findSome? fun size => Text.after? size name).map (· ++ rest) := by
  induction sizes with
  | nil => rfl
  | cons size sizes ih =>
    obtain ⟨hsize, hsizes⟩ := List.forall_mem_cons.1 hsizes
    have hslash : Text.after? ('\\' :: size) ('\\' :: (name ++ rest)) = Text.after? size (name ++ rest) := if_pos rfl
    have hhead : ∀ c ∈ rest.head?, c ∉ size := fun c hc hm => by
      have hletter := hrest c hc
      rw [hsize c hm] at hletter
      cases hletter
    rw [List.findSome?_cons, List.findSome?_cons, hslash, Text.after?_append_of_head hhead, ih hsizes]
    cases Text.after? size name <;> rfl

theorem letters_sizeNames : ∀ size ∈ sizeNames, Letters size := by decide

/-- A size is read at the head of a command, and the letters behind it stay. -/
theorem sizer_command (before : Option Char) (name : Text) {rest : Text} (hrest : ∀ c ∈ rest.head?, isAsciiLetter c = false) :
    sizer before ('\\' :: (name ++ rest)) = (leftover? name).map fun letters => ((), letters ++ rest) := by
  rw [sizer, findSome?_append_of_letters letters_sizeNames name hrest, leftover?]
  cases sizeNames.findSome? fun size => Text.after? size name with
  | none => rfl
  | some behind =>
    cases behind with
    | cons c behind =>
      show (if c = 'l' || c = 'r' || c = 'v' then some ((), behind ++ rest) else some ((), c :: behind ++ rest)) = _
      simp only [Option.map_some]
      split <;> rfl
    | nil =>
      cases rest with
      | nil => rfl
      | cons c rest =>
        -- the optional letter is not taken from what stands behind the command
        have hside : ¬((c = 'l' || c = 'r' || c = 'v') = true) := by
          have hc := hrest c rfl
          simp only [Bool.or_eq_true, decide_eq_true_eq]
          rintro ((rfl | rfl) | rfl) <;> revert hc <;> decide
        exact if_neg hside

theorem sizer_of_ne {c : Char} (hc : c ≠ '\\') (before : Option Char) (s : Text) : sizer before (c :: s) = none := by
  have hfind : (sizeNames.findSome? fun size => Text.after? ('\\' :: size) (c :: s)) = none :=
    List.findSome?_eq_none_iff.2 fun _ _ => if_neg hc.symm
  rw [sizer, hfind]
  rfl

theorem forward_sizer : Forward sizer := fun _ _ _ => rfl

theorem commandName_of_ne {c : Char} (hc : c ≠ '\\') (before : Option Char) (s : Text) : commandName before (c :: s) = none := by
  unfold commandName
  split
  · rename_i heq
    exact absurd (List.cons.inj heq).1 hc
  · rfl

theorem forward_commandName : Forward commandName := by
  intro b b' s
  cases s with
  | nil => rfl
  | cons c s =>
    by_cases hc : c = '\\'
    · subst hc
      rfl
    · rw [commandName_of_ne hc, commandName_of_ne hc]

/-- A command is read to the end of its name. -/
theorem commandName_command (before : Option Char) {name : Text} (hne : name ≠ []) (hname : Letters name) (s : Text) :
    commandName before ('\\' :: (name ++ s)) = some ((), behindWord s) := by
  have hword : ((name ++ s).takeWhile isAsciiLetter).isEmpty = false := by
    rw [List.takeWhile_append_of_pos hname, List.isEmpty_eq_false_iff]
    exact fun h => hne (List.append_eq_nil_iff.1 h).1
  have hbehind : (name ++ s).drop ((name ++ s).takeWhile isAsciiLetter).length = behindWord s := by
    rw [← Text.behindWord_append_of_letters hname]
    exact (congrArg (List.drop _) (Text.word_append_behindWord (name ++ s)).symm).trans List.drop_left
  show (if ((name ++ s).takeWhile isAsciiLetter).isEmpty then none
    else some ((), (name ++ s).drop ((name ++ s).takeWhile isAsciiLetter).length)) = _
  rw [hword, hbehind]
  rfl

/-! ## Readers over letters -/

theorem slash_notin_letters {letters : Text} (h : Letters letters) : ∀ c ∈ letters, c ≠ '\\' := by
  rintro c hc rfl
  exact absurd (h _ hc) (by decide)

/-- Letters stay as they are where every construct begins with a backslash. -/
theorem replaceAll_letters {α : Type} {read : Reader α} (hread : Forward read)
    (hslash : ∀ c s, c ≠ '\\' → read none (c :: s) = none) (f : α → Text) {letters : Text} (h : Letters letters) (s : Text) :
    replaceAll read f (letters ++ s) = letters ++ replaceAll read f s := by
  induction letters with
  | nil => rfl
  | cons c letters ih =>
    obtain ⟨hc, h'⟩ := List.forall_mem_cons.1 h
    have hne := slash_notin_letters h c List.mem_cons_self
    rw [List.cons_append, hread.replaceAll_cons (hslash c _ hne), ih h', List.cons_append]

/-! ## Counting -/

/-- No letter stands directly behind a command. -/
theorem head?_source (h : Spelled true ps) : ∀ c ∈ (source ps).head?, isAsciiLetter c = false := by
  intro c hc
  cases ps with
  | nil => cases hc
  | cons p ps =>
    cases p with
    | char d =>
      cases hc
      exact h.1.2.2.2 rfl
    | command name =>
      cases hc
      rfl

/-- The sizes are taken out part by part. -/
theorem removeAll_sizer_source (h : Spelled b ps) : removeAll sizer (source ps) = ps.flatMap trimmed := by
  induction ps generalizing b with
  | nil => rfl
  | cons p ps ih =>
    cases p with
    | char c =>
      obtain ⟨⟨hc, -⟩, h⟩ := h
      exact (forward_sizer.replaceAll_cons (sizer_of_ne hc none _) _).trans (congrArg (c :: ·) (ih h))
    | command name =>
      obtain ⟨⟨-, hname, -⟩, h⟩ := h
      have hletters (letters : Text) (hl : Letters letters) :
          removeAll sizer (letters ++ source ps) = letters ++ ps.flatMap trimmed := by
        rw [← ih h]
        exact replaceAll_letters forward_sizer (fun c s hc => sizer_of_ne hc none s) _ hl (source ps)
      have hread := sizer_command none name (head?_source h)
      show removeAll sizer ('\\' :: (name ++ source ps)) = (leftover? name).getD ('\\' :: name) ++ ps.flatMap trimmed
      cases hleft : leftover? name with
      | none =>
        rw [hleft] at hread
        exact (forward_sizer.replaceAll_cons hread _).trans (congrArg ('\\' :: ·) (hletters name hname))
      | some letters =>
        rw [hleft] at hread
        obtain ⟨taken, rfl⟩ := leftover?_suffix hleft
        have hrest : Letters letters := fun c hc => hname c (List.mem_append_right _ hc)
        exact (forward_sizer.replaceAll_hit hread (List.append_assoc _ _ _) _).trans (hletters letters hrest)

/-- A wrapper of text has a brace. -/
theorem misses_wrapper {s : Text} (hs : '\x7b' ∉ s) : Misses wrapper s := by
  intro before t ht
  have hnone : (["\\mathrm\x7b", "\\text\x7b", "\\textbf\x7b"].findSome? fun (opening : String) =>
      Text.after? opening.toList t) = none := by
    refine List.findSome?_eq_none_iff.2 fun opening hopening => ?_
    cases hafter : Text.after? opening.toList t with
    | none => rfl
    | some rest =>
      have hbrace : ∀ opening ∈ ["\\mathrm\x7b", "\\text\x7b", "\\textbf\x7b"], '\x7b' ∈ opening.toList := by decide
      rw [Text.after?_eq_some_iff.1 hafter] at ht
      exact absurd (ht.subset (List.mem_append_left _ (hbrace opening hopening))) hs
  rw [wrapper, hnone]
  rfl

theorem brace_notin_source (h : Spelled b ps) : '\x7b' ∉ source ps := by
  induction ps generalizing b with
  | nil => exact List.not_mem_nil
  | cons p ps ih =>
    intro hm
    cases p with
    | char c =>
      rcases List.mem_cons.1 hm with he | hm
      · exact h.1.2.1 he.symm
      · exact ih h.2 hm
    | command name =>
      rcases List.mem_append.1 hm with hm | hm
      · rcases List.mem_cons.1 hm with he | hm
        · cases he
        · exact absurd (h.1.2.1 _ hm) (by decide)
      · exact ih h.2 hm

/-- What is counted of the text without sizes: in full, and behind the letters of a command. -/
theorem length_commandNames (h : Spelled b ps) :
    (replaceAll commandName (fun _ => "C") (ps.flatMap trimmed)).length = drawn false ps ∧
      (b = true → (replaceAll commandName (fun _ => "C") (behindWord (ps.flatMap trimmed))).length = drawn true ps) := by
  induction ps generalizing b with
  | nil => exact ⟨rfl, fun _ => rfl⟩
  | cons p ps ih =>
    cases p with
    | char c =>
      obtain ⟨⟨hc, -, -, hletter⟩, h⟩ := h
      have hfull : (replaceAll commandName (fun _ => "C") (c :: ps.flatMap trimmed)).length = drawn false ps + 1 := by
        rw [forward_commandName.replaceAll_cons (commandName_of_ne hc none _), List.length_cons, (ih h).1]
      refine ⟨hfull, fun hb => ?_⟩
      show (replaceAll commandName _ (behindWord (c :: ps.flatMap trimmed))).length = _
      rw [Text.behindWord_cons_of_not_letter (hletter hb)]
      exact hfull
    | command name =>
      obtain ⟨⟨hne, hname, -⟩, h⟩ := h
      obtain ⟨hfull, hbehind⟩ := ih h
      cases hleft : leftover? name with
      | none =>
        have hstart : (Part.command name :: ps).flatMap trimmed = '\\' :: (name ++ ps.flatMap trimmed) := by
          simp only [List.flatMap_cons, trimmed, hleft, Option.getD_none, List.cons_append]
        have hwhole : (replaceAll commandName (fun _ => "C") ('\\' :: (name ++ ps.flatMap trimmed))).length =
            drawn true ps + 1 := by
          have hread := commandName_command none hne hname (ps.flatMap trimmed)
          obtain ⟨taken, htaken⟩ : behindWord (ps.flatMap trimmed) <:+ name ++ ps.flatMap trimmed :=
            (List.dropWhile_suffix _).trans (List.suffix_append _ _)
          rw [forward_commandName.replaceAll_hit hread htaken.symm, List.length_append, hbehind rfl, Nat.add_comm]
          rfl
        rw [hstart, Text.behindWord_cons_of_not_letter (by decide), hwhole]
        simp only [drawn, hleft, implies_true, and_self]
      | some letters =>
        have hletters : Letters letters := fun c hc => hname c ((leftover?_suffix hleft).subset hc)
        have hstart : (Part.command name :: ps).flatMap trimmed = letters ++ ps.flatMap trimmed := by
          simp only [List.flatMap_cons, trimmed, hleft, Option.getD_some]
        rw [hstart, replaceAll_letters forward_commandName (fun c s hc => commandName_of_ne hc none s) _ hletters,
          Text.behindWord_append_of_letters hletters, List.length_append, hfull, hbehind rfl]
        simp [drawn, hleft]

theorem glyphCount_source (h : Spelled b ps) : glyphCount (source ps) = drawn false ps := by
  have hwrapper : replaceAll wrapper id (source ps) = source ps := (misses_wrapper (brace_notin_source h)).replaceAll_eq id
  rw [glyphCount, hwrapper, removeAll_sizer_source h]
  exact (length_commandNames h).1

/-! ## Sizes and disguises -/

theorem Part.isSome_leftover?_of_isSize {name : Text} (h : isSize name = true) : (leftover? name).isSome = true := by
  obtain ⟨size, hsize, hname⟩ := List.any_eq_true.1 h
  simp only [Bool.or_eq_true, decide_eq_true_eq] at hname
  have hall : ∀ size ∈ sizeNames, (leftover? size).isSome = true ∧ (leftover? (size ++ "l")).isSome = true ∧
      (leftover? (size ++ "r")).isSome = true := by decide
  obtain ⟨hplain, hl, hr⟩ := hall size hsize
  rcases hname with (rfl | rfl) | rfl
  · exact hplain
  · exact hl
  · exact hr

/-- A disguised command counts as the letters that spill out of it, and every other part as it should with what spills. -/
theorem drawn_add_countP (b : Bool) (ps : List Part) :
    drawn b ps + ps.countP isDisguised = glyphs ps + spilled b ps := by
  induction ps generalizing b with
  | nil => rfl
  | cons p ps ih =>
    cases p with
    | char c =>
      have := ih false
      simp only [glyphs, drawn, spilled, List.countP_cons, isGlyph, isDisguised, if_true] at this ⊢
      simp only [Bool.false_eq_true, if_false]
      omega
    | command name =>
      cases hleft : leftover? name with
      | none =>
        have hsize : isSize name = false := Bool.eq_false_iff.2 fun h => by
          have := isSome_leftover?_of_isSize h
          rw [hleft] at this
          cases this
        have := ih true
        simp only [glyphs, drawn, spilled, hleft, List.countP_cons, isGlyph, isDisguised, hsize, Option.isSome_none,
          Bool.false_and, Bool.not_false, if_true, Bool.false_eq_true, if_false] at this ⊢
        omega
      | some letters =>
        have := ih b
        cases hsize : isSize name <;>
        · simp only [glyphs, drawn, spilled, hleft, List.countP_cons, isGlyph, isDisguised, hsize, Option.isSome_some,
            Bool.true_and, Bool.not_true, Bool.not_false, if_true, Bool.false_eq_true, if_false] at this ⊢
          omega

/-- A command is honest if it begins with a size only when it is one that the pattern takes whole. -/
def Part.IsHonest (name : Text) : Prop :=
  ∀ size ∈ texts ["left", "right", "big", "Big"], size <+: name → name ∈ [size, size ++ "l", size ++ "r"]

theorem Part.IsHonest.leftover?_eq {name : Text} (h : IsHonest name) :
    leftover? name = none ∨ leftover? name = some [] ∧ isSize name = true := by
  by_cases hsize : ∃ size ∈ texts ["left", "right", "big", "Big"], size <+: name
  · obtain ⟨size, hmem, hprefix⟩ := hsize
    have hall : ∀ size ∈ texts ["left", "right", "big", "Big"], ∀ name ∈ [size, size ++ "l", size ++ "r"],
        leftover? name = some [] ∧ isSize name = true := by decide
    exact .inr (hall size hmem name (h size hmem hprefix))
  · refine .inl (Option.map_eq_none_iff.2 (List.findSome?_eq_none_iff.2 fun size hmem => ?_))
    have hall : ∀ size ∈ sizeNames, ∃ short ∈ texts ["left", "right", "big", "Big"], short <+: size := by decide
    obtain ⟨short, hshort, hprefix⟩ := hall size hmem
    cases hafter : Text.after? size name with
    | none => rfl
    | some rest => exact absurd ⟨short, hshort, hprefix.trans ⟨rest, (Text.after?_eq_some_iff.1 hafter).symm⟩⟩ hsize

theorem spilled_of_honest (h : ∀ name, .command name ∈ ps → IsHonest name) (b : Bool) :
    spilled b ps = 0 ∧ ps.countP isDisguised = 0 := by
  induction ps generalizing b with
  | nil => exact ⟨rfl, rfl⟩
  | cons p ps ih =>
    have ih := ih fun name hname => h name (List.mem_cons_of_mem _ hname)
    cases p with
    | char c => exact ih false
    | command name =>
      rcases (h name List.mem_cons_self).leftover?_eq with hleft | ⟨hleft, hsize⟩
      · have hdisguised : ¬isDisguised (.command name) = true := by simp [isDisguised, hleft]
        rw [List.countP_cons_of_neg hdisguised, spilled, hleft]
        exact ih true
      · have hdisguised : ¬isDisguised (.command name) = true := by simp [isDisguised, hsize]
        rw [List.countP_cons_of_neg hdisguised, spilled, hleft]
        exact ⟨by simp [(ih b).1], (ih b).2⟩

/-- **Width in glyphs.** The estimated width is that of the glyphs, with the letters that spill out of commands in the places
    of the disguised ones. So it is right just if there are as many such letters as disguised commands, or glyphs have no width.
    It is right in particular where all commands are honest. -/
theorem widthIn_source_iff (ps : List Part) (h : Spelled false ps) (w : ℚ) :
    widthIn Nat.cast (source ps) w = w * (glyphs ps + spilled false ps - ps.countP isDisguised) ∧
      (widthIn Nat.cast (source ps) w = w * glyphs ps ↔ w = 0 ∨ spilled false ps = ps.countP isDisguised) ∧
      ((∀ name, .command name ∈ ps → IsHonest name) → widthIn Nat.cast (source ps) w = w * glyphs ps) := by
  have hdrawn : (drawn false ps : ℚ) + ps.countP isDisguised = glyphs ps + spilled false ps := by
    exact_mod_cast drawn_add_countP false ps
  have hwidth : widthIn Nat.cast (source ps) w = w * (glyphs ps + spilled false ps - ps.countP isDisguised) := by
    rw [widthIn, glyphCount_source h, ← hdrawn]
    ring
  have hiff : widthIn Nat.cast (source ps) w = w * glyphs ps ↔ w = 0 ∨ spilled false ps = ps.countP isDisguised := by
    rw [hwidth, mul_eq_mul_left_iff, or_comm, add_sub_assoc, add_eq_left, sub_eq_zero, Nat.cast_inj]
  refine ⟨hwidth, hiff, fun hhonest => hiff.2 (.inr ?_)⟩
  obtain ⟨hspilled, hdisguised⟩ := spilled_of_honest hhonest false
  rw [hspilled, hdisguised]

/-- A letter in fences. -/
def fenced : List Part := [.command "left", .char '(', .command "alpha", .command "right", .char ')']

theorem spelled_fenced : Spelled false fenced := by
  simp only [fenced, Spelled, Letters, texts]
  decide

theorem widthIn_source_iff_fenced : Spelled false fenced ∧
    (∀ name, .command name ∈ fenced → IsHonest name) ∧ widthIn Nat.cast (source fenced) (2 : ℚ) = 2 * 3 := by
  have hhonest : ∀ name, .command name ∈ fenced → IsHonest name := by
    intro name hname
    simp only [fenced, List.mem_cons, Part.command.injEq, reduceCtorEq, List.not_mem_nil, false_or, or_false] at hname
    rcases hname with rfl | rfl | rfl <;> simp only [IsHonest] <;> decide
  have hglyphs : glyphs fenced = 3 := by decide
  obtain ⟨-, -, hwidth⟩ := widthIn_source_iff fenced spelled_fenced 2
  exact ⟨spelled_fenced, hhonest, by rw [hwidth hhonest, hglyphs, Nat.cast_ofNat]⟩

/-- An arrow to the left is one glyph, and counts as the five letters behind `left`. -/
theorem arrow_too_wide : Spelled false [.command "leftarrow"] ∧ glyphs [.command "leftarrow"] = 1 ∧
    widthIn Nat.cast (source [.command "leftarrow"]) (1 : ℚ) = 5 := by
  refine ⟨?_, by decide, ?_⟩
  · simp only [Spelled, Letters, texts]
    decide
  · have hcount : glyphCount (source [.command "leftarrow"]) = 5 := by decide
    rw [widthIn, hcount, Nat.cast_ofNat, mul_one]

end Galley.Formula
