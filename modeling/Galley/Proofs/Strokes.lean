import Galley.Proofs.CalmInline
import Galley.Proofs.Commands
import Galley.Proofs.InlineRuns
/-!
# Escaped specials, braces and row breaks

Inline text is written in strokes: characters that mean themselves, braces, escaped specials and row breaks. Formatting
reads the strokes one by one (`format_written`), unless a backslash of a row break is read with what follows it: with a
brace, or with the name and the arguments of a command (`Separate`).
-/

namespace Galley

/-! ## Commands that cannot be read with arguments -/

namespace Command

variable {name s : Text} {count : Nat} {takesOption : Bool}

/-- Somewhere in the text the command stands with arguments. -/
def Stands (name : Text) (count : Nat) (takesOption : Bool) (s : Text) : Prop :=
  ∃ t args rest, t <:+ s ∧ withArguments name count takesOption none t = some (some args, rest)

theorem bare_of_mem_cut (h : ¬ Stands name count takesOption s) {p : Piece (Option Arguments)}
    (hp : p ∈ Text.cut (withArguments name count takesOption) s) : (∃ c, p = .char c) ∨ ∃ source, p = .hit none source := by
  rcases Text.mem_cut hp with ⟨c, -, rfl⟩ | ⟨args, before, t, rest, rfl, ht, hr⟩
  · exact .inl ⟨c, rfl⟩
  · cases args with
    | none => exact .inr ⟨_, rfl⟩
    | some args => exact absurd ⟨t, args, rest, ht, hr⟩ h

theorem replaceM_bare {m : Type → Type} [Monad m] [LawfulMonad m] (h : ¬ Stands name count takesOption s)
    (render : Arguments → m Text) : replaceM name count render s takesOption = pure s := by
  have main (f : Piece (Option Arguments) → m Text) (ps : List (Piece (Option Arguments)))
      (hf : ∀ p ∈ ps, f p = pure p.source) : ps.mapM f = pure (ps.map Piece.source) := by
    induction ps with
    | nil => simp
    | cons p ps ih =>
      obtain ⟨hp, hps⟩ := List.forall_mem_cons.1 hf
      simp only [List.mapM_cons, List.map_cons, hp, ih hps, pure_bind]
  have hsource : Piece.sources (Text.cut (withArguments name count takesOption) s) = s := Text.sources_cut s
  rw [Piece.sources, List.flatMap_def] at hsource
  unfold replaceM
  rw [main _ _ fun p hp => ?_, pure_bind, hsource]
  rcases bare_of_mem_cut h hp with ⟨c, rfl⟩ | ⟨source, rfl⟩ <;> rfl

theorem replace_bare (h : ¬ Stands name count takesOption s) (render : Arguments → Text) :
    replace name count render s takesOption = s := by
  unfold replace
  have hsource : Piece.sources (Text.cut (withArguments name count takesOption) s) = s := Text.sources_cut s
  refine Eq.trans ?_ hsource
  refine List.flatMap_congr fun p hp => ?_
  rcases bare_of_mem_cut h hp with ⟨c, rfl⟩ | ⟨source, rfl⟩ <;> rfl

end Command

namespace Arguments

variable {n : Nat} {s rest : Text}

theorem braces_succ_iff {parts : List Text} : braces (n + 1) s = .ok (some (parts, rest)) ↔
    ∃ a more t, Group.read .brace s = .ok (some (a, t)) ∧ braces n t = .ok (some (more, rest)) ∧ parts = a :: more := by
  rw [braces]
  rcases Group.read .brace s with e | _ | ⟨a, t⟩
  · simp [bind, Except.bind]
  · simp [bind, Except.bind, pure, Except.pure]
  · rcases hb : braces n t with e | _ | ⟨more, rest'⟩
    · simp [bind, Except.bind, hb]
    · simp [bind, Except.bind, pure, Except.pure, hb]
    · simp [bind, Except.bind, pure, Except.pure, hb, eq_comm, and_comm]

/-- Where no bracket group can be read, the arguments are brace groups. -/
theorem read?_iff {takesOption : Bool} {args : Arguments} (h : Group.read .bracket s = .ok none) :
    read? n takesOption s = some (args, rest) ↔ args.option = none ∧ braces n s = .ok (some (args.required, rest)) := by
  obtain ⟨option, required⟩ := args
  rw [read?]
  rcases hb : braces n s with e | _ | ⟨parts, rest'⟩
  · have hread : read n takesOption s = .error e := by cases takesOption <;> simp [read, h, hb, bind, Except.bind, pure, Except.pure]
    simp [hread]
  · have hread : read n takesOption s = .ok none := by cases takesOption <;> simp [read, h, hb, bind, Except.bind, pure, Except.pure]
    simp [hread]
  · have hread : read n takesOption s = .ok (some (⟨none, parts⟩, rest')) := by
      cases takesOption <;> simp [read, h, hb, bind, Except.bind, pure, Except.pure]
    simp [hread, and_assoc, eq_comm]

end Arguments

namespace Inline

/-- The commands that are rewritten in inline text, with the number of their arguments and whether an option may come
    first. -/
def commands : List (Text × Nat × Bool) :=
  ([("textcircled", 1, false), ("eqref", 1, false), ("ref", 1, false), ("cite", 1, true), ("citep", 1, true),
    ("citet", 1, true), ("label", 1, false), ("url", 1, false), ("href", 2, false)] : List (Text × Nat × Bool)) ++
    wrappers.map fun w => (w.1, 1, false)

theorem rewriteCommands_bare {s : Text} (h : ∀ x ∈ commands, ¬ Command.Stands x.1 x.2.1 x.2.2 s) (depth : Nat) :
    rewriteCommands depth s = pure s := by
  have hbare (name : Text) (count : Nat) (takesOption : Bool) (hx : (name, count, takesOption) ∈ commands) :
      ¬ Command.Stands name count takesOption s := h _ hx
  have hreferences : rewriteReferences s = pure s := by
    rw [rewriteReferences, Command.replace_bare (hbare "textcircled" 1 false (by decide)), Command.replace_bare (hbare "eqref" 1 false (by decide)),
      Command.replace_bare (hbare "ref" 1 false (by decide)), Command.replace_bare (hbare "cite" 1 true (by decide)),
      Command.replace_bare (hbare "citep" 1 true (by decide)), Command.replace_bare (hbare "citet" 1 true (by decide)),
      Command.replace_bare (hbare "label" 1 false (by decide)), Command.replaceM_bare (hbare "url" 1 false (by decide))]
  cases depth with
  | zero => rfl
  | succ depth =>
    rw [rewriteCommands, hreferences, pure_bind]
    dsimp only
    rw [Command.replaceM_bare (hbare "href" 2 false (by decide)), pure_bind]
    have hwrapper (w : Text × Text × Text) (hw : w ∈ wrappers) : (w.1, 1, false) ∈ commands :=
      List.mem_append_right _ (List.mem_map_of_mem hw)
    exact foldlM_eq_pure fun w hw => Command.replaceM_bare (hbare w.1 1 false (hwrapper w hw)) _

/-! ## Strokes -/

/-- Letters, digits, spaces, and what is not of ASCII but for internal characters. -/
def isStrokeChar (c : Char) : Bool := isAsciiLetter c || c.isDigit || c = ' ' || (128 ≤ c.toNat && !isInternal c)

inductive Stroke where
  | char (c : { c : Char // isStrokeChar c = true })
  | opening
  | closing
  | special (x : { x : Char × Char × Text // x ∈ specials })
  | rowBreak

namespace Stroke

def source : Stroke → Text
  | char c => [c.1]
  | opening => ['{']
  | closing => ['}']
  | special x => ['\\', x.1.1]
  | rowBreak => ['\\', '\\']

/-- What shows the stroke on the page. -/
def shown : Stroke → Text
  | char c => [c.1]
  | opening => ['{']
  | closing => ['}']
  | special x => Html.escape [x.1.1]
  | rowBreak => "<br>"

/-- The stroke while its special is protected. -/
def guarded : Stroke → Text
  | char c => [c.1]
  | opening => ['{']
  | closing => ['}']
  | special x => [x.1.2.1]
  | rowBreak => ['\\', '\\']

def isBrace : Stroke → Bool
  | opening | closing => true
  | _ => false

def isSpace : Stroke → Bool
  | char c => c.1 = ' '
  | _ => false

/-- The text as it is written. -/
def written (us : List Stroke) : Text := us.flatMap source

/-- The text while its specials are protected. -/
def shielded (us : List Stroke) : Text := us.flatMap guarded

/-- The markup that shows the strokes one by one. -/
def rendered (us : List Stroke) : Text := us.flatMap shown

end Stroke

open Stroke (written shielded rendered)

/-! ### Commands in strokes -/

/-- What follows a word at the head. -/
def afterWord : (word : Text) → List Stroke → Option (List Stroke)
  | [], us => some us
  | x :: word, .char c :: us => if x = c.1 then afterWord word us else none
  | _ :: _, _ => none

/-- What follows the closing brace of a group in which `depth` inner groups are open. -/
def afterGroup : (depth : Nat) → List Stroke → Option (List Stroke)
  | _, [] => none
  | d, .opening :: us => afterGroup (d + 1) us
  | 0, .closing :: us => some us
  | d + 1, .closing :: us => afterGroup d us
  | d, _ :: us => afterGroup d us

/-- What follows some groups in a row, each behind any number of spaces. -/
def afterGroups : (count : Nat) → List Stroke → Option (List Stroke)
  | 0, us => some us
  | n + 1, us =>
    match us.dropWhile Stroke.isSpace with
    | .opening :: us => (afterGroup 0 us).bind (afterGroups n)
    | _ => none

/-- The strokes begin with the name of a command and its arguments. -/
def beginsCommand (us : List Stroke) : Bool :=
  commands.any fun x => ((afterWord x.1 us).bind (afterGroups x.2.1)).isSome

/-- No row break stands directly before a brace, or before the name of a command and its arguments. -/
def Separate (us : List Stroke) : Prop :=
  ∀ vs, .rowBreak :: vs <:+ us → (vs.head?.all fun v => !v.isBrace) = true ∧ beginsCommand vs = false

namespace Separate

variable {u : Stroke} {us vs : List Stroke}

theorem of_suffix (h : Separate us) (hv : vs <:+ us) : Separate vs := fun ws hw => h ws (hw.trans hv)

theorem tail (h : Separate (u :: us)) : Separate us := h.of_suffix (List.suffix_cons u us)

end Separate

/-! ## Before commands are read -/

section Steps

variable {us : List Stroke}

theorem ne_of_isStrokeChar {c x : Char} (h : isStrokeChar c = true) (hx : isStrokeChar x = false) : c ≠ x := by
  rintro rfl
  rw [h] at hx
  cases hx

/-- A dollar behind a backslash opens no formula. -/
theorem formula_escaped {c : Char} {s : Text} (hb : c ≠ '\\') : formula (some '\\') (c :: s) = none := by
  unfold formula
  split
  · exact if_pos rfl
  · rename_i h
    exact absurd (List.cons.inj h).1 hb
  · rfl

theorem formula_backslash {before : Option Char} {s : Text} (h : s.head? ≠ some '(') : formula before ('\\' :: s) = none := by
  unfold formula
  split
  · rename_i he
    cases (List.cons.inj he).1
  · rename_i he
    rw [(List.cons.inj he).2] at h
    exact absurd rfl h
  · rfl

theorem head_written (x : Char) (hx : isStrokeChar x = false) (hb : x ≠ '\\') (ho : x ≠ '{') (hc : x ≠ '}') :
    (written us).head? ≠ some x := by
  cases us with
  | nil => simp [written]
  | cons u us =>
    intro h
    rw [written, List.flatMap_cons] at h
    cases u <;> simp only [Stroke.source, List.cons_append, List.head?_cons, Option.some.injEq] at h
    · rename_i c
      exact ne_of_isStrokeChar c.2 hx h
    · exact ho h.symm
    · exact hc h.symm
    · exact hb h.symm
    · exact hb h.symm

/-- No formula stands in the text, as every dollar is escaped. -/
theorem cutFrom_formula (before : Option Char) : Text.cutFrom formula 0 before (written us) = (written us).map .char := by
  induction us generalizing before with
  | nil => rfl
  | cons u us ih =>
    have hround : (written us).head? ≠ some '(' := head_written '(' (by decide) (by decide) (by decide) (by decide)
    rw [written, List.flatMap_cons]
    change Text.cutFrom formula 0 before (u.source ++ written us) = _
    cases u with
    | char c =>
      have hnone : formula before (c.1 :: written us) = none :=
        formula_eq_none (ne_of_isStrokeChar c.2 (by decide)) (ne_of_isStrokeChar c.2 (by decide))
      exact (Text.cutFrom_char hnone).trans (congrArg (Piece.char c.1 :: ·) (ih _))
    | opening => exact (Text.cutFrom_char (formula_eq_none (by decide) (by decide))).trans (congrArg (Piece.char '{' :: ·) (ih _))
    | closing => exact (Text.cutFrom_char (formula_eq_none (by decide) (by decide))).trans (congrArg (Piece.char '}' :: ·) (ih _))
    | special x =>
      have hkeys : ∀ x ∈ specials, x.1 ≠ '(' ∧ x.1 ≠ '\\' := by decide
      obtain ⟨hparen, hslash⟩ := hkeys x.1 x.2
      have hfirst : formula before ('\\' :: x.1.1 :: written us) = none := formula_backslash (by simpa using hparen)
      have hsecond : formula (some '\\') (x.1.1 :: written us) = none := formula_escaped hslash
      exact (Text.cutFrom_char hfirst).trans (congrArg (Piece.char '\\' :: ·) ((Text.cutFrom_char hsecond).trans
        (congrArg (Piece.char x.1.1 :: ·) (ih _))))
    | rowBreak =>
      have hfirst : formula before ('\\' :: '\\' :: written us) = none := formula_backslash (by simp)
      have hsecond : formula (some '\\') ('\\' :: written us) = none := formula_backslash hround
      exact (Text.cutFrom_char hfirst).trans (congrArg (Piece.char '\\' :: ·) ((Text.cutFrom_char hsecond).trans
        (congrArg (Piece.char '\\' :: ·) (ih _))))

theorem stashFormulas_written (render : Text → Text) : stashFormulas render (written us) = pure (written us) := by
  have hkeep (s : Text) (f : Piece Text → StateM Stash Text) (hf : ∀ c, f (.char c) = pure [c]) :
      (s.map Piece.char).mapM f = pure (s.map fun c => [c]) := by
    induction s with
    | nil => simp
    | cons c s ih => simp only [List.map_cons, List.mapM_cons, hf, ih, pure_bind]
  rw [stashFormulas, Text.replaceAllM, Text.cut, cutFrom_formula]
  refine (congrArg (· >>= fun parts => pure parts.flatten) (hkeep (written us) _ ?_)).trans ?_
  · exact fun _ => rfl
  · rw [pure_bind, Text.flatten_map_singleton]

/-! ### Protecting specials -/

/-- A backslash before a character that is no special. -/
theorem escapedSpecial_backslash {s : Text} (h : s.head?.bind (specials.lookup ·) = none) : escapedSpecial none ('\\' :: s) = none := by
  cases s with
  | nil => rfl
  | cons c s =>
    rw [List.head?_cons, Option.bind_some] at h
    rw [escapedSpecial, h, Option.map_none]

theorem lookup_isStrokeChar {c : Char} (h : isStrokeChar c = true) : specials.lookup c = none := by
  refine Option.eq_none_iff_forall_ne_some.2 fun p hp => ?_
  obtain ⟨as, bs, hspecials, -⟩ := List.lookup_eq_some_iff.1 hp
  have hkeys : ∀ x ∈ specials, isStrokeChar x.1 = false := by decide
  have hkey := hkeys (c, p) (by simp [hspecials])
  rw [h] at hkey
  cases hkey

/-- No special is made of the backslash of a row break. -/
theorem lookup_head_written (h : (us.head?.all fun v => !v.isBrace) = true) : (written us).head?.bind (specials.lookup ·) = none := by
  cases us with
  | nil => rfl
  | cons u us =>
    cases u with
    | char c => exact lookup_isStrokeChar c.2
    | opening => cases h
    | closing => cases h
    | special x => exact (by decide : specials.lookup '\\' = none)
    | rowBreak => exact (by decide : specials.lookup '\\' = none)

theorem protectSpecials_written (h : Separate us) : protectSpecials (written us) = shielded us := by
  induction us with
  | nil => rfl
  | cons u us ih =>
    have hrest := ih h.tail
    cases u with
    | char c =>
      have hchar := forward_escapedSpecial.replaceAll_cons (escapedSpecial_eq_none none (ne_of_isStrokeChar c.2 (x := '\\') (by decide)) (written us))
        fun mark => [mark]
      exact hchar.trans (congrArg (c.1 :: ·) hrest)
    | opening =>
      have hchar := forward_escapedSpecial.replaceAll_cons (escapedSpecial_eq_none none (c := '{') (by decide) (written us)) fun mark => [mark]
      exact hchar.trans (congrArg ('{' :: ·) hrest)
    | closing =>
      have hchar := forward_escapedSpecial.replaceAll_cons (escapedSpecial_eq_none none (c := '}') (by decide) (written us)) fun mark => [mark]
      exact hchar.trans (congrArg ('}' :: ·) hrest)
    | special x =>
      have hlookup : ∀ x ∈ specials, specials.lookup x.1 = some x.2 := by decide
      have hread : escapedSpecial none ('\\' :: x.1.1 :: written us) = some (x.1.2.1, written us) := by
        rw [escapedSpecial, hlookup x.1 x.2, Option.map_some]
      have hhit := forward_escapedSpecial.replaceAll_hit (t := [x.1.1]) hread rfl fun mark => [mark]
      exact hhit.trans (congrArg (x.1.2.1 :: ·) hrest)
    | rowBreak =>
      have hslash : specials.lookup '\\' = none := by decide
      have hhead := lookup_head_written (h us (List.suffix_refl _)).1
      have hfirst := forward_escapedSpecial.replaceAll_cons (escapedSpecial_backslash (s := '\\' :: written us) hslash) fun mark => [mark]
      have hsecond := forward_escapedSpecial.replaceAll_cons (escapedSpecial_backslash hhead) fun mark => [mark]
      exact hfirst.trans (congrArg ('\\' :: ·) (hsecond.trans (congrArg ('\\' :: ·) hrest)))

/-! ### The characters of a shielded text -/

theorem mem_shielded {c : Char} (h : c ∈ shielded us) :
    isStrokeChar c = true ∨ c = '{' ∨ c = '}' ∨ c = '\\' ∨ isGuard c = true := by
  obtain ⟨u, -, hc⟩ := List.mem_flatMap.1 h
  cases u with
  | char x =>
    rw [List.mem_singleton.1 hc]
    exact .inl x.2
  | opening => exact .inr (.inl (List.mem_singleton.1 hc))
  | closing => exact .inr (.inr (.inl (List.mem_singleton.1 hc)))
  | special x =>
    rw [List.mem_singleton.1 hc]
    exact .inr (.inr (.inr (.inr (List.any_eq_true.2 ⟨x.1, x.2, by simp⟩))))
  | rowBreak => exact .inr (.inr (.inr (.inl (by simpa [Stroke.guarded] using hc))))

theorem not_mem_shielded (x : Char) (hx : (isStrokeChar x || x = '{' || x = '}' || x = '\\' || isGuard x) = false) : x ∉ shielded us := by
  intro h
  simp only [Bool.or_eq_false_iff, decide_eq_false_iff_not] at hx
  rcases mem_shielded h with hc | hc | hc | hc | hc
  · rw [hx.1.1.1.1] at hc
    cases hc
  · exact hx.1.1.1.2 hc
  · exact hx.1.1.2 hc
  · exact hx.1.2 hc
  · rw [hx.2] at hc
    cases hc

theorem escape_shielded : Html.escape (shielded us) = shielded us :=
  escape_eq_self (not_mem_shielded '&' (by decide)) (not_mem_shielded '<' (by decide)) (not_mem_shielded '>' (by decide))

theorem typography_shielded : typography (shielded us) = shielded us :=
  typography_eq_self (not_mem_shielded '-' (by decide)) (not_mem_shielded '\x60' (by decide)) (not_mem_shielded '\'' (by decide))

end Steps

/-! ## Reading commands in strokes -/

section Reading

open Galley.Command Galley.Group

variable {us vs : List Stroke}

theorem shielded_cons (u : Stroke) (us : List Stroke) : shielded (u :: us) = u.guarded ++ shielded us := rfl

theorem dropWhile_shielded (us : List Stroke) : (shielded us).dropWhile isGap = shielded (us.dropWhile Stroke.isSpace) := by
  have hgap {c : Char} (h : isStrokeChar c = true) : isGap c = decide (c = ' ') := by
    have htab : c ≠ '\t' := ne_of_isStrokeChar h (by decide)
    have hreturn : c ≠ '\r' := ne_of_isStrokeChar h (by decide)
    have hline : c ≠ '\n' := ne_of_isStrokeChar h (by decide)
    simp [isGap, htab, hreturn, hline]
  induction us with
  | nil => rfl
  | cons u us ih =>
    cases u with
    | char c =>
      simp only [shielded_cons, Stroke.guarded, List.singleton_append, List.dropWhile_cons, Stroke.isSpace, hgap c.2, decide_eq_true_eq]
      split
      · exact ih
      · rfl
    | opening => rfl
    | closing => rfl
    | special x =>
      have hguards : ∀ x ∈ specials, isGap x.2.1 = false := by decide
      exact List.dropWhile_cons_of_neg (by simp [hguards x.1 x.2])
    | rowBreak => rfl

/-- A brace group is read stroke by stroke. -/
theorem braceRest_shielded (d : Nat) (us : List Stroke) :
    (braceRest false d false (shielded us)).map Prod.snd = (afterGroup d us).map shielded := by
  have hkeep (cs : Text) (r : Option (Text × Text)) : (keep cs r).map Prod.snd = r.map Prod.snd := by cases r <;> rfl
  induction us generalizing d with
  | nil => cases d <;> rfl
  | cons u us ih =>
    have hplain {c : Char} (hb : c ≠ '\\') (ho : c ≠ '{') (hc : c ≠ '}') :
        (braceRest false d false (c :: shielded us)).map Prod.snd = (afterGroup d us).map shielded := by
      rw [braceRest_cons hb, if_neg ho, if_neg hc, hkeep, ih]
    cases u with
    | char c =>
      have hstep : afterGroup d (.char c :: us) = afterGroup d us := by cases d <;> rfl
      rw [hstep]
      exact hplain (ne_of_isStrokeChar c.2 (by decide)) (ne_of_isStrokeChar c.2 (by decide)) (ne_of_isStrokeChar c.2 (by decide))
    | opening =>
      have hstep : afterGroup d (.opening :: us) = afterGroup (d + 1) us := by cases d <;> rfl
      rw [hstep, shielded_cons, Stroke.guarded, List.singleton_append, braceRest_cons (by decide), if_pos rfl, hkeep, ih]
    | closing =>
      rw [shielded_cons, Stroke.guarded, List.singleton_append, braceRest_cons (by decide), if_neg (by decide), if_pos rfl]
      cases d with
      | zero => rfl
      | succ d => exact (hkeep _ _).trans (ih d)
    | special x =>
      have hguards : ∀ x ∈ specials, x.2.1 ≠ '\\' ∧ x.2.1 ≠ '{' ∧ x.2.1 ≠ '}' := by decide
      have hstep : afterGroup d (.special x :: us) = afterGroup d us := by cases d <;> rfl
      obtain ⟨hb, ho, hc⟩ := hguards x.1 x.2
      rw [hstep]
      exact hplain hb ho hc
    | rowBreak =>
      have hstep : afterGroup d (.rowBreak :: us) = afterGroup d us := by cases d <;> rfl
      rw [hstep]
      exact (hkeep _ _).trans (ih d)

/-- A brace group behind spaces. -/
theorem read_shielded (us : List Stroke) (rest : Text) :
    (∃ inside, Group.read .brace (shielded us) = .ok (some (inside, rest))) ↔ ∃ ws, afterGroups 1 us = some ws ∧ shielded ws = rest := by
  have hother {c : Char} (hc : c ≠ '{') (x : Except Unclosed (Option (Text × Text))) :
      ¬ ∃ inside, (if c = '{' then x else .ok none) = .ok (some (inside, rest)) := by
    rw [if_neg hc]
    rintro ⟨inside, h⟩
    cases h
  have hnone : ¬ ∃ ws, (none : Option (List Stroke)) = some ws ∧ shielded ws = rest := by
    rintro ⟨ws, h, -⟩
    cases h
  rw [Group.read, dropWhile_shielded, afterGroups]
  cases us.dropWhile Stroke.isSpace with
  | nil => simp [shielded]
  | cons v vs =>
    cases v with
    | opening =>
      have hgroup := braceRest_shielded 0 vs
      rw [shielded_cons, Stroke.guarded, List.singleton_append]
      simp only [Delimiter.opener, if_true, inside?]
      cases hread : braceRest false 0 false (shielded vs) with
      | none =>
        rw [hread, Option.map_none, eq_comm, Option.map_eq_none_iff] at hgroup
        simp [hgroup]
      | some r =>
        obtain ⟨inside, rest'⟩ := r
        rw [hread, Option.map_some, eq_comm, Option.map_eq_some_iff] at hgroup
        obtain ⟨ws, hws, rfl⟩ := hgroup
        simp [hws, afterGroups]
    | char c => exact iff_of_false (hother (ne_of_isStrokeChar c.2 (x := '{') (by decide)) _) hnone
    | closing => exact iff_of_false (hother (c := '}') (by decide) _) hnone
    | special x =>
      have hguards : ∀ x ∈ specials, x.2.1 ≠ '{' := by decide
      exact iff_of_false (hother (hguards x.1 x.2) _) hnone
    | rowBreak => exact iff_of_false (hother (c := '\\') (by decide) _) hnone

theorem afterGroups_succ (n : Nat) (us : List Stroke) : afterGroups (n + 1) us = (afterGroups 1 us).bind (afterGroups n) := by
  simp only [afterGroups]
  split
  · rw [Option.bind_assoc]
    rfl
  · rfl

/-- Some brace groups in a row. -/
theorem braces_shielded (n : Nat) (us : List Stroke) (rest : Text) :
    (∃ parts, Arguments.braces n (shielded us) = .ok (some (parts, rest))) ↔ ∃ ws, afterGroups n us = some ws ∧ shielded ws = rest := by
  induction n generalizing us with
  | zero => simp [Arguments.braces, afterGroups]
  | succ n ih =>
    rw [afterGroups_succ]
    constructor
    · rintro ⟨parts, h⟩
      obtain ⟨a, more, t, hread, hmore, -⟩ := Arguments.braces_succ_iff.1 h
      obtain ⟨vs, hvs, rfl⟩ := (read_shielded us t).1 ⟨a, hread⟩
      obtain ⟨ws, hws, hrest⟩ := (ih vs).1 ⟨more, hmore⟩
      exact ⟨ws, by rw [hvs, Option.bind_some, hws], hrest⟩
    · rintro ⟨ws, h, hrest⟩
      obtain ⟨vs, hvs, hws⟩ := Option.bind_eq_some_iff.1 h
      obtain ⟨a, hread⟩ := (read_shielded us (shielded vs)).2 ⟨vs, hvs, rfl⟩
      obtain ⟨more, hmore⟩ := (ih vs).2 ⟨ws, hws, hrest⟩
      exact ⟨a :: more, Arguments.braces_succ_iff.2 ⟨a, more, _, hread, hmore, rfl⟩⟩

/-- The arguments of a command; no bracket stands in strokes, so an option is never read. -/
theorem read?_shielded (n : Nat) (takesOption : Bool) (us : List Stroke) (rest : Text) :
    (∃ args, Arguments.read? n takesOption (shielded us) = some (args, rest)) ↔ ∃ ws, afterGroups n us = some ws ∧ shielded ws = rest := by
  have hbracket : Group.read .bracket (shielded us) = .ok none := Group.read_of_not_mem (not_mem_shielded '[' (by decide))
  rw [← braces_shielded]
  constructor
  · rintro ⟨args, h⟩
    exact ⟨args.required, ((Arguments.read?_iff hbracket).1 h).2⟩
  · rintro ⟨parts, h⟩
    exact ⟨⟨none, parts⟩, (Arguments.read?_iff hbracket).2 ⟨rfl, h⟩⟩

/-- A word at the head. -/
theorem after?_shielded {word : Text} (hword : ∀ c ∈ word, isAsciiLetter c = true) (us : List Stroke) (rest : Text) :
    Text.after? word (shielded us) = some rest ↔ ∃ ws, afterWord word us = some ws ∧ shielded ws = rest := by
  induction word generalizing us with
  | nil => simp [Text.after?, afterWord]
  | cons x word ih =>
    obtain ⟨hx, hword⟩ := List.forall_mem_cons.1 hword
    have hother {c : Char} (hc : isAsciiLetter c = false) (s : Text) : Text.after? (x :: word) (c :: s) ≠ some rest := by
      rw [Text.after?, if_neg]
      · simp
      · rintro rfl
        rw [hx] at hc
        cases hc
    have hnone : ¬ ∃ ws, (none : Option (List Stroke)) = some ws ∧ shielded ws = rest := by
      rintro ⟨ws, h, -⟩
      cases h
    cases us with
    | nil => exact iff_of_false (fun h => by cases h) hnone
    | cons u us =>
      cases u with
      | char c =>
        rw [shielded_cons, Stroke.guarded, List.singleton_append, Text.after?, afterWord]
        split
        · exact ih hword us
        · exact iff_of_false (fun h => by cases h) hnone
      | opening => exact iff_of_false (hother (c := '{') (by decide) _) hnone
      | closing => exact iff_of_false (hother (c := '}') (by decide) _) hnone
      | special x =>
        have hguards : ∀ x ∈ specials, isAsciiLetter x.2.1 = false := by decide
        exact iff_of_false (hother (hguards x.1 x.2) _) hnone
      | rowBreak => exact iff_of_false (hother (c := '\\') (by decide) _) hnone

/-- No letter stands before arguments. -/
theorem head_of_afterGroups {n : Nat} {ws zs : List Stroke} (h : afterGroups (n + 1) ws = some zs) :
    ((shielded ws).head?.map isAsciiLetter).getD false = false := by
  cases ws with
  | nil => rfl
  | cons u us =>
    cases u with
    | char c =>
      by_cases hc : c.1 = ' '
      · simp only [shielded_cons, Stroke.guarded, List.singleton_append, List.head?_cons, Option.map_some, hc]
        decide
      · rw [afterGroups, List.dropWhile_cons_of_neg (by simp [Stroke.isSpace, hc])] at h
        cases h
    | opening => exact (by decide : isAsciiLetter '{' = false)
    | closing => exact (by decide : isAsciiLetter '}' = false)
    | special x =>
      have hguards : ∀ x ∈ specials, isAsciiLetter x.2.1 = false := by decide
      exact hguards x.1 x.2
    | rowBreak => exact (by decide : isAsciiLetter '\\' = false)

section Names

variable {name : Text} (hletters : ∀ c ∈ name, isAsciiLetter c = true)

include hletters

/-- Behind a backslash the command stands with its arguments. -/
theorem withArguments_shielded (n : Nat) (takesOption : Bool) (vs : List Stroke) :
    (∃ args rest, withArguments name (n + 1) takesOption none ('\\' :: shielded vs) = some (some args, rest)) ↔
      ((afterWord name vs).bind (afterGroups (n + 1))).isSome = true := by
  have hafter : Text.after? ('\\' :: name) ('\\' :: shielded vs) = Text.after? name (shielded vs) := if_pos rfl
  rw [withArguments, after?, hafter, Option.isSome_iff_exists]
  constructor
  · rintro ⟨args, rest, h⟩
    obtain ⟨t, ht, hargs⟩ := Option.map_eq_some_iff.1 h
    cases hword : Text.after? name (shielded vs) with
    | none =>
      rw [hword] at ht
      cases ht
    | some u =>
      obtain ⟨ws, hws, rfl⟩ := (after?_shielded hletters vs u).1 hword
      rw [hword] at ht
      dsimp only at ht
      split at ht
      · cases ht
      · obtain rfl := Option.some.inj ht
        cases hread : Arguments.read? (n + 1) takesOption (shielded ws) with
        | none =>
          rw [hread] at hargs
          cases hargs
        | some r =>
          obtain ⟨zs, hzs, -⟩ := (read?_shielded (n + 1) takesOption ws r.2).1 ⟨r.1, hread⟩
          exact ⟨zs, by rw [hws, Option.bind_some, hzs]⟩
  · rintro ⟨zs, h⟩
    obtain ⟨ws, hws, hzs⟩ := Option.bind_eq_some_iff.1 h
    obtain ⟨args, hread⟩ := (read?_shielded (n + 1) takesOption ws (shielded zs)).2 ⟨zs, hzs, rfl⟩
    refine ⟨args, shielded zs, ?_⟩
    rw [(after?_shielded hletters vs (shielded ws)).2 ⟨ws, hws, rfl⟩]
    dsimp only
    rw [head_of_afterGroups hzs, if_neg (by simp), Option.map_some, hread]

/-- What begins with two backslashes is no command. -/
theorem withArguments_backslashes (hne : name ≠ []) (count : Nat) (takesOption : Bool) (s : Text) :
    withArguments name count takesOption none ('\\' :: '\\' :: s) = none := by
  cases name with
  | nil => exact absurd rfl hne
  | cons x name =>
    have hx : x ≠ '\\' := by
      rintro rfl
      cases hletters _ List.mem_cons_self
    rw [withArguments, after?, Text.after?, if_pos rfl, Text.after?, if_neg hx]
    rfl

/-- A command stands somewhere with its arguments just where a row break stands before them. -/
theorem stands_shielded (hne : name ≠ []) (n : Nat) (takesOption : Bool) (us : List Stroke) :
    Stands name (n + 1) takesOption (shielded us) ↔
      ∃ vs, .rowBreak :: vs <:+ us ∧ ((afterWord name vs).bind (afterGroups (n + 1))).isSome = true := by
  constructor
  · rintro ⟨t, args, rest, ht, hr⟩
    induction us with
    | nil =>
      rw [List.suffix_nil.1 ht] at hr
      cases hr
    | cons u us ih =>
      have hrest (ht : t <:+ shielded us) : ∃ vs, .rowBreak :: vs <:+ u :: us ∧ ((afterWord name vs).bind (afterGroups (n + 1))).isSome = true := by
        obtain ⟨vs, hvs, h⟩ := ih ht
        exact ⟨vs, hvs.trans (List.suffix_cons u us), h⟩
      have hchar {c : Char} (hc : c ≠ '\\') (ht : t <:+ c :: shielded us) :
          ∃ vs, .rowBreak :: vs <:+ u :: us ∧ ((afterWord name vs).bind (afterGroups (n + 1))).isSome = true := by
        rcases List.suffix_cons_iff.1 ht with rfl | ht
        · rw [withArguments_char hc] at hr
          cases hr
        · exact hrest ht
      cases u with
      | char c => exact hchar (ne_of_isStrokeChar c.2 (by decide)) ht
      | opening => exact hchar (c := '{') (by decide) ht
      | closing => exact hchar (c := '}') (by decide) ht
      | special x =>
        have hguards : ∀ x ∈ specials, x.2.1 ≠ '\\' := by decide
        exact hchar (hguards x.1 x.2) ht
      | rowBreak =>
        rcases List.suffix_cons_iff.1 ht with rfl | ht
        · cases hr.symm.trans (withArguments_backslashes hletters hne _ takesOption (shielded us))
        · rcases List.suffix_cons_iff.1 ht with rfl | ht
          · exact ⟨us, List.suffix_refl _, (withArguments_shielded hletters n takesOption us).1 ⟨args, rest, hr⟩⟩
          · exact hrest ht
  · rintro ⟨vs, hvs, h⟩
    obtain ⟨args, rest, hr⟩ := (withArguments_shielded hletters n takesOption vs).2 h
    obtain ⟨ws, rfl⟩ := hvs
    refine ⟨_, args, rest, ⟨shielded ws ++ ['\\'], ?_⟩, hr⟩
    simp [shielded, Stroke.guarded]

end Names

/-- Some command stands with its arguments just where a row break stands before its name. -/
theorem exists_stands_iff (us : List Stroke) : (∃ x ∈ commands, Stands x.1 x.2.1 x.2.2 (shielded us)) ↔
    ∃ vs, .rowBreak :: vs <:+ us ∧ beginsCommand vs = true := by
  have hcommands : ∀ x ∈ commands, (∀ c ∈ x.1, isAsciiLetter c = true) ∧ x.1 ≠ [] ∧ x.2.1 - 1 + 1 = x.2.1 := by decide
  have hstands {x : Text × Nat × Bool} (hx : x ∈ commands) : Stands x.1 x.2.1 x.2.2 (shielded us) ↔
      ∃ vs, .rowBreak :: vs <:+ us ∧ ((afterWord x.1 vs).bind (afterGroups x.2.1)).isSome = true := by
    obtain ⟨hletters, hne, hcount⟩ := hcommands x hx
    rw [← hcount]
    exact stands_shielded hletters hne _ _ us
  constructor
  · rintro ⟨x, hx, h⟩
    obtain ⟨vs, hvs, hbegins⟩ := (hstands hx).1 h
    exact ⟨vs, hvs, List.any_eq_true.2 ⟨x, hx, hbegins⟩⟩
  · rintro ⟨vs, hvs, h⟩
    obtain ⟨x, hx, hbegins⟩ := List.any_eq_true.1 h
    exact ⟨x, hx, (hstands hx).2 ⟨vs, hvs, hbegins⟩⟩

end Reading

/-! ## After commands are read -/

section Symbols

variable {us : List Stroke}

/-- The text in which row breaks are replaced. -/
def broken (us : List Stroke) : Text := us.flatMap fun
  | .rowBreak => "<br>"
  | u => u.guarded

theorem forward_rowBreak : Text.Forward rowBreak := fun b b' s => by
  unfold rowBreak
  split <;> rfl

theorem replaceAll_rowBreak (us : List Stroke) : (shielded us).replaceAll rowBreak (fun _ => "<br>") = broken us := by
  induction us with
  | nil => rfl
  | cons u us ih =>
    have hchar {c : Char} (hc : c ≠ '\\') : Text.replaceAll rowBreak (fun _ => "<br>") (c :: shielded us) = c :: broken us := by
      have hnone : rowBreak none (c :: shielded us) = none := by
        unfold rowBreak
        split
        · rename_i he
          exact absurd (List.cons.inj he).1 hc
        · rfl
      rw [forward_rowBreak.replaceAll_cons hnone, ih]
    cases u with
    | char c => exact hchar (ne_of_isStrokeChar c.2 (by decide))
    | opening => exact hchar (c := '{') (by decide)
    | closing => exact hchar (c := '}') (by decide)
    | special x =>
      have hguards : ∀ x ∈ specials, x.2.1 ≠ '\\' := by decide
      exact hchar (hguards x.1 x.2)
    | rowBreak =>
      -- no bracket stands behind the row break, so no spacing is skipped
      have hskip : Text.skipEnclosed '[' ']' (shielded us) = shielded us := by
        have hmem : '[' ∉ shielded us := not_mem_shielded '[' (by decide)
        unfold Text.skipEnclosed
        split
        · rename_i c t h
          refine if_neg fun he => hmem ?_
          rw [h, he]
          exact List.mem_cons_self
        · rename_i h
          exact h.symm
      have hread : rowBreak none ('\\' :: '\\' :: shielded us) = some ((), shielded us) := by rw [rowBreak, hskip]
      have hhit := forward_rowBreak.replaceAll_hit (t := "\\") hread rfl fun _ => "<br>"
      rw [ih] at hhit
      exact hhit

theorem not_mem_broken (x : Char) (hx : (isStrokeChar x || x = '{' || x = '}' || isGuard x || ("<br>" : Text).contains x) = false) :
    x ∉ broken us := by
  simp only [Bool.or_eq_false_iff, decide_eq_false_iff_not] at hx
  obtain ⟨⟨⟨⟨hstroke, hopening⟩, hclosing⟩, hguard⟩, hbreak⟩ := hx
  intro h
  obtain ⟨u, -, hu⟩ := List.mem_flatMap.1 h
  cases u with
  | char c =>
    rw [List.mem_singleton.1 hu, c.2] at hstroke
    cases hstroke
  | opening => exact hopening (List.mem_singleton.1 hu)
  | closing => exact hclosing (List.mem_singleton.1 hu)
  | special y =>
    have hany : isGuard y.1.2.1 = true := List.any_eq_true.2 ⟨y.1, y.2, by simp⟩
    rw [List.mem_singleton.1 hu, hany] at hguard
    cases hguard
  | rowBreak => exact absurd (List.contains_iff_mem.2 hu) (by rw [hbreak]; simp)

theorem replaceSymbols_shielded (us : List Stroke) : replaceSymbols (shielded us) = broken us := by
  have hsymbols := replaceSymbols_eq (replaceAll_rowBreak us) (not_mem_broken '\\' (by decide))
    (misses_literal (x := ':') (by decide) (not_mem_broken ':' (by decide)))
    (misses_literal (x := ',') (by decide) (not_mem_broken ',' (by decide)))
  rw [hsymbols]
  exact replace_eq_self (t := []) (not_mem_broken '~' (by decide)) _

theorem isInternal_of_isStrokeChar {c : Char} (h : isStrokeChar c = true) : isInternal c = false := by
  have hlow (h : c.toNat < 128) : isInternal c = false := by
    have : ¬ 0xE000 ≤ c.toNat := by omega
    simp [isInternal, this]
  simp only [isStrokeChar, Bool.or_eq_true, Bool.and_eq_true, Bool.not_eq_true', decide_eq_true_eq] at h
  rcases h with ((h | h) | rfl) | ⟨-, h⟩
  · simp only [isAsciiLetter, Bool.or_eq_true, Bool.and_eq_true, decide_eq_true_eq] at h
    refine hlow ?_
    rcases h with ⟨-, h⟩ | ⟨-, h⟩
    · exact Nat.lt_of_le_of_lt h (by decide)
    · exact Nat.lt_of_le_of_lt h (by decide)
  · simp only [Char.isDigit, Bool.and_eq_true, decide_eq_true_eq] at h
    exact hlow (Nat.lt_of_le_of_lt h.2 (by decide))
  · decide
  · exact h

theorem restoreSpecials_broken (us : List Stroke) : restoreSpecials (broken us) = rendered us := by
  rw [restoreSpecials, broken, List.flatMap_assoc, rendered]
  refine List.flatMap_congr fun u _ => ?_
  cases u with
  | char c =>
    exact restoreSpecials_eq_self (s := [c.1]) fun x hx => List.mem_singleton.1 hx ▸ isInternal_of_isStrokeChar c.2
  | opening => decide
  | closing => decide
  | special x =>
    have hspecials : ∀ x ∈ specials, [x.2.1].flatMap restoreSpecial = Html.escape [x.1] := by decide
    exact hspecials x.1 x.2
  | rowBreak => decide

theorem opening_not_mem_rendered (us : List Stroke) : Stash.opening ∉ rendered us := by
  intro h
  obtain ⟨u, -, hu⟩ := List.mem_flatMap.1 h
  cases u with
  | char c =>
    have hinternal := isInternal_of_isStrokeChar c.2
    rw [← List.mem_singleton.1 hu] at hinternal
    revert hinternal
    decide
  | opening => exact absurd hu (by decide)
  | closing => exact absurd hu (by decide)
  | special x =>
    have hspecials : ∀ x ∈ specials, Stash.opening ∉ Html.escape [x.1] := by decide
    exact hspecials x.1 x.2 hu
  | rowBreak => exact absurd hu (by decide)

end Symbols

/-- Strokes are read one by one, where no row break stands before a brace or before a command's name with its arguments. -/
theorem format_written (settings : Settings) (engine : Formula.Engine) {us : List Stroke} (h : Separate us) :
    format settings engine (written us) = .ok (rendered us) := by
  have hbare : ∀ x ∈ commands, ¬ Command.Stands x.1 x.2.1 x.2.2 (shielded us) := by
    intro x hx hstands
    obtain ⟨vs, hvs, hbegins⟩ := (exists_stands_iff us).1 ⟨x, hx, hstands⟩
    rw [(h vs hvs).2] at hbegins
    cases hbegins
  have hrewrite (render : Text → Text) : rewrite render (written us) = pure (rendered us) := by
    rw [rewrite, stashFormulas_written, pure_bind, protectSpecials_written h, escape_shielded, typography_shielded]
    dsimp only
    rw [rewriteCommands_bare hbare, pure_bind, replaceSymbols_shielded, restoreSpecials_broken]
  rw [format, hrewrite]
  exact restore_of_not_mem (opening_not_mem_rendered us)

/-- A row break before an escaped brace is separate from it. -/
theorem format_written_escaped :
    format {} failing (written [.rowBreak, .special ⟨('{', Char.ofNat 0xE014, "\x7b"), by decide⟩]) = .ok "<br>\x7b" := by
  refine @format_written {} failing [.rowBreak, .special ⟨('{', Char.ofNat 0xE014, "\x7b"), by decide⟩] fun vs hvs => ?_
  simp only [List.suffix_cons_iff, List.suffix_nil, List.cons.injEq, true_and, reduceCtorEq, false_and, or_false] at hvs
  subst hvs
  exact ⟨rfl, by decide +kernel⟩

/-- The second backslash of a row break is taken for that of an escaped brace. -/
theorem rowBreak_opening_unread : format {} failing (written [.rowBreak, .opening]) = .ok "\\\x7b" ∧
    rendered [.rowBreak, .opening] ≠ "\\\x7b" := by
  refine ⟨?_, by decide⟩
  have hrun : decide (format {} failing (written [.rowBreak, .opening]) = .ok "\\\x7b") = true := by decide +kernel
  exact of_decide_eq_true hrun

end Inline

end Galley
