import Galley.Proofs.Characters
import Galley.Proofs.Citations
import Galley.Proofs.EarlyStages
import Galley.Proofs.Formatting
import Galley.Proofs.LateStages
/-!
# Pseudocode in free text

Work on a text faults in two ways: formatting a text that holds marks of its own, and reading a command of pseudocode
whose caseless form is no lower-case name. A free text holds no mark and none of the letters that differ in the two
forms. So all of it can be formatted (`free_formats`), and so can the algorithms in it (`ends_bodyFragment`).
-/

namespace Galley

/-- No character that opens a mark, and none of the letters that equal an English one in the caseless sense but not in
    lower case: capital I with a dot, i without a dot, and long s. -/
def isFree (c : Char) : Bool :=
  c ≠ Inline.Stash.opening && c.toNat ≠ 304 && c.toNat ≠ 305 && c.toNat ≠ 383

theorem isFree_of_lt {c : Char} (h : c.toNat < 128) : isFree c = true := by
  have hne : c ≠ Inline.Stash.opening := by
    rintro rfl
    revert h
    decide
  simp only [isFree, hne, ne_eq, not_false_eq_true, decide_true, Bool.true_and, Bool.and_eq_true, decide_eq_true_eq]
  omega

abbrev Free (s : Text) : Prop := Within isFree s

namespace Free

variable {s t : Text}

theorem opening_not_mem (h : Free s) : Inline.Stash.opening ∉ s := fun hm => by
  have := h _ hm
  revert this
  decide

theorem ascii (h : s.all (fun c => c.toNat < 128) = true) : Free s :=
  fun c hc => isFree_of_lt (of_decide_eq_true (List.all_eq_true.1 h c hc))

theorem placeholder (h : ∀ c ∈ s, isPlaceholderChar c = true) : Free s := by
  intro c hc
  refine isFree_of_lt ?_
  have hc := h c hc
  simp only [isPlaceholderChar, isCapital, Char.isDigit, Bool.or_eq_true, Bool.and_eq_true, decide_eq_true_eq] at hc
  rcases hc with (rfl | ⟨-, hle⟩) | ⟨-, hle⟩
  · decide
  · exact Nat.lt_of_le_of_lt (show c.toNat ≤ 90 from hle) (by decide)
  · exact Nat.lt_of_le_of_lt (show c.toNat ≤ 57 from hle) (by decide)

/-! ## Letters in both forms -/

/-- A letter in the caseless sense has that form in lower case. -/
theorem lowerChar_eq {c : Char} (hfree : isFree c = true) (h : Pseudocode.isNameLetter c = true) :
    lowerChar c = [foldChar c] := by
  by_cases hk : c.toNat = 8490
  · obtain rfl : c = Char.ofNat 8490 := Char.toNat_inj.1 hk
    decide
  · have hfold : foldChar c = c.toLower := by
      simp only [isFree, Bool.and_eq_true, decide_eq_true_eq] at hfree
      obtain ⟨⟨⟨-, h1⟩, h2⟩, h3⟩ := hfree
      unfold foldChar
      split
      · exact absurd ‹_› h1
      · exact absurd ‹_› h2
      · exact absurd ‹_› h3
      · exact absurd ‹_› hk
      · rfl
    have hlt : c.toNat < 128 := by
      rw [Pseudocode.isNameLetter, hfold] at h
      simp only [isAsciiLetter, Bool.or_eq_true, Bool.and_eq_true, decide_eq_true_eq] at h
      have hle : c.toLower.toNat ≤ 122 := by
        rcases h with ⟨-, h⟩ | ⟨-, h⟩
        · exact h
        · exact Nat.le_trans (show c.toLower.toNat ≤ 90 from h) (by decide)
      unfold Char.toLower at hle
      split at hle
      · rename_i hupper
        have : c.toNat ≤ 90 := hupper.2
        omega
      · omega
    rw [lowerChar, if_pos hlt, hfold]

theorem lower_eq (h : Free s) (hs : ∀ c ∈ s, Pseudocode.isNameLetter c = true) : Text.lower s = s.map foldChar := by
  induction s with
  | nil => rfl
  | cons c s ih =>
    rw [Text.lower, List.flatMap_cons, lowerChar_eq (h c List.mem_cons_self) (hs c List.mem_cons_self), List.map_cons]
    exact congrArg (foldChar c :: ·) (ih (fun x hx => h x (List.mem_cons_of_mem c hx)) fun x hx => hs x (List.mem_cons_of_mem c hx))

theorem lower_takeWhile (h : Free s) : Text.lower (s.takeWhile Pseudocode.isNameLetter) =
    (s.takeWhile Pseudocode.isNameLetter).map foldChar :=
  lower_eq (h.subset (List.takeWhile_prefix _).subset) fun _ hc => List.all_eq_true.1 List.all_takeWhile _ hc

/-- A word that is known in the caseless sense is known in lower case. -/
theorem known_lower {known : Text → Bool} {before : Option Char} {word rest : Text} (h : Free s)
    (hr : Pseudocode.caselessWord known before s = some (word, rest)) :
    known (Text.lower word) = true ∧ rest ⊆ s := by
  unfold Pseudocode.caselessWord at hr
  split at hr
  · rename_i s
    dsimp only at hr
    split at hr
    · rename_i hknown
      cases hr
      rw [lower_takeWhile (h.suffix (List.suffix_cons _ s))]
      exact ⟨hknown, fun x hx => List.mem_cons_of_mem _ (List.mem_of_mem_drop hx)⟩
    · cases hr
  · cases hr

end Free

/-! ## Pseudocode -/

namespace Pseudocode

theorem upToArguments_subset (n : Nat) (s : Text) :
    (∀ a ∈ (upToArguments n s).1, a ⊆ s) ∧ (upToArguments n s).2 ⊆ s := by
  induction n generalizing s with
  | zero => exact ⟨by simp [upToArguments], List.Subset.refl s⟩
  | succ n ih =>
    unfold upToArguments
    split
    · rename_i inside rest hr
      obtain ⟨hall, hrest⟩ := ih rest
      have htail : rest ⊆ s := (Group.read?_rest hr).subset
      refine ⟨fun a ha => ?_, fun x hx => htail (hrest hx)⟩
      rcases List.mem_cons.1 ha with rfl | ha
      · exact (Group.read?_inside hr).subset
      · exact fun x hx => htail (hall a ha hx)
    · exact ⟨by simp, List.Subset.refl s⟩

/-- In a free text every command is known, and its arguments are free. -/
theorem commandReader_ok {s rest : Text} {before : Option Char} {command : Command} (h : Free s)
    (hr : commandReader before s = some (command, rest)) :
    ∃ k args, command = .ok (k, args) ∧ ∀ a ∈ args, Free a := by
  simp only [commandReader, Option.bind_eq_bind, Option.bind_eq_some_iff] at hr
  obtain ⟨⟨word, r⟩, hword, hr⟩ := hr
  obtain ⟨hknown, hsubset⟩ := h.known_lower hword
  obtain ⟨k, hk⟩ := Option.isSome_iff_exists.1 hknown
  simp only [hk] at hr
  cases hr
  refine ⟨k, _, rfl, fun a ha => ?_⟩
  exact h.subset fun x hx => hsubset ((upToArguments_subset _ r).1 a ha hx)

end Pseudocode

namespace Extract.Algorithm

theorem call_subset {before : Option Char} {s rest name args : Text} (h : call before s = some ((name, args), rest)) :
    name ⊆ s ∧ args ⊆ s := by
  simp only [call, Option.bind_eq_bind, Option.bind_eq_some_iff] at h
  obtain ⟨s₁, h₁, s₂, h₂, ⟨n, s₃⟩, h₃, s₄, h₄, ⟨a, s₅⟩, h₅, h⟩ := h
  cases h
  have hs₁ : s₁ <:+ s := by
    cases hc : Text.after? "\\Call" s with
    | some r =>
      rw [hc] at h₁
      cases h₁
      exact Text.suffix_after? hc
    | none =>
      rw [hc] at h₁
      exact Text.suffix_after? h₁
  have hs₂ : s₂ ⊆ s := fun x hx =>
    hs₁.subset ((List.dropWhile_suffix _).subset ((Text.suffix_after? h₂).subset hx))
  have hs₄ : s₄ ⊆ s := fun x hx =>
    hs₂ ((Text.suffix_closedBy h₃).subset ((List.dropWhile_suffix _).subset ((Text.suffix_after? h₄).subset hx)))
  refine ⟨fun x hx => hs₂ ?_, fun x hx => hs₄ ?_⟩
  · rw [Text.closedBy_eq h₃]
    simp [hx]
  · rw [Text.closedBy_eq h₅]
    simp [hx]

/-- In a free text every logical word is known. -/
theorem expand_ok {s : Text} (h : Free s) : ∃ t, expand s = .ok t ∧ Free t := by
  have hword {word rest : Text} {before : Option Char} {t : Text} (ht : t <:+ s)
      (hr : inlineWord before t = some (word, rest)) : inlineWords.contains (Text.lower word) = true := by
    simp only [inlineWord, Option.bind_eq_bind, Option.bind_eq_some_iff] at hr
    obtain ⟨⟨w, r⟩, hw, hr⟩ := hr
    cases hr
    exact (Free.known_lower (h.suffix ht) hw).1
  have hexpanded : Free (s.replaceAll inlineWord fun word => "\\textbf\x7b" ++ Text.lower word ++ "\x7d ") := by
    refine h.replaceAll fun word before t rest ht hr => ?_
    have hascii : ∀ w ∈ inlineWords, w.all (fun c => c.toNat < 128) = true := by decide
    refine ((Free.ascii (by decide)).append (Free.ascii (hascii _ ?_))).append (Free.ascii (by decide))
    simpa using hword ht hr
  rw [expand, Text.replaceAllM_ok fun word before t rest ht hr => if_pos (hword ht hr)]
  refine ⟨_, rfl, hexpanded.replaceAll fun parts before t rest ht hr => ?_⟩
  obtain ⟨name, args⟩ := parts
  obtain ⟨hname, hargs⟩ := call_subset hr
  have ht := hexpanded.suffix ht
  refine ((((Free.ascii (by decide)).append (ht.subset hname)).append (Free.ascii (by decide))).append
    (ht.subset hargs)).append (Free.ascii (by decide))

end Extract.Algorithm

/-! ## Fragments -/

/-- What the converter returns, once it holds only MathML, has no mark in it, and neither has its message when it
    fails. -/
def Kit.Unmarked (kit : Kit) : Prop :=
  ∀ formula display, match kit.engine formula display with
    | .ok mathml => Inline.Stash.opening ∉ Formula.sanitize mathml
    | .error message => Inline.Stash.opening ∉ message

theorem Kit.Unmarked.converts {kit : Kit} (h : kit.Unmarked) : Inline.Converts (fun c => c ≠ Inline.Stash.opening) kit.engine := by
  intro formula display
  have hresult := h formula display
  cases he : kit.engine formula display with
  | ok mathml =>
    rw [he] at hresult
    exact .of_not_mem hresult
  | error message =>
    rw [he] at hresult
    exact .of_not_mem hresult

section Stages

variable {kit : Kit} (hkit : kit.Unmarked) {s : Text}

include hkit

theorem unmarked_formats : Formats kit fun s => Inline.Stash.opening ∉ s where
  part h ht := fun hm => h (ht.subset hm)
  inline h := by
    refine (Bench.ends_notifyAll _).bind fun _ _ => ?_
    obtain ⟨t, ht⟩ := Inline.format_ok Inline.alphabet_unmarked hkit.converts (.of_not_mem h)
    rw [ht]
    exact .pure trivial

theorem free_formats : Formats kit Free where
  part h ht := h.part ht
  inline h := (unmarked_formats hkit).inline h.opening_not_mem

namespace Extract.Algorithm

theorem ends_format (hs : Free s) : Bench.Ends (format kit s) fun _ => True := by
  obtain ⟨t, ht, hfree⟩ := expand_ok hs
  rw [format, ht]
  exact (free_formats hkit).inline (hfree.part (Text.strip_part t))

omit hkit in
theorem cutAtComment_subset : (cutAtComment s).1 ⊆ s ∧ ∀ c ∈ (cutAtComment s).2, c ⊆ s := by
  unfold cutAtComment
  split
  · exact ⟨List.Subset.refl s, by simp⟩
  · rename_i f hf
    obtain ⟨b, t, ht, hr⟩ := Text.findFrom_eq_some hf
    have hafter : f.after ⊆ s := ((Command.suffix_readerOf hr).trans ht).subset
    split
    · rename_i inside rest hread
      refine ⟨List.append_subset.2 ⟨(Text.before_prefix hf).subset, fun x hx => hafter ((Group.read?_rest hread).subset hx)⟩, ?_⟩
      intro c hc
      cases hc
      exact fun x hx => hafter ((Group.read?_inside hread).subset ((Text.strip_part inside).subset hx))
    · exact ⟨List.Subset.refl s, by simp⟩

/-- A line with its comment. -/
theorem ends_commented {comment : Option Text} (hcomment : ∀ c ∈ comment, Free c) (line : Text) :
    Bench.Ends (match comment with
      | some c => do
        let c ← format kit c
        pure (Text.strip (line ++ " <span class=\"latex-alg-comment\">&#9655; " ++ c ++ "</span>"))
      | none => pure (Text.strip line)) fun _ => True := by
  cases comment with
  | none => exact .pure trivial
  | some c => exact (ends_format hkit (hcomment c rfl)).bind fun _ _ => .pure trivial

/-- A line from its parameters on. -/
theorem ends_parameters (k : Pseudocode.Keyword) {args : List Text} (hargs : ∀ a ∈ args, Free a) {comment : Option Text}
    (hcomment : ∀ c ∈ comment, Free c) (rest cond : Text) :
    Bench.Ends (do
      let params ← match k, args with
        | .function, _ :: p :: _ => format kit (Text.strip p)
        | .procedure, _ :: p :: _ => format kit (Text.strip p)
        | _, _ => pure []
      let line := lineHead k rest cond params
      let line := if k.isStatement || rest.isEmpty then line else line ++ " " ++ rest
      match comment with
      | some c => do
        let c ← format kit c
        pure (Text.strip (line ++ " <span class=\"latex-alg-comment\">&#9655; " ++ c ++ "</span>"))
      | none => pure (Text.strip line)) fun _ => True := by
  have hformat {t : Text} (ht : Free t) : Bench.Ends (format kit (Text.strip t)) fun _ => True :=
    ends_format hkit (ht.part (Text.strip_part t))
  dsimp only
  split
  · exact (hformat (hargs _ (by simp))).bind fun _ _ => ends_commented hkit hcomment _
  · exact (hformat (hargs _ (by simp))).bind fun _ _ => ends_commented hkit hcomment _
  · exact ends_commented hkit hcomment _

theorem ends_lineContent (k : Pseudocode.Keyword) {args : List Text} (hargs : ∀ a ∈ args, Free a) (hs : Free s) :
    Bench.Ends (lineContent kit k args s) fun _ => True := by
  obtain ⟨htext, hcomment⟩ := @cutAtComment_subset s
  unfold lineContent
  generalize cutAtComment s = p at htext hcomment
  obtain ⟨text, comment⟩ := p
  have hcomment : ∀ c ∈ comment, Free c := fun c hc => hs.subset (hcomment c hc)
  have hformat {t : Text} (ht : Free t) : Bench.Ends (format kit (Text.strip t)) fun _ => True :=
    ends_format hkit (ht.part (Text.strip_part t))
  refine (hformat (hs.subset htext)).bind fun rest _ => ?_
  dsimp only
  split
  · exact (hformat (hargs _ List.mem_cons_self)).bind fun cond _ => ends_parameters hkit k hargs hcomment rest cond
  · exact ends_parameters hkit k hargs hcomment rest []

theorem ends_lines (level : Nat) {commands : List (Pseudocode.Command × Text)}
    (h : ∀ c ∈ commands, (∃ k args, c.1 = .ok (k, args) ∧ ∀ a ∈ args, Free a) ∧ Free c.2) :
    Bench.Ends (lines kit level commands) fun _ => True := by
  induction commands generalizing level with
  | nil => exact .pure trivial
  | cons c commands ih =>
    obtain ⟨⟨k, args, hc, hargs⟩, hs⟩ := h c List.mem_cons_self
    obtain ⟨command, s⟩ := c
    obtain rfl : command = .ok (k, args) := hc
    simp only [lines]
    refine (ends_lineContent hkit k hargs hs).bind fun content _ => ?_
    exact (ih _ fun c hc => h c (List.mem_cons_of_mem _ hc)).bind fun _ _ => .pure trivial

omit hkit in
theorem dropOption_suffix : dropOption s <:+ s := by
  unfold dropOption
  split
  · exact Group.read?_rest ‹_›
  · exact List.suffix_refl s

theorem ends_bodyFragment (hs : Free s) : Bench.Ends (bodyFragment kit s) fun _ => True := by
  have hbody : Free (Text.removeAll Pseudocode.stateBeforeReturn (dropOption s)) :=
    Within.removeAll (hs.suffix dropOption_suffix)
  refine (ends_lines hkit 0 fun c hc => ⟨?_, ?_⟩).bind fun _ _ => .pure trivial
  · obtain ⟨source, hsource⟩ := Text.mem_sections hc
    rcases Text.mem_cut hsource with ⟨x, -, hx⟩ | ⟨a, before, t, rest, ha, ht, hr⟩
    · cases hx
    · obtain ⟨rfl, -⟩ := Piece.hit.inj ha
      exact Pseudocode.commandReader_ok (hbody.suffix ht) hr
  · have hpart := (Text.sections_part _).2 c hc
    rw [Text.sources_cut] at hpart
    exact hbody.part hpart

omit hkit in
theorem takeCaption_subset : (takeCaption s).2 ⊆ s ∧ ∀ c ∈ (takeCaption s).1, c ⊆ s := by
  have hgetD {o : Option (Option Text × Text)} (ho : ∀ p, o = some p → p.2 ⊆ s ∧ ∀ c ∈ p.1, c ⊆ s) :
      (o.getD (none, s)).2 ⊆ s ∧ ∀ c ∈ (o.getD (none, s)).1, c ⊆ s := by
    cases o with
    | none => exact ⟨List.Subset.refl s, by simp⟩
    | some p => exact ho p rfl
  unfold takeCaption
  refine hgetD fun p h => ?_
  simp only [Option.bind_eq_bind, Option.bind_eq_some_iff] at h
  obtain ⟨f, hf, ⟨args, rest⟩, ha, h⟩ := h
  cases h
  obtain ⟨b, t, ht, hr⟩ := Text.findFrom_eq_some hf
  obtain ⟨r, hr, he⟩ := Option.map_eq_some_iff.1 hr
  have hafter : f.after ⊆ s := by
    cases he
    exact ((Command.suffix_starred? hr).trans ht).subset
  refine ⟨List.append_subset.2 ⟨(Text.before_prefix hf).subset, fun x hx => hafter ((Arguments.read?_parts ha).1.subset hx)⟩, ?_⟩
  intro c hc
  cases hc
  refine Arguments.headD_mem (P := fun t => t ⊆ s) (List.nil_subset s) fun u hu x hx => ?_
  exact hafter ((Arguments.first_part ha hu).subset hx)

theorem ends_floatFragment (hs : Free s) : Bench.Ends (floatFragment kit s) fun _ => True := by
  have hformats := free_formats hkit
  obtain ⟨hbody, hcaption⟩ := @takeCaption_subset s
  unfold floatFragment
  generalize takeCaption s = p at hbody hcaption
  obtain ⟨caption, body⟩ := p
  have hshown : Free (dropOption (body.removeAll (Command.simpleArgument "label"))) :=
    Within.suffix (Within.removeAll (hs.subset hbody)) dropOption_suffix
  have hparagraphs := hformats.paragraphs hshown
  cases caption with
  | none =>
    simp only [pure_bind]
    exact hparagraphs.bind fun _ _ => .pure trivial
  | some c =>
    have hc : Free c := hs.subset (hcaption c rfl)
    dsimp only
    refine (Bench.ends_nextAlgorithm).bind fun n _ => (hformats.inline (hc.part (Text.strip_part c))).bind fun t _ => ?_
    rw [pure_bind]
    exact hparagraphs.bind fun _ _ => .pure trivial

end Extract.Algorithm

end Stages

end Galley
