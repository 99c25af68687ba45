import Galley.Proofs.SafeSubset
/-!
# Option lists read back

A list of options is read character by character; how deep the place is, `Depth`, decides which commas separate. An
option is one part of such a reading, and of the options of a list all but the last end where they began, at the top
(`separate_optionList`). Exactly the lists of this kind are read back when they are written in brackets
(`optionList_joinOptions_iff`), so reading what was read and written again changes nothing, whatever the text was.

The options added to a picture end at the top. The author's last option need not, and what is written behind it then
becomes a part of it (`plan_options_read_back`).
-/

namespace Galley.Diagram

/-! ## Depth -/

/-- How deep a place of a list of options is: how many more delimiters have opened than closed in front of it, and
    whether it is in double quotes. -/
structure Depth where
  opened : Int
  quoted : Bool
  deriving DecidableEq

namespace Depth

/-- Where a comma separates. -/
def top : Depth := ⟨0, false⟩

/-- Behind a character. -/
def next (d : Depth) (c : Char) : Depth :=
  if c = '"' then { d with quoted := !d.quoted }
  else if d.quoted then d
  else if c = '{' || c = '[' then { d with opened := d.opened + 1 }
  else if c = '}' || c = ']' then { d with opened := d.opened - 1 }
  else d

/-- Behind a text. -/
def after (d : Depth) (s : Text) : Depth := s.foldl next d

/-- The parts of a text that begins at this depth. -/
def parts (d : Depth) (s : Text) : List Text := partsFrom d.opened d.quoted s

/-- No comma of the text separates. -/
def Whole (d : Depth) (s : Text) : Prop := d.parts s = [s]

instance (d : Depth) (s : Text) : Decidable (d.Whole s) := inferInstanceAs (Decidable (_ = _))

variable {d e : Depth} {c : Char} {s t : Text}

theorem parts_cons (d : Depth) (c : Char) (s : Text) :
    d.parts (c :: s) = if c = ',' ∧ d = top then [] :: top.parts s else keep c ((d.next c).parts s) := by
  obtain ⟨n, q⟩ := d
  by_cases hc : c = ','
  · subst hc
    -- a comma leaves the depth as it is, and separates at the top only
    by_cases htop : (⟨n, q⟩ : Depth) = top
    · cases htop
      rfl
    · cases q <;> simp_all [parts, partsFrom, next, top]
  · simp only [parts, partsFrom, next, hc]
    grind

theorem keep_ne_nil (c : Char) (parts : List Text) : keep c parts ≠ [] := by
  cases parts with
  | nil => exact List.cons_ne_nil _ _
  | cons part parts => exact List.cons_ne_nil _ _

theorem keep_eq_singleton {parts : List Text} (h : parts ≠ []) : keep c parts = [c :: s] ↔ parts = [s] := by
  cases parts with
  | nil => contradiction
  | cons part parts => simp [keep]

theorem parts_ne_nil (d : Depth) (s : Text) : d.parts s ≠ [] := by
  cases s with
  | nil => exact List.cons_ne_nil _ _
  | cons c s =>
    rw [parts_cons]
    split
    · exact List.cons_ne_nil _ _
    · exact keep_ne_nil _ _

theorem whole_nil (d : Depth) : d.Whole [] := rfl

theorem whole_cons : d.Whole (c :: s) ↔ ¬(c = ',' ∧ d = top) ∧ (d.next c).Whole s := by
  rw [Whole, parts_cons]
  split
  · rename_i h
    simp [h]
  · rename_i h
    rw [keep_eq_singleton (parts_ne_nil _ s)]
    simp [h, Whole]

@[simp]
theorem after_cons (d : Depth) (c : Char) (s : Text) : d.after (c :: s) = (d.next c).after s := rfl

theorem after_append (d : Depth) (s t : Text) : d.after (s ++ t) = (d.after s).after t := List.foldl_append

theorem whole_append : d.Whole (s ++ t) ↔ d.Whole s ∧ (d.after s).Whole t := by
  induction s generalizing d with
  | nil => simp [whole_nil, after]
  | cons c s ih => rw [List.cons_append, whole_cons, whole_cons, ih, and_assoc, after_cons]

/-- A whole text is read as a piece of the part that is being read. -/
theorem Whole.parts_append (h : d.Whole s) {part : Text} {more : List Text} (ht : (d.after s).parts t = part :: more) :
    d.parts (s ++ t) = (s ++ part) :: more := by
  induction s generalizing d with
  | nil => exact ht
  | cons c s ih =>
    obtain ⟨hc, hs⟩ := whole_cons.1 h
    rw [List.cons_append, parts_cons, if_neg hc, ih hs ht]
    rfl

/-! ## Characters that leave the depth -/

/-- What opens, closes and quotes. -/
def isMark (c : Char) : Bool := c ∈ ['"', '{', '[', '}', ']']

theorem next_eq (h : isMark c = false) : d.next c = d := by
  simp_all [isMark, next]

theorem after_eq (h : ∀ c ∈ s, isMark c = false) : d.after s = d := by
  induction s with
  | nil => rfl
  | cons c s ih =>
    obtain ⟨hc, hs⟩ := List.forall_mem_cons.1 h
    rw [after_cons, next_eq hc, ih hs]

theorem whole_of_forall (h : ∀ c ∈ s, isMark c = false ∧ c ≠ ',') : d.Whole s := by
  induction s with
  | nil => exact whole_nil d
  | cons c s ih =>
    obtain ⟨hc, hs⟩ := List.forall_mem_cons.1 h
    rw [whole_cons, next_eq hc.1]
    exact ⟨fun hcomma => hc.2 hcomma.1, ih hs⟩

theorem isMark_of_isBlank (h : isBlank c = true) : isMark c = false := by
  have hmarks : ∀ x ∈ ['"', '{', '[', '}', ']'], isBlank x = false := by decide
  by_contra hmark
  rw [Bool.not_eq_false, isMark, decide_eq_true_iff] at hmark
  rw [hmarks c hmark] at h
  cases h

theorem after_strip (d : Depth) (s : Text) : d.after (Text.strip s) = d.after s := by
  obtain ⟨lead, trail, hs, hlead, htrail⟩ := Text.exists_strip s
  generalize Text.strip s = core at hs ⊢
  rw [hs, after_append, after_append, after_eq fun c hc => isMark_of_isBlank (hlead c hc),
    after_eq fun c hc => isMark_of_isBlank (htrail c hc)]

theorem Whole.strip (h : d.Whole s) : d.Whole (Text.strip s) := by
  obtain ⟨lead, trail, hs, hlead, -⟩ := Text.exists_strip s
  generalize Text.strip s = core at hs ⊢
  rw [hs, whole_append, whole_append, after_eq fun c hc => isMark_of_isBlank (hlead c hc)] at h
  exact h.1.2

/-! ## The parts of a text -/

/-- Parts between commas that separate, read from one depth to another: each is whole, and one that another follows
    ends at the top. -/
inductive Reads : Depth → List Text → Depth → Prop
  | last {d : Depth} {p : Text} (hp : d.Whole p) : Reads d [p] (d.after p)
  | cons {d e : Depth} {p : Text} {ps : List Text} (hp : d.Whole p) (htop : d.after p = top) (hps : Reads top ps e) :
      Reads d (p :: ps) e

theorem Reads.keep {ps : List Text} (hc : ¬(c = ',' ∧ d = top)) (h : Reads (d.next c) ps e) : Reads d (keep c ps) e := by
  cases h with
  | last hp => exact .last (whole_cons.2 ⟨hc, hp⟩)
  | cons hp htop hps => exact .cons (whole_cons.2 ⟨hc, hp⟩) htop hps

theorem reads_parts (d : Depth) (s : Text) : Reads d (d.parts s) (d.after s) := by
  induction s generalizing d with
  | nil => exact .last (whole_nil d)
  | cons c s ih =>
    rw [parts_cons, after_cons]
    split
    · rename_i h
      obtain ⟨rfl, rfl⟩ := h
      exact .cons (whole_nil top) rfl (ih top)
    · rename_i h
      exact (ih (d.next c)).keep h

end Depth

open Depth

/-! ## Options -/

/-- One option: some text, without white space around it, of which no comma separates. -/
structure IsOption (o : Text) : Prop where
  ne_nil : o ≠ []
  strip_eq : Text.strip o = o
  whole : top.Whole o

/-- Outside quotes as many delimiters open in the text as close, and its quotes come in pairs. -/
def Closed (o : Text) : Prop := top.after o = top

/-- Options of which each is read apart from those behind it; nothing stands behind the last one. -/
structure Separate (os : List Text) : Prop where
  options : ∀ o ∈ os, IsOption o
  closed : ∀ o ∈ os.dropLast, Closed o

variable {o s : Text} {os parts : List Text} {d e : Depth}

instance (o : Text) : Decidable (IsOption o) :=
  decidable_of_iff (o ≠ [] ∧ Text.strip o = o ∧ top.Whole o)
    ⟨fun h => ⟨h.1, h.2.1, h.2.2⟩, fun h => ⟨h.ne_nil, h.strip_eq, h.whole⟩⟩

instance (o : Text) : Decidable (Closed o) := inferInstanceAs (Decidable (_ = _))

theorem isOption_strip (h : top.Whole s) (hne : Text.strip s ≠ []) : IsOption (Text.strip s) :=
  ⟨hne, (Text.stripped_strip s).strip_eq, h.strip⟩

theorem closed_strip_iff : Closed (Text.strip s) ↔ Closed s := by rw [Closed, after_strip, Closed]

theorem separate_nil : Separate [] := ⟨by simp, by simp⟩

theorem IsOption.separate (h : IsOption o) : Separate [o] := ⟨by simpa using h, by simp⟩

theorem Separate.cons (ho : IsOption o) (hc : Closed o) (h : Separate os) : Separate (o :: os) := by
  refine ⟨List.forall_mem_cons.2 ⟨ho, h.options⟩, ?_⟩
  cases os with
  | nil => simp
  | cons u os => exact List.forall_mem_cons.2 ⟨hc, h.closed⟩

theorem Separate.tail (h : Separate (o :: os)) : Separate os := by
  refine ⟨fun u hu => h.options u (List.mem_cons_of_mem o hu), fun u hu => h.closed u ?_⟩
  cases os with
  | nil => cases hu
  | cons v os => exact List.mem_cons_of_mem o hu

/-- The options that parts are, without the white space around them; empty ones do not count. -/
def trimmed (parts : List Text) : List Text := (parts.map Text.strip).filter (!·.isEmpty)

theorem trimmed_cons (p : Text) (ps : List Text) :
    trimmed (p :: ps) = if Text.strip p = [] then trimmed ps else Text.strip p :: trimmed ps := by
  rw [trimmed, List.map_cons, List.filter_cons]
  by_cases h : Text.strip p = [] <;> simp [h, trimmed]

theorem Depth.Reads.separate (h : Reads d parts e) (hd : d = top) : Separate (trimmed parts) := by
  -- the depth where a part begins varies in the induction, though all that follow the first begin at the top
  induction h with
  | @last d p hp =>
    subst hd
    rw [trimmed_cons]
    split
    · exact separate_nil
    · rename_i hne
      exact (isOption_strip hp hne).separate
  | @cons d e p ps hp htop hps ih =>
    subst hd
    rw [trimmed_cons]
    split
    · exact ih rfl
    · rename_i hne
      exact (ih rfl).cons (isOption_strip hp hne) (closed_strip_iff.2 htop)

theorem separate_optionList (s : Text) : Separate (optionList s) := (reads_parts top _).separate rfl

example : optionList "[x=1cm,, every node/.style=\x7bdraw, red\x7d, label=\"a,b]" =
    texts ["x=1cm", "every node/.style=\x7bdraw, red\x7d", "label=\"a,b"] := by decide

/-! ## Options read back -/

theorem trimmed_blank (s : Text) : trimmed (top.parts (' ' :: s)) = trimmed (top.parts s) := by
  rw [parts_cons, if_neg (by decide), next_eq (by decide)]
  cases hparts : top.parts s with
  | nil => exact absurd hparts (parts_ne_nil top s)
  | cons p ps => rw [keep, trimmed_cons, trimmed_cons, Text.strip_cons_of_isBlank (by decide)]

theorem IsOption.trimmed_eq (h : IsOption o) : trimmed (top.parts o) = [o] := by
  rw [h.whole, trimmed_cons, h.strip_eq, if_neg h.ne_nil]
  rfl

theorem IsOption.trimmed_append (h : IsOption o) (hc : Closed o) (t : Text) :
    trimmed (top.parts (o ++ ',' :: ' ' :: t)) = o :: trimmed (top.parts t) := by
  have hcomma : (top.after o).parts (',' :: ' ' :: t) = [] :: top.parts (' ' :: t) := by
    rw [hc, parts_cons, if_pos ⟨rfl, rfl⟩]
  rw [h.whole.parts_append hcomma, List.append_nil, trimmed_cons, h.strip_eq, if_neg h.ne_nil, trimmed_blank]

theorem Separate.trimmed_joinWith (h : Separate os) : trimmed (top.parts (Text.joinWith ", " os)) = os := by
  induction os with
  | nil => rfl
  | cons o os ih =>
    have ho := h.options o List.mem_cons_self
    cases os with
    | nil => exact ho.trimmed_eq
    | cons u os =>
      have hjoin : Text.joinWith ", " (o :: u :: os) = o ++ ',' :: ' ' :: Text.joinWith ", " (u :: os) :=
        List.append_assoc _ _ _
      rw [hjoin, ho.trimmed_append (h.closed o List.mem_cons_self), ih h.tail]

/-- The brackets that options are written in are taken off again. -/
theorem optionList_joinOptions (os : List Text) :
    optionList (joinOptions os) = trimmed (top.parts (Text.joinWith ", " os)) := by
  have hstrip : Text.strip (joinOptions os) = joinOptions os :=
    (Text.Stripped.of_ends (a := '[') (b := ']') rfl List.getLast?_concat (by decide)).strip_eq
  have hinner : unbracket (joinOptions os) = Text.joinWith ", " os := by simp [joinOptions, unbracket]
  rw [optionList, hstrip, hinner]
  rfl

/-- Exactly the options that are read apart are read back from where they are written. -/
theorem optionList_joinOptions_iff : optionList (joinOptions os) = os ↔ Separate os := by
  constructor
  · intro h
    -- what is read is of this kind whatever it was read from
    rw [← h]
    exact separate_optionList _
  · intro h
    rw [optionList_joinOptions, h.trimmed_joinWith]

/-! ## Texts that end at the top -/

theorem Depth.Reads.closed_iff (h : Reads d parts e) (hd : d = top) : e = top ↔ ∀ p ∈ parts, Closed p := by
  induction h with
  | last hp => simp [hd, Closed]
  | cons hp htop hps ih =>
    subst hd
    simp [ih rfl, Closed, htop]

theorem closed_trimmed_iff : (∀ o ∈ trimmed parts, Closed o) ↔ ∀ p ∈ parts, Closed p := by
  induction parts with
  | nil => rfl
  | cons p ps ih =>
    rw [trimmed_cons, List.forall_mem_cons, ← ih, ← closed_strip_iff (s := p)]
    split
    · rename_i hempty
      rw [hempty]
      exact (and_iff_right rfl).symm
    · exact List.forall_mem_cons

theorem closed_optionList_iff (s : Text) : (∀ o ∈ optionList s, Closed o) ↔ Closed (unbracket (Text.strip s)) :=
  closed_trimmed_iff.trans ((reads_parts top _).closed_iff rfl).symm

/-! ## The added options -/

/-- An option that what is written behind it leaves as it is. -/
structure Settled (o : Text) : Prop where
  option : IsOption o
  closed : Closed o

instance (o : Text) : Decidable (Settled o) :=
  decidable_of_iff (IsOption o ∧ Closed o) ⟨fun h => ⟨h.1, h.2⟩, fun h => ⟨h.option, h.closed⟩⟩

/-- Neither white space nor anything that reading options goes by. -/
def isFree (c : Char) : Bool := !isMark c && c ≠ ',' && !isBlank c

theorem isFree_iff {c : Char} : isFree c = true ↔ (isMark c = false ∧ c ≠ ',') ∧ isBlank c = false := by simp [isFree]

theorem isFree_of_isNumberChar {c : Char} (h : Decimal.isNumberChar c = true) : isFree c = true := by
  rw [Decimal.isNumberChar, Bool.or_eq_true, decide_eq_true_iff] at h
  rcases h with h | h
  · have hblank : isBlank c = false := Bool.eq_false_iff.2 fun hb => by
      have htoken := Block.not_isTokenChar_of_isBlank hb
      rw [Block.isTokenChar, h, Bool.or_true] at htoken
      cases htoken
    have hne {x : Char} (hx : x.isDigit = false) : c ≠ x := by
      rintro rfl
      rw [h] at hx
      cases hx
    rw [isFree_iff, isMark, decide_eq_false_iff_not]
    simp [hblank, hne]
  · revert h
    revert c
    decide

theorem Settled.append {a w : Text} (ha : Settled a) (hw : ∀ c ∈ w, isFree c = true) : Settled (a ++ w) := by
  have hfree := fun c hc => isFree_iff.1 (hw c hc)
  have hstripped : Text.Stripped (a ++ w) :=
    (ha.option.strip_eq ▸ Text.stripped_strip a).append ha.option.ne_nil fun c hc => (hfree c hc).2
  refine ⟨⟨by simp [ha.option.ne_nil], hstripped.strip_eq, ?_⟩, ?_⟩
  · exact whole_append.2 ⟨ha.option.whole, whole_of_forall fun c hc => (hfree c hc).1⟩
  · rw [Closed, after_append, ha.closed, after_eq fun c hc => (hfree c hc).1.1]

theorem settled_short {a : Text} (ha : Settled a) (x : Float) : Settled (a ++ short x) :=
  ha.append fun _ hc => isFree_of_isNumberChar (Decimal.isNumberChar_general hc)

theorem settled_fixed {a : Text} (ha : Settled a) (places : Nat) (x : Float) : Settled (a ++ Decimal.fixed places x) :=
  ha.append fun _ hc => isFree_of_isNumberChar (Decimal.isNumberChar_fixed hc)

theorem Settled.centimetres {o : Text} (h : Settled o) : Settled (o ++ "cm") := h.append (by decide)

theorem settled_distanceOption (cm : Float) : Settled (distanceOption cm) := (settled_short (by decide) cm).centimetres

theorem settled_transformShape : Settled transformShape := by decide

theorem settled_smallFont : Settled smallFont := by decide

theorem settled_given {condition : Bool} (h : ∀ o ∈ os, Settled o) : ∀ o ∈ given condition os, Settled o := by
  cases condition with
  | false => simp [given]
  | true => exact h

theorem settled_given_one {condition : Bool} (h : Settled o) : ∀ u ∈ given condition [o], Settled u :=
  settled_given (List.forall_mem_singleton.2 h)

theorem settled_unitOptions (places : Nat) (x y : Float) : ∀ o ∈ unitOptions places x y, Settled o :=
  List.forall_mem_cons.2 ⟨(settled_fixed (by decide) places x).centimetres,
    List.forall_mem_singleton.2 (settled_fixed (by decide) places y).centimetres⟩

variable (c : Calibration) (signals : Signals) (own : List Text)

theorem settled_compactOptions : ∀ o ∈ compactOptions c signals own, Settled o := by
  simp only [compactOptions, List.forall_mem_append]
  exact ⟨⟨settled_given_one (settled_short (by decide) _), settled_given_one settled_transformShape⟩,
    settled_given_one (settled_distanceOption _)⟩

theorem settled_mediumOptions : ∀ o ∈ mediumOptions c signals own, Settled o := by
  simp only [mediumOptions, List.forall_mem_append]
  exact ⟨⟨settled_given_one (settled_short (by decide) _), settled_given_one settled_transformShape⟩,
    settled_given_one (settled_distanceOption _)⟩

theorem settled_wideOptions : ∀ o ∈ wideOptions c signals own, Settled o := by
  simp only [wideOptions, List.forall_mem_append]
  exact ⟨settled_given_one (settled_fixed (by decide) _ _), settled_given_one settled_transformShape⟩

theorem settled_flatOptions : ∀ o ∈ (flatOptions c signals own).2, Settled o := by
  simp only [flatOptions, List.forall_mem_append]
  exact ⟨⟨settled_unitOptions _ _ _, by decide⟩, settled_given_one settled_smallFont⟩

theorem settled_largeOptions : ∀ o ∈ (largeOptions c signals own).2, Settled o := by
  simp only [largeOptions, List.forall_mem_append]
  exact ⟨⟨⟨settled_unitOptions _ _ _, settled_given_one settled_smallFont⟩, settled_given_one (settled_distanceOption _)⟩,
    settled_given_one (by decide)⟩

/-- What is added for a class ends at the top. -/
theorem settled_intentOptions (intent : Intent) : ∀ o ∈ (intentOptions c intent signals own).2, Settled o := by
  cases intent with
  | compact => exact settled_compactOptions c signals own
  | medium => exact settled_mediumOptions c signals own
  | large => exact settled_largeOptions c signals own
  | wide => exact settled_wideOptions c signals own
  | flat => exact settled_flatOptions c signals own

theorem without_subset (own keys : List Text) : without own keys ⊆ own := List.filter_subset_self _

/-- No author's option is changed: it is kept or left out. -/
theorem kept_subset (intent : Intent) : (intentOptions c intent signals own).1 ⊆ own := by
  cases intent with
  | compact => exact List.Subset.refl own
  | medium => exact List.Subset.refl own
  | wide => exact List.Subset.refl own
  | flat => exact without_subset own _
  | large =>
    have hunits := without_subset own [['x'], ['y']]
    have hkept (tooSmall : Bool) :
        (if tooSmall then without (without own [['x'], ['y']]) ["node distance"] else without own [['x'], ['y']]) ⊆ own := by
      cases tooSmall with
      | false => exact hunits
      | true => exact List.Subset.trans (without_subset _ _) hunits
    exact hkept _

theorem mem_synthesize {intent : Intent} (h : o ∈ synthesize c intent signals own) : o ∈ own ∨ Settled o := by
  simp only [synthesize, List.mem_append] at h
  rcases h with (h | h) | h
  · exact .inl (kept_subset c signals own intent h)
  · exact .inr (settled_intentOptions c signals own intent o h)
  · have hunits := List.forall_mem_cons.2 ⟨(settled_short (a := "x=") (by decide) c.textHeavyXCm).centimetres,
      List.forall_mem_singleton.2 (settled_short (a := "y=") (by decide) c.textHeavyYCm).centimetres⟩
    exact .inr (settled_given hunits o h)

/-! ## The options of a plan -/

theorem mem_dropLast_or_mem_getLast? (h : o ∈ os) : o ∈ os.dropLast ∨ o ∈ os.getLast? := by
  have hne := List.ne_nil_of_mem h
  rw [← List.dropLast_append_getLast hne, List.mem_append, List.mem_singleton] at h
  rcases h with h | h
  · exact .inl h
  · rw [h]
    exact .inr (List.getLast?_eq_some_getLast hne)

/-- Only the author's last option may stay open, and then nothing may stand behind it. -/
theorem separate_synthesize_iff (intent : Intent) (s : Text) :
    Separate (synthesize c intent signals (optionList s)) ↔
      Closed (unbracket (Text.strip s)) ∨
        ∀ o ∈ (optionList s).getLast?, o ∉ (synthesize c intent signals (optionList s)).dropLast := by
  have hown := separate_optionList s
  generalize hmerged : synthesize c intent signals (optionList s) = merged
  have hmem {o : Text} (ho : o ∈ merged) : o ∈ optionList s ∨ Settled o := mem_synthesize c signals _ (hmerged ▸ ho)
  rw [← closed_optionList_iff]
  constructor
  · intro h
    by_cases hlast : ∀ o ∈ (optionList s).getLast?, Closed o
    · exact .inl fun o ho => (mem_dropLast_or_mem_getLast? ho).elim (hown.closed o) (hlast o)
    · -- an open last option is not among those that another follows, which are closed
      refine .inr fun o ho hbehind => hlast fun u hu => ?_
      obtain rfl := Option.mem_unique ho hu
      exact h.closed o hbehind
  · intro h
    refine ⟨fun o ho => (hmem ho).elim (hown.options o) Settled.option, fun o ho => ?_⟩
    rcases hmem (List.mem_of_mem_dropLast ho) with hauthor | hadded
    · rcases h with hclosed | hbehind
      · exact hclosed o hauthor
      · exact (mem_dropLast_or_mem_getLast? hauthor).elim (hown.closed o) fun hlast => absurd ho (hbehind o hlast)
    · exact hadded.closed

/-- Options that were read and written again are read as they were, whatever the text was. The options that a picture is
    drawn with are read as they are from where they are written exactly if the author's text ends at the top, or nothing
    stands behind the author's last option. -/
theorem plan_options_read_back (c : Calibration) (body s : Text) :
    optionList (joinOptions (optionList s)) = optionList s ∧
      (optionList (joinOptions (plan c body s).options) = (plan c body s).options ↔
        Closed (unbracket (Text.strip s)) ∨
          ∀ o ∈ (optionList s).getLast?, o ∉ (plan c body s).options.dropLast) :=
  ⟨optionList_joinOptions_iff.2 (separate_optionList s), optionList_joinOptions_iff.trans (separate_synthesize_iff c _ _ s)⟩

/-- An option whose value is a left brace, escaped as in any text. -/
def escapedBrace : Text := "left delimiter=\\\x7b"

/-- The brace is taken to open a group, in which what is added for the picture disappears. -/
theorem escapedBrace_swallows :
    (plan {} "\\node (a) \x7bA\x7d;" escapedBrace).options =
        texts ["left delimiter=\\\x7b", "scale=0.9", "node distance=2.5cm"] ∧
      optionList (joinOptions (plan {} "\\node (a) \x7bA\x7d;" escapedBrace).options) ≠
        (plan {} "\\node (a) \x7bA\x7d;" escapedBrace).options := by
  have hplan : (plan {} "\\node (a) \x7bA\x7d;" escapedBrace).options =
      texts ["left delimiter=\\\x7b", "scale=0.9", "node distance=2.5cm"] := by decide +kernel
  rw [hplan]
  exact ⟨rfl, by decide⟩

end Galley.Diagram
