import Galley.Proofs.Mending
import Galley.Proofs.Signs
/-!
# Row breaks with spacing

A row break may have its spacing in brackets behind it. The repair that takes dollars out of formulas in brackets reads
the second backslash of such a row break with the bracket as the opening of a formula, and what follows up to the next
closing as its inside. So in a text with a formula in brackets at its end the dollars behind the first such row break are
lost, those apart that stand behind a backslash (`count_repair_iff`).
-/

namespace Galley.Repair

/-! ## Texts with row breaks -/

inductive Bracket where
  | square | round
  deriving DecidableEq

namespace Bracket

def opener : Bracket → Char
  | square => '['
  | round => '('

def closer : Bracket → Char
  | square => ']'
  | round => ')'

/-- What opens a formula. -/
def opening (d : Bracket) : Text := ['\\', d.opener]

/-- What closes a formula. -/
def closing (d : Bracket) : Text := ['\\', d.closer]

end Bracket

/-- The characters of running text, dollars included: no operators, brackets or braces. -/
def isRunning (c : Char) : Bool := !(c = nul || ("\\\x60\x7b\x7d[]()=+-_" : Text).contains c)

/-- The characters of spacing: lengths with their signs. -/
def isSpacing (c : Char) : Bool := !(c = nul || ("\\\x60\x7b\x7d[]()$" : Text).contains c)

/-- What stands in the brackets behind a row break. -/
abbrev Argument := { t : Text // Within isRunning t ∨ Within isSpacing t }

inductive Cell where
  | char (c : Char) (hc : isRunning c = true)
  | lineBreak (argument : Option Argument)

def Cell.source (d : Bracket) : Cell → Text
  | char c _ => [c]
  | lineBreak none => ['\\', '\\']
  | lineBreak (some a) => '\\' :: '\\' :: d.opener :: (a.1 ++ [d.closer])

def running (d : Bracket) (p : List Cell) : Text := p.flatMap (Cell.source d)

/-- The text with a formula at its end. -/
def document (d : Bracket) (p : List Cell) (m : Text) : Text := running d p ++ (d.opening ++ (m ++ d.closing))

/-- Nowhere do the letters behind a backslash spell a command for code set aside, or one that would be taken out without
    a brace behind it. -/
def Quiet (s : Text) : Prop := ∀ t ∈ s.tails, Text.after? "\\verb" t = none ∧
  ∀ command ∈ texts ["\\openin", "\\openout", "\\catcode"], Text.afterCaseless? command t = none

instance (s : Text) : Decidable (Quiet s) := inferInstanceAs (Decidable (∀ t ∈ s.tails, _ ∧ _))

/-! ### Dollars that are lost -/

/-- The dollars that do not stand directly behind a row break; `escaped` when one is in front. -/
def loose : (escaped : Bool) → List Cell → Nat
  | _, [] => 0
  | escaped, .char c _ :: p => (if c = '$' && !escaped then 1 else 0) + loose false p
  | _, .lineBreak none :: p => loose true p
  | _, .lineBreak (some a) :: p => a.1.count '$' + loose false p

/-- The loose dollars behind the first row break with brackets. -/
def lost : List Cell → Nat
  | [] => 0
  | .char _ _ :: p => lost p
  | .lineBreak none :: p => lost p
  | .lineBreak (some a) :: p => a.1.count '$' + loose false p

section Document

variable {d : Bracket} {p : List Cell} {m : Text}

theorem running_cons (c : Cell) (p : List Cell) : running d (c :: p) = c.source d ++ running d p := List.flatMap_cons

theorem document_cons (c : Cell) (p : List Cell) : document d (c :: p) m = c.source d ++ document d p m := by
  rw [document, running_cons, List.append_assoc, document]

theorem ne_of_isRunning {c x : Char} (hc : isRunning c = true) (hx : isRunning x = false) : c ≠ x := by
  rintro rfl
  rw [hc] at hx
  cases hx

theorem Argument.ne {a : Argument} {c x : Char} (hc : c ∈ a.1) (hr : isRunning x = false) (hs : isSpacing x = false) : c ≠ x := by
  rintro rfl
  rcases a.2 with h | h
  · exact h.avoids hr hc
  · exact h.avoids hs hc

variable (hm : Within isRunning m)

include hm

/-- The text holds no other signs than those of its row breaks and its formula. -/
theorem not_mem_document {x : Char} (hr : isRunning x = false) (hs : isSpacing x = false) (hb : x ≠ '\\') (ho : x ≠ d.opener)
    (hc : x ≠ d.closer) : x ∉ document d p m := by
  have hm : x ∉ m := hm.avoids hr
  induction p with
  | nil => simp [document, running, Bracket.opening, Bracket.closing, hm, hb, ho, hc]
  | cons c p ih =>
    have hcell : x ∉ c.source d := by
      cases c with
      | char c hc => simpa [Cell.source] using (ne_of_isRunning hc hr).symm
      | lineBreak a =>
        cases a with
        | none => simp [Cell.source, hb]
        | some a =>
          have ha : x ∉ a.1 := fun h => a.ne h hr hs rfl
          simp [Cell.source, hb, ho, hc, ha]
    rw [document_cons]
    exact fun h => (List.mem_append.1 h).elim hcell ih

theorem brace_not_mem : '{' ∉ document d p m := by cases d <;> exact not_mem_document hm rfl rfl (by decide) (by decide) (by decide)

theorem backtick_not_mem : '\x60' ∉ document d p m := by
  cases d <;> exact not_mem_document hm rfl rfl (by decide) (by decide) (by decide)

theorem nul_not_mem : nul ∉ document d p m := by
  cases d <;> exact not_mem_document hm (by decide) (by decide) (by decide) (by decide) (by decide)

end Document

/-! ## Constructs that are not there -/

section Absent

variable {s : Text}

section Brace

variable (h : '{' ∉ s)

include h

theorem not_brace_suffix {t : Text} : ¬ '{' :: t <:+ s := fun ht => h (ht.subset List.mem_cons_self)

theorem marker_eq_none (word name : Text) : Marker.after? word name s = none := by
  rw [Option.eq_none_iff_forall_ne_some]
  intro r hr
  simp only [Marker.after?, Option.bind_eq_bind, Option.bind_eq_some_iff] at hr
  obtain ⟨s₁, h₁, s₂, h₂, -⟩ := hr
  have hbehind : s₁ <:+ s := ⟨_, (Text.after?_eq_some_iff.1 h₁).symm⟩
  have hbrace : s₁.dropWhile isBlank = '{' :: s₂ := Text.after?_eq_some_iff.1 h₂
  exact not_brace_suffix h (hbrace ▸ (List.dropWhile_suffix _).trans hbehind)

theorem misses_ghostHeader : Text.Misses ghostHeader s := by
  intro before t ht
  rw [Option.eq_none_iff_forall_ne_some]
  intro r hr
  simp only [ghostHeader, Option.bind_eq_bind, Option.bind_eq_some_iff] at hr
  obtain ⟨s₁, h₁, s₂, h₂, s₃, h₃, -⟩ := hr
  have hfirst : s₁ <:+ s := List.IsSuffix.trans ⟨_, (Text.after?_eq_some_iff.1 h₁).symm⟩ ht
  have hsub : (Text.afterCaseless? "sub" s₁).getD s₁ <:+ s₁ := by
    cases hr : Text.afterCaseless? "sub" s₁ with
    | none => exact List.suffix_refl s₁
    | some r => exact Text.suffix_afterCaseless? hr
  have hsecond : s₂ <:+ s := ((Text.suffix_afterCaseless? h₂).trans hsub).trans hfirst
  have hbrace : ((Text.after? "*" s₂).getD s₂).dropWhile isBlank = '{' :: s₃ := Text.after?_eq_some_iff.1 h₃
  exact not_brace_suffix h (hbrace ▸ ((List.dropWhile_suffix _).trans (Text.getD_after?_suffix "*" s₂)).trans hsecond)

theorem braced_eq_none (command : Text) (before : Option Char) : braced command before s = none := by
  rw [Option.eq_none_iff_forall_ne_some]
  rintro ⟨r, rest⟩ hr
  obtain ⟨s₁, s₂, a, h₁, h₂, -⟩ := braced_eq_some hr
  exact not_brace_suffix h (h₂ ▸ (List.dropWhile_suffix _).trans (Text.suffix_afterCaseless? h₁))

theorem shellEscape_eq_none (before : Option Char) : shellEscape before s = none := by
  rw [shellEscape]
  split
  · rename_i rest hr
    have hsuffix : rest.dropWhile isBlank <:+ s := (List.dropWhile_suffix _).trans (Text.suffix_afterCaseless? hr)
    exact braced_eq_none (fun hm => h (hsuffix.subset hm)) _ _
  · exact braced_eq_none h _ _

end Brace

variable (h : '{' ∉ s) (hq : Quiet s)

include h hq

theorem misses_verbatim_quiet : Text.Misses verbatim s := by
  intro before t ht
  have hmarkers : (verbatimNames.findSome? fun name => (Marker.after? "begin" name t).map (name, ·)) = none :=
    List.findSome?_eq_none_iff.2 fun name _ => by rw [marker_eq_none (fun hm => h (ht.subset hm)), Option.map_none]
  rw [verbatim, hmarkers, (hq t ((List.mem_tails _ _).2 ht)).1]
  rfl

theorem dropUnsafe_quiet : dropUnsafe s = { content := s } := by
  have hnone : ∀ p ∈ unsafeCommands, Text.Misses p.2 s := by
    have hbrace (t : Text) (ht : t <:+ s) : '{' ∉ t := fun hm => h (ht.subset hm)
    have hword (command : Text) (hc : command ∈ texts ["\\openin", "\\openout", "\\catcode"]) (t : Text) (ht : t <:+ s) :
        Text.afterCaseless? command t = none := (hq t ((List.mem_tails _ _).2 ht)).2 command hc
    intro p hp before t ht
    simp only [unsafeCommands, List.mem_cons, List.not_mem_nil, or_false] at hp
    rcases hp with rfl | rfl | rfl | rfl | rfl | rfl | rfl
    · exact shellEscape_eq_none (hbrace t ht) before
    · exact braced_eq_none (hbrace t ht) _ before
    · exact braced_eq_none (hbrace t ht) _ before
    · simp only [stream, hword "\\openin" (by decide) t ht]
      rfl
    · simp only [stream, hword "\\openout" (by decide) t ht]
      rfl
    · exact braced_eq_none (hbrace t ht) _ before
    · simp only [catcode, hword "\\catcode" (by decide) t ht]
      rfl
  refine dropUnsafe_of_none fun p hp => ?_
  rw [sources, (hnone p hp).cut_eq, List.filterMap_map]
  exact List.filterMap_eq_nil_iff.2 fun _ _ => rfl

end Absent

/-! ### Formulas that are joined -/

/-- What joins a formula with what follows it. -/
def isJoiner (c : Char) : Bool := ("=+-_" : Text).contains c

/-- Whether somewhere a joiner stands behind a dollar, with nothing but spaces between; `after` when the text follows such
    a dollar. -/
def joins : (after : Bool) → Text → Bool
  | _, [] => false
  | after, c :: s => (after && isJoiner c) || joins (c = '$' || (after && isSpaceTab c)) s

theorem joins_mono {s : Text} (h : joins false s = true) : joins true s = true := by
  induction s with
  | nil => cases h
  | cons c s ih =>
    simp only [joins, Bool.false_and, Bool.or_false, Bool.false_or, Bool.true_and, Bool.or_eq_true] at h ⊢
    cases hc : decide (c = '$') || isSpaceTab c with
    | false =>
      rw [(Bool.or_eq_false_iff.1 hc).1] at h
      exact .inr h
    | true =>
      cases hd : decide (c = '$') with
      | true => exact .inr (by rw [hd] at h; exact h)
      | false => exact .inr (ih (by rw [hd] at h; exact h))

theorem joins_of_suffix {s t : Text} (ht : t <:+ s) (h : joins false t = true) : joins false s = true := by
  obtain ⟨u, rfl⟩ := ht
  induction u with
  | nil => exact h
  | cons c u ih =>
    simp only [List.cons_append, joins, Bool.false_and, Bool.or_false, Bool.false_or]
    cases hd : decide (c = '$') with
    | true => exact joins_mono ih
    | false => exact ih

theorem joins_dollar {g : Text} (hg : ∀ c ∈ g, isSpaceTab c = true) {c : Char} (hc : isJoiner c = true) (rest : Text) :
    joins false ('$' :: (g ++ c :: rest)) = true := by
  have hgap : joins true (g ++ c :: rest) = true := by
    induction g with
    | nil => simp [joins, hc]
    | cons x g ih =>
      obtain ⟨hx, hg⟩ := List.forall_mem_cons.1 hg
      simp only [List.cons_append, joins, hx, Bool.true_and, Bool.or_true, ih hg]
  simpa [joins] using hgap

theorem misses_of_joins {α : Type} {read : Reader α} {s : Text} (hs : joins false s = false)
    (hread : ∀ before t r, read before t = some r → ∃ u g c rest, t = u ++ '$' :: (g ++ c :: rest) ∧
      (∀ x ∈ g, isSpaceTab x = true) ∧ isJoiner c = true) : Text.Misses read s := by
  intro before t ht
  rw [Option.eq_none_iff_forall_ne_some]
  intro r hr
  obtain ⟨u, g, c, rest, rfl, hg, hc⟩ := hread before t r hr
  have hjoins := joins_of_suffix (List.IsSuffix.trans ⟨u, rfl⟩ ht) (joins_dollar hg hc rest)
  rw [hs] at hjoins
  cases hjoins

section Unjoined

variable {s : Text} (h : joins false s = false)

include h

theorem misses_chain : Text.Misses chain s := misses_of_joins h fun before t r hr => by
  obtain ⟨⟨left, right, tail⟩, rest⟩ := r
  obtain ⟨g₁, g₂, g₃, g₄, u, hg, rfl, -, -⟩ := chain_eq hr
  exact ⟨'$' :: left, g₁, '=', _, rfl, fun c hc => hg c (by simp [hc]), rfl⟩

theorem misses_pair : Text.Misses pair s := misses_of_joins h fun before t r hr => by
  obtain ⟨⟨left, op, right⟩, rest⟩ := r
  obtain ⟨g₁, g₂, hg, hop, rfl⟩ := pair_eq hr
  exact ⟨'$' :: left, g₁, op, _, rfl, fun c hc => hg c (by simp [hc]), by rcases hop with rfl | rfl | rfl <;> rfl⟩

theorem misses_strandedSubscript : Text.Misses strandedSubscript s := misses_of_joins h fun before t r hr => by
  obtain ⟨⟨formula, script⟩, rest⟩ := r
  obtain ⟨-, rfl⟩ := strandedSubscript_eq hr
  exact ⟨'$' :: formula, [], '_', _, rfl, by simp, rfl⟩

theorem misses_strandedGroup : Text.Misses strandedGroup s := misses_of_joins h fun before t r hr => by
  obtain ⟨⟨formula, script⟩, rest⟩ := r
  obtain ⟨gap, -, rfl⟩ := strandedGroup_eq hr
  exact ⟨'$' :: formula, [], '_', _, rfl, by simp, rfl⟩

end Unjoined

/-! ## The text is left as it is -/

section Document

variable {d : Bracket} {p : List Cell} {m : Text}

theorem ne_of_isSpacing {c x : Char} (hc : isSpacing c = true) (hx : isSpacing x = false) : c ≠ x := by
  rintro rfl
  rw [hc] at hx
  cases hx

theorem not_isJoiner_of_isRunning {c : Char} (hc : isRunning c = true) : isJoiner c = false := by
  rw [Bool.eq_false_iff]
  intro hj
  have hjoiners : ∀ x ∈ ("=+-_" : Text), isRunning x = false := by decide
  rw [hjoiners c (List.contains_iff_mem.1 hj)] at hc
  cases hc

theorem joins_cons_of_break {c : Char} (hj : isJoiner c = false) (hd : c ≠ '$') (hs : isSpaceTab c = false) (after : Bool) (s : Text) :
    joins after (c :: s) = joins false s := by
  simp [joins, hj, hd, hs]

theorem joins_opener (d : Bracket) (after : Bool) (s : Text) : joins after (d.opener :: s) = joins false s := by
  cases d <;> exact joins_cons_of_break (by decide) (by decide) (by decide) after s

theorem joins_closer (d : Bracket) (after : Bool) (s : Text) : joins after (d.closer :: s) = joins false s := by
  cases d <;> exact joins_cons_of_break (by decide) (by decide) (by decide) after s

theorem joins_backslash (after : Bool) (s : Text) : joins after ('\\' :: s) = joins false s :=
  joins_cons_of_break (by decide) (by decide) (by decide) after s

theorem joins_running {t s : Text} (ht : Within isRunning t) (hs : ∀ after, joins after s = false) (after : Bool) :
    joins after (t ++ s) = false := by
  induction t generalizing after with
  | nil => exact hs after
  | cons c t ih =>
    obtain ⟨hc, ht⟩ := List.forall_mem_cons.1 ht
    simp only [List.cons_append, joins, not_isJoiner_of_isRunning hc, Bool.and_false, Bool.false_or, ih ht]

theorem joins_spacing {t s : Text} (ht : Within isSpacing t) (hs : joins false s = false) : joins false (t ++ s) = false := by
  induction t with
  | nil => exact hs
  | cons c t ih =>
    obtain ⟨hc, ht⟩ := List.forall_mem_cons.1 ht
    have hd : c ≠ '$' := ne_of_isSpacing hc rfl
    simp only [List.cons_append, joins, hd, decide_false, Bool.false_and, Bool.or_false, ih ht]

theorem joins_document (hm : Within isRunning m) (after : Bool) : joins after (document d p m) = false := by
  induction p generalizing after with
  | nil =>
    have hclosing (after : Bool) : joins after d.closing = false := by rw [Bracket.closing, joins_backslash, joins_closer]; rfl
    rw [document, running, List.flatMap_nil, List.nil_append, Bracket.opening, List.cons_append, List.cons_append, List.nil_append,
      joins_backslash, joins_opener]
    exact joins_running hm hclosing false
  | cons c p ih =>
    rw [document_cons]
    cases c with
    | char c hc => exact joins_running (t := [c]) (List.forall_mem_singleton.2 hc) ih after
    | lineBreak a =>
      cases a with
      | none =>
        simp only [Cell.source, List.cons_append, List.nil_append, joins_backslash]
        exact ih false
      | some a =>
        have hbehind (after : Bool) : joins after (d.closer :: document d p m) = false := by rw [joins_closer, ih]
        simp only [Cell.source, List.cons_append, List.append_assoc, List.nil_append, joins_backslash, joins_opener]
        rcases a.2 with ha | ha
        · exact joins_running ha hbehind false
        · exact joins_spacing ha (hbehind false)

theorem literalLineEnd_of_ne {before : Option Char} {c : Char} {s : Text} (hc : c ≠ '\\') : literalLineEnd before (c :: s) = none := by
  unfold literalLineEnd
  split
  · rename_i h
    exact absurd (List.cons.inj h).1 hc
  · rfl

theorem literalLineEnd_backslash {before : Option Char} {s : Text} (h : before = some '\\' ∨ s.head? ≠ some 'n') :
    literalLineEnd before ('\\' :: s) = none := by
  unfold literalLineEnd
  split
  · rename_i hs
    obtain rfl := (List.cons.inj hs).2
    rcases h with rfl | h
    · rfl
    · exact absurd rfl h
  · rfl

theorem cutFrom_literalLineEnd (hm : Within isRunning m) (before : Option Char) :
    Text.cutFrom literalLineEnd 0 before (document d p m) = (document d p m).map .char := by
  have hopener : d.opener ≠ '\\' ∧ d.opener ≠ 'n' := by cases d <;> decide
  have hcloser : d.closer ≠ '\\' ∧ d.closer ≠ 'n' := by cases d <;> decide
  have htext {t : Text} (ht : ∀ c ∈ t, c ≠ '\\') (s : Text) (before : Option Char) :
      ∃ b, Text.cutFrom literalLineEnd 0 before (t ++ s) = t.map .char ++ Text.cutFrom literalLineEnd 0 b s :=
    Text.cutFrom_append (fun c hc _ _ => literalLineEnd_of_ne (ht c hc)) s before
  induction p generalizing before with
  | nil =>
    obtain ⟨b, hb⟩ := htext (t := m) (fun c hc => ne_of_isRunning (hm c hc) rfl) d.closing (some d.opener)
    have hsource : document d [] m = '\\' :: d.opener :: (m ++ ['\\', d.closer]) := rfl
    rw [hsource, Text.cutFrom_char (literalLineEnd_backslash (.inr (by simp [hopener.2]))), Text.cutFrom_char (literalLineEnd_of_ne hopener.1)]
    rw [Bracket.closing] at hb
    rw [hb, Text.cutFrom_char (literalLineEnd_backslash (.inr (by simp [hcloser.2]))), Text.cutFrom_char (literalLineEnd_of_ne hcloser.1)]
    simp [Text.cutFrom]
  | cons c p ih =>
    rw [document_cons]
    cases c with
    | char c hc =>
      have hc : c ≠ '\\' := ne_of_isRunning hc rfl
      simp only [Cell.source, List.cons_append, List.nil_append, List.map_cons]
      rw [Text.cutFrom_char (literalLineEnd_of_ne hc), ih]
    | lineBreak a =>
      have hfirst (s : Text) (before : Option Char) : Text.cutFrom literalLineEnd 0 before ('\\' :: '\\' :: s) =
          .char '\\' :: .char '\\' :: Text.cutFrom literalLineEnd 0 (some '\\') s := by
        rw [Text.cutFrom_char (literalLineEnd_backslash (.inr (by simp))), Text.cutFrom_char (literalLineEnd_backslash (.inl rfl))]
      cases a with
      | none =>
        simp only [Cell.source, List.cons_append, List.nil_append, List.map_cons]
        rw [hfirst, ih]
      | some a =>
        obtain ⟨b, hb⟩ := htext (t := a.1) (fun c hc => a.ne hc rfl rfl) (d.closer :: document d p m) (some d.opener)
        simp only [Cell.source, List.cons_append, List.nil_append, List.append_assoc, List.map_cons, List.map_append]
        rw [hfirst, Text.cutFrom_char (literalLineEnd_of_ne hopener.1), hb, Text.cutFrom_char (literalLineEnd_of_ne hcloser.1), ih]

end Document

/-! ## Dollars that are taken out -/

/-- The dollars that do not stand behind a backslash; `escaped` when the text does. -/
def bares : (escaped : Bool) → Text → Nat
  | _, [] => 0
  | escaped, c :: s => (if c = '$' && !escaped then 1 else 0) + bares (c = '\\') s

theorem dollar_cases (before : Option Char) (c : Char) (s : Text) :
    ((c = '$' && !decide (before = some '\\')) = false ∧ dollar before (c :: s) = none) ∨
      c = '$' ∧ before ≠ some '\\' ∧ dollar before (c :: s) = some ((), s) := by
  unfold dollar
  split
  · exact .inl ⟨by simp, rfl⟩
  · rename_i hb hs
    obtain ⟨rfl, rfl⟩ := List.cons.inj hs
    exact .inr ⟨rfl, hb, rfl⟩
  · rename_i hno
    have hc : c ≠ '$' := fun he => hno s (by rw [he])
    exact .inl ⟨by simp [hc], rfl⟩

theorem cutFrom_dollar (before : Option Char) (s : Text) :
    ((Text.cutFrom dollar 0 before s).flatMap left).count '$' + bares (before = some '\\') s = s.count '$' ∧
      (bares (before = some '\\') s = 0 → (Text.cutFrom dollar 0 before s).flatMap left = s) := by
  induction s generalizing before with
  | nil => exact ⟨rfl, fun _ => rfl⟩
  | cons c s ih =>
    obtain ⟨hcount, hsame⟩ := ih (some c)
    have hescaped : decide (some c = some '\\') = decide (c = '\\') := by simp
    rw [hescaped] at hcount hsame
    rcases dollar_cases before c s with ⟨hbare, hread⟩ | ⟨rfl, hb, hread⟩
    · rw [Text.cutFrom_char hread, bares, hbare]
      simp only [Bool.false_eq_true, if_false, Nat.zero_add, List.flatMap_cons, left, List.singleton_append, List.count_cons]
      exact ⟨by omega, fun h => congrArg (c :: ·) (hsame h)⟩
    · have hcut : Text.cutFrom dollar 0 before ('$' :: s) = .hit () ['$'] :: Text.cutFrom dollar 0 (some '$') s := by
        simp [Text.cutFrom, hread, Text.upTo]
      rw [hcut, bares]
      simp only [hb, decide_false, Bool.not_false, Bool.and_true, decide_true, if_true, List.flatMap_cons, left, List.nil_append,
        List.count_cons_self]
      exact ⟨by omega, fun h => by omega⟩

theorem bares_append {t : Text} (ht : '\\' ∉ t) (s : Text) : bares false (t ++ s) = t.count '$' + bares false s := by
  induction t with
  | nil => simp
  | cons c t ih =>
    rw [List.mem_cons, not_or] at ht
    rw [List.cons_append, bares, decide_eq_false (Ne.symm ht.1), ih ht.2, List.count_cons]
    simp only [Bool.not_false, Bool.and_true, decide_eq_true_eq, beq_iff_eq]
    omega

section Formulas

variable {d : Bracket} {p : List Cell} {m : Text}

theorem bares_running (hm : '$' ∉ m) (hslash : '\\' ∉ m) (escaped : Bool) :
    bares escaped (running d p ++ (d.opening ++ m)) = loose escaped p := by
  have hopener : d.opener ≠ '$' ∧ d.opener ≠ '\\' := by cases d <;> decide
  have hcloser : d.closer ≠ '$' ∧ d.closer ≠ '\\' := by cases d <;> decide
  induction p generalizing escaped with
  | nil =>
    have hnone := bares_append hslash []
    rw [List.append_nil, List.count_eq_zero.2 hm] at hnone
    simp [running, Bracket.opening, bares, hopener.1, hopener.2, hnone, loose]
  | cons c p ih =>
    rw [running_cons, List.append_assoc]
    cases c with
    | char c hc =>
      have hc : c ≠ '\\' := ne_of_isRunning hc rfl
      simp only [Cell.source, List.cons_append, List.nil_append, bares, hc, decide_false, ih, loose]
    | lineBreak a =>
      cases a with
      | none => simp [Cell.source, bares, ih, loose]
      | some a =>
        have ha : '\\' ∉ a.1 := fun h => a.ne h rfl rfl rfl
        simp [Cell.source, bares, hopener.1, hopener.2, bares_append ha, hcloser.1, hcloser.2, ih, loose]

theorem forward_between (opening closing : Text) : Text.Forward (between opening closing) := fun _ _ _ => rfl

theorem dropDollars_of_not_mem {s : Text} (h : d.opener ∉ s) : dropDollars d.opening d.closing s = s := by
  have hmisses : Text.Misses (between d.opening d.closing) s := by
    intro before t ht
    rw [Option.eq_none_iff_forall_ne_some]
    rintro ⟨inside, rest⟩ hr
    rw [between_eq hr] at ht
    exact h (ht.subset (by simp [Bracket.opening]))
  exact hmisses.replaceAll_eq _

/-! ### Where a formula ends -/

theorem head_document : (document d p m).head? ≠ some d.opener ∧ (document d p m).head? ≠ some d.closer := by
  have hslash : '\\' ≠ d.opener ∧ '\\' ≠ d.closer := by cases d <;> decide
  cases p with
  | nil => simpa [document, running, Bracket.opening] using hslash
  | cons c p =>
    rw [document_cons]
    cases c with
    | char c hc =>
      have hbrackets : isRunning d.opener = false ∧ isRunning d.closer = false := by cases d <;> decide
      simpa [Cell.source] using ⟨ne_of_isRunning hc hbrackets.1, ne_of_isRunning hc hbrackets.2⟩
    | lineBreak a => cases a <;> simpa [Cell.source] using hslash

theorem splitAtFirst_append {t : Text} (ht : '\\' ∉ t) {s before rest : Text} (hs : Text.splitAtFirst d.closing s = some (before, rest)) :
    Text.splitAtFirst d.closing (t ++ s) = some (t ++ before, rest) := by
  induction t with
  | nil => exact hs
  | cons c t ih =>
    rw [List.mem_cons, not_or] at ht
    have hnone : Text.after? d.closing (c :: (t ++ s)) = none := by simp [Bracket.closing, Text.after?, ht.1]
    rw [List.cons_append, Text.splitAtFirst, hnone]
    dsimp only
    rw [ih ht.2]
    rfl

theorem splitAtFirst_backslash {s before rest : Text} (h : s.head? ≠ some d.closer)
    (hs : Text.splitAtFirst d.closing s = some (before, rest)) :
    Text.splitAtFirst d.closing ('\\' :: s) = some ('\\' :: before, rest) := by
  have hnone : Text.after? d.closing ('\\' :: s) = none := by
    cases s with
    | nil => rfl
    | cons c s =>
      have hc : d.closer ≠ c := fun he => h (by rw [he]; rfl)
      simp [Bracket.closing, Text.after?, hc]
  rw [Text.splitAtFirst, hnone]
  dsimp only
  rw [hs]
  rfl

variable (hm : Within isRunning m)

include hm

/-- The closing at the end is the first one. -/
theorem splitAtFirst_document : Text.splitAtFirst d.closing (document d p m) = some (running d p ++ (d.opening ++ m), []) := by
  have hslash : '\\' ∉ m := hm.avoids rfl
  have hopener : d.opener ≠ '\\' ∧ d.opener ≠ d.closer := by cases d <;> decide
  have hcloser : d.closer ≠ '\\' := by cases d <;> decide
  induction p with
  | nil =>
    have hclosing : Text.splitAtFirst d.closing d.closing = some ([], []) := by cases d <;> decide
    have hinside := splitAtFirst_append (t := d.opener :: m) (by simp [hopener.1.symm, hslash]) hclosing
    exact splitAtFirst_backslash (by simp [hopener.2]) (by simpa using hinside)
  | cons c p ih =>
    rw [document_cons, running_cons, List.append_assoc]
    cases c with
    | char c hc => exact splitAtFirst_append (t := [c]) (by simpa using (ne_of_isRunning hc rfl).symm) ih
    | lineBreak a =>
      cases a with
      | none => exact splitAtFirst_backslash (by cases d <;> simp [Bracket.closer]) (splitAtFirst_backslash head_document.2 ih)
      | some a =>
        have ha : '\\' ∉ a.1 := fun h => a.ne h rfl rfl rfl
        have hbehind := splitAtFirst_append (t := d.opener :: (a.1 ++ [d.closer])) (by simp [hopener.1.symm, ha, hcloser.symm]) ih
        have hbreak := splitAtFirst_backslash (by cases d <;> simp [Bracket.closer])
          (splitAtFirst_backslash (s := d.opener :: (a.1 ++ [d.closer]) ++ document d p m) (by simp [hopener.2]) hbehind)
        simpa [Cell.source] using hbreak

/-- The inside of the formula that seems to begin at a row break. -/
def inside (d : Bracket) (a : Argument) (p : List Cell) (m : Text) : Text := a.1 ++ d.closer :: (running d p ++ (d.opening ++ m))

omit hm in
theorem bares_inside (a : Argument) (hd : '$' ∉ m) (hslash : '\\' ∉ m) :
    bares false (inside d a p m) = a.1.count '$' + loose false p := by
  have ha : '\\' ∉ a.1 := fun h => a.ne h rfl rfl rfl
  have hcloser : d.closer ≠ '$' ∧ d.closer ≠ '\\' := by cases d <;> decide
  rw [inside, bares_append ha, bares]
  simp [hcloser.1, hcloser.2, bares_running hd hslash]

theorem between_lineBreak (a : Argument) :
    between d.opening d.closing none ('\\' :: d.opener :: (a.1 ++ d.closer :: document d p m)) = some (inside d a p m, []) := by
  have ha : '\\' ∉ a.1 := fun h => a.ne h rfl rfl rfl
  have hcloser : d.closer ≠ '\\' := by cases d <;> decide
  have hsplit := splitAtFirst_append (d := d) (t := a.1 ++ [d.closer]) (by simp [ha, hcloser.symm]) (splitAtFirst_document (p := p) hm)
  have hopen : Text.after? d.opening ('\\' :: d.opener :: (a.1 ++ d.closer :: document d p m)) =
      some (a.1 ++ d.closer :: document d p m) := by simp [Bracket.opening, Text.after?]
  rw [List.append_assoc] at hsplit
  rw [between, hopen]
  simpa [inside] using hsplit

theorem between_formula : between d.opening d.closing none ('\\' :: d.opener :: (m ++ d.closing)) = some (m, []) := by
  have hclosing : Text.splitAtFirst d.closing d.closing = some ([], []) := by cases d <;> decide
  have hsplit := splitAtFirst_append (hm.avoids (c := '\\') rfl) hclosing
  have hopen : Text.after? d.opening ('\\' :: d.opener :: (m ++ d.closing)) = some (m ++ d.closing) := by simp [Bracket.opening, Text.after?]
  rw [between, hopen]
  simpa using hsplit

omit hm in
theorem between_of_ne {c : Char} (hc : c ≠ '\\') (s : Text) : between d.opening d.closing none (c :: s) = none := by
  simp [between, Bracket.opening, Text.after?, Ne.symm hc]

omit hm in
theorem between_backslash {s : Text} (h : s.head? ≠ some d.opener) : between d.opening d.closing none ('\\' :: s) = none := by
  cases s with
  | nil => simp [between, Bracket.opening, Text.after?]
  | cons c s =>
    have hc : d.opener ≠ c := fun he => h (by rw [he]; rfl)
    simp [between, Bracket.opening, Text.after?, hc]

/-- The formula at a row break with spacing reaches to the end, and loses its dollars. -/
theorem dropDollars_spacing (a : Argument) :
    dropDollars d.opening d.closing (Cell.source d (.lineBreak (some a)) ++ document d p m) =
      '\\' :: (d.opening ++ ((inside d a p m).removeAll dollar ++ d.closing)) := by
  have hforward := forward_between d.opening d.closing
  have hslash : '\\' ≠ d.opener := by cases d <;> decide
  have hhit := hforward.replaceAll_hit (between_lineBreak (d := d) (p := p) hm a) (List.append_nil _).symm
    fun inside => d.opening ++ inside.removeAll dollar ++ d.closing
  refine (hforward.replaceAll_cons (between_backslash (by simpa using hslash)) _).trans (congrArg ('\\' :: ·) ?_)
  simpa [Text.replaceAll, Text.cut, Text.cutFrom, Cell.source] using hhit

variable (hd : '$' ∉ m)

include hd

/-- The formula at the end has no dollar to lose. -/
theorem dropDollars_formula : dropDollars d.opening d.closing (document d [] m) = document d [] m := by
  have hm' : m.removeAll dollar = m := by
    have hmisses : Text.Misses dollar m := by
      intro before t ht
      rw [Option.eq_none_iff_forall_ne_some]
      rintro ⟨r, rest⟩ hr
      exact hd (ht.subset (dollar_eq hr ▸ List.mem_cons_self))
    exact hmisses.removeAll_eq
  have hhit := (forward_between d.opening d.closing).replaceAll_hit (between_formula hm) (List.append_nil _).symm
    fun inside => d.opening ++ inside.removeAll dollar ++ d.closing
  refine hhit.trans ?_
  rw [hm']
  simp [document, running, Text.replaceAll, Text.cut, Text.cutFrom]

/-- Dropping the dollars of formulas drops those that are lost, and leaves the text as it is if there are none. -/
theorem dropDollars_document : (dropDollars d.opening d.closing (document d p m)).count '$' + lost p = (document d p m).count '$' ∧
    (lost p = 0 → dropDollars d.opening d.closing (document d p m) = document d p m) := by
  have hforward := forward_between d.opening d.closing
  induction p with
  | nil =>
    rw [dropDollars_formula hm hd]
    exact ⟨rfl, fun _ => rfl⟩
  | cons c p ih =>
    rw [document_cons]
    have hkeep {t : Text} (ht : dropDollars d.opening d.closing (t ++ document d p m) = t ++ dropDollars d.opening d.closing (document d p m)) :
        (dropDollars d.opening d.closing (t ++ document d p m)).count '$' + lost p = (t ++ document d p m).count '$' ∧
          (lost p = 0 → dropDollars d.opening d.closing (t ++ document d p m) = t ++ document d p m) := by
      rw [ht, List.count_append, List.count_append]
      exact ⟨by omega, fun h => congrArg (t ++ ·) (ih.2 h)⟩
    cases c with
    | char c hc => exact hkeep (t := [c]) (hforward.replaceAll_cons (between_of_ne (ne_of_isRunning hc rfl) _) _)
    | lineBreak a =>
      cases a with
      | none =>
        refine hkeep (t := ['\\', '\\']) ?_
        have hfirst : ('\\' :: document d p m).head? ≠ some d.opener := by cases d <;> simp [Bracket.opener]
        exact (hforward.replaceAll_cons (between_backslash hfirst) _).trans
          (congrArg ('\\' :: ·) (hforward.replaceAll_cons (between_backslash head_document.1) _))
      | some a =>
        obtain ⟨hcount, hsame⟩ := cutFrom_dollar none (inside d a p m)
        have hbares : bares (decide (none = some '\\')) (inside d a p m) = lost (.lineBreak (some a) :: p) :=
          bares_inside a hd (hm.avoids rfl)
        rw [hbares] at hcount hsame
        rw [← Text.cut, ← removeAll_eq] at hcount hsame
        have hsource : Cell.source d (.lineBreak (some a)) ++ document d p m = '\\' :: (d.opening ++ (inside d a p m ++ d.closing)) := by
          simp [Cell.source, document, inside, Bracket.opening]
        rw [dropDollars_spacing hm, hsource]
        simp only [List.count_cons, List.count_append]
        exact ⟨by omega, fun h => by rw [hsame h]⟩

omit hm in
theorem count_document : (document d p m).count '$' = (running d p).count '$' := by
  have hopener : d.opener ≠ '$' ∧ d.closer ≠ '$' := by cases d <;> decide
  simp [document, Bracket.opening, Bracket.closing, List.count_append, hopener, List.count_eq_zero.2 hd]

/-- For the two kinds of brackets in turn. -/
theorem dropDollars_both :
    (dropDollars "\\(" "\\)" (dropDollars "\\[" "\\]" (document d p m))).count '$' + lost p ≤ (document d p m).count '$' ∧
      (lost p = 0 → dropDollars "\\(" "\\)" (dropDollars "\\[" "\\]" (document d p m)) = document d p m) := by
  obtain ⟨hcount, hsame⟩ := dropDollars_document (d := d) (p := p) hm hd
  cases d with
  | square =>
    have hround : Bracket.round.opener ∉ document .square p m :=
      not_mem_document hm rfl rfl (by decide) (by decide) (by decide)
    have hle := countP_dropDollars (· == '$') "\\(" "\\)" (dropDollars "\\[" "\\]" (document .square p m))
    refine ⟨Nat.le_trans (Nat.add_le_add_right hle _) (Nat.le_of_eq hcount), fun h => ?_⟩
    have hinner : dropDollars "\\[" "\\]" (document .square p m) = document .square p m := hsame h
    rw [hinner]
    exact dropDollars_of_not_mem (d := .round) hround
  | round =>
    have hsquare : Bracket.square.opener ∉ document .round p m :=
      not_mem_document hm rfl rfl (by decide) (by decide) (by decide)
    have hinner : dropDollars "\\[" "\\]" (document .round p m) = document .round p m := dropDollars_of_not_mem (d := .square) hsquare
    rw [hinner]
    exact ⟨Nat.le_of_eq hcount, hsame⟩

end Formulas

/-! ## The repaired text -/

section Repaired

variable {d : Bracket} {p : List Cell} {m : Text} (hm : Within isRunning m)

include hm

theorem mend_document : mend (document d p m) = dropUnsafe (((dropDollars "\\(" "\\)" (dropDollars "\\[" "\\]" (document d p m))).replaceAll
    strandedSubscript joinSubscript).replaceAll strandedGroup joinSubscript) := by
  have hjoins : joins false (document d p m) = false := joins_document hm false
  have hlines : (document d p m).replaceAll literalLineEnd (fun _ => ['\n']) = document d p m := by
    rw [Text.replaceAll, Text.cut, cutFrom_literalLineEnd hm, List.flatMap_map]
    exact List.flatMap_singleton' _
  have hchain : mergeChain (document d p m) = document d p m := by
    rw [mergeChain, (misses_chain hjoins).cut_eq, List.flatMap_map]
    exact List.flatMap_singleton' _
  rw [mend, hlines, (misses_ghostHeader (brace_not_mem hm)).removeAll_eq, hchain, mergePairs, (misses_pair hjoins).replaceAll_eq]

variable (hq : Quiet (document d p m))

include hq

theorem content_repair_document : (repair (document d p m)).content = unshelter [] (mend (document d p m)).content := by
  have hempty : (document d p m).isEmpty = false := by
    rw [document, Bracket.opening]
    cases running d p <;> rfl
  have hfilter : (document d p m).filter (· ≠ nul) = document d p m :=
    List.filter_eq_self.2 fun c hc => decide_eq_true fun he => nul_not_mem hm (he ▸ hc)
  have hshelter : shelter (document d p m) = (document d p m, []) := by
    rw [shelter, hfilter, (misses_verbatim_quiet (brace_not_mem hm) hq).cut_eq, shelterPieces_map_char]
  rw [repair, if_neg (by simp [hempty]), stripFences_eq (backtick_not_mem hm), hshelter]

/-- The repaired text has as many dollars as the text in front of the formula just if no dollar is lost. -/
theorem count_repair_iff (hd : '$' ∉ m) : (repair (document d p m)).content.count '$' = (running d p).count '$' ↔ lost p = 0 := by
  obtain ⟨hcount, hsame⟩ := dropDollars_both (d := d) (p := p) hm hd
  rw [content_repair_document hm hq, mend_document hm, ← count_document (d := d) hd]
  generalize dropDollars "\\(" "\\)" (dropDollars "\\[" "\\]" (document d p m)) = dropped at hcount hsame
  constructor
  · intro heq
    have hle := calc (unshelter [] (dropUnsafe ((dropped.replaceAll strandedSubscript joinSubscript).replaceAll strandedGroup
          joinSubscript)).content).count '$'
      _ ≤ _ := countP_replaceAll (· == '$') (fun n _ _ _ _ => Nat.zero_le _) _
      _ ≤ _ := countP_dropUnsafe (· == '$') _
      _ ≤ _ := countP_strandedGroups (· == '$') rfl rfl _
      _ ≤ dropped.count '$' := countP_strandedSubscripts (· == '$') rfl rfl _
    omega
  · intro hlost
    have hjoins : joins false (document d p m) = false := joins_document hm false
    rw [hsame hlost, (misses_strandedSubscript hjoins).replaceAll_eq, (misses_strandedGroup hjoins).replaceAll_eq,
      dropUnsafe_quiet (brace_not_mem hm) hq, unshelter, (misses_shelterReader (nul_not_mem hm)).replaceAll_eq]

end Repaired

/-- Spacing of two points in front of a formula. -/
def spaced : List Cell :=
  [.char 'a' rfl, .lineBreak (some ⟨"2pt", by decide⟩), .char '$' rfl, .char 'b' rfl, .char '$' rfl]

/-- A row break without spacing behind it, and a formula. -/
def unspaced : List Cell := [.char 'a' rfl, .lineBreak none, .char ' ' rfl, .char '$' rfl, .char 'b' rfl, .char '$' rfl]

theorem count_repair_unspaced :
    document .square unspaced "x" = "a\\\\ $b$\\[x\\]".toList ∧ Quiet (document .square unspaced "x") ∧ lost unspaced = 0 ∧
      (repair (document .square unspaced "x")).content.count '$' = (running .square unspaced).count '$' :=
  have hquiet : Quiet (document .square unspaced "x") := by decide +kernel
  ⟨by decide, hquiet, by decide, (count_repair_iff (by decide) hquiet (by decide)).2 (by decide)⟩

/-- The dollars behind the spacing are lost. -/
theorem spaced_lost :
    document .square spaced "x" = "a\\\\[2pt]$b$\\[x\\]".toList ∧ (running .square spaced).count '$' = 2 ∧
      (repair (document .square spaced "x")).content = "a\\\\[2pt]b\\[x\\]".toList ∧
      (repair (document .square spaced "x")).content.count '$' ≠ (running .square spaced).count '$' := by
  have hcontent : (repair (document .square spaced "x")).content = "a\\\\[2pt]b\\[x\\]".toList := by decide +kernel
  refine ⟨by decide, by decide, hcontent, ?_⟩
  rw [hcontent]
  decide

end Galley.Repair
