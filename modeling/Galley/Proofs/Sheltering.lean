import Galley.Proofs.Citations
import Galley.Proofs.RepairParts
import Galley.Proofs.Tokens
/-!
# Repairs do not look inside code

Code is set aside under numbered marks before anything is mended. `Holds ks s` says that the marks of a text are
whole, and lists their numbers. Every construct that is mended begins and ends between marks and keeps the marks
inside it; what is taken out takes whole marks with it. So mending leaves some of the marks in their order
(`Holds.mend`), whatever code they stand for, and code comes back whole or not at all (`repair_keeps_code`).
-/

namespace Galley.Repair

/-! ## Marks in a text -/

def isMarkChar (c : Char) : Bool := c = nul || c.isDigit

/-- The character that delimits marks stands in whole marks only, and `ks` are their numbers. -/
inductive Holds : List Nat → Text → Prop
  | nil : Holds [] []
  | char {c : Char} {ks : List Nat} {s : Text} (hc : c ≠ nul) (hs : Holds ks s) : Holds ks (c :: s)
  | mark (k : Nat) {ks : List Nat} {s : Text} (hs : Holds ks s) : Holds (k :: ks) (shelterMark k ++ s)

theorem shelterMark_eq (k : Nat) : shelterMark k = nul :: (Text.ofNat k ++ [nul]) := rfl

theorem isMarkChar_of_mem {k : Nat} {c : Char} (h : c ∈ shelterMark k) : isMarkChar c = true := by
  simp only [shelterMark_eq, List.mem_cons, List.mem_append, List.not_mem_nil, or_false] at h
  rcases h with rfl | h | rfl
  · rfl
  · simp [isMarkChar, Text.isDigit_of_mem_ofNat h]
  · rfl

theorem ne_nul_of_not_isMarkChar {c : Char} (h : isMarkChar c = false) : c ≠ nul := by
  rintro rfl
  cases h

theorem not_isMarkChar_of_isBlank {c : Char} (h : isBlank c = true) : isMarkChar c = false := by
  simp only [isBlank, inRanges, blankRanges, List.any_cons, List.any_nil, Bool.or_eq_true, Bool.and_eq_true,
    decide_eq_true_eq, Bool.or_false] at h
  refine Bool.eq_false_iff.2 fun hc => ?_
  simp only [isMarkChar, Char.isDigit, Bool.or_eq_true, Bool.and_eq_true, decide_eq_true_eq] at hc
  rcases hc with rfl | ⟨hlow, hhigh⟩
  · revert h
    decide
  · have hlow : 48 ≤ c.toNat := hlow
    have hhigh : c.toNat ≤ 57 := hhigh
    omega

namespace Holds

variable {ks ls : List Nat} {s t : Text}

theorem of_not_mem (h : nul ∉ s) : Holds [] s := by
  induction s with
  | nil => exact .nil
  | cons c s ih =>
    simp only [List.mem_cons, not_or] at h
    exact .char (Ne.symm h.1) (ih h.2)

theorem append (hs : Holds ks s) (ht : Holds ls t) : Holds (ks ++ ls) (s ++ t) := by
  induction hs with
  | nil => exact ht
  | char hc _ ih => exact .char hc ih
  | mark k _ ih =>
    rw [List.append_assoc]
    exact .mark k ih

theorem tail {c : Char} (hc : c ≠ nul) (h : Holds ks (c :: s)) : Holds ks s := by
  generalize hu : c :: s = u at h
  cases h with
  | nil => cases hu
  | char _ hs =>
    obtain ⟨-, rfl⟩ := List.cons.inj hu
    exact hs
  | mark k _ => exact absurd (List.cons.inj hu).1 hc

theorem eq_nil (h : Holds ks s) (hs : nul ∉ s) : ks = [] := by
  induction h with
  | nil => rfl
  | char _ _ ih => exact ih fun hm => hs (List.mem_cons_of_mem _ hm)
  | mark k _ _ => exact absurd List.mem_cons_self hs

/-- Text without marks may be taken off. -/
theorem behind {x : Text} (hx : nul ∉ x) (h : Holds ks (x ++ s)) : Holds ks s := by
  induction x with
  | nil => exact h
  | cons c x ih =>
    simp only [List.mem_cons, not_or] at hx
    exact ih hx.2 (h.tail (Ne.symm hx.1))

/-- Only a mark begins with the character that delimits marks. -/
theorem inv (h : Holds ks (nul :: s)) : ∃ k ls t, ks = k :: ls ∧ nul :: s = shelterMark k ++ t ∧ Holds ls t := by
  generalize hu : nul :: s = u at h
  cases h with
  | nil => cases hu
  | char hc _ => exact absurd (List.cons.inj hu).1.symm hc
  | mark k hs => exact ⟨k, _, _, rfl, rfl, hs⟩

/-- A text may be cut in front of any character that is none of a mark. -/
theorem split {a b : Text} {c : Char} (hc : isMarkChar c = false) (h : Holds ks (a ++ c :: b)) :
    ∃ k₁ k₂, ks = k₁ ++ k₂ ∧ Holds k₁ a ∧ Holds k₂ (c :: b) := by
  generalize hu : a ++ c :: b = u at h
  induction h generalizing a with
  | nil => simp at hu
  | @char x ks s hx h ih =>
    cases a with
    | nil =>
      refine ⟨[], ks, rfl, .nil, ?_⟩
      rw [show c :: b = x :: s from hu]
      exact .char hx h
    | cons y a =>
      obtain ⟨rfl, hrest⟩ := List.cons.inj hu
      obtain ⟨k₁, k₂, rfl, h₁, h₂⟩ := ih hrest
      exact ⟨k₁, k₂, rfl, .char hx h₁, h₂⟩
  | @mark k ks s h ih =>
    rcases List.append_eq_append_iff.1 hu with ⟨v, hv, hrest⟩ | ⟨v, rfl, hrest⟩
    · -- the mark would reach over the character
      cases v with
      | nil =>
        rw [List.append_nil] at hv
        rw [List.nil_append] at hrest
        refine ⟨[k], ks, rfl, ?_, hrest ▸ h⟩
        rw [← hv, ← List.append_nil (shelterMark k)]
        exact .mark k .nil
      | cons z v =>
        obtain ⟨rfl, -⟩ := List.cons.inj hrest
        have hmem : c ∈ shelterMark k := by
          rw [hv]
          simp
        rw [isMarkChar_of_mem hmem] at hc
        cases hc
    · obtain ⟨k₁, k₂, rfl, h₁, h₂⟩ := ih hrest.symm
      exact ⟨k :: k₁, k₂, rfl, .mark k h₁, h₂⟩

/-- A run of characters up to one that is none of a mark. -/
theorem run {p : Char → Bool} (hp : ∀ c, p c = false → isMarkChar c = false) (h : Holds ks s) :
    ∃ k₁ k₂, ks = k₁ ++ k₂ ∧ Holds k₁ (s.takeWhile p) ∧ Holds k₂ (s.dropWhile p) := by
  rw [← List.takeWhile_append_dropWhile (p := p) (l := s)] at h
  cases hd : s.dropWhile p with
  | nil =>
    rw [hd, List.append_nil] at h
    exact ⟨ks, [], (List.append_nil ks).symm, h, .nil⟩
  | cons c rest =>
    rw [hd] at h
    exact h.split (hp c (Text.head_dropWhile hd))

/-- Blanks around a text hold no marks. -/
theorem strip (h : Holds ks s) : Holds ks (Text.strip s) := by
  have hblank {t : Text} (ht : ∀ c ∈ t, isBlank c = true) : nul ∉ t := fun hn => absurd (ht nul hn) (by decide)
  obtain ⟨gap, hgap, hleft⟩ := Text.dropWhile_eq isBlank s
  rw [hgap] at h
  replace h := h.behind (hblank hleft)
  rw [Text.strip]
  obtain ⟨t, ht, hright⟩ := Text.dropWhileRight_eq isBlank (s.dropWhile isBlank)
  cases t with
  | nil =>
    rw [List.append_nil] at ht
    rwa [← ht]
  | cons c t =>
    rw [ht] at h
    obtain ⟨k₁, k₂, rfl, h₁, h₂⟩ := h.split (not_isMarkChar_of_isBlank (hright c List.mem_cons_self))
    have hnone : k₂ = [] := h₂.eq_nil (hblank hright)
    rw [hnone, List.append_nil]
    exact h₁

end Holds

/-! ## Rewriting a text with marks -/

section Rewriting

variable {α : Type} {R : List Nat → List Nat → Prop} {read : Reader α} {g : Piece α → Text}

/-- What a reader takes of a text ends between marks, and `y` in its place has the marks that `R` relates to the
    marks that were taken. -/
def Takes (R : List Nat → List Nat → Prop) (ks : List Nat) (s rest y : Text) : Prop :=
  ∃ x k₁ k₂ k', s = x ++ rest ∧ ks = k₁ ++ k₂ ∧ Holds k₂ rest ∧ Holds k' y ∧ R k' k₁

/-- A reader that finds nothing at a character of a mark. -/
def Heeds (read : Reader α) : Prop := ∀ before c s, isMarkChar c = true → read before (c :: s) = none

theorem Holds.flatMap_cut (hrefl : ∀ l, R l l) (happend : ∀ {a b c d}, R a b → R c d → R (a ++ c) (b ++ d))
    (hheed : Heeds read) (hchar : ∀ c, g (.char c) = [c])
    (hhit : ∀ before ks s a rest, Holds ks s → read before s = some (a, rest) →
      Takes R ks s rest (g (.hit a (Text.upTo s rest))))
    {ks : List Nat} {s : Text} (hs : Holds ks s) : ∃ ks', R ks' ks ∧ Holds ks' ((Text.cut read s).flatMap g) := by
  have main (len : Nat) : ∀ (s : Text) (before : Option Char) (ks : List Nat), s.length ≤ len → Holds ks s →
      ∃ ks', R ks' ks ∧ Holds ks' ((Text.cutFrom read 0 before s).flatMap g) := by
    induction len with
    | zero =>
      intro s before ks hlen hs
      rw [List.length_eq_zero_iff.1 (Nat.le_zero.1 hlen)] at hs ⊢
      exact ⟨ks, hrefl ks, hs⟩
    | succ len ih =>
      intro s before ks hlen hs
      cases s with
      | nil => exact ⟨ks, hrefl ks, hs⟩
      | cons c s =>
        simp only [List.length_cons] at hlen
        by_cases hc : c = nul
        · -- a mark is taken character by character
          subst hc
          obtain ⟨k, ls, t, rfl, ht, hmarked⟩ := hs.inv
          obtain ⟨b, hb⟩ := Text.cutFrom_append
            (fun c hc before s => hheed before c s (isMarkChar_of_mem (k := k) hc)) t before
          have hlength := congrArg List.length ht
          rw [shelterMark_eq] at hlength
          simp only [List.length_append, List.length_cons] at hlength
          obtain ⟨ks', hR, hks'⟩ := ih t b ls (by omega) hmarked
          refine ⟨k :: ks', happend (hrefl [k]) hR, ?_⟩
          rw [ht, hb, List.flatMap_append, List.flatMap_map]
          simp only [hchar]
          rw [List.flatMap_singleton']
          exact .mark k hks'
        · rcases Text.cutFrom_cons read before c s with hcut | ⟨a, rest, hr, hle, hcut⟩
          · obtain ⟨ks', hR, hks'⟩ := ih s (some c) ks (by omega) (hs.tail hc)
            refine ⟨ks', hR, ?_⟩
            rw [hcut, List.flatMap_cons, hchar]
            exact .char hc hks'
          · obtain ⟨x, k₁, k₂, k', hx, rfl, hrest, hy, hR⟩ := hhit before ks _ a rest hs hr
            obtain ⟨b, hb⟩ := hcut ⟨x, hx.symm⟩
            obtain ⟨ks', hR', hks'⟩ := ih rest b k₂ (by omega) hrest
            refine ⟨k' ++ ks', happend hR hR', ?_⟩
            rw [hb, List.flatMap_cons]
            exact hy.append hks'
  exact main s.length s none ks (Nat.le_refl _) hs

theorem heeds_of_head (h : ∀ {before c s a rest}, read before (c :: s) = some (a, rest) → isMarkChar c = false) :
    Heeds read := by
  intro before c s hc
  cases hr : read before (c :: s) with
  | none => rfl
  | some r =>
    rw [h hr] at hc
    cases hc

end Rewriting

/-! ## The repairs -/

namespace Holds

variable {ks : List Nat} {s t : Text}

theorem text (ht : nul ∉ t) (h : Holds ks s) : Holds ks (t ++ s) := (of_not_mem ht).append h

/-- Where each construct keeps its marks, the whole text does. -/
theorem rewriting {α : Type} {read : Reader α} {g : Piece α → Text} (hheed : Heeds read) (hchar : ∀ c, g (.char c) = [c])
    (hhit : ∀ before ks s a rest, Holds ks s → read before s = some (a, rest) →
      Takes Eq ks s rest (g (.hit a (Text.upTo s rest))))
    (h : Holds ks s) : Holds ks ((Text.cut read s).flatMap g) := by
  obtain ⟨ks', rfl, h'⟩ := h.flatMap_cut (R := Eq) (fun _ => rfl) (fun h h' => by rw [h, h']) hheed hchar hhit
  exact h'

theorem replaceAll {α : Type} {read : Reader α} {f : α → Text} (hheed : Heeds read)
    (hhit : ∀ before ks s a rest, Holds ks s → read before s = some (a, rest) → Takes Eq ks s rest (f a))
    (h : Holds ks s) : Holds ks (s.replaceAll read f) := h.rewriting hheed (fun _ => rfl) hhit

theorem literalLineEnds (h : Holds ks s) : Holds ks (s.replaceAll literalLineEnd fun _ => ['\n']) := by
  refine h.replaceAll (heeds_of_head fun hr => ?_) fun before ks s a rest hs hr => ?_
  · obtain ⟨rfl, -⟩ := List.cons.inj (literalLineEnd_eq hr)
    rfl
  · obtain rfl := literalLineEnd_eq hr
    exact ⟨['\\', 'n'], [], ks, [], rfl, rfl, (hs.tail (by decide)).tail (by decide), of_not_mem (by decide), rfl⟩

theorem not_mem_of_all {p : Char → Bool} (hp : p nul = false) (ht : ∀ c ∈ t, p c = true) : nul ∉ t := fun hn => by
  rw [ht nul hn] at hp
  cases hp

/-- What stands between dollars and what stands behind them. -/
theorem dollars {a b : Text} (h : Holds ks ('$' :: (a ++ '$' :: b))) :
    ∃ k₁ k₂, ks = k₁ ++ k₂ ∧ Holds k₁ a ∧ Holds k₂ b := by
  obtain ⟨k₁, k₂, rfl, h₁, h₂⟩ := (h.tail (by decide)).split (by decide)
  exact ⟨k₁, k₂, rfl, h₁, h₂.tail (by decide)⟩

theorem mergeChain (h : Holds ks s) : Holds ks (Repair.mergeChain s) := by
  refine h.rewriting (heeds_of_head fun hr => ?_) (fun _ => rfl) fun before ks s a rest hs hr => ?_
  · obtain ⟨_, _, _, _, _, -, he, -⟩ := chain_eq hr
    obtain ⟨rfl, -⟩ := List.cons.inj he
    rfl
  · obtain ⟨left, right, tail⟩ := a
    obtain ⟨g₁, g₂, g₃, g₄, t, hgap, rfl, rfl, rfl⟩ := chain_eq hr
    simp only [List.mem_append, or_imp, forall_and] at hgap
    obtain ⟨⟨⟨hg₁, hg₂⟩, hg₃⟩, hg₄⟩ := hgap
    replace hg₁ := not_mem_of_all (by decide) hg₁
    replace hg₂ := not_mem_of_all (by decide) hg₂
    replace hg₃ := not_mem_of_all (by decide) hg₃
    replace hg₄ := not_mem_of_all (by decide) hg₄
    obtain ⟨k₁, m, rfl, hleft, hs⟩ := hs.dollars
    obtain ⟨k₂, n, rfl, hright, hs⟩ := (((hs.behind hg₁).tail (by decide)).behind hg₂).dollars
    obtain ⟨k₃, k₄, rfl, htail, hrest⟩ := (((hs.behind hg₃).tail (by decide)).behind hg₄).run
      (p := fun c => c ≠ '\n') (fun c hc => by
        obtain rfl : c = '\n' := by simpa using hc
        rfl)
    have hsource : Holds (k₁ ++ (k₂ ++ k₃)) ('$' :: (left ++ '$' :: (g₁ ++ '=' :: (g₂ ++ '$' :: (right ++ '$' ::
        (g₃ ++ '+' :: (g₄ ++ t.takeWhile (· ≠ '\n')))))))) :=
      .char (by decide) (hleft.append (.char (by decide) (.text hg₁ (.char (by decide) (.text hg₂
        (.char (by decide) (hright.append (.char (by decide) (.text hg₃ (.char (by decide) (.text hg₄ htail)))))))))))
    have hx : '$' :: (left ++ '$' :: (g₁ ++ '=' :: (g₂ ++ '$' :: (right ++ '$' :: (g₃ ++ '+' :: (g₄ ++ t)))))) =
        '$' :: (left ++ '$' :: (g₁ ++ '=' :: (g₂ ++ '$' :: (right ++ '$' :: (g₃ ++ '+' :: (g₄ ++ t.takeWhile (· ≠ '\n')))))))
          ++ t.dropWhile (· ≠ '\n') := by
      simp [List.takeWhile_append_dropWhile]
    refine ⟨_, k₁ ++ (k₂ ++ k₃), k₄, _, hx, by simp, hrest, ?_, rfl⟩
    dsimp only
    split
    · have hmerged : Holds (k₁ ++ (k₂ ++ (k₃ ++ []))) ("$$ ".toList ++ (left ++ (" = ".toList ++ (right ++ (" + ".toList ++
          (Text.strip (t.takeWhile (· ≠ '\n')) ++ " $$".toList)))))) :=
        .text (by decide) (hleft.append (.text (by decide) (hright.append (.text (by decide)
          (htail.strip.append (of_not_mem (by decide)))))))
      simpa only [List.append_assoc, List.append_nil] using hmerged
    · rw [hx, Text.upTo_append_rest]
      exact hsource

theorem mergePairs (h : Holds ks s) : Holds ks (Repair.mergePairs s) := by
  refine h.replaceAll (heeds_of_head fun hr => ?_) fun before ks s a rest hs hr => ?_
  · obtain ⟨_, _, -, -, he⟩ := pair_eq hr
    obtain ⟨rfl, -⟩ := List.cons.inj he
    rfl
  · obtain ⟨left, op, right⟩ := a
    obtain ⟨g₁, g₂, hgap, hop, rfl⟩ := pair_eq hr
    simp only [List.mem_append, or_imp, forall_and] at hgap
    obtain ⟨hg₁, hg₂⟩ := hgap
    replace hop : op ≠ nul := by rcases hop with rfl | rfl | rfl <;> decide
    obtain ⟨k₁, m, rfl, hleft, hs⟩ := hs.dollars
    obtain ⟨k₂, k₃, rfl, hright, hrest⟩ := (((hs.behind (not_mem_of_all (by decide) hg₁)).tail hop).behind
      (not_mem_of_all (by decide) hg₂)).dollars
    refine ⟨'$' :: (left ++ '$' :: (g₁ ++ op :: (g₂ ++ '$' :: (right ++ ['$'])))), k₁ ++ k₂, k₃, _, by simp, by simp, hrest, ?_, rfl⟩
    have hmerged : Holds (k₁ ++ (k₂ ++ [])) ("$".toList ++ (left ++ (" ".toList ++ ([op] ++ (" ".toList ++ (right ++ "$".toList)))))) :=
      .text (by decide) (hleft.append (.text (by decide) (.text (by simp [Ne.symm hop]) (.text (by decide)
        (hright.append (of_not_mem (by decide)))))))
    simpa only [List.append_assoc, List.append_nil] using hmerged

theorem dropDollars {a b : Char} (ha : isMarkChar a = false) (hb : isMarkChar b = false) (h : Holds ks s) :
    Holds ks (Repair.dropDollars ['\\', a] ['\\', b] s) := by
  refine h.replaceAll (heeds_of_head fun hr => ?_) fun before ks s inside rest hs hr => ?_
  · obtain ⟨rfl, -⟩ := List.cons.inj (between_eq hr)
    rfl
  · obtain rfl := between_eq hr
    have ha := ne_nul_of_not_isMarkChar ha
    have hb := ne_nul_of_not_isMarkChar hb
    obtain ⟨k₁, k₂, rfl, hinside, hs⟩ := ((hs.tail (by decide)).tail ha).split (by decide)
    have hclean : Holds k₁ (inside.removeAll dollar) := by
      refine hinside.replaceAll (heeds_of_head fun hr => ?_) fun before ks s a rest hs hr => ?_
      · obtain ⟨rfl, -⟩ := List.cons.inj (dollar_eq hr)
        rfl
      · obtain rfl := dollar_eq hr
        exact ⟨['$'], [], ks, [], rfl, rfl, hs.tail (by decide), .nil, rfl⟩
    refine ⟨['\\', a] ++ (inside ++ ['\\', b]), k₁, k₂, _, by simp, rfl, (hs.tail (by decide)).tail hb, ?_, List.append_nil k₁⟩
    rw [List.append_assoc]
    exact .char (by decide) (.char ha (hclean.append (.char (by decide) (.char hb .nil))))

theorem joinSubscript {k₁ k₂ : List Nat} {formula script : Text} (hf : Holds k₁ formula) (hg : Holds k₂ script) :
    Holds (k₁ ++ k₂) (Repair.joinSubscript (formula, script)) := by
  have hjoined : Holds (k₁ ++ (k₂ ++ [])) ("$".toList ++ (formula ++ ("_\x7b".toList ++ (script ++ "\x7d$".toList)))) :=
    .text (by decide) (hf.append (.text (by decide) (hg.append (of_not_mem (by decide)))))
  simpa only [Repair.joinSubscript, List.append_assoc, List.append_nil] using hjoined

theorem strandedSubscripts (h : Holds ks s) : Holds ks (s.replaceAll strandedSubscript Repair.joinSubscript) := by
  refine h.replaceAll (heeds_of_head fun hr => ?_) fun before ks s a rest hs hr => ?_
  · obtain ⟨rfl, -⟩ := List.cons.inj (strandedSubscript_eq hr).2
    rfl
  · obtain ⟨formula, script⟩ := a
    obtain ⟨hscript, rfl⟩ := strandedSubscript_eq hr
    replace hscript := not_mem_of_all (p := isAlphanumeric) (by decide) hscript
    obtain ⟨k₁, k₂, rfl, hformula, hs⟩ := hs.dollars
    refine ⟨'$' :: (formula ++ '$' :: '_' :: script), k₁, k₂, _, by simp, rfl, (hs.tail (by decide)).behind hscript,
      joinSubscript hformula (of_not_mem hscript), List.append_nil k₁⟩

theorem strandedGroups (h : Holds ks s) : Holds ks (s.replaceAll strandedGroup Repair.joinSubscript) := by
  refine h.replaceAll (heeds_of_head fun hr => ?_) fun before ks s a rest hs hr => ?_
  · obtain ⟨_, -, he⟩ := strandedGroup_eq hr
    obtain ⟨rfl, -⟩ := List.cons.inj he
    rfl
  · obtain ⟨formula, script⟩ := a
    obtain ⟨gap, hgap, rfl⟩ := strandedGroup_eq hr
    obtain ⟨k₁, m, rfl, hformula, hs⟩ := hs.dollars
    obtain ⟨k₂, k₃, rfl, hscript, hs⟩ :=
      ((((hs.tail (by decide)).behind (not_mem_of_all (by decide) hgap)).tail (by decide))).split (by decide)
    exact ⟨'$' :: (formula ++ '$' :: '_' :: (gap ++ '{' :: (script ++ ['}']))), k₁ ++ k₂, k₃, _, by simp, by simp,
      hs.tail (by decide), joinSubscript hformula hscript, rfl⟩

end Holds

/-! ## Text without marks that a reader passes -/

/-- Between the text and what is left of it there is no mark. -/
def Passes (s rest : Text) : Prop := ∃ x, s = x ++ rest ∧ nul ∉ x

namespace Passes

variable {s t u : Text}

theorem refl (s : Text) : Passes s s := ⟨[], rfl, List.not_mem_nil⟩

theorem trans (h : Passes s t) (h' : Passes t u) : Passes s u := by
  obtain ⟨x, rfl, hx⟩ := h
  obtain ⟨y, rfl, hy⟩ := h'
  exact ⟨x ++ y, (List.append_assoc x y u).symm, by simp [hx, hy]⟩

instance : Trans Passes Passes Passes := ⟨trans⟩

theorem holds (h : Passes s t) {ks : List Nat} (hs : Holds ks s) : Holds ks t := by
  obtain ⟨x, rfl, hx⟩ := h
  exact hs.behind hx

theorem after? {p : Text} (hp : nul ∉ p) (h : Text.after? p s = some t) : Passes s t := ⟨p, Text.after?_eq_some_iff.1 h, hp⟩

theorem afterCaseless? {p : Text} (hp : nul ∉ p) (h : Text.afterCaseless? p s = some t) : Passes s t := by
  obtain ⟨q, rfl, rfl⟩ := Text.afterCaseless?_eq_some h
  exact ⟨q, rfl, fun hq => hp (List.mem_map.2 ⟨nul, hq, by decide⟩)⟩

theorem dropWhile {p : Char → Bool} (hp : p nul = false) (s : Text) : Passes s (s.dropWhile p) := by
  obtain ⟨gap, hs, hgap⟩ := Text.dropWhile_eq p s
  exact ⟨gap, hs, Holds.not_mem_of_all hp hgap⟩

theorem blanks (s : Text) : Passes s (s.dropWhile isBlank) := dropWhile (by decide) s

/-- A part that may be missing. -/
theorem getD {o : Option Text} (h : ∀ t, o = some t → Passes s t) : Passes s (o.getD s) := by
  cases o with
  | none => exact refl s
  | some t => exact h t rfl

theorem ghostTitle? (h : Repair.ghostTitle? s = some t) : Passes s t := by
  unfold Repair.ghostTitle? at h
  cases hr : Text.afterCaseless? "references" s with
  | some r =>
    rw [hr] at h
    cases h
    exact afterCaseless? (by decide) hr
  | none =>
    rw [hr] at h
    cases hb : Text.afterCaseless? "bibliography" s with
    | some r =>
      rw [hb] at h
      cases h
      exact afterCaseless? (by decide) hb
    | none =>
      rw [hb] at h
      simp only [Option.bind_eq_bind, HOrElse.hOrElse, OrElse.orElse, Option.orElse, Option.bind_eq_some_iff] at h
      obtain ⟨w, hw, h⟩ := h
      refine (afterCaseless? (by decide) hw).trans ?_
      split at h
      · split at h
        · exact (blanks _).trans (afterCaseless? (by decide) h)
        · cases h
      · cases h

theorem ghostHeader {before : Option Char} {r : Unit} (h : Repair.ghostHeader before s = some (r, t)) :
    Passes s t ∧ ∃ u, s = '\\' :: u := by
  simp only [Repair.ghostHeader, Option.bind_eq_bind, Option.bind_eq_some_iff] at h
  obtain ⟨s₁, h₁, s₂, h₂, s₃, h₃, s₄, h₄, s₅, h₅, h₆⟩ := h
  obtain ⟨-, rfl⟩ := Prod.mk.inj (Option.some.inj h₆)
  have hsub : Passes s₁ ((Text.afterCaseless? "sub" s₁).getD s₁) := getD fun _ h => afterCaseless? (by decide) h
  have hstar : Passes s₂ ((Text.after? "*" s₂).getD s₂) := getD fun _ h => after? (by decide) h
  refine ⟨?_, s₁, Text.after?_eq_some_iff.1 h₁⟩
  calc Passes s s₁ := after? (by decide) h₁
    Passes _ s₂ := hsub.trans (afterCaseless? (by decide) h₂)
    Passes _ s₃ := hstar.trans ((blanks _).trans (after? (by decide) h₃))
    Passes _ s₄ := (blanks _).trans (ghostTitle? h₄)
    Passes _ s₅ := (blanks _).trans (after? (by decide) h₅)

end Passes

namespace Holds

variable {ks : List Nat} {s : Text}

theorem ghostHeaders (h : Holds ks s) : Holds ks (s.removeAll ghostHeader) := by
  refine h.replaceAll (heeds_of_head fun hr => ?_) fun before ks s a rest hs hr => ?_
  · obtain ⟨_, he⟩ := (Passes.ghostHeader hr).2
    obtain ⟨rfl, -⟩ := List.cons.inj he
    rfl
  · have hpass := (Passes.ghostHeader hr).1
    obtain ⟨x, he, -⟩ := id hpass
    exact ⟨x, [], ks, [], he, rfl, hpass.holds hs, .nil, rfl⟩

/-- Up to the removal of unsafe commands a text keeps its marks. -/
theorem mend (h : Holds ks s) : Holds ks (beforeDrop s) :=
  (((((h.literalLineEnds.ghostHeaders.mergeChain).mergePairs).dropDollars (by decide) (by decide)).dropDollars
    (by decide) (by decide)).strandedSubscripts).strandedGroups

end Holds

/-! ## The removal of unsafe commands -/

/-- What a reader leaves of a text begins between marks. -/
def Leaves (ks : List Nat) (s rest : Text) : Prop := rest <:+ s ∧ ∃ ls, ls <:+ ks ∧ Holds ls rest

namespace Leaves

variable {ks ls : List Nat} {s t rest : Text}

theorem of_passes (h : Passes s t) (hs : Holds ks s) : Leaves ks s t :=
  ⟨h.elim fun x hx => ⟨x, hx.1.symm⟩, ks, List.suffix_refl ks, h.holds hs⟩

theorem trans (h : Leaves ks s t) (h' : ∀ {ls}, Holds ls t → Leaves ls t rest) : Leaves ks s rest := by
  obtain ⟨hsuffix, ls, hls, hs⟩ := h
  obtain ⟨hsuffix', ms, hms, ht⟩ := h' hs
  exact ⟨hsuffix'.trans hsuffix, ms, hms.trans hls, ht⟩

/-- A run of characters up to one that is none of a mark. -/
theorem run {p : Char → Bool} (hp : ∀ c, p c = false → isMarkChar c = false) (hs : Holds ks s) :
    Leaves ks s (s.dropWhile p) := by
  obtain ⟨k₁, k₂, rfl, -, hrest⟩ := hs.run hp
  exact ⟨List.dropWhile_suffix p, k₂, List.suffix_append k₁ k₂, hrest⟩

theorem braced {command : Text} (hc : nul ∉ command) {before : Option Char} {r : Unit} (hs : Holds ks s)
    (h : Repair.braced command before s = some (r, rest)) : Leaves ks s rest := by
  obtain ⟨s₁, s₂, a, h₁, h₂, h₃⟩ := braced_eq_some h
  have hopen : Passes s ('{' :: s₂) := (Passes.afterCaseless? hc h₁).trans (h₂ ▸ Passes.blanks s₁)
  refine (of_passes hopen hs).trans fun {ls} hs => ?_
  rw [Text.closedBy_eq h₃] at hs ⊢
  obtain ⟨k₁, k₂, rfl, -, hrest⟩ := (hs.tail (by decide)).split (by decide)
  exact ⟨⟨'{' :: (a ++ ['}']), by simp⟩, k₂, List.suffix_append k₁ k₂, hrest.tail (by decide)⟩

theorem shellEscape {r : Unit} (hs : Holds ks s) (h : Repair.shellEscape none s = some (r, rest)) : Leaves ks s rest := by
  rcases shellEscape_eq_some h with ⟨s₁, h₁, h₂⟩ | h₂
  · have himmediate := (Passes.afterCaseless? (by decide) h₁).trans (Passes.blanks s₁)
    exact (of_passes himmediate hs).trans fun hs => braced (by decide) hs h₂
  · exact braced (by decide) hs h₂

theorem stream {command : Text} (hc : nul ∉ command) {before : Option Char} {r : Unit} (hs : Holds ks s)
    (h : Repair.stream command before s = some (r, rest)) : Leaves ks s rest := by
  simp only [Repair.stream, Option.bind_eq_bind, Option.bind_eq_some_iff] at h
  obtain ⟨s₁, h₁, h₂⟩ := h
  obtain ⟨-, rfl⟩ := Prod.mk.inj (Option.some.inj h₂)
  have hnumber : Passes s (((s₁.dropWhile isBlank).dropWhile isDecimalDigit).dropWhile isBlank) :=
    calc Passes s s₁ := .afterCaseless? hc h₁
      Passes _ _ := .blanks s₁
      Passes _ _ := .dropWhile (p := isDecimalDigit) (by decide) _
      Passes _ _ := .blanks _
  have hsign (t : Text) : Passes t (((Text.after? "=" t).getD t).dropWhile isBlank) :=
    (Passes.getD fun _ h => Passes.after? (by decide) h).trans (.blanks _)
  refine (of_passes (hnumber.trans (hsign _)) hs).trans fun hs => run (fun c hc => ?_) hs
  simp only [Bool.not_eq_false', Bool.or_eq_true, decide_eq_true_eq] at hc
  rcases hc with hc | rfl
  · exact not_isMarkChar_of_isBlank hc
  · rfl

theorem catcode {r : Unit} (hs : Holds ks s) (h : Repair.catcode none s = some (r, rest)) : Leaves ks s rest := by
  obtain ⟨s₁, c, s₂, h₁, h₂, hc, rfl⟩ := catcode_eq_some h
  have hcode : Passes s (c :: s₂) := (Passes.afterCaseless? (by decide) h₁).trans (h₂ ▸ Passes.blanks s₁)
  have hnul : c ≠ nul := by
    rintro rfl
    revert hc
    decide
  refine (of_passes hcode hs).trans fun {ls} hs => ?_
  have htail := run (p := (· ≠ '\n')) (fun x hx => by
    obtain rfl : x = '\n' := by simpa using hx
    rfl) (hs.tail hnul)
  exact ⟨htail.1.trans (List.suffix_cons c s₂), htail.2⟩

/-- No command begins at a mark. -/
theorem heeds_command {name : Text} {c : Char} (h : Text.afterCaseless? ('\\' :: name) (c :: s) = some t) :
    isMarkChar c = false := by
  obtain ⟨q, hq, hname⟩ := Text.afterCaseless?_eq_some h
  obtain ⟨x, q, rfl, hx, -⟩ := List.map_eq_cons_iff.1 hname
  obtain ⟨rfl, -⟩ := List.cons.inj hq
  obtain rfl := eq_of_foldChar hx
  rfl

/-- Every unsafe command ends between marks, and none begins at a mark. -/
theorem unsafe_command : ∀ p ∈ unsafeCommands, Heeds p.2 ∧
    ∀ before ks s r rest, Holds ks s → p.2 before s = some (r, rest) → Leaves ks s rest := by
  have hbraced (name : Text) (hname : nul ∉ '\\' :: name) : Heeds (Repair.braced ('\\' :: name)) ∧
      ∀ before ks s r rest, Holds ks s → Repair.braced ('\\' :: name) before s = some (r, rest) → Leaves ks s rest := by
    refine ⟨heeds_of_head fun hr => ?_, fun before ks s r rest => braced hname⟩
    obtain ⟨_, _, _, h, -⟩ := braced_eq_some hr
    exact heeds_command h
  have hstream (name : Text) (hname : nul ∉ '\\' :: name) : Heeds (Repair.stream ('\\' :: name)) ∧
      ∀ before ks s r rest, Holds ks s → Repair.stream ('\\' :: name) before s = some (r, rest) → Leaves ks s rest := by
    refine ⟨heeds_of_head fun hr => ?_, fun before ks s r rest => stream hname⟩
    obtain ⟨_, h, -⟩ := Option.bind_eq_some_iff.1 hr
    exact heeds_command h
  intro p hp
  simp only [unsafeCommands, List.mem_cons, List.not_mem_nil, or_false] at hp
  rcases hp with rfl | rfl | rfl | rfl | rfl | rfl | rfl
  · refine ⟨heeds_of_head fun hr => ?_, fun before ks s r rest => shellEscape⟩
    rcases shellEscape_eq_some hr with ⟨_, h, -⟩ | h
    · exact heeds_command h
    · obtain ⟨_, _, _, h, -⟩ := braced_eq_some h
      exact heeds_command h
  · exact hbraced _ (by decide)
  · exact hbraced _ (by decide)
  · exact hstream _ (by decide)
  · exact hstream _ (by decide)
  · exact hbraced _ (by decide)
  · refine ⟨heeds_of_head fun hr => ?_, fun before ks s r rest => catcode⟩
    obtain ⟨_, _, _, h, -⟩ := catcode_eq_some hr
    exact heeds_command h

end Leaves

namespace Holds

variable {ks : List Nat} {s : Text}

/-- Taking a construct out takes whole marks with it. -/
theorem removeAll {read : Reader Unit} (hheed : Heeds read)
    (hread : ∀ before ks s r rest, Holds ks s → read before s = some (r, rest) → Leaves ks s rest) (h : Holds ks s) :
    ∃ ls, ls.Sublist ks ∧ Holds ls (s.removeAll read) := by
  rw [removeAll_eq]
  refine h.flatMap_cut (R := List.Sublist) List.Sublist.refl List.Sublist.append hheed (fun _ => rfl) fun before ks s a rest hs hr => ?_
  obtain ⟨⟨x, rfl⟩, k₂, ⟨k₁, rfl⟩, hrest⟩ := hread before ks s a rest hs hr
  exact ⟨x, k₁, k₂, [], rfl, rfl, hrest, .nil, List.nil_sublist k₁⟩

/-- Unsafe commands take whole marks with them, and all marks are left if there is no unsafe command. -/
theorem dropUnsafe (h : Holds ks s) : ∃ ls, ls.Sublist ks ∧ Holds ls (Repair.dropUnsafe s).content ∧
    ((∀ p ∈ unsafeCommands, sources p.2 s = []) → ls = ks) := by
  by_cases hnone : ∀ p ∈ unsafeCommands, sources p.2 s = []
  · rw [dropUnsafe_of_none hnone]
    exact ⟨ks, .refl ks, h, fun _ => rfl⟩
  · have hdrop : ∃ ls, ls.Sublist ks ∧ Holds ls (Repair.dropUnsafe s).content := by
      unfold Repair.dropUnsafe
      refine List.foldlRecOn (motive := fun r : Repaired => ∃ ls : List Nat, ls.Sublist ks ∧ Holds ls r.content) _ _
        ⟨ks, .refl ks, h⟩ fun r hr p hp => ?_
      obtain ⟨ls, hls, hr⟩ := hr
      dsimp only
      split
      · exact ⟨ls, hls, hr⟩
      · obtain ⟨hheed, hread⟩ := Leaves.unsafe_command p hp
        obtain ⟨ms, hms, h⟩ := hr.removeAll hheed hread
        exact ⟨ms, hms.trans hls, h⟩
    obtain ⟨ls, hls, hleft⟩ := hdrop
    exact ⟨ls, hls, hleft, fun h => absurd h hnone⟩

end Holds

/-! ## Code under marks -/

/-- Texts with pieces of code between them. -/
def interleave (codes : List Text) (w₀ : Text) (parts : List (Nat × Text)) : Text :=
  w₀ ++ parts.flatMap fun (i, w) => codes.getD i [] ++ w

theorem shelterReader_mark (k : Nat) (before : Option Char) (s : Text) :
    shelterReader before (shelterMark k ++ s) = some (k, s) := by
  have hspan := Text.span_ofNat k (show isDecimalDigit nul = false by decide) s
  rw [shelterMark_eq, List.cons_append, List.append_assoc, List.singleton_append]
  simp only [shelterReader, if_true, hspan, Text.isEmpty_ofNat, decide_true, Bool.not_false, Bool.and_self, Text.digitsValue_ofNat]

theorem shelterReader_char {c : Char} (hc : c ≠ nul) (before : Option Char) (s : Text) : shelterReader before (c :: s) = none := by
  simp only [shelterReader, if_neg hc]

theorem forward_shelterReader : Text.Forward shelterReader := fun _ _ s => by cases s <;> rfl

/-- Code comes back in the places of its marks, whatever it is. -/
theorem Holds.unshelter {ks : List Nat} {s : Text} (h : Holds ks s) :
    ∃ w₀ parts, parts.map Prod.fst = ks ∧ ∀ codes, Repair.unshelter codes s = interleave codes w₀ parts := by
  induction h with
  | nil => exact ⟨[], [], rfl, fun _ => rfl⟩
  | @char c ks s hc _ ih =>
    obtain ⟨w₀, parts, hparts, hs⟩ := ih
    refine ⟨c :: w₀, parts, hparts, fun codes => ?_⟩
    have htail := hs codes
    unfold Repair.unshelter Text.replaceAll at htail ⊢
    rw [forward_shelterReader.cut_cons (shelterReader_char hc none s), List.flatMap_cons, htail]
    rfl
  | @mark k ks s _ ih =>
    obtain ⟨w, parts, hparts, hs⟩ := ih
    refine ⟨[], (k, w) :: parts, by rw [List.map_cons, hparts], fun codes => ?_⟩
    have htail := hs codes
    have hread := shelterReader_mark k none s
    rw [shelterMark_eq, List.cons_append] at hread ⊢
    unfold Repair.unshelter Text.replaceAll at htail ⊢
    rw [forward_shelterReader.cut_hit hread rfl, List.flatMap_cons, htail]
    simp [interleave, List.getD_eq_getElem?_getD]

/-- The pieces of a text in which `spans` are the pieces of code, each with the text behind it. -/
def spanned (u₀ : Text) (spans : List (Text × Text)) : List (Piece Unit) :=
  u₀.map .char ++ spans.flatMap fun (v, u) => .hit () v :: u.map .char

/-- A text with marks from `n` on in the places of code. -/
def numbered : (n : Nat) → List Text → Text
  | _, [] => []
  | n, u :: us => shelterMark n ++ u ++ numbered (n + 1) us

theorem shelterPieces_chars (n : Nat) (u : Text) (ps : List (Piece Unit)) :
    shelterPieces n (u.map .char ++ ps) = (u ++ (shelterPieces n ps).1, (shelterPieces n ps).2) := by
  induction u with
  | nil => rfl
  | cons c u ih => simp only [List.map_cons, List.cons_append, shelterPieces, ih]

theorem shelterPieces_spanned (n : Nat) (u₀ : Text) (spans : List (Text × Text)) :
    shelterPieces n (spanned u₀ spans) = (u₀ ++ numbered n (spans.map Prod.snd), spans.map Prod.fst) := by
  rw [spanned, shelterPieces_chars]
  induction spans generalizing n with
  | nil => rfl
  | cons p spans ih =>
    obtain ⟨v, u⟩ := p
    simp only [List.flatMap_cons, List.cons_append, shelterPieces, shelterPieces_chars, numbered, List.map_cons,
      List.append_assoc]
    have ih := ih (n + 1)
    rw [Prod.mk.injEq] at ih
    rw [List.append_cancel_left ih.1, ih.2]

theorem holds_numbered (n : Nat) {us : List Text} (h : ∀ u ∈ us, nul ∉ u) :
    Holds (List.range' n us.length) (numbered n us) := by
  induction us generalizing n with
  | nil => exact .nil
  | cons u us ih =>
    obtain ⟨hu, hus⟩ := List.forall_mem_cons.1 h
    rw [numbered, List.append_assoc]
    exact .mark n (.text hu (ih (n + 1) hus))

/-- The rules for code fences find nothing. -/
def Unfenced (s : Text) : Prop := afterOpeningFence? s = none ∧ s.find? closingFence = none

theorem Unfenced.stripFences_eq {s : Text} (h : Unfenced s) : stripFences s = s := by
  rw [stripFences, h.1, Option.getD_none, h.2]

/-- A document without fences is repaired by mending what stands around its code. -/
theorem repair_of_unfenced {s : Text} (hf : Unfenced s) :
    (repair s).content = unshelter (shelter s).2 (dropUnsafe (beforeDrop (shelter s).1)).content ∧
      (repair s).warnings = (dropUnsafe (beforeDrop (shelter s).1)).warnings ∧
      (repair s).removed = (dropUnsafe (beforeDrop (shelter s).1)).removed := by
  have hmend : ∀ t, dropUnsafe (beforeDrop t) = mend t := fun _ => rfl
  rw [hmend]
  cases s with
  | nil => exact ⟨rfl, rfl, rfl⟩
  | cons c s =>
    refine ⟨?_, ?_, ?_⟩ <;> simp only [repair, hf.stripFences_eq, List.isEmpty_cons, Bool.false_eq_true, if_false]

section Spanned

variable {s u₀ : Text} {spans : List (Text × Text)}

theorem shelter_spanned (hnul : nul ∉ s) (hs : s.cut verbatim = spanned u₀ spans) :
    shelter s = (u₀ ++ numbered 0 (spans.map Prod.snd), spans.map Prod.fst) := by
  have hfilter : s.filter (· ≠ nul) = s := List.filter_eq_self.2 fun c hc => decide_eq_true fun h => hnul (h ▸ hc)
  rw [shelter, hfilter, hs, shelterPieces_spanned]

theorem sources_spanned (u₀ : Text) (spans : List (Text × Text)) :
    Piece.sources (spanned u₀ spans) = u₀ ++ spans.flatMap fun (v, u) => v ++ u := by
  have hchars (u : Text) : Piece.sources (u.map (Piece.char (α := Unit))) = u := by
    rw [Piece.sources, List.flatMap_map]
    exact List.flatMap_singleton' u
  rw [spanned, Piece.sources, List.flatMap_append, List.flatMap_assoc, ← Piece.sources, hchars]
  congr 2
  funext p
  rw [List.flatMap_cons, ← Piece.sources, hchars]
  rfl

theorem not_mem_spanned (hnul : nul ∉ s) (hs : s.cut verbatim = spanned u₀ spans) :
    nul ∉ u₀ ∧ ∀ u ∈ spans.map Prod.snd, nul ∉ u := by
  rw [← @Text.sources_cut _ verbatim s, hs, sources_spanned, List.mem_append, not_or] at hnul
  refine ⟨hnul.1, fun u hu hmem => ?_⟩
  obtain ⟨⟨v, u⟩, hp, rfl⟩ := List.mem_map.1 hu
  exact hnul.2 (List.mem_flatMap.2 ⟨(v, u), hp, List.mem_append_right v hmem⟩)

end Spanned

/-- Documents that differ in their code only are repaired alike: some of the pieces of code come back, in order,
    between the same texts, with the same warnings and the same commands taken out. If there is no unsafe command
    in the mended text, every piece comes back. -/
theorem repair_keeps_code {s s' u₀ : Text} {us vs vs' : List Text} (hnul : nul ∉ s) (hnul' : nul ∉ s')
    (hf : Unfenced s) (hf' : Unfenced s') (hlen : vs.length = us.length) (hlen' : vs'.length = us.length)
    (hs : s.cut verbatim = spanned u₀ (vs.zip us)) (hs' : s'.cut verbatim = spanned u₀ (vs'.zip us)) :
    ∃ w₀ parts, (parts.map Prod.fst).Pairwise (· < ·) ∧ (∀ p ∈ parts, p.1 < us.length) ∧
      (repair s).content = interleave vs w₀ parts ∧ (repair s').content = interleave vs' w₀ parts ∧
      (repair s).warnings = (repair s').warnings ∧ (repair s).removed = (repair s').removed ∧
      ((∀ p ∈ unsafeCommands, sources p.2 (beforeDrop (shelter s).1) = []) →
        parts.map Prod.fst = List.range us.length) := by
  obtain ⟨hcontent, hwarnings, hremoved⟩ := repair_of_unfenced hf
  obtain ⟨hcontent', hwarnings', hremoved'⟩ := repair_of_unfenced hf'
  obtain ⟨hu₀, hus⟩ := not_mem_spanned hnul hs
  -- both documents have the same text with marks
  have hshelter : shelter s = (u₀ ++ numbered 0 us, vs) := by
    rw [shelter_spanned hnul hs, List.map_snd_zip (by omega), List.map_fst_zip (by omega)]
  have hshelter' : shelter s' = (u₀ ++ numbered 0 us, vs') := by
    rw [shelter_spanned hnul' hs', List.map_snd_zip (by omega), List.map_fst_zip (by omega)]
  rw [List.map_snd_zip (by omega)] at hus
  have hmarked : Holds (List.range us.length) (u₀ ++ numbered 0 us) := by
    rw [List.range_eq_range']
    exact .text hu₀ (holds_numbered 0 hus)
  obtain ⟨ks, hks, hleft, hall⟩ := hmarked.mend.dropUnsafe
  obtain ⟨w₀, parts, hparts, hback⟩ := hleft.unshelter
  refine ⟨w₀, parts, ?_, fun p hp => ?_, ?_, ?_, ?_, ?_, ?_⟩
  · rw [hparts]
    exact List.pairwise_lt_range.sublist hks
  · exact List.mem_range.1 (hks.subset (hparts ▸ List.mem_map_of_mem hp))
  · rw [hcontent, hshelter]
    exact hback vs
  · rw [hcontent', hshelter']
    exact hback vs'
  · rw [hwarnings, hwarnings', hshelter, hshelter']
  · rw [hremoved, hremoved', hshelter, hshelter']
  · rw [hparts, hshelter]
    exact hall

deriving instance DecidableEq for Piece

/-- Formulas between two pieces of code, and an unsafe command around one of them. -/
theorem repair_keeps_code_input :
    let s := "\\verb|$a$|$x$_1\\input\x7b\\verb|b|\x7d".toList
    let s' := "\\verb+$+$x$_1\\input\x7b\\verb|\\|\x7d".toList
    ∃ w₀ parts, (parts.map Prod.fst).Pairwise (· < ·) ∧ (∀ p ∈ parts, p.1 < 2) ∧
      (repair s).content = interleave ["\\verb|$a$|".toList, "\\verb|b|".toList] w₀ parts ∧
      (repair s').content = interleave ["\\verb+$+".toList, "\\verb|\\|".toList] w₀ parts ∧
      (repair s).warnings = (repair s').warnings ∧ (repair s).removed = (repair s').removed ∧
      ((∀ p ∈ unsafeCommands, sources p.2 (beforeDrop (shelter s).1) = []) →
        parts.map Prod.fst = List.range 2) :=
  @repair_keeps_code _ _ [] ["$x$_1\\input\x7b".toList, "\x7d".toList] _ _
    (by decide) (by decide) ⟨by decide +kernel, by decide +kernel⟩ ⟨by decide +kernel, by decide +kernel⟩ rfl rfl
    (by decide +kernel) (by decide +kernel)

end Galley.Repair
