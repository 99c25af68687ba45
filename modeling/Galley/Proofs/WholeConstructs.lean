import Galley.Proofs.Tags
import Mathlib.Data.List.TakeWhile
/-!
# Markup made of whole constructs

A text is read step by step, so what every step yields and leaves holds of all its tokens (`forall_tokensFrom`).
A text of characters that begin no construct and of constructs that are read whole, whatever follows them, is cut
into these constructs and text (`Whole.forall_tokens`).
-/

namespace Galley.Html

/-! ## Runs -/

section Runs

variable {P : Token → Prop} {R : Option Text → Text → Prop}

/-- The tokens of a step have `P`, and what it leaves to be read has `R`. -/
def Step.Keeps (P : Token → Prop) (R : Option Text → Text → Prop) (raw : Option Text) : Step → Prop
  | .go ts rest => (∀ t ∈ ts, P t) ∧ R (rawAfter raw ts) rest
  | .stuck ts rest => (∀ t ∈ ts, P t) ∧ R raw rest

theorem forall_tokensFrom (htext : ∀ s, P (.text s)) (hplain : ∀ {raw s}, R raw s → R raw (plainText raw s).2)
    (hstep : ∀ final {raw s}, R raw s → (step final raw s).Keeps P R raw) (final : Bool) {raw : Option Text} {s : Text}
    (h : R raw s) : ∀ t ∈ tokensFrom final raw s, P t := by
  -- as reading itself: a step leaves a shorter text, and a retry the same text for the last time
  generalize hn : 2 * s.length + (if final then 0 else 1) = n
  induction n using Nat.strongRecOn generalizing raw s final with
  | _ n ih =>
    have hkeeps := hstep final (hplain h)
    have hfront : ∀ t ∈ (if (plainText raw s).1.isEmpty then [] else [Token.text (plainText raw s).1]), P t := by
      split <;> simp [htext]
    have append {a b : List Token} (ha : ∀ t ∈ a, P t) (hb : ∀ t ∈ b, P t) : ∀ t ∈ a ++ b, P t :=
      fun t ht => (List.mem_append.1 ht).elim (ha t) (hb t)
    rw [tokensFrom]
    dsimp only
    split
    · simp
    split
    · exact hfront
    split
    · rename_i ts next hgo
      rw [hgo] at hkeeps
      obtain ⟨hts, hnext⟩ := hkeeps
      split
      · refine append (append hfront hts) (ih _ ?_ final hnext rfl)
        omega
      · exact append hfront hts
    · rename_i ts next hstuck
      rw [hstuck] at hkeeps
      obtain ⟨hts, hnext⟩ := hkeeps
      split
      · refine append (append hfront hts) ?_
        split <;> simp [htext]
      split
      · rename_i hfinal hlen
        refine append (append hfront hts) (ih _ ?_ true hnext rfl)
        simp only [hfinal, if_true, Bool.false_eq_true, if_false] at hn ⊢
        omega
      · exact append hfront hts

end Runs

/-! ## References -/

/-- The end of a numeric reference goes over no tag. -/
theorem referenceEnd_eq_some {n : Nat} {u t rest : Text} (h : (match u with
      | [] => none
      | ';' :: rest => some ([numberedChar n], rest)
      | c :: rest => if isHexDigit c then none else some ([numberedChar n], c :: rest)) = some (t, rest)) :
    ∃ p, '<' ∉ p ∧ u = p ++ rest := by
  split at h
  · cases h
  · cases h
    exact ⟨[';'], by decide, rfl⟩
  · split at h
    · cases h
    · cases h
      exact ⟨[], List.not_mem_nil, rfl⟩

/-- A reference goes over no tag. -/
theorem span_eq {p : Char → Bool} {u v w : Text} (hs : u.span p = (v, w)) (hp : p '<' = false) : '<' ∉ v ∧ u = v ++ w := by
  rw [List.span_eq_takeWhile_dropWhile, Prod.mk.injEq] at hs
  obtain ⟨rfl, rfl⟩ := hs
  refine ⟨fun hm => ?_, List.takeWhile_append_dropWhile.symm⟩
  have := List.mem_takeWhile_imp hm
  rw [hp] at this
  cases this

theorem textReference?_eq_some {s t rest : Text} (h : textReference? s = some (t, rest)) :
    ∃ p, '<' ∉ p ∧ s = p ++ rest := by
  revert h
  fun_cases textReference? s
  all_goals intro h
  case case1 u finishes digits v hspan hdigits r hr =>
    obtain ⟨hd, rfl⟩ := span_eq hspan (by decide)
    obtain ⟨p, hp, rfl⟩ := referenceEnd_eq_some (hr.trans h)
    exact ⟨'&' :: '#' :: (digits ++ p), by simp [hd, hp], by simp⟩
  case case3 finishes _ _ _ x u digits v hspan hx _ =>
    obtain ⟨hd, rfl⟩ := span_eq hspan (by decide)
    obtain ⟨p, hp, rfl⟩ := referenceEnd_eq_some h
    have hne : '<' ≠ x := by
      rintro rfl
      simp at hx
    exact ⟨'&' :: '#' :: x :: (digits ++ p), by simp [hd, hp, hne], by simp⟩
  case case8 c u _ hc more v hspan name r w characters hname =>
    obtain ⟨hm, rfl⟩ := span_eq hspan (by decide)
    have hne : '<' ≠ c := by
      rintro rfl
      exact hc (by decide)
    obtain ⟨-, hrest⟩ := Prod.mk.inj (Option.some.inj h)
    obtain ⟨p, hp, hp'⟩ : ∃ p, '<' ∉ p ∧ more ++ v = p ++ r :: w := by
      split at hname
      · rename_i hv
        rw [List.isEmpty_iff.1 hv, List.append_nil]
        dsimp only at hname
        split at hname
        · cases hname
        · obtain ⟨-, hdrop⟩ := Prod.mk.inj hname
          exact ⟨_, fun hm' => hm (List.mem_of_mem_take hm'), by rw [← hdrop, List.take_append_drop]⟩
      · obtain ⟨-, rfl⟩ := Prod.mk.inj hname
        exact ⟨more, hm, rfl⟩
    rw [hp', ← hrest]
    split
    · rename_i hr
      exact ⟨'&' :: c :: (p ++ [';']), by simp [hp, hne], by simp [hr]⟩
    · exact ⟨'&' :: c :: p, by simp [hp, hne], rfl⟩
  all_goals cases h

theorem plainText_eq (s : Text) : s = (plainText none s).1 ++ (plainText none s).2 ∧ '<' ∉ (plainText none s).1 := by
  induction s with
  | nil => exact ⟨rfl, List.not_mem_nil⟩
  | cons c s ih =>
    by_cases hc : isMarkupChar none (c :: s) = true
    · simp [plainText, hc]
    · have hne : '<' ≠ c := by
        rintro rfl
        exact hc (by simp [isMarkupChar])
      simp only [plainText, hc, Bool.false_eq_true, if_false]
      exact ⟨congrArg (c :: ·) ih.1, by simp [hne, ih.2]⟩

/-! ## Whole constructs -/

/-- What stands behind an angle bracket is read as one token with `P`, whatever follows, and what follows is read as
    markup again. -/
def Reads (P : Token → Prop) (u : Text) : Prop :=
  ∀ rest, ∃ t, construct none (u ++ rest) = .tokens [t] rest ∧ P t ∧ rawAfter none [t] = none

/-- Characters that begin no construct, and constructs; `Q` says what stands behind their angle bracket. -/
inductive Whole (Q : Text → Prop) : Text → Prop where
  | nil : Whole Q []
  | char {c : Char} {s : Text} (hc : c ≠ '<') (hs : Whole Q s) : Whole Q (c :: s)
  | construct {u s : Text} (hu : Q u) (hs : Whole Q s) : Whole Q ('<' :: (u ++ s))

namespace Whole

variable {Q : Text → Prop} {s t : Text}

theorem append (hs : Whole Q s) (ht : Whole Q t) : Whole Q (s ++ t) := by
  induction hs with
  | nil => exact ht
  | char hc _ ih => exact .char hc ih
  | construct hu _ ih =>
    rw [List.cons_append, List.append_assoc]
    exact .construct hu ih

theorem of_not_mem (h : '<' ∉ s) : Whole Q s := by
  induction s with
  | nil => exact .nil
  | cons c s ih =>
    obtain ⟨hc, hs⟩ := not_or.1 (mt List.mem_cons.2 h)
    exact .char (Ne.symm hc) (ih hs)

theorem tail {c : Char} (hc : c ≠ '<') (h : Whole Q (c :: s)) : Whole Q s := by
  generalize ht : c :: s = t at h
  cases h with
  | nil => cases ht
  | char _ hs =>
    obtain ⟨-, rfl⟩ := List.cons.inj ht
    exact hs
  | construct => exact absurd (List.cons.inj ht).1 hc

/-- Characters that begin no construct can be dropped. -/
theorem drop {p : Text} (hp : '<' ∉ p) (h : Whole Q (p ++ s)) : Whole Q s := by
  induction p with
  | nil => exact h
  | cons c p ih =>
    simp only [List.mem_cons, not_or] at hp
    exact ih hp.2 (h.tail (Ne.symm hp.1))

variable {P : Token → Prop}

section Read

variable (hQ : ∀ u, Q u → Reads P u)

include hQ

/-- A text with a construct at its head is read as that construct. -/
theorem construct_eq (h : Whole Q ('<' :: s)) :
    s ≠ [] ∧ ∃ t rest, Html.construct none s = .tokens [t] rest ∧ P t ∧ rawAfter none [t] = none ∧ Whole Q rest := by
  generalize hs : '<' :: s = u at h
  cases h with
  | nil => cases hs
  | char hc => exact absurd (List.cons.inj hs).1.symm hc
  | @construct u rest hu hrest =>
    obtain ⟨-, rfl⟩ := List.cons.inj hs
    obtain ⟨t, hread, ht, hraw⟩ := hQ u hu rest
    -- behind a bare `<` nothing is read, so there is something behind it
    refine ⟨fun hnil => ?_, t, rest, hread, ht, hraw, hrest⟩
    rw [hnil] at hread
    cases hread

/-- A step goes over a whole construct, or over no part of one. -/
theorem keeps_step (htext : ∀ s, P (.text s)) (final : Bool) (h : Whole Q s) :
    (step final none s).Keeps P (fun raw s => raw = none ∧ Whole Q s) none := by
  have hone (t : Text) : ∀ x ∈ [Token.text t], P x := by simp [htext]
  have hnone : ∀ x ∈ ([] : List Token), P x := by simp
  have reference {s t rest : Text} (h : Whole Q s) (hr : textReference? s = some (t, rest)) : Whole Q rest := by
    obtain ⟨p, hp, rfl⟩ := textReference?_eq_some hr
    exact h.drop hp
  have tag {s : Text} (h : Whole Q ('<' :: s)) :
      (step final none ('<' :: s)).Keeps P (fun raw s => raw = none ∧ Whole Q s) none := by
    obtain ⟨hne, t, rest, hread, ht, hraw, hrest⟩ := construct_eq hQ h
    have hstep : step final none ('<' :: s) = .go [t] rest := by
      cases s with
      | nil => exact absurd rfl hne
      | cons c s => simp only [step, hread]
    rw [hstep]
    exact ⟨by simpa using ht, hraw, hrest⟩
  -- reading gets stuck at references only, and none of them reaches over a construct
  fun_cases step final none s
  case case1 => exact ⟨hnone, rfl, h⟩
  case case2 => exact tag h
  case case3 => exact tag h
  case case4 => exact tag h
  case case5 hr => exact ⟨hone _, rfl, reference h hr⟩
  case case6 => exact ⟨hone _, rfl, h.drop (p := ['&', '#']) (by decide)⟩
  case case7 => exact ⟨hnone, rfl, h⟩
  case case8 hr => exact ⟨hone _, rfl, reference h hr⟩
  case case9 => exact ⟨hnone, rfl, h⟩
  case case10 =>
    refine ⟨hnone, rfl, ?_⟩
    split
    · exact h.tail (by decide)
    · exact h
  case case11 => exact ⟨hone _, rfl, h.tail (by decide)⟩
  case case12 => exact ⟨hnone, rfl, h⟩
  case case13 => exact ⟨hone _, rfl, h.tail (by decide)⟩
  case case14 => exact ⟨hnone, rfl, h⟩

/-- Every token of a text of whole constructs is text or one of them. -/
theorem forall_tokens (htext : ∀ s, P (.text s)) (h : Whole Q s) : ∀ t ∈ tokens s, P t := by
  refine forall_tokensFrom (R := fun raw s => raw = none ∧ Whole Q s) htext ?_ ?_ false ⟨rfl, h⟩
  · rintro raw s ⟨rfl, h⟩
    obtain ⟨hplain, hlt⟩ := plainText_eq s
    exact ⟨rfl, (hplain ▸ h).drop hlt⟩
  · rintro final raw s ⟨rfl, h⟩
    exact h.keeps_step hQ htext final

end Read

end Whole

end Galley.Html
