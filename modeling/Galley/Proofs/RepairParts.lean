import Galley.Proofs.UnsafeCommands
/-!
# What the readers of repairs take

Each construct that is mended or taken out, written out: its delimiters, its parts and the blanks between them.
-/

namespace Galley

namespace Repair

variable {before : Option Char} {s rest : Text}

/-! ## Line ends and headings -/

theorem literalLineEnd_eq {r : Unit} (h : literalLineEnd before s = some (r, rest)) : s = '\\' :: 'n' :: rest := by
  unfold literalLineEnd at h
  split at h
  · split at h
    · cases h
    · cases h
      rfl
  · cases h

theorem dollar_eq {r : Unit} (h : dollar before s = some (r, rest)) : s = '$' :: rest := by
  unfold dollar at h
  split at h
  · cases h
  · cases h
    rfl
  · cases h

/-! ## Formulas -/

theorem dollars?_eq {inside : Text} (h : dollars? s = some (inside, rest)) : s = '$' :: (inside ++ '$' :: rest) := by
  unfold dollars? at h
  split at h
  · rename_i s
    rw [List.span_eq_takeWhile_dropWhile] at h
    dsimp only at h
    split at h
    · rename_i hr
      split at h
      · cases h
      · cases h
        rw [← hr, List.takeWhile_append_dropWhile]
    · cases h
  · cases h

theorem chain_eq {left right tail : Text} (h : chain before s = some ((left, right, tail), rest)) :
    ∃ g₁ g₂ g₃ g₄ t : Text, (∀ c ∈ g₁ ++ g₂ ++ g₃ ++ g₄, isSpaceTab c = true) ∧
      s = '$' :: (left ++ '$' :: (g₁ ++ '=' :: (g₂ ++ '$' :: (right ++ '$' :: (g₃ ++ '+' :: (g₄ ++ t)))))) ∧
      tail = t.takeWhile (· ≠ '\n') ∧ rest = t.dropWhile (· ≠ '\n') := by
  simp only [chain, Option.bind_eq_bind, Option.bind_eq_some_iff] at h
  obtain ⟨⟨l, s₁⟩, h₁, s₂, h₂, ⟨r, s₃⟩, h₃, s₄, h₄, h⟩ := h
  rw [List.span_eq_takeWhile_dropWhile] at h
  cases h
  obtain ⟨g₁, e₁, b₁⟩ := Text.dropWhile_eq isSpaceTab s₁
  obtain ⟨g₂, e₂, b₂⟩ := Text.dropWhile_eq isSpaceTab s₂
  obtain ⟨g₃, e₃, b₃⟩ := Text.dropWhile_eq isSpaceTab s₃
  obtain ⟨g₄, e₄, b₄⟩ := Text.dropWhile_eq isSpaceTab s₄
  refine ⟨g₁, g₂, g₃, g₄, _, ?_, ?_, rfl, rfl⟩
  · intro c hc
    simp only [List.mem_append] at hc
    rcases hc with ((hc | hc) | hc) | hc
    · exact b₁ c hc
    · exact b₂ c hc
    · exact b₃ c hc
    · exact b₄ c hc
  · rw [← e₄, dollars?_eq h₁]
    rw [Text.after?_eq_some_iff.1 h₂] at e₁
    rw [dollars?_eq h₃] at e₂
    rw [Text.after?_eq_some_iff.1 h₄] at e₃
    rw [e₁, e₂, e₃]
    rfl

theorem pair_eq {left right : Text} {op : Char} (h : pair before s = some ((left, op, right), rest)) :
    ∃ g₁ g₂ : Text, (∀ c ∈ g₁ ++ g₂, isSpaceTab c = true) ∧ (op = '=' ∨ op = '+' ∨ op = '-') ∧
      s = '$' :: (left ++ '$' :: (g₁ ++ op :: (g₂ ++ '$' :: (right ++ '$' :: rest)))) := by
  unfold pair at h
  split at h
  · cases h
  simp only [Option.bind_eq_bind, Option.bind_eq_some_iff] at h
  obtain ⟨⟨l, s₁⟩, h₁, h⟩ := h
  obtain ⟨g₁, e₁, b₁⟩ := Text.dropWhile_eq isSpaceTab s₁
  dsimp only at h
  split at h
  · rename_i c s₂ hs₂
    split at h
    · rename_i hop
      simp only [Option.bind_eq_some_iff] at h
      obtain ⟨⟨r, s₃⟩, h₃, h⟩ := h
      dsimp only at h
      split at h
      · cases h
      · cases h
        obtain ⟨g₂, e₂, b₂⟩ := Text.dropWhile_eq isSpaceTab s₂
        refine ⟨g₁, g₂, ?_, by simpa [or_assoc] using hop, ?_⟩
        · intro x hx
          exact (List.mem_append.1 hx).elim (b₁ x) (b₂ x)
        · rw [hs₂] at e₁
          rw [dollars?_eq h₃] at e₂
          rw [dollars?_eq h₁, e₁, e₂]
    · cases h
  · cases h

theorem between_eq {opening closing inside : Text} (h : between opening closing before s = some (inside, rest)) :
    s = opening ++ (inside ++ (closing ++ rest)) := by
  simp only [between, Option.bind_eq_bind, Option.bind_eq_some_iff] at h
  obtain ⟨s₁, h₁, h⟩ := h
  rw [Text.after?_eq_some_iff.1 h₁, Text.splitAtFirst_eq h, List.append_assoc]

theorem strandedSubscript_eq {formula script : Text} (h : strandedSubscript before s = some ((formula, script), rest)) :
    (∀ c ∈ script, isAlphanumeric c = true) ∧ s = '$' :: (formula ++ '$' :: '_' :: (script ++ rest)) := by
  simp only [strandedSubscript, Option.bind_eq_bind, Option.bind_eq_some_iff] at h
  obtain ⟨⟨f, s₁⟩, h₁, s₂, h₂, h⟩ := h
  rw [List.span_eq_takeWhile_dropWhile] at h
  dsimp only at h
  split at h
  · cases h
  · cases h
    refine ⟨fun c hc => List.all_eq_true.1 List.all_takeWhile c hc, ?_⟩
    obtain rfl : s₁ = '_' :: s₂ := Text.after?_eq_some_iff.1 h₂
    rw [List.takeWhile_append_dropWhile, dollars?_eq h₁]

theorem strandedGroup_eq {formula script : Text} (h : strandedGroup before s = some ((formula, script), rest)) :
    ∃ gap : Text, (∀ c ∈ gap, isBlank c = true) ∧ s = '$' :: (formula ++ '$' :: '_' :: (gap ++ '{' :: (script ++ '}' :: rest))) := by
  simp only [strandedGroup, Option.bind_eq_bind, Option.bind_eq_some_iff] at h
  obtain ⟨⟨f, s₁⟩, h₁, s₂, h₂, s₃, h₃, ⟨g, s₄⟩, h₄, h⟩ := h
  dsimp only at h
  split at h
  · cases h
  · cases h
    obtain ⟨gap, e, hgap⟩ := Text.dropWhile_eq isBlank s₂
    refine ⟨gap, hgap, ?_⟩
    obtain rfl : s₁ = '_' :: s₂ := Text.after?_eq_some_iff.1 h₂
    rw [Text.after?_eq_some_iff.1 h₃, Text.closedBy_eq h₄] at e
    rw [dollars?_eq h₁, e]
    rfl

end Repair

end Galley
