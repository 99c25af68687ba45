import Galley.Proofs.RepairParts
import Galley.Proofs.Tokens
/-!
# The characters of a text

What is read in a text is made of its characters, and what is rewritten of these and of what is put in. So the
repairs bring in nothing but a few characters of their own (`Within.repair`).
-/

namespace Galley

/-- Every character of the text is accepted. -/
def Within (ok : Char → Bool) (s : Text) : Prop := ∀ c ∈ s, ok c = true

instance (ok : Char → Bool) (s : Text) : Decidable (Within ok s) := decidable_of_iff (s.all ok = true) List.all_eq_true

namespace Text

variable {α : Type} {read : Reader α} {s : Text}

/-- Where a piece of a text comes from. -/
theorem mem_cut {p : Piece α} (h : p ∈ cut read s) :
    (∃ c ∈ s, p = .char c) ∨
      ∃ a before t rest, p = .hit a (upTo t rest) ∧ t <:+ s ∧ read before t = some (a, rest) := by
  have main (s : Text) (n : Nat) (before : Option Char) (h : p ∈ cutFrom read n before s) : (∃ c ∈ s, p = .char c) ∨
      ∃ a before t rest, p = .hit a (upTo t rest) ∧ t <:+ s ∧ read before t = some (a, rest) := by
    induction s generalizing n before with
    | nil => cases n <;> simp [cutFrom] at h
    | cons c s ih =>
      have hrest (n : Nat) (h : p ∈ cutFrom read n (some c) s) : (∃ x ∈ c :: s, p = .char x) ∨
          ∃ a before t rest, p = .hit a (upTo t rest) ∧ t <:+ c :: s ∧ read before t = some (a, rest) := by
        rcases ih n (some c) h with ⟨x, hx, hp⟩ | ⟨a, b, t, rest, hp, ht, hr⟩
        · exact .inl ⟨x, List.mem_cons_of_mem c hx, hp⟩
        · exact .inr ⟨a, b, t, rest, hp, ht.trans (List.suffix_cons c s), hr⟩
      have hchar (h : p ∈ Piece.char c :: cutFrom read 0 (some c) s) : (∃ x ∈ c :: s, p = .char x) ∨
          ∃ a before t rest, p = .hit a (upTo t rest) ∧ t <:+ c :: s ∧ read before t = some (a, rest) := by
        rcases List.mem_cons.1 h with rfl | h
        · exact .inl ⟨c, List.mem_cons_self, rfl⟩
        · exact hrest 0 h
      cases n with
      | succ n => exact hrest n h
      | zero =>
        simp only [cutFrom] at h
        split at h
        · exact hchar h
        · rename_i a rest hr
          split at h
          · rcases List.mem_cons.1 h with rfl | h
            · exact .inr ⟨a, before, c :: s, rest, rfl, List.suffix_refl _, hr⟩
            · exact hrest _ h
          · exact hchar h
  exact main s 0 none h

theorem mem_readAll {a : α} (h : a ∈ readAll read s) : ∃ before t rest, t <:+ s ∧ read before t = some (a, rest) := by
  obtain ⟨p, hp, ha⟩ := List.mem_filterMap.1 h
  rcases mem_cut hp with ⟨c, -, rfl⟩ | ⟨a', before, t, rest, rfl, ht, hr⟩
  · cases ha
  · cases ha
    exact ⟨before, t, rest, ht, hr⟩

/-- Where no construct faults, neither does the rewriting. -/
theorem replaceAllM_ok {ε : Type} {f : α → Except ε Text} {g : α → Text}
    (h : ∀ a before t rest, t <:+ s → read before t = some (a, rest) → f a = .ok (g a)) :
    s.replaceAllM read f = .ok (s.replaceAll read g) := by
  have main (ps : List (Piece α)) (F : Piece α → Except ε Text) (G : Piece α → Text) (hps : ∀ p ∈ ps, F p = .ok (G p)) :
      (do let parts ← ps.mapM F; pure parts.flatten : Except ε Text) = .ok (ps.flatMap G) := by
    have hmap : ps.mapM F = .ok (ps.map G) := by
      induction ps with
      | nil => rfl
      | cons p ps ih =>
        rw [List.mapM_cons, hps p List.mem_cons_self, ih fun q hq => hps q (List.mem_cons_of_mem p hq)]
        rfl
    rw [hmap]
    rfl
  refine main (cut read s) _ _ fun p hp => ?_
  rcases mem_cut hp with ⟨c, -, rfl⟩ | ⟨a, before, t, rest, rfl, ht, hr⟩
  · rfl
  · exact h a before t rest ht hr

theorem upTo_subset (s rest : Text) : upTo s rest ⊆ s := List.take_subset _ _

theorem source_subset {p : Piece α} (h : p ∈ cut read s) : p.source ⊆ s := by
  rcases mem_cut h with ⟨c, hc, rfl⟩ | ⟨a, before, t, rest, rfl, ht, -⟩
  · simpa [Piece.source] using hc
  · exact fun x hx => ht.subset (upTo_subset t rest hx)

theorem before_prefix {f : Found α} (h : find? read s = some f) : f.before <+: s := by
  have main (s : Text) (f : Found α) (before : Option Char) (h : findFrom read before s = some f) : f.before <+: s := by
    induction s generalizing f before with
    | nil => cases h
    | cons c s ih =>
      simp only [findFrom] at h
      split at h
      · cases h
        exact List.nil_prefix
      · obtain ⟨g, hg, rfl⟩ := Option.map_eq_some_iff.1 h
        exact List.cons_prefix_cons.2 ⟨rfl, ih _ _ hg⟩
  exact main s f none h

end Text

namespace Within

variable {ok : Char → Bool} {s t : Text}

theorem avoids {c : Char} (h : Within ok s) (hc : ok c = false) : c ∉ s := fun hm => by
  rw [h c hm] at hc
  cases hc

theorem of_not_mem {x : Char} (h : x ∉ s) : Within (fun c => c ≠ x) s :=
  fun _ hc => decide_eq_true fun he => h (he ▸ hc)

theorem not_mem {x : Char} (h : Within (fun c => c ≠ x) s) : x ∉ s := h.avoids (decide_eq_false fun hne => hne rfl)

theorem nil : Within ok [] := fun _ h => absurd h List.not_mem_nil

theorem subset (h : Within ok s) (ht : t ⊆ s) : Within ok t := fun c hc => h c (ht hc)

theorem part (h : Within ok s) (ht : t <:+: s) : Within ok t := h.subset ht.subset

theorem suffix (h : Within ok s) (ht : t <:+ s) : Within ok t := h.subset ht.subset

theorem append (hs : Within ok s) (ht : Within ok t) : Within ok (s ++ t) := by
  intro c hc
  rcases List.mem_append.1 hc with h | h
  · exact hs c h
  · exact ht c h

theorem flatten {l : List Text} (h : ∀ t ∈ l, Within ok t) : Within ok l.flatten := by
  intro c hc
  obtain ⟨t, ht, hc⟩ := List.mem_flatten.1 hc
  exact h t ht c hc

section Rewriting

variable {α : Type} {read : Reader α} {f : α → Text}

/-- Rewriting the pieces of a text. -/
theorem flatMap_cut {g : Piece α → Text} (hchar : ∀ c, g (.char c) = [c])
    (hhit : ∀ a before t rest, t <:+ s → read before t = some (a, rest) → Within ok (g (.hit a (Text.upTo t rest))))
    (hs : Within ok s) : Within ok ((Text.cut read s).flatMap g) := by
  intro c hc
  obtain ⟨p, hp, hc⟩ := List.mem_flatMap.1 hc
  rcases Text.mem_cut hp with ⟨x, hx, rfl⟩ | ⟨a, before, t, rest, rfl, ht, hr⟩
  · rw [hchar, List.mem_singleton] at hc
    exact hs c (hc ▸ hx)
  · exact hhit a before t rest ht hr c hc

theorem replaceAll (hf : ∀ a before t rest, t <:+ s → read before t = some (a, rest) → Within ok (f a))
    (hs : Within ok s) : Within ok (s.replaceAll read f) := flatMap_cut (fun _ => rfl) hf hs

theorem removeAll (hs : Within ok s) : Within ok (s.removeAll read) := replaceAll (fun _ _ _ _ _ _ => nil) hs

end Rewriting

end Within

/-! ## Repairs -/

namespace Repair

theorem chain_subset {before : Option Char} {s rest left right tail : Text}
    (h : chain before s = some ((left, right, tail), rest)) : left ⊆ s ∧ right ⊆ s ∧ tail ⊆ s := by
  obtain ⟨g₁, g₂, g₃, g₄, t, -, rfl, rfl, -⟩ := chain_eq h
  refine ⟨fun x hx => by simp [hx], fun x hx => by simp [hx], fun x hx => ?_⟩
  have ht : x ∈ t := (List.takeWhile_prefix _).subset hx
  simp [ht]

theorem pair_subset {before : Option Char} {s rest left right : Text} {op : Char}
    (h : pair before s = some ((left, op, right), rest)) : left ⊆ s ∧ op ∈ s ∧ right ⊆ s := by
  obtain ⟨g₁, g₂, -, -, rfl⟩ := pair_eq h
  exact ⟨fun x hx => by simp [hx], by simp, fun x hx => by simp [hx]⟩

theorem between_subset {opening closing : Text} {before : Option Char} {s rest inside : Text}
    (h : between opening closing before s = some (inside, rest)) : inside ⊆ s := by
  intro x hx
  rw [between_eq h]
  simp [hx]

theorem strandedSubscript_subset {before : Option Char} {s rest formula script : Text}
    (h : strandedSubscript before s = some ((formula, script), rest)) : formula ⊆ s ∧ script ⊆ s := by
  obtain ⟨-, rfl⟩ := strandedSubscript_eq h
  exact ⟨fun x hx => by simp [hx], fun x hx => by simp [hx]⟩

theorem strandedGroup_subset {before : Option Char} {s rest formula script : Text}
    (h : strandedGroup before s = some ((formula, script), rest)) : formula ⊆ s ∧ script ⊆ s := by
  obtain ⟨gap, -, rfl⟩ := strandedGroup_eq h
  exact ⟨fun x hx => by simp [hx], fun x hx => by simp [hx]⟩

theorem afterOpeningFence?_suffix {s t : Text} (h : afterOpeningFence? s = some t) : t <:+ s := by
  simp only [afterOpeningFence?, Option.bind_eq_bind, Option.bind_eq_some_iff] at h
  obtain ⟨s₁, h₁, h⟩ := h
  have hs₁ : s₁ <:+ s := (Text.suffix_after? h₁).trans (List.dropWhile_suffix _)
  have hlanguage : (Text.afterCaseless? "latex" s₁ <|> Text.afterCaseless? "tex" s₁).getD s₁ <:+ s₁ := by
    cases hl : Text.afterCaseless? "latex" s₁ with
    | some r => exact Text.suffix_afterCaseless? hl
    | none =>
      cases ht : Text.afterCaseless? "tex" s₁ with
      | some r => exact Text.suffix_afterCaseless? ht
      | none => exact List.suffix_refl s₁
  generalize (Text.afterCaseless? "latex" s₁ <|> Text.afterCaseless? "tex" s₁).getD s₁ = s₂ at h hlanguage
  have hdrop : s₂.dropWhile isSpaceTab <:+ s := (List.dropWhile_suffix _).trans (hlanguage.trans hs₁)
  generalize s₂.dropWhile isSpaceTab = s₃ at h hdrop
  split at h
  · cases h
    exact (List.suffix_cons _ _).trans hdrop
  · cases h
    exact hdrop

theorem stripFences_part (s : Text) : stripFences s <:+: s := by
  have hopen : (afterOpeningFence? s).getD s <:+ s := by
    cases h : afterOpeningFence? s with
    | none => exact List.suffix_refl s
    | some t => exact afterOpeningFence?_suffix h
  unfold stripFences
  generalize (afterOpeningFence? s).getD s = u at hopen
  dsimp only
  split
  · rename_i f hf
    exact (Text.before_prefix hf).isInfix.trans hopen.isInfix
  · exact hopen.isInfix

end Repair

namespace Within

variable {ok : Char → Bool} {s : Text}

/-! ### The steps -/

theorem dropDollars {opening closing : Text} (ho : Within ok opening) (hc : Within ok closing) (hs : Within ok s) :
    Within ok (Repair.dropDollars opening closing s) :=
  replaceAll (fun _ _ _ _ ht hr => ((ho.append ((hs.suffix ht).subset (Repair.between_subset hr)).removeAll).append hc)) hs

theorem dropUnsafe (hs : Within ok s) : Within ok (Repair.dropUnsafe s).content := by
  unfold Repair.dropUnsafe
  refine List.foldlRecOn (motive := fun r : Repair.Repaired => Within ok r.content) _ _ hs fun r hr command _ => ?_
  dsimp only
  split
  · exact hr
  · exact hr.removeAll

section Steps

variable (hok : ∀ c : Char, c.toNat < 128 → c ≠ 'W' → ok c = true)

include hok

theorem ascii {t : Text} (ht : t.all (fun c => c.toNat < 128 && c ≠ 'W') = true) : Within ok t := by
  intro c hc
  have h := List.all_eq_true.1 ht c hc
  simp only [Bool.and_eq_true, decide_eq_true_eq] at h
  exact hok c h.1 h.2

theorem escapeQuoted (hs : Within ok s) : Within ok (Html.escapeQuoted s) := by
  have hchar (c : Char) (hc : ok c = true) : Within ok (Html.escapeQuotedChar c) := by
    unfold Html.escapeQuotedChar Html.escapeChar
    split
    · exact ascii hok (by decide)
    · split
      · exact ascii hok (by decide)
      · split
        · exact ascii hok (by decide)
        · split
          · exact ascii hok (by decide)
          · split
            · exact ascii hok (by decide)
            · intro x hx
              rwa [List.mem_singleton.1 hx]
  intro x hx
  obtain ⟨c, hc, hx⟩ := List.mem_flatMap.1 hx
  exact hchar c (hs c hc) x hx

theorem shelterMark (n : Nat) : Within ok (Repair.shelterMark n) := by
  intro c hc
  rcases List.mem_append.1 hc with hc | hc
  · rcases List.mem_append.1 hc with hc | hc
    · rw [List.mem_singleton.1 hc]
      exact hok _ (by decide) (by decide)
    · have h := Text.isDigit_of_mem_ofNat hc
      have hle : c.toNat ≤ 57 := by
        simp only [Char.isDigit, Bool.and_eq_true, decide_eq_true_eq] at h
        exact h.2
      refine hok c (by omega) ?_
      rintro rfl
      cases h
  · rw [List.mem_singleton.1 hc]
    exact hok _ (by decide) (by decide)

theorem mergeChain (hs : Within ok s) : Within ok (Repair.mergeChain s) := by
  refine flatMap_cut (fun _ => rfl) (fun parts before t rest ht hr => ?_) hs
  obtain ⟨left, right, tail⟩ := parts
  obtain ⟨hleft, hright, htail⟩ := Repair.chain_subset hr
  have ht := hs.suffix ht
  dsimp only
  split
  · refine append (append (append (append (append (append ?_ (ht.subset hleft)) ?_) (ht.subset hright)) ?_)
      ((ht.subset htail).part (Text.strip_part _))) ?_ <;> exact ascii hok (by decide)
  · exact ht.subset (Text.upTo_subset _ _)

theorem mergePairs (hs : Within ok s) : Within ok (Repair.mergePairs s) := by
  refine replaceAll (fun parts before t rest ht hr => ?_) hs
  obtain ⟨left, op, right⟩ := parts
  obtain ⟨hleft, hop, hright⟩ := Repair.pair_subset hr
  have ht := hs.suffix ht
  have hop : Within ok [op] := ht.subset (by simpa using hop)
  refine append (append (append (append (append (append ?_ (ht.subset hleft)) ?_) hop) ?_) (ht.subset hright)) ?_ <;>
    exact ascii hok (by decide)

theorem joinSubscript {formula script : Text} (hf : Within ok formula) (hg : Within ok script) :
    Within ok (Repair.joinSubscript (formula, script)) := by
  refine append (append (append (append ?_ hf) ?_) hg) ?_ <;> exact ascii hok (by decide)

theorem mend (hs : Within ok s) : Within ok (Repair.mend s).content := by
  have hstart : Within ok ((s.replaceAll Repair.literalLineEnd fun _ => ['\n']).removeAll Repair.ghostHeader) :=
    (replaceAll (fun _ _ _ _ _ _ => ascii hok (by decide)) hs).removeAll
  have hmerged := mergePairs hok (mergeChain hok hstart)
  have hsquare : Within ok (Repair.dropDollars "\\[" "\\]" _) := dropDollars (ascii hok (by decide)) (ascii hok (by decide)) hmerged
  have hround : Within ok (Repair.dropDollars "\\(" "\\)" _) := dropDollars (ascii hok (by decide)) (ascii hok (by decide)) hsquare
  have hscripts : Within ok (Text.replaceAll Repair.strandedSubscript Repair.joinSubscript _) :=
    replaceAll (fun parts _ _ _ ht hr => by
      obtain ⟨formula, script⟩ := parts
      obtain ⟨hformula, hscript⟩ := Repair.strandedSubscript_subset hr
      exact joinSubscript hok ((hround.suffix ht).subset hformula) ((hround.suffix ht).subset hscript)) hround
  have hgroups : Within ok (Text.replaceAll Repair.strandedGroup Repair.joinSubscript _) :=
    replaceAll (fun parts _ _ _ ht hr => by
      obtain ⟨formula, script⟩ := parts
      obtain ⟨hformula, hscript⟩ := Repair.strandedGroup_subset hr
      exact joinSubscript hok ((hscripts.suffix ht).subset hformula) ((hscripts.suffix ht).subset hscript)) hscripts
  exact dropUnsafe hgroups

theorem shelterPieces {ps : List (Piece Unit)} (h : ∀ p ∈ ps, Within ok p.source) (n : Nat) :
    Within ok (Repair.shelterPieces n ps).1 ∧ ∀ code ∈ (Repair.shelterPieces n ps).2, Within ok code := by
  induction ps generalizing n with
  | nil => exact ⟨nil, by simp [Repair.shelterPieces]⟩
  | cons p ps ih =>
    obtain ⟨hp, hps⟩ := List.forall_mem_cons.1 h
    cases p with
    | char c =>
      obtain ⟨hs, hcodes⟩ := ih hps n
      exact ⟨append (t := (Repair.shelterPieces n ps).1) hp hs, hcodes⟩
    | hit a source =>
      obtain ⟨hs, hcodes⟩ := ih hps (n + 1)
      exact ⟨append (shelterMark hok n) hs, List.forall_mem_cons.2 ⟨hp, hcodes⟩⟩

/-- A repaired document holds no character that the document does not hold, but for plain ones. -/
theorem repair (hs : Within ok s) : Within ok (Repair.repair s).content := by
  by_cases hempty : s.isEmpty = true
  · rw [Repair.repair, if_pos hempty]
    exact hs
  · have hclean : Within ok ((Repair.stripFences s).filter (· ≠ Repair.nul)) :=
      hs.subset fun x hx => (Repair.stripFences_part s).subset (List.mem_of_mem_filter hx)
    obtain ⟨hmarked, hcodes⟩ := shelterPieces hok (n := 0)
      (fun p (hp : p ∈ Text.cut Repair.verbatim ((Repair.stripFences s).filter (· ≠ Repair.nul))) =>
        hclean.subset (Text.source_subset hp))
    have hunshelter (codes : List Text) (hcodes : ∀ code ∈ codes, Within ok code) {t : Text} (ht : Within ok t) :
        Within ok (Repair.unshelter codes t) := by
      refine replaceAll (fun n _ _ _ _ _ => ?_) ht
      cases h : codes[n]? with
      | none => exact nil
      | some code => exact hcodes code (List.mem_of_getElem? h)
    have hcontent : (Repair.repair s).content =
        Repair.unshelter (Repair.shelter (Repair.stripFences s)).2 (Repair.mend (Repair.shelter (Repair.stripFences s)).1).content := by
      rw [Repair.repair, if_neg hempty]
    rw [hcontent]
    exact hunshelter _ hcodes (mend hok hmarked)

end Steps

end Within

end Galley
