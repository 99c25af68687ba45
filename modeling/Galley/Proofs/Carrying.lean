import Galley.Proofs.WholeTokens
/-!
# Texts that carry tokens

A text carries a row of tokens if these stand in it whole, in this order, and it holds the letter `W`, which is in
the word of every token, nowhere else. Such a text may be cut at any character that is none of a token's
(`Carries.split`), and behind any that is no capital letter (`Carries.behind`). Exactly its tokens are read in it
(`Carries.all_eq`).
-/

namespace Galley.Block

open Token (word ofNumber)

def isTokenChar (c : Char) : Bool := isCapital c || c.isDigit

/-- The text holds these tokens, in this order, and no other `W`. -/
inductive Carries : List Text → Text → Prop
  | nil : Carries [] []
  | char {c : Char} {ts : List Text} {s : Text} (hc : c ≠ 'W') (hs : Carries ts s) : Carries ts (c :: s)
  | token {n : Nat} {ts : List Text} {s : Text} (kind : Kind) (hn : n < 10 ^ 6) (hs : Carries ts s) :
      Carries (ofNumber kind n :: ts) (ofNumber kind n ++ s)

theorem isTokenChar_of_mem {kind : Kind} {n : Nat} {c : Char} (h : c ∈ ofNumber kind n) : isTokenChar c = true := by
  rw [ofNumber, List.append_assoc, List.mem_append, List.mem_append] at h
  rcases h with h | h | h
  · exact List.all_eq_true.1 (by decide : word.all isTokenChar = true) c h
  · simp [isTokenChar, Token.isCapital_of_mem_name h]
  · simp [isTokenChar, Token.isDigit_of_mem_padded h]

theorem not_isTokenChar_of_isBlank {c : Char} (h : isBlank c = true) : isTokenChar c = false := by
  refine Bool.eq_false_iff.2 fun hc => ?_
  simp only [isTokenChar, isCapital, Char.isDigit, Bool.or_eq_true, Bool.and_eq_true, decide_eq_true_eq] at hc
  simp only [isBlank, inRanges, blankRanges, List.any_cons, List.any_nil, Bool.or_eq_true, Bool.and_eq_true,
    decide_eq_true_eq, Bool.or_false] at h
  rcases hc with ⟨hlow, hhigh⟩ | ⟨hlow, hhigh⟩
  · have hlow : 65 ≤ c.toNat := hlow
    have hhigh : c.toNat ≤ 90 := hhigh
    omega
  · have hlow : 48 ≤ c.toNat := hlow
    have hhigh : c.toNat ≤ 57 := hhigh
    omega

/-- Behind a character of a token that is no capital letter only digits follow. -/
theorem not_word_letter_of_split {kind : Kind} {n : Nat} {u v : Text} {c : Char} (h : ofNumber kind n = u ++ c :: v)
    (hc : isCapital c = false) : 'W' ∉ v := by
  have hdigits {d : Text} (hd : ∀ x ∈ d, x ∈ Text.ofNatPadded 6 n) : 'W' ∉ d := fun hw => by
    have := Token.isDigit_of_mem_padded (hd 'W' hw)
    cases this
  rw [ofNumber] at h
  rcases List.append_eq_append_iff.1 h with ⟨w, -, hw⟩ | ⟨w, hname, hw⟩
  · refine hdigits fun x hx => ?_
    rw [hw]
    exact List.mem_append_right w (List.mem_cons_of_mem c hx)
  · cases w with
    | nil =>
      rw [List.nil_append] at hw
      refine hdigits fun x hx => ?_
      rw [← hw]
      exact List.mem_cons_of_mem c hx
    | cons d w =>
      -- all letters of a token are capitals
      obtain ⟨rfl, -⟩ := List.cons.inj hw
      have hmem : c ∈ word ++ kind.name := by rw [hname]; simp
      have hcapital : isCapital c = true := by
        rcases List.mem_append.1 hmem with hm | hm
        · exact List.all_eq_true.1 (by decide : word.all isCapital = true) c hm
        · exact Token.isCapital_of_mem_name hm
      rw [hc] at hcapital
      cases hcapital

namespace Carries

variable {ts us : List Text} {s a b : Text} {c : Char}

theorem of_not_mem (h : 'W' ∉ s) : Carries [] s := by
  induction s with
  | nil => exact .nil
  | cons c s ih =>
    simp only [List.mem_cons, not_or] at h
    exact .char (Ne.symm h.1) (ih h.2)

theorem append (ha : Carries ts a) (hb : Carries us b) : Carries (ts ++ us) (a ++ b) := by
  induction ha with
  | nil => exact hb
  | char hc _ ih => exact .char hc ih
  | token kind hn _ ih =>
    rw [List.append_assoc]
    exact .token kind hn ih

/-- What stands around a text that carries tokens adds none. -/
theorem between (hs : Carries ts s) (ha : 'W' ∉ a) (hb : 'W' ∉ b) : Carries ts (a ++ s ++ b) := by
  have h := ((of_not_mem ha).append hs).append (of_not_mem hb)
  rwa [List.nil_append, List.append_nil] at h

theorem single (kind : Kind) {n : Nat} (hn : n < 10 ^ 6) : Carries [ofNumber kind n] (ofNumber kind n) := by
  have h := Carries.token kind hn .nil
  rwa [List.append_nil] at h

theorem eq_nil (h : Carries ts s) (hs : 'W' ∉ s) : ts = [] := by
  induction h with
  | nil => rfl
  | char _ _ ih =>
    simp only [List.mem_cons, not_or] at hs
    exact ih hs.2
  | token kind _ _ _ =>
    refine absurd (List.mem_append_left _ ?_) hs
    rw [ofNumber, List.append_assoc]
    exact List.mem_append_left _ (by decide)

/-- A text is cut into two that carry tokens at a character that is none of a token's. -/
theorem split (h : Carries ts (a ++ c :: b)) (hc : isTokenChar c = false) :
    ∃ us vs, ts = us ++ vs ∧ Carries us a ∧ Carries vs b := by
  generalize hs : a ++ c :: b = s at h
  induction h generalizing a with
  | nil => simp at hs
  | @char x ts s hx h ih =>
    cases a with
    | nil =>
      obtain ⟨-, rfl⟩ := List.cons.inj hs
      exact ⟨[], ts, rfl, .nil, h⟩
    | cons y a =>
      obtain ⟨rfl, htail⟩ := List.cons.inj hs
      obtain ⟨us, vs, rfl, hus, hvs⟩ := ih htail
      exact ⟨us, vs, rfl, .char hx hus, hvs⟩
  | @token n ts s kind hn h ih =>
    rcases List.append_eq_append_iff.1 hs with ⟨u, hu, hrest⟩ | ⟨u, rfl, hrest⟩
    · cases u with
      | nil =>
        rw [List.append_nil] at hu
        rw [List.nil_append] at hrest
        obtain ⟨us, vs, rfl, hus, hvs⟩ := ih (a := []) hrest
        obtain rfl := hus.eq_nil List.not_mem_nil
        exact ⟨[_], vs, rfl, hu ▸ .single kind hn, hvs⟩
      | cons x u =>
        -- the character would stand in the token
        obtain ⟨rfl, -⟩ := List.cons.inj hrest
        rw [isTokenChar_of_mem (by rw [hu]; simp)] at hc
        cases hc
    · obtain ⟨us, vs, rfl, hus, hvs⟩ := ih hrest.symm
      exact ⟨_ :: us, vs, rfl, .token kind hn hus, hvs⟩

/-- Behind a character that is no capital letter some of the last tokens are left whole. -/
theorem behind (h : Carries ts (a ++ c :: b)) (hc : isCapital c = false) : ∃ us, us <:+ ts ∧ Carries us b := by
  generalize hs : a ++ c :: b = s at h
  induction h generalizing a with
  | nil => simp at hs
  | @char d ts s hd h ih =>
    cases a with
    | nil =>
      obtain ⟨-, rfl⟩ := List.cons.inj hs
      exact ⟨ts, List.suffix_refl ts, h⟩
    | cons e a => exact ih (List.cons.inj hs).2
  | @token n ts s kind hn h ih =>
    have hlater {us : List Text} (hus : us <:+ ts) : us <:+ ofNumber kind n :: ts := hus.trans (List.suffix_cons _ ts)
    rcases List.append_eq_append_iff.1 hs with ⟨u, hu, hrest⟩ | ⟨u, rfl, hrest⟩
    · cases u with
      | nil =>
        obtain ⟨us, hus, hb⟩ := ih (a := []) hrest
        exact ⟨us, hlater hus, hb⟩
      | cons d u =>
        -- the character is a digit of the token, and other digits follow
        obtain ⟨rfl, rfl⟩ := List.cons.inj hrest
        have hdigits := of_not_mem (not_word_letter_of_split hu hc)
        exact ⟨ts, List.suffix_cons _ ts, hdigits.append h⟩
    · obtain ⟨us, hus, hb⟩ := ih hrest.symm
      exact ⟨us, hlater hus, hb⟩

/-! ## What is read in them -/

/-- A part of the token word that is not whole begins nowhere in such a text. -/
theorem not_word_part (h : Carries ts s) {v : Text} (hv : v <:+ word) (hne : v ≠ []) (hw : v ≠ word) : ¬v <+: s := by
  induction h generalizing v with
  | nil => simpa using hne
  | @char c ts s hc _ ih =>
    intro hp
    cases v with
    | nil => exact hne rfl
    | cons x v =>
      obtain ⟨rfl, htail⟩ := List.cons_prefix_cons.1 hp
      have hrest : v <:+ word := (List.suffix_cons x v).trans hv
      by_cases hnil : v = []
      · -- the last letter of the word
        subst hnil
        have hlast : ∀ t ∈ word.tails, t.length = 1 → t = ['W'] := by decide
        have := hlast _ ((List.mem_tails _ _).2 hv) rfl
        exact hc (List.cons.inj this).1
      · exact ih hrest hnil (fun he => by
          have hlen := hv.length_le
          rw [he, List.length_cons] at hlen
          omega) htail
  | @token n ts s kind hn _ _ =>
    intro hp
    rw [ofNumber, List.append_assoc, List.append_assoc] at hp
    have hself := List.prefix_of_prefix_length_le hp (List.prefix_append word _) hv.length_le
    have hall : ∀ t ∈ word.tails, t <+: word → t = [] ∨ t = word := by decide
    exact (hall v ((List.mem_tails _ _).2 hv) hself).elim hne hw

theorem not_word_cons (h : Carries ts s) : ¬word <+: c :: s := by
  intro hp
  obtain ⟨-, hp⟩ := List.cons_prefix_cons.1 (show 'L' :: word.tail <+: c :: s from hp)
  exact h.not_word_part (by decide) (by decide) (by decide) hp

theorem all_eq (h : Carries ts s) : Token.all s = ts := by
  induction h with
  | nil => rfl
  | char hc h ih =>
    rw [Token.all, Text.readAll, forward_reader.cut_cons (reader_eq_none h.not_word_cons)]
    exact ih
  | token kind hn _ ih =>
    rw [Token.all, Text.readAll, cut_ofNumber kind hn]
    exact congrArg (_ :: ·) ih

end Carries

end Galley.Block
