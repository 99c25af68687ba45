import Galley.Proofs.Carrying
import Galley.Proofs.Parts
import Galley.Proofs.StageTrades
/-!
# Texts that bear tokens

A text bears a row of tokens if these stand in it whole, in this order, and behind every other `W` in it, and the capital
letters that follow, there is neither a digit nor a backslash: it cannot come to stand in a token, not even when what follows
it is taken out (`Struck.bears`). Exactly its tokens are read in it (`Bears.all_eq`).
-/

namespace Galley.Block

open Token (word ofNumber)

/-- A character that is not in the number of a token, and begins no command in whose place one could be continued. -/
def isMild (c : Char) : Bool := !isDecimalDigit c && c ≠ '\\'

/-- Behind the capital letters at its head the text ends or goes on with such a character. -/
def Mild (s : Text) : Prop := ∀ c ∈ (s.dropWhile isCapital).head?, isMild c = true

/-- The text holds these tokens, in this order, and every other `W` stands apart. -/
inductive Bears : List Text → Text → Prop
  | nil : Bears [] []
  | char {c : Char} {ts : List Text} {s : Text} (hc : c = 'W' → Mild s) (hs : Bears ts s) : Bears ts (c :: s)
  | token {n : Nat} {ts : List Text} {s : Text} (kind : Kind) (hn : n < 10 ^ 6) (hs : Bears ts s) :
      Bears (ofNumber kind n :: ts) (ofNumber kind n ++ s)

/-- Between two parts of a text no token is cut but in its digits. -/
def Seam (a b : Text) : Prop := a = [] ∨ Closes [] a ∨ ∀ c ∈ b.head?, isCapital c = false

variable {ts us : List Text} {s t a b : Text} {c : Char}

theorem mild_nil : Mild [] := fun _ h => by cases h

theorem mild_cons (hc : isCapital c = false) : Mild (c :: s) ↔ isMild c = true := by
  rw [Mild, List.dropWhile_cons_of_neg (by simp [hc])]
  simp

theorem mild_capital (hc : isCapital c = true) : Mild (c :: s) ↔ Mild s := by
  rw [Mild, List.dropWhile_cons_of_pos hc, Mild]

theorem Mild.append (ha : Mild a) (hb : Mild b) : Mild (a ++ b) := by
  induction a with
  | nil => exact hb
  | cons c a ih =>
    cases hc : isCapital c with
    | true => exact (mild_capital hc).2 (ih ((mild_capital hc).1 ha))
    | false => exact (mild_cons hc).2 ((mild_cons hc).1 ha)

theorem Mild.of_append (hc : isCapital c = false) (h : Mild (a ++ c :: b)) : Mild a ∧ Mild (a ++ [c]) := by
  induction a with
  | nil => exact ⟨mild_nil, (mild_cons hc).2 ((mild_cons hc).1 h)⟩
  | cons d a ih =>
    cases hd : isCapital d with
    | true => exact (ih ((mild_capital hd).1 h)).imp (mild_capital hd).2 (mild_capital hd).2
    | false =>
      have hmild := (mild_cons hd).1 h
      exact ⟨(mild_cons hd).2 hmild, (mild_cons hd).2 hmild⟩

theorem Seam.of_append (h : Seam (s ++ a) b) : Seam a b := by
  rcases List.eq_nil_or_concat a with rfl | ⟨a, c, rfl⟩
  · exact .inl rfl
  · rw [List.concat_eq_append, ← List.append_assoc] at *
    rcases h with h | ⟨u, d, h, hd⟩ | h
    · simp at h
    · obtain rfl : c = d := by simpa using (List.append_inj' h rfl).2
      exact .inr (.inl ⟨a, c, rfl, hd⟩)
    · exact .inr (.inr h)

namespace Bears

theorem of_not_mem (ha : 'W' ∉ a) (hs : Bears ts s) : Bears ts (a ++ s) := by
  induction a with
  | nil => exact hs
  | cons c a ih =>
    simp only [List.mem_cons, not_or] at ha
    exact .char (fun hc => absurd hc.symm ha.1) (ih ha.2)

theorem append (ha : Bears ts a) (hb : Bears us b) (hmild : Mild b) : Bears (ts ++ us) (a ++ b) := by
  induction ha with
  | nil => exact hb
  | @char c ts s hc _ ih =>
    exact .char (fun hw => (hc hw).append hmild) ih
  | token kind hn _ ih =>
    rw [List.append_assoc]
    exact .token kind hn ih

/-- A part that ends in front of a backslash may go on with any other text instead. -/
theorem join (ha : Bears ts (a ++ ['\\'])) (hb : Bears us b) : Bears (ts ++ us) (a ++ b) := by
  have hmild {a : Text} (h : Mild (a ++ ['\\'])) : Mild (a ++ b) := by
    induction a with
    | nil => exact absurd ((mild_cons rfl).1 h) (by decide)
    | cons c a ih =>
      cases hc : isCapital c with
      | true => exact (mild_capital hc).2 (ih ((mild_capital hc).1 h))
      | false => exact (mild_cons hc).2 ((mild_cons hc).1 h)
  generalize hs : a ++ ['\\'] = s at ha
  induction ha generalizing a with
  | nil => simp at hs
  | @char c ts s hc h ih =>
    cases a with
    | nil =>
      obtain ⟨-, rfl⟩ := List.cons.inj hs
      cases h
      exact hb
    | cons d a =>
      obtain ⟨rfl, rfl⟩ := List.cons.inj hs
      exact .char (fun hw => hmild (hc hw)) (ih rfl)
  | @token n ts s kind hn h ih =>
    rcases List.append_eq_append_iff.1 hs with ⟨u, hu, hrest⟩ | ⟨u, rfl, hrest⟩
    · cases u with
      | nil =>
        rw [List.append_nil] at hu
        rw [← hu, List.cons_append]
        exact .token kind hn (ih (a := []) hrest)
      | cons c u =>
        -- a token has no backslash
        obtain ⟨rfl, -⟩ := List.cons.inj hrest
        have hslash : isTokenChar '\\' = true := isTokenChar_of_mem (by rw [hu]; simp)
        cases hslash
    · rw [List.append_assoc, List.cons_append]
      exact .token kind hn (ih hrest.symm)

theorem eq_nil (h : Bears ts s) (hs : 'W' ∉ s) : ts = [] := by
  induction h with
  | nil => rfl
  | char _ _ ih =>
    simp only [List.mem_cons, not_or] at hs
    exact ih hs.2
  | token kind _ _ _ =>
    refine absurd (List.mem_append_left _ ?_) hs
    rw [ofNumber, List.append_assoc]
    exact List.mem_append_left _ (by decide)

theorem token_end (kind : Kind) {n : Nat} (hn : n < 10 ^ 6) : Bears [ofNumber kind n] (ofNumber kind n) := by
  have h := Bears.token kind hn .nil
  rwa [List.append_nil] at h

/-- A text is cut into two that bear tokens in front of and behind a character that is none of a token's. -/
theorem split (h : Bears ts (a ++ c :: b)) (hc : isTokenChar c = false) :
    ∃ us vs, ts = us ++ vs ∧ Bears us a ∧ Bears us (a ++ [c]) ∧ Bears vs b := by
  have hW : c ≠ 'W' := fun h => by
    rw [h] at hc
    cases hc
  have hlast : Bears [] [c] := .char (fun h => absurd h hW) .nil
  have hcap : isCapital c = false := (Bool.or_eq_false_iff.1 hc).1
  generalize hs : a ++ c :: b = s at h
  induction h generalizing a with
  | nil => simp at hs
  | @char x ts s hx h ih =>
    cases a with
    | nil =>
      obtain ⟨-, rfl⟩ := List.cons.inj hs
      exact ⟨[], ts, rfl, .nil, hlast, h⟩
    | cons y a =>
      obtain ⟨rfl, rfl⟩ := List.cons.inj hs
      obtain ⟨us, vs, rfl, hus, hus', hvs⟩ := ih rfl
      exact ⟨us, vs, rfl, .char (fun hw => ((hx hw).of_append hcap).1) hus, .char (fun hw => ((hx hw).of_append hcap).2) hus', hvs⟩
  | @token n ts s kind hn h ih =>
    rcases List.append_eq_append_iff.1 hs with ⟨u, hu, hrest⟩ | ⟨u, rfl, hrest⟩
    · cases u with
      | nil =>
        rw [List.append_nil] at hu
        rw [List.nil_append] at hrest
        obtain ⟨us, vs, rfl, hus, hus', hvs⟩ := ih (a := []) hrest
        obtain rfl := hus.eq_nil List.not_mem_nil
        exact ⟨[_], vs, rfl, hu ▸ token_end kind hn, hu ▸ .token kind hn hlast, hvs⟩
      | cons x u =>
        -- the character would stand in the token
        obtain ⟨rfl, -⟩ := List.cons.inj hrest
        rw [isTokenChar_of_mem (by rw [hu]; simp)] at hc
        cases hc
    · obtain ⟨us, vs, rfl, hus, hus', hvs⟩ := ih hrest.symm
      refine ⟨_ :: us, vs, rfl, .token kind hn hus, ?_, hvs⟩
      rw [List.append_assoc]
      exact .token kind hn hus'

/-- Behind a seam some of the last tokens are left whole. -/
theorem behind (h : Bears ts (a ++ b)) (hseam : Seam a b) : ∃ us, us <:+ ts ∧ Bears us b := by
  generalize hs : a ++ b = s at h
  induction h generalizing a with
  | nil =>
    obtain ⟨rfl, rfl⟩ := List.append_eq_nil_iff.1 hs
    exact ⟨[], List.suffix_refl _, .nil⟩
  | @char d ts s hd h ih =>
    cases a with
    | nil =>
      obtain rfl : b = d :: s := hs
      exact ⟨ts, List.suffix_refl _, .char hd h⟩
    | cons y a => exact ih (Seam.of_append (s := [y]) hseam) (List.cons.inj hs).2
  | @token n ts s kind hn h ih =>
    rcases List.append_eq_append_iff.1 hs with ⟨u, hu, rfl⟩ | ⟨u, rfl, hrest⟩
    · cases a with
      | nil =>
        obtain rfl : ofNumber kind n = u := hu
        exact ⟨_ :: ts, List.suffix_refl _, .token kind hn h⟩
      | cons y a =>
        -- the rest of the token is digits
        have hdigits : 'W' ∉ u := by
          rcases hseam with hnil | ⟨v, c, hlast, hc⟩ | hfirst
          · cases hnil
          · rw [hlast, List.append_assoc] at hu
            exact not_word_letter_of_split hu hc
          · cases u with
            | nil => exact List.not_mem_nil
            | cons c u =>
              have hc : isCapital c = false := hfirst c rfl
              have hne : 'W' ≠ c := fun h => by
                rw [← h] at hc
                cases hc
              exact List.not_mem_cons_of_ne_of_not_mem hne (not_word_letter_of_split hu hc)
        exact ⟨ts, List.suffix_cons _ ts, of_not_mem hdigits h⟩
    · obtain ⟨us, hus, hb⟩ := ih hseam.of_append hrest.symm
      exact ⟨us, hus.trans (List.suffix_cons _ ts), hb⟩

/-! ## What is read in them -/

/-- Behind a part of the token word that ends with its `W`, a text that bears tokens goes on with a mild character. -/
theorem mild_behind (h : Bears ts s) {v : Text} (hv : v <:+ word) (hne : v ≠ []) (hw : v ≠ word) (hs : s = v ++ b) : Mild b := by
  induction h generalizing v with
  | nil =>
    obtain ⟨rfl, -⟩ := List.append_eq_nil_iff.1 hs.symm
    exact absurd rfl hne
  | @char c ts s hc _ ih =>
    cases v with
    | nil => exact absurd rfl hne
    | cons x v =>
      obtain ⟨rfl, rfl⟩ := List.cons.inj hs
      have hrest : v <:+ word := (List.suffix_cons c v).trans hv
      by_cases hnil : v = []
      · -- the last letter of the word
        subst hnil
        have hlast : ∀ t ∈ word.tails, t.length = 1 → t = ['W'] := by decide
        have := hlast _ ((List.mem_tails _ _).2 hv) rfl
        exact hc (List.cons.inj this).1
      · exact ih hrest hnil (fun he => by
          have hlen := hv.length_le
          rw [he, List.length_cons] at hlen
          omega) rfl
  | @token n ts s kind hn _ _ =>
    have hp : v <+: ofNumber kind n ++ s := ⟨b, hs.symm⟩
    rw [ofNumber, List.append_assoc, List.append_assoc] at hp
    have hself := List.prefix_of_prefix_length_le hp (List.prefix_append word _) hv.length_le
    have hall : ∀ t ∈ word.tails, t <+: word → t = [] ∨ t = word := by decide
    exact ((hall v ((List.mem_tails _ _).2 hv) hself).elim (absurd · hne) (absurd · hw))

theorem reader_char (c : Char) (h : Bears ts s) : Token.reader none (c :: s) = none := by
  cases hr : Text.after? word (c :: s) with
  | none => simp [Token.reader, Token.kindName?, hr]
  | some r =>
    obtain ⟨-, hs⟩ := List.cons.inj (show c :: s = 'L' :: (word.tail ++ r) from Text.after?_eq_some_iff.1 hr)
    have hmild : Mild r := h.mild_behind (by decide) (by decide) (by decide) hs
    have hdigits : Token.digits? 6 (r.dropWhile isCapital) = none := by
      unfold Mild at hmild
      cases hrest : r.dropWhile isCapital with
      | nil => rfl
      | cons d r =>
        rw [hrest] at hmild
        have hd := hmild d rfl
        simp only [isMild, Bool.and_eq_true, Bool.not_eq_true'] at hd
        rw [Token.digits?, hd.1]
        rfl
    simp [Token.reader, Token.kindName?, hr, hdigits]

theorem all_eq (h : Bears ts s) : Token.all s = ts := by
  induction h with
  | nil => rfl
  | char _ h ih =>
    rw [Token.all, Text.readAll, forward_reader.cut_cons (h.reader_char _)]
    exact ih
  | token kind hn _ ih =>
    rw [Token.all, Text.readAll, cut_ofNumber kind hn]
    exact congrArg (_ :: ·) ih

/-! ## White space -/

/-- Making white space even keeps the tokens. -/
theorem collapse (h : Bears ts s) : Bears ts (Text.collapse s) := by
  have main (s : Text) : ∀ (ts : List Text) (w : Text), Bears ts (w.reverse ++ s) →
      Bears ts (Text.joinWith " " (Text.wordsFrom w s)) := by
    induction s with
    | nil =>
      intro ts w h
      rw [List.append_nil] at h
      cases w with
      | nil => exact h
      | cons d w => exact h
    | cons c s ih =>
      intro ts w h
      rw [Text.wordsFrom_cons]
      split
      · rename_i hblank
        obtain ⟨us, vs, rfl, hus, -, hvs⟩ := h.split (not_isTokenChar_of_isBlank hblank)
        have hrest := ih vs [] hvs
        cases w with
        | nil =>
          obtain rfl := hus.eq_nil List.not_mem_nil
          exact hrest
        | cons d w =>
          cases hwords : Text.wordsFrom [] s with
          | nil =>
            rw [hwords] at hrest
            obtain rfl := hrest.eq_nil List.not_mem_nil
            rw [List.append_nil]
            exact hus
          | cons v ws =>
            rw [hwords] at hrest
            have hspaced : Bears vs (' ' :: Text.joinWith " " (v :: ws)) := .char (fun h => absurd h (by decide)) hrest
            have hjoined := hus.append hspaced ((mild_cons rfl).2 (by decide))
            rw [List.append_cons] at hjoined
            exact hjoined
      · refine ih ts (c :: w) ?_
        rwa [List.reverse_cons, List.append_assoc]
  exact main s ts [] h

theorem strip (h : Bears ts s) : Bears ts (Text.strip s) := by
  obtain ⟨lead, trail, hsplit, hlead, htrail⟩ := Text.exists_strip s
  have hout {u : Text} (hu : ∀ c ∈ u, isBlank c = true) : 'W' ∉ u := fun hmem => absurd (hu _ hmem) (by decide)
  generalize Text.strip s = core at hsplit ⊢
  subst hsplit
  have hcore : Bears ts (core ++ trail) := by
    rw [List.append_assoc] at h
    clear htrail
    induction lead with
    | nil => exact h
    | cons c lead ih =>
      obtain ⟨hc, hlead⟩ := List.forall_mem_cons.1 hlead
      obtain ⟨us, vs, rfl, hus, -, hvs⟩ := Bears.split (a := []) h (not_isTokenChar_of_isBlank hc)
      obtain rfl := hus.eq_nil List.not_mem_nil
      exact ih hlead hvs
  cases trail with
  | nil => rwa [List.append_nil] at hcore
  | cons c trail =>
    obtain ⟨hc, htrail⟩ := List.forall_mem_cons.1 htrail
    obtain ⟨us, vs, rfl, hus, -, hvs⟩ := hcore.split (not_isTokenChar_of_isBlank hc)
    obtain rfl := hvs.eq_nil (hout htrail)
    rwa [List.append_nil]

end Bears

/-! ## Constructs taken out or replaced -/

/-- What stands in the place of a construct continues no token, and neither does what stands in front of it. -/
structure Strikable (x y : Text) : Prop where
  first : ∃ c u, x = c :: u ∧ isTokenChar c = false ∧ (c = '\\' ∨ ∃ d v, y = d :: v ∧ isCapital d = false ∧ isMild d = true)
  quiet : 'W' ∉ y

/-- The second text is the first one with constructs replaced, and none of them ends in the letters of a token. -/
inductive Struck : Text → Text → Prop
  | nil : Struck [] []
  | keep {s t : Text} (c : Char) (h : Struck s t) : Struck (c :: s) (c :: t)
  | swap {x y s t : Text} (hx : Strikable x y) (hseam : Seam x s) (h : Struck s t) : Struck (x ++ s) (y ++ t)

namespace Struck

theorem refl (s : Text) : Struck s s := by
  induction s with
  | nil => exact .nil
  | cons c s ih => exact .keep c ih

/-- A character behind both texts that is no capital letter. -/
theorem concat (h : Struck s t) (hc : isCapital c = false) : Struck (s ++ [c]) (t ++ [c]) := by
  induction h with
  | nil => exact refl [c]
  | keep d h ih => exact .keep d ih
  | @swap x y s t hx hseam h ih =>
    rw [List.append_assoc, List.append_assoc]
    refine .swap hx (hseam.imp id (Or.imp id fun hfirst d hd => ?_)) ih
    cases s with
    | nil =>
      obtain rfl : c = d := by simpa using hd
      exact hc
    | cons d s => exact hfirst _ hd

theorem mild (h : Struck s t) (hs : Mild s) : Mild t := by
  induction h with
  | nil => exact hs
  | keep c h ih =>
    cases hc : isCapital c with
    | true => exact (mild_capital hc).2 (ih ((mild_capital hc).1 hs))
    | false => exact (mild_cons hc).2 ((mild_cons hc).1 hs)
  | @swap x y s t hx _ h =>
    obtain ⟨c, u, rfl, hc, rfl | ⟨d, v, rfl, hd, hmild⟩⟩ := hx.first
    · exact absurd ((mild_cons rfl).1 hs) (by decide)
    · exact (mild_cons hd).2 hmild

/-- No construct begins in a token. -/
theorem token {w : Text} (hw : ∀ c ∈ w, isTokenChar c = true) (h : Struck (w ++ s) t) : ∃ t', t = w ++ t' ∧ Struck s t' := by
  induction w generalizing t with
  | nil => exact ⟨t, rfl, h⟩
  | cons c w ih =>
    obtain ⟨hc, hw⟩ := List.forall_mem_cons.1 hw
    generalize hs : c :: w ++ s = u at h
    cases h with
    | nil => cases hs
    | keep d h =>
      obtain ⟨rfl, hrest⟩ := List.cons.inj hs
      obtain ⟨t', rfl, h'⟩ := ih hw (hrest ▸ h)
      exact ⟨t', rfl, h'⟩
    | swap hx _ h =>
      obtain ⟨d, v, rfl, hd, -⟩ := hx.first
      obtain ⟨rfl, -⟩ := List.cons.inj hs
      rw [hc] at hd
      cases hd

/-- The tokens that are left are some of those that were there. -/
theorem bears (h : Struck s t) (hs : Bears ts s) : ∃ us, us.Sublist ts ∧ Bears us t := by
  induction hlen : s.length using Nat.strongRecOn generalizing s t ts with
  | ind n ih =>
    cases hs with
    | nil =>
      generalize hnil : ([] : Text) = s at h
      cases h with
      | nil => exact ⟨[], List.Sublist.refl _, .nil⟩
      | keep c h => cases hnil
      | swap hx _ h =>
        obtain ⟨c, u, rfl, -⟩ := hx.first
        cases hnil
    | @char c _ s hc hs =>
      generalize hcons : c :: s = s' at h
      cases h with
      | nil => cases hcons
      | keep d h =>
        obtain ⟨rfl, rfl⟩ := List.cons.inj hcons
        obtain ⟨us, hus, ht⟩ := ih s.length (by simp at hlen; omega) h hs rfl
        exact ⟨us, hus, .char (fun hw => h.mild (hc hw)) ht⟩
      | @swap x y s₂ t hx hseam h =>
        have hbears : Bears ts (x ++ s₂) := hcons ▸ .char hc hs
        obtain ⟨us, hus, hs₂⟩ := hbears.behind hseam
        obtain ⟨c', u, rfl, -⟩ := hx.first
        have hshort : s₂.length < n := by
          rw [← hlen, hcons, List.cons_append, List.length_cons, List.length_append]
          omega
        obtain ⟨vs, hvs, ht⟩ := ih s₂.length hshort h hs₂ rfl
        exact ⟨vs, hvs.trans hus.sublist, .of_not_mem hx.quiet ht⟩
    | @token n _ s kind hn hs =>
      obtain ⟨t', rfl, h'⟩ := token (fun c hc => isTokenChar_of_mem hc) h
      have hcons : ofNumber kind n = 'L' :: (ofNumber kind n).tail := rfl
      have hshort : s.length < (ofNumber kind n ++ s).length := by
        rw [hcons, List.cons_append, List.length_cons, List.length_append]
        omega
      obtain ⟨us, hus, ht⟩ := ih s.length (by rw [← hlen]; exact hshort) h' hs rfl
      exact ⟨_, hus.cons_cons _, .token kind hn ht⟩

/-- Every construct that is read makes way for another text. -/
theorem replaceAll {α : Type} {read : Reader α} {f : α → Text}
    (hread : ∀ before s a rest, read before s = some (a, rest) → ∃ x, s = x ++ rest ∧ Strikable x (f a) ∧ Seam x rest)
    (s : Text) : Struck s (s.replaceAll read f) := by
  have main (g : Piece α → Text) (hchar : ∀ c, g (.char c) = [c]) (hhit : ∀ a source, g (.hit a source) = f a)
      (before : Option Char) (s : Text) : Struck s ((Text.cutFrom read 0 before s).flatMap g) := by
    induction hlen : s.length using Nat.strongRecOn generalizing s before with
    | ind n ih =>
      cases s with
      | nil => exact .nil
      | cons c s =>
        rcases Text.cutFrom_cons read before c s with hcut | ⟨a, rest, hr, hle, hcut⟩
        · rw [hcut, List.flatMap_cons, hchar]
          exact .keep c (ih s.length (by simp at hlen; omega) (some c) s rfl)
        · obtain ⟨x, hx, hstrike, hseam⟩ := hread before (c :: s) a rest hr
          obtain ⟨b, hcut⟩ := hcut ⟨x, hx.symm⟩
          rw [hcut, List.flatMap_cons, hhit, hx]
          exact .swap hstrike hseam (ih rest.length (by simp at hlen; omega) b rest rfl)
  exact main _ (fun _ => rfl) (fun _ _ => rfl) none s

end Struck

end Galley.Block
