import Galley.Proofs.Tokens
import Mathlib.Data.List.Infix
/-!
# Texts of whole tokens

A text is written with whole tokens if the word that begins a token stands in it only at the beginning of
tokens that were handed out. Such a text is read from the end, character by character and token by token
(`Whole.induct`), and a token that was handed out stands in it just where it is read (`infix_token`).
-/

namespace Galley.Block

open Token (word ofNumber)

/-- The word that begins every token only begins tokens among `issued`. -/
def Whole (issued : List Text) (s : Text) : Prop := ∀ u ∈ s.tails, word <+: u → ∃ token ∈ issued, token <+: u

instance (issued : List Text) (s : Text) : Decidable (Whole issued s) :=
  inferInstanceAs (Decidable (∀ u ∈ s.tails, word <+: u → ∃ token ∈ issued, token <+: u))

/-- The word that begins every token does not come about where two texts meet. -/
def Apart (x y : Text) : Prop :=
  ∀ u ∈ (x ++ y).tails, word <+: u → u.length ≤ y.length ∨ y.length + word.length ≤ u.length

instance (x y : Text) : Decidable (Apart x y) :=
  inferInstanceAs (Decidable (∀ u ∈ (x ++ y).tails, word <+: u → u.length ≤ y.length ∨ y.length + word.length ≤ u.length))

/-- At how many places of a text another begins. -/
def occurrences (t s : Text) : Nat := s.tails.countP (t.isPrefixOf ·)

/-- The first tokens that a table hands out, in order: the `n`th has the number `n`. -/
def Numbered (issued : List Text) : Prop := ∀ i token, issued[i]? = some token → ∃ kind, token = ofNumber kind (i + 1)

section Issued

variable {issued : List Text} {s t : Text}

theorem Whole.of_suffix (h : Whole issued s) (ht : t <:+ s) : Whole issued t := by
  intro u hu hw
  rw [List.mem_tails] at hu
  exact h u ((List.mem_tails _ _).2 (hu.trans ht)) hw

theorem Whole.mono {issued' : List Text} (h : Whole issued s) (hsub : issued ⊆ issued') : Whole issued' s := by
  intro u hu hw
  obtain ⟨token, hm, ht⟩ := h u hu hw
  exact ⟨token, hsub hm, ht⟩

theorem Apart.of_suffix {x x' y : Text} (h : Apart x y) (hx : x' <:+ x) : Apart x' y := by
  intro u hu hw
  obtain ⟨v, rfl⟩ := hx
  rw [List.mem_tails] at hu
  exact h u ((List.mem_tails _ _).2 (hu.trans ⟨v, by rw [List.append_assoc]⟩)) hw

theorem Numbered.of_mem (h : Numbered issued) (hlen : issued.length < 10 ^ 6) {token : Text} (hm : token ∈ issued) :
    ∃ kind n, n < 10 ^ 6 ∧ token = ofNumber kind n := by
  obtain ⟨i, hi, rfl⟩ := List.getElem_of_mem hm
  obtain ⟨kind, hk⟩ := h i _ (List.getElem?_eq_getElem hi)
  exact ⟨kind, i + 1, Nat.lt_of_le_of_lt (Nat.succ_le_of_lt hi) hlen, hk⟩

variable (hn : Numbered issued) (hlen : issued.length < 10 ^ 6)

include hn hlen

theorem begins_token {token : Text} (hm : token ∈ issued) : word <+: token := by
  obtain ⟨kind, n, -, rfl⟩ := hn.of_mem hlen hm
  exact ⟨kind.name ++ Text.ofNatPadded 6 n, by rw [ofNumber, List.append_assoc]⟩

theorem word_ne_nil {token : Text} (hm : token ∈ issued) : token ≠ [] := by
  rintro rfl
  exact absurd (begins_token hn hlen hm) (by decide)

/-- A text of whole tokens is built up from the end, by a character at which no token begins or by a token. -/
theorem Whole.induct {P : Text → Prop} (nil : P [])
    (char : ∀ c s, ¬word <+: c :: s → P s → P (c :: s))
    (token : ∀ token ∈ issued, ∀ rest, Whole issued rest → P rest → P (token ++ rest)) (h : Whole issued s) : P s := by
  induction hl : s.length using Nat.strong_induction_on generalizing s with
  | _ n ih =>
    cases s with
    | nil => exact nil
    | cons c s =>
      by_cases hw : word <+: c :: s
      · obtain ⟨x, hx, rest, hrest⟩ := h (c :: s) (by simp) hw
        rw [← hrest]
        have hpos : 0 < x.length := Nat.lt_of_lt_of_le (by decide : 0 < word.length) (begins_token hn hlen hx).length_le
        have hwhole := h.of_suffix ⟨x, hrest⟩
        refine token x hx rest hwhole (ih rest.length ?_ hwhole rfl)
        rw [← hl, ← hrest, List.length_append]
        omega
      · refine char c s hw (ih s.length ?_ (h.of_suffix (List.suffix_cons c s)) rfl)
        rw [← hl, List.length_cons]
        omega

/-- A token is read whole. -/
theorem reader_token {token : Text} (hm : token ∈ issued) (rest : Text) :
    Token.reader none (token ++ rest) = some (token, rest) := by
  obtain ⟨kind, n, hlt, rfl⟩ := hn.of_mem hlen hm
  exact Token.reader_ofNumber kind hlt none rest

/-- Of the tokens that were handed out, one begins a text at most. -/
theorem token_unique {x y r r' : Text} (hx : x ∈ issued) (hy : y ∈ issued) (h : x ++ r = y ++ r') : x = y := by
  have hr := reader_token hn hlen hx r
  rw [h, reader_token hn hlen hy r'] at hr
  exact (congrArg Prod.fst (Option.some.inj hr)).symm

theorem not_word_behind {token p u : Text} (hm : token ∈ issued) (h : token = p ++ u) (hp : p ≠ []) (hu : u ≠ [])
    (rest : Text) : ¬word <+: u ++ rest := by
  obtain ⟨kind, n, -, rfl⟩ := hn.of_mem hlen hm
  exact Token.not_word_inside h hp hu rest

/-! ## What is read in them -/

omit hn hlen in
theorem forward_reader : Text.Forward Token.reader := fun _ _ _ => rfl

omit hn hlen in
theorem reader_eq_none (h : ¬word <+: s) : Token.reader none s = none := by
  have hword : Text.after? word s = none := by
    cases hr : Text.after? word s with
    | none => rfl
    | some r => exact absurd ⟨r, (Text.after?_eq_some_iff.1 hr).symm⟩ h
  simp only [Token.reader, Token.kindName?, hword, Option.bind_eq_bind, Option.bind_none, Option.map_none]

omit hn hlen in
theorem cut_ofNumber (kind : Kind) {n : Nat} (hn : n < 10 ^ 6) (rest : Text) :
    Text.cut Token.reader (ofNumber kind n ++ rest) =
      .hit (ofNumber kind n) (ofNumber kind n) :: Text.cut Token.reader rest :=
  forward_reader.cut_hit (c := 'L') (t := (ofNumber kind n).tail) (Token.reader_ofNumber kind hn none rest) rfl

theorem cut_token {token : Text} (hm : token ∈ issued) (rest : Text) :
    Text.cut Token.reader (token ++ rest) = .hit token token :: Text.cut Token.reader rest := by
  obtain ⟨kind, n, hlt, rfl⟩ := hn.of_mem hlen hm
  exact cut_ofNumber kind hlt rest

/-- A text in front of a token does not join with it. -/
theorem apart_token {token : Text} (hm : token ∈ issued) (x y : Text) : Apart x (token ++ y) := by
  intro u hu hw
  by_contra hplace
  obtain ⟨v, hv⟩ := List.suffix_of_suffix_length_le (List.suffix_append x (token ++ y)) ((List.mem_tails _ _).1 hu) (by omega)
  obtain ⟨r, hr⟩ := begins_token hn hlen hm
  rw [← hv, List.length_append] at hplace
  rw [← hv, ← hr, List.append_assoc] at hw
  -- the word would begin once more inside itself
  obtain ⟨w, hwv⟩ := List.prefix_of_prefix_length_le (List.prefix_append v _) hw (by omega)
  have hinside : w <+: word ++ (r ++ y) := by
    refine (List.prefix_append_right_inj v).1 ?_
    rw [hwv]
    exact hw
  have hlong : w.length ≤ word.length := by rw [← hwv, List.length_append]; omega
  have hself := List.prefix_of_prefix_length_le hinside (List.prefix_append word _) hlong
  have hall : ∀ t ∈ word.tails, t <+: word → t = [] ∨ t = word := by decide
  have hw' : w <:+ word := ⟨v, hwv⟩
  rcases hall w ((List.mem_tails _ _).2 hw') hself with rfl | rfl
  · rw [List.append_nil] at hwv
    rw [hwv] at hplace
    omega
  · have : v = [] := List.append_left_eq_self.1 hwv
    rw [this] at hplace
    simp at hplace

/-! ## The tokens in them -/

theorem infix_token {x token : Text} (hx : x ∈ issued) (hm : token ∈ issued) {rest : Text} :
    x <:+: token ++ rest ↔ x = token ∨ x <:+: rest := by
  constructor
  · rintro ⟨p, q, hpq⟩
    rw [List.append_assoc] at hpq
    rcases List.append_eq_append_iff.1 hpq with ⟨v, hv, hq⟩ | ⟨v, rfl, hq⟩
    · -- the token begins at the same place or inside
      by_cases hp : p = []
      · rw [hp, List.nil_append] at hpq
        exact .inl (token_unique hn hlen hx hm hpq)
      · by_cases hv' : v = []
        · rw [hv', List.nil_append] at hq
          exact .inr ⟨[], q, by rw [← hq, List.nil_append]⟩
        · have hword : word <+: v ++ rest := by
            rw [← hq]
            exact (begins_token hn hlen hx).trans (List.prefix_append x q)
          exact absurd hword (not_word_behind hn hlen hm hv hp hv' rest)
    · exact .inr ⟨v, q, by rw [hq, List.append_assoc]⟩
  · rintro (rfl | h)
    · exact (List.prefix_append x rest).isInfix
    · exact h.trans (List.suffix_append token rest).isInfix

theorem not_infix_nil {x : Text} (hx : x ∈ issued) : ¬x <:+: [] := by
  intro h
  rw [List.infix_nil.1 h] at hx
  exact absurd (begins_token hn hlen hx) (by decide)

end Issued

theorem occurrences_le_of_suffix {x s t : Text} (h : t <:+ s) : occurrences x t ≤ occurrences x s := by
  obtain ⟨v, rfl⟩ := h
  induction v with
  | nil => exact Nat.le_refl _
  | cons c v ih =>
    rw [List.cons_append, occurrences, occurrences, List.tails_cons, List.countP_cons]
    exact Nat.le_trans ih (Nat.le_add_right _ _)

theorem occurrences_append_le {x : Text} (hx : x ≠ []) (s t : Text) : occurrences x s + occurrences x t ≤ occurrences x (s ++ t) := by
  induction s with
  | nil =>
    obtain ⟨c, x, rfl⟩ := List.exists_cons_of_ne_nil hx
    simp [occurrences]
  | cons c s ih =>
    have hmono : (x.isPrefixOf (c :: s) = true) → x.isPrefixOf (c :: s ++ t) = true := by
      rw [List.isPrefixOf_iff_prefix, List.isPrefixOf_iff_prefix]
      exact fun h => h.trans (List.prefix_append _ t)
    have hcons (s : Text) : occurrences x (c :: s) = occurrences x s + if x.isPrefixOf (c :: s) then 1 else 0 := by
      rw [occurrences, List.tails_cons, List.countP_cons]
      rfl
    rw [List.cons_append, hcons, hcons]
    rw [List.cons_append] at hmono
    split <;> split <;> simp_all <;> omega

theorem one_le_occurrences {x s : Text} (h : x <:+: s) : 1 ≤ occurrences x s := by
  obtain ⟨p, q, rfl⟩ := h
  refine List.countP_pos_iff.2 ⟨x ++ q, ?_, by simp⟩
  rw [List.mem_tails]
  exact ⟨p, by simp⟩

end Galley.Block
